import WasmEmbed.Path.Relative

/-!
# Joining paths, and the places that they lead to

Joining is associative, and an absolute path forgets what it is joined to. `Path.place` reads a path by
name alone, so a plain name at the end of a path is the last name of the place.
-/

namespace WasmEmbed.Path

/-! ## Joining

A relative path adds its names to the path it is joined to. So joining is the concatenation of names, up
to the last absolute path.
-/

/-- An absolute path forgets what it is joined to. -/
theorem join_of_isAbsolute {p q : Path} (h : q.isAbsolute = true) : p.join q = q := by
  simp [join, h]

theorem join_of_relative {p q : Path} (h : q.isAbsolute = false) :
    p.join q = ⟨p.anchor, p.names ++ q.names⟩ := by
  simp [join, h]

theorem isAbsolute_join (p q : Path) : (p.join q).isAbsolute = (p.isAbsolute || q.isAbsolute) := by
  cases hq : q.isAbsolute with
  | true => simp [join_of_isAbsolute hq, hq]
  | false => simp [join_of_relative hq, isAbsolute]

/-- Joining is associative, by cases on which of the paths are absolute. -/
theorem join_assoc (p q r : Path) : (p.join q).join r = p.join (q.join r) := by
  cases hr : r.isAbsolute with
  | true => simp only [join_of_isAbsolute hr]
  | false =>
      cases hq : q.isAbsolute with
      | true =>
          have hqr : (q.join r).isAbsolute = true := by simp [isAbsolute_join, hq]
          rw [join_of_isAbsolute hq, join_of_isAbsolute hqr]
      | false =>
          have hqr : (q.join r).isAbsolute = false := by simp [isAbsolute_join, hq, hr]
          rw [join_of_relative hr, join_of_relative hqr, join_of_relative hq, join_of_relative hr]
          simp only [List.append_assoc]

/-! ## Plain names

A plain name is one that is read back as itself: it is not empty, has no slash, and is neither the name
for the same directory nor the one for the parent.
-/

/-- A name of a file in a directory: it has no slash, and it is neither of the two names with a meaning
of their own. -/
structure IsPlain (name : Name) : Prop where
  ne_nil : name ≠ []
  ne_current : name ≠ currentName
  ne_parent : name ≠ parentName
  slash_notMem : '/' ∉ name

theorem splitSlashes_of_notMem {text : List Char} (h : '/' ∉ text) : splitSlashes text = [text] := by
  induction text with
  | nil => rfl
  | cons c rest ih =>
      rw [List.mem_cons, not_or] at h
      rw [splitSlashes, if_neg (Ne.symm h.1), ih h.2]

/-- A plain name is the text of a path with this name only. -/
theorem ofText_of_isPlain {name : Name} (h : IsPlain name) : ofText name = ⟨.here, [name]⟩ := by
  have hfront : name.takeWhile (· == '/') = [] := by
    cases name with
    | nil => rfl
    | cons c rest =>
        have hc : c ≠ '/' := fun e => h.slash_notMem (by simp [e])
        simp [hc]
  simp [ofText, hfront, splitSlashes_of_notMem h.slash_notMem, Anchor.ofSlashes, isName, h.ne_nil,
    h.ne_current]

theorem names_child {p : Path} {name : Name} (h : IsPlain name) :
    (p.child name).names = p.names ++ [name] := by
  simp [child, ofText_of_isPlain h, join, isAbsolute]

theorem isAbsolute_child {p : Path} {name : Name} (h : IsPlain name) :
    (p.child name).isAbsolute = p.isAbsolute := by
  simp [child, ofText_of_isPlain h, join, isAbsolute]

/-- Joining goes through a name at the end. -/
theorem join_child {p q : Path} {name : Name} : p.join (q.child name) = (p.join q).child name := by
  simp only [child, join_assoc]

/-- A plain name can be taken off again. -/
theorem child_inj {p q : Path} {name : Name} (h : IsPlain name) :
    p.child name = q.child name ↔ p = q := by
  obtain ⟨anchor, names⟩ := p
  obtain ⟨anchor', names'⟩ := q
  simp [child, ofText_of_isPlain h, join, isAbsolute]

/-! ## Places

The place of a path is a list of names without steps up. A plain name adds itself to it.
-/

/-- The path without names that lead up. -/
def normal (p : Path) : Path := ⟨.root, p.names.foldl descend []⟩

theorem normal_join (cwd p : Path) : (cwd.join p).normal = ⟨.root, place cwd p⟩ := rfl

theorem normal_child (p : Path) {name : Name} (h : IsPlain name) :
    (p.child name).normal = ⟨.root, p.normal.names ++ [name]⟩ := by
  simp [normal, names_child h, descend, h.ne_parent]

theorem normal_child_inj {p q : Path} {name : Name} (h : IsPlain name) :
    (p.child name).normal = (q.child name).normal ↔ p.normal = q.normal := by
  rw [normal_child p h, normal_child q h]
  simp [normal]

/-- A plain name is the last one of the place. -/
theorem place_child (cwd p : Path) {name : Name} (h : IsPlain name) :
    place cwd (p.child name) = place cwd p ++ [name] := by
  simp [place, join_child, names_child h, descend, h.ne_parent]

end WasmEmbed.Path
