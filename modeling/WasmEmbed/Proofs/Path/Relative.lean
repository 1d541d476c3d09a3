import WasmEmbed.Path.Relative
import WasmEmbed.Proofs.Path.Place

/-!
# What a specifier leads to

The names that are read from the text of a path are those that it was written from (`splitSlashes_join`).
Steps between two places lead from the one to the other (`walk_between`), so a specifier leads from the
directory of a script to the script that it names (`place_specifier`).
-/

namespace WasmEmbed.Path

/-! ## Names that are read back

The text of a path is its names with slashes between them. They are read back if none of them is empty,
has a slash or stands for the same directory.
-/

/-- A name that is read back from the text of a path. -/
def IsReadable (name : Name) : Prop := isName name = true ∧ '/' ∉ name

theorem IsPlain.isReadable {name : Name} (h : IsPlain name) : IsReadable name :=
  ⟨by simp [isName, h.ne_nil, h.ne_current], h.slash_notMem⟩

/-- The names of a path are read back from its text. -/
def IsProper (p : Path) : Prop := ∀ name ∈ p.names, IsReadable name

theorem slash_notMem_of_mem_splitSlashes (text : List Char) : ∀ part ∈ splitSlashes text, '/' ∉ part := by
  induction text with
  | nil => simp [splitSlashes]
  | cons c rest ih =>
      rw [splitSlashes]
      split
      · intro part hpart
        rcases List.mem_cons.mp hpart with rfl | hpart
        · simp
        · exact ih part hpart
      · next hc =>
          split
          · simpa using Ne.symm hc
          · next name names hsplit =>
              rw [hsplit] at ih
              intro part hpart
              rcases List.mem_cons.mp hpart with rfl | hpart
              · rw [List.mem_cons, not_or]
                exact ⟨Ne.symm hc, ih name (by simp)⟩
              · exact ih part (by simp [hpart])

/-- A path that is read from a text is proper. -/
theorem isProper_ofText (text : List Char) : (ofText text).IsProper := by
  intro name hname
  obtain ⟨hmem, hisName⟩ := List.mem_filter.mp hname
  exact ⟨hisName, slash_notMem_of_mem_splitSlashes text name hmem⟩

/-- A name with a slash behind it is the first part. -/
theorem splitSlashes_append {name : Name} (h : '/' ∉ name) (rest : List Char) :
    splitSlashes (name ++ '/' :: rest) = name :: splitSlashes rest := by
  induction name with
  | nil => rw [List.nil_append, splitSlashes, if_pos rfl]
  | cons c name ih =>
      rw [List.mem_cons, not_or] at h
      rw [List.cons_append, splitSlashes, if_neg (Ne.symm h.1), ih h.2]

/-- Names without slashes are read back from their text. -/
theorem splitSlashes_join {names : List Name} (hne : names ≠ []) (h : ∀ name ∈ names, '/' ∉ name) :
    splitSlashes (joinSlashes names) = names := by
  induction names with
  | nil => exact absurd rfl hne
  | cons name rest ih =>
      cases rest with
      | nil => exact splitSlashes_of_notMem (h name (by simp))
      | cons next rest =>
          rw [joinSlashes, splitSlashes_append (h name (by simp)),
            ih (by simp) fun name hname => h name (by simp [hname])]
          simp

/-- The names of a relative path are read back from its text. -/
theorem names_ofText_text {names : List Name} (h : ∀ name ∈ names, IsReadable name) :
    (splitSlashes (Path.mk .here names).text).filter isName = names := by
  cases hnames : names with
  | nil => decide
  | cons first rest =>
      have hne : names ≠ [] := by simp [hnames]
      have htext : (Path.mk .here names).text = joinSlashes names := by
        rw [text, if_neg (by simp [hne])]
        rfl
      rw [← hnames, htext, splitSlashes_join hne fun name hname => (h name hname).2]
      exact List.filter_eq_self.mpr fun name hname => (h name hname).1

theorem ofText_of_head?_ne {text : List Char} (h : text.head? ≠ some '/') :
    ofText text = ⟨.here, (splitSlashes text).filter isName⟩ := by
  have hfront : text.takeWhile (· == '/') = [] := by
    cases text with
    | nil => rfl
    | cons c rest =>
        have hc : c ≠ '/' := fun e => h (by simp [e])
        simp [hc]
  rw [ofText, hfront]
  rfl

/-- The text of a relative path does not begin with a slash. -/
theorem head?_text_ne {names : List Name} (h : ∀ name ∈ names, IsReadable name) :
    (Path.mk .here names).text.head? ≠ some '/' := by
  cases names with
  | nil => decide
  | cons first rest =>
      obtain ⟨hname, hslash⟩ := h first (by simp)
      cases first with
      | nil => cases hname
      | cons c name =>
          have hc : c ≠ '/' := fun e => hslash (by simp [e])
          cases rest with
          | nil => simpa [text, joinSlashes, Anchor.text] using hc
          | cons next rest => simpa [text, joinSlashes, Anchor.text] using hc

/-! ## Places

The steps between two places go up to the directory that both have in common and then down. Going up is
taking names away, for the places hold no steps up themselves.
-/

/-- The names that lead to a place are names of the path, and none of them leads up. -/
theorem mem_of_mem_walk {start names : List Name} {name : Name}
    (h : name ∈ names.foldl descend start) : name ∈ start ∨ name ∈ names ∧ name ≠ parentName := by
  induction names generalizing start with
  | nil => exact Or.inl h
  | cons first rest ih =>
      rcases ih h with hstart | ⟨hrest, hne⟩
      · rw [descend] at hstart
        split at hstart
        · exact Or.inl (List.dropLast_subset _ hstart)
        · next hfirst =>
            rcases List.mem_append.mp hstart with hstart | hstart
            · exact Or.inl hstart
            · obtain rfl := List.mem_singleton.mp hstart
              exact Or.inr ⟨by simp, hfirst⟩
      · exact Or.inr ⟨by simp [hrest], hne⟩

theorem isReadable_of_mem_place {cwd p : Path} (hcwd : cwd.IsProper) (hp : p.IsProper) {name : Name}
    (h : name ∈ place cwd p) : IsReadable name ∧ name ≠ parentName := by
  rcases mem_of_mem_walk h with h | ⟨h, hne⟩
  · cases h
  · refine ⟨?_, hne⟩
    rw [join] at h
    split at h
    · exact hp name h
    · rcases List.mem_append.mp h with h | h
      · exact hcwd name h
      · exact hp name h

/-- Names that do not lead up lead down. -/
theorem walk_of_forall_ne {start names : List Name} (h : ∀ name ∈ names, name ≠ parentName) :
    names.foldl descend start = start ++ names := by
  induction names generalizing start with
  | nil => simp
  | cons first rest ih =>
      rw [List.foldl_cons, descend, if_neg (h first (by simp)), ih fun name hname => h name (by simp [hname])]
      simp

/-- Steps up take names off. -/
theorem walk_replicate (start : List Name) (k : Nat) :
    (List.replicate k parentName).foldl descend start = start.take (start.length - k) := by
  induction k generalizing start with
  | zero => simp
  | succ k ih =>
      rw [List.replicate_succ, List.foldl_cons, ih, descend, if_pos rfl, List.dropLast_eq_take,
        List.take_take, List.length_take]
      congr 1
      omega

/-- Up to the common length both places are the same. -/
theorem take_commonLength (start target : List Name) :
    start.take (commonLength start target) = target.take (commonLength start target) := by
  fun_induction commonLength start target with
  | case1 a as b ih => simp [ih]
  | case2 => rfl
  | case3 => rfl

/-- The steps between two places lead from the one to the other. -/
theorem walk_between {start target : List Name} (h : ∀ name ∈ target, name ≠ parentName) :
    (between start target).foldl descend start = target := by
  have hle : commonLength start target ≤ start.length := by
    fun_induction commonLength start target with
    | case1 a as b ih => simpa using ih fun name hname => h name (by simp [hname])
    | case2 => omega
    | case3 => omega
  rw [between, List.foldl_append, walk_replicate, Nat.sub_sub_self hle,
    walk_of_forall_ne fun name hname => h name (List.mem_of_mem_drop hname), take_commonLength,
    List.take_append_drop]

/-! ## Specifiers

A specifier begins with a point and a slash where the path would begin with a name. When it is read, the
point is no name of the path.
-/

/-- Joining a relative path goes on from the place. -/
theorem place_join {cwd p q : Path} (hq : q.isAbsolute = false) :
    place cwd (p.join q) = q.names.foldl descend (place cwd p) := by
  rw [place, ← join_assoc, join_of_relative hq, List.foldl_append]
  rfl

/-- What is read from a specifier are the steps that it was written from. -/
theorem ofText_specifier {cwd source target : Path} (hcwd : cwd.IsProper) (htarget : target.IsProper) :
    ofText (specifier cwd source target) =
      ⟨.here, between (place cwd source.parent) (place cwd target)⟩ := by
  have hsteps : ∀ name ∈ between (place cwd source.parent) (place cwd target), IsReadable name := by
    intro name hname
    rcases List.mem_append.mp hname with hname | hname
    · rw [List.eq_of_mem_replicate hname]
      exact ⟨by decide, by decide⟩
    · exact (isReadable_of_mem_place hcwd htarget (List.mem_of_mem_drop hname)).1
  rw [specifier]
  split
  · rw [ofText_of_head?_ne (head?_text_ne hsteps), names_ofText_text hsteps]
  · -- The point and the slash in front are no name.
    rw [ofText_of_head?_ne (by simp), splitSlashes, if_neg (by decide), splitSlashes, if_pos rfl]
    simp only
    rw [List.filter_cons_of_neg (by decide), names_ofText_text hsteps]

/-- A specifier leads from the directory of a script to the script that it names. -/
theorem place_specifier {cwd source target : Path} (hcwd : cwd.IsProper) (htarget : target.IsProper) :
    place cwd (source.parent.join (.ofText (specifier cwd source target))) = place cwd target := by
  rw [ofText_specifier hcwd htarget, place_join rfl]
  exact walk_between fun name hname => (isReadable_of_mem_place hcwd htarget hname).2

end WasmEmbed.Path
