import Mathlib.Order.Basic
import WasmEmbed.Script.Cursor

/-!
# Moving forward

Cursors on one text are ordered by how far they have moved: `c ≤ d` says that what is left at `c` is a
front part and then what is left at `d`, and that the offset has grown by the bytes of the front part.
Every move of the reader goes forward in this order, which is what locates a statement in the bytes of
its file.
-/

namespace WasmEmbed.Script

/-! ## Characters and bytes of a text

Offsets count bytes, and a text is a list of characters. Every character has at least one byte.
-/

/-- Whether all characters of a text have a property is decided by going through the text, not through all
characters that there are. -/
instance decidableForallMem {p : Char → Prop} [DecidablePred p] (text : List Char) :
    Decidable (∀ c ∈ text, p c) := List.decidableBAll p text

/-- The bytes of two texts are added. -/
@[simp] theorem byteCount_append (u v : List Char) :
    byteCount (u ++ v) = byteCount u + byteCount v := by
  induction u with
  | nil => simp
  | cons x xs ih => simp [ih, Nat.add_assoc]

/-- Only the empty text has no bytes. -/
theorem byteCount_eq_zero {text : List Char} : byteCount text = 0 ↔ text = [] := by
  cases text with
  | nil => simp
  | cons x xs =>
      have := Char.utf8Size_pos x
      simp only [byteCount_cons, reduceCtorEq, iff_false]
      omega

namespace Cursor

/-! ## The order

Both the offset and the rest of the text have to fit. So two cursors are comparable only if they stand on
one text.
-/

/-- `c ≤ d` says that `d` is reached from `c` by moving over a front part of the text. -/
instance : LE Cursor where
  le c d := ∃ front, c.rest = front ++ d.rest ∧ d.offset = c.offset + byteCount front

instance : PartialOrder Cursor where
  le_refl c := ⟨[], by simp⟩
  le_trans c d e := by
    rintro ⟨u, hu, hou⟩ ⟨v, hv, hov⟩
    refine ⟨u ++ v, ?_, ?_⟩
    · rw [hu, hv, List.append_assoc]
    · rw [hov, hou, byteCount_append, Nat.add_assoc]
  le_antisymm c d := by
    rintro ⟨u, hu, hou⟩ ⟨v, hv, hov⟩
    have hlength : u.length = 0 := by
      have h₁ := congrArg List.length hu
      have h₂ := congrArg List.length hv
      simp only [List.length_append] at h₁ h₂
      omega
    obtain rfl := List.eq_nil_of_length_eq_zero hlength
    obtain ⟨o, rest⟩ := c
    obtain ⟨o', rest'⟩ := d
    simp_all

/-- The offsets follow the order. -/
theorem offset_le {c d : Cursor} (h : c ≤ d) : c.offset ≤ d.offset := by
  obtain ⟨front, -, ho⟩ := h
  omega

/-- Where the cursor is further, so is its offset, because every character has a byte. -/
theorem offset_lt {c d : Cursor} (h : c < d) : c.offset < d.offset := by
  obtain ⟨front, hf, ho⟩ := h.le
  have hne : byteCount front ≠ 0 := by
    intro hzero
    obtain rfl := byteCount_eq_zero.mp hzero
    exact h.ne (by obtain ⟨o, rest⟩ := c; obtain ⟨o', rest'⟩ := d; simp_all)
  omega

/-- The cursor behind a character is strictly further. -/
theorem lt_of_cons {o : Nat} {x : Char} {xs : List Char} :
    (⟨o, x :: xs⟩ : Cursor) < ⟨o + x.utf8Size, xs⟩ := by
  refine lt_of_le_of_ne ⟨[x], by simp⟩ ?_
  intro h
  simpa using congrArg (fun c => c.rest.length) h

theorem le_of_cons {o : Nat} {x : Char} {xs : List Char} :
    (⟨o, x :: xs⟩ : Cursor) ≤ ⟨o + x.utf8Size, xs⟩ := lt_of_cons.le

/-! ## Moves

One lemma for each move says that it goes forward, and one that it goes over at least a character where it
does.
-/

/-- The step over a character, or over none at the end of the text. -/
theorem le_step (c : Cursor) : c ≤ c.step := by
  obtain ⟨o, rest⟩ := c
  cases rest with
  | nil => exact le_refl _
  | cons x xs => exact le_of_cons

/-- Where something is left, the step goes over it. -/
theorem lt_step {c : Cursor} (h : c.rest ≠ []) : c < c.step := by
  obtain ⟨o, rest⟩ := c
  cases rest with
  | nil => exact absurd rfl h
  | cons x xs => exact lt_of_cons

theorem lt_step_of_nextIs {p : Char → Bool} {c : Cursor} (h : c.nextIs p = true) : c < c.step := by
  obtain ⟨o, _ | ⟨x, rest⟩⟩ := c
  · cases h
  · exact lt_of_cons

/-- The character that comes next stands in front of what is left behind it. -/
theorem rest_of_nextIs {x : Char} {c : Cursor} (h : c.nextIs (· == x) = true) :
    c.rest = x :: c.step.rest := by
  obtain ⟨o, _ | ⟨y, rest⟩⟩ := c
  · cases h
  · rw [show y = x from by simpa [nextIs] using h]
    rfl

theorem le_skip (n : Nat) (c : Cursor) : c ≤ c.skip n := by
  induction n generalizing c with
  | zero => exact le_refl _
  | succ n ih => exact (le_step c).trans (ih c.step)

/-- A run of characters, which may be empty. -/
theorem le_skipWhile (p : Char → Bool) (c : Cursor) : c ≤ c.skipWhile p := by
  obtain ⟨o, rest⟩ := c
  show (⟨o, rest⟩ : Cursor) ≤ skipWhile.go p o rest
  induction rest generalizing o with
  | nil => exact le_refl _
  | cons x xs ih =>
      simp only [skipWhile.go]
      split
      · exact le_of_cons.trans (ih _)
      · exact le_refl _

/-- Behind the run, what is left begins with a character that is not of the class. -/
theorem rest_skipWhile (p : Char → Bool) (c : Cursor) : (c.skipWhile p).rest = c.rest.dropWhile p := by
  obtain ⟨o, rest⟩ := c
  show (skipWhile.go p o rest).rest = rest.dropWhile p
  induction rest generalizing o with
  | nil => rfl
  | cons x xs ih =>
      rw [skipWhile.go, List.dropWhile_cons]
      split
      · exact ih _
      · rfl

/-- A word that was moved over stands in front. -/
theorem dropWord?_eq_some {word : List Char} {c d : Cursor} (h : c.dropWord? word = some d) :
    c.rest = word ++ d.rest ∧ d.offset = c.offset + byteCount word := by
  induction word generalizing c with
  | nil =>
      simp only [dropWord?, Option.some.injEq] at h
      simp [h]
  | cons w ws ih =>
      obtain ⟨o, rest⟩ := c
      cases rest with
      | nil => simp [dropWord?] at h
      | cons x xs =>
          simp only [dropWord?] at h
          split at h
          · next hw =>
              obtain ⟨hrest, hoffset⟩ := ih h
              simp_all [Nat.add_assoc]
          · cases h

theorem le_of_dropWord? {word : List Char} {c d : Cursor} (h : c.dropWord? word = some d) : c ≤ d :=
  ⟨word, dropWord?_eq_some h⟩

/-- A word that is not empty takes at least one character. -/
theorem lt_of_dropWord? {word : List Char} {c d : Cursor} (h : c.dropWord? word = some d)
    (hne : word ≠ []) : c < d := by
  refine lt_of_le_of_ne (le_of_dropWord? h) ?_
  rintro rfl
  have hlength := congrArg List.length (dropWord?_eq_some h).1
  simp only [List.length_append] at hlength
  exact hne (List.eq_nil_of_length_eq_zero (by omega))

/-- A word that stands in front is moved over. -/
theorem dropWord?_append {o : Nat} {u : List Char} (word : List Char) :
    dropWord? word ⟨o, word ++ u⟩ = some ⟨o + byteCount word, u⟩ := by
  induction word generalizing o with
  | nil => rfl
  | cons w ws ih =>
      rw [List.cons_append, dropWord?, if_pos rfl, ih, byteCount_cons, Nat.add_assoc]

/-- A word with another first letter does not stand in front. -/
theorem dropWord?_cons_ne {o : Nat} {x y : Char} {word u : List Char} (h : y ≠ x) :
    dropWord? (y :: word) ⟨o, x :: u⟩ = none := if_neg h

/-- A run of characters is moved over up to the first one that is not of the class. -/
theorem skipWhile_append {p : Char → Bool} {o : Nat} {t u : List Char} (ht : ∀ x ∈ t, p x = true)
    (hu : ∀ x ∈ u.head?, p x = false) :
    skipWhile p ⟨o, t ++ u⟩ = ⟨o + byteCount t, u⟩ := by
  induction t generalizing o with
  | nil =>
      cases u with
      | nil => rfl
      | cons x u =>
          show skipWhile.go p o (x :: u) = ⟨o, x :: u⟩
          rw [skipWhile.go, hu x rfl, if_neg Bool.false_ne_true]
  | cons x t ih =>
      show skipWhile.go p o (x :: (t ++ u)) = _
      rw [skipWhile.go, if_pos (ht x List.mem_cons_self)]
      show skipWhile p ⟨o + x.utf8Size, t ++ u⟩ = _
      rw [ih fun y hy => ht y (List.mem_cons_of_mem x hy), byteCount_cons, Nat.add_assoc]

/-! ## The text between two cursors

The text between two cursors is found by offsets. On one text these tell the same as the characters.
-/

/-- The text between a cursor and one behind a front part is the front part. -/
theorem textUpTo_eq {c d : Cursor} {front : List Char} (hrest : c.rest = front ++ d.rest)
    (hoffset : d.offset = c.offset + byteCount front) : c.textUpTo d = front := by
  obtain ⟨o, rest⟩ := c
  simp only at hrest hoffset
  subst hrest
  show textUpTo.go d o (front ++ d.rest) = front
  -- The walk stops at the offset of `d`, which is the end of the front part.
  induction front generalizing o with
  | nil =>
      have ho : ¬ o < d.offset := by simp at hoffset; omega
      cases hd : d.rest with
      | nil => rfl
      | cons x xs => simp [textUpTo.go, ho]
  | cons x xs ih =>
      have hpos := Char.utf8Size_pos x
      have ho : o < d.offset := by simp at hoffset; omega
      simp only [List.cons_append, textUpTo.go, ho, if_true]
      rw [ih]
      simp at hoffset ⊢
      omega

end Cursor

/-! ## Ranges of bytes on a text

A range of a parse tree is given by two offsets. `Span.IsOn` says that both are boundaries of characters
of the text, and the lemmas translate between ranges and splittings of the text in parts.
-/

/-- Of two front parts of a text, the one with fewer bytes is a front part of the other. -/
theorem exists_append_of_byteCount_le {u v u' v' : List Char} (h : u ++ v = u' ++ v')
    (hle : byteCount u ≤ byteCount u') : ∃ t, u' = u ++ t := by
  rcases List.prefix_or_prefix_of_prefix (List.prefix_append u v) (h ▸ List.prefix_append u' v') with
    ⟨t, ht⟩ | ⟨t, ht⟩
  · exact ⟨t, ht.symm⟩
  · -- The other way round, what is left over has no bytes.
    rw [← ht, byteCount_append] at hle
    have hnil : t = [] := byteCount_eq_zero.mp (by omega)
    exact ⟨[], by rw [← ht, hnil, List.append_nil, List.append_nil]⟩

/-- Front parts of a text with the same number of bytes are the same. -/
theorem append_inj_of_byteCount {u v u' v' : List Char} (h : u ++ v = u' ++ v')
    (hcount : byteCount u = byteCount u') : u = u' ∧ v = v' := by
  obtain ⟨t, rfl⟩ := exists_append_of_byteCount_le h (Nat.le_of_eq hcount)
  rw [byteCount_append] at hcount
  obtain rfl : t = [] := byteCount_eq_zero.mp (by omega)
  rw [List.append_nil] at h ⊢
  exact ⟨rfl, List.append_cancel_left h⟩

namespace Span

/-- The range holds whole characters of the text, at least one. -/
def IsOn (text : List Char) (span : Span) : Prop :=
  ∃ u v w, v ≠ [] ∧ text = u ++ v ++ w ∧ span = ⟨byteCount u, byteCount (u ++ v)⟩

/-- Beyond the end of the range there are no characters of it. -/
theorem of_go_of_le {start stop o : Nat} (text : List Char) (h : stop ≤ o) :
    Span.of.go ⟨start, stop⟩ o text = [] := by
  cases text with
  | nil => rfl
  | cons x xs => simp [Span.of.go, h]

/-- The characters from a place in the range on. -/
theorem of_go_inside {start o : Nat} (v w : List Char) (h : start ≤ o) :
    Span.of.go ⟨start, o + byteCount v⟩ o (v ++ w) = v := by
  induction v generalizing o with
  | nil => simpa using of_go_of_le w (by simp)
  | cons x xs ih =>
      have hpos := Char.utf8Size_pos x
      have hstop : ¬ o + (x.utf8Size + byteCount xs) ≤ o := by omega
      simp only [List.cons_append, byteCount_cons, Span.of.go, hstop, h, if_true, if_false]
      rw [← Nat.add_assoc, ih (by omega)]

/-- The characters from a place in front of the range on. -/
theorem of_go_before {o : Nat} (u v w : List Char) :
    Span.of.go ⟨o + byteCount u, o + byteCount u + byteCount v⟩ o (u ++ (v ++ w)) = v := by
  induction u generalizing o with
  | nil => simpa using of_go_inside v w (Nat.le_refl o)
  | cons x xs ih =>
      have hpos := Char.utf8Size_pos x
      have hstart : ¬ o + (x.utf8Size + byteCount xs) ≤ o := by omega
      have hstop : ¬ o + (x.utf8Size + byteCount xs) + byteCount v ≤ o := by omega
      simp only [List.cons_append, byteCount_cons, Span.of.go, hstart, hstop, if_false]
      rw [← Nat.add_assoc]
      exact ih

/-- The range of bytes behind a front part of a text holds the characters there. -/
theorem of_append (u v w : List Char) :
    Span.of ⟨byteCount u, byteCount (u ++ v)⟩ (u ++ v ++ w) = v := by
  have h := of_go_before (o := 0) u v w
  simpa [Span.of, List.append_assoc] using h

/-- The range of the middle one of three parts holds that part. -/
theorem of_eq {text u v w : List Char} (h : text = u ++ v ++ w) :
    Span.of ⟨byteCount u, byteCount (u ++ v)⟩ text = v := by
  rw [h]
  exact of_append u v w

/-- A range that ends where it begins holds nothing. -/
theorem of_self (o : Nat) (text : List Char) : Span.of ⟨o, o⟩ text = [] := by
  have hgo : ∀ k, Span.of.go ⟨o, o⟩ k text = [] := by
    induction text with
    | nil => exact fun _ => rfl
    | cons x text ih =>
        intro k
        rw [Span.of.go]
        by_cases hle : o ≤ k
        · rw [if_pos hle]
        · rw [if_neg hle, if_neg hle]
          exact ih _
  exact hgo 0

/-- A range begins with a range that ends earlier. -/
theorem isPrefix_of {start stop stop' : Nat} (h : stop ≤ stop') (text : List Char) :
    Span.of ⟨start, stop⟩ text <+: Span.of ⟨start, stop'⟩ text := by
  have hgo : ∀ o, Span.of.go ⟨start, stop⟩ o text <+: Span.of.go ⟨start, stop'⟩ o text := by
    induction text with
    | nil => exact fun _ => List.prefix_rfl
    | cons x text ih =>
        intro o
        rw [Span.of.go, Span.of.go]
        by_cases hstop : stop ≤ o
        · rw [if_pos hstop]
          exact List.nil_prefix
        · have hstop' : ¬ stop' ≤ o := by omega
          rw [if_neg hstop, if_neg hstop']
          split
          · exact List.cons_prefix_cons.mpr ⟨rfl, ih _⟩
          · exact ih _
  exact hgo 0

/-- The characters in a range are characters of the text. -/
theorem mem_of_mem_of {text : List Char} {span : Span} {x : Char} (h : x ∈ span.of text) : x ∈ text := by
  have hgo : ∀ o, x ∈ Span.of.go span o text → x ∈ text := by
    clear h
    induction text with
    | nil => exact fun _ h => h
    | cons y rest ih =>
        intro o h
        rw [Span.of.go] at h
        split at h
        · cases h
        · split at h
          · rcases List.mem_cons.mp h with rfl | h
            · exact List.mem_cons_self
            · exact List.mem_cons_of_mem y (ih _ h)
          · exact List.mem_cons_of_mem y (ih _ h)
  exact hgo 0 h

/-- A range on a text is not empty. -/
theorem IsOn.start_lt {text : List Char} {span : Span} (h : span.IsOn text) :
    span.start < span.stop := by
  obtain ⟨u, v, w, hv, -, rfl⟩ := h
  have : byteCount v ≠ 0 := fun h => hv (byteCount_eq_zero.mp h)
  simp only [byteCount_append]
  omega

/-- A range on a text ends in the text. -/
theorem IsOn.stop_le {text : List Char} {span : Span} (h : span.IsOn text) :
    span.stop ≤ byteCount text := by
  obtain ⟨u, v, w, -, rfl, rfl⟩ := h
  simp

/-- The characters of the range between two cursors on a text. -/
theorem of_between {text v : List Char} {a b : Cursor} (ha : .ofText text ≤ a)
    (hrest : a.rest = v ++ b.rest) (hoffset : b.offset = a.offset + byteCount v) :
    Span.of ⟨a.offset, b.offset⟩ text = v := by
  obtain ⟨u, hu, hou⟩ := ha
  simp only [Cursor.ofText, Nat.zero_add] at hu hou
  have htext : text = u ++ v ++ b.rest := by rw [hu, hrest, List.append_assoc]
  have hstop : b.offset = byteCount (u ++ v) := by rw [hoffset, hou, byteCount_append]
  rw [htext, hou, hstop]
  exact of_append u v b.rest

/-- The range between two cursors on a text. -/
theorem isOn_of_lt {text : List Char} {a b : Cursor} (ha : .ofText text ≤ a) (hab : a < b) :
    IsOn text ⟨a.offset, b.offset⟩ := by
  obtain ⟨u, hu, hou⟩ := ha
  obtain ⟨v, hv, hov⟩ := hab.le
  have hlt := Cursor.offset_lt hab
  refine ⟨u, v, b.rest, ?_, ?_, ?_⟩
  · rintro rfl
    simp at hov
    omega
  · rw [List.append_assoc, ← hv]
    exact hu
  · simp only [Cursor.ofText, Nat.zero_add] at hou
    rw [hov, hou, byteCount_append]

/-- Two ranges, one behind the other, cut a text into five parts. -/
theorem IsOn.exists_parts {text : List Char} {p q : Span} (hp : p.IsOn text) (hq : q.IsOn text)
    (h : p.stop ≤ q.start) :
    ∃ u v t v' w, v ≠ [] ∧ v' ≠ [] ∧ text = u ++ v ++ t ++ v' ++ w ∧
      p = ⟨byteCount u, byteCount (u ++ v)⟩ ∧
      q = ⟨byteCount (u ++ v ++ t), byteCount (u ++ v ++ t ++ v')⟩ := by
  obtain ⟨u, v, w, hv, rfl, rfl⟩ := hp
  obtain ⟨u', v', w', hv', htext, rfl⟩ := hq
  obtain ⟨t, rfl⟩ := exists_append_of_byteCount_le (htext.trans (List.append_assoc u' v' w')) h
  exact ⟨u, v, t, v', w', hv, hv', htext, rfl, rfl⟩

/-- What is counted in two ranges, one behind the other, is counted in the text. -/
theorem count_add_count_le {text : List Char} {p q : Span} (hp : p.IsOn text) (hq : q.IsOn text)
    (h : p.stop ≤ q.start) (c : Char) :
    (p.of text).count c + (q.of text).count c ≤ text.count c := by
  obtain ⟨u, v, t, v', w, -, -, rfl, rfl, rfl⟩ := hp.exists_parts hq h
  rw [of_append, of_eq (w := t ++ v' ++ w) (by simp only [List.append_assoc])]
  simp only [List.count_append]
  omega

end Span

end WasmEmbed.Script
