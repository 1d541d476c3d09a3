import WasmEmbed.Proofs.Script.Quoted

/-!
# Tokens in front of a quote

What is read as a token in front of a quote is read again if what stands behind the quote is replaced. `Kept
q u v c d` says that `c` and `d` are the same place in front of the quote `q`, with `u` and with `v` behind
it. Each kind of token ends at the same place in both texts, if it ends in front of the quote (`Kept.name?`,
`Kept.comment?` and so on).

The quote is in no name and in no blank, and no comment in front of it reaches beyond it unless it is not
closed. Therefore each function sees the same characters up to where it stops.
-/

namespace WasmEmbed.Script

/-- The same place in two texts that differ behind a quote only. -/
inductive Kept (q : Char) (u v : List Char) : Cursor → Cursor → Prop
  | intro (o : Nat) (r : List Char) : Kept q u v ⟨o, r ++ q :: u⟩ ⟨o, r ++ q :: v⟩

namespace Kept

variable {q : Char} {u v : List Char} {b c c' d d' : Cursor} {p : Char → Bool} {k : Nat}

/-! ## Places

A place in front of the quote has the same character in both texts, because there is one in front of the
quote or it is the quote itself.
-/

/-- The two texts may be exchanged. -/
theorem symm (h : Kept q u v c c') : Kept q v u c' c := by
  obtain ⟨o, r⟩ := h
  exact ⟨o, r⟩

/-- There is one such place at most. -/
theorem unique (h : Kept q u v c c') (h' : Kept q u v c d) : c' = d := by
  obtain ⟨o, r⟩ := h
  generalize hc : (⟨o, r ++ q :: u⟩ : Cursor) = c at h'
  obtain ⟨o', r'⟩ := h'
  obtain ⟨rfl, hrest⟩ := Cursor.mk.inj hc
  rw [List.append_cancel_right hrest]

/-- What is not behind a place in front of the quote is in front of it. -/
theorem of_le (h : Kept q u v d d') (hle : c ≤ d) : ∃ c', Kept q u v c c' := by
  obtain ⟨front, hfront, -⟩ := hle
  obtain ⟨o, r⟩ := h
  obtain ⟨o', rest⟩ := c
  obtain rfl : rest = front ++ (r ++ q :: u) := hfront
  rw [← List.append_assoc]
  exact ⟨_, .intro o' (front ++ r)⟩

/-- What is in front of the place behind the quote is in front of the quote. -/
theorem of_lt (h : Kept q u v b c') (hbc : b ≤ c) (hlt : c < d) (hd : d.rest = u) :
    ∃ d', Kept q u v c d' := by
  obtain ⟨front, hfront, -⟩ := hbc
  obtain ⟨last, hlast, hoffset⟩ := hlt.le
  rw [hd] at hlast
  have hne : last ≠ [] := by
    rintro rfl
    have := Cursor.offset_lt hlt
    simp at hoffset
    omega
  obtain ⟨o, r⟩ := h
  -- Between the two places stands at least one character, so the last one is the quote.
  have hsplit : r ++ [q] ++ u = front ++ last ++ u := by simpa [hlast] using hfront
  replace hsplit := List.append_cancel_right hsplit
  obtain ⟨last, y, rfl⟩ : ∃ front y, last = front ++ [y] := ⟨_, _, (List.dropLast_concat_getLast hne).symm⟩
  rw [← List.append_assoc] at hsplit
  obtain ⟨-, hquote⟩ := List.append_inj' hsplit rfl
  obtain rfl := List.singleton_inj.mp hquote
  obtain ⟨o', rest⟩ := c
  obtain rfl : rest = last ++ q :: u := hlast.trans (List.append_assoc last [q] u)
  exact ⟨_, .intro o' last⟩

/-- Two places to which both texts lead are the same if the same stands in front of the quote. -/
theorem of_rest {r : List Char} (h : Kept q u v c c') (hle : c ≤ d) (hle' : c' ≤ d')
    (hd : d.rest = r ++ q :: u) (hd' : d'.rest = r ++ q :: v) : Kept q u v d d' := by
  obtain ⟨front, hfront, hoffset⟩ := hle
  obtain ⟨front', hfront', hoffset'⟩ := hle'
  obtain ⟨o, s⟩ := h
  rw [hd, ← List.append_assoc] at hfront
  rw [hd', ← List.append_assoc] at hfront'
  obtain rfl : front = front' :=
    List.append_cancel_right ((List.append_cancel_right hfront).symm.trans (List.append_cancel_right hfront'))
  obtain ⟨a, rest⟩ := d
  obtain ⟨a', rest'⟩ := d'
  obtain rfl : rest = r ++ q :: u := hd
  obtain rfl : rest' = r ++ q :: v := hd'
  obtain rfl : a = a' := hoffset.trans hoffset'.symm
  exact .intro a r

/-- The next character is the same in both texts. -/
theorem nextIs (h : Kept q u v c c') : c'.nextIs p = c.nextIs p := by
  obtain ⟨o, _ | ⟨x, r⟩⟩ := h <;> rfl

/-- A character that is not the quote is stepped over in both texts. -/
theorem step (h : Kept q u v c c') (hnext : c.nextIs p = true) (hp : p q = false) :
    Kept q u v c.step c'.step := by
  obtain ⟨o, _ | ⟨x, r⟩⟩ := h
  · exact absurd (hp.symm.trans hnext) Bool.false_ne_true
  · exact .intro _ r

/-- What stands between two such places is the same text. -/
theorem textUpTo (h : Kept q u v c c') (hd : Kept q u v d d') (hle : c ≤ d) :
    c'.textUpTo d' = c.textUpTo d := by
  obtain ⟨front, hfront, hoffset⟩ := hle
  rw [Cursor.textUpTo_eq hfront hoffset]
  obtain ⟨o, r⟩ := h
  obtain ⟨o', r'⟩ := hd
  have hr : r = front ++ r' := List.append_cancel_right (by simpa using hfront)
  exact Cursor.textUpTo_eq (by simp [hr]) hoffset

/-! ## Runs and words

A run of characters of a class to which the quote does not belong stops in front of the quote at the
latest.
-/

theorem skipWhile (h : Kept q u v c c') (hp : p q = false) : Kept q u v (c.skipWhile p) (c'.skipWhile p) := by
  obtain ⟨o, r⟩ := h
  rw [Token.skipWhile_front hp, Token.skipWhile_front hp]
  exact .intro _ _

/-- A run that ends in front of the quote ends there in both texts. -/
theorem skipWhile_eq (h : Kept q u v c c') (hd : Kept q u v (c.skipWhile p) d') : c'.skipWhile p = d' := by
  generalize hskip : c.skipWhile p = d at hd
  have hle := Cursor.le_skipWhile p c
  have hle' := Cursor.le_skipWhile p c'
  rw [hskip] at hle
  have hrest := (Cursor.rest_skipWhile p c).symm.trans (congrArg Cursor.rest hskip)
  obtain ⟨o', r'⟩ := id hd
  have hkept : Kept q u v ⟨o', r' ++ q :: u⟩ (c'.skipWhile p) := by
    refine h.of_rest (r := r') hle hle' rfl ?_
    obtain ⟨o, r⟩ := h
    rw [Cursor.rest_skipWhile]
    exact dropWhile_change hrest
  exact hkept.unique hd

/-- What ends in front of the quote in one text, wherever it begins, is not found in the other one alone. -/
theorem eq_none {f : Cursor → Option Cursor}
    (hf : ∀ {u v c c' d}, Kept q u v c c' → f c = some d → ∃ d', Kept q u v d d' ∧ f c' = some d')
    (h : Kept q u v c c') (hc : f c = none) : f c' = none := by
  rw [Option.eq_none_iff_forall_ne_some]
  intro d' hd'
  obtain ⟨d, -, hd⟩ := hf h.symm hd'
  exact absurd (hc.symm.trans hd) (by simp)

/-- A word without the quote is moved over in both texts. -/
theorem dropWord? {word : List Char} (hword : q ∉ word) (h : Kept q u v c c')
    (hd : c.dropWord? word = some d) :
    ∃ d', Kept q u v d d' ∧ c'.dropWord? word = some d' := by
  obtain ⟨hrest, hoffset⟩ := Cursor.dropWord?_eq_some hd
  obtain ⟨o, r⟩ := h
  obtain ⟨r', rfl, hr'⟩ := exists_of_notMem hword hrest
  obtain ⟨o', rest⟩ := d
  obtain rfl : rest = r' ++ q :: u := hr'
  obtain rfl : o' = o + byteCount word := hoffset
  exact ⟨_, .intro _ r', by rw [List.append_assoc]; exact Cursor.dropWord?_append word⟩

/-! ## Names

A name ends in front of the quote. That no name is read is also the same in both texts, since nothing but
the next characters decides it.
-/

/-- An escape ends in front of the quote. -/
theorem nameEscape? (hq : isNameChar q = false) (h : Kept q u v c c') (hd : Token.nameEscape? c = some d) :
    ∃ d', Kept q u v d d' ∧ Token.nameEscape? c' = some d' := by
  obtain ⟨e, he, hrest⟩ := IsEscape.exists_of_nameEscape? hd
  have hnotMem : q ∉ e := fun hmem => Bool.false_ne_true (hq.symm.trans (he.isNameChar q hmem))
  obtain ⟨o, r⟩ := id h
  obtain ⟨r', rfl, hr'⟩ := exists_of_notMem hnotMem hrest
  obtain ⟨d', hfound, hrest'⟩ := he.exists_nameEscape? o (r' ++ q :: v)
  rw [← List.append_assoc] at hfound
  exact ⟨d', h.of_rest (Token.lt_of_nameEscape? hd).le (Token.lt_of_nameEscape? hfound).le hr' hrest', hfound⟩

theorem isWordPart_of_isNameChar (hq : isNameChar q = false) : isWordPart q = false := by
  simp only [isNameChar, Bool.or_eq_false_iff] at hq
  exact hq.1.1.1.1

/-- The place behind the characters and escapes that a name goes on with. -/
theorem nameEnd (hq : isNameChar q = false) (h : Kept q u v c c') :
    Kept q u v (Token.nameEnd k c) (Token.nameEnd k c') := by
  induction k generalizing c c' with
  | zero => exact h
  | succ k ih =>
      have hskip := h.skipWhile (isWordPart_of_isNameChar hq)
      simp only [Token.nameEnd]
      cases he : Token.nameEscape? (c.skipWhile isWordPart) with
      | some e =>
          obtain ⟨e', hkept, he'⟩ := hskip.nameEscape? hq he
          rw [he']
          exact ih hkept
      | none =>
          rw [hskip.eq_none (nameEscape? hq) he]
          exact hskip

/-- A name ends in front of the quote, and it has the same pieces. -/
theorem name? (hq : isNameChar q = false) (h : Kept q u v c c') (hd : Token.name? k c = some d) :
    ∃ d', Kept q u v d d' ∧ Token.name? k c' = some d' := by
  simp only [Token.name?] at hd ⊢
  rw [h.nextIs]
  split at hd
  · next hstart =>
      cases hd
      exact ⟨_, h.nameEnd hq, if_pos hstart⟩
  · next hstart =>
      obtain ⟨e, he, rfl⟩ := Option.map_eq_some_iff.mp hd
      obtain ⟨e', hkept, he'⟩ := h.nameEscape? hq he
      rw [if_neg hstart, he']
      exact ⟨_, hkept.nameEnd hq, rfl⟩

/-- A name that is read is the same text. -/
theorem nameAt? {n : Nested} {w : List Char} (hq : isNameChar q = false) (h : Kept q u v c c')
    (hd : n.nameAt? c = some (w, d)) : ∃ d', Kept q u v d d' ∧ n.nameAt? c' = some (w, d') := by
  obtain ⟨hlt, rfl⟩ := Nested.nameAt?_eq_some hd
  obtain ⟨e, he, heq⟩ := Option.map_eq_some_iff.mp hd
  obtain ⟨-, rfl⟩ := Prod.mk.inj heq
  obtain ⟨d', hkept, hd'⟩ := h.name? hq he
  exact ⟨d', hkept, by rw [Nested.nameAt?, hd', Option.map_some, h.textUpTo hkept hlt.le]⟩

/-- Where no name is read, none is read with other text behind the quote. -/
theorem nameAt?_eq_none {n : Nested} (hq : isNameChar q = false) (h : Kept q u v c c')
    (hc : n.nameAt? c = none) :
    n.nameAt? c' = none := by
  rw [Nested.nameAt?, h.eq_none (name? hq) (Option.map_eq_none_iff.mp hc)]
  rfl

theorem isSome_nameAt? {n : Nested} (hq : isNameChar q = false) (h : Kept q u v c c') :
    (n.nameAt? c').isSome = (n.nameAt? c).isSome := by
  cases hc : n.nameAt? c with
  | none => rw [h.nameAt?_eq_none hq hc]
  | some p =>
      obtain ⟨d', -, hd'⟩ := h.nameAt? hq hc
      rw [hd']
      rfl

theorem wordAt {n : Nested} (hq : isNameChar q = false) (h : Kept q u v c c') : n.wordAt c' = n.wordAt c := by
  rw [Nested.wordAt, Nested.wordAt]
  cases hc : n.nameAt? c with
  | none => rw [h.nameAt?_eq_none hq hc]
  | some p =>
      obtain ⟨d', -, hd'⟩ := h.nameAt? hq hc
      rw [hd']

/-! ## Comments

A comment that ends in front of the quote is closed there by its own characters. A comment that does not
end may be closed by the text behind the quote, which is why `Kept` is asked of its end.
-/

/-- A comment with its end in front of the quote has the same end in both texts. -/
theorem comment? (hq : Over.isBarrier q = true) (h : Kept q u v c c') (hd : Token.comment? c = some d)
    (hkept : Kept q u v d d') : Token.comment? c' = some d' := by
  obtain ⟨o', r'⟩ := id hkept
  have hfound : ∃ e, Token.comment? c' = some e ∧ e.rest = r' ++ q :: v := by
    obtain ⟨o, r⟩ := h
    exact Token.comment?_change hq hd rfl o v
  obtain ⟨e, he, hrest⟩ := hfound
  rw [he, (h.of_rest (Token.le_of_comment? hd) (Token.le_of_comment? he) rfl hrest).unique hkept]

theorem isBlank_of_isBarrier (hq : Over.isBarrier q = true) : isBlank q = false := by
  rw [Bool.eq_false_iff]
  intro hblank
  simp [Over.isBarrier, Over.isSolid, hblank] at hq

theorem isMargin_of_isBarrier (hq : Over.isBarrier q = true) : isMargin q = false :=
  Bool.eq_false_iff.mpr fun hmargin =>
  Bool.eq_false_iff.mp (isBlank_of_isBarrier hq) (isBlank_of_isMargin hmargin)

/-- What begins an HTML-like comment. -/
theorem markup? (hq : Over.isBarrier q = true) (h : Kept q u v c c')
    (hd : (c.dropWord? "<!--".toList <|> c.dropWord? "-->".toList) = some d) :
    ∃ d', Kept q u v d d' ∧ (c'.dropWord? "<!--".toList <|> c'.dropWord? "-->".toList) = some d' := by
  have hnotMem := fun {k} => Over.notMem_of_isBarrier hq (k := k)
  rcases (Option.orElse_eq_some _ _ _).mp hd with hopen | ⟨hnone, hclose⟩
  · obtain ⟨d', hkept, hd'⟩ := h.dropWord? (hnotMem (by decide)) hopen
    exact ⟨d', hkept, by rw [hd']; rfl⟩
  · obtain ⟨d', hkept, hd'⟩ := h.dropWord? (hnotMem (by decide)) hclose
    exact ⟨d', hkept, by rw [h.eq_none (dropWord? (hnotMem (by decide))) hnone, hd']; rfl⟩

/-- An HTML-like comment with its end in front of the quote. -/
theorem markupComment? (hq : Over.isBarrier q = true) {start : Cursor} (h : Kept q u v c c')
    (hd : Token.markupComment? c = some (start, d)) (hkept : Kept q u v d d') :
    ∃ start', Token.markupComment? c' = some (start', d') := by
  have hstart := h.skipWhile (p := isMargin) (isMargin_of_isBarrier hq)
  simp only [Token.markupComment?] at hd ⊢
  split at hd
  · next e he =>
      cases hd
      obtain ⟨e', hkept', he'⟩ := hstart.markup? hq he
      rw [he']
      dsimp only
      rw [hkept'.skipWhile_eq hkept]
      exact ⟨_, rfl⟩
  · cases hd

/-- Where no such comment begins, none begins with other text behind the quote. -/
theorem markupComment?_eq_none (hq : Over.isBarrier q = true) (h : Kept q u v c c')
    (hc : Token.markupComment? c = none) : Token.markupComment? c' = none := by
  have hstart := h.skipWhile (p := isMargin) (isMargin_of_isBarrier hq)
  simp only [Token.markupComment?] at hc ⊢
  split at hc
  · cases hc
  · next hnone => rw [hstart.eq_none (markup? hq) hnone]

end Kept

/-! ## Gaps -/

/-- A block comment begins that is not closed. -/
def IsStuck (c : Cursor) : Prop := (∃ t, c.rest = '/' :: '*' :: t) ∧ Token.comment? c = none

namespace Kept

variable {q : Char} {u v : List Char} {c c' d d' : Cursor} {k : Nat}

/-- Text behind the quote may close a block comment, but it begins no comment in front of the quote. -/
theorem comment?_eq_none (hq : Over.isBarrier q = true) (h : Kept q u v c c') (hfree : ¬ IsStuck c)
    (hc : Token.comment? c = none) : Token.comment? c' = none := by
  have hnotMem := fun {k} => Over.notMem_of_isBarrier hq (k := k)
  obtain ⟨o, r⟩ := h
  generalize ht : r ++ q :: v = t
  simp only [Token.comment?]
  split
  · next t =>
      obtain ⟨r, rfl, -⟩ := exists_of_notMem (k := ['/', '/']) (hnotMem (by decide)) ht
      cases hc
  · next t =>
      obtain ⟨r, rfl, -⟩ := exists_of_notMem (k := ['/', '*']) (hnotMem (by decide)) ht
      exact absurd ⟨⟨_, rfl⟩, hc⟩ hfree
  · rfl

/-- A gap that leads to a place in front of the quote leads there in both texts, unless a block comment
begins there that is not closed. -/
theorem find {conditional : Bool} (hq : Over.isBarrier q = true) (h : Kept q u v c c') (hd : Kept q u v d d')
    (hfree : ¬ IsStuck d) (hfind : Gap.find .plain k c = .token d conditional) :
    Gap.find .plain k c' = .token d' conditional := by
  induction k generalizing c c' with
  | zero =>
      cases hfind
      rw [h.unique hd]
      rfl
  | succ k ih =>
      have hfirst : ∀ c, Gap.first? .plain c = (Token.markupComment? c).map fun p => .inl p.2 := fun _ => rfl
      -- A comment on the way ends in front of the quote, because the token behind it stands there.
      have hle : ∀ {e}, Gap.find .plain k e = .token d conditional → e ≤ d := by
        intro e he
        have := Gap.le_find .plain k e
        rwa [he] at this
      rw [Gap.find, hfirst] at hfind ⊢
      cases hmarkup : Token.markupComment? c with
      | some place =>
          obtain ⟨start, e⟩ := place
          rw [hmarkup] at hfind
          dsimp only [Option.map_some] at hfind
          obtain ⟨e', he⟩ := hd.of_le (hle hfind)
          obtain ⟨start', hmarkup'⟩ := h.markupComment? hq hmarkup he
          rw [hmarkup']
          exact ih he hfind
      | none =>
          rw [hmarkup] at hfind
          rw [h.markupComment?_eq_none hq hmarkup]
          dsimp only [Option.map_none] at hfind ⊢
          have hskip := h.skipWhile (p := isBlank) (isBlank_of_isBarrier hq)
          cases hcomment : Token.comment? (c.skipWhile isBlank) with
          | some e =>
              rw [hcomment] at hfind
              obtain ⟨e', he⟩ := hd.of_le (hle hfind)
              rw [hskip.comment? hq hcomment he]
              exact ih he hfind
          | none =>
              rw [hcomment] at hfind
              cases hfind
              rw [hskip.comment?_eq_none hq hfree hcomment, hskip.unique hd]

end Kept

end WasmEmbed.Script
