import WasmEmbed.Proofs.Script.Forward.Nested
import WasmEmbed.Proofs.Script.Gap

/-!
# Names

A name is put together from characters and escapes (`IsSpelled`). A name that is read goes on as long as it
can (`haltsName_of_nameAt?`), provided that the bound on its escapes is not used up, which it is not if it
is no less than the number of characters that are left. So two names that stand in front of one text are the
same (`Names.unique`).
-/

namespace WasmEmbed.Script

/-! ## Characters of names

An escape consists of characters that stand in names, of hexadecimal digits, and of the backslash and
braces. Together they make a class (`isNameChar`) that blanks and the characters that begin a comment do
not belong to.
-/

/-- A character of a name, or of an escape in a name. -/
def isNameChar (x : Char) : Bool :=
  isWordPart x || isHexDigit x || x == '\\' || x == '\x7b' || x == '\x7d'

/-- The codes of the hexadecimal digits lie between those of zero and of the letter f. -/
theorem toNat_of_isHexDigit {x : Char} (h : isHexDigit x = true) : 0x30 ≤ x.toNat ∧ x.toNat ≤ 0x66 := by
  simp only [isHexDigit, Char.isDigit, Bool.or_eq_true, Bool.and_eq_true, decide_eq_true_eq, ge_iff_le,
    Char.le_def, UInt32.le_iff_toNat_le] at h
  rcases h with (h | h) | h
  · exact ⟨h.1, Nat.le_trans h.2 (by decide)⟩
  · exact ⟨Nat.le_trans (by decide) h.1, h.2⟩
  · exact ⟨Nat.le_trans (by decide) h.1, Nat.le_trans h.2 (by decide)⟩

/-- The codes of blanks lie below or above those of digits and letters. -/
theorem toNat_of_isBlank {x : Char} (h : isBlank x = true) : x.toNat ≤ 0x20 ∨ 0x85 ≤ x.toNat := by
  simp only [isBlank, isSpace, Bool.or_eq_true, Bool.and_eq_true, decide_eq_true_eq, beq_iff_eq] at h
  rcases h with ((h | rfl) | rfl) | rfl
  · omega
  all_goals exact Or.inr (by decide)

/-- A character of a class is none that does not belong to it. -/
theorem beq_eq_false_of_apply {p : Char → Bool} {x y : Char} (hx : p x = true) (hy : p y = false) :
    (x == y) = false := by
  rw [beq_eq_false_iff_ne]
  rintro rfl
  exact Bool.false_ne_true (hy.symm.trans hx)

/-- No blank stands in a name. -/
theorem isNameChar_of_isBlank {x : Char} (h : isBlank x = true) : isNameChar x = false := by
  -- By their codes, no blank is a hexadecimal digit.
  have hhex : isHexDigit x = false := by
    rw [Bool.eq_false_iff]
    intro hhex
    have hblank := toNat_of_isBlank h
    have hdigit := toNat_of_isHexDigit hhex
    omega
  have hne : ∀ {y : Char}, isBlank y = false → (x == y) = false := beq_eq_false_of_apply h
  simp [isNameChar, isWordPart, h, hhex, hne (y := '\\') (by decide), hne (y := '\x7b') (by decide),
    hne (y := '\x7d') (by decide)]

/-- A character of a name belongs neither to a blank nor to the beginning of a comment. -/
theorem isSolid_of_isNameChar {x : Char} (h : isNameChar x = true) : Over.isSolid x = true := by
  have hne : ∀ {y : Char}, isNameChar y = false → (x == y) = false := beq_eq_false_of_apply h
  have hblank : isBlank x = false := by
    rw [Bool.eq_false_iff]
    exact fun hblank => absurd (h.symm.trans (isNameChar_of_isBlank hblank)) (by decide)
  simp [Over.isSolid, hblank, hne (y := '/') (by decide), hne (y := '<') (by decide),
    hne (y := '-') (by decide)]

theorem isNameChar_of_isHexDigit {x : Char} (h : isHexDigit x = true) : isNameChar x = true := by
  simp [isNameChar, h]

/-! ## Escapes

An escape ends behind four digits or behind a brace. So of one text at most one front part is an escape.
-/

/-- An escape, which stands for one character of a name. -/
inductive IsEscape : List Char → Prop
  | braced {x : Char} {ds : List Char} : isHexDigit x = true → (∀ y ∈ ds, isHexDigit y = true) →
      IsEscape ('\\' :: 'u' :: '\x7b' :: x :: (ds ++ ['\x7d']))
  | short {a b c d : Char} : (∀ y ∈ [a, b, c, d], isHexDigit y = true) → IsEscape ['\\', 'u', a, b, c, d]

namespace IsEscape

variable {e e' u v : List Char}

/-- What is read as an escape is one. -/
theorem exists_of_nameEscape? {c d : Cursor} (h : Token.nameEscape? c = some d) :
    ∃ e, IsEscape e ∧ c.rest = e ++ d.rest := by
  simp only [Token.nameEscape?] at h
  split at h
  · cases h
  · next f hf =>
      have hfront := (Cursor.dropWord?_eq_some hf).1
      split at h
      · next x t hrest =>
          split at h
          · next hx =>
              -- Behind the first digit, all further ones are read up to the brace.
              have hstep : f.step.rest = x :: t := by simp [Cursor.step, hrest]
              have hclose := (Cursor.dropWord?_eq_some h).1
              rw [Cursor.rest_skipWhile, hstep, List.dropWhile_cons_of_pos hx] at hclose
              have hall := List.all_eq_true.mp (List.all_takeWhile (p := isHexDigit) (l := t))
              have hdigits := List.takeWhile_append_dropWhile (p := isHexDigit) (l := t)
              rw [hclose] at hdigits
              refine ⟨_, .braced hx hall, ?_⟩
              rw [hfront, hrest]
              simp only [List.cons_append, List.nil_append, List.append_assoc] at hdigits ⊢
              rw [hdigits]
          · cases h
      · next a b x y t _ hrest =>
          split at h
          · next hhex =>
              cases h
              simp only [Bool.and_eq_true] at hhex
              refine ⟨['\\', 'u', a, b, x, y], .short (by simp [hhex]), ?_⟩
              rw [hfront, hrest]
              simp [Cursor.skip, Cursor.step, hrest]
          · cases h
      · cases h

/-- An escape is read, whatever comes behind it. -/
theorem exists_nameEscape? (h : IsEscape e) (o : Nat) (v : List Char) :
    ∃ d, Token.nameEscape? ⟨o, e ++ v⟩ = some d ∧ d.rest = v := by
  cases h with
  | @braced x ds hx hds =>
      have hall : ∀ y ∈ x :: ds, isHexDigit y = true := List.forall_mem_cons.mpr ⟨hx, hds⟩
      have hskip := fun o => Cursor.skipWhile_append (o := o) (u := '\x7d' :: v) hall fun y hy => by
        obtain rfl := Option.some.inj hy
        decide
      have hread : Token.nameEscape? ⟨o, '\\' :: 'u' :: '\x7b' :: x :: (ds ++ ['\x7d']) ++ v⟩ =
          (Cursor.skipWhile isHexDigit ⟨o + 1 + 1 + 1, x :: ds ++ '\x7d' :: v⟩).dropWord? ['\x7d'] := by
        simp only [Token.nameEscape?, List.cons_append, List.append_assoc, Cursor.dropWord?, if_true, hx]
        rfl
      rw [hskip] at hread
      exact ⟨_, hread.trans (Cursor.dropWord?_append ['\x7d']), rfl⟩
  | @short a b x y hhex =>
      have hne : a ≠ '\x7b' := by
        rintro rfl
        exact absurd (hhex _ List.mem_cons_self) (by decide)
      simp only [List.mem_cons, List.not_mem_nil, or_false, forall_eq_or_imp, forall_eq] at hhex
      have hread : Token.nameEscape? ⟨o, '\\' :: 'u' :: a :: b :: x :: y :: v⟩ =
          some (Cursor.skip 4 ⟨o + 1 + 1, a :: b :: x :: y :: v⟩) := by
        simp only [Token.nameEscape?, Cursor.dropWord?, if_true]
        rw [if_pos (by simp only [hhex, Bool.and_self])]
        rfl
      exact ⟨_, hread, rfl⟩

/-- Of two escapes in front of one text neither is longer. -/
theorem unique (h : IsEscape e) (h' : IsEscape e') (heq : e ++ u = e' ++ v) : e = e' := by
  obtain ⟨d, hd, hrest⟩ := h.exists_nameEscape? 0 u
  obtain ⟨d', hd', hrest'⟩ := h'.exists_nameEscape? 0 v
  rw [heq] at hd
  obtain rfl := Option.some.inj (hd.symm.trans hd')
  rw [hrest.symm.trans hrest'] at heq
  exact List.append_cancel_right heq

theorem exists_cons (h : IsEscape e) : ∃ e', e = '\\' :: e' := by
  cases h with
  | braced | short => exact ⟨_, rfl⟩

theorem isNameChar (h : IsEscape e) : ∀ x ∈ e, isNameChar x = true := by
  have hopen : ∀ x ∈ ['\\', 'u', '\x7b', '\x7d'], Script.isNameChar x = true := by decide
  cases h with
  | @braced x ds hx hds =>
      have hall : ∀ y ∈ x :: ds, isHexDigit y = true := List.forall_mem_cons.mpr ⟨hx, hds⟩
      intro y hy
      rcases List.mem_append.mp (show y ∈ ['\\', 'u', '\x7b'] ++ ((x :: ds) ++ ['\x7d']) from hy) with hy | hy
      · exact hopen y (List.mem_append_left ['\x7d'] hy)
      · rcases List.mem_append.mp hy with hy | hy
        · exact isNameChar_of_isHexDigit (hall y hy)
        · exact hopen y (List.mem_append_right ['\\', 'u', '\x7b'] hy)
  | @short a b x y hhex =>
      intro z hz
      rcases List.mem_append.mp (show z ∈ ['\\', 'u'] ++ [a, b, x, y] from hz) with hz | hz
      · exact hopen z (List.mem_append_left ['\x7b', '\x7d'] hz)
      · exact isNameChar_of_isHexDigit (hhex z hz)

end IsEscape

/-! ## Spelling

A spelling is a list of pieces, each a character or an escape. A text can be cut into pieces in one way
only, which is what `IsSpelled.of_append` says for a front part that is cut off.
-/

/-- Characters and escapes of a name, one behind the other. -/
inductive IsSpelled : List Char → Prop
  | nil : IsSpelled []
  | part {x : Char} {w : List Char} : isWordPart x = true → IsSpelled w → IsSpelled (x :: w)
  | escape {e w : List Char} : IsEscape e → IsSpelled w → IsSpelled (e ++ w)

/-- No name goes on with a text, neither with a character nor with an escape. -/
def HaltsName (u : List Char) : Prop := ∀ w v, IsSpelled w → u = w ++ v → w = []

namespace IsSpelled

variable {w w' u v : List Char}

/-- Two spellings one behind the other are one. -/
theorem append (h : IsSpelled w) (h' : IsSpelled w') : IsSpelled (w ++ w') := by
  induction h with
  | nil => exact h'
  | part hx _ ih => exact .part hx ih
  | escape he _ ih =>
      rw [List.append_assoc]
      exact .escape he ih

/-- What is left of a spelling behind a spelling is one. -/
theorem of_append (h : IsSpelled w) (h' : IsSpelled (w ++ w')) : IsSpelled w' := by
  have hslash : isWordPart '\\' = false := by decide
  -- A backslash begins an escape and is no part of a name, so the front tells the two apart.
  induction h with
  | nil => exact h'
  | @part x w hx _ ih =>
      generalize ht : x :: w ++ w' = t at h'
      cases h' with
      | nil => cases ht
      | part _ hrest =>
          obtain ⟨-, rfl⟩ := List.cons.inj ht
          exact ih hrest
      | escape he _ =>
          obtain ⟨e', rfl⟩ := he.exists_cons
          obtain ⟨rfl, -⟩ := List.cons.inj ht
          rw [hslash] at hx
          cases hx
  | @escape e w he _ ih =>
      generalize ht : e ++ w ++ w' = t at h'
      rw [List.append_assoc] at ht
      cases h' with
      | nil =>
          obtain ⟨e', rfl⟩ := he.exists_cons
          cases ht
      | part hx _ =>
          obtain ⟨e', rfl⟩ := he.exists_cons
          obtain ⟨rfl, -⟩ := List.cons.inj ht
          rw [hslash] at hx
          cases hx
      | escape he' hrest =>
          obtain rfl := he.unique he' ht
          obtain rfl := List.append_cancel_left ht
          exact ih hrest

theorem isNameChar (h : IsSpelled w) : ∀ x ∈ w, isNameChar x = true := by
  induction h with
  | nil => simp
  | part hx _ ih => exact List.forall_mem_cons.mpr ⟨by simp [Script.isNameChar, hx], ih⟩
  | escape he _ ih => exact List.forall_mem_append.mpr ⟨he.isNameChar, ih⟩

/-- Characters that stand for themselves are a spelling. -/
theorem of_forall (h : ∀ x ∈ w, isWordPart x = true) : IsSpelled w := by
  induction w with
  | nil => exact .nil
  | cons x w ih =>
      obtain ⟨hx, hw⟩ := List.forall_mem_cons.mp h
      exact .part hx (ih hw)

end IsSpelled

/-- A name does not go on with a character that stands in none. -/
theorem haltsName_of_head? {u : List Char} (h : ∀ x ∈ u.head?, isNameChar x = false) : HaltsName u := by
  intro w v hw hu
  cases w with
  | nil => rfl
  | cons x w =>
      have hx := hw.isNameChar x List.mem_cons_self
      rw [h x (by simp [hu])] at hx
      cases hx

/-- Whether a name goes on in front of a character that stands in none does not depend on what comes behind
it. -/
theorem HaltsName.change {x : Char} {r v : List Char} (hx : isNameChar x = false)
    (h : HaltsName (r ++ x :: v)) (w : List Char) : HaltsName (r ++ x :: w) := by
  intro z y hz hzy
  have hnotMem : x ∉ z := fun hmem => Bool.false_ne_true (hx.symm.trans (hz.isNameChar x hmem))
  obtain ⟨r', rfl, -⟩ := exists_of_notMem hnotMem hzy
  exact h z (r' ++ x :: v) hz (List.append_assoc z r' _)

/-! ## Names that are read

`Names w t u` says that the name `w` stands in front of `t` and that `u` is left. It does not say that no
name goes on with `u`, for which `HaltsName` is needed.
-/

/-- A name stands in front of a text. -/
structure Names (w t u : List Char) : Prop where
  eq : t = w ++ u
  ne_nil : w ≠ []
  spelled : IsSpelled w

namespace Names

variable {w w' t u u' : List Char}

/-- The characters of a name. -/
theorem chars (h : Names w t u) : ∀ x ∈ w, isNameChar x = true := h.spelled.isNameChar

/-- A name begins with a character of a name or with a backslash. -/
theorem exists_start (h : Names w t u) : ∃ x t', t = x :: t' ∧ (isWordPart x || x == '\\') = true := by
  obtain ⟨rfl, hne, hspelled⟩ := h
  cases hspelled with
  | nil => exact absurd rfl hne
  | part hx _ => exact ⟨_, _, rfl, by simp [hx]⟩
  | escape he _ =>
      obtain ⟨e, rfl⟩ := he.exists_cons
      exact ⟨'\\', _, rfl, rfl⟩

theorem exists_cons (h : Names w t u) : ∃ x t', t = x :: t' ∧ isNameChar x = true := by
  obtain ⟨x, rest, rfl⟩ := List.exists_cons_of_ne_nil h.ne_nil
  exact ⟨x, rest ++ u, h.eq, h.chars x List.mem_cons_self⟩

/-- A name ends where no name goes on. -/
theorem unique (h : Names w t u) (h' : Names w' t u') (hu : HaltsName u) (hu' : HaltsName u') :
    w = w' ∧ u = u' := by
  have heq : w ++ u = w' ++ u' := h.eq.symm.trans h'.eq
  rcases List.append_eq_append_iff.mp heq with ⟨z, rfl, rfl⟩ | ⟨z, rfl, rfl⟩
  · obtain rfl := hu z u' (h.spelled.of_append h'.spelled) rfl
    exact ⟨(List.append_nil w).symm, rfl⟩
  · obtain rfl := hu' z u (h'.spelled.of_append h.spelled) rfl
    exact ⟨List.append_nil w', rfl⟩

end Names

/-- The end of a name is found behind what is spelled, and no name goes on there unless it has too many
escapes. -/
theorem exists_nameEnd (k : Nat) (c : Cursor) : ∃ w, IsSpelled w ∧ c.rest = w ++ (Token.nameEnd k c).rest ∧
    (c.rest.length < k → HaltsName (Token.nameEnd k c).rest) := by
  induction k generalizing c with
  | zero => exact ⟨[], .nil, rfl, fun h => absurd h (Nat.not_lt_zero _)⟩
  | succ k ih =>
      have hskip : c.rest = c.rest.takeWhile isWordPart ++ (c.skipWhile isWordPart).rest := by
        rw [Cursor.rest_skipWhile, List.takeWhile_append_dropWhile]
      -- The characters up to the next escape are spelled, and so is what comes behind the escape.
      have hparts :=
        IsSpelled.of_forall (List.all_eq_true.mp (List.all_takeWhile (p := isWordPart) (l := c.rest)))
      simp only [Token.nameEnd]
      split
      · next e he =>
          obtain ⟨f, hf, hrest⟩ := IsEscape.exists_of_nameEscape? he
          obtain ⟨w, hw, hend, hhalts⟩ := ih e
          refine ⟨c.rest.takeWhile isWordPart ++ (f ++ w), hparts.append (.escape hf hw), ?_, fun hlt =>
            hhalts ?_⟩
          · simp only [List.append_assoc]
            rw [← hend, ← hrest]
            exact hskip
          · -- The escape takes one character at least.
            obtain ⟨f', rfl⟩ := hf.exists_cons
            have hlength := congrArg List.length hskip
            simp only [hrest, List.length_append, List.length_cons] at hlength
            omega
      · -- No escape follows, and the run of characters ended at one that stands in no name.
        next hnone =>
          refine ⟨_, hparts, hskip, fun _ w v hw hwv => ?_⟩
          cases hw with
          | nil => rfl
          | part hx _ =>
              have hhead := List.head?_dropWhile_not isWordPart c.rest
              rw [← Cursor.rest_skipWhile, hwv] at hhead
              simp [hx] at hhead
          | @escape f w hf _ =>
              obtain ⟨d, hd, -⟩ := hf.exists_nameEscape? (c.skipWhile isWordPart).offset (w ++ v)
              rw [← List.append_assoc, ← hwv] at hd
              exact absurd (hnone.symm.trans hd) (by simp)

/-- A name is spelled, and no name goes on behind it unless it has too many escapes. -/
theorem exists_name? {k : Nat} {c d : Cursor} (h : Token.name? k c = some d) :
    ∃ w, IsSpelled w ∧ c.rest = w ++ d.rest ∧ (c.rest.length ≤ k → HaltsName d.rest) := by
  simp only [Token.name?] at h
  split at h
  · cases h
    obtain ⟨w, hw, hrest, hhalts⟩ := exists_nameEnd (k + 1) c
    exact ⟨w, hw, hrest, fun hle => hhalts (Nat.lt_succ_of_le hle)⟩
  · obtain ⟨e, he, rfl⟩ := Option.map_eq_some_iff.mp h
    obtain ⟨f, hf, hrest⟩ := IsEscape.exists_of_nameEscape? he
    obtain ⟨w, hw, hend, hhalts⟩ := exists_nameEnd k e
    refine ⟨f ++ w, .escape hf hw, by rw [List.append_assoc, ← hend, hrest], fun hle => hhalts ?_⟩
    obtain ⟨f', rfl⟩ := hf.exists_cons
    rw [hrest, List.length_append, List.length_cons] at hle
    omega

/-- A name that was read stands in front. -/
theorem names_of_nameAt? {n : Nested} {c d : Cursor} {w : List Char} (h : n.nameAt? c = some (w, d)) :
    Names w c.rest d.rest := by
  have hrest := Nested.rest_of_nameAt? h
  obtain ⟨e, he, heq⟩ := Option.map_eq_some_iff.mp h
  obtain ⟨-, rfl⟩ := Prod.mk.inj heq
  obtain ⟨w', hspelled, hw', -⟩ := exists_name? he
  obtain rfl : w = w' := List.append_cancel_right (hrest.symm.trans hw')
  refine ⟨hrest, ?_, hspelled⟩
  rintro rfl
  have hlt := Token.lt_of_name? he
  obtain ⟨front, hfront, hoffset⟩ := hlt.le
  obtain rfl : front = [] := List.append_cancel_right (hfront.symm.trans hrest)
  have := Cursor.offset_lt hlt
  simp at hoffset
  omega

/-- Behind a name that was read no name goes on, if the bound is no less than what was left to read. -/
theorem haltsName_of_nameAt? {n : Nested} {c d : Cursor} {w : List Char} (h : n.nameAt? c = some (w, d))
    (hdepth : c.rest.length ≤ n.depth) : HaltsName d.rest := by
  obtain ⟨e, he, heq⟩ := Option.map_eq_some_iff.mp h
  obtain ⟨-, rfl⟩ := Prod.mk.inj heq
  obtain ⟨-, -, -, hhalts⟩ := exists_name? he
  exact hhalts hdepth

end WasmEmbed.Script
