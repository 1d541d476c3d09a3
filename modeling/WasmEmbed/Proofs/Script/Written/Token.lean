import WasmEmbed.Proofs.Script.Gap
import WasmEmbed.Proofs.Script.Yields
import WasmEmbed.Config

/-!
# Tokens that are written

A script that is put together from parts is read part by part. This module has the tokens: in front of a
firm character, and of one blank with a firm character behind it, a gap leads to that character
(`Gap.find_firm`, `Gap.find_space`); an identifier is read as a name where no name goes on behind it
(`Nested.nameAt?_identifier`); and a text without line ends and escapes is read as a string between its quotes
(`Token.string?_plain`).

A character is solid if no blank and no comment begins with it, and firm if moreover no statement ends in
front of it and it opens no conditional. In front of a firm character every reader of a gap stops,
whatever may come next.
-/

namespace WasmEmbed.Script

open Reader

variable {o k : Nat} {x : Char} {t u w : List Char}

/-! ## Gaps

Whatever may come next, nothing is found in front of a firm character but the character itself. With one
blank in front of it the gap is that blank.
-/

/-- Neither a blank nor a comment stands in front of a text. -/
def Rests (u : List Char) : Prop := ∀ x ∈ u.head?, Over.isSolid x = true

/-- In front of a solid character nothing is skipped. -/
theorem rests_cons (hx : Over.isSolid x = true) : Rests (x :: u) := by
  intro y hy
  obtain rfl := Option.some.inj hy
  exact hx

section Rests

variable (hu : Rests u)

include hu

theorem Rests.ne {y : Char} (hy : Over.isSolid y = false) : ∀ x ∈ u.head?, y ≠ x := by
  rintro x hx rfl
  exact Bool.false_ne_true (hy.symm.trans (hu y hx))

/-- No word begins there with a character that is not solid. -/
theorem Rests.dropWord?_eq_none {word : List Char} {y : Char} (hy : Over.isSolid y = false) :
    Cursor.dropWord? (y :: word) ⟨o, u⟩ = none := by
  cases u with
  | nil => rfl
  | cons x u => exact Cursor.dropWord?_cons_ne (hu.ne hy x rfl)

/-- No comment begins there. -/
theorem comment?_solid : Token.comment? ⟨o, u⟩ = none := by
  cases u with
  | nil => rfl
  | cons x u =>
      have hne : x ≠ '/' := (hu.ne (by decide) x rfl).symm
      simp [Token.comment?, hne]

/-- A run of blanks ends where none stands. -/
theorem skipWhile_blanks {p : Char → Bool} (hp : ∀ y, p y = true → isBlank y = true)
    (ht : ∀ y ∈ t, p y = true) : Cursor.skipWhile p ⟨o, t ++ u⟩ = ⟨o + byteCount t, u⟩ := by
  refine Cursor.skipWhile_append ht fun x hx => ?_
  rw [Bool.eq_false_iff]
  intro hpx
  have hsolid := hu x hx
  simp only [Over.isSolid, hp x hpx, Bool.true_or, Bool.not_true] at hsolid
  cases hsolid

/-- Behind a margin no HTML-like comment begins there either. -/
theorem markupComment?_margin (ht : ∀ y ∈ t, isMargin y = true) :
    Token.markupComment? ⟨o, t ++ u⟩ = none := by
  have hopen : "<!--".toList = '<' :: "!--".toList := by decide
  have hclose : "-->".toList = '-' :: "->".toList := by decide
  rw [Token.markupComment?, skipWhile_blanks hu (fun _ => isBlank_of_isMargin) ht, hopen, hclose,
    hu.dropWord?_eq_none (by decide), hu.dropWord?_eq_none (by decide)]
  rfl

end Rests

/-- A character at which a gap ends whatever may come next: no blank and no comment begins there, no
statement ends in front of it, and it opens no conditional. -/
def isFirm (x : Char) : Bool := Over.isSolid x && !(x == '?' || x == '\x7d' || x == '\x00')

section Firm

variable {p : Char → Bool} (h : isFirm x = true)

include h

theorem isSolid_of_isFirm : Over.isSolid x = true := by
  simp only [isFirm, Bool.and_eq_true] at h
  exact h.1

theorem isBlank_of_isFirm : isBlank x = false := by
  have := isSolid_of_isFirm h
  simp only [Over.isSolid, Bool.not_eq_true', Bool.or_eq_false_iff] at this
  exact this.1.1.1

/-- A firm character is none that is not. -/
theorem ne_of_isFirm {y : Char} (hy : isFirm y = false) : x ≠ y := by
  rintro rfl
  exact Bool.false_ne_true (hy.symm.trans h)

theorem isMargin_of_isFirm : isMargin x = false := by
  rw [Bool.eq_false_iff]
  intro hmargin
  exact Bool.false_ne_true ((isBlank_of_isFirm h).symm.trans (isBlank_of_isMargin hmargin))

theorem endsLine_of_isFirm : endsLine x = false := by
  have hne : ∀ {y : Char}, isFirm y = false → (x == y) = false := fun hy =>
    beq_eq_false_iff_ne.mpr (ne_of_isFirm h hy)
  rw [endsLine, hne (y := '\n') (by decide), hne (y := '\u2028') (by decide),
    hne (y := '\u2029') (by decide)]
  rfl

/-- A run of blanks ends at a firm character. -/
theorem skipWhile_firm (hp : ∀ y, p y = true → isBlank y = true) :
    Cursor.skipWhile p ⟨o, x :: u⟩ = ⟨o, x :: u⟩ :=
  skipWhile_blanks (t := []) (rests_cons (isSolid_of_isFirm h)) hp fun _ hy => by cases hy

/-- The search for the end of a statement goes on at a firm character. -/
theorem onChar_firm {operand : Bool} {c : Cursor} :
    Semicolon.onChar operand false c x .sameLine = .inr (.goesOn false c) := by
  have hzero : x ≠ '\x00' := ne_of_isFirm h (by decide)
  have hbrace : x ≠ '\x7d' := ne_of_isFirm h (by decide)
  have hslash : x ≠ '/' := ne_of_isFirm h (by decide)
  simp [Semicolon.onChar, hzero, hbrace, hslash, endsLine_of_isFirm h, isMargin_of_isFirm h]

/-- A firm character on the same line refuses to end the statement. -/
theorem seek_firm {operand : Bool} :
    Semicolon.seek operand ⟨o, x :: u⟩ = .goesOn false ⟨o, x :: u⟩ := by
  show Semicolon.seekFrom operand false .sameLine o (x :: u) = _
  rw [Semicolon.seekFrom, onChar_firm h]

/-- The search passes a space. -/
theorem seek_space {operand : Bool} :
    Semicolon.seek operand ⟨o, ' ' :: x :: u⟩ = .goesOn false ⟨o + 1, x :: u⟩ := by
  show Semicolon.seekFrom operand false .sameLine (o + 1) (x :: u) = _
  rw [Semicolon.seekFrom, onChar_firm h]

theorem opensConditional_firm : Gap.opensConditional ⟨o, x :: u⟩ = false := by
  have hne : x ≠ '?' := ne_of_isFirm h (by decide)
  simp [Gap.opensConditional, hne]

theorem comment?_firm : Token.comment? ⟨o, x :: u⟩ = none :=
  comment?_solid (rests_cons (isSolid_of_isFirm h))

theorem markupComment?_firm : Token.markupComment? ⟨o, x :: u⟩ = none :=
  markupComment?_margin (t := []) (rests_cons (isSolid_of_isFirm h)) fun _ hy => by cases hy

theorem markupComment?_space : Token.markupComment? ⟨o, ' ' :: x :: u⟩ = none :=
  markupComment?_margin (t := [' ']) (rests_cons (isSolid_of_isFirm h))
    (List.forall_mem_singleton.mpr (by decide))

namespace Gap

/-- Before blanks and comments are skipped nothing is found. -/
theorem first?_firm (follow : Follow) : first? follow ⟨o, x :: u⟩ = none := by
  rw [first?, seek_firm h, skipWhile_firm h fun _ => isBlank_of_isMargin, markupComment?_firm h]
  simp [opensConditional_firm h]

theorem first?_space (follow : Follow) : first? follow ⟨o, ' ' :: x :: u⟩ = none := by
  have hskip : Cursor.skipWhile isMargin ⟨o, ' ' :: x :: u⟩ = ⟨o + 1, x :: u⟩ :=
    skipWhile_firm (o := o + 1) h fun _ => isBlank_of_isMargin
  rw [first?, seek_space h, hskip, markupComment?_space h]
  simp [opensConditional_firm h]

/-- Behind no gap stands a firm character. -/
theorem find_firm (follow : Follow) (hk : 0 < k) :
    find follow k ⟨o, x :: u⟩ = .token ⟨o, x :: u⟩ false := by
  obtain ⟨k, rfl⟩ := Nat.exists_eq_add_one.mpr hk
  have hskip : Cursor.skipWhile isBlank ⟨o, x :: u⟩ = ⟨o, x :: u⟩ := skipWhile_firm h fun _ hy => hy
  simp only [find, first?_firm h, hskip, comment?_firm h]

/-- Behind a space stands a firm character. -/
theorem find_space (follow : Follow) (hk : 0 < k) :
    find follow k ⟨o, ' ' :: x :: u⟩ = .token ⟨o + 1, x :: u⟩ false := by
  obtain ⟨k, rfl⟩ := Nat.exists_eq_add_one.mpr hk
  have hskip : Cursor.skipWhile isBlank ⟨o, ' ' :: x :: u⟩ = ⟨o + 1, x :: u⟩ :=
    skipWhile_firm (o := o + 1) h fun _ hy => hy
  simp only [find, first?_space h, hskip, comment?_firm h]

end Gap

namespace Nested

variable {n : Nested} (hn : 0 < n.depth)

include hn

/-- The next token is at the firm character. -/
theorem toToken_firm (follow : Follow) : n.toToken follow ⟨o, x :: u⟩ = some ((), ⟨o, x :: u⟩) := by
  rw [Nested.toToken, Reader.move, Gap.find_firm h follow hn]
  rfl

/-- The next token is behind the one blank. -/
theorem toToken_space (follow : Follow) :
    n.toToken follow ⟨o, ' ' :: x :: u⟩ = some ((), ⟨o + 1, x :: u⟩) := by
  rw [Nested.toToken, Reader.move, Gap.find_space h follow hn]
  rfl

theorem toPlain_firm : n.toPlain ⟨o, x :: u⟩ = some ((), ⟨o, x :: u⟩) := toToken_firm h hn .plain

theorem toPlain_space : n.toPlain ⟨o, ' ' :: x :: u⟩ = some ((), ⟨o + 1, x :: u⟩) := toToken_space h hn .plain

end Nested

end Firm

/-! ## Names

The characters of an identifier are letters, digits, underscores and dollar signs of the first 128
characters. So what is true of each of them is decided by going through these.
-/

/-- No name goes on with a text. -/
def EndsName (u : List Char) : Prop := ∀ x ∈ u.head?, isWordPart x = false ∧ x ≠ '\\'

/-- A name ends in front of a character that stands in none and begins no escape. -/
theorem endsName_cons (hx : (isWordPart x || x == '\\') = false) : EndsName (x :: u) := by
  intro y hy
  obtain rfl := Option.some.inj hy
  simpa using hx

section Identifier

/-- The codes of these characters are less than 128. -/
theorem toNat_lt_of_isIdentifierPart (h : isIdentifierPart x = true) : x.toNat < 128 := by
  delta isIdentifierPart beginsIdentifier Char.isAlpha Char.isUpper Char.isLower Char.isDigit at h
  simp only [Bool.or_eq_true, Bool.and_eq_true, decide_eq_true_eq, beq_iff_eq, ge_iff_le,
    UInt32.le_iff_toNat_le] at h
  rcases h with (((h | h) | rfl) | rfl) | h
  · exact Nat.lt_of_le_of_lt h.2 (by decide)
  · exact Nat.lt_of_le_of_lt h.2 (by decide)
  · decide
  · decide
  · exact Nat.lt_of_le_of_lt h.2 (by decide)

/-- What holds of all characters of identifiers in ASCII holds of all characters of identifiers. -/
theorem forall_isIdentifierPart {p : Char → Bool}
    (h : ∀ n < 128, isIdentifierPart (Char.ofNat n) = true → p (Char.ofNat n) = true)
    (hx : isIdentifierPart x = true) : p x = true := by
  have := h x.toNat (toNat_lt_of_isIdentifierPart hx)
  rw [Char.ofNat_toNat] at this
  exact this hx

/-- They are characters of names. -/
theorem isWordPart_of_isIdentifierPart (h : isIdentifierPart x = true) : isWordPart x = true :=
  forall_isIdentifierPart (by decide +kernel) h

/-- They are firm. -/
theorem isFirm_of_isIdentifierPart (h : isIdentifierPart x = true) : isFirm x = true :=
  forall_isIdentifierPart (by decide +kernel) h

theorem isWordStart_of_beginsIdentifier (h : beginsIdentifier x = true) : isWordStart x = true := by
  have hpart : isIdentifierPart x = true := by rw [isIdentifierPart, h, Bool.true_or]
  have hall : (!beginsIdentifier x || isWordStart x) = true :=
    forall_isIdentifierPart (p := fun y => !beginsIdentifier y || isWordStart y) (by decide +kernel) hpart
  rw [h] at hall
  exact hall

theorem nameEscape?_of_ne (h : ∀ x ∈ u.head?, x ≠ '\\') : Token.nameEscape? ⟨o, u⟩ = none := by
  have hdrop : Cursor.dropWord? ['\\', 'u'] ⟨o, u⟩ = none := by
    cases u with
    | nil => rfl
    | cons x u => exact Cursor.dropWord?_cons_ne (h x rfl).symm
  rw [Token.nameEscape?, hdrop]

variable (hw : isIdentifier w = true) (hu : EndsName u)

include hw

/-- An identifier is its first character with the others behind it. -/
theorem exists_cons_of_isIdentifier :
    ∃ x v, w = x :: v ∧ beginsIdentifier x = true ∧ ∀ y ∈ v, isIdentifierPart y = true := by
  cases w with
  | nil => cases hw
  | cons x v =>
      simp only [isIdentifier, Bool.and_eq_true, List.all_eq_true] at hw
      exact ⟨x, v, rfl, hw⟩

/-- An identifier begins with a firm character. -/
theorem exists_firm_of_isIdentifier : ∃ x v, w = x :: v ∧ isFirm x = true := by
  obtain ⟨x, v, rfl, hx, -⟩ := exists_cons_of_isIdentifier hw
  refine ⟨x, v, rfl, isFirm_of_isIdentifierPart ?_⟩
  rw [isIdentifierPart, hx, Bool.true_or]

/-- No other character stands at the beginning of an identifier. -/
theorem nextIs_identifier {p : Char → Bool}
    (hp : ∀ n < 128, isIdentifierPart (Char.ofNat n) = true → (!p (Char.ofNat n)) = true) :
    (⟨o, w ++ u⟩ : Cursor).nextIs p = false := by
  obtain ⟨x, v, rfl, hx, -⟩ := exists_cons_of_isIdentifier hw
  have hpart : isIdentifierPart x = true := by rw [isIdentifierPart, hx, Bool.true_or]
  have hnot : (!p x) = true := forall_isIdentifierPart (p := fun y => !p y) hp hpart
  rwa [Bool.not_eq_true'] at hnot

include hu

/-- An identifier is read as a name that ends with it. -/
theorem name?_identifier : Token.name? k ⟨o, w ++ u⟩ = some ⟨o + byteCount w, u⟩ := by
  obtain ⟨x, v, rfl, hx, hv⟩ := exists_cons_of_isIdentifier hw
  have hstart : (⟨o, x :: v ++ u⟩ : Cursor).nextIs isWordStart = true :=
    isWordStart_of_beginsIdentifier hx
  have hchars : ∀ y ∈ x :: v, isWordPart y = true := by
    intro y hy
    rcases List.mem_cons.mp hy with rfl | hy
    · exact Token.isWordPart_of_isWordStart (isWordStart_of_beginsIdentifier hx)
    · exact isWordPart_of_isIdentifierPart (hv y hy)
  rw [Token.name?, if_pos hstart, Token.nameEnd,
    Cursor.skipWhile_append hchars fun y hy => (hu y hy).1]
  rw [nameEscape?_of_ne fun y hy => (hu y hy).2]

/-- An identifier is read as a name where no name goes on behind it. -/
theorem Nested.nameAt?_identifier (n : Nested) :
    n.nameAt? ⟨o, w ++ u⟩ = some (w, ⟨o + byteCount w, u⟩) := by
  rw [nameAt?, name?_identifier hw hu]
  show some (Cursor.textUpTo _ _, _) = _
  rw [Cursor.textUpTo_eq rfl rfl]

theorem Nested.wordAt_identifier (n : Nested) : n.wordAt ⟨o, w ++ u⟩ = String.ofList w := by
  rw [wordAt, nameAt?_identifier hw hu]

end Identifier

/-- Where no name begins, none is read. -/
theorem Nested.nameAt?_of_not (n : Nested) (h : ∀ y ∈ u.head?, (isWordStart y || y == '\\') = false) :
    n.nameAt? ⟨o, u⟩ = none := by
  have hescape : Token.nameEscape? ⟨o, u⟩ = none := by
    refine nameEscape?_of_ne fun y hy => ?_
    have := h y hy
    simp only [Bool.or_eq_false_iff, beq_eq_false_iff_ne] at this
    exact this.2
  have hstart : (⟨o, u⟩ : Cursor).nextIs isWordStart = false := by
    cases u with
    | nil => rfl
    | cons x u => exact (Bool.or_eq_false_iff.mp (h x rfl)).1
  rw [nameAt?, Token.name?, hstart, hescape]
  rfl

/-! ## Strings -/

/-- A text without line ends and escapes is read as a string between its quotes. -/
theorem stringEnd?_plain {quote : Char} (ht : ∀ y ∈ t, Token.isPlain quote y = true) (hk : 1 < k) :
    Token.stringEnd? quote k ⟨o, t ++ quote :: u⟩ = some ⟨o + byteCount t + quote.utf8Size, u⟩ := by
  obtain ⟨k, rfl⟩ := Nat.exists_eq_add_of_lt hk
  have hquote : Token.isPlain quote quote = false := by simp [Token.isPlain]
  have hend : ∀ j o, Token.stringEnd? quote (j + 1) ⟨o, quote :: u⟩ = some ⟨o + quote.utf8Size, u⟩ := by
    intro j o
    simp [Token.stringEnd?, Cursor.nextIs, hquote, Cursor.step]
  cases t with
  | nil => exact hend _ o
  | cons x t =>
      have hx : (⟨o, x :: t ++ quote :: u⟩ : Cursor).nextIs (Token.isPlain quote) = true :=
        ht x List.mem_cons_self
      have hskip := Cursor.skipWhile_append (o := o) (u := quote :: u) ht fun y hy => by
        obtain rfl := Option.some.inj hy
        exact hquote
      rw [show 1 + k + 1 = (k + 1) + 1 by omega, Token.stringEnd?, if_pos hx, hskip]
      exact hend k _

/-- A text of plain characters is read as a string between its quotes. -/
theorem string?_plain {quote : Char} (hquote : quote = '"' ∨ quote = '\'')
    (ht : ∀ y ∈ t, Token.isPlain quote y = true) (hk : 1 < k) :
    Token.string? k ⟨o, quote :: (t ++ quote :: u)⟩ = some ⟨o + 1 + byteCount t + quote.utf8Size, u⟩ := by
  rcases hquote with rfl | rfl <;> exact stringEnd?_plain (o := o + 1) ht hk

end WasmEmbed.Script
