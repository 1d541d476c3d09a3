import Mathlib.Data.Option.Basic
import WasmEmbed.Proofs.Script.Cursor
import WasmEmbed.Script.Gap

/-!
# Tokens go forward

Every function that looks for a token answers a cursor at or behind the one it was given: tokens,
comments, and the gap in front of a token. A name takes at least one character.

Where a function is defined by recursion on the text, the lemma goes by induction on the text, and where
it has a bound on its pieces, by induction on the bound. A strict inequality says that the token is not
empty; it is what lets the loops of the readers end.
-/

namespace WasmEmbed.Script

open Cursor

namespace Token

/-! ## Comments

A comment is opened by two characters at least. Whether a block comment is closed is a matter of the text
alone, so its offset plays no role there.
-/

/-- A block comment ends behind the slash that closes it. -/
theorem le_of_blockCommentEnd? {star : Bool} {o : Nat} {text : List Char} {d : Cursor}
    (h : blockCommentEnd? star o text = some d) : (⟨o, text⟩ : Cursor) ≤ d := by
  induction text generalizing star o with
  | nil => simp [blockCommentEnd?] at h
  | cons x xs ih =>
      simp only [blockCommentEnd?] at h
      split at h
      · cases h
      · split at h
        · -- The slash takes one byte.
          next hclose =>
            simp only [Bool.and_eq_true, beq_iff_eq] at hclose
            cases h
            rw [hclose.2]
            exact le_of_cons
        · exact le_of_cons.trans (ih h)

/-- Whether a comment has ended does not depend on where it began. -/
theorem rest_of_blockCommentEnd? {star : Bool} {o o' : Nat} {t : List Char} {d : Cursor}
    (h : blockCommentEnd? star o t = some d) :
    ∃ d', blockCommentEnd? star o' t = some d' ∧ d'.rest = d.rest := by
  induction t generalizing star o o' with
  | nil => cases h
  | cons x xs ih =>
      rw [blockCommentEnd?] at h ⊢
      split at h
      · cases h
      · next hzero =>
          rw [if_neg hzero]
          split at h
          · next hclose =>
              rw [if_pos hclose]
              cases h
              exact ⟨_, rfl, rfl⟩
          · next hopen =>
              rw [if_neg hopen]
              exact ih h

/-- A comment takes at least the two characters that open it. -/
theorem lt_of_comment? {c d : Cursor} (h : comment? c = some d) : c < d := by
  obtain ⟨o, rest⟩ := c
  simp only [comment?] at h
  split at h
  · cases h
    exact (lt_of_cons.trans lt_of_cons).trans_le (le_skipWhile _ _)
  · next tail =>
      have hopen : (⟨o, '/' :: '*' :: tail⟩ : Cursor) < ⟨o + 2, tail⟩ := lt_of_cons.trans lt_of_cons
      exact hopen.trans_le (le_of_blockCommentEnd? h)
  · cases h

theorem le_of_comment? {c d : Cursor} (h : comment? c = some d) : c ≤ d := (lt_of_comment? h).le

/-- An HTML-like comment begins behind the margin and ends behind its beginning. -/
theorem le_of_markupComment? {c a b : Cursor} (h : markupComment? c = some (a, b)) :
    c ≤ a ∧ a < b := by
  simp only [markupComment?] at h
  split at h
  · next d hd =>
      cases h
      refine ⟨le_skipWhile _ _, lt_of_lt_of_le ?_ (le_skipWhile _ d)⟩
      rcases (Option.orElse_eq_some _ _ _).mp hd with hopen | ⟨-, hclose⟩
      · exact lt_of_dropWord? hopen (by decide)
      · exact lt_of_dropWord? hclose (by decide)
  · cases h

/-! ## Names

A name begins with a character or with an escape. The pieces behind that are optional, so only the first
one is needed to see that a name is not empty.
-/

/-- An escape takes at least its backslash. -/
theorem lt_of_nameEscape? {c d : Cursor} (h : nameEscape? c = some d) : c < d := by
  simp only [nameEscape?] at h
  split at h
  · cases h
  · next e he =>
      refine lt_of_lt_of_le (lt_of_dropWord? he (by simp)) ?_
      split at h
      · split at h
        · exact ((le_step e).trans (le_skipWhile _ _)).trans (le_of_dropWord? h)
        · cases h
      · split at h
        · cases h
          exact le_skip 4 e
        · cases h
      · cases h

/-- The pieces of a name, by induction on the bound on their number. -/
theorem le_nameEnd (n : Nat) (c : Cursor) : c ≤ nameEnd n c := by
  induction n generalizing c with
  | zero => exact le_refl _
  | succ n ih =>
      simp only [nameEnd]
      split
      · next e he => exact ((le_skipWhile _ c).trans (lt_of_nameEscape? he).le).trans (ih e)
      · exact le_skipWhile _ c

/-- What may begin a name may stand in it. -/
theorem isWordPart_of_isWordStart {x : Char} (h : isWordStart x = true) : isWordPart x = true := by
  simp only [isWordStart, Bool.and_eq_true] at h
  exact h.1

/-- A run that begins with a character of the class is not empty. -/
theorem lt_skipWhile {p : Char → Bool} {c : Cursor} (h : c.nextIs p = true) : c < c.skipWhile p := by
  obtain ⟨o, rest⟩ := c
  cases rest with
  | nil => simp [nextIs] at h
  | cons x xs =>
      have hp : p x = true := h
      have hgo : skipWhile p ⟨o, x :: xs⟩ = skipWhile p ⟨o + x.utf8Size, xs⟩ := by
        simp [skipWhile, skipWhile.go, hp]
      rw [hgo]
      exact lt_of_lt_of_le lt_of_cons (le_skipWhile _ _)

/-- A name takes at least one character. -/
theorem lt_of_name? {n : Nat} {c d : Cursor} (h : name? n c = some d) : c < d := by
  simp only [name?] at h
  split at h
  · next hstart =>
      cases h
      have hpart : c.nextIs isWordPart = true := by
        cases hrest : c.rest with
        | nil => simp [nextIs, hrest] at hstart
        | cons x xs =>
            simp only [nextIs, hrest] at hstart ⊢
            exact isWordPart_of_isWordStart hstart
      simp only [nameEnd]
      split
      · next e he =>
          exact (lt_skipWhile hpart).trans_le ((lt_of_nameEscape? he).le.trans (le_nameEnd n e))
      · exact lt_skipWhile hpart
  · obtain ⟨e, he, rfl⟩ := Option.map_eq_some_iff.mp h
    exact (lt_of_nameEscape? he).trans_le (le_nameEnd n e)

/-! ## Numbers

A number has at least one digit, for no base counts the underscore as a digit. The fraction and the
exponent may be missing.
-/

/-- A run of digits, by the cases of its definition. -/
theorem le_digitsEnd (isDigit : Char → Bool) (o : Nat) (text : List Char) :
    (⟨o, text⟩ : Cursor) ≤ digitsEnd isDigit o text := by
  fun_induction digitsEnd isDigit o text with
  | case1 o y rest hy ih =>
      have hboth : (⟨o, '_' :: y :: rest⟩ : Cursor) ≤ ⟨o + 1 + y.utf8Size, rest⟩ :=
        (le_of_cons (x := '_')).trans le_of_cons
      exact hboth.trans ih
  | case2 => exact le_refl _
  | case3 o x rest _ _ ih => exact le_of_cons.trans ih
  | case4 => exact le_refl _
  | case5 => exact le_refl _

/-- A run of digits that was found holds its first digit. -/
theorem lt_of_digits? {isDigit : Char → Bool} {c d : Cursor} (hline : isDigit '_' = false)
    (h : digits? isDigit c = some d) : c < d := by
  simp only [digits?] at h
  split at h
  · next hdigit =>
      cases h
      obtain ⟨o, rest⟩ := c
      cases rest with
      | nil => simp [nextIs] at hdigit
      | cons x xs =>
          have hx : isDigit x = true := hdigit
          have hne : x ≠ '_' := by
            rintro rfl
            simp [hline] at hx
          -- The first equation of the definition is about an underscore, which the first digit is not.
          have hgo : digitsEnd isDigit o (x :: xs) = digitsEnd isDigit (o + x.utf8Size) xs := by
            rw [digitsEnd.eq_def]
            split
            · next heq => exact absurd (List.cons.inj heq).1 hne
            · next heq =>
                obtain ⟨rfl, rfl⟩ := List.cons.inj heq
                simp [hx]
            · next heq => cases heq
          rw [hgo]
          exact lt_of_lt_of_le lt_of_cons (le_digitsEnd _ _ _)
  · cases h

/-- An exponent that is not whole is not moved over. -/
theorem le_skipExponent (c : Cursor) : c ≤ skipExponent c := by
  simp only [skipExponent]
  cases h : exponent? c with
  | none => exact le_refl _
  | some d =>
      simp only [exponent?] at h
      split at h
      · have hdigits := (lt_of_digits? (by decide) h).le
        split at hdigits
        · exact (le_step c).trans ((le_step _).trans hdigits)
        · exact (le_step c).trans hdigits
      · cases h

/-- A number with a base takes the zero and the letter in front of its digits. -/
theorem lt_of_based? {c d : Cursor} (h : based? c = some d) : c < d := by
  obtain ⟨o, rest⟩ := c
  simp only [based?] at h
  split at h
  · next x tail =>
      -- The three bases differ in their digits alone.
      have hbehind {isDigit : Char → Bool} (hline : isDigit '_' = false) {d : Cursor}
          (h : (digits? isDigit (skip 2 ⟨o, '0' :: x :: tail⟩)).map
            (fun d => if d.nextIs (· == 'n') then d.step else d) = some d) :
          (⟨o, '0' :: x :: tail⟩ : Cursor) < d := by
        obtain ⟨e, he, rfl⟩ := Option.map_eq_some_iff.mp h
        refine (lt_of_le_of_lt (le_skip 2 _) (lt_of_digits? hline he)).trans_le ?_
        split
        · exact le_step e
        · exact le_refl e
      split at h
      · exact hbehind (by decide) h
      · split at h
        · exact hbehind (by decide) h
        · split at h
          · exact hbehind (by decide) h
          · cases h
  · cases h

/-- A decimal number begins with a digit or with a point and a digit. -/
theorem lt_of_decimal? {c d : Cursor} (h : decimal? c = some d) : c < d := by
  simp only [decimal?] at h
  split at h
  · obtain ⟨e, he, rfl⟩ := Option.map_eq_some_iff.mp h
    exact ((le_step c).trans_lt (lt_of_digits? (by decide) he)).trans_le (le_skipExponent e)
  · split at h
    · cases h
    · next e he =>
        refine (lt_of_digits? (by decide) he).trans_le ?_
        split at h
        · cases h
          exact le_step e
        · split at h
          · split at h
            · cases h
              refine (le_step e).trans (le_trans ?_ (le_skipExponent _))
              cases hfraction : digits? Char.isDigit e.step with
              | none => exact le_refl _
              | some f => exact (lt_of_digits? (by decide) hfraction).le
            · cases h
              exact le_skipExponent e
          · cases h
            exact le_refl _

/-- A number takes at least one character. -/
theorem lt_of_number? {c d : Cursor} (h : number? c = some d) : c < d := by
  rcases (Option.orElse_eq_some _ _ _).mp h with hbased | ⟨-, hdecimal⟩
  · exact lt_of_based? hbased
  · exact lt_of_decimal? hdecimal

/-! ## Strings

A string takes its opening quote, whatever is inside. An escape takes the backslash with at least one
character.
-/

/-- An escape of a string is not empty. -/
theorem lt_of_escape? {c d : Cursor} (h : escape? c = some d) : c < d := by
  simp only [escape?] at h
  split at h
  · next x rest hrest =>
      have htwo : c < c.skip 2 := (lt_step (by simp [hrest])).trans_le (le_step _)
      -- What follows the backslash decides how much of the rest belongs to it.
      split at h
      · split at h
        · split at h
          · cases h
            exact htwo.trans_le (le_skip 2 _)
          · cases h
        · cases h
      · split at h
        · exact lt_of_nameEscape? h
        · split at h
          · split at h
            · split at h
              · split at h <;> cases h
                · exact htwo.trans_le (le_skip 2 _)
                · exact htwo.trans_le (le_step _)
              · cases h
                exact htwo
            · split at h <;> cases h
              · exact htwo.trans_le (le_step _)
              · exact htwo
            · cases h
              exact htwo
          · split at h
            · cases h
            · split at h
              · split at h <;> cases h
                · exact htwo.trans_le (le_step _)
                · exact htwo
              · cases h
                exact htwo
  · cases h

theorem le_of_escape? {c d : Cursor} (h : escape? c = some d) : c ≤ d := (lt_of_escape? h).le

/-- The end of a string, by induction on the bound on its pieces. -/
theorem le_of_stringEnd? {quote : Char} {n : Nat} {c d : Cursor}
    (h : stringEnd? quote n c = some d) : c ≤ d := by
  induction n generalizing c with
  | zero => simp [stringEnd?] at h
  | succ n ih =>
      simp only [stringEnd?] at h
      split at h
      · exact (le_skipWhile _ c).trans (ih h)
      · split at h
        · cases h
          exact le_step c
        · split at h
          · split at h
            · next e he => exact (le_of_escape? he).trans (ih h)
            · cases h
          · split at h
            · cases h
              exact (le_skipWhile _ c).trans (le_step _)
            · split at h
              · next e he =>
                  exact (le_skipWhile _ c).trans ((le_of_comment? he).trans (ih h))
              · cases h

/-- A string takes at least its opening quote. -/
theorem lt_of_string? {n : Nat} {c d : Cursor} (h : string? n c = some d) : c < d := by
  simp only [string?] at h
  split at h
  · next hrest => exact (lt_step (by simp [hrest])).trans_le (le_of_stringEnd? h)
  · next hrest => exact (lt_step (by simp [hrest])).trans_le (le_of_stringEnd? h)
  · cases h

/-! ## Regular expressions

The slash that opens a regular expression is one character. In the pattern, a slash or a backslash takes
one byte, which is how their offsets are written.
-/

/-- The end of a pattern, by induction on the text. -/
theorem le_of_patternEnd? {inClass escaped : Bool} {o : Nat} {text : List Char} {d : Cursor}
    (h : patternEnd? inClass escaped o text = some d) : (⟨o, text⟩ : Cursor) ≤ d := by
  induction text generalizing inClass escaped o with
  | nil => simp [patternEnd?] at h
  | cons x xs ih =>
      have hone : x = '\\' ∨ x = '/' → (⟨o, x :: xs⟩ : Cursor) ≤ ⟨o + 1, xs⟩ := by
        rintro (rfl | rfl) <;> exact le_of_cons
      simp only [patternEnd?] at h
      split at h
      · cases h
      · split at h
        · exact le_of_cons.trans (ih h)
        · split at h
          · next hx => exact (hone (Or.inl hx)).trans (ih h)
          · split at h
            · exact le_of_cons.trans (ih h)
            · split at h
              · next hx =>
                  cases h
                  exact hone (Or.inr hx)
              · exact le_of_cons.trans (ih h)

/-- Flags may be missing. -/
theorem le_skipFlags (c : Cursor) : c ≤ skipFlags c := by
  simp only [skipFlags]
  split
  · next d hd =>
      split
      · exact (le_skipWhile _ c).trans ((le_of_comment? hd).trans (le_skipWhile _ d))
      · exact le_refl c
  · exact le_skipWhile _ c

/-- A regular expression takes at least its opening slash. -/
theorem lt_of_regex? {c d : Cursor} (h : regex? c = some d) : c < d := by
  obtain ⟨o, rest⟩ := c
  simp only [regex?] at h
  split at h
  · cases h
  · obtain ⟨e, he, rfl⟩ := Option.map_eq_some_iff.mp h
    exact lt_of_cons.trans_le ((le_of_patternEnd? he).trans (le_skipFlags e))
  · cases h

end Token

/-! ## Gaps

The search for an unwritten semicolon answers a cursor only when it refuses: where it stopped. The cursor
lies at or behind the one at which the search began.
-/

namespace Semicolon

/-- The search stops behind the word that continues the expression. -/
theorem le_onWord {comment seen : Bool} {c d : Cursor} (h : onWord comment c = .goesOn seen d) :
    c ≤ d := by
  simp only [onWord] at h
  split at h
  · cases h
  · next e he =>
      split at h
      · split at h
        · cases h
        · next f hf =>
            split at h <;> cases h
            exact (le_of_dropWord? he).trans (le_of_dropWord? hf)
      · cases h
        exact le_of_dropWord? he

/-- Beyond a line end the search stops at the first character or behind it. -/
theorem le_afterLineEnd {comment seen : Bool} {c d : Cursor}
    (h : afterLineEnd comment c = .goesOn seen d) : c ≤ d := by
  simp only [afterLineEnd] at h
  split at h
  · cases h
  · split at h
    · cases h
      exact le_refl _
    · split at h
      · split at h <;> cases h
        exact le_step c
      · split at h
        · split at h <;> cases h
          exact le_step c
        · split at h
          · split at h <;> cases h
            exact le_step c
          · split at h
            · exact le_onWord h
            · cases h

/-- The walk on the line of the last token stops where it is. -/
theorem le_settle {operand accepted comment seen : Bool} {c d : Cursor}
    (h : settle operand accepted comment c = .inr (.goesOn seen d)) : c ≤ d := by
  simp only [settle] at h
  split at h
  · cases h
  · split at h
    · cases h
      exact le_refl _
    · repeat' split at h
      all_goals first | cases h; exact le_refl _ | cases h

/-- One step of the search stops at the character that it looks at or behind it. -/
theorem le_onChar {operand comment seen : Bool} {o : Nat} {x : Char} {xs : List Char} {place : Place}
    {d : Cursor} (h : onChar operand comment ⟨o, x :: xs⟩ x place = .inr (.goesOn seen d)) :
    (⟨o, x :: xs⟩ : Cursor) ≤ d := by
  have hsettled {seen' accepted : Bool}
      (h : onChar.settled operand ⟨o, x :: xs⟩ seen' accepted = .inr (.goesOn seen d)) :
      (⟨o, x :: xs⟩ : Cursor) ≤ d := by
    simp only [onChar.settled] at h
    split at h
    · next hverdict =>
        cases h
        exact le_settle hverdict
    · cases h
  have hblock {newline : Bool}
      (h : onChar.inBlock operand comment ⟨o, x :: xs⟩ x newline = .inr (.goesOn seen d)) :
      (⟨o, x :: xs⟩ : Cursor) ≤ d := by
    simp only [onChar.inBlock] at h
    split at h
    · exact hsettled h
    · split at h <;> cases h
  have hend (h : (Sum.inr (afterLineEnd comment ⟨o, x :: xs⟩) : (Bool × Place) ⊕ Verdict) =
      .inr (.goesOn seen d)) : (⟨o, x :: xs⟩ : Cursor) ≤ d := le_afterLineEnd (Sum.inr.inj h)
  have hstop (h : (Sum.inr (.goesOn comment ⟨o, x :: xs⟩) : (Bool × Place) ⊕ Verdict) =
      .inr (.goesOn seen d)) : (⟨o, x :: xs⟩ : Cursor) ≤ d := by
    cases h
    exact le_refl _
  -- The search stays at the character, or goes on behind one that closes a comment.
  cases place with
  | sameLine =>
      simp only [onChar] at h
      repeat' split at h
      all_goals first | exact hstop h | cases h
  | comments within newline =>
      cases within with
      | star =>
          simp only [onChar] at h
          split at h
          · split at h
            · cases h
            · split at h
              · next hverdict =>
                  cases h
                  exact (le_step _).trans (le_settle hverdict)
              · cases h
          · exact hblock h
      | block => exact hblock h
      | _ =>
          simp only [onChar] at h
          repeat' split at h
          all_goals first | exact hstop h | exact hsettled h | cases h
  | beyond within =>
      cases within <;> simp only [onChar] at h <;> repeat' split at h
      all_goals first | exact hstop h | exact hend h | cases h

/-- The search stops at or behind its beginning. The induction is on the text, for every place in which
the search may stand. -/
theorem le_seek {operand seen : Bool} {c d : Cursor} (h : seek operand c = .goesOn seen d) :
    c ≤ d := by
  obtain ⟨o, rest⟩ := c
  suffices hfrom : ∀ comment place, seekFrom operand comment place o rest = .goesOn seen d →
      (⟨o, rest⟩ : Cursor) ≤ d from hfrom false .sameLine h
  clear h
  induction rest generalizing o with
  | nil =>
      intro comment place h
      cases place with
      | sameLine => cases h
      | comments within newline =>
          cases within <;> simp only [seekFrom, atEnd] at h <;> repeat' split at h
          all_goals first | cases h; exact le_refl _ | cases h
      | beyond within =>
          cases within <;> cases h
          exact le_refl _
  | cons x xs ih =>
      intro comment place h
      simp only [seekFrom] at h
      split at h
      · next verdict hverdict =>
          subst h
          exact le_onChar hverdict
      · exact le_of_cons.trans (ih _ _ _ h)

end Semicolon

namespace Gap

/-- Where a gap leads. -/
def cursor : Gap → Cursor
  | semicolon c => c
  | token c _ => c

/-- What is found before ordinary blanks and comments lies at or behind the cursor. -/
theorem le_first? {follow : Follow} {c : Cursor} {r : Cursor ⊕ Gap} (h : first? follow c = some r) :
    c ≤ r.elim id cursor := by
  simp only [first?] at h
  split at h
  · split at h
    · cases h
      exact le_refl _
    · next hseek =>
        split at h <;> cases h
        exact Semicolon.le_seek hseek
  · split at h
    · split at h <;> cases h
      exact le_skipWhile _ c
    · obtain ⟨⟨a, b⟩, hcomment, rfl⟩ := Option.map_eq_some_iff.mp h
      obtain ⟨hstart, hstop⟩ := Token.le_of_markupComment? hcomment
      exact hstart.trans hstop.le

/-- A gap leads forward, by induction on the bound on its comments. -/
theorem le_find (follow : Follow) (n : Nat) (c : Cursor) : c ≤ (find follow n c).cursor := by
  induction n generalizing c with
  | zero => exact le_refl _
  | succ n ih =>
      simp only [find]
      split
      · next hfirst => exact le_first? hfirst
      · next d hfirst => exact (le_first? hfirst).trans (ih d)
      · split
        · next e he => exact (le_skipWhile _ c).trans ((Token.le_of_comment? he).trans (ih e))
        · exact le_skipWhile _ c

end Gap

end WasmEmbed.Script
