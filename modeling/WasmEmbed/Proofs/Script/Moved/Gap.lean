import WasmEmbed.Proofs.Script.Moved.Token

/-!
# Gaps further back in a file

What is found in front of the next token, an unwritten semicolon or the token, is found again with more
bytes in front of the text, and moved by them.

Where a statement may end, a search goes over the characters one by one and keeps its state in a `Place`,
in which no cursor occurs. So it goes through the same states at each offset, and only the cursor in its
verdict is moved.
-/

namespace WasmEmbed.Script

open Cursor

variable {k : Nat} {c : Cursor}

/-! ## The end of a statement

The search is one step for each character. That a step agrees is shown by cases on where the search
stands, and the induction on the text only puts the steps together.
-/

namespace Semicolon

/-- The verdict on the same text with `k` more bytes in front of it. -/
def Verdict.moved (k : Nat) : Verdict → Verdict
  | ends => ends
  | goesOn comment stopped => goesOn comment (stopped.moved k)

/-- The words `in` and `instanceof` continue an expression. -/
theorem onWord_moved (comment : Bool) : onWord comment (c.moved k) = (onWord comment c).moved k := by
  simp only [onWord, dropWord?_moved]
  cases c.dropWord? "in".toList with
  | none => rfl
  | some d =>
      simp only [Option.map_some, nextIs_moved, dropWord?_moved]
      cases d.dropWord? "stanceof".toList with
      | none =>
          simp only [Option.map_none, apply_ite (Verdict.moved k)]
          rfl
      | some e =>
          simp only [Option.map_some, nextIs_moved, apply_ite (Verdict.moved k)]
          rfl

/-- The verdict beyond a line end, by the first character there. -/
theorem afterLineEnd_moved (comment : Bool) :
    afterLineEnd comment (c.moved k) = (afterLineEnd comment c).moved k := by
  simp only [afterLineEnd, rest_moved, step_moved, nextIs_moved, onWord_moved]
  split
  · rfl
  · simp only [apply_ite (Verdict.moved k)]
    rfl

/-- Where the blanks and comments on the line of the last token end. -/
theorem settle_moved (operand accepted comment : Bool) :
    settle operand accepted comment (c.moved k) =
      (settle operand accepted comment c).map id (Verdict.moved k) := by
  simp only [settle, nextIs_moved, rest_moved]
  cases c.rest with
  | nil =>
      simp only [apply_ite (Sum.map id (Verdict.moved k))]
      rfl
  | cons x rest =>
      simp only [apply_ite (Sum.map id (Verdict.moved k))]
      rfl

/-- One step of the search. -/
theorem onChar_moved (operand comment : Bool) (x : Char) (place : Place) :
    onChar operand comment (c.moved k) x place =
      (onChar operand comment c x place).map id (Verdict.moved k) := by
  have hsettled : ∀ seen accepted, onChar.settled operand (c.moved k) seen accepted =
      (onChar.settled operand c seen accepted).map id (Verdict.moved k) := by
    intro seen accepted
    rw [onChar.settled, onChar.settled, settle_moved]
    cases settle operand accepted seen c <;> rfl
  -- A star in a block comment may begin its end, or be a character like any other.
  have hblock : ∀ newline, onChar.inBlock operand comment (c.moved k) x newline =
      (onChar.inBlock operand comment c x newline).map id (Verdict.moved k) := by
    intro newline
    simp only [onChar.inBlock, hsettled, apply_ite (Sum.map id (Verdict.moved k))]
    rfl
  cases place with
  | sameLine =>
      simp only [onChar, apply_ite (Sum.map id (Verdict.moved k))]
      rfl
  | comments within newline =>
      cases within with
      | block => exact hblock newline
      | star =>
          simp only [onChar, step_moved, nextIs_moved, settle_moved, hblock,
            apply_ite (Sum.map id (Verdict.moved k))]
          cases settle operand newline true c.step <;> rfl
      | _ =>
          simp only [onChar, hsettled, apply_ite (Sum.map id (Verdict.moved k))]
          rfl
  | beyond within =>
      cases within with
      | _ =>
          simp only [onChar, afterLineEnd_moved, apply_ite (Sum.map id (Verdict.moved k))]
          rfl

/-- The verdict at the end of the text. -/
theorem atEnd_moved (operand comment : Bool) (place : Place) :
    atEnd operand comment (c.moved k) place = (atEnd operand comment c place).moved k := by
  cases place with
  | sameLine => rfl
  | comments within newline => cases within <;> simp only [atEnd, apply_ite (Verdict.moved k)] <;> rfl
  | beyond within => cases within <;> rfl

/-- The search from any place. The induction is on the text, with the place and the offset free. -/
theorem seekFrom_moved (operand comment : Bool) (place : Place) (o : Nat) (text : List Char) :
    seekFrom operand comment place (k + o) text = (seekFrom operand comment place o text).moved k := by
  induction text generalizing comment place o with
  | nil => exact atEnd_moved (c := ⟨o, []⟩) operand comment place
  | cons x rest ih =>
      have hchar : onChar operand comment ⟨k + o, x :: rest⟩ x place = _ :=
        onChar_moved (k := k) (c := ⟨o, x :: rest⟩) operand comment x place
      rw [seekFrom, seekFrom, Nat.add_assoc, hchar]
      cases onChar operand comment ⟨o, x :: rest⟩ x place with
      | inr verdict => rfl
      | inl p => exact ih p.1 p.2 _

@[simp] theorem seek_moved (operand : Bool) : seek operand (c.moved k) = (seek operand c).moved k :=
  seekFrom_moved operand false .sameLine c.offset c.rest

end Semicolon

/-! ## Gaps

A gap is found by rounds, in each of which a comment is consumed. In between, `Gap.first?` says whether
the gap ends before its ordinary blanks and comments are skipped.
-/

namespace Gap

/-- The gap on the same text with `k` more bytes in front of it. -/
def moved (k : Nat) : Gap → Gap
  | semicolon c => semicolon (c.moved k)
  | token c conditional => token (c.moved k) conditional

@[simp] theorem cursor_moved (gap : Gap) : (gap.moved k).cursor = gap.cursor.moved k := by
  cases gap <;> rfl

@[simp] theorem opensConditional_moved : opensConditional (c.moved k) = opensConditional c := rfl

/-- What is found before ordinary blanks and comments are skipped. -/
theorem first?_moved (follow : Follow) :
    first? follow (c.moved k) = (first? follow c).map (Sum.map (Cursor.moved k) (moved k)) := by
  simp only [first?, Semicolon.seek_moved, skipWhile_moved, opensConditional_moved,
    Token.markupComment?_moved]
  split
  · cases Semicolon.seek (!follow.operator) c with
    | ends => rfl
    | goesOn comment stopped =>
        simp only [Semicolon.Verdict.moved, opensConditional_moved, apply_ite (Option.map _)]
        rfl
  · split
    · simp only [apply_ite (Option.map _)]
      rfl
    · cases Token.markupComment? c <;> rfl

/-- A comment is never empty. -/
theorem lt_of_first? {follow : Follow} {d : Cursor} (h : first? follow c = some (.inl d)) : c < d := by
  simp only [first?] at h
  split at h
  · split at h
    · cases h
    · split at h <;> cases h
  · split at h
    · split at h <;> cases h
    · obtain ⟨⟨a, b⟩, hcomment, heq⟩ := Option.map_eq_some_iff.mp h
      cases heq
      obtain ⟨hstart, hstop⟩ := Token.le_of_markupComment? hcomment
      exact hstart.trans_lt hstop

/-- What is marked as the beginning of a conditional begins one. -/
theorem conditional_of_first? {follow : Follow} {d : Cursor}
    (h : first? follow c = some (.inr (.token d true))) :
    opensConditional d = true := by
  simp only [first?] at h
  split at h
  · split at h
    · cases h
    · split at h
      · next hopens =>
          cases h
          exact (Bool.and_eq_true_iff.mp hopens).2
      · cases h
  · split at h
    · split at h
      · next hopens =>
          cases h
          exact hopens
      · cases h
    · obtain ⟨_, -, heq⟩ := Option.map_eq_some_iff.mp h
      cases heq

/-- The mark of a conditional is a question mark. -/
theorem nextIs_of_find {follow : Follow} {n : Nat} {d : Cursor} (h : find follow n c = .token d true) :
    d.nextIs (· == '?') = true := by
  -- The mark is made in the first step of some round.
  have hopens : opensConditional d = true := by
    induction n generalizing c with
    | zero => cases h
    | succ n ih =>
        simp only [find] at h
        split at h
        · next hfirst =>
            rw [h] at hfirst
            exact conditional_of_first? hfirst
        · exact ih h
        · split at h
          · exact ih h
          · cases h
  unfold opensConditional at hopens
  split at hopens
  · cases hopens
  · next hrest => simp [Cursor.nextIs, hrest]
  · cases hopens
  · next hrest => simp [Cursor.nextIs, hrest]
  · cases hopens

/-- The bound on the comments in a gap does not matter if it is greater than the number of characters. -/
theorem find_moved (follow : Follow) {n n' : Nat} (h : c.rest.length < n) (h' : c.rest.length < n') :
    find follow n' (c.moved k) = (find follow n c).moved k := by
  induction n generalizing c n' with
  | zero => cases h
  | succ n ih =>
      cases n' with
      | zero => cases h'
      | succ n' =>
          simp only [find, first?_moved, skipWhile_moved, Token.comment?_moved]
          cases hfirst : first? follow c with
          | none =>
              cases hcomment : Token.comment? (c.skipWhile isBlank) with
              | none => rfl
              | some e =>
                  have hshort := length_lt ((le_skipWhile isBlank c).trans_lt (Token.lt_of_comment? hcomment))
                  exact ih (by omega) (by omega)
          | some found =>
              cases found with
              | inr gap => rfl
              | inl d =>
                  have hshort := length_lt (lt_of_first? hfirst)
                  exact ih (by omega) (by omega)

end Gap

end WasmEmbed.Script
