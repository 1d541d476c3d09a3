import WasmEmbed.Proofs.Script.Token

/-!
# Tokens further back in a file

`c.moved k` is the cursor on the same text with `k` more bytes in front of it. The reading functions look at
the text alone, so they find the same tokens there, each moved by `k` bytes. Some of them have a bound on
their repetitions. The bound makes no difference if there are at least as many repetitions as characters.

Of a definition by recursion on the text this is shown by induction on the text, with the offset free, and
of one with a bound by induction on the bound, with the other bound free. The rest are compositions of
such functions, and the equations are simp lemmas for them.
-/

namespace WasmEmbed.Script

variable {k : Nat}

/-! ## Cursors

A cursor is an offset and the rest of the text. Moving it changes the offset alone, and every step adds to
the offset what it added before.
-/

namespace Cursor

/-- The cursor on the same text with `k` more bytes in front of it. -/
def moved (k : Nat) (c : Cursor) : Cursor := ⟨k + c.offset, c.rest⟩

variable {c : Cursor}

@[simp] theorem rest_moved : (c.moved k).rest = c.rest := rfl

@[simp] theorem offset_moved : (c.moved k).offset = k + c.offset := rfl

@[simp] theorem nextIs_moved (p : Char → Bool) : (c.moved k).nextIs p = c.nextIs p := rfl

@[simp] theorem step_moved : (c.moved k).step = c.step.moved k := by
  obtain ⟨o, _ | ⟨x, rest⟩⟩ := c
  · rfl
  · exact congrArg (Cursor.mk · rest) (Nat.add_assoc k o _)

@[simp] theorem skip_moved (n : Nat) : (c.moved k).skip n = (c.skip n).moved k := by
  induction n generalizing c with
  | zero => rfl
  | succ n ih => rw [skip, skip, step_moved, ih]

theorem skipWhile_go_moved (p : Char → Bool) (o : Nat) (text : List Char) :
    skipWhile.go p (k + o) text = (skipWhile.go p o text).moved k := by
  induction text generalizing o with
  | nil => rfl
  | cons x rest ih =>
      rw [skipWhile.go, skipWhile.go, Nat.add_assoc, ih, apply_ite (moved k)]
      rfl

@[simp] theorem skipWhile_moved (p : Char → Bool) : (c.moved k).skipWhile p = (c.skipWhile p).moved k :=
  skipWhile_go_moved p c.offset c.rest

@[simp] theorem dropWord?_moved (word : List Char) :
    (c.moved k).dropWord? word = (c.dropWord? word).map (moved k) := by
  induction word generalizing c with
  | nil => rfl
  | cons w word ih =>
      obtain ⟨o, _ | ⟨x, rest⟩⟩ := c
      · rfl
      · show (if w = x then dropWord? word ⟨k + o + x.utf8Size, rest⟩ else none) =
          (if w = x then dropWord? word ⟨o + x.utf8Size, rest⟩ else none).map (moved k)
        rw [Nat.add_assoc, apply_ite (Option.map (moved k)), ← ih]
        rfl

@[simp] theorem textUpTo_moved {d : Cursor} : (c.moved k).textUpTo (d.moved k) = c.textUpTo d := by
  obtain ⟨o, rest⟩ := c
  show textUpTo.go (d.moved k) (k + o) rest = textUpTo.go d o rest
  induction rest generalizing o with
  | nil => rfl
  | cons x rest ih =>
      rw [textUpTo.go, textUpTo.go, Nat.add_assoc, ih, offset_moved]
      simp only [Nat.add_lt_add_iff_left]

/-- A cursor that is reached from another one has no more characters left. -/
theorem length_le {d : Cursor} (h : c ≤ d) : d.rest.length ≤ c.rest.length := by
  obtain ⟨front, hfront, -⟩ := h
  rw [hfront, List.length_append]
  omega

/-- Behind at least one character fewer are left. -/
theorem length_lt {d : Cursor} (h : c < d) : d.rest.length < c.rest.length := by
  obtain ⟨front, hfront, hoffset⟩ := h.le
  have hne : front ≠ [] := by
    rintro rfl
    exact absurd hoffset (Nat.ne_of_gt (offset_lt h))
  rw [hfront, List.length_append]
  have := List.length_pos_iff.mpr hne
  omega

/-- The step over a character that is there leaves one character fewer. -/
theorem length_step_lt {p : Char → Bool} (h : c.nextIs p = true) : c.step.rest.length < c.rest.length := by
  obtain ⟨o, _ | ⟨x, rest⟩⟩ := c
  · cases h
  · exact Nat.lt_succ_self rest.length

end Cursor

open Cursor

namespace Token

variable {c : Cursor}

/-! ## Comments

A comment ends with its line or behind a star and a slash, and both are properties of the text.
-/

/-- The end of a comment between stars. Whether the last character was a star is part of the induction. -/
theorem blockCommentEnd?_moved (star : Bool) (o : Nat) (text : List Char) :
    blockCommentEnd? star (k + o) text = (blockCommentEnd? star o text).map (moved k) := by
  induction text generalizing star o with
  | nil => rfl
  | cons x rest ih =>
      simp only [blockCommentEnd?, Nat.add_assoc k, ih, apply_ite (Option.map (moved k))]
      rfl

@[simp] theorem comment?_moved : comment? (c.moved k) = (comment? c).map (moved k) := by
  obtain ⟨o, rest⟩ := c
  simp only [comment?, rest_moved, skip_moved, skipWhile_moved, offset_moved]
  split
  · rfl
  · exact blockCommentEnd?_moved false (o + 2) _
  · rfl

@[simp] theorem markupComment?_moved :
    markupComment? (c.moved k) = (markupComment? c).map (Prod.map (moved k) (moved k)) := by
  simp only [markupComment?, skipWhile_moved, dropWord?_moved]
  cases (c.skipWhile isMargin).dropWord? "<!--".toList with
  | some d => simp
  | none =>
      cases (c.skipWhile isMargin).dropWord? "-->".toList with
      | some d => simp
      | none => rfl

/-! ## Names

A name is a run of letters and escapes. The bound on the number of its pieces is the first bound here, and
every other one is treated in the same way: at no characters left both sides have stopped, and each piece
takes a character.
-/

@[simp] theorem nameEscape?_moved : nameEscape? (c.moved k) = (nameEscape? c).map (moved k) := by
  simp only [nameEscape?, dropWord?_moved]
  cases c.dropWord? ['\\', 'u'] with
  | none => rfl
  | some d =>
      simp only [Option.map_some, rest_moved, step_moved, skipWhile_moved, dropWord?_moved, skip_moved]
      split
      · rw [apply_ite (Option.map (moved k))]
        rfl
      · rw [apply_ite (Option.map (moved k))]
        rfl
      · rfl

/-- The bound on the pieces of a name does not matter if it is not less than the number of characters. -/
theorem nameEnd_moved {n n' : Nat} (h : c.rest.length ≤ n) (h' : c.rest.length ≤ n') :
    nameEnd n' (c.moved k) = (nameEnd n c).moved k := by
  -- At the end of the text the bound plays no role.
  have hend : ∀ (n : Nat) (c : Cursor), c.rest.length ≤ 0 → nameEnd n c = c := by
    rintro n ⟨o, _ | ⟨x, rest⟩⟩ hc
    · cases n <;> rfl
    · cases hc
  induction n generalizing c n' with
  | zero => rw [hend n' (c.moved k) h, hend 0 c h]
  | succ n ih =>
      cases n' with
      | zero => rw [hend 0 (c.moved k) h', hend (n + 1) c h']
      | succ n' =>
          simp only [nameEnd, skipWhile_moved, nameEscape?_moved]
          cases hescape : nameEscape? (c.skipWhile isWordPart) with
          | none => rfl
          | some d =>
              -- The escape took a character, so both bounds suffice behind it.
              have hshort := length_lt ((le_skipWhile isWordPart c).trans_lt (lt_of_nameEscape? hescape))
              exact ih (by omega) (by omega)

/-- A name begins with a letter or an escape. -/
theorem name?_moved {n n' : Nat} (h : c.rest.length ≤ n) (h' : c.rest.length ≤ n') :
    name? n' (c.moved k) = (name? n c).map (moved k) := by
  simp only [name?, nextIs_moved, nameEscape?_moved]
  split
  · exact congrArg some (nameEnd_moved (by omega) (by omega))
  · cases hescape : nameEscape? c with
    | none => rfl
    | some d =>
        have hshort := length_lt (lt_of_nameEscape? hescape)
        exact congrArg some (nameEnd_moved (by omega) (by omega))

/-! ## Numbers

An underscore is read together with the digit behind it. The fraction and the exponent are looked for
behind the digits.
-/

/-- The end of a run of digits, by cases on what stands behind the next one. -/
theorem digitsEnd_moved (isDigit : Char → Bool) (o : Nat) (text : List Char) :
    digitsEnd isDigit (k + o) text = (digitsEnd isDigit o text).moved k := by
  fun_induction digitsEnd isDigit o text with
  | case1 o y rest hy ih => rw [digitsEnd, if_pos hy, ← ih, Nat.add_assoc k, Nat.add_assoc k]
  | case2 o y rest hy => rw [digitsEnd, if_neg hy]; rfl
  | case3 o x rest hline hx ih => rw [digitsEnd, if_pos hx, ← ih, Nat.add_assoc k]; exact hline
  | case4 o x rest hline hx => rw [digitsEnd, if_neg hx]; rfl; exact hline
  | case5 => rfl

@[simp] theorem digits?_moved (isDigit : Char → Bool) :
    digits? isDigit (c.moved k) = (digits? isDigit c).map (moved k) := by
  simp only [digits?, nextIs_moved, rest_moved, offset_moved, digitsEnd_moved,
    apply_ite (Option.map (moved k))]
  rfl

@[simp] theorem exponent?_moved : exponent? (c.moved k) = (exponent? c).map (moved k) := by
  simp only [exponent?, nextIs_moved, step_moved, apply_ite (Option.map (moved k)), ← apply_ite (moved k),
    digits?_moved]
  rfl

@[simp] theorem skipExponent_moved : skipExponent (c.moved k) = (skipExponent c).moved k := by
  simp only [skipExponent, exponent?_moved]
  cases exponent? c <;> rfl

@[simp] theorem based?_moved : based? (c.moved k) = (based? c).map (moved k) := by
  -- The bases differ in their digits alone.
  have hbehind : ∀ isDigit, ((digits? isDigit ((c.moved k).skip 2)).map fun d =>
      if d.nextIs (· == 'n') then d.step else d) =
      ((digits? isDigit (c.skip 2)).map fun d => if d.nextIs (· == 'n') then d.step else d).map
        (moved k) := by
    intro isDigit
    rw [skip_moved, digits?_moved]
    cases digits? isDigit (c.skip 2) with
    | none => rfl
    | some d => simp only [Option.map_some, nextIs_moved, step_moved, apply_ite (moved k)]
  simp only [based?, rest_moved, hbehind]
  split
  · simp only [apply_ite (Option.map (moved k)), Option.map_none]
  · rfl

@[simp] theorem decimal?_moved : decimal? (c.moved k) = (decimal? c).map (moved k) := by
  simp only [decimal?, rest_moved, step_moved, digits?_moved]
  split
  · cases digits? Char.isDigit c.step with
    | none => rfl
    | some d => exact congrArg some skipExponent_moved
  · cases digits? Char.isDigit c with
    | none => rfl
    | some d =>
        -- The digits behind the point may be missing.
        have hfraction : ((digits? Char.isDigit d.step).map (moved k)).getD (d.step.moved k) =
            ((digits? Char.isDigit d.step).getD d.step).moved k := by
          cases digits? Char.isDigit d.step <;> rfl
        simp only [Option.map_some, nextIs_moved, step_moved, digits?_moved, hfraction, skipExponent_moved,
          apply_ite (Option.map (moved k))]

@[simp] theorem number?_moved : number? (c.moved k) = (number? c).map (moved k) := by
  simp only [number?, based?_moved, decimal?_moved]
  cases based? c <;> rfl

/-! ## Strings

An escape takes as many characters as what follows the backslash says. A line end may only stand in front
of the closing quote or of a comment.
-/

@[simp] theorem escape?_moved : escape? (c.moved k) = (escape? c).map (moved k) := by
  simp only [escape?, rest_moved, skip_moved, step_moved, nextIs_moved, nameEscape?_moved]
  split
  · next x rest =>
      -- What follows the backslash decides how much belongs to it.
      simp only [apply_ite (Option.map (moved k)), Option.map_none, Option.map_some, apply_ite (moved k)]
      split
      · split
        · simp only [apply_ite (Option.map (moved k)), Option.map_some, Option.map_none]
        · rfl
      · split
        · rfl
        · split
          · split
            · simp only [apply_ite (Option.map (moved k)), Option.map_some, apply_ite (moved k)]
            · simp only [Option.map_some, apply_ite (moved k)]
            · rfl
          · rfl
  · rfl

/-- The end of a string behind its quote. As with names, the two bounds may differ if both are large
enough. -/
theorem stringEnd?_moved {quote : Char} {n n' : Nat} (h : c.rest.length ≤ n) (h' : c.rest.length ≤ n') :
    stringEnd? quote n' (c.moved k) = (stringEnd? quote n c).map (moved k) := by
  have hend : ∀ (n : Nat) (c : Cursor), c.rest.length ≤ 0 → stringEnd? quote n c = none := by
    rintro n ⟨o, _ | ⟨x, rest⟩⟩ hc
    · cases n <;> rfl
    · cases hc
  induction n generalizing c n' with
  | zero => rw [hend n' (c.moved k) h, hend 0 c h, Option.map_none]
  | succ n ih =>
      cases n' with
      | zero => rw [hend 0 (c.moved k) h', hend (n + 1) c h', Option.map_none]
      | succ n' =>
          simp only [stringEnd?, nextIs_moved, skipWhile_moved, step_moved, escape?_moved, comment?_moved]
          split
          · next hplain =>
              -- A run of plain characters, an escape and a comment each take a character.
              have hshort := length_lt (lt_skipWhile hplain)
              exact ih (by omega) (by omega)
          · split
            · rfl
            · split
              · cases hescape : escape? c with
                | none => rfl
                | some d =>
                    have hshort := length_lt (lt_of_escape? hescape)
                    exact ih (by omega) (by omega)
              · split
                · rfl
                · cases hcomment : comment? (c.skipWhile isBlank) with
                  | none => rfl
                  | some d =>
                      have hshort := length_lt ((le_skipWhile isBlank c).trans_lt (lt_of_comment? hcomment))
                      exact ih (by omega) (by omega)

/-- A string, whichever of the two quotes it has. -/
theorem string?_moved {n n' : Nat} (h : c.rest.length ≤ n) (h' : c.rest.length ≤ n') :
    string? n' (c.moved k) = (string? n c).map (moved k) := by
  have hstep : c.step.rest.length ≤ c.rest.length := length_le (le_step c)
  simp only [string?, rest_moved, step_moved]
  split
  · exact stringEnd?_moved (by omega) (by omega)
  · exact stringEnd?_moved (by omega) (by omega)
  · rfl

/-! ## Regular expressions

A pattern ends at a slash that is neither in a class nor escaped. Its flags are letters, and a comment may
stand in front of them.
-/

/-- The end of the pattern. Whether a class is open and whether the character is escaped are part of the
induction. -/
theorem patternEnd?_moved (inClass escaped : Bool) (o : Nat) (text : List Char) :
    patternEnd? inClass escaped (k + o) text = (patternEnd? inClass escaped o text).map (moved k) := by
  induction text generalizing inClass escaped o with
  | nil => rfl
  | cons x rest ih =>
      simp only [patternEnd?, Nat.add_assoc k, ih, apply_ite (Option.map (moved k))]
      rfl

@[simp] theorem skipFlags_moved : skipFlags (c.moved k) = (skipFlags c).moved k := by
  simp only [skipFlags, skipWhile_moved, comment?_moved]
  cases comment? (c.skipWhile fun x => isBlank x && !endsLine x) with
  | none => rfl
  | some d => simp only [Option.map_some, nextIs_moved, skipWhile_moved, apply_ite (moved k)]

@[simp] theorem regex?_moved : regex? (c.moved k) = (regex? c).map (moved k) := by
  simp only [regex?, rest_moved]
  split
  · rfl
  · next rest _ _ =>
      rw [offset_moved, Nat.add_assoc, patternEnd?_moved]
      cases patternEnd? false false (c.offset + 1) rest with
      | none => rfl
      | some d => exact congrArg some skipFlags_moved
  · rfl

end Token

end WasmEmbed.Script
