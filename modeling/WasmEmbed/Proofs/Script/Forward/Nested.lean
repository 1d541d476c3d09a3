import WasmEmbed.Proofs.Script.Reader
import WasmEmbed.Script.Block

/-!
# Rules that go forward

If the readers for what a construct contains go forward (`Nested.Forward`), so do the rules that are
written with them. There is one lemma for each rule, in the order of the rules: here those of gaps and
words, and of lists of statements and of expressions.

A rule is a chain of readers, and its lemma is the same chain of rules for `After`. Loops go by induction
on the bound on the number of rounds.
-/

namespace WasmEmbed.Script

open Reader

/-- The readers for what a construct contains go forward, and an element takes at least one character. -/
structure Nested.Forward (n : Nested) : Prop where
  expression : ∀ m floor, (n.expression m floor).Forward
  operand : ∀ m, (n.operand m).Forward
  element : n.element.Strict
  statement : n.statement.Forward

namespace Nested

variable {n : Nested}

/-! ## Gaps and words

A gap is looked at from behind the last token, and its cursor is not in front of that. A word takes at
least one character, so whatever begins with a word is strict.
-/

section Rules

variable {α : Type} {b c : Cursor} {Q : α → Cursor → Prop}

/-- The rule for a look at the gap behind `c`. -/
theorem after_look {follow : Follow} {f : Gap → Reader α}
    (h : ∀ gap : Gap, c ≤ gap.cursor → After b Q c (f gap)) :
    After b Q c (n.look follow >>= f) := h _ (Gap.le_find _ _ _)

end Rules

/-- The next token is behind the gap. -/
theorem forward_toToken (follow : Follow) : (n.toToken follow).Forward := by
  refine forward_move ?_
  intro c d h
  have hfind := Gap.le_find follow n.depth c
  split at h
  · next hgap =>
      cases h
      rwa [hgap] at hfind
  · cases h

theorem forward_toPlain : n.toPlain.Forward := forward_toToken .plain

/-- A symbol is read behind the gap in front of it. -/
theorem forward_symbol (follow : Follow) (text : String) : (n.symbol follow text).Forward := by
  intro c
  unfold symbol
  exact .bind (forward_toToken _) fun _ _ => .last (forward_exactly text)

/-- A name takes at least one character, and its text is what was moved over. -/
theorem nameAt?_eq_some {c d : Cursor} {w : List Char} (h : n.nameAt? c = some (w, d)) :
    c < d ∧ w = c.textUpTo d := by
  obtain ⟨e, he, heq⟩ := Option.map_eq_some_iff.mp h
  obtain ⟨rfl, rfl⟩ := Prod.mk.inj heq
  exact ⟨Token.lt_of_name? he, rfl⟩

/-- What follows a name follows its text. -/
theorem rest_of_nameAt? {c d : Cursor} {w : List Char} (h : n.nameAt? c = some (w, d)) :
    c.rest = w ++ d.rest := by
  obtain ⟨hlt, rfl⟩ := nameAt?_eq_some h
  obtain ⟨front, hrest, hoffset⟩ := hlt.le
  rw [Cursor.textUpTo_eq hrest hoffset]
  exact hrest

theorem lt_of_nameAt? {c d : Cursor} {w : List Char} (h : n.nameAt? c = some (w, d)) : c < d :=
  (nameAt?_eq_some h).1

theorem strict_anyName : n.anyName.Strict := fun _ _ _ _ h => lt_of_nameAt? h

theorem forward_anyName : n.anyName.Forward := strict_anyName.forward

theorem strict_word (text : String) : (n.word text).Strict := by
  intro c
  unfold word
  exact .bind_strict strict_anyName fun _ => forward_require _

theorem forward_word (text : String) : (n.word text).Forward := (strict_word text).forward

theorem strict_freeName : n.freeName.Strict := by
  intro c
  unfold freeName
  exact .bind_strict strict_anyName fun _ _ => .require fun _ => .pure id

theorem forward_freeName : n.freeName.Forward := strict_freeName.forward

/-- The end of a statement is a semicolon, written or not. -/
theorem forward_terminator (operator : Bool) : (n.terminator operator).Forward := by
  intro c
  unfold terminator
  refine after_look fun gap hgap => ?_
  split
  · exact .ahead_last hgap
  · exact .ahead hgap (.last (forward_exactly ";"))
  · exact .refuse

theorem forward_valueOf (hn : n.Forward) (m : Mode) (floor : Nat) : (n.valueOf m floor).Forward := by
  intro c
  unfold valueOf
  exact .bind (hn.expression m floor) fun _ _ => .last (forward_require _)

/-- The expressions behind the first one of a list, by induction on the bound on their number. -/
theorem forward_expressionsMore (hn : n.Forward) (m : Mode) (k : Nat) :
    (expressions.more n m k).Forward := by
  induction k with
  | zero => exact forward_pure ()
  | succ k ih =>
      intro c
      unfold expressions.more
      refine after_look fun gap hgap => ?_
      split
      · split
        · refine .ahead (hgap.trans (Cursor.le_step _)) ?_
          exact .bind (forward_valueOf hn m 0) fun _ _ => .last ih
        · exact .pure id
      · exact .pure id

theorem forward_expressions (hn : n.Forward) (m : Mode) : (n.expressions m).Forward := by
  intro c
  unfold expressions
  exact .bind (forward_valueOf hn m 0) fun _ _ => .last (forward_expressionsMore hn m n.depth)

theorem forward_parenthesized (hn : n.Forward) : n.parenthesized.Forward := by
  intro c
  unfold parenthesized
  refine .bind (forward_symbol _ _) fun _ _ => ?_
  exact .bind (forward_expressions hn _) fun _ _ => .last (forward_symbol _ _)

/-! ## Lists of statements

The comments in front of a statement are read with it. A list of statements asks for the end of the list
in front of each statement, and the bound on their number is the bound of the readers.
-/

/-- The blanks and comments in front of a statement, by induction on the bound on the comments. -/
theorem forward_toStatement (unclosed : Bool) : (n.toStatement unclosed).Forward := by
  unfold toStatement
  induction n.depth with
  | zero => exact forward_pure []
  | succ k ih =>
      intro c
      unfold toStatement.go
      refine .get ?_
      split
      · next start stop hcomment =>
          -- A comment that is listed lies in front of the cursor behind it.
          have hstop : c ≤ stop := by
            split at hcomment
            · cases hcomment
            · obtain ⟨hstart, hstop⟩ := Token.le_of_markupComment? hcomment
              exact hstart.trans hstop.le
          exact .ahead hstop (.bind ih fun _ _ => .pure id)
      · have hblank := Cursor.le_skipWhile isBlank c
        dsimp only
        split
        · next e he =>
            exact .ahead (hblank.trans (Token.le_of_comment? he)) (.last ih)
        · exact .ahead hblank (.pure id)

/-- The statements of a list. The reader of the next one is an argument of the induction, because the
first statement has one of its own. -/
theorem forward_statementsFrom (hn : n.Forward) {first : Reader Closing} (hfirst : first.Forward)
    (stop : Cursor → Bool) : (n.statementsFrom first stop).Forward := by
  suffices h : ∀ k reader unclosed, Reader.Forward reader →
      (statementsFrom.go n stop k reader unclosed).Forward from h n.depth first false hfirst
  intro k
  induction k with
  | zero =>
      intro reader unclosed _ c
      exact .refuse
  | succ k ih =>
      intro reader unclosed hreader c
      unfold statementsFrom.go
      refine .bind (forward_toStatement unclosed) fun _ _ => .get ?_
      split
      · exact .pure id
      · exact .bind hreader fun s _ => .bind (ih n.statement s.unclosed hn.statement) fun _ _ => .pure id

theorem forward_statements (hn : n.Forward) (stop : Cursor → Bool) : (n.statements stop).Forward :=
  forward_statementsFrom hn hn.statement stop

/-- A block lies between its two braces. -/
theorem forward_blockFrom (hn : n.Forward) {first : Reader Closing} (hfirst : first.Forward) :
    (n.blockFrom first).Forward := by
  intro c
  unfold blockFrom
  refine .get (.bind (forward_exactly _) fun _ _ => ?_)
  refine .bind (forward_statementsFrom hn hfirst _) fun _ _ => ?_
  exact .bind (forward_exactly _) fun _ _ => .get (.pure id)

theorem forward_block (hn : n.Forward) : n.block.Forward := forward_blockFrom hn hn.statement

/-- A semicolon that is not written behind a closing brace is stepped over. -/
theorem forward_skipSemicolon (operator : Bool) : (n.skipSemicolon operator).Forward := by
  intro c
  unfold skipSemicolon
  refine after_look fun gap hgap => ?_
  split
  · exact .ahead hgap (.pure id)
  · exact .pure id

/-! ## Lists of expressions

The entries of a list are separated by commas. The reader consumes the closing bracket as well.
-/

/-- The entries up to the closing bracket, by induction on the bound on their number. -/
theorem forward_entries (hn : n.Forward) (close : Char) : (n.entries close).Forward := by
  unfold entries
  induction n.depth with
  | zero => exact fun _ => .refuse
  | succ k ih =>
      intro c
      unfold entries.go
      refine .bind forward_toPlain fun _ d => .get ?_
      split
      · exact .step (.bind ih fun _ _ => .pure id)
      · split
        · exact .step (.pure id)
        · extract_lets more
          -- Behind an entry, spread or not, stands a comma or the closing bracket.
          have hmore : ∀ entry, (more entry).Forward := by
            intro entry d
            refine .bind (forward_toToken _) fun _ e => .get ?_
            split
            · exact .step (.bind ih fun _ _ => .pure id)
            · exact .require fun _ => .step (.pure id)
          · split
            · next e he =>
                refine .ahead (Cursor.le_of_dropWord? he) ?_
                exact .bind (hn.expression _ _) fun _ _ => .last (hmore _)
            · exact .bind (hn.expression _ _) fun _ _ => .last (hmore _)

theorem forward_arguments (hn : n.Forward) : n.arguments.Forward := by
  intro c
  unfold arguments
  exact .bind (forward_entries hn _) fun _ _ => .last (forward_require _)

theorem forward_parameters (hn : n.Forward) : n.parameters.Forward := by
  intro c
  unfold parameters
  refine .bind (forward_exactly _) fun _ _ => ?_
  exact .bind (forward_entries hn _) fun _ _ => .last (forward_require _)

end Nested

end WasmEmbed.Script
