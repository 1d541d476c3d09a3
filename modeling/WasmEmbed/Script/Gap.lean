import WasmEmbed.Script.Semicolon
import WasmEmbed.Script.Token

/-!
# The gap in front of a token

Blanks and comments may stand between any two tokens, but what counts as a comment, and whether the
gap hides the end of a statement, depends on what may come next (`Follow`):

* where a statement may end, `Semicolon.seek` is asked first, and again behind each comment;
* where an operator may come, `?` opens a conditional unless it belongs to `??` or `?.`;
* where neither may come, an HTML-like comment is skipped as well.

`Gap.find` answers either the place of an unwritten semicolon or the cursor in front of the next
token. At the end of the text that cursor has nothing left to read.
-/

namespace WasmEmbed.Script

/-- What may come next: the end of the statement, an operator. -/
structure Follow where
  ending : Bool
  operator : Bool
  deriving Repr, DecidableEq

namespace Follow

/-- A place where neither an operator nor the end of a statement may come. -/
def plain : Follow := ⟨false, false⟩

/-- A place where a statement may end but no operator may come. -/
def ends : Follow := ⟨true, false⟩

/-- A place behind a value; `ending` says whether the statement may end there. -/
def value (ending : Bool) : Follow := ⟨ending, true⟩

end Follow

/-- What a gap leads to. `conditional` marks the question mark of a conditional expression. -/
inductive Gap where
  | semicolon (c : Cursor)
  | token (c : Cursor) (conditional : Bool)
  deriving Repr, DecidableEq

namespace Gap

/-- Whether the question mark at `c` opens a conditional: it is not followed by another one, and by a
point only if that begins a number. -/
def opensConditional (c : Cursor) : Bool :=
  match c.rest with
  | '?' :: '?' :: _ => false
  | '?' :: '.' :: x :: _ => x.isDigit
  | ['?', '.'] => false
  | '?' :: _ => true
  | _ => false

/-- What is found at `c` before ordinary blanks and comments are skipped: a semicolon, the question
mark of a conditional, or an HTML-like comment, behind which the gap goes on. -/
def first? (follow : Follow) (c : Cursor) : Option (Cursor ⊕ Gap) :=
  if follow.ending then
    match Semicolon.seek (!follow.operator) c with
    | .ends => some (.inr (.semicolon c))
    | .goesOn comment stopped =>
      if follow.operator && !comment && opensConditional stopped then
        some (.inr (.token stopped true))
      else none
  else if follow.operator then
    let d := c.skipWhile isMargin
    if opensConditional d then some (.inr (.token d true)) else none
  else (Token.markupComment? c).map fun p => .inl p.2

/-- The gap at `c`, which may hold at most `n` comments. -/
def find (follow : Follow) : Nat → Cursor → Gap
  | 0, c => .token c false
  | n + 1, c =>
    match first? follow c with
    | some (.inr gap) => gap
    | some (.inl d) => find follow n d
    | none =>
      let d := c.skipWhile isBlank
      match Token.comment? d with
      | some e => find follow n e
      | none => .token d false

end Gap

end WasmEmbed.Script
