import WasmEmbed.Script.Gap
import WasmEmbed.Script.Outline
import WasmEmbed.Script.Shape

/-!
# Reading constructs inside constructs

A statement holds expressions, an expression may hold functions, and these hold statements again. The
rules are therefore written with the readers for what they contain as a parameter: `Nested` is the
record of those readers. Every rule is an ordinary function of it, so each can be reasoned about on
its own; the recursion is closed in one place, by induction on the depth of nesting.

`Nested.depth` bounds the repetitions inside one construct as well. It is never less than the number
of characters left to read.
-/

namespace WasmEmbed.Script

/-- What surrounds an expression: whether the statement may end behind it, and whether the word `in`
is an operator at its outermost level. -/
structure Mode where
  ending : Bool
  inOperator : Bool
  deriving Repr, DecidableEq

namespace Mode

/-- Inside brackets. -/
def inner : Mode := ⟨false, true⟩

/-- At the end of a statement. -/
def outer : Mode := ⟨true, true⟩

/-- The mode of an operand further to the right. -/
def right (m : Mode) : Mode := ⟨m.ending, true⟩

/-- What may come behind a value. -/
def follow (m : Mode) : Follow := .value m.ending

end Mode

/-- A statement that was read. `unclosed` says that an unwritten semicolon was sought behind it and
not found, so that the next token must follow as it would inside a statement. -/
structure Closing where
  statement : Statement
  unclosed : Bool
  deriving Repr, DecidableEq

/-- The readers for what a construct contains. -/
structure Nested where
  /-- A bound on repetitions. -/
  depth : Nat
  /-- An expression without commas whose operators bind at least as strongly as a level. -/
  expression : Mode → Nat → Reader Shape
  /-- An operand of an expression. -/
  operand : Mode → Reader Shape
  /-- An element of markup. -/
  element : Reader Unit
  /-- A statement. -/
  statement : Reader Closing

namespace Nested

/-- The gap in front of the next token; the cursor stays behind the last one. -/
def look (n : Nested) (follow : Follow) : Reader Gap :=
  fun c => some (Gap.find follow n.depth c, c)

/-- Moves to the next token. -/
def toToken (n : Nested) (follow : Follow) : Reader Unit :=
  Reader.move fun c =>
    match Gap.find follow n.depth c with
    | .token d false => some d
    | _ => none

/-- Moves to the next token where neither an operator nor the end of the statement may come. -/
def toPlain (n : Nested) : Reader Unit := n.toToken .plain

/-- Reads the next token, which is made of the characters of `text`. -/
def symbol (n : Nested) (follow : Follow) (text : String) : Reader Unit := do
  n.toToken follow
  Reader.exactly text

/-- The name at `c` with the cursor behind it. -/
def nameAt? (n : Nested) (c : Cursor) : Option (List Char × Cursor) :=
  (Token.name? n.depth c).map fun d => (c.textUpTo d, d)

/-- The letters of the name at `c`, or nothing. -/
def wordAt (n : Nested) (c : Cursor) : String :=
  match n.nameAt? c with
  | some (w, _) => String.ofList w
  | none => ""

/-- Reads a name, which may be a word with a meaning of its own. -/
def anyName (n : Nested) : Reader (List Char) := fun c => n.nameAt? c

/-- Reads the word `text`. -/
def word (n : Nested) (text : String) : Reader Unit := do
  let w ← n.anyName
  Reader.require (w == text.toList)

/-- Reads the end of a statement, written or not. `operator` says whether the statement could also go
on with an operator. -/
def terminator (n : Nested) (operator : Bool) : Reader Unit := do
  match ← n.look ⟨true, operator⟩ with
  | .semicolon c => set c
  | .token c false => set c; Reader.exactly ";"
  | .token _ true => Reader.refuse

/-- An expression that has a value. -/
def valueOf (n : Nested) (m : Mode) (floor : Nat) : Reader Unit := do
  let s ← n.expression m floor
  Reader.require s.isValue

/-- One or more expressions with commas between them. -/
def expressions (n : Nested) (m : Mode) : Reader Unit :=
  do
    valueOf n m 0
    more n.depth
where
  /-- A comma with what follows it, at most `k` times. -/
  more : Nat → Reader Unit
    | 0 => pure ()
    | k + 1 => do
      match ← n.look m.follow with
      | .token c false =>
        if c.nextIs (· == ',') then
          set c.step
          valueOf n m 0
          more k
        else pure ()
      | _ => pure ()

/-- Expressions in parentheses, from the opening one. -/
def parenthesized (n : Nested) : Reader Unit := do
  n.symbol .plain "("
  n.expressions .inner
  n.symbol (.value false) ")"

end Nested

/-- The words that name nothing. -/
def reservedWords : List String :=
  ["break", "case", "catch", "class", "const", "continue", "debugger", "default", "delete", "do",
    "else", "export", "extends", "false", "finally", "for", "function", "if", "import", "in",
    "instanceof", "new", "null", "return", "super", "switch", "this", "throw", "true", "try",
    "typeof", "var", "void", "while", "with"]

/-- Whether a word names nothing. -/
def isReserved (w : List Char) : Bool := reservedWords.contains (String.ofList w)

namespace Nested

/-- Reads a name that is not reserved. -/
def freeName (n : Nested) : Reader (List Char) := do
  let w ← n.anyName
  Reader.require (!isReserved w)
  pure w

end Nested

end WasmEmbed.Script
