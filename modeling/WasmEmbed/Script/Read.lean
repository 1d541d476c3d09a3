import WasmEmbed.Script.Statement

/-!
# Reading a whole script

The rules for statements and expressions are closed here by induction on the depth of nesting, and a
script is read as a list of statements up to its end. `Outline.read?` answers nothing for a text that
is no script.
-/

namespace WasmEmbed.Script

mutual

/-- Expressions nested at most so deep. -/
def readExpression : Nat → Mode → Nat → Reader Shape
  | 0, _, _ => Reader.refuse
  | k + 1, m, floor =>
    Nested.expressionAt ⟨k, readExpression k, readOperand k, readElement k, readStatement k⟩ m floor

/-- Operands nested at most so deep. -/
def readOperand : Nat → Mode → Reader Shape
  | 0, _ => Reader.refuse
  | k + 1, m =>
    Nested.operandAt ⟨k, readExpression k, readOperand k, readElement k, readStatement k⟩ m

/-- Elements of markup nested at most so deep. -/
def readElement : Nat → Reader Unit
  | 0 => Reader.refuse
  | k + 1 => Nested.markup ⟨k, readExpression k, readOperand k, readElement k, readStatement k⟩

/-- Statements nested at most so deep. -/
def readStatement : Nat → Reader Closing
  | 0 => Reader.refuse
  | k + 1 =>
    Nested.statementAt ⟨k, readExpression k, readOperand k, readElement k, readStatement k⟩

end

/-- The readers for constructs nested at most so deep. -/
def Nested.ofDepth (k : Nat) : Nested :=
  ⟨k, readExpression k, readOperand k, readElement k, readStatement k⟩

namespace Outline

/-- Moves over the line that names an interpreter, if there is one before the first statement. -/
def skipInterpreter (n : Nested) (c : Cursor) : Cursor :=
  match Gap.find .plain n.depth c with
  | .token d _ =>
    match d.dropWord? "#!".toList with
    | some e => e.skipWhile fun x => !(x == '\n' || x == '\x00')
    | none => c
  | .semicolon _ => c

/-- Moves over a byte order mark. -/
def skipMark (c : Cursor) : Cursor := if c.nextIs (· == '\ufeff') then c.step else c

/-- A whole script. A byte order mark in front is no part of it, but counts in the offsets. -/
def reader (n : Nested) : Reader Outline := do
  let c ← get
  set (skipInterpreter n (skipMark c))
  let statements ← n.statements fun c => c.rest.isEmpty
  pure ⟨statements⟩

/-- The outline of a script, or nothing if the text is no script. -/
def read? (text : List Char) : Option Outline :=
  ((reader (.ofDepth (2 * text.length + 8))) (.ofText text)).map Prod.fst

end Outline

end WasmEmbed.Script
