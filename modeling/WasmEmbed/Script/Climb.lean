import WasmEmbed.Script.Collection

/-!
# Operators behind an operand

`Nested.climb` reads the operators that bind at least as strongly as a floor, each with its right
operand, and leaves the others to the construct outside.
-/

namespace WasmEmbed.Script.Nested

/-- What may come behind a shape: an array or object that can only be a pattern is followed by an
assignment. -/
def followOf (m : Mode) (s : Shape) : Follow := if s.isValue then m.follow else .plain

/-- The name of a member behind a point. -/
def memberBehind (n : Nested) : Reader Unit := do
  n.toPlain
  let c ← get
  if c.nextIs (· == '#') then n.privateName
  else
    let _ ← n.anyName

/-- The rest of a member in brackets, from behind the opening one. -/
def indexBehind (n : Nested) : Reader Unit := do
  n.expressions .inner
  n.symbol (.value false) "]"

/-- What follows an operand as part of it, if the operator, which was read, begins such a thing: a
member, a call that may be skipped, or a template. -/
def access? (n : Nested) (s : Shape) : Operator → Option (Reader Shape)
  | .dot => some do
    n.memberBehind
    pure .member
  | .index => some do
    n.indexBehind
    pure .member
  | .chain => some do
    n.toPlain
    let c ← get
    if c.nextIs (· == '(') then
      Reader.require s.isPrimary
      set c.step
      n.arguments
      pure .primary
    else if c.nextIs (· == '[') then
      set c.step
      n.indexBehind
      pure .member
    else
      n.memberBehind
      pure .member
  | .template =>
    if s.isCallee then some do
      n.templateRest n.depth
      pure .primary
    else none
  | _ => none

/-- What an operator with its right operand makes of a shape, if it may follow and binds at least as
strongly as `floor`. The operator was read. -/
def extended? (n : Nested) (m : Mode) (floor : Nat) (s : Shape) : Operator → Option (Reader Shape)
  | .assign =>
    if s.isTarget then some do
      n.valueOf m.right Level.lowest
      pure (.assignment s.isPattern)
    else none
  | .update =>
    if s.isPlace then some do
      n.valueOf m.right Level.lowest
      pure .compound
    else none
  | .binary level rightward =>
    if s.isValue && floor ≤ level then some do
      n.valueOf m.right (if rightward then level else level + 1)
      pure .compound
    else none
  | .membership =>
    if s.isValue && floor ≤ Level.relation && m.inOperator then some do
      n.valueOf m.right (Level.relation + 1)
      pure .compound
    else none
  | .step => if s.isValue && floor ≤ Level.step then some (pure .compound) else none
  | .call =>
    if s.isValue then some do
      n.arguments
      pure .primary
    else none
  | op => if s.isValue then n.access? s op else none

/-- The rest of a conditional, from behind its question mark. -/
def conditionalRest (n : Nested) (m : Mode) : Reader Shape := do
  n.valueOf .inner Level.lowest
  n.symbol (.value false) ":"
  n.valueOf m.right Level.conditional
  pure .compound

/-- The operators behind an operand, at most `k` of them, that bind at least as strongly as
`floor`. -/
def climb (n : Nested) (m : Mode) (floor : Nat) : Nat → Shape → Reader Shape
  | 0, _ => Reader.refuse
  | k + 1, s => do
    match ← n.look (followOf m s) with
    | .semicolon _ => pure s
    | .token c true =>
      if floor ≤ Level.conditional then
        set c.step
        let t ← n.conditionalRest m
        n.climb m floor k t
      else pure s
    | .token c false =>
      match Operator.at? n c with
      | none => pure s
      | some (op, d) =>
        match n.extended? m floor s op with
        | none => pure s
        | some reader =>
          set d
          let t ← reader
          n.climb m floor k t

/-- The rest of a list of expressions whose first operand was read. -/
def expressionsBehind (n : Nested) (m : Mode) (s : Shape) : Reader Unit := do
  let t ← n.climb m Level.lowest n.depth s
  Reader.require t.isValue
  expressions.more n m n.depth

/-- The rest of one expression whose first operand was read. -/
def expressionBehind (n : Nested) (m : Mode) (s : Shape) : Reader Unit := do
  let t ← n.climb m Level.lowest n.depth s
  Reader.require t.isValue

/-- The statement that began at `start` and ends here. -/
def finish (start : Cursor) (kind : Kind) (unclosed : Bool) : Reader Closing := do
  let stop ← get
  pure ⟨⟨⟨kind, ⟨start.offset, stop.offset⟩⟩, .plain⟩, unclosed⟩

/-- The rest of an expression statement whose first operand was read. -/
def expressionStatementBehind (n : Nested) (start : Cursor) (s : Shape) : Reader Closing := do
  n.expressionsBehind .outer s
  n.terminator true
  finish start .expressionStatement false

/-! ## Blocks that begin like objects -/

/-- The reserved words that open no statement. Where a brace could open an object as well as a block,
the word behind it is read as a name. -/
def lateWords : List String :=
  ["case", "catch", "default", "else", "extends", "finally", "in", "instanceof"]

/-- The colon behind a label that ends in front of `c`. -/
def labelColon? (n : Nested) (c : Cursor) : Option Cursor :=
  match Gap.find (.value true) n.depth c with
  | .token d false => d.dropWord? [':']
  | _ => none

/-- The first statement of a block whose brace could also open an object. -/
def firstStatement (n : Nested) : Reader Closing := do
  let start ← get
  match n.nameAt? start with
  | none => n.statement
  | some (w, c) =>
    if lateWords.contains (String.ofList w) then
      set c
      match n.labelColon? c with
      | some d =>
        set d
        n.toPlain
        let body ← n.statement
        finish start .labeledStatement body.unclosed
      | none => n.expressionStatementBehind start .name
    else n.statement

/-- A block whose brace could also open an object. -/
def looseBlock (n : Nested) : Reader Block := n.blockFrom n.firstStatement

end WasmEmbed.Script.Nested
