import WasmEmbed.Script.Climb

/-!
# Expressions

An expression is an operand with operators behind it. `Nested.operandAt` reads an operand by its first
character, and `Nested.climb` reads the operators.

Where the same characters could be a value or a list of parameters, they are read once: a list in
parentheses becomes the parameters of a function when an arrow follows it.
-/

namespace WasmEmbed.Script.Nested

/-! ## Functions written with an arrow -/

/-- Whether an arrow comes next. -/
def arrowFollows (n : Nested) (follow : Follow) : Reader (Option Cursor) := do
  match ← n.look follow with
  | .token c false => pure (c.dropWord? "=>".toList)
  | _ => pure none

/-- An expression that begins with an object whose brace could also open a block. -/
def leadingExpression (n : Nested) (m : Mode) : Reader Unit := do
  let s ← n.leadingObject
  n.expressionBehind m s

/-- The body of a function behind its arrow. A brace opens a block if what follows can be read as
one, and an object otherwise. -/
def arrowBody (n : Nested) (m : Mode) : Reader Shape := do
  n.toPlain
  let c ← get
  if c.nextIs (· == '\x7b') then
    let asBlock : Reader Bool := do
      let _ ← n.looseBlock
      match ← n.look .plain with
      | .token d _ => pure (!(d.nextIs (· == '=') && !(d.dropWord? "==".toList).isSome &&
          !(d.dropWord? "=>".toList).isSome))
      | _ => pure true
    match asBlock c with
    | some (true, d) => set d
    | some (false, d) => n.leadingExpression m.right <|> set d
    | none => n.leadingExpression m.right
  else n.valueOf m.right 0
  pure .primary

/-- What a list in parentheses is: the parameters of a function if an arrow follows, and otherwise
what `otherwise` makes of it. -/
def listOrArrow (n : Nested) (m : Mode) (entries : List Entry) (allowed : Bool) (otherwise : Shape) :
    Reader Shape := do
  let arrow ←
    if Entry.areParameters entries then
      n.arrowFollows (if allowed then m.follow else .plain)
    else pure none
  match arrow with
  | some c =>
    set c
    n.arrowBody m
  | none =>
    Reader.require allowed
    pure otherwise

/-- An opening parenthesis with what it opens. -/
def groupOrArrow (n : Nested) (m : Mode) : Reader Shape := do
  Reader.exactly "("
  let entries ← n.entries ')'
  n.listOrArrow m entries (Entry.areExpressions entries) .group

/-- A name, or a function with the name as its only parameter. -/
def nameOrArrow (n : Nested) (m : Mode) : Reader Shape := do
  match ← n.arrowFollows m.follow with
  | some c =>
    set c
    n.arrowBody m
  | none => pure .name

/-- What the word `async` opens, from behind it. -/
def asyncRest (n : Nested) (m : Mode) : Reader Shape := do
  match ← n.look m.follow with
  | .token c false =>
    if n.wordAt c == "function" then
      set c
      let _ ← n.anyName
      n.functionRest
      pure .primary
    else if c.nextIs (· == '(') then
      set c.step
      let entries ← n.entries ')'
      n.listOrArrow m entries (Entry.areArguments entries) .primary
    else
      match n.nameAt? c with
      | some (w, d) =>
        if isReserved w then n.nameOrArrow m
        else
          match Gap.find .plain n.depth d with
          | .token e _ =>
            match e.dropWord? "=>".toList with
            | some f =>
              set f
              n.arrowBody m
            | none => pure .name
          | _ => pure .name
      | none => n.nameOrArrow m
  | _ => pure .name

/-! ## Operands -/

/-- The members and templates behind an operand of `new`, at most `k` of them, and the arguments. -/
def calleeRest (n : Nested) (m : Mode) : Nat → Shape → Reader Shape
  | 0, _ => Reader.refuse
  | k + 1, s => do
    Reader.require s.isCallee
    match ← n.look m.follow with
    | .token c false =>
      match Operator.at? n c with
      | some (.call, d) =>
        set d
        n.arguments
        pure .creation
      | some (op, d) =>
        match n.access? s op with
        | some reader =>
          set d
          let t ← reader
          n.calleeRest m k t
        | none => pure .creation
      | none => pure .creation
    | _ => pure .creation

/-- What the word `new` opens, from behind it. -/
def newRest (n : Nested) (m : Mode) : Reader Shape := do
  n.toPlain
  let c ← get
  if c.nextIs (· == '.') then
    set c.step
    n.toPlain
    n.word "target"
    pure .primary
  else
    let s ← n.operand m
    n.calleeRest m n.depth s

/-- What the word `import` opens inside an expression, from behind it. -/
def importRest (n : Nested) : Reader Shape := do
  n.toPlain
  let c ← get
  if c.nextIs (· == '.') then
    set c.step
    n.toPlain
    n.word "meta"
    pure .primary
  else match c.dropWord? "?.".toList with
    | some d =>
      set d
      n.memberBehind
      pure .member
    | none =>
      Reader.exactly "("
      n.arguments
      pure .primary

/-- Whether the characters at `c` would open an HTML-like comment, which they cannot do where the
statement may end. -/
def opensMarkupComment (c : Cursor) : Bool :=
  (c.dropWord? "<!--".toList).isSome || (c.dropWord? "-->".toList).isSome

/-- What the word `yield` opens, from behind it. -/
def yieldRest (n : Nested) (m : Mode) : Reader Shape := do
  match ← n.look m.follow with
  | .token c false =>
    Reader.require (!opensMarkupComment c)
    if c.nextIs (· == '*') && !c.step.nextIs (· == '*') then
      set c.step
      n.valueOf m.right 0
    else if Operator.beginsExpression n c then n.valueOf m.right 0
  | _ => pure ()
  pure .compound

/-- An operand that begins with a word, from behind the word. -/
def wordOperand (n : Nested) (m : Mode) (w : List Char) : Reader Shape := do
  match String.ofList w with
  | "function" =>
    n.functionRest
    pure .primary
  | "class" =>
    let _ ← n.classRest
    pure .primary
  | "async" => n.asyncRest m
  | "new" => n.newRest m
  | "import" => n.importRest
  | "yield" => n.yieldRest m
  | "await" | "typeof" | "void" | "delete" =>
    n.valueOf m.right (Level.sign + 1)
    pure .compound
  | "using" =>
    let s ← n.expression m.right (Level.sign + 1)
    match s with
    | .assignment _ => pure .compound
    | _ => Reader.refuse
  | "this" | "super" | "null" | "true" | "false" => pure .primary
  | "undefined" => pure .undefined
  | _ =>
    Reader.require (!isReserved w)
    n.nameOrArrow m

/-- An operand, at its first character. -/
def operandAt (n : Nested) (m : Mode) : Reader Shape := do
  let c ← get
  match n.nameAt? c with
  | some (w, d) =>
    set d
    n.wordOperand m w
  | none =>
    match c.rest with
    | '(' :: _ => n.groupOrArrow m
    | '[' :: _ => n.array
    | '\x7b' :: _ => n.object
    | '"' :: _ | '\'' :: _ =>
      Reader.move (Token.string? n.depth)
      pure .primary
    | '`' :: _ =>
      set c.step
      n.templateRest n.depth
      pure .primary
    | '/' :: _ =>
      Reader.move Token.regex?
      pure .primary
    | '<' :: _ =>
      n.element
      pure .compound
    | '@' :: _ =>
      n.decorators
      n.word "class"
      let _ ← n.classRest
      pure .primary
    | '#' :: _ =>
      n.privateName
      n.toPlain
      n.word "in"
      n.valueOf m.right (Level.relation + 1)
      pure .compound
    | '+' :: '+' :: _ | '-' :: '-' :: _ =>
      set (c.skip 2)
      n.valueOf m.right (Level.step + 1)
      pure .compound
    | '+' :: _ | '-' :: _ | '!' :: _ | '~' :: _ =>
      set c.step
      n.valueOf m.right (Level.sign + 1)
      pure .compound
    | _ =>
      Reader.move Token.number?
      pure .primary

/-- An expression without commas. -/
def expressionAt (n : Nested) (m : Mode) (floor : Nat) : Reader Shape := do
  n.toPlain
  let s ← n.operandAt m
  n.climb m floor n.depth s

end WasmEmbed.Script.Nested
