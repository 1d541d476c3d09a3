import WasmEmbed.Script.Expression

/-!
# Statements

`Nested.statementAt` reads a statement by its first token. Most statements announce themselves by a word.
A declaration of a function or a class, and a block, begin like an expression; they are taken for what
they are unless what follows can only continue an expression.
-/

namespace WasmEmbed.Script.Nested

/-- Moves over the unwritten semicolon that may be found here, and finishes the statement. -/
def finishBehindBrace (n : Nested) (start : Cursor) (kind : Kind) (operator : Bool) :
    Reader Closing := do
  let closed ← n.skipSemicolon operator
  finish start kind (!closed)

/-- The word behind a part of a statement, with the cursor in front of it. -/
def wordBehind (n : Nested) (unclosed : Bool) : Reader (String × Cursor) := fun c =>
  ((n.toStatement unclosed c).map fun p => ((n.wordAt p.2, p.2), c))

/-! ## Expressions as statements -/

/-- An expression statement. -/
def expressionStatement (n : Nested) : Reader Closing := do
  let start ← get
  let s ← n.operandAt .outer
  n.expressionStatementBehind start s

/-! ## Blocks -/

/-- A block as a statement. An empty block could also be an empty object. -/
def blockStatement (n : Nested) : Reader Closing := do
  let start ← get
  let block ← n.looseBlock
  n.finishBehindBrace start .blockStatement
    (block.pieces.all fun p => p.kind == .markupComment)

/-- An expression statement that begins with an object. -/
def objectStatement (n : Nested) : Reader Closing := do
  let start ← get
  let s ← n.leadingObject
  n.expressionStatementBehind start s

/-- Whether the next token can only continue an expression. -/
def continues (n : Nested) (follow : Follow) : Reader Bool := do
  match ← n.look follow with
  | .semicolon _ => pure false
  | .token c conditional => pure (conditional || Operator.onlyContinues n c)

/-- Whether the brace at `c` is followed by a name and a colon, which is a label in a block and a
property in an object. -/
def opensWithLabel (n : Nested) (c : Cursor) : Bool :=
  match Gap.find .plain n.depth c.step with
  | .token d _ =>
    match n.nameAt? d with
    | some (_, e) =>
      match Gap.find (.value true) n.depth e with
      | .token f false => f.nextIs (· == ':')
      | _ => false
    | none => false
  | _ => false

/-- A statement that begins with a brace. It is a block if it can be read as one, unless it can be
read as an object and either begins with a property or is continued as an expression. -/
def braceStatement (n : Nested) : Reader Closing := fun c =>
  match n.blockStatement c with
  | none => n.objectStatement c
  | some (closing, d) =>
    let preferObject :=
      n.opensWithLabel c ||
        (closing.unclosed && ((n.continues (.value true) d).map Prod.fst).getD false)
    let object := if preferObject then n.objectStatement c else none
    object <|> some (closing, d)

/-! ## Declarations -/

/-- A name or a pattern that a declaration binds. -/
def binding (n : Nested) : Reader Unit := do
  n.toPlain
  let c ← get
  match c.rest with
  | '[' :: _ =>
    let s ← n.array
    Reader.require s.isPattern
  | '\x7b' :: _ =>
    let s ← n.object
    Reader.require s.isPattern
  | _ =>
    let _ ← n.freeName

/-- An initial value, if there is one. -/
def initializer? (n : Nested) (m : Mode) : Reader Bool := do
  match ← n.look ⟨m.ending, false⟩ with
  | .token c false =>
    if c.nextIs (· == '=') then
      set c.step
      n.valueOf m 0
      pure true
    else pure false
  | _ => pure false

/-- At most `k` bindings with commas between them. It answers whether the last has an initial
value. -/
def bindings (n : Nested) : Nat → Reader Bool
  | 0 => Reader.refuse
  | k + 1 => do
    n.binding
    let initialized ← n.initializer? .outer
    match ← n.look ⟨true, initialized⟩ with
    | .token c false =>
      if c.nextIs (· == ',') then
        set c.step
        n.bindings k
      else pure initialized
    | _ => pure initialized

/-- The declarators of a declaration of variables, from behind its first word, and its end. -/
def declarators (n : Nested) (start : Cursor) (kind : Kind) : Reader Closing := do
  let initialized ← n.bindings n.depth
  n.terminator initialized
  finish start kind false

/-- Where a declaration stands: among other statements, where it could also begin an expression
statement; behind `export default`, where it could also be a single expression; or behind `export`. -/
inductive Site where
  | statement
  | defaultExport
  | export
  deriving DecidableEq

namespace Site

/-- Whether an expression could stand here as well. -/
def allowsExpression : Site → Bool
  | .export => false
  | _ => true

/-- What may come behind the first word of a declaration. -/
def follow (site : Site) : Follow := if site.allowsExpression then .value true else .plain

/-- The rest of an expression that begins with the operand that was read. -/
def expressionRest (n : Nested) (start : Cursor) : Site → Reader Closing
  | .statement => n.expressionStatementBehind start .primary
  | .defaultExport => do
    n.expressionBehind .outer .primary
    n.terminator true
    finish start .expressionStatement false
  | .export => Reader.refuse

end Site

/-- A function from behind the word `function`. It is part of an expression if it has no name, or if
what follows can only continue an expression. -/
def functionStatement (n : Nested) (start : Cursor) (isAsync : Bool) (site : Site) :
    Reader Closing := do
  let heading ← n.heading
  let body ← n.block
  match heading.name with
  | none => site.expressionRest n start
  | some name =>
    let continued ← if site.allowsExpression then n.continues (.value true) else pure false
    if continued then site.expressionRest n start
    else
      let closed ← n.skipSemicolon site.allowsExpression
      let stop ← get
      let span : Span := ⟨start.offset, stop.offset⟩
      let declaration : FunctionDeclaration :=
        ⟨isAsync, heading.isGenerator, name, span, ⟨⟨body.span.start, stop.offset⟩, body.pieces⟩⟩
      pure ⟨⟨⟨declaration.kind, span⟩, .function declaration⟩, !closed⟩

/-- A class from behind the word `class`. -/
def classStatement (n : Nested) (start : Cursor) (site : Site) : Reader Closing := do
  let named ← n.classRest
  if !named then site.expressionRest n start
  else
    let continued ← if site.allowsExpression then n.continues (.value true) else pure false
    if continued then site.expressionRest n start
    else n.finishBehindBrace start .classDeclaration site.allowsExpression

/-- Whether the word `let`, which ends in front of `c`, declares variables. -/
def letDeclares (n : Nested) (follow : Follow) (c : Cursor) : Bool :=
  match Gap.find follow n.depth c with
  | .token d false =>
    d.nextIs (fun x => x == '[' || x == '\x7b') ||
      match n.nameAt? d with
      | some (w, _) => !isReserved w
      | none => false
  | _ => false

/-- Whether the word `async`, which ends in front of `c`, is followed by the word `function`. -/
def asyncFunction? (n : Nested) (follow : Follow) (c : Cursor) : Option Cursor :=
  match Gap.find follow n.depth c with
  | .token d false =>
    match n.nameAt? d with
    | some (w, e) => if w == "function".toList then some e else none
    | none => none
  | _ => none

/-! ## Control -/

/-- The rest of a conditional statement, from behind the word `if`. -/
def ifStatement (n : Nested) (start : Cursor) : Reader Closing := do
  n.parenthesized
  n.toPlain
  let consequence ← n.statement
  let (w, c) ← n.wordBehind consequence.unclosed
  if w == "else" then
    set c
    let _ ← n.anyName
    n.toPlain
    let alternative ← n.statement
    finish start .ifStatement alternative.unclosed
  else finish start .ifStatement consequence.unclosed

/-- A statement of the given kind that consists of a condition and a body. -/
def conditionAndBody (n : Nested) (start : Cursor) (kind : Kind) : Reader Closing := do
  n.parenthesized
  n.toPlain
  let body ← n.statement
  finish start kind body.unclosed

/-- The rest of a loop that is tested at its end, from behind the word `do`. -/
def doStatement (n : Nested) (start : Cursor) : Reader Closing := do
  n.toPlain
  let body ← n.statement
  let (_, c) ← n.wordBehind body.unclosed
  set c
  n.word "while"
  n.parenthesized
  match ← n.look .ends with
  | .semicolon d =>
    set d
    finish start .doStatement false
  | .token d _ =>
    if d.nextIs (· == ';') then
      set d.step
      finish start .doStatement false
    else finish start .doStatement true

/-- The body of a `for` loop. -/
def forBody (n : Nested) (start : Cursor) (kind : Kind) : Reader Closing := do
  n.toPlain
  let body ← n.statement
  finish start kind body.unclosed

/-- The rest of the head of a loop over a collection, from the word `in` or `of`, and the body. -/
def forInRest (n : Nested) (start : Cursor) (operator : Bool) : Reader Closing := do
  n.toToken ⟨false, operator⟩
  let w ← n.anyName
  Reader.require (w == "in".toList || w == "of".toList)
  n.expressions .inner
  n.symbol (.value false) ")"
  n.forBody start .forInStatement

/-- The rest of the head of a counting loop, from its condition on, and the body. -/
def forRest (n : Nested) (start : Cursor) : Reader Closing := do
  n.toPlain
  let c ← get
  if c.nextIs (· == ';') then set c.step
  else
    n.expressions .inner
    n.symbol (.value false) ";"
  n.toPlain
  let d ← get
  if d.nextIs (· == ')') then set d.step
  else
    n.expressions .inner
    n.symbol (.value false) ")"
  n.forBody start .forStatement

/-- The declaration in the head of a loop over a collection, from behind its first word. -/
def forInDeclaration (n : Nested) (start : Cursor) (isVar : Bool) : Reader Closing := do
  n.binding
  if isVar then
    let initialized ← n.initializer? ⟨true, false⟩
    match ← n.look ⟨true, initialized⟩ with
    | .token c false =>
      set c
      n.forInRest start initialized
    | _ => Reader.refuse
  else
    let _ ← n.skipSemicolon false
    n.forInRest start false

/-- The declaration in the head of a counting loop, from behind its first word. -/
def forDeclaration (n : Nested) (start : Cursor) : Reader Closing := do
  let initialized ← n.bindings n.depth
  n.terminator initialized
  n.forRest start

/-- The head of a loop that begins with an expression. -/
def forExpression (n : Nested) (start : Cursor) : Reader Closing := do
  let s ← n.expression ⟨false, false⟩ (Level.step + 1)
  let counting : Reader Closing := do
    n.expressionsBehind .inner s
    n.symbol (.value false) ";"
    n.forRest start
  if s.isPattern || s == .group then n.forInRest start s.isValue <|> counting
  else counting

/-- The rest of a `for` loop, from behind the word. -/
def forStatement (n : Nested) (start : Cursor) : Reader Closing := do
  n.toPlain
  let c ← get
  let awaited := n.wordAt c == "await"
  if awaited then
    let _ ← n.anyName
  n.symbol .plain "("
  n.toPlain
  let d ← get
  let w := n.wordAt d
  let inOnly (r : Reader Closing) : Reader Closing := do
    let closing ← r
    Reader.require (!awaited || closing.statement.kind == .forInStatement)
    pure closing
  if d.nextIs (· == ';') then
    set d.step
    inOnly (n.forRest start)
  else if w == "var" || w == "const" then
    let _ ← n.anyName
    n.forInDeclaration start (w == "var") <|> inOnly (n.forDeclaration start)
  else if w == "let" then
    let declared : Reader Closing := do
      let _ ← n.anyName
      n.forInDeclaration start false <|> inOnly (n.forDeclaration start)
    declared <|> inOnly (n.forExpression start)
  else inOnly (n.forExpression start)

/-- The statements of a `switch`, from its opening brace, with at most `k` cases. -/
def cases (n : Nested) : Nat → Reader Unit
  | 0 => Reader.refuse
  | k + 1 => do
    n.toPlain
    let c ← get
    if c.nextIs (· == '\x7d') then set c.step
    else
      let w ← n.anyName
      if w == "case".toList then
        n.expressions .inner
        n.symbol (.value false) ":"
      else
        Reader.require (w == "default".toList)
        n.symbol .plain ":"
      let _ ← n.statements fun d =>
        d.nextIs (· == '\x7d') || ["case", "default"].contains (n.wordAt d)
      n.cases k

/-- The rest of a `switch`, from behind the word. -/
def switchStatement (n : Nested) (start : Cursor) : Reader Closing := do
  n.parenthesized
  n.symbol .plain "\x7b"
  n.cases n.depth
  finish start .switchStatement false

/-- A block inside a statement. It answers whether an unwritten semicolon was found behind it. -/
def innerBlock (n : Nested) : Reader Bool := do
  n.toPlain
  let _ ← n.block
  n.skipSemicolon false

/-- The rest of a `try`, from behind the word. -/
def tryStatement (n : Nested) (start : Cursor) : Reader Closing := do
  let closed ← n.innerBlock
  let (w, c) ← n.wordBehind (!closed)
  let closed ←
    if w == "catch" then
      set c
      let _ ← n.anyName
      n.toPlain
      let d ← get
      if d.nextIs (· == '(') then
        set d.step
        n.binding
        n.symbol .plain ")"
      n.innerBlock
    else pure closed
  let (w, c) ← n.wordBehind (!closed)
  let closed ←
    if w == "finally" then
      set c
      let _ ← n.anyName
      n.innerBlock
    else pure closed
  finish start .tryStatement (!closed)

/-- The rest of a jump, from behind its word, with the label that may follow. -/
def jumpStatement (n : Nested) (start : Cursor) (kind : Kind) : Reader Closing := do
  match ← n.look .ends with
  | .token c _ =>
    if (n.nameAt? c).isSome then
      set c
      let _ ← n.freeName
  | _ => pure ()
  n.terminator false
  finish start kind false

/-- The rest of a `return`, from behind the word. -/
def returnStatement (n : Nested) (start : Cursor) : Reader Closing := do
  match ← n.look .ends with
  | .semicolon c => set c
  | .token c _ =>
    set c
    if c.nextIs (· == ';') then set c.step
    else
      Reader.require (!opensMarkupComment c)
      n.expressions .outer
      n.terminator true
  finish start .returnStatement false

/-! ## Imports and exports -/

/-- The text between the quotes of a string. -/
def stringText (n : Nested) : Reader (List Char) := do
  n.toPlain
  let c ← get
  Reader.move (Token.string? n.depth)
  let d ← get
  pure ((c.textUpTo d).drop 1).dropLast

/-- The word `from` and the module behind it. -/
def fromClause (n : Nested) : Reader (List Char) := do
  n.toPlain
  n.word "from"
  n.stringText

/-- The name of an export: a name, a string, or the word `default`. The answer says whether it is a
name that is not reserved. -/
def exportName (n : Nested) : Reader (List Char × Bool) := do
  n.toPlain
  let c ← get
  match n.nameAt? c with
  | some (w, d) =>
    Reader.require (!isReserved w || w == "default".toList)
    set d
    pure (w, !isReserved w)
  | none =>
    let text ← n.stringText
    pure (text, false)

/-- The word `as` and what `target` reads behind it, if the word comes next. -/
def alias? {α : Type} (n : Nested) (target : Reader α) : Reader (Option α) := do
  n.toPlain
  let c ← get
  if n.wordAt c == "as" then
    let _ ← n.anyName
    n.toPlain
    let a ← target
    pure (some a)
  else pure none

/-- What `item` reads, at most `k` times with commas between, up to the closing brace. -/
def braceItems {α : Type} (n : Nested) (item : Reader α) : Nat → Reader (List α)
  | 0 => Reader.refuse
  | k + 1 => do
    n.toPlain
    let c ← get
    if c.nextIs (· == '\x7d') then
      set c.step
      pure []
    else
      let a ← item
      n.toPlain
      let d ← get
      if d.nextIs (· == ',') then
        set d.step
        let rest ← n.braceItems item k
        pure (a :: rest)
      else
        Reader.exactly "\x7d"
        pure [a]

/-- What `item` reads in braces with commas between, from behind the opening brace. A comma may stand
in front of the closing brace, also alone. -/
def braceList {α : Type} (n : Nested) (item : Reader α) : Reader (List α) := do
  n.toPlain
  let c ← get
  if c.nextIs (· == ',') then
    set c.step
    n.toPlain
    Reader.exactly "\x7d"
    pure []
  else n.braceItems item n.depth

/-- One of the names that an import takes from another module. -/
def importBinding (n : Nested) : Reader ImportBinding := do
  let (imported, isFree) ← n.exportName
  match ← n.alias? n.freeName with
  | some localName => pure ⟨.named imported, localName⟩
  | none =>
    Reader.require isFree
    pure ⟨.named imported, imported⟩

/-- All that an import takes besides the default export. -/
def importBindings (n : Nested) : Reader (List ImportBinding) := do
  n.toPlain
  let c ← get
  if c.nextIs (· == '*') then
    set c.step
    n.toPlain
    n.word "as"
    n.toPlain
    let localName ← n.freeName
    pure [⟨.everything, localName⟩]
  else
    Reader.exactly "\x7b"
    n.braceList n.importBinding

/-- The attributes behind the module of an import, if there are any. -/
def importAttributes (n : Nested) : Reader Unit := do
  match ← n.look .ends with
  | .token c false =>
    if n.wordAt c == "with" then
      set c
      let _ ← n.anyName
      n.toPlain
      let s ← n.object
      Reader.require s.isValue
  | _ => pure ()

/-- The rest of an import, from behind the word. -/
def importStatement (n : Nested) (start : Cursor) : Reader Closing := do
  n.toPlain
  let c ← get
  let (defaultName, bindings, specifier) ←
    if c.nextIs (fun x => x == '"' || x == '\'') then do
      let specifier ← n.stringText
      pure (none, [], specifier)
    else if (n.nameAt? c).isSome then do
      let name ← n.freeName
      n.toPlain
      let d ← get
      let bindings ←
        if d.nextIs (· == ',') then do
          set d.step
          n.importBindings
        else pure []
      let specifier ← n.fromClause
      pure (some name, bindings, specifier)
    else do
      let bindings ← n.importBindings
      let specifier ← n.fromClause
      pure (none, bindings, specifier)
  n.importAttributes
  n.terminator false
  let stop ← get
  let span : Span := ⟨start.offset, stop.offset⟩
  pure ⟨⟨⟨.importStatement, span⟩, .importing ⟨span, defaultName, bindings, specifier⟩⟩, false⟩

/-- The statement that exports a declaration. -/
def exported (start : Cursor) (declaration : Closing) : Reader Closing := do
  let stop ← get
  pure ⟨⟨⟨.exportStatement, ⟨start.offset, stop.offset⟩⟩, declaration.statement.role⟩,
    declaration.unclosed⟩

/-- A declaration behind `export` or `export default`, or what `otherwise` reads if none begins
here. -/
def exportedDeclaration (n : Nested) (site : Site) (otherwise : Reader Closing) : Reader Closing := do
  let start ← get
  match n.nameAt? start with
  | none =>
    if start.nextIs (· == '@') then
      n.decorators
      n.word "class"
      n.classStatement start site
    else otherwise
  | some (w, d) =>
    match String.ofList w with
    | "function" =>
      set d
      n.functionStatement start false site
    | "async" =>
      match n.asyncFunction? site.follow d with
      | some e =>
        set e
        n.functionStatement start true site
      | none => otherwise
    | "class" =>
      set d
      n.classStatement start site
    | "const" =>
      set d
      n.declarators start .lexicalDeclaration
    | "var" =>
      set d
      n.declarators start .variableDeclaration
    | "let" =>
      if n.letDeclares site.follow d then
        set d
        n.declarators start .lexicalDeclaration
      else otherwise
    | _ => otherwise

/-- The rest of an export, from behind the word. -/
def exportStatement (n : Nested) (start : Cursor) : Reader Closing := do
  n.toPlain
  let c ← get
  if c.nextIs (· == '*') then
    set c.step
    let _ ← n.alias? n.exportName
    let _ ← n.fromClause
    n.terminator false
    finish start .exportStatement false
  else if c.nextIs (· == '\x7b') then
    set c.step
    let exportItem : Reader Unit := do
      let _ ← n.exportName
      let _ ← n.alias? n.exportName
    let _ ← n.braceList exportItem
    match ← n.look .ends with
    | .token d _ =>
      if n.wordAt d == "from" then
        let _ ← n.fromClause
    | _ => pure ()
    n.terminator false
    finish start .exportStatement false
  else if n.wordAt c == "default" then
    let _ ← n.anyName
    n.toPlain
    let value : Reader Closing := do
      n.valueOf .outer Level.lowest
      n.terminator true
      finish c .expressionStatement false
    let closing ← n.exportedDeclaration .defaultExport value
    exported start closing
  else
    let closing ← n.exportedDeclaration .export Reader.refuse
    exported start closing

/-! ## Dispatch -/

/-- A statement that begins with a word without a meaning of its own: a label, or an expression. -/
def nameStatement (n : Nested) (start : Cursor) (w : String) (behind : Cursor) : Reader Closing := do
  let label := if reservedWords.contains w || openingWord w then none else n.labelColon? behind
  match label with
  | some d =>
    set d
    n.toPlain
    let body ← n.statement
    finish start .labeledStatement body.unclosed
  | none => n.expressionStatement

/-- A statement, at its first character. -/
def statementAt (n : Nested) : Reader Closing := do
  let start ← get
  match n.nameAt? start with
  | none =>
    match start.rest with
    | ';' :: _ =>
      set start.step
      finish start .emptyStatement false
    | '\x7b' :: _ => n.braceStatement
    | '@' :: _ =>
      n.decorators
      let c ← get
      let w ← n.anyName
      if w == "export".toList then n.exportStatement start
      else
        Reader.require (w == "class".toList && start.offset < c.offset)
        n.classStatement start .statement
    | _ => n.expressionStatement
  | some (w, c) =>
    let behind {α : Type} (r : Reader α) : Reader α := do
      set c
      r
    match String.ofList w with
    | "if" => behind (n.ifStatement start)
    | "for" => behind (n.forStatement start)
    | "while" => behind (n.conditionAndBody start .whileStatement)
    | "with" => behind (n.conditionAndBody start .withStatement)
    | "do" => behind (n.doStatement start)
    | "switch" => behind (n.switchStatement start)
    | "try" => behind (n.tryStatement start)
    | "break" => behind (n.jumpStatement start .breakStatement)
    | "continue" => behind (n.jumpStatement start .continueStatement)
    | "return" => behind (n.returnStatement start)
    | "throw" =>
      behind do
        n.expressions .outer
        n.terminator true
        finish start .throwStatement false
    | "debugger" =>
      behind do
        n.terminator false
        finish start .debuggerStatement false
    | "var" => behind (n.declarators start .variableDeclaration)
    | "const" => behind (n.declarators start .lexicalDeclaration)
    | "let" =>
      if n.letDeclares (.value true) c then behind (n.declarators start .lexicalDeclaration)
      else n.nameStatement start "let" c
    | "function" => behind (n.functionStatement start false .statement)
    | "async" =>
      match n.asyncFunction? (.value true) c with
      | some d =>
        set d
        n.functionStatement start true .statement
      | none => n.nameStatement start "async" c
    | "class" => behind (n.classStatement start .statement)
    | "import" =>
      match Gap.find .plain n.depth c with
      | .token d _ =>
        if d.nextIs (fun x => x == '(' || x == '.' || x == '?') then n.expressionStatement
        else behind (n.importStatement start)
      | _ => Reader.refuse
    | "export" => behind (n.exportStatement start)
    | word => n.nameStatement start word c

end WasmEmbed.Script.Nested
