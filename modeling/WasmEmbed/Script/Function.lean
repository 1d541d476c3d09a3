import WasmEmbed.Script.Block
import WasmEmbed.Script.Operator

/-!
# Functions and classes

What follows the word `function` and the word `class`. The same readers serve declarations and
expressions: a declaration is told from an expression by where it stands and by what comes behind it.
-/

namespace WasmEmbed.Script.Nested

/-! ## Functions -/

/-- What stands between the word `function` and the body. -/
structure Heading where
  isGenerator : Bool
  name : Option (List Char)

/-- Moves over a star if there is one. -/
def skipStar (n : Nested) : Reader Bool := do
  n.toPlain
  let c ← get
  if c.nextIs (· == '*') then
    set c.step
    pure true
  else pure false

/-- A name that is not reserved, if there is a name. -/
def freeName? (n : Nested) : Reader (Option (List Char)) := do
  n.toPlain
  let c ← get
  match n.nameAt? c with
  | none => pure none
  | some (w, d) =>
    Reader.require (!isReserved w)
    set d
    pure (some w)

/-- The heading of a function, from behind the word `function` to its body. -/
def heading (n : Nested) : Reader Heading := do
  let isGenerator ← n.skipStar
  let name ← n.freeName?
  n.toPlain
  n.parameters
  n.toPlain
  pure ⟨isGenerator, name⟩

/-- The rest of a function expression, from behind the word `function`. -/
def functionRest (n : Nested) : Reader Unit := do
  let _ ← n.heading
  let _ ← n.block

/-! ## Names of members -/

/-- What names a member of a class or an object. -/
inductive MemberName where
  /-- A word. -/
  | word
  /-- A word behind `#`, a string, a number. -/
  | fixed
  /-- An expression in brackets, unless it is not; `pattern` says whether the brackets may be an array
  pattern. -/
  | bracketed (computed pattern : Bool)
  deriving DecidableEq

namespace MemberName

/-- Whether it may name a member. -/
def isName : MemberName → Bool
  | bracketed computed _ => computed
  | _ => true

end MemberName

/-- A name behind `#`. -/
def privateName (n : Nested) : Reader Unit := do
  Reader.exactly "#"
  let _ ← n.anyName

/-- The name of a member, at its first character. -/
def memberName (n : Nested) : Reader MemberName := do
  let c ← get
  match n.nameAt? c with
  | some (_, d) => set d; pure .word
  | none =>
    if c.nextIs (· == '#') then
      n.privateName
      pure .fixed
    else if c.nextIs (· == '[') then
      set c.step
      let entries ← n.entries ']'
      pure (.bracketed (entries.length == 1 && Entry.areExpressions entries)
        (entries.all Entry.isElement))
    else
      Reader.move fun c => Token.string? n.depth c <|> Token.number? c
      pure .fixed

/-- Whether the name of a member may begin at `c`. -/
def beginsMemberName (n : Nested) (c : Cursor) : Bool :=
  (n.nameAt? c).isSome || c.nextIs (fun x => x == '#' || x == '[' || x == '"' || x == '\'') ||
    (Token.number? c).isSome

/-- The words `static get` with a line end behind them, which are read as one word. -/
def staticGet? (c : Cursor) : Option Cursor := do
  let d ← c.dropWord? "static".toList
  let e := d.skipWhile isSpace
  if d.nextIs isSpace then
    let f ← e.dropWord? "get".toList
    lastLineEnd? none f.offset f.rest
  else none
where
  /-- The cursor behind the last line end of the white space in front. -/
  lastLineEnd? (found : Option Cursor) (o : Nat) : List Char → Option Cursor
    | [] => found
    | x :: xs =>
      if x = '\n' then lastLineEnd? (some ⟨o + 1, xs⟩) (o + 1) xs
      else if isSpace x then lastLineEnd? found (o + x.utf8Size) xs
      else found

/-- Decorators, in front of a class or of one of its members. -/
def decorators (n : Nested) : Reader Unit := go n.depth
where
  /-- At most `k` decorators. -/
  go : Nat → Reader Unit
    | 0 => pure ()
    | k + 1 => do
      n.toPlain
      let c ← get
      if c.nextIs (· == '@') then
        set c.step
        n.toPlain
        let _ ← n.freeName
        path n.depth
        go k
      else pure ()
  /-- At most `k` further names behind points, and the arguments of a call. A point that begins a
  number is none. -/
  path : Nat → Reader Unit
    | 0 => pure ()
    | k + 1 => do
      match ← n.look .plain with
      | .token c false =>
        if c.nextIs (· == '.') && (Token.number? c).isNone then
          set c.step
          n.toPlain
          let _ ← n.freeName
          path k
        else if c.nextIs (· == '(') then
          set c.step
          n.arguments
        else pure ()
      | _ => pure ()

/-- The parameters and the body of a method, from the opening parenthesis. -/
def methodRest (n : Nested) : Reader Unit := do
  n.parameters
  n.toPlain
  let _ ← n.block

/-! ## Classes -/

/-- How the words in front of a member go on. -/
inductive Ahead where
  /-- The word is a modifier. -/
  | modifier
  /-- The word is the name of the member. -/
  | name
  /-- The word is the name of a field, which ends there. -/
  | field (c : Cursor)
  /-- The word opens a static block. -/
  | block
  deriving DecidableEq

/-- What a word that may be a modifier is, by what follows it. -/
def ahead (n : Nested) (isStatic starred : Bool) : Reader Ahead := do
  match ← n.look .ends with
  | .semicolon c =>
    if isStatic then
      match Gap.find .plain n.depth c with
      | .token d _ => if d.nextIs (· == '\x7b') then pure .block else pure (.field c)
      | _ => pure (.field c)
    else pure (.field c)
  | .token c _ =>
    if isStatic && c.nextIs (· == '\x7b') then pure .block
    else if n.beginsMemberName c || (starred && c.nextIs (· == '*')) then pure .modifier
    else pure .name

/-- A member of a class from its name on. A field may stand only where no modifier but `static` has
come. -/
def memberRest (n : Nested) (fieldAllowed : Bool) : Reader Unit := do
  let name ← n.memberName
  Reader.require name.isName
  match ← n.look ⟨fieldAllowed, false⟩ with
  | .semicolon c => set c
  | .token c _ =>
    set c
    if c.nextIs (· == '(') then
      n.methodRest
      match ← n.look .ends with
      | .semicolon d => set d
      | .token d _ => set d
    else
      Reader.require fieldAllowed
      if c.nextIs (· == ';') then set c.step
      else
        Reader.exactly "="
        n.valueOf .outer 0
        n.terminator true

/-- A member of a class behind the decorators. `rank` says which modifiers may still come. -/
def member (n : Nested) : Reader Unit := do
  let c ← get
  match staticGet? c with
  | some d =>
    set d
    n.toPlain
    behindStatic
  | none =>
    if n.wordAt c == "static" then
      let _ ← n.anyName
      match ← n.ahead true true with
      | .modifier => n.toToken .ends; behindStatic
      | .name => set c; n.memberRest true
      | .field d => set d
      | .block =>
        let _ ← n.skipSemicolon false
        n.toPlain
        let _ ← n.block
        match ← n.look .ends with
        | .semicolon d => set d
        | .token d _ => set d
    else behindStatic
where
  /-- A member where `static` may not come any more. -/
  behindStatic : Reader Unit := do
    let c ← get
    if n.wordAt c == "async" then
      let _ ← n.anyName
      match ← n.ahead false true with
      | .modifier => n.toToken .ends; behindAsync false
      | .field d => set d
      | _ => set c; n.memberRest true
    else behindAsync true
  /-- A member where `async` may not come any more. -/
  behindAsync (fieldAllowed : Bool) : Reader Unit := do
    let c ← get
    let w := n.wordAt c
    if c.nextIs (· == '*') then
      set c.step
      n.toPlain
      n.memberRest false
    else if w == "get" || w == "set" then
      let _ ← n.anyName
      match ← n.ahead false false with
      | .modifier => n.toToken .ends; n.memberRest false
      | .field d => Reader.require fieldAllowed; set d
      | _ => set c; n.memberRest fieldAllowed
    else n.memberRest fieldAllowed

/-- The members of a class in braces, from the opening one. -/
def classBody (n : Nested) : Reader Unit := do
  Reader.exactly "\x7b"
  go n.depth
where
  /-- At most `k` further members. -/
  go : Nat → Reader Unit
    | 0 => Reader.refuse
    | k + 1 => do
      n.toPlain
      let c ← get
      if c.nextIs (· == '\x7d') then set c.step
      else if c.nextIs (· == ';') then
        set c.step
        go k
      else
        n.decorators
        n.member
        go k

/-- The rest of a class, from behind the word `class`. It answers whether the class has a name. -/
def classRest (n : Nested) : Reader Bool := do
  n.toPlain
  let c ← get
  let named ←
    match n.nameAt? c with
    | none => pure false
    | some (w, d) =>
      if w == "extends".toList then pure false
      else
        Reader.require (!isReserved w)
        set d
        pure true
  n.toPlain
  let d ← get
  if n.wordAt d == "extends" then
    let _ ← n.anyName
    n.valueOf .inner 0
    n.toToken (.value false)
  n.classBody
  pure named

end WasmEmbed.Script.Nested
