import WasmEmbed.Script.Nested

/-!
# Operators and how strongly they bind

`Operator.at?` reads the longest operator behind a value. Binding strengths are numbers, the larger the
stronger (`Level`). An expression is read with a floor: an operator below the floor is left to the
construct outside. So the right operand of a left-associative operator has a floor one above the
level of that operator, and of a right-associative one the level itself.
-/

namespace WasmEmbed.Script

/-! ## Levels -/

namespace Level

/-- Below every operator. -/
def lowest : Nat := 0
/-- The conditional `a ? b : c`, and `??`. -/
def conditional : Nat := 3
/-- `||` -/
def disjunction : Nat := 4
/-- `&&` -/
def conjunction : Nat := 5
/-- `|` -/
def bitOr : Nat := 6
/-- `^` -/
def bitXor : Nat := 7
/-- `&` -/
def bitAnd : Nat := 8
/-- `==`, `!=`, `===`, `!==` -/
def equality : Nat := 9
/-- `<`, `<=`, `>`, `>=`, `in`, `instanceof` -/
def relation : Nat := 10
/-- `<<`, `>>`, `>>>` -/
def shift : Nat := 12
/-- `+`, `-` -/
def sum : Nat := 13
/-- `*`, `/`, `%` -/
def product : Nat := 14
/-- `**`, which groups to the right. -/
def power : Nat := 15
/-- The signs, `!`, `~`, and the words `typeof`, `void`, `delete` and `await`. -/
def sign : Nat := 16
/-- `++` and `--` -/
def step : Nat := 17

end Level

/-- What may be found behind a value. -/
inductive Operator where
  /-- An operator between two values; `rightward` says that it groups to the right. -/
  | binary (level : Nat) (rightward : Bool)
  /-- The word `in`. -/
  | membership
  /-- A plain assignment. -/
  | assign
  /-- An assignment with an operator in it. -/
  | update
  /-- `++` or `--`. -/
  | step
  /-- A point in front of a member. -/
  | dot
  /-- `?.` -/
  | chain
  /-- An opening parenthesis. -/
  | call
  /-- An opening bracket. -/
  | index
  /-- The beginning of a template. -/
  | template
  deriving Repr, DecidableEq

namespace Operator

/-- The operator that begins a text, and the number of its characters. -/
def ofSymbol? : List Char → Option (Operator × Nat)
  | '=' :: '=' :: '=' :: _ => some (.binary Level.equality false, 3)
  | '=' :: '=' :: _ => some (.binary Level.equality false, 2)
  | '=' :: '>' :: _ => none
  | '=' :: _ => some (.assign, 1)
  | '!' :: '=' :: '=' :: _ => some (.binary Level.equality false, 3)
  | '!' :: '=' :: _ => some (.binary Level.equality false, 2)
  | '+' :: '+' :: _ => some (.step, 2)
  | '+' :: '=' :: _ => some (.update, 2)
  | '+' :: _ => some (.binary Level.sum false, 1)
  | '-' :: '-' :: _ => some (.step, 2)
  | '-' :: '=' :: _ => some (.update, 2)
  | '-' :: _ => some (.binary Level.sum false, 1)
  | '*' :: '*' :: '=' :: _ => some (.update, 3)
  | '*' :: '*' :: _ => some (.binary Level.power true, 2)
  | '*' :: '=' :: _ => some (.update, 2)
  | '*' :: _ => some (.binary Level.product false, 1)
  | '/' :: '=' :: _ => some (.update, 2)
  | '/' :: _ => some (.binary Level.product false, 1)
  | '%' :: '=' :: _ => some (.update, 2)
  | '%' :: _ => some (.binary Level.product false, 1)
  | '&' :: '&' :: '=' :: _ => some (.update, 3)
  | '&' :: '&' :: _ => some (.binary Level.conjunction false, 2)
  | '&' :: '=' :: _ => some (.update, 2)
  | '&' :: _ => some (.binary Level.bitAnd false, 1)
  | '|' :: '|' :: '=' :: _ => some (.update, 3)
  | '|' :: '|' :: _ => some (.binary Level.disjunction false, 2)
  | '|' :: '=' :: _ => some (.update, 2)
  | '|' :: _ => some (.binary Level.bitOr false, 1)
  | '^' :: '=' :: _ => some (.update, 2)
  | '^' :: _ => some (.binary Level.bitXor false, 1)
  | '<' :: '<' :: '=' :: _ => some (.update, 3)
  | '<' :: '<' :: _ => some (.binary Level.shift false, 2)
  | '<' :: '=' :: _ => some (.binary Level.relation false, 2)
  | '<' :: _ => some (.binary Level.relation false, 1)
  | '>' :: '>' :: '>' :: '=' :: _ => some (.update, 4)
  | '>' :: '>' :: '>' :: _ => some (.binary Level.shift false, 3)
  | '>' :: '>' :: '=' :: _ => some (.update, 3)
  | '>' :: '>' :: _ => some (.binary Level.shift false, 2)
  | '>' :: '=' :: _ => some (.binary Level.relation false, 2)
  | '>' :: _ => some (.binary Level.relation false, 1)
  | '?' :: '?' :: '=' :: _ => some (.update, 3)
  | '?' :: '?' :: _ => some (.binary Level.conditional false, 2)
  | '?' :: '.' :: _ => some (.chain, 2)
  | '.' :: _ => some (.dot, 1)
  | '(' :: _ => some (.call, 1)
  | '[' :: _ => some (.index, 1)
  | '`' :: _ => some (.template, 1)
  | _ => none

/-- The operator at `c` with the cursor behind it. -/
def at? (n : Nested) (c : Cursor) : Option (Operator × Cursor) :=
  match ofSymbol? c.rest with
  | some (op, length) => some (op, c.skip length)
  | none =>
    match n.nameAt? c with
    | none => none
    | some (w, d) =>
      if w == "in".toList then some (.membership, d)
      else if w == "instanceof".toList then some (.binary Level.relation false, d)
      else none

/-- The reserved words that begin an expression. -/
def openingWords : List String :=
  ["class", "delete", "false", "function", "import", "new", "null", "super", "this", "true",
    "typeof", "void"]

/-- Whether an expression could begin at `c`. -/
def beginsExpression (n : Nested) (c : Cursor) : Bool :=
  match c.rest with
  | [] => false
  | '+' :: x :: _ => x != '='
  | '-' :: x :: _ => x != '='
  | '!' :: x :: _ => x != '='
  | '<' :: x :: _ => x != '=' && x != '<'
  | '.' :: x :: _ => x.isDigit
  | x :: _ =>
    "([\x7b\"'`#@~/".toList.contains x || x.isDigit ||
      match n.nameAt? c with
      | none => false
      | some (w, _) => !isReserved w || openingWords.contains (String.ofList w)

/-- Whether what stands at `c` continues an expression and cannot begin a statement. -/
def onlyContinues (n : Nested) (c : Cursor) : Bool :=
  (c.nextIs (· == ',') || (at? n c).isSome) && !beginsExpression n c

end Operator

end WasmEmbed.Script
