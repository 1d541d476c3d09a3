/-!
# Shapes of expressions

Reading an expression keeps its `Shape` only: as much as decides what may follow it and what it may
stand for. The same characters can be a value or a pattern, as `[a, b]` is in `[a, b] = c`; which of
the two they are is known only later, so the shape of an array or object says which of the two it
could be, and the reader goes on once for both.
-/

namespace WasmEmbed.Script

/-- As much of an expression as decides what may follow it. -/
inductive Shape where
  /-- A name. -/
  | name
  /-- The word `undefined`. -/
  | undefined
  /-- A member of a value, `a.b` or `a[b]`. -/
  | member
  /-- An expression in parentheses. -/
  | group
  /-- An array or an object, which may be a value, a pattern, or both. -/
  | literal (value pattern : Bool)
  /-- Any other expression that cannot be taken apart by an operator. -/
  | primary
  /-- An expression that begins with `new`. -/
  | creation
  /-- An expression made with an operator. -/
  | compound
  /-- An assignment; `pattern` says whether what is assigned to may stand in a pattern. -/
  | assignment (pattern : Bool)
  deriving Repr, DecidableEq

namespace Shape

/-- Whether the expression has a value. -/
def isValue : Shape → Bool
  | literal value _ => value
  | _ => true

/-- Whether the expression needs no parentheses in any place. -/
def isPrimary : Shape → Bool
  | name | undefined | member | group | primary => true
  | literal value _ => value
  | _ => false

/-- Whether `new` may stand in front, or a template behind. -/
def isCallee (s : Shape) : Bool := s.isPrimary || s == creation

/-- Whether it may be assigned to. -/
def isTarget : Shape → Bool
  | name | undefined | member | group => true
  | literal _ pattern => pattern
  | _ => false

/-- Whether it may be assigned to by an operator with an assignment in it. -/
def isPlace : Shape → Bool
  | name | member | group => true
  | _ => false

/-- Whether it may stand in a pattern. -/
def isPattern : Shape → Bool
  | name | undefined | member => true
  | literal _ pattern => pattern
  | _ => false

/-- Whether it may stand in a pattern, with or without a default. -/
def isElement : Shape → Bool
  | assignment pattern => pattern
  | s => s.isPattern

end Shape

/-- One place of a list in parentheses or brackets: nothing, an expression, or one behind `...`. -/
inductive Entry where
  | hole
  | item (shape : Shape)
  | spread (shape : Shape)
  deriving Repr, DecidableEq

namespace Entry

/-- Whether the entry may stand in an array or among the arguments of a call. -/
def isValue : Entry → Bool
  | hole => true
  | item s | spread s => s.isValue

/-- Whether the entry may stand in an array pattern. -/
def isElement : Entry → Bool
  | hole => true
  | item s | spread s => s.isElement

/-- Whether the entry is an expression of its own. -/
def isExpression : Entry → Bool
  | item s => s.isValue
  | _ => false

/-- Whether the entry may stand among the parameters of a function. -/
def isParameter : Entry → Bool
  | hole => false
  | item s | spread s => s.isElement

/-- Whether a list in parentheses may be the arguments of a call. -/
def areArguments (entries : List Entry) : Bool := entries.all isValue

/-- Whether a list in parentheses is one or more expressions. -/
def areExpressions (entries : List Entry) : Bool := entries.all isExpression

/-- Whether a list in parentheses may be the parameters of a function. A comma may follow the last
parameter; no parameters at all leave a single hole. -/
def areParameters (entries : List Entry) : Bool :=
  entries == [hole] ||
    match entries.getLast? with
    | some hole => entries.dropLast.all isParameter && 1 < entries.length
    | _ => entries.all isParameter

end Entry

end WasmEmbed.Script
