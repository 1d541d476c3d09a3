import WasmEmbed.Script.Function
import WasmEmbed.Script.Markup

/-!
# Templates, objects and arrays

The operands that hold other expressions. An object or array is read once, and its `Shape` says
whether it can be a value, a pattern, or both. `Nested.leadingObject` reads an object whose brace could
also open a block.
-/

namespace WasmEmbed.Script.Nested

/-! ## Templates -/

/-- A character that stands for itself in a template. -/
def isTemplateText (c : Char) : Bool := !(c == '`' || c == '\\' || c == '$' || c == '\x00')

/-- The rest of a template, from behind its opening quote, with at most `k` pieces. -/
def templateRest (n : Nested) : Nat → Reader Unit
  | 0 => Reader.refuse
  | k + 1 => do
    let c ← get
    let d := c.skipWhile isTemplateText
    match d.rest with
    | '`' :: _ => set d.step
    | '$' :: '\x7b' :: _ =>
      set (d.skip 2)
      n.expressions .inner
      n.symbol (.value false) "\x7d"
      n.templateRest k
    | '$' :: _ =>
      set d.step
      n.templateRest k
    | '\\' :: _ =>
      Reader.move fun _ => Token.escape? d
      n.templateRest k
    | _ => Reader.refuse

/-! ## Objects -/

/-- The reserved words that begin neither a statement nor a value: each continues what stands in
front of it. -/
def continuingWords : List String :=
  ["case", "catch", "default", "else", "extends", "finally", "in", "instanceof"]

/-- The words that are read as themselves where a statement could begin. Such a word names no
property of an object whose brace could also open a block. -/
def openingWord (w : String) : Bool :=
  (reservedWords.contains w && !continuingWords.contains w) ||
    ["await", "undefined", "using", "yield"].contains w

/-- What a property may be a part of: a value, a pattern. -/
structure Uses where
  value : Bool
  pattern : Bool

namespace Uses

/-- Both uses must allow it. -/
def and (a b : Uses) : Uses := ⟨a.value && b.value, a.pattern && b.pattern⟩

end Uses

/-- What follows the name of a property: its value, the rest of a method, a default, or nothing. -/
def propertyRest (n : Nested) (name : MemberName) : Reader Uses := do
  n.toPlain
  let c ← get
  if c.nextIs (· == ':') then
    Reader.require name.isName
    set c.step
    n.toPlain
    let d ← get
    match d.dropWord? "...".toList with
    | some e =>
      set e
      let s ← n.expression .inner 0
      pure ⟨false, s.isElement⟩
    | none =>
      let s ← n.expression .inner 0
      pure ⟨s.isValue, s.isElement⟩
  else if c.nextIs (· == '(') then
    Reader.require name.isName
    n.methodRest
    pure ⟨true, false⟩
  else if c.nextIs (· == '=') then
    set c.step
    n.valueOf .inner 0
    match name with
    | .word => pure ⟨false, true⟩
    | .bracketed _ pattern => pure ⟨false, pattern⟩
    | .fixed => Reader.refuse
  else
    Reader.require (name == .word)
    pure ⟨true, true⟩

/-- A property behind its modifiers, which is a method. -/
def methodProperty (n : Nested) : Reader Uses := do
  let name ← n.memberName
  Reader.require name.isName
  n.toPlain
  n.methodRest
  pure ⟨true, false⟩

/-- Moves over the word `w` if it stands in front of the name of a member or, if `others` says so, of
another modifier. -/
def skipModifier (n : Nested) (w : String) (others : Char → Bool) : Reader Bool := do
  let c ← get
  if n.wordAt c == w then
    let _ ← n.anyName
    n.toPlain
    let d ← get
    if n.beginsMemberName d || d.nextIs others then pure true
    else
      set c
      pure false
  else pure false

/-- A property of an object, at its first character. -/
def property (n : Nested) : Reader Uses := do
  let c ← get
  match c.dropWord? "...".toList with
  | some d =>
    set d
    let s ← n.expression .inner 0
    pure ⟨s.isValue, s.isPattern⟩
  | none =>
    if c.nextIs (· == '\x7b') then
      let s ← n.operand .inner
      n.toPlain
      Reader.exactly "="
      n.valueOf .inner 0
      pure ⟨false, s.isPattern⟩
    else
      n.decorators
      let decorated := (← get).offset != c.offset
      let static ←
        match staticGet? (← get) with
        | some d => do
          set d
          n.toPlain
          pure true
        | none => n.skipModifier "static" (· == '*')
      let async ← n.skipModifier "async" (· == '*')
      let d ← get
      let star := d.nextIs (· == '*')
      if star then
        set d.step
        n.toPlain
      let getter ← if star then pure false else n.skipModifier "get" fun _ => false
      let setter ← if star || getter then pure false else n.skipModifier "set" fun _ => false
      if decorated || static || async || star || getter || setter then n.methodProperty
      else
        let name ← n.memberName
        n.propertyRest name

/-- Whether the first property of an object may stand at `c` where the brace could also open a block:
it is no word that opens a statement, and no name that would be a statement by itself. -/
def mayOpenObject (n : Nested) (c : Cursor) : Bool :=
  match n.nameAt? c with
  | none => true
  | some (w, d) =>
    !openingWord (String.ofList w) &&
      match Gap.find (.value true) n.depth d with
      | .semicolon _ => false
      | .token e conditional => !conditional && !e.nextIs (fun x => x == ',' || x == '\x7d')

/-- The properties of an object, from behind its opening brace, with at most `k` of them. -/
def properties (n : Nested) : Nat → Reader Uses
  | 0 => Reader.refuse
  | k + 1 => do
    n.toPlain
    let c ← get
    if c.nextIs (· == '\x7d') then
      set c.step
      pure ⟨true, true⟩
    else if c.nextIs (· == ',') then
      set c.step
      n.properties k
    else
      let uses ← n.property
      n.toToken (.value false)
      let d ← get
      if d.nextIs (· == ',') then
        set d.step
        let rest ← n.properties k
        pure (uses.and rest)
      else
        Reader.require (d.nextIs (· == '\x7d'))
        set d.step
        pure uses

/-- An object, from its opening brace. -/
def object (n : Nested) : Reader Shape := do
  Reader.exactly "\x7b"
  let uses ← n.properties n.depth
  Reader.require (uses.value || uses.pattern)
  pure (.literal uses.value uses.pattern)

/-- An object whose opening brace could also open a block. -/
def leadingObject (n : Nested) : Reader Shape := do
  let c ← get
  match Gap.find .plain n.depth c.step with
  | .token d _ =>
    Reader.require (n.mayOpenObject d)
    n.object
  | _ => Reader.refuse

/-- An array, from its opening bracket. -/
def array (n : Nested) : Reader Shape := do
  Reader.exactly "["
  let entries ← n.entries ']'
  let value := entries.all Entry.isValue
  let pattern := entries.all Entry.isElement
  Reader.require (value || pattern)
  pure (.literal value pattern)

end WasmEmbed.Script.Nested
