import WasmEmbed.Script.Nested

/-!
# Markup elements inside a script

An element is an opening tag, content and a closing tag, or a tag that closes itself. Its content is
text, references to characters, elements, and expressions in braces. The names of the two tags are
not compared.
-/

namespace WasmEmbed.Script.Nested

/-! ## Text and references -/

/-- The end of the text in front of a tag, an expression or a reference. `none` if there is nothing
but line ends and the white space behind them. -/
def markupText? (c : Cursor) : Option Cursor :=
  go false false c.offset c.rest
where
  /-- `seen` says that there was other text, `fresh` that only white space has come since the last
  line end. -/
  go (seen fresh : Bool) (o : Nat) : List Char → Option Cursor
    | [] => if seen then some ⟨o, []⟩ else none
    | x :: xs =>
      if "<>\x7b\x7d&\x00".toList.contains x then if seen then some ⟨o, x :: xs⟩ else none
      else
        let fresh := x == '\n' || (fresh && isMargin x)
        go (seen || !fresh) fresh (o + x.utf8Size) xs

/-- The number of characters in front that satisfy `p`. -/
def runLength (p : Char → Bool) (c : Cursor) : Nat := (c.rest.takeWhile p).length

/-- A reference to a character, by a name of at most thirty letters or a number. -/
def reference? (c : Cursor) : Option Cursor :=
  let close (p : Char → Bool) (most : Nat) (d : Cursor) : Option Cursor :=
    let k := runLength p d
    if 0 < k && k ≤ most then (d.skip k).dropWord? [';'] else none
  match c.rest with
  | '&' :: '#' :: x :: _ =>
    if x == 'x' || x == 'X' then close isHexDigit 6 (c.skip 3) else close Char.isDigit 5 (c.skip 2)
  | '&' :: _ => close Char.isAlpha 30 c.step
  | _ => none

/-- The end of a run of plain characters in an attribute closed by `quote`. An ampersand is plain
unless a letter or `#` follows, and takes the next character with it. -/
def attributeRun (quote : Char) : Nat → List Char → Cursor
  | o, '&' :: x :: rest =>
    if x == '#' || x.isAlpha || x == '\x00' then ⟨o, '&' :: x :: rest⟩
    else attributeRun quote (o + 1 + x.utf8Size) rest
  | o, x :: rest =>
    if x == quote || x == '&' || x == '\x00' then ⟨o, x :: rest⟩
    else attributeRun quote (o + x.utf8Size) rest
  | o, [] => ⟨o, []⟩

/-- The rest of an attribute in quotes, of at most `k` pieces. -/
def attributeEnd? (quote : Char) : Nat → Cursor → Option Cursor
  | 0, _ => none
  | k + 1, c =>
    match Token.markupComment? c with
    | some (_, d) => attributeEnd? quote k d
    | none =>
      let d := attributeRun quote c.offset c.rest
      if d.offset != c.offset then attributeEnd? quote k d
      else if c.nextIs (· == quote) then some c.step
      else match reference? c with
        | some e => attributeEnd? quote k e
        | none => none

/-! ## Tags -/

/-- A letter, a digit, an underscore or a dollar sign. -/
def isAsciiWordPart (c : Char) : Bool := c.isAlphanum || c == '_' || c == '$'

/-- A name in a tag, with or without hyphens; the answer says whether it has one. -/
def tagName (n : Nested) : Reader Bool := do
  let c ← get
  let d := c.skipWhile isAsciiWordPart
  if c.nextIs (fun x => isAsciiWordPart x && !x.isDigit) && d.nextIs (· == '-') then
    set (d.skipWhile fun x => isAsciiWordPart x || x == '-')
    pure true
  else
    let _ ← n.freeName
    pure false

/-- The name of an element: names with points between them, or two names with a colon. -/
def elementName (n : Nested) : Reader Unit := do
  let hyphen ← n.tagName
  match ← n.look .plain with
  | .token c _ =>
    if c.nextIs (· == ':') then
      set c.step
      n.toPlain
      let _ ← n.tagName
    else if hyphen then pure ()
    else path n.depth
  | _ => Reader.refuse
where
  /-- At most `k` further names behind points. -/
  path : Nat → Reader Unit
    | 0 => pure ()
    | k + 1 => do
      match ← n.look .plain with
      | .token c _ =>
        if c.nextIs (· == '.') then
          set c.step
          n.toPlain
          let _ ← n.freeName
          path k
        else pure ()
      | _ => Reader.refuse

/-- An expression in braces, from the opening one; it may be missing. -/
def embedded (n : Nested) : Reader Unit := do
  Reader.exactly "\x7b"
  n.toPlain
  let c ← get
  if c.nextIs (· == '\x7d') then set c.step
  else
    match c.dropWord? "...".toList with
    | some d => set d; n.valueOf .inner 0
    | none => n.expressions .inner
    n.symbol (.value false) "\x7d"

/-- The value of an attribute. -/
def attributeValue (n : Nested) : Reader Unit := do
  n.toPlain
  let c ← get
  match c.rest with
  | '"' :: _ => Reader.move fun _ => attributeEnd? '"' n.depth c.step
  | '\'' :: _ => Reader.move fun _ => attributeEnd? '\'' n.depth c.step
  | '<' :: _ => n.element
  | _ => n.embedded

/-- An attribute, at its first character. -/
def attributePair (n : Nested) : Reader Unit := do
  let c ← get
  if c.nextIs (· == '\x7b') then n.embedded
  else
    let _ ← n.tagName
    n.toPlain
    let d ← get
    if d.nextIs (· == ':') then
      set d.step
      n.toPlain
      let _ ← n.tagName
    n.toPlain
    let e ← get
    if e.nextIs (· == '=') then
      set e.step
      n.attributeValue

/-- The rest of a tag from its attributes on, with at most `k` of them. It answers whether the tag
closes itself. -/
def tagRest (n : Nested) : Nat → Reader Bool
  | 0 => Reader.refuse
  | k + 1 => do
    n.toPlain
    let c ← get
    if c.nextIs (· == '>') then
      set c.step
      pure false
    else match c.dropWord? "/>".toList with
      | some d => set d; pure true
      | none =>
        n.attributePair
        n.tagRest k

/-- The content of an element and its closing tag, with at most `k` pieces. -/
def contentRest (n : Nested) : Nat → Reader Unit
  | 0 => Reader.refuse
  | k + 1 => do
    let c ← get
    match markupText? c with
    | some d =>
      set d
      n.contentRest k
    | none =>
      let d := c.skipWhile isBlank
      set d
      match d.rest with
      | '<' :: '/' :: _ =>
        set (d.skip 2)
        n.toPlain
        let e ← get
        if !e.nextIs (· == '>') then n.elementName
        n.symbol .plain ">"
      | '<' :: '!' :: '-' :: '-' :: _ =>
        set (d.skipWhile Token.inMarkupComment)
        n.contentRest k
      | '<' :: _ =>
        n.element
        n.contentRest k
      | '&' :: _ =>
        Reader.move reference?
        n.contentRest k
      | _ =>
        n.embedded
        n.contentRest k

/-- An element, from its opening angle bracket. -/
def markup (n : Nested) : Reader Unit := do
  Reader.exactly "<"
  n.toPlain
  let c ← get
  if c.nextIs (· == '>') then
    set c.step
    n.contentRest n.depth
  else
    n.elementName
    let closed ← n.tagRest n.depth
    if closed then pure () else n.contentRest n.depth

end WasmEmbed.Script.Nested
