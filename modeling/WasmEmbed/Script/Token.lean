import WasmEmbed.Script.Blank

/-!
# Tokens with an inner structure

Each function of this module reads one token at the front of the text, with nothing before it, and
answers the cursor behind it: comments, names, numbers, strings, regular expressions. Every token is
the longest that can be read. The character NUL belongs to no token, so a text that holds one is
never read to its end.
-/

namespace WasmEmbed.Script.Token

/-! ## Comments -/

/-- A line comment stops in front of the line end. -/
def inLineComment (c : Char) : Bool :=
  !(c == '\r' || c == '\n' || c == '\u2028' || c == '\u2029' || c == '\x00')

/-- The end of a block comment whose opening was read; `star` says that a star came last. -/
def blockCommentEnd? : Bool → Nat → List Char → Option Cursor
  | _, _, [] => none
  | star, o, x :: xs =>
    if x = '\x00' then none
    else if star && x == '/' then some ⟨o + 1, xs⟩
    else blockCommentEnd? (x == '*') (o + x.utf8Size) xs

/-- A line comment or a closed block comment. -/
def comment? (c : Cursor) : Option Cursor :=
  match c.rest with
  | '/' :: '/' :: _ => some ((c.skip 2).skipWhile inLineComment)
  | '/' :: '*' :: rest => blockCommentEnd? false (c.offset + 2) rest
  | _ => none

/-- What the rest of an HTML-like comment consists of. -/
def inMarkupComment (c : Char) : Bool := !(c == '\x00' || endsLine c)

/-- An HTML-like comment, which runs from `<!--` or `-->` to the end of the line. It is found behind
any blanks of the margin. The two cursors are its beginning and its end. -/
def markupComment? (c : Cursor) : Option (Cursor × Cursor) :=
  let start := c.skipWhile isMargin
  match start.dropWord? "<!--".toList <|> start.dropWord? "-->".toList with
  | some d => some (start, d.skipWhile inMarkupComment)
  | none => none

/-! ## Names -/

/-- The character escape `\uXXXX` or `\u{X…}` inside a name. -/
def nameEscape? (c : Cursor) : Option Cursor :=
  match c.dropWord? ['\\', 'u'] with
  | none => none
  | some d =>
    match d.rest with
    | '\x7b' :: x :: _ =>
      if isHexDigit x then
        (d.step.skipWhile isHexDigit).dropWord? ['\x7d']
      else none
    | a :: b :: e :: f :: _ =>
      if isHexDigit a && isHexDigit b && isHexDigit e && isHexDigit f then some (d.skip 4) else none
    | _ => none

/-- The end of a name of at most `n` further pieces. -/
def nameEnd : Nat → Cursor → Cursor
  | 0, c => c
  | n + 1, c =>
    let d := c.skipWhile isWordPart
    match nameEscape? d with
    | some e => nameEnd n e
    | none => d

/-- A name: a character that may begin one or an escape, then any number of characters and escapes.
The bound counts escapes. -/
def name? (escapes : Nat) (c : Cursor) : Option Cursor :=
  if c.nextIs isWordStart then some (nameEnd (escapes + 1) c)
  else (nameEscape? c).map (nameEnd escapes)

/-! ## Numbers -/

/-- The rest of a run of digits in which single underscores may stand between digits. -/
def digitsEnd (isDigit : Char → Bool) : Nat → List Char → Cursor
  | o, '_' :: y :: rest =>
    if isDigit y then digitsEnd isDigit (o + 1 + y.utf8Size) rest else ⟨o, '_' :: y :: rest⟩
  | o, x :: rest =>
    if isDigit x then digitsEnd isDigit (o + x.utf8Size) rest else ⟨o, x :: rest⟩
  | o, [] => ⟨o, []⟩

/-- A run of digits in which single underscores may stand between digits. -/
def digits? (isDigit : Char → Bool) (c : Cursor) : Option Cursor :=
  if c.nextIs isDigit then some (digitsEnd isDigit c.offset c.rest) else none

/-- An exponent, if there is a whole one. -/
def exponent? (c : Cursor) : Option Cursor :=
  if c.nextIs (fun x => x == 'e' || x == 'E') then
    let d := c.step
    digits? Char.isDigit (if d.nextIs (fun x => x == '+' || x == '-') then d.step else d)
  else none

/-- Moves over an exponent if there is one. -/
def skipExponent (c : Cursor) : Cursor := (exponent? c).getD c

/-- Whether the run of digits in front may be followed by a fraction or an exponent: a single zero,
or digits that begin with one to nine behind at most one zero. -/
def isScalable : List Char → Bool
  | '0' :: '_' :: x :: _ => !x.isDigit
  | '0' :: x :: _ => x != '0'
  | _ => true

/-- A number with one of the letters of a base behind its leading zero. -/
def based? (c : Cursor) : Option Cursor :=
  let behind (isDigit : Char → Bool) : Option Cursor :=
    (digits? isDigit (c.skip 2)).map fun d => if d.nextIs (· == 'n') then d.step else d
  match c.rest with
  | '0' :: x :: _ =>
    if x == 'x' || x == 'X' then behind isHexDigit
    else if x == 'b' || x == 'B' then behind fun y => y == '0' || y == '1'
    else if x == 'o' || x == 'O' then behind fun y => '0' ≤ y && y ≤ '7'
    else none
  | _ => none

/-- A number in base ten. -/
def decimal? (c : Cursor) : Option Cursor :=
  match c.rest with
  | '.' :: _ => (digits? Char.isDigit c.step).map skipExponent
  | _ =>
    match digits? Char.isDigit c with
    | none => none
    | some d =>
      if d.nextIs (· == 'n') then some d.step
      else if isScalable c.rest then
        if d.nextIs (· == '.') then
          let e := d.step
          some (skipExponent ((digits? Char.isDigit e).getD e))
        else some (skipExponent d)
      else some d

/-- A number. -/
def number? (c : Cursor) : Option Cursor := based? c <|> decimal? c

/-! ## Strings -/

/-- The octal digits. -/
def isOctalDigit (c : Char) : Bool := '0' ≤ c && c ≤ '7'

/-- An escape inside a string or a template. -/
def escape? (c : Cursor) : Option Cursor :=
  match c.rest with
  | '\\' :: x :: rest =>
    let d := c.skip 2
    if x = 'x' then
      match rest with
      | a :: b :: _ => if isHexDigit a && isHexDigit b then some (d.skip 2) else none
      | _ => none
    else if x = 'u' then nameEscape? c
    else if isOctalDigit x then
      match rest with
      | a :: b :: _ =>
        if isOctalDigit a then some (if isOctalDigit b then d.skip 2 else d.step) else some d
      | [a] => some (if isOctalDigit a then d.step else d)
      | [] => some d
    else if x = '\x00' then none
    else if x = '\r' || x = '?' then
      some (if d.nextIs endsLine then d.step else d)
    else some d
  | _ => none

/-- A character that stands for itself in a string closed by `quote`. -/
def isPlain (quote c : Char) : Bool :=
  !(c == quote || c == '\\' || c == '\r' || c == '\n' || c == '\x00')

/-- The end of a string closed by `quote`, of at most `n` further pieces. A line end is allowed only
in front of the closing quote or of a comment. -/
def stringEnd? (quote : Char) : Nat → Cursor → Option Cursor
  | 0, _ => none
  | n + 1, c =>
    if c.nextIs (isPlain quote) then stringEnd? quote n (c.skipWhile (isPlain quote))
    else if c.nextIs (· == quote) then some c.step
    else if c.nextIs (· == '\\') then
      match escape? c with
      | some d => stringEnd? quote n d
      | none => none
    else
      let d := c.skipWhile isBlank
      if d.nextIs (· == quote) then some d.step
      else match comment? d with
        | some e => stringEnd? quote n e
        | none => none

/-- A string in single or double quotes, of at most `n` pieces. -/
def string? (n : Nat) (c : Cursor) : Option Cursor :=
  match c.rest with
  | '"' :: _ => stringEnd? '"' n c.step
  | '\'' :: _ => stringEnd? '\'' n c.step
  | _ => none

/-! ## Regular expressions -/

/-- A character of a regular expression: behind a backslash, inside a class, or elsewhere. `none`
stands for the end of the pattern in front of the slash that closes it. -/
def patternEnd? : (inClass escaped : Bool) → Nat → List Char → Option Cursor
  | _, _, _, [] => none
  | inClass, escaped, o, x :: xs =>
    if x = '\n' || x = '\x00' then none
    else if escaped then patternEnd? inClass false (o + x.utf8Size) xs
    else if x = '\\' then patternEnd? inClass true (o + 1) xs
    else if inClass then patternEnd? (x != ']') false (o + x.utf8Size) xs
    else if x = '/' then some ⟨o + 1, xs⟩
    else patternEnd? (x == '[') false (o + x.utf8Size) xs

/-- Moves over the flags of a regular expression, which a comment may precede. -/
def skipFlags (c : Cursor) : Cursor :=
  match comment? (c.skipWhile fun x => isBlank x && !endsLine x) with
  | some d => if d.nextIs Char.isLower then d.skipWhile Char.isLower else c
  | none => c.skipWhile Char.isLower

/-- A regular expression with its flags. Its pattern is not empty. -/
def regex? (c : Cursor) : Option Cursor :=
  match c.rest with
  | '/' :: '/' :: _ => none
  | '/' :: rest => (patternEnd? false false (c.offset + 1) rest).map skipFlags
  | _ => none

end WasmEmbed.Script.Token
