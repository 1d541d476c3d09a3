import WasmEmbed.Script.Blank

/-!
# Where a statement ends without a written semicolon

Between two tokens at which a statement could end, `Semicolon.seek` decides whether it does. It
walks over the blanks and comments behind the last token, first on the line of that token and then
beyond the first line end, and looks at the character it comes to.

* At the end of the text, and in front of a closing brace on the line of the last token, the
  statement ends.
* On the line of the last token any other character refuses, except that a comment may stand for the
  line end where no operator could follow the last token (`operand = true`).
* Beyond a line end the statement ends unless the next character continues an expression: an
  operator, an opening bracket, a separator, or one of the words `in` and `instanceof`.

The walk is a machine that takes one character at a time (`Semicolon.Place` is where it stands), so
the verdict depends on the remaining text only.
-/

namespace WasmEmbed.Script.Semicolon

/-- The answer of the search. A refusal says whether a comment was passed and where the search
stopped. -/
inductive Verdict where
  | ends
  | goesOn (comment : Bool) (stopped : Cursor)
  deriving Repr, DecidableEq

/-- What a walk over blanks and comments stands in: between comments, behind the slash that may open
one, in a line comment, in a block comment, or behind a star in a block comment. -/
inductive Within where
  | blanks
  | slash
  | line
  | block
  | star
  deriving Repr, DecidableEq

/-- Where the search stands: on the line of the last token, in the comments that begin on that line
(`newline`: a block comment has held a line end), or in the blanks and comments beyond it. -/
inductive Place where
  | sameLine
  | comments (within : Within) (newline : Bool)
  | beyond (within : Within)
  deriving Repr, DecidableEq

/-- A letter, for the purpose of telling `in` from the beginning of a longer word. -/
def isLetter (c : Char) : Bool :=
  c.isAlpha || (0x80 ≤ c.toNat && isWordPart c)

/-- The verdict on a word that begins with `i`: the words `in` and `instanceof` go on. -/
def onWord (comment : Bool) (c : Cursor) : Verdict :=
  match c.dropWord? "in".toList with
  | none => .ends
  | some d =>
    if d.nextIs isLetter then
      match d.dropWord? "stanceof".toList with
      | none => .ends
      | some e => if e.nextIs isLetter then .ends else .goesOn comment e
    else .goesOn comment d

/-- The characters that continue an expression over a line end whatever follows them. -/
def isContinuation (c : Char) : Bool :=
  "`,:;*%><=[(?^|&/".toList.contains c

/-- The verdict on the first character beyond the blanks and comments that hold a line end. A point
continues unless it begins a number, a sign continues unless it is doubled, and an exclamation mark
continues only as part of an inequality. -/
def afterLineEnd (comment : Bool) (c : Cursor) : Verdict :=
  match c.rest with
  | [] => .ends
  | x :: _ =>
    if isContinuation x then .goesOn comment c
    else if x = '.' then if c.step.nextIs Char.isDigit then .ends else .goesOn comment c.step
    else if x = '+' || x = '-' then
      if c.step.nextIs (· == x) then .ends else .goesOn comment c.step
    else if x = '!' then if c.step.nextIs (· == '=') then .goesOn comment c.step else .ends
    else if x = 'i' then onWord comment c
    else .ends

/-- A blank or comment walk that has come to its end on the line of the last token. `accepted` says
that it passed a line end or a line comment; then the statement ends if no operator could follow,
unless a comma or an equals sign comes next. Otherwise the answer is `none` if the character at `c`
is passed over, with the place behind it. -/
def settle (operand accepted comment : Bool) (c : Cursor) : Place ⊕ Verdict :=
  if accepted && operand && !c.nextIs (fun x => x == ',' || x == '=') then .inr .ends
  else match c.rest with
    | [] => .inr (.goesOn comment c)
    | x :: _ =>
      if x = '\x7d' then .inr .ends
      else if endsLine x then .inl (.beyond .blanks)
      else if isMargin x then .inl .sameLine
      else .inr (.goesOn comment c)

/-- What one step of the search finds at a character: the place behind it, with the flags for a
comment passed, or the verdict. -/
def onChar (operand comment : Bool) (c : Cursor) (x : Char) : Place → (Bool × Place) ⊕ Verdict
  | .sameLine =>
    if x = '\x00' || x = '\x7d' then .inr .ends
    else if x = '/' then .inl (comment, .comments .slash false)
    else if endsLine x then .inl (comment, .beyond .blanks)
    else if isMargin x then .inl (comment, .sameLine)
    else .inr (.goesOn comment c)
  | .comments .blanks newline =>
    if isMargin x then .inl (comment, .comments .blanks newline)
    else if x = '/' then .inl (comment, .comments .slash newline)
    else settled comment true
  | .comments .slash newline =>
    if x = '/' then .inl (comment, .comments .line newline)
    else if x = '*' then .inl (comment, .comments .block newline)
    else .inr (.goesOn comment c)
  | .comments .line newline =>
    if endsLine x then .inl (true, .comments .blanks newline)
    else if x = '\x00' then settled true true
    else .inl (comment, .comments .line newline)
  | .comments .block newline => inBlock newline
  | .comments .star newline =>
    if x = '/' then
      if c.step.nextIs (· == '/') then .inl (true, .comments .blanks newline)
      else match settle operand newline true c.step with
        | .inr verdict => .inr verdict
        | .inl _ => .inl (true, .sameLine)
    else inBlock newline
  | .beyond .blanks =>
    if isMargin x then .inl (comment, .beyond .blanks)
    else if x = '/' then .inl (comment, .beyond .slash)
    else .inr (afterLineEnd comment c)
  | .beyond .slash =>
    if x = '/' then .inl (comment, .beyond .line)
    else if x = '*' then .inl (comment, .beyond .block)
    else .inr (.goesOn comment c)
  | .beyond .line =>
    if endsLine x then .inl (true, .beyond .blanks)
    else if x = '\x00' then .inr .ends
    else .inl (comment, .beyond .line)
  | .beyond .block =>
    if x = '\x00' then .inr .ends
    else if x = '*' then .inl (comment, .beyond .star) else .inl (comment, .beyond .block)
  | .beyond .star =>
    if x = '/' then .inl (true, .beyond .blanks)
    else if x = '\x00' then .inr .ends
    else if x = '*' then .inl (comment, .beyond .star) else .inl (comment, .beyond .block)
where
  /-- The walk ends in front of `x`. -/
  settled (seen accepted : Bool) : (Bool × Place) ⊕ Verdict :=
    match settle operand accepted seen c with
    | .inr verdict => .inr verdict
    | .inl place => .inl (seen, place)
  /-- The character `x` inside a block comment. -/
  inBlock (newline : Bool) : (Bool × Place) ⊕ Verdict :=
    if x = '\x00' then settled comment true
    else if x = '*' then .inl (comment, .comments .star newline)
    else .inl (comment, .comments .block (newline || endsLine x))

/-- The verdict at the end of the text. -/
def atEnd (operand comment : Bool) (c : Cursor) : Place → Verdict
  | .sameLine => .ends
  | .comments .slash _ => .goesOn comment c
  | .comments .line _ => if operand then .ends else .goesOn true c
  | .comments _ _ => if operand then .ends else .goesOn comment c
  | .beyond .slash => .goesOn comment c
  | .beyond _ => .ends

/-- The search from a place, `o` bytes into the script. -/
def seekFrom (operand : Bool) : Bool → Place → Nat → List Char → Verdict
  | comment, place, o, [] => atEnd operand comment ⟨o, []⟩ place
  | comment, place, o, x :: xs =>
    match onChar operand comment ⟨o, x :: xs⟩ x place with
    | .inr verdict => verdict
    | .inl (comment, place) => seekFrom operand comment place (o + x.utf8Size) xs

/-- Whether a statement ends between the token before `c` and the text behind it. `operand` says
that no operator could follow that token. -/
def seek (operand : Bool) (c : Cursor) : Verdict :=
  seekFrom operand false .sameLine c.offset c.rest

end WasmEmbed.Script.Semicolon
