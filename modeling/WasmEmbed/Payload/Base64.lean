import WasmEmbed.Text.Escape

/-!
# Base64 text

`encode` writes bytes as Base64 text with the standard alphabet, with padding and without line ends.
`decode` reads such text strictly and says why it refuses. It accepts a little more than `encode`
writes: bits of the last letter that no byte needs are ignored, and so is padding behind a whole
number of groups.
-/

namespace WasmEmbed.Payload.Base64

/-! ## The alphabet -/

/-- The letter that stands for a number below 64. -/
def letter (v : Nat) : Char :=
  if v < 26 then Char.ofNat ('A'.toNat + v)
  else if v < 52 then Char.ofNat ('a'.toNat + (v - 26))
  else if v < 62 then Char.ofNat ('0'.toNat + (v - 52))
  else if v = 62 then '+'
  else '/'

/-- The number that a letter stands for. -/
def value? (c : Char) : Option Nat :=
  if 'A' ≤ c && c ≤ 'Z' then some (c.toNat - 'A'.toNat)
  else if 'a' ≤ c && c ≤ 'z' then some (c.toNat - 'a'.toNat + 26)
  else if '0' ≤ c && c ≤ '9' then some (c.toNat - '0'.toNat + 52)
  else if c = '+' then some 62
  else if c = '/' then some 63
  else none

/-- The character that fills the last group. -/
def pad : Char := '='

/-- Whether a character may occur in Base64 text. -/
def isAllowed (c : Char) : Bool := c == pad || (value? c).isSome

/-! ## Writing -/

/-- The text of `bytes` in front of `done`, all of it backwards. -/
def encodeOnto (done : List Char) : List UInt8 → List Char
  | a :: b :: c :: rest =>
    let n := a.toNat * 65536 + b.toNat * 256 + c.toNat
    encodeOnto (letter (n % 64) :: letter (n / 64 % 64) :: letter (n / 4096 % 64) ::
      letter (n / 262144) :: done) rest
  | [a, b] =>
    let n := a.toNat * 256 + b.toNat
    pad :: letter (n * 4 % 64) :: letter (n / 16 % 64) :: letter (n / 1024) :: done
  | [a] => pad :: pad :: letter (a.toNat * 16 % 64) :: letter (a.toNat / 4) :: done
  | [] => done

/-- The Base64 text of bytes. -/
def encode (bytes : List UInt8) : List Char := (encodeOnto [] bytes).reverse

/-! ## Reading -/

/-- Why a text is no Base64 text. -/
inductive Error where
  /-- The characters from position `first` to position `last` lie outside ASCII; `char` is the first
  of them. -/
  | outsideAscii (char : Char) (first last : Nat)
  /-- The text begins with padding. -/
  | leadingPadding
  /-- Text follows the padding that ends the last group. -/
  | textBehindPadding
  /-- A character is no letter of the alphabet. -/
  | foreignCharacter
  /-- A letter follows padding. -/
  | letterBehindPadding
  /-- The last of these letters stands alone in its group. -/
  | loneLetter (letters : Nat)
  /-- The last group lacks padding. -/
  | missingPadding
  deriving Repr, DecidableEq

namespace Error

/-- The text of an error. -/
def message : Error → String
  | outsideAscii char first last =>
    let found :=
      if first = last then s!"character '{String.ofList (Text.escape char)}' in position {first}"
      else s!"characters in position {first}-{last}"
    s!"'ascii' codec can't encode {found}: ordinal not in range(128)"
  | leadingPadding => "Leading padding not allowed"
  | textBehindPadding => "Excess data after padding"
  | foreignCharacter => "Only base64 data is allowed"
  | letterBehindPadding => "Discontinuous padding not allowed"
  | loneLetter letters =>
    s!"Invalid base64-encoded string: number of data characters ({letters}) " ++
      "cannot be 1 more than a multiple of 4"
  | missingPadding => "Incorrect padding"

end Error

/-- Whether a character lies in ASCII. -/
def isAscii (c : Char) : Bool := c.toNat < 128

/-- The first run of characters outside ASCII, in a text that begins at position `n`. -/
def outsideAscii? (n : Nat) : List Char → Option Error
  | [] => none
  | c :: rest =>
    if isAscii c then outsideAscii? (n + 1) rest
    else some (.outsideAscii c n (n + (rest.takeWhile fun x => !isAscii x).length))

/-- How far a text was read. -/
structure Progress where
  /-- The number of letters of the group that is being read. -/
  position : Nat
  /-- The bits of these letters that no byte has taken. -/
  held : Nat
  /-- Whether padding was read. -/
  padded : Bool
  /-- The padding characters that count towards the group. -/
  pads : Nat
  /-- The bytes read, the last first. -/
  bytes : List UInt8
  deriving Repr, DecidableEq

namespace Progress

/-- Before the first character. -/
def start : Progress := ⟨0, 0, false, 0, []⟩

/-- Reads a letter with the number `v`. -/
def letter (p : Progress) (v : Nat) : Progress :=
  match p.position with
  | 0 => { p with position := 1, held := v }
  | 1 => { p with position := 2, held := v % 16, bytes := UInt8.ofNat (p.held * 4 + v / 16) :: p.bytes }
  | 2 => { p with position := 3, held := v % 4, bytes := UInt8.ofNat (p.held * 16 + v / 4) :: p.bytes }
  | _ => { p with position := 0, held := 0, bytes := UInt8.ofNat (p.held * 64 + v) :: p.bytes }

/-- The answer at the end of the text. -/
def finish (p : Progress) : Except Error (List UInt8) :=
  if p.position = 0 then .ok p.bytes.reverse
  else if p.position = 1 then .error (.loneLetter (p.bytes.length / 3 * 4 + 1))
  else .error .missingPadding

end Progress

/-- Reads on to the end of the text. -/
def readOn (p : Progress) : List Char → Except Error (List UInt8)
  | [] => p.finish
  | c :: rest =>
    if c = pad then
      if p.position < 2 then readOn { p with padded := true } rest
      else if p.position + p.pads + 1 < 4 then
        readOn { p with padded := true, pads := p.pads + 1 } rest
      else if rest.isEmpty then .ok p.bytes.reverse
      else .error .textBehindPadding
    else
      match value? c with
      | none => .error .foreignCharacter
      | some v => if p.padded then .error .letterBehindPadding else readOn (p.letter v) rest

/-- The bytes of a Base64 text. -/
def decode (text : List Char) : Except Error (List UInt8) :=
  match outsideAscii? 0 text with
  | some e => .error e
  | none => if text.head? = some pad then .error .leadingPadding else readOn .start text

end WasmEmbed.Payload.Base64
