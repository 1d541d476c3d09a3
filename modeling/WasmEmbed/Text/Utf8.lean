import WasmEmbed.Text.Escape

/-!
# UTF-8

`encode` writes text as bytes. `decode` reads bytes as text, or says where the first bytes stand that
are no part of any text: they reach as far as the bytes could still have begun a character.
-/

namespace WasmEmbed.Text.Utf8

/-- The bytes of a text. -/
def encode (text : List Char) : List UInt8 := text.flatMap String.utf8EncodeChar

/-! ## Errors -/

/-- What is wrong with bytes. -/
inductive Fault where
  /-- No character begins with this byte. -/
  | start
  /-- The next byte does not go on with the character. -/
  | continuation
  /-- The bytes end inside a character. -/
  | ending
  deriving Repr, DecidableEq

/-- The text that names a fault. -/
def Fault.message : Fault → String
  | start => "invalid start byte"
  | continuation => "invalid continuation byte"
  | ending => "unexpected end of data"

/-- Bytes that are no part of any text: the first of them, its position, and how many follow it. -/
structure Error where
  fault : Fault
  byte : UInt8
  position : Nat
  others : Nat
  deriving Repr, DecidableEq

/-- The text of an error. -/
def Error.message (e : Error) : String :=
  let found :=
    if e.others = 0 then
      s!"byte 0x{String.ofList (hexadecimal 2 e.byte.toNat)} in position {e.position}"
    else s!"bytes in position {e.position}-{e.position + e.others}"
  s!"'utf-8' codec can't decode {found}: {e.fault.message}"

/-! ## Reading -/

/-- What the first byte of a character says: the bits of the code point that it holds, the least and
the greatest second byte, and how many bytes follow it. -/
structure Lead where
  bits : Nat
  low : Nat
  high : Nat
  count : Nat
  deriving Repr, DecidableEq

/-- What the first byte of a character says, if a character may begin with it. -/
def lead? (b : UInt8) : Option Lead :=
  let n := b.toNat
  if n < 0x80 then some ⟨n, 0, 0, 0⟩
  else if n < 0xc2 then none
  else if n < 0xe0 then some ⟨n - 0xc0, 0x80, 0xbf, 1⟩
  else if n = 0xe0 then some ⟨n - 0xe0, 0xa0, 0xbf, 2⟩
  else if n = 0xed then some ⟨n - 0xe0, 0x80, 0x9f, 2⟩
  else if n < 0xf0 then some ⟨n - 0xe0, 0x80, 0xbf, 2⟩
  else if n = 0xf0 then some ⟨n - 0xf0, 0x90, 0xbf, 3⟩
  else if n < 0xf4 then some ⟨n - 0xf0, 0x80, 0xbf, 3⟩
  else if n = 0xf4 then some ⟨n - 0xf0, 0x80, 0x8f, 3⟩
  else none

/-- The bytes of a character behind the first. The answer is the code point and the other bytes, or how
many bytes were right and what is wrong with the next. -/
def tail (low high : Nat) : (count n right : Nat) → List UInt8 → Except (Nat × Fault) (Nat × List UInt8)
  | 0, n, _, bytes => .ok (n, bytes)
  | _ + 1, _, right, [] => .error (right, .ending)
  | k + 1, n, right, b :: bytes =>
    if low ≤ b.toNat && b.toNat ≤ high then
      tail 0x80 0xbf k (n * 64 + (b.toNat - 0x80)) (right + 1) bytes
    else .error (right, .continuation)

/-- Reads on from a position to the end, at most `k` characters; `done` is the text so far, the last
character first. -/
def decodeFrom (done : List Char) (position : Nat) : Nat → List UInt8 → Except Error (List Char)
  | _, [] => .ok done.reverse
  | 0, _ => .ok done.reverse
  | k + 1, b :: bytes =>
    match lead? b with
    | none => .error ⟨.start, b, position, 0⟩
    | some l =>
      match tail l.low l.high l.count l.bits 0 bytes with
      | .error (right, fault) => .error ⟨fault, b, position, right⟩
      | .ok (n, rest) => decodeFrom (Char.ofNat n :: done) (position + l.count + 1) k rest

/-- The text of bytes. -/
def decode (bytes : List UInt8) : Except Error (List Char) := decodeFrom [] 0 bytes.length bytes

end WasmEmbed.Text.Utf8
