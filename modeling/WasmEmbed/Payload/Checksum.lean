/-!
# The checksum of compressed data

The Adler checksum of bytes is a pair of sums modulo the largest prime below 2 ^ 16: of the bytes,
and of the first sum after each byte.
-/

namespace WasmEmbed.Payload

/-- The two sums of an Adler checksum. -/
structure Checksum where
  low : Nat
  high : Nat
  deriving Repr, DecidableEq

namespace Checksum

/-- The largest prime below 2 ^ 16. -/
def modulus : Nat := 65521

/-- The checksum with one more byte. -/
def add (s : Checksum) (b : UInt8) : Checksum :=
  let low := (s.low + b.toNat) % modulus
  ⟨low, (s.high + low) % modulus⟩

/-- The checksum of bytes. -/
def of (bytes : List UInt8) : Checksum := bytes.foldl add ⟨1, 0⟩

/-- The checksum as it is stored: four bytes, the one of most weight first. -/
def toBytes (s : Checksum) : List UInt8 :=
  [UInt8.ofNat (s.high / 256), UInt8.ofNat (s.high % 256),
    UInt8.ofNat (s.low / 256), UInt8.ofNat (s.low % 256)]

end Checksum

end WasmEmbed.Payload
