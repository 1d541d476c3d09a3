/-!
# Strings of bits

Compressed data is a string of bits. A byte holds eight of them, the one of least weight first, and a
number is written with its bit of least weight first as well. `ofBytes` and `toBytes` go between bytes
and bits; the last byte is filled up with zeros.
-/

namespace WasmEmbed.Payload

/-- A string of bits. -/
abbrev Bits := List Bool

namespace Bits

/-- The `count` bits of a number, the one of least weight first. -/
def ofNat : (count value : Nat) → Bits
  | 0, _ => []
  | k + 1, v => (v % 2 == 1) :: ofNat k (v / 2)

/-- The number that bits stand for, the one of least weight first. -/
def toNat : Bits → Nat
  | [] => 0
  | b :: bits => b.toNat + 2 * toNat bits

/-- The bits of bytes. -/
def ofBytes (bytes : List UInt8) : Bits := bytes.flatMap fun b => ofNat 8 b.toNat

/-- The bytes in front of `done`, the last first. -/
def toBytesOnto (done : List UInt8) : Bits → List UInt8
  | a :: b :: c :: d :: e :: f :: g :: h :: rest =>
    toBytesOnto (UInt8.ofNat (toNat [a, b, c, d, e, f, g, h]) :: done) rest
  | [] => done
  | bits => UInt8.ofNat (toNat bits) :: done

/-- The bytes that hold the bits; the last is filled up with zeros. -/
def toBytes (bits : Bits) : List UInt8 := (toBytesOnto [] bits).reverse

/-- The zeros that lead from behind `count` bits to the next whole byte. -/
def filling (count : Nat) : Bits := List.replicate ((8 - count % 8) % 8) false

end Bits

end WasmEmbed.Payload
