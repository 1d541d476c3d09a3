/-!
# Escapes

How a character is written that cannot stand for itself in a message: by its code point in base
sixteen, with two, four or eight digits.
-/

namespace WasmEmbed.Text

/-- The digits of a number in base sixteen, at least `width` of them. -/
def hexadecimal (width n : Nat) : List Char :=
  let digits := Nat.toDigits 16 n
  List.replicate (width - digits.length) '0' ++ digits

/-- The escape that stands for a character. -/
def escape (c : Char) : List Char :=
  if c.toNat < 0x100 then '\\' :: 'x' :: hexadecimal 2 c.toNat
  else if c.toNat < 0x10000 then '\\' :: 'u' :: hexadecimal 4 c.toNat
  else '\\' :: 'U' :: hexadecimal 8 c.toNat

end WasmEmbed.Text
