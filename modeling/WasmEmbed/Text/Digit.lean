/-!
# Decimal digits

The decimal digits of all scripts in version 14 of the standard. Each script has ten of them in a row,
so a digit is known by the zero in front of it. `number?` reads a whole text of digits, and
`integer?` one that may have a sign, blanks around it and underscores inside.
-/

namespace WasmEmbed.Text

/-- The code points of the zeros, in order. -/
def zeros : List Nat :=
  [0x30, 0x660, 0x6f0, 0x7c0, 0x966, 0x9e6, 0xa66, 0xae6, 0xb66, 0xbe6, 0xc66, 0xce6, 0xd66, 0xde6,
    0xe50, 0xed0, 0xf20, 0x1040, 0x1090, 0x17e0, 0x1810, 0x1946, 0x19d0, 0x1a80, 0x1a90, 0x1b50,
    0x1bb0, 0x1c40, 0x1c50, 0xa620, 0xa8d0, 0xa900, 0xa9d0, 0xa9f0, 0xaa50, 0xabf0, 0xff10,
    0x104a0, 0x10d30, 0x11066, 0x110f0, 0x11136, 0x111d0, 0x112f0, 0x11450, 0x114d0, 0x11650,
    0x116c0, 0x11730, 0x118e0, 0x11950, 0x11c50, 0x11d50, 0x11da0, 0x16a60, 0x16ac0, 0x16b50,
    0x1d7ce, 0x1d7d8, 0x1d7e2, 0x1d7ec, 0x1d7f6, 0x1e140, 0x1e2f0, 0x1e950, 0x1fbf0]

/-- The number that a decimal digit of some script stands for. -/
def digit? (c : Char) : Option Nat :=
  (zeros.find? fun z => z ≤ c.toNat && c.toNat < z + 10).map fun z => c.toNat - z

/-- The number that decimal digits stand for behind digits that stand for `n`. -/
def numberFrom? (n : Nat) : List Char → Option Nat
  | [] => some n
  | c :: rest =>
    match digit? c with
    | some d => numberFrom? (n * 10 + d) rest
    | none => none

/-- The number that a text of one or more decimal digits stands for. -/
def number? (text : List Char) : Option Nat :=
  if text.isEmpty then none else numberFrom? 0 text

/-! ## Integers -/

/-- The blanks that may stand around an integer. -/
def isMarginBlank (c : Char) : Bool :=
  let n := c.toNat
  (9 ≤ n && n ≤ 13) || n == 0x20 || n == 0x85 || n == 0xa0 || n == 0x1680 ||
    (0x2000 ≤ n && n ≤ 0x200a) || n == 0x2028 || n == 0x2029 || n == 0x202f || n == 0x205f ||
    n == 0x3000

/-- The digits of a text in which single underscores may stand between digits. -/
def joined? : List Char → Option (List Char)
  | [] => none
  | [c] => if c = '_' then none else some [c]
  | c :: '_' :: rest => if c = '_' then none else (joined? rest).map (c :: ·)
  | c :: rest => if c = '_' then none else (joined? rest).map (c :: ·)

/-- The most digits that an integer may have. -/
def maxDigits : Nat := 4300

/-- The number that a text of digits and underscores stands for. -/
def magnitude? (text : List Char) : Option Nat := do
  let digits ← joined? text
  if digits.length ≤ maxDigits then number? digits else none

/-- The integer that a text stands for. -/
def integer? (text : List Char) : Option Int :=
  let inner := ((text.dropWhile isMarginBlank).reverse.dropWhile isMarginBlank).reverse
  match inner with
  | '-' :: rest => (magnitude? rest).map fun n => -(n : Int)
  | '+' :: rest => (magnitude? rest).map fun n => (n : Int)
  | rest => (magnitude? rest).map fun n => (n : Int)

end WasmEmbed.Text
