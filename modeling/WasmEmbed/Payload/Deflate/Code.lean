import WasmEmbed.Payload.Bits

/-!
# Codes

A code gives each symbol a codeword, and no codeword begins another. It is determined by the lengths of
the codewords: shorter ones come first, and among those of one length the order is that of the symbols.
A symbol of length zero has no codeword.

`codeword` writes a symbol, and a `Codebook` reads one.
-/

namespace WasmEmbed.Payload.Deflate

/-- The longest codeword. -/
def maxCodeLength : Nat := 15

/-! ## Codewords -/

/-- The lengths of the codewords of the symbols 0, 1, 2, … -/
abbrev Lengths := List Nat

namespace Lengths

/-- The part of all codewords that begin with a codeword of some length, in units of the longest
codewords. -/
def share (length : Nat) : Nat := if length = 0 then 0 else 1 <<< (maxCodeLength - length)

/-- The part of all codewords that begin with a codeword of the code. -/
def total (lengths : Lengths) : Nat := lengths.foldr (fun l sum => share l + sum) 0

/-- Whether no further codeword could be added, and none has to be left out. -/
def isComplete (lengths : Lengths) : Bool :=
  lengths.all (· ≤ maxCodeLength) && lengths.total == 1 <<< maxCodeLength

/-- The number that a codeword of some length is, if the symbols in front of it have the lengths
`before` and the whole code the lengths `all`. -/
def number (all before : Lengths) (length : Nat) : Nat :=
  all.foldr (fun l sum => (if 0 < l && l < length then 1 <<< (length - l) else 0) + sum)
    (before.count length)

/-- The bits of a codeword, the one of most weight first. -/
def word (length number : Nat) : Bits := (Bits.ofNat length number).reverse

/-- The codewords of the symbols whose lengths are `rest`, where the symbols in front of them have the
lengths `before`. -/
def codewordsFrom (all : Lengths) (before : Lengths) : Lengths → List Bits
  | [] => []
  | l :: rest => word l (number all before l) :: codewordsFrom all (before ++ [l]) rest

/-- The codewords of the symbols 0, 1, 2, … -/
def codewords (lengths : Lengths) : List Bits := codewordsFrom lengths [] lengths

end Lengths

/-! ## Codebooks -/

/-- Reads codewords bit by bit: a symbol, a fork that asks for one more bit, or nothing. -/
inductive Codebook where
  | vacant
  | symbol (s : Nat)
  | fork (zero one : Codebook)
  deriving Repr, DecidableEq

namespace Codebook

/-- The codebook with one more codeword. -/
def insert (s : Nat) : Bits → Codebook → Codebook
  | [], _ => symbol s
  | b :: bits, fork zero one =>
    if b then fork zero (insert s bits one) else fork (insert s bits zero) one
  | b :: bits, _ =>
    if b then fork vacant (insert s bits vacant) else fork (insert s bits vacant) vacant

/-- Adds the codewords of the symbols from `s` on; an empty codeword stands for none. -/
def insertAll (book : Codebook) (s : Nat) : List Bits → Codebook
  | [] => book
  | w :: words => insertAll (if w.isEmpty then book else book.insert s w) (s + 1) words

/-- The codebook of a code. It asks for a bit even if there is no codeword. -/
def ofLengths (lengths : Lengths) : Codebook :=
  insertAll (fork vacant vacant) 0 lengths.codewords

end Codebook

end WasmEmbed.Payload.Deflate
