/-!
# Tokens of compressed data

Compressed data says its bytes one after the other, or as a copy of bytes that came before. `expand`
is the meaning of a list of tokens.

A length and a distance are written as the number of a range that holds them, followed by their place
in the range in some extra bits.
-/

namespace WasmEmbed.Payload.Deflate

/-- A byte that is said, or a number of bytes that came `distance` bytes before. -/
inductive Token where
  | literal (byte : UInt8)
  | copy (length distance : Nat)
  deriving Repr, DecidableEq

namespace Token

/-- The number of bytes that a token stands for. -/
def size : Token → Nat
  | literal _ => 1
  | copy length _ => length

end Token

/-- Appends `length` bytes, each equal to the byte `distance` places in front of it. -/
def copyWithin (distance : Nat) : Nat → Array UInt8 → Array UInt8
  | 0, out => out
  | k + 1, out => copyWithin distance k (out.push (out.getD (out.size - distance) 0))

/-- Appends the bytes of a token. -/
def Token.appendTo (out : Array UInt8) : Token → Array UInt8
  | literal byte => out.push byte
  | copy length distance => copyWithin distance length out

/-- The bytes that a list of tokens stands for. -/
def expand (tokens : List Token) : List UInt8 := (tokens.foldl Token.appendTo #[]).toList

/-! ## Ranges -/

/-- A range of numbers: from `base`, as many as `extra` bits can tell apart. -/
structure Range where
  base : Nat
  extra : Nat
  deriving Repr, DecidableEq

/-- The ranges of lengths. The longest length has a range of its own. -/
def lengthRanges : List Range :=
  [⟨3, 0⟩, ⟨4, 0⟩, ⟨5, 0⟩, ⟨6, 0⟩, ⟨7, 0⟩, ⟨8, 0⟩, ⟨9, 0⟩, ⟨10, 0⟩,
    ⟨11, 1⟩, ⟨13, 1⟩, ⟨15, 1⟩, ⟨17, 1⟩, ⟨19, 2⟩, ⟨23, 2⟩, ⟨27, 2⟩, ⟨31, 2⟩,
    ⟨35, 3⟩, ⟨43, 3⟩, ⟨51, 3⟩, ⟨59, 3⟩, ⟨67, 4⟩, ⟨83, 4⟩, ⟨99, 4⟩, ⟨115, 4⟩,
    ⟨131, 5⟩, ⟨163, 5⟩, ⟨195, 5⟩, ⟨227, 5⟩, ⟨258, 0⟩]

/-- The ranges of distances. -/
def distanceRanges : List Range :=
  [⟨1, 0⟩, ⟨2, 0⟩, ⟨3, 0⟩, ⟨4, 0⟩, ⟨5, 1⟩, ⟨7, 1⟩, ⟨9, 2⟩, ⟨13, 2⟩, ⟨17, 3⟩, ⟨25, 3⟩,
    ⟨33, 4⟩, ⟨49, 4⟩, ⟨65, 5⟩, ⟨97, 5⟩, ⟨129, 6⟩, ⟨193, 6⟩, ⟨257, 7⟩, ⟨385, 7⟩,
    ⟨513, 8⟩, ⟨769, 8⟩, ⟨1025, 9⟩, ⟨1537, 9⟩, ⟨2049, 10⟩, ⟨3073, 10⟩,
    ⟨4097, 11⟩, ⟨6145, 11⟩, ⟨8193, 12⟩, ⟨12289, 12⟩, ⟨16385, 13⟩, ⟨24577, 13⟩]

/-- A number as the range that holds it, how many extra bits follow, and what they say. -/
structure Place where
  index : Nat
  extra : Nat
  rest : Nat
  deriving Repr, DecidableEq

/-- The place of a number: the last range that begins at or below it. The first range counted is
number `index`. -/
def placeFrom (index v : Nat) : List Range → Place
  | [] => ⟨0, 0, 0⟩
  | [r] => ⟨index, r.extra, v - r.base⟩
  | r :: s :: rest =>
    if s.base ≤ v then placeFrom (index + 1) v (s :: rest) else ⟨index, r.extra, v - r.base⟩

/-- The place of a length. -/
def lengthPlace (length : Nat) : Place := placeFrom 0 length lengthRanges

/-- The place of a distance. -/
def distancePlace (distance : Nat) : Place := placeFrom 0 distance distanceRanges

/-- The symbol that ends a block. The symbols below it are bytes, those above it lengths. -/
def endSymbol : Nat := 256

/-- The symbol of a range of lengths. -/
def lengthSymbol (index : Nat) : Nat := endSymbol + 1 + index

end WasmEmbed.Payload.Deflate
