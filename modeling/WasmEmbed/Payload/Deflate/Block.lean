import WasmEmbed.Payload.Deflate.Huffman
import WasmEmbed.Payload.Deflate.Repeat
import WasmEmbed.Payload.Deflate.Token

/-!
# Blocks

Tokens are written in blocks. A block is stored, which says its bytes as they are; or it uses the fixed
code; or it uses a code that was chosen for it and that stands in front of it. `Block.bits` takes the
shortest of the three. In front of the tokens of a block stand three bits: whether the block is the
last, and its form.
-/

namespace WasmEmbed.Payload.Deflate

/-! ## Codes of a block -/

/-- A code for bytes and lengths and a code for distances. -/
structure CodePair where
  symbols : Lengths
  distances : Lengths
  deriving Repr, DecidableEq

/-- The number of symbols for bytes and lengths. -/
def symbolCount : Nat := 286

/-- The number of symbols for distances. -/
def distanceCount : Nat := 30

/-- The codes that need not be written. They have codewords for a few symbols that do not exist. -/
def CodePair.fixed : CodePair where
  symbols := List.replicate 144 8 ++ List.replicate 112 9 ++ List.replicate 24 7 ++ List.replicate 8 8
  distances := List.replicate 32 5

/-- How often each symbol occurs. -/
structure Census where
  symbols : Array Nat
  distances : Array Nat

namespace Census

/-- Counts a token. -/
def add (c : Census) : Token → Census
  | .literal byte => { c with symbols := c.symbols.modify byte.toNat (· + 1) }
  | .copy length distance =>
    { symbols := c.symbols.modify (lengthSymbol (lengthPlace length).index) (· + 1)
      distances := c.distances.modify (distancePlace distance).index (· + 1) }

/-- Counts the tokens of a block and its end. -/
def of (tokens : List Token) : Census :=
  tokens.foldl add
    ⟨(Array.replicate symbolCount 0).setIfInBounds endSymbol 1, Array.replicate distanceCount 0⟩

/-- The codes in which the tokens take the least space. -/
def codes (c : Census) : CodePair :=
  ⟨Huffman.lengths maxCodeLength c.symbols, Huffman.lengths maxCodeLength c.distances⟩

/-- The bits that the codewords and the extra bits of `weights` symbols take, where the ranges give the
extra bits of the symbols from `first` on. -/
def weigh (weights : Array Nat) (lengths : Lengths) (first : Nat) (ranges : List Range) : Nat :=
  let extras := List.replicate first 0 ++ ranges.map Range.extra
  ((weights.toList.zip lengths).zip extras).foldl (fun sum ((w, l), e) => sum + w * (l + e)) 0

/-- The bits that the tokens and the end of the block take. -/
def size (c : Census) (codes : CodePair) : Nat :=
  weigh c.symbols codes.symbols (endSymbol + 1) lengthRanges +
    weigh c.distances codes.distances 0 distanceRanges

end Census

/-! ## Tokens in a code -/

/-- The codewords of a pair of codes. -/
structure Codewords where
  symbols : Array Bits
  distances : Array Bits

/-- The codewords of a pair of codes. -/
def CodePair.codewords (codes : CodePair) : Codewords :=
  ⟨codes.symbols.codewords.toArray, codes.distances.codewords.toArray⟩

namespace Codewords

/-- The bits of a token. -/
def token (w : Codewords) : Token → Bits
  | .literal byte => w.symbols.getD byte.toNat []
  | .copy length distance =>
    let l := lengthPlace length
    let d := distancePlace distance
    w.symbols.getD (lengthSymbol l.index) [] ++ Bits.ofNat l.extra l.rest ++
      w.distances.getD d.index [] ++ Bits.ofNat d.extra d.rest

/-- The bits of tokens and of the end of their block. -/
def tokens (w : Codewords) (tokens : List Token) : Bits :=
  tokens.flatMap w.token ++ w.symbols.getD endSymbol []

end Codewords

/-! ## Codes in front of a block -/

/-- The order in which the lengths of the code for lengths are written. -/
def lengthOrder : List Nat :=
  [16, 17, 18, 0, 8, 7, 9, 6, 10, 5, 11, 4, 12, 3, 13, 2, 14, 1, 15]

/-- The description of two codes: what is written of their lengths, and in which code. -/
structure Description where
  codes : CodePair
  steps : List Step
  stepCode : Lengths

namespace Description

/-- The longest codeword of the code for lengths. -/
def maxLength : Nat := 7

/-- The description of two codes. -/
def of (codes : CodePair) : Description :=
  let items := codes.symbols.steps ++ codes.distances.steps
  let weights := items.foldl (fun w s => w.modify s.symbol (· + 1)) (Array.replicate 19 0)
  ⟨codes, items, Huffman.lengths maxLength weights⟩

/-- The lengths of the code for lengths as they are written, at least four of them. -/
def ordered (d : Description) : List Nat :=
  let all := lengthOrder.map fun s => d.stepCode.getD s 0
  all.take (max 4 (all.length - (all.reverse.takeWhile (· == 0)).length))

/-- The bits of a description. -/
def bits (d : Description) : Bits :=
  let words := d.stepCode.codewords.toArray
  Bits.ofNat 5 (d.codes.symbols.length - 257) ++ Bits.ofNat 5 (d.codes.distances.length - 1) ++
    Bits.ofNat 4 (d.ordered.length - 4) ++ d.ordered.flatMap (Bits.ofNat 3) ++
    d.steps.flatMap fun s => words.getD s.symbol [] ++ s.extra

end Description

/-! ## The bits of a block -/

/-- The forms of a block. -/
inductive Form where
  | stored
  | fixed
  | described
  deriving Repr, DecidableEq

/-- The number that stands for a form. -/
def Form.number : Form → Nat
  | stored => 0
  | fixed => 1
  | described => 2

/-- A block: the bytes that it stands for, their tokens, and whether it is the last. -/
structure Block where
  bytes : List UInt8
  tokens : List Token
  isLast : Bool

namespace Block

/-- The bits in front of a block. -/
def heading (b : Block) (form : Form) : Bits := b.isLast :: Bits.ofNat 2 form.number

/-- The bits of a stored block, where `count` bits stand in front of it. -/
def stored (b : Block) (count : Nat) : Bits :=
  b.heading .stored ++ Bits.filling (count + 3) ++ Bits.ofNat 16 b.bytes.length ++
    Bits.ofNat 16 (65535 - b.bytes.length) ++ Bits.ofBytes b.bytes

/-- The bits of a block in the fixed code. -/
def fixed (b : Block) : Bits := b.heading .fixed ++ CodePair.fixed.codewords.tokens b.tokens

/-- The bits of a block behind a description of its code. -/
def described (b : Block) (d : Description) : Bits :=
  b.heading .described ++ d.bits ++ d.codes.codewords.tokens b.tokens

/-- The bytes that so many bits and the heading of a block take. -/
def space (bits : Nat) : Nat := (bits + 3 + 7) / 8

/-- The bits of a block, where `count` bits stand in front of it. Of two forms that take the same space
the fixed code comes before a described one, and a stored block may take three bytes less than it does
before another form is taken. -/
def bits (b : Block) (count : Nat) : Bits :=
  let census := Census.of b.tokens
  let d := Description.of census.codes
  let fixedSpace := space (census.size .fixed)
  let describedSpace := space (d.bits.length + census.size d.codes)
  let least := min fixedSpace describedSpace
  -- A block of copies takes less space in the fixed code than its bytes do. So the bytes of a stored block
  -- are few enough for their number to be written, and they have not left the window.
  if b.bytes.length + 4 ≤ least then b.stored count
  else if fixedSpace ≤ describedSpace then b.fixed
  else b.described d

end Block

end WasmEmbed.Payload.Deflate
