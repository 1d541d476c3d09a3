import WasmEmbed.Payload.Checksum
import WasmEmbed.Payload.Deflate.Block

/-!
# Reading compressed streams

`decompress` gives back the bytes that a stream stands for, or says why it stands for none. What follows
the checksum of a stream is not looked at.
-/

namespace WasmEmbed.Payload.Deflate

/-! ## Errors -/

/-- What is wrong with a stream. -/
inductive Fault where
  | heading
  | method
  | window
  | form
  | storedSize
  | symbolCount
  | codeForLengths
  | repetition
  | noEnd
  | codeForSymbols
  | codeForDistances
  | symbol
  | distance
  | reach
  | checksum
  deriving Repr, DecidableEq

/-- The text that names a fault. -/
def Fault.message : Fault → String
  | heading => "incorrect header check"
  | method => "unknown compression method"
  | window => "invalid window size"
  | form => "invalid block type"
  | storedSize => "invalid stored block lengths"
  | symbolCount => "too many length or distance symbols"
  | codeForLengths => "invalid code lengths set"
  | repetition => "invalid bit length repeat"
  | noEnd => "invalid code -- missing end-of-block"
  | codeForSymbols => "invalid literal/lengths set"
  | codeForDistances => "invalid distances set"
  | symbol => "invalid literal/length code"
  | distance => "invalid distance code"
  | reach => "invalid distance too far back"
  | checksum => "incorrect data check"

/-- Why a stream cannot be read. -/
inductive StreamError where
  /-- The stream ends too early. -/
  | truncated
  /-- The stream relies on bytes that are known beforehand. -/
  | needsDictionary
  | faulty (fault : Fault)
  deriving Repr, DecidableEq

/-- The text of an error. -/
def StreamError.message : StreamError → String
  | truncated => "Error -5 while decompressing data: incomplete or truncated stream"
  | needsDictionary => "Error 2 while decompressing data"
  | faulty fault => "Error -3 while decompressing data: " ++ fault.message

/-! ## Reading bits -/

/-- The bits that are still to be read, and how many were. -/
structure Source where
  count : Nat
  rest : Bits

/-- Reads from the front of a string of bits, or fails. -/
abbrev BitReader (α : Type) := StateT Source (Except StreamError) α

namespace BitReader

/-- Fails because of a fault. -/
def fail {α : Type} (fault : Fault) : BitReader α := fun _ => .error (.faulty fault)

/-- Fails because of a fault unless `ok` holds. -/
def check (ok : Bool) (fault : Fault) : BitReader Unit := if ok then pure () else fail fault

/-- One bit. -/
def bit : BitReader Bool := fun s =>
  match s.rest with
  | [] => .error .truncated
  | b :: rest => .ok (b, ⟨s.count + 1, rest⟩)

/-- A number of `count` bits, the one of least weight first. -/
def number : (count : Nat) → BitReader Nat
  | 0 => pure 0
  | k + 1 => do
    let b ← bit
    let rest ← number k
    pure (b.toNat + 2 * rest)

/-- Moves on to the next whole byte. -/
def align : BitReader Unit := do
  let s ← get
  let _ ← number (Bits.filling s.count).length

/-- The symbol whose codeword comes next, if it is the codeword of a symbol. -/
def symbol? : Codebook → BitReader (Option Nat)
  | .vacant => pure none
  | .symbol s => pure (some s)
  | .fork zero one => do
    let b ← bit
    if b then symbol? one else symbol? zero

/-- The symbol whose codeword comes next. -/
def symbol (book : Codebook) (fault : Fault) : BitReader Nat := do
  match ← symbol? book with
  | some s => pure s
  | none => fail fault

end BitReader

open BitReader

/-! ## Stored blocks -/

/-- Appends `k` bytes as they stand in the stream. -/
def readBytes : Nat → Array UInt8 → BitReader (Array UInt8)
  | 0, out => pure out
  | k + 1, out => do
    let b ← number 8
    readBytes k (out.push (UInt8.ofNat b))

/-- The bytes of a stored block, behind its heading. -/
def readStored (out : Array UInt8) : BitReader (Array UInt8) := do
  align
  let size ← number 16
  let complement ← number 16
  check (size + complement == 65535) .storedSize
  readBytes size out

/-! ## Blocks in a code -/

/-- The codebooks of a block. -/
structure Codebooks where
  symbols : Codebook
  distances : Codebook

/-- The codebooks of a pair of codes. -/
def CodePair.books (codes : CodePair) : Codebooks :=
  ⟨.ofLengths codes.symbols, .ofLengths codes.distances⟩

/-- A number of a range, behind the symbol of the range. -/
def readPlace (ranges : List Range) (index : Nat) (fault : Fault) : BitReader Nat := do
  match ranges[index]? with
  | none => fail fault
  | some r =>
    let rest ← number r.extra
    pure (r.base + rest)

/-- The next token, or nothing at the end of the block. `known` bytes came before. -/
def readToken (books : Codebooks) (known : Nat) : BitReader (Option Token) := do
  let s ← symbol books.symbols .symbol
  if s < endSymbol then pure (some (.literal (UInt8.ofNat s)))
  else if s = endSymbol then pure none
  else
    let length ← readPlace lengthRanges (s - lengthSymbol 0) .symbol
    let d ← symbol books.distances .distance
    let distance ← readPlace distanceRanges d .distance
    check (distance ≤ known) .reach
    pure (some (.copy length distance))

/-- Appends the bytes of the tokens up to the end of the block, at most `k` of them. -/
def readTokens (books : Codebooks) : Nat → Array UInt8 → BitReader (Array UInt8)
  | 0, _ => fun _ => .error .truncated
  | k + 1, out => do
    match ← readToken books out.size with
    | none => pure out
    | some t => readTokens books k (t.appendTo out)

/-- The bytes of a block in a code, behind the description of the code. -/
def readCoded (books : Codebooks) (out : Array UInt8) : BitReader (Array UInt8) := do
  let s ← get
  readTokens books (s.rest.length + 1) out

/-! ## Descriptions of codes -/

namespace Lengths

/-- Whether no symbol has a codeword. -/
def isEmpty (lengths : Lengths) : Bool := lengths.all (· == 0)

/-- Whether there is a single codeword, and it is one bit long. -/
def isSingle (lengths : Lengths) : Bool :=
  lengths.all (· ≤ 1) && lengths.count 1 == 1

end Lengths

/-- The lengths of the code for lengths: `count` of them are written. -/
def readStepCode (count : Nat) : BitReader Lengths := do
  let written ← (List.range count).mapM fun _ => number 3
  let code : Lengths := (List.range 19).map fun s => written.getD (lengthOrder.idxOf s) 0
  check (code.isEmpty || code.isComplete) .codeForLengths
  pure code

/-- The number of equal lengths that a symbol of the code for lengths adds, and the length, where
`last?` came last. -/
def readStep (s : Nat) (last? : Option Nat) : BitReader (Nat × Nat) := do
  if s < 16 then pure (1, s)
  else if s = 16 then
    let count ← number 2
    match last? with
    | some l => pure (count + 3, l)
    | none => fail .repetition
  else if s = 17 then
    let count ← number 3
    pure (count + 3, 0)
  else
    let count ← number 7
    pure (count + 11, 0)

/-- Reads on until there are `total` lengths, by at most `k` steps; `lengths` are those so far, the
last first. A code without codewords stands for zeros, one for each bit. -/
def readLengths (book : Codebook) (total : Nat) : Nat → Lengths → BitReader Lengths
  | 0, lengths => pure lengths.reverse
  | k + 1, lengths => do
    if total ≤ lengths.length then pure lengths.reverse
    else
      let s ← symbol? book
      let (count, l) ← readStep (s.getD 0) lengths.head?
      check (lengths.length + count ≤ total) .repetition
      readLengths book total k (List.replicate count l ++ lengths)

/-- The codes that are described in front of a block. -/
def readDescription : BitReader CodePair := do
  let symbols := (← number 5) + 257
  let distances := (← number 5) + 1
  let written := (← number 4) + 4
  check (symbols ≤ symbolCount && distances ≤ distanceCount) .symbolCount
  let stepCode ← readStepCode written
  let lengths ← readLengths (.ofLengths stepCode) (symbols + distances) (symbols + distances) []
  let codes : CodePair := ⟨lengths.take symbols, lengths.drop symbols⟩
  check (codes.symbols.getD endSymbol 0 != 0) .noEnd
  check (codes.symbols.isComplete || codes.symbols.isSingle) .codeForSymbols
  check (codes.distances.isComplete || codes.distances.isSingle || codes.distances.isEmpty)
    .codeForDistances
  pure codes

/-! ## Streams -/

/-- Appends the bytes of the next block and says whether it is the last. -/
def readBlock (out : Array UInt8) : BitReader (Bool × Array UInt8) := do
  let isLast ← bit
  let form ← number 2
  let out ←
    if form = Form.stored.number then readStored out
    else if form = Form.fixed.number then readCoded CodePair.fixed.books out
    else if form = Form.described.number then do
      let codes ← readDescription
      readCoded codes.books out
    else fail .form
  pure (isLast, out)

/-- Appends the bytes of the blocks up to the last one, at most `k` of them. -/
def readBlocks : Nat → Array UInt8 → BitReader (Array UInt8)
  | 0, _ => fun _ => .error .truncated
  | k + 1, out => do
    let (isLast, out) ← readBlock out
    if isLast then pure out else readBlocks k out

/-- Reads what stands in front of the blocks: that it is a multiple of 31, the method, the size of the
window, and whether bytes have to be known beforehand. -/
def readHeading : BitReader Unit := do
  let low ← number 8
  let high ← number 8
  check ((low * 256 + high) % 31 == 0) .heading
  check (low % 16 == 8) .method
  check (low / 16 ≤ 7) .window
  if high / 32 % 2 = 1 then
    let _ ← number 32
    fun _ => .error .needsDictionary

/-- A whole stream. -/
def readStream : BitReader (List UInt8) := do
  readHeading
  let s ← get
  let out ← readBlocks (s.rest.length + 1) #[]
  let bytes := out.toList
  align
  let written ← (List.range 4).mapM fun _ => number 8
  check (written.map UInt8.ofNat == (Checksum.of bytes).toBytes) .checksum
  pure bytes

/-- The bytes that a stream stands for. -/
def decompress (stream : List UInt8) : Except StreamError (List UInt8) :=
  (readStream ⟨0, Bits.ofBytes stream⟩).map Prod.fst

end WasmEmbed.Payload.Deflate
