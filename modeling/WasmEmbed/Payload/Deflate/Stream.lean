import WasmEmbed.Payload.Checksum
import WasmEmbed.Payload.Deflate.Block
import WasmEmbed.Payload.Deflate.Match

/-!
# Compressed streams

A stream is two bytes that say how it was compressed, blocks up to the last one, and the checksum of
the bytes that it stands for.
-/

namespace WasmEmbed.Payload.Deflate

/-- The most tokens of a block. -/
def blockTokens : Nat := 16383

/-- The tokens of the blocks, each full but for the last. A block is closed when it is full, unless the
token that fills it is the literal at the very end. -/
def tokenBlocks : Nat → List Token → List (List Token)
  | 0, tokens => [tokens]
  | k + 1, tokens =>
    let (block, rest) := tokens.splitAt blockTokens
    let endsHere := rest.isEmpty &&
      (block.length < blockTokens || block.getLast?.any fun t => t matches .literal _)
    if endsHere then [block] else block :: tokenBlocks k rest

/-- The bits of the blocks of a stream, where `count` bits stand in front of them, in front of `done`,
all of it backwards. -/
def blocksOnto (done : Bits) (count : Nat) (bytes : List UInt8) : List (List Token) → Bits
  | [] => done
  | tokens :: rest =>
    let (own, others) := bytes.splitAt (tokens.map Token.size).sum
    let bits := (Block.mk own tokens rest.isEmpty).bits count
    blocksOnto (bits.reverse ++ done) (count + bits.length) others rest

/-- The bits of the blocks that stand for bytes. -/
def blocks (bytes : List UInt8) : Bits :=
  let tokens := tokenize bytes.toArray
  (blocksOnto [] 0 bytes (tokenBlocks (tokens.length / blockTokens) tokens)).reverse

/-- The two bytes in front of a stream: the method with the size of its window, and the effort. -/
def streamHeading : List UInt8 := [0x78, 0xda]

/-- The stream that stands for bytes. -/
def compress (bytes : List UInt8) : List UInt8 :=
  streamHeading ++ Bits.toBytes (blocks bytes) ++ (Checksum.of bytes).toBytes

end WasmEmbed.Payload.Deflate
