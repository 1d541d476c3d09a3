import WasmEmbed.Payload.Deflate.Stream
import WasmEmbed.Proofs.Payload.Deflate.Block
import WasmEmbed.Proofs.Payload.Deflate.Match

/-!
# A stream is read back

The tokens are dealt out into blocks, which are written one after the other. Each block begins where the one
before it ended, both in the bytes that it says and in the bits that stand in front of it, so the reader
appends all bytes (`Reads.allBlocks`). Together with the heading, the filling behind the last block and the
checksum this is the whole stream (`decompress_compress`).
-/

namespace WasmEmbed.Payload.Deflate

variable {data : Array UInt8} {n m : Nat}

/-! ## Dealing out tokens -/

/-- A block is closed behind so many tokens, and the blocks only end where no token is left. -/
theorem tokenBlocks_succ (k : Nat) (tokens : List Token) : ∃ ends : Bool,
    (ends = true → tokens.drop blockTokens = []) ∧ tokenBlocks (k + 1) tokens =
      if ends then [tokens.take blockTokens]
      else tokens.take blockTokens :: tokenBlocks k (tokens.drop blockTokens) := by
  rw [tokenBlocks, List.splitAt_eq]
  refine ⟨_, fun hends => ?_, rfl⟩
  rw [Bool.and_eq_true] at hends
  exact List.isEmpty_iff.mp hends.1

theorem flatten_tokenBlocks (k : Nat) (tokens : List Token) :
    (tokenBlocks k tokens).flatten = tokens := by
  induction k generalizing tokens with
  | zero => exact List.append_nil tokens
  | succ k ih =>
      obtain ⟨ends, hends, hblocks⟩ := tokenBlocks_succ k tokens
      have hsplit : tokens.take blockTokens ++ tokens.drop blockTokens = tokens :=
        List.take_append_drop blockTokens tokens
      rw [hblocks]
      cases ends with
      | false =>
          rw [if_neg Bool.false_ne_true, List.flatten_cons, ih, hsplit]
      | true =>
          rw [hends rfl] at hsplit
          rw [if_pos rfl, List.flatten_cons, List.flatten_nil, hsplit]

theorem tokenBlocks_ne_nil (k : Nat) (tokens : List Token) : tokenBlocks k tokens ≠ [] := by
  cases k with
  | zero => exact List.cons_ne_nil _ _
  | succ k =>
      obtain ⟨ends, -, hblocks⟩ := tokenBlocks_succ k tokens
      rw [hblocks]
      cases ends <;> exact List.cons_ne_nil _ _

/-- No block has more tokens than fill it. -/
theorem length_le_of_mem_tokenBlocks {k : Nat} {tokens block : List Token}
    (h : tokens.length ≤ (k + 1) * blockTokens) (hblock : block ∈ tokenBlocks k tokens) :
    block.length ≤ blockTokens := by
  induction k generalizing tokens with
  | zero =>
      obtain rfl := List.mem_singleton.mp hblock
      rwa [Nat.zero_add, Nat.one_mul] at h
  | succ k ih =>
      obtain ⟨ends, -, hblocks⟩ := tokenBlocks_succ k tokens
      have hrest : (tokens.drop blockTokens).length ≤ (k + 1) * blockTokens := by
        rw [List.length_drop, Nat.sub_le_iff_le_add, ← Nat.succ_mul]
        exact h
      rw [hblocks] at hblock
      cases ends with
      | true =>
          obtain rfl := List.mem_singleton.mp hblock
          exact List.length_take_le _ _
      | false =>
          rcases List.mem_cons.mp hblock with rfl | hblock
          · exact List.length_take_le _ _
          · exact ih hrest hblock

/-! ## The bits of blocks -/

/-- The block of these tokens, at the front of the bytes that are left. -/
def blockAt (bytes : List UInt8) (tokens : List Token) (rest : List (List Token)) : Block :=
  ⟨bytes.take (tokens.map Token.size).sum, tokens, rest.isEmpty⟩

/-- The bits of blocks, where `count` bits stand in front of them. -/
def blocksFrom (count : Nat) (bytes : List UInt8) : List (List Token) → Bits
  | [] => []
  | tokens :: rest =>
    let bits := (blockAt bytes tokens rest).bits count
    bits ++ blocksFrom (count + bits.length) (bytes.drop (tokens.map Token.size).sum) rest

theorem blocksOnto_eq (done : Bits) (count : Nat) (bytes : List UInt8)
    (blocks : List (List Token)) :
    blocksOnto done count bytes blocks = (blocksFrom count bytes blocks).reverse ++ done := by
  induction blocks generalizing done count bytes with
  | nil => rfl
  | cons tokens rest ih =>
      let bits := (Block.mk (bytes.splitAt (tokens.map Token.size).sum).1 tokens rest.isEmpty).bits count
      show blocksOnto (bits.reverse ++ done) (count + bits.length)
        (bytes.splitAt (tokens.map Token.size).sum).2 rest = _
      simp only [bits, List.splitAt_eq]
      rw [ih, blocksFrom]
      simp only [List.reverse_append, List.append_assoc, blockAt]

theorem blocks_eq (bytes : List UInt8) : blocks bytes = blocksFrom 0 bytes
    (tokenBlocks ((tokenize bytes.toArray).length / blockTokens) (tokenize bytes.toArray)) := by
  rw [blocks, blocksOnto_eq, List.append_nil, List.reverse_reverse]

/-- Whole bytes in front of a block do not change it. -/
theorem Block.bits_add_of_dvd {whole : Nat} (h : whole % 8 = 0) (b : Block) (count : Nat) :
    b.bits (whole + count) = b.bits count := by
  rw [bits, bits, stored, stored, Nat.add_assoc, Bits.filling_add_of_dvd h]

theorem blocksFrom_add_of_dvd {whole : Nat} (h : whole % 8 = 0) (count : Nat) (bytes : List UInt8)
    (blocks : List (List Token)) :
    blocksFrom (whole + count) bytes blocks = blocksFrom count bytes blocks := by
  induction blocks generalizing count bytes with
  | nil => rfl
  | cons tokens rest ih =>
      rw [blocksFrom, blocksFrom]
      rw [Block.bits_add_of_dvd h, Nat.add_assoc, ih]

/-- A block takes at least one bit. -/
theorem Block.bits_ne_nil (b : Block) (count : Nat) : b.bits count ≠ [] := by
  rw [bits]
  split
  · exact List.cons_ne_nil _ _
  · split <;> exact List.cons_ne_nil _ _

theorem length_le_length_blocksFrom (count : Nat) (bytes : List UInt8)
    (blocks : List (List Token)) : blocks.length ≤ (blocksFrom count bytes blocks).length := by
  induction blocks generalizing count bytes with
  | nil => exact Nat.zero_le _
  | cons tokens rest ih =>
      have hone := List.length_pos_iff.mpr ((blockAt bytes tokens rest).bits_ne_nil count)
      have hrest := ih (count + ((blockAt bytes tokens rest).bits count).length)
        (bytes.drop (tokens.map Token.size).sum)
      rw [blocksFrom, List.length_append, List.length_cons]
      omega

/-! ## Reading blocks -/

/-- A block at the front of the bytes that are left says the bytes of its tokens. -/
theorem blockAt_says {tokens : List Token} (h : Says data n tokens m) (hn : n ≤ data.size)
    (rest : List (List Token)) :
    (blockAt (data.toList.drop n) tokens rest).Says data n m ∧
      (data.toList.drop n).drop (tokens.map Token.size).sum = data.toList.drop m := by
  have hsize := h.add_size
  have hsum : (tokens.map Token.size).sum = m - n := by omega
  refine ⟨⟨hn, h, by rw [blockAt, hsum]⟩, ?_⟩
  rw [List.drop_drop, hsize]

/-- Blocks are read back up to the last one. -/
theorem Reads.allBlocks {blocks : List (List Token)} (hne : blocks ≠ [])
    (h : Says data n blocks.flatten m) (hn : n ≤ data.size)
    (hshort : ∀ tokens ∈ blocks, tokens.length ≤ blockTokens) {k : Nat} (hk : blocks.length ≤ k)
    (count : Nat) :
    Reads (readBlocks k (front data n)) count (blocksFrom count (data.toList.drop n) blocks)
      (front data m) := by
  induction blocks generalizing n k count with
  | nil => exact absurd rfl hne
  | cons tokens rest ih =>
      cases k with
      | zero => exact absurd hk (Nat.not_succ_le_zero _)
      | succ k =>
          rw [List.flatten_cons] at h
          obtain ⟨middle, htokens, hrest⟩ := h.exists_of_append
          obtain ⟨hsaid, hdrop⟩ := blockAt_says htokens hn rest
          rw [readBlocks, blocksFrom]
          simp only [hdrop]
          refine (block hsaid (Nat.lt_succ_of_le (hshort tokens List.mem_cons_self)) count).bind ?_
          cases rest with
          | nil =>
              -- Nothing is left to say behind the last block.
              cases hrest
              exact pure _ _
          | cons next rest =>
              exact ih (List.cons_ne_nil next rest) hrest (htokens.le_size hn)
                (fun tokens htokens => hshort tokens (List.mem_cons_of_mem _ htokens))
                (Nat.le_of_succ_le_succ hk) _

/-! ## Streams -/

theorem Reads.heading : Reads readHeading 0 (Bits.ofBytes streamHeading) () := by
  rw [readHeading, streamHeading, Bits.ofBytes_cons, Bits.ofBytes_cons, Bits.ofBytes_nil]
  refine (byte 0 0x78).bind ((byte _ 0xda).bind ?_)
  refine (check (by decide)).bind_nil ((check (by decide)).bind_nil ((check (by decide)).bind_nil ?_))
  rw [if_neg (by decide)]
  exact pure _ _

/-- The checksum is read back. -/
theorem Reads.checksum (bytes : List UInt8) (count : Nat) :
    Reads ((List.range 4).mapM fun _ => BitReader.number 8) count
      (Bits.ofBytes (Checksum.of bytes).toBytes) ((Checksum.of bytes).toBytes.map UInt8.toNat) := by
  have hread : Reads ((List.range 4).mapM fun _ => BitReader.number 8) count
      (((Checksum.of bytes).toBytes.map UInt8.toNat).flatMap (Bits.ofNat 8))
      ((Checksum.of bytes).toBytes.map UInt8.toNat) := by
    refine mapM ?_ (fun v hv count => ?_) count
    · rfl
    · obtain ⟨b, -, rfl⟩ := List.mem_map.mp hv
      exact byte count b
  rwa [List.flatMap_map] at hread

theorem map_ofNat_toNat (bytes : List UInt8) : (bytes.map UInt8.toNat).map UInt8.ofNat = bytes := by
  rw [List.map_map]
  refine (List.map_congr_left fun b _ => ?_).trans (List.map_id bytes)
  exact UInt8.ofNat_toNat

/-- A stream is read back. -/
theorem Reads.stream (bytes : List UInt8) :
    Reads readStream 0 (Bits.ofBytes (compress bytes)) bytes := by
  have hsaid : Says bytes.toArray 0 (tokenBlocks ((tokenize bytes.toArray).length / blockTokens)
      (tokenize bytes.toArray)).flatten bytes.toArray.size := by
    rw [flatten_tokenBlocks]
    exact says_tokenize bytes.toArray
  have hblocks : blocksFrom 16 bytes (tokenBlocks ((tokenize bytes.toArray).length / blockTokens)
      (tokenize bytes.toArray)) = blocks bytes := by
    rw [blocks_eq]
    exact blocksFrom_add_of_dvd (by decide) 0 bytes _
  -- The heading has two bytes, so the blocks are filled up as if nothing stood in front of them.
  have hfilling : Bits.filling (blocks bytes).length = Bits.filling (16 + (blocks bytes).length) :=
    (Bits.filling_add_of_dvd (by decide) _).symm
  rw [compress, Bits.ofBytes_append, Bits.ofBytes_append, Bits.ofBytes_toBytes, readStream, hfilling]
  simp only [List.append_assoc]
  refine heading.bind (get fun rest => ?_)
  have hshort : (tokenize bytes.toArray).length ≤
      ((tokenize bytes.toArray).length / blockTokens + 1) * blockTokens := by
    rw [Nat.mul_comm]
    exact Nat.le_of_lt (Nat.lt_mul_div_succ _ (by decide))
  have hread := fun k hk => allBlocks (tokenBlocks_ne_nil _ _) hsaid (Nat.zero_le _)
    (fun tokens htokens => length_le_of_mem_tokenBlocks hshort htokens) (k := k) hk 16
  simp only [List.drop_zero, hblocks, front_zero, front_size] at hread
  refine (hread _ ?_).bind ?_
  · have hlength := length_le_length_blocksFrom 16 bytes
      (tokenBlocks ((tokenize bytes.toArray).length / blockTokens) (tokenize bytes.toArray))
    rw [hblocks] at hlength
    simp only [List.length_append]
    omega
  · refine (align _).bind ((checksum bytes _).bind_last ((check ?_).bind_nil (pure _ _)))
    rw [map_ofNat_toNat]
    exact beq_self_eq_true _

/-- Decompressing gives back what was compressed. -/
theorem decompress_compress (bytes : List UInt8) : decompress (compress bytes) = .ok bytes := by
  have hread := Reads.stream bytes []
  rw [List.append_nil] at hread
  rw [decompress, hread]
  rfl

end WasmEmbed.Payload.Deflate
