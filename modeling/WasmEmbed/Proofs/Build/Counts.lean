import Mathlib.Algebra.Order.Floor.Div
import WasmEmbed.Proofs.Build.Embed
import WasmEmbed.Proofs.Shard.Chunk

/-!
# How many chunks and shards there are

A text has as many chunks as its length divided by the most characters of a chunk, rounded up. The chunk
with a number consists of the characters between two multiples of that size, the last one of those that are
left (`isChunked_chunks`). A build that returns and does not compress has four characters for each three
bytes of its payload, rounded up, and a shard for each chunk of these (`counts`).
-/

namespace WasmEmbed

namespace Shard

variable {size : Nat} {text : List Char}

/-- The chunks of a text one by one, for chunks of `size` characters. -/
structure IsChunked (size : Nat) (text : List Char) (chunks : List (List Char)) : Prop where
  length_eq : chunks.length = text.length ⌈/⌉ size
  getElem_eq : ∀ (i : Nat) (h : i < chunks.length),
    chunks[i] = text.extract (i * size) (min ((i + 1) * size) text.length)
  ne_nil : ∀ chunk ∈ chunks, chunk ≠ []
  length_of_lt : ∀ (i : Nat) (h : i + 1 < chunks.length), chunks[i].length = size
  flatten_eq : chunks.flatten = text

theorem chunkCount_eq_ceilDiv (size : Nat) (text : List Char) : chunkCount size text = text.length ⌈/⌉ size :=
  (Nat.ceilDiv_eq_add_pred_div _ _).symm

/-- A chunk ends at the next multiple of its size, or where the text does. -/
theorem chunkAt_eq_extract (size : Nat) (text : List Char) (i : Nat) :
    chunkAt size text i = text.extract (i * size) (min ((i + 1) * size) text.length) := by
  have hlength : (text.drop (i * size)).length = text.length - i * size := List.length_drop
  have hnext : min ((i + 1) * size) text.length - i * size = min size (text.length - i * size) := by
    rw [Nat.succ_mul, ← Nat.sub_min_sub_right, Nat.add_sub_cancel_left]
  rw [chunkAt, List.extract_eq_take_drop, hnext, ← hlength, List.take_eq_take_min]

theorem length_chunkAt (size : Nat) (text : List Char) (i : Nat) :
    (chunkAt size text i).length = min size (text.length - i * size) := by
  rw [chunkAt, List.length_take, List.length_drop]

theorem getElem_chunks {i : Nat} (h : i < (chunks size text).length) :
    (chunks size text)[i] = chunkAt size text i := by
  have hcount : i < chunkCount size text := length_chunks size text ▸ h
  exact (List.getElem?_eq_some_iff.mp (getElem?_firstChunks hcount)).2

theorem flatten_chunks (hsize : 0 < size) (text : List Char) : (chunks size text).flatten = text := by
  obtain ⟨chunks', hsplit, hflatten, -⟩ := exists_split (show (1 : Int) ≤ size by omega) text
  rw [split_eq (by omega), Int.toNat_natCast] at hsplit
  rw [Except.ok.inj hsplit, hflatten]

theorem isChunked_chunks (hsize : 0 < size) (text : List Char) : IsChunked size text (chunks size text) where
  length_eq := (length_chunks size text).trans (chunkCount_eq_ceilDiv size text)
  getElem_eq i h := (getElem_chunks h).trans (chunkAt_eq_extract size text i)
  ne_nil chunk hchunk := by
    obtain ⟨i, hi, rfl⟩ := List.mem_map.mp hchunk
    have hbegin := (lt_chunkCount_iff hsize).mp (List.mem_range.mp hi)
    rw [← List.length_pos_iff, length_chunkAt]
    omega
  length_of_lt i h := by
    -- The next chunk is there, so the text goes on behind this one.
    have hnext := (lt_chunkCount_iff hsize).mp (length_chunks size text ▸ h)
    rw [Nat.succ_mul] at hnext
    rw [getElem_chunks, length_chunkAt]
    omega
  flatten_eq := flatten_chunks hsize text

/-- A text is split into its chunks. -/
theorem exists_isChunked {maxChars : Int} (h : 1 ≤ maxChars) (text : List Char) :
    ∃ chunks, split maxChars text = .ok chunks ∧ IsChunked maxChars.toNat text chunks :=
  ⟨_, split_eq h text, isChunked_chunks (by omega) text⟩

/-- Two chunks of a text with a character outside the basic plane. -/
example : split 2 "a😀b".toList = .ok ["a😀".toList, "b".toList] := by decide

end Shard

namespace Payload

theorem length_encode_plain (payload : List UInt8) :
    (encode false payload).length = 4 * (payload.length ⌈/⌉ 3) := by
  rw [Nat.ceilDiv_eq_add_pred_div]
  exact Base64.length_encode payload

end Payload

namespace Build

open Store

variable {c : Config} {cwd : Location} {s : Store}

/-- The counts of a build that did not compress the bytes of its payload, and the paths of its shards. -/
structure Counts (c : Config) (bytes : Nat) (result : BundleResult) : Prop where
  payloadBytes : result.payloadBytes = bytes
  encodedChars : result.encodedChars = 4 * (bytes ⌈/⌉ 3)
  totalChars : result.shards.totalChars = 4 * (bytes ⌈/⌉ 3)
  shards : result.shards.shards =
    (List.range ((4 * (bytes ⌈/⌉ 3)) ⌈/⌉ c.maxShardChars.toNat)).map fun i =>
      c.naming.path c.outputDir (c.naming.stem i)

theorem counts_of_bundle_eq_ok {result : BundleResult} (h : (run (bundle c) cwd s).result = .ok result)
    (hplain : c.compress = false) :
    ∃ payload, s.find? cwd c.payload = some (.file payload) ∧ Counts c payload.length result := by
  have hmax := (Config.check_eq_ok_iff.mp (inputs_of_bundle_eq_ok h).1).1
  obtain ⟨payload, chunks, _, _, _, _, hfind, hsplit, _, _, _, rfl, _, _⟩ := exists_ends_of_bundle_eq_ok h
  rw [hplain] at hsplit ⊢
  have hlength := Payload.length_encode_plain payload
  obtain ⟨chunks', hsplit', hchunked⟩ := Shard.exists_isChunked hmax (Payload.encode false payload)
  obtain rfl := Except.ok.inj (hsplit.symm.trans hsplit')
  refine ⟨payload, hfind, rfl, hlength, hlength, ?_⟩
  rw [shardSet, List.map_map, hchunked.length_eq, hlength]
  rfl

/-- A text is split into as many chunks as its length asks for, each of them at its place. A build that
returns and does not compress tells the length of its payload and of the text of that, and has a shard for
each chunk, in order. -/
theorem split_and_bundle_counts (maxChars : Int) (text : List Char) (c : Config) (cwd : Location)
    (s : Store) :
    (1 ≤ maxChars →
      ∃ chunks, Shard.split maxChars text = .ok chunks ∧ Shard.IsChunked maxChars.toNat text chunks) ∧
    ∀ result, (run (bundle c) cwd s).result = .ok result → c.compress = false →
      ∃ payload, s.find? cwd c.payload = some (.file payload) ∧ Counts c payload.length result :=
  ⟨fun h => Shard.exists_isChunked h text, fun _ h hplain => counts_of_bundle_eq_ok h hplain⟩

namespace Sample

/-- A build whose shards have at most three characters. -/
def embeddingInTwo : Config := { embedding with maxShardChars := 3 }

theorem bundle_embeddingInTwo : ∃ result,
    (run (bundle embeddingInTwo) [] (stored (Binding.Sample.source "a;b;c;"))).result = .ok result ∧
    (run (bundle embeddingInTwo) [] (stored (Binding.Sample.source "a;b;c;"))).store.text? ["b.js".toList] =
      some (Binding.Sample.rewritten Binding.Sample.target "a;b;;") := by
  have hsplit : Shard.split embeddingInTwo.maxShardChars (Payload.encode embeddingInTwo.compress [104]) =
      .ok ["aA=".toList, "=".toList] := by decide +kernel
  have hdir : target [] embeddingInTwo.outputDir = ["w".toList] := by decide
  have hbinding : target [] embeddingInTwo.binding = ["b.js".toList] := by decide
  have hfree : ∀ name ∈ [embeddingInTwo.naming.file 0, embeddingInTwo.naming.file 1,
      embeddingInTwo.naming.index],
      (run (makeDirectories embeddingInTwo.outputDir) []
        (stored (Binding.Sample.source "a;b;c;"))).store.get? ["w".toList, name] = none := by decide +kernel
  have hrewrite : Binding.rewrite (embeddingInTwo.target [])
      (Text.unifyLineEnds (Binding.Sample.source "a;b;c;")) =
        .ok (Binding.Sample.rewritten Binding.Sample.target "a;b;;") :=
    unifyLineEnds_source_ended.symm ▸ target_embedding.symm ▸ Binding.Sample.rewrite_source_ended
  have hmade : (run (makeDirectories embeddingInTwo.outputDir) []
      (stored (Binding.Sample.source "a;b;c;"))).result = .ok () := by decide +kernel
  rw [← hbinding]
  refine bundle_returns (by decide) rfl rfl hsplit hmade rfl ?_ ?_ ?_ (Text.Utf8.decode_encode _) hrewrite
  · intro i hi
    rw [hdir]
    have hname : embeddingInTwo.naming.file i ∈
        [embeddingInTwo.naming.file 0, embeddingInTwo.naming.file 1, embeddingInTwo.naming.index] := by
      rcases Nat.le_one_iff_eq_zero_or_eq_one.mp (Nat.le_of_lt_succ hi) with rfl | rfl <;> simp
    exact (hfree _ hname).trans_ne (by simp)
  · rw [hdir]
    exact (hfree embeddingInTwo.naming.index (by simp)).trans_ne (by simp)
  · refine spares_of_outside (fun name hname => ?_) _
    rw [hdir, hbinding] at hname
    exact absurd (congrArg List.length hname) (by simp)

end Sample

/-- Two chunks of a text with a character outside the basic plane, and a payload of one byte whose four
characters are kept in two shards. -/
theorem split_and_bundle_counts_inTwo :
    (∃ chunks, Shard.split 2 "a😀b".toList = .ok chunks ∧ Shard.IsChunked 2 "a😀b".toList chunks) ∧
    ∃ result, (run (bundle Sample.embeddingInTwo) []
        (Sample.stored (Binding.Sample.source "a;b;c;"))).result = .ok result ∧
      result.shards.shards = ["w/shard0.js", "w/shard1.js"].map fun text => Path.ofText text.toList := by
  obtain ⟨result, hresult, -⟩ := Sample.bundle_embeddingInTwo
  obtain ⟨hsplit, hbundle⟩ := split_and_bundle_counts 2 "a😀b".toList Sample.embeddingInTwo []
    (Sample.stored (Binding.Sample.source "a;b;c;"))
  obtain ⟨payload, hfind, hcounts⟩ := hbundle result hresult rfl
  obtain rfl : [104] = payload := Entry.file.inj (Option.some.inj hfind)
  refine ⟨hsplit (by decide), result, hresult, hcounts.shards.trans ?_⟩
  decide +kernel

end Build

end WasmEmbed
