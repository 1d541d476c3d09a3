import Mathlib.Data.Nat.Basic
import Mathlib.Order.Basic
import WasmEmbed.Proofs.Shard.Script

/-!
# The chunks of a text, one by one

The chunk with a number consists of the characters from a multiple of the size on (`chunkAt`), and there are
as many chunks as multiples of the size in front of the end of the text (`split_eq`). In front of the chunk
with the first character that is foreign to Base64 text, all chunks are free of such characters
(`exists_foreign_chunkAt`).
-/

namespace WasmEmbed.Shard

open Payload

variable {size : Nat} {text : List Char}

/-- The chunk of a text with a number, for chunks of `size` characters. -/
def chunkAt (size : Nat) (text : List Char) (i : Nat) : List Char := (text.drop (i * size)).take size

/-- How many chunks of `size` characters a text has. The last one may be shorter. -/
def chunkCount (size : Nat) (text : List Char) : Nat := (text.length + size - 1) / size

/-- The first `k` chunks of a text in order. -/
def firstChunks (size : Nat) (text : List Char) (k : Nat) : List (List Char) :=
  (List.range k).map (chunkAt size text)

/-- All chunks of a text in order. -/
def chunks (size : Nat) (text : List Char) : List (List Char) := firstChunks size text (chunkCount size text)

theorem length_firstChunks (size : Nat) (text : List Char) (k : Nat) :
    (firstChunks size text k).length = k := by
  rw [firstChunks, List.length_map, List.length_range]

theorem length_chunks (size : Nat) (text : List Char) : (chunks size text).length = chunkCount size text :=
  length_firstChunks size text _

theorem getElem?_firstChunks {i k : Nat} (h : i < k) :
    (firstChunks size text k)[i]? = some (chunkAt size text i) := by
  rw [firstChunks, List.getElem?_map, List.getElem?_range h]
  rfl

/-- A chunk stands between those in front of it and those behind it. -/
theorem chunks_eq_append {k : Nat} (h : k < chunkCount size text) :
    chunks size text =
      firstChunks size text k ++ chunkAt size text k :: (chunks size text).drop (k + 1) := by
  have hchunk : (chunks size text)[k]? = some (chunkAt size text k) := getElem?_firstChunks h
  obtain ⟨hk, hget⟩ := List.getElem?_eq_some_iff.mp hchunk
  have htake : (chunks size text).take k = firstChunks size text k := by
    rw [chunks, firstChunks, firstChunks, ← List.map_take, List.take_range, Nat.min_eq_left (Nat.le_of_lt h)]
  rw [← htake, ← hget, ← List.drop_eq_getElem_cons hk, List.take_append_drop]

/-- A chunk with a number is there if the text goes on at its beginning. -/
theorem lt_chunkCount_iff (hsize : 0 < size) {i : Nat} :
    i < chunkCount size text ↔ i * size < text.length := by
  rw [chunkCount, Nat.lt_div_iff_mul_lt hsize]
  omega

theorem chunkAt_succ (size : Nat) (text : List Char) (i : Nat) :
    chunkAt size text (i + 1) = chunkAt size (text.drop size) i := by
  rw [chunkAt, chunkAt, List.drop_drop, Nat.succ_mul, Nat.add_comm]

theorem chunkCount_drop (hsize : 0 < size) (hne : text ≠ []) :
    chunkCount size text = chunkCount size (text.drop size) + 1 := by
  have hpos := List.length_pos_iff.mpr hne
  refine eq_of_forall_lt_iff fun i => ?_
  cases i with
  | zero => simp [lt_chunkCount_iff hsize, hpos]
  | succ i =>
      rw [Nat.succ_lt_succ_iff, lt_chunkCount_iff hsize, lt_chunkCount_iff hsize, List.length_drop,
        Nat.succ_mul]
      omega

theorem chunks_cons (hsize : 0 < size) (hne : text ≠ []) :
    chunks size text = text.take size :: chunks size (text.drop size) := by
  rw [chunks, firstChunks, chunkCount_drop hsize hne, List.range_succ_eq_map, List.map_cons, List.map_map,
    chunkAt, Nat.zero_mul, List.drop_zero]
  exact congrArg _ (List.map_congr_left fun i _ => chunkAt_succ size text i)

theorem chunksFrom_eq (hsize : 0 < size) {k : Nat} (hk : text.length ≤ k) (done : List (List Char)) :
    chunksFrom size done k text = done.reverse ++ chunks size text := by
  have hnil : chunks size [] = [] := by
    rw [chunks, chunkCount, List.length_nil, Nat.zero_add, Nat.div_eq_of_lt (by omega)]
    rfl
  induction k generalizing text done with
  | zero =>
      obtain rfl : text = [] := List.eq_nil_of_length_eq_zero (Nat.le_zero.mp hk)
      rw [chunksFrom, hnil, List.append_nil]
  | succ k ih =>
      cases text with
      | nil => rw [chunksFrom, hnil, List.append_nil]
      | cons c rest =>
          have hrest : ((c :: rest).drop size).length ≤ k := by
            rw [List.length_drop, List.length_cons] at *
            omega
          rw [chunks_cons hsize (List.cons_ne_nil c rest)]
          simp only [chunksFrom, List.splitAt_eq]
          rw [ih hrest, List.reverse_cons, List.append_assoc, List.singleton_append]

/-- A text is split into its chunks. -/
theorem split_eq {maxChars : Int} (h : 1 ≤ maxChars) (text : List Char) :
    split maxChars text = .ok (chunks maxChars.toNat text) := by
  rw [split, if_neg (by omega), chunksFrom_eq (by omega) (Nat.le_refl _)]
  rfl

/-- No chunk of Base64 text has a foreign character. -/
theorem isAllowed_of_mem_chunks (htext : ∀ c ∈ text, Base64.isAllowed c = true) :
    ∀ chunk ∈ chunks size text, ∀ c ∈ chunk, Base64.isAllowed c = true := by
  intro chunk hchunk c hc
  obtain ⟨i, -, rfl⟩ := List.mem_map.mp hchunk
  exact htext c (List.mem_of_mem_drop (List.mem_of_mem_take hc))

/-! ## Foreign characters -/

/-- A text is Base64 text, or a first character is not. -/
theorem isAllowed_or_exists_foreign (text : List Char) :
    (∀ c ∈ text, Base64.isAllowed c = true) ∨ ∃ front c back, text = front ++ c :: back ∧
      (∀ x ∈ front, Base64.isAllowed x = true) ∧ Base64.isAllowed c = false := by
  induction text with
  | nil => exact Or.inl (by simp)
  | cons first rest ih =>
      cases hfirst : Base64.isAllowed first with
      | false => exact Or.inr ⟨[], first, rest, rfl, by simp, hfirst⟩
      | true =>
          rcases ih with hrest | ⟨front, c, back, rfl, hfront, hc⟩
          · exact Or.inl (List.forall_mem_cons.mpr ⟨hfirst, hrest⟩)
          · exact Or.inr ⟨first :: front, c, back, rfl, List.forall_mem_cons.mpr ⟨hfirst, hfront⟩, hc⟩

/-- The first foreign character of a text stands in the chunk whose number is its position divided by the
size, and the chunks in front of that one are Base64 text. -/
theorem exists_foreign_chunkAt (hsize : 0 < size) {front : List Char}
    (hfront : ∀ x ∈ front, Base64.isAllowed x = true) (c : Char) (back : List Char) :
    front.length / size < chunkCount size (front ++ c :: back) ∧
      c ∈ chunkAt size (front ++ c :: back) (front.length / size) ∧
      ∀ i < front.length / size, ∀ x ∈ chunkAt size (front ++ c :: back) i, Base64.isAllowed x = true := by
  have hbegin : front.length / size * size ≤ front.length := Nat.div_mul_le_self _ _
  have hlast : front.length - front.length / size * size < size := by
    have := Nat.mod_lt front.length hsize
    have := Nat.div_add_mod' front.length size
    omega
  refine ⟨?_, ?_, fun i hi x hx => ?_⟩
  · rw [lt_chunkCount_iff hsize, List.length_append, List.length_cons]
    omega
  · rw [chunkAt, List.drop_append_of_le_length hbegin, List.take_append, List.length_drop]
    obtain ⟨m, hm⟩ := Nat.exists_eq_add_of_lt hlast
    rw [show size - (front.length - front.length / size * size) = m + 1 by omega, List.take_succ_cons]
    exact List.mem_append_right _ List.mem_cons_self
  · -- A chunk in front of it ends in front of the character.
    have hend : i * size + size ≤ front.length := by
      calc i * size + size = (i + 1) * size := (Nat.succ_mul i size).symm
        _ ≤ front.length / size * size := Nat.mul_le_mul_right size hi
        _ ≤ front.length := hbegin
    rw [chunkAt, List.drop_append_of_le_length (by omega),
      List.take_append_of_le_length (by rw [List.length_drop]; omega)] at hx
    exact hfront x (List.mem_of_mem_drop (List.mem_of_mem_take hx))

end WasmEmbed.Shard
