import WasmEmbed.Proofs.Payload.Deflate.Coded
import WasmEmbed.Proofs.Payload.Deflate.Complete
import WasmEmbed.Proofs.Payload.Deflate.Description

/-!
# Blocks are read back

Whichever of its three forms a block takes, the reader appends the bytes that its tokens say
(`Reads.block`). A stored block says them as they are. A block in a code needs codewords for all symbols of
its tokens: the fixed code has them, and the code that is chosen for the block is made from the number of
times that they occur (`coversAll_codes`). It is complete, so the reader accepts its description
(`isReadable_of`).

A stored block writes the number of its bytes in 16 bits. That is enough: it takes no more space than the
block would in the fixed code, and there each of its less than `2 ^ 14` tokens takes at most 31 bits
(`space_fixed_lt`).
-/

namespace WasmEmbed.Payload.Deflate

variable {data : Array UInt8} {n m : Nat}

/-! ## Counting symbols

The weights of the symbols are counted over the tokens of a block. Every symbol that a token needs occurs,
and so does the end of the block.
-/

namespace Huffman

/-- A symbol that occurs still does when more are counted. -/
theorem Occurs.modify {weights : Array Nat} {t : Nat} (h : Occurs weights t) (s : Nat) :
    Occurs (weights.modify s (· + 1)) t := by
  rw [Occurs, getD_modify]
  split
  · exact Nat.succ_ne_zero _
  · exact h

/-- A symbol that was counted occurs. -/
theorem occurs_modify_self {weights : Array Nat} {s : Nat} (h : s < weights.size) :
    Occurs (weights.modify s (· + 1)) s := by
  rw [Occurs, getD_modify, if_pos ⟨rfl, h⟩]
  exact Nat.succ_ne_zero _

end Huffman

open Huffman

/-- Each step keeps `P` and counts its item, which `Q` says. Then all items are counted at the end. -/
theorem foldl_counts {α σ : Type} {f : σ → α → σ} {P : σ → Prop} {Q : σ → α → Prop}
    (hfull : ∀ c u, P c → P (f c u)) (hkeep : ∀ c u t, Q c t → Q (f c u) t) (hself : ∀ c u, P c → Q (f c u) u)
    (items : List α) {c : σ} (h : P c) :
    P (items.foldl f c) ∧ (∀ t, Q c t → Q (items.foldl f c) t) ∧ ∀ t ∈ items, Q (items.foldl f c) t := by
  induction items generalizing c with
  | nil => exact ⟨h, fun _ ht => ht, fun _ ht => nomatch ht⟩
  | cons u items ih =>
      obtain ⟨hend, hkept, hcounted⟩ := ih (hfull c u h)
      refine ⟨hend, fun t ht => hkept t (hkeep c u t ht), fun t ht => ?_⟩
      rcases List.mem_cons.mp ht with rfl | ht
      · exact hkept t (hself c t h)
      · exact hcounted t ht

namespace Census

/-- The symbols that a token needs are counted. -/
def Counts (c : Census) : Token → Prop
  | .literal byte => Occurs c.symbols byte.toNat
  | .copy length distance => Occurs c.symbols (lengthSymbol (lengthPlace length).index) ∧
      Occurs c.distances (distancePlace distance).index

/-- There is a place for each symbol. -/
structure IsFull (c : Census) : Prop where
  symbols : c.symbols.size = symbolCount
  distances : c.distances.size = distanceCount
  endSymbol : Occurs c.symbols endSymbol

variable {c : Census}

/-- Counting a token leaves the weights of all symbols in place. -/
theorem IsFull.add (h : c.IsFull) (t : Token) : (c.add t).IsFull := by
  cases t with
  | literal byte =>
      exact ⟨(Array.size_modify ..).trans h.symbols, h.distances, h.endSymbol.modify _⟩
  | copy length distance =>
      exact ⟨(Array.size_modify ..).trans h.symbols, (Array.size_modify ..).trans h.distances,
        h.endSymbol.modify _⟩

/-- A token that was counted stays counted. -/
theorem Counts.add {t : Token} (h : c.Counts t) (u : Token) : (c.add u).Counts t := by
  cases t <;> cases u
  case literal.literal => exact h.modify _
  case literal.copy => exact h.modify _
  case copy.literal => exact ⟨h.1.modify _, h.2⟩
  case copy.copy => exact ⟨h.1.modify _, h.2.modify _⟩

/-- The token that is counted last is counted. -/
theorem IsFull.counts_add_self (h : c.IsFull) (t : Token) : (c.add t).Counts t := by
  cases t with
  | literal byte =>
      refine occurs_modify_self ?_
      rw [h.symbols]
      exact Nat.lt_trans byte.toNat_lt (by decide)
  | copy length distance =>
      have hlength := lengthPlace_index_lt length
      have hdistance := distancePlace_index_lt distance
      refine ⟨occurs_modify_self ?_, occurs_modify_self ?_⟩
      · rw [h.symbols, lengthSymbol]
        show 256 + 1 + _ < 286
        omega
      · rw [h.distances]
        exact hdistance

/-- The tokens of a block and its end are counted. -/
theorem of_spec (tokens : List Token) :
    (of tokens).IsFull ∧ ∀ t ∈ tokens, (of tokens).Counts t := by
  have hstart : (Census.mk ((Array.replicate symbolCount 0).setIfInBounds endSymbol 1)
      (Array.replicate distanceCount 0)).IsFull := by
    have hlt : endSymbol < (Array.replicate symbolCount 0).size := by
      rw [Array.size_replicate]
      show 256 < 286
      omega
    refine ⟨?_, ?_, ?_⟩
    · rw [Array.size_setIfInBounds, Array.size_replicate]
    · rw [Array.size_replicate]
    · dsimp only
      exact occurs_set_self hlt
  obtain ⟨hfull, -, hcounts⟩ := foldl_counts (f := add) (fun _ u h => h.add u) (fun _ u _ ht => ht.add u)
    (fun _ u h => h.counts_add_self u) tokens hstart
  exact ⟨hfull, hcounts⟩

/-- The codes that are chosen have codewords for all symbols that were counted. -/
theorem IsFull.covers_codes (h : c.IsFull) {t : Token} (ht : c.Counts t) : c.codes.Covers t := by
  have hsymbols : 3 ≤ c.symbols.size := by
    rw [h.symbols]
    show 3 ≤ 286
    omega
  have hdistances : 3 ≤ c.distances.size := by
    rw [h.distances]
    show 3 ≤ 30
    omega
  have hlimit : 0 < maxCodeLength := by
    show 0 < 15
    omega
  cases t with
  | literal byte => exact covers_lengths hlimit hsymbols ht
  | copy length distance =>
      exact ⟨covers_lengths hlimit hsymbols ht.1, covers_lengths hlimit hdistances ht.2⟩

end Census

/-! ## Chosen codes

The two codes of a block are described by items, and the items are written in a third code that is made
from how often each kind of item occurs. All three are made in the same way, so the same lemmas serve
them.
-/

namespace Description

/-- How often each symbol of the code for lengths occurs. -/
def stepWeights (steps : List Step) : Array Nat :=
  steps.foldl (fun w s => w.modify s.symbol (· + 1)) (Array.replicate 19 0)

theorem of_eq (codes : CodePair) :
    of codes = ⟨codes, codes.symbols.steps ++ codes.distances.steps,
      lengths maxLength (stepWeights (codes.symbols.steps ++ codes.distances.steps))⟩ := rfl

/-- The symbols of items are counted. -/
theorem stepWeights_spec {steps : List Step} (h : ∀ step ∈ steps, step.symbol < 19) :
    (stepWeights steps).size = 19 ∧ ∀ step ∈ steps, Occurs (stepWeights steps) step.symbol := by
  obtain ⟨hsize, -, hoccurs⟩ := foldl_counts (f := fun w (s : Step) => w.modify s.symbol (· + 1))
    (P := fun w => w.size = 19) (Q := fun w s => s.symbol < 19 → Occurs w s.symbol)
    (fun _ _ hw => (Array.size_modify ..).trans hw) (fun _ _ _ ht hlt => (ht hlt).modify _)
    (fun _ _ hw hlt => occurs_modify_self (hw.symm ▸ hlt)) steps
      (Array.size_replicate : (Array.replicate 19 0).size = 19)
  exact ⟨hsize, fun step hstep => hoccurs step hstep (h step hstep)⟩

/-- Items have one of the nineteen symbols. -/
theorem symbol_lt_of_adds {before after : Lengths} {steps : List Step}
    (h : Adds before steps after) : ∀ step ∈ steps, step.symbol < 19 := by
  induction h with
  | nil => exact fun _ hstep => nomatch hstep
  | cons hone hrest ih =>
      intro step hstep
      rcases List.mem_cons.mp hstep with rfl | hstep
      · exact hone.symbol_lt
      · exact ih step hstep

/-- The code for lengths has all codewords that the items need, and no further one could be added. -/
theorem covers_stepCode {steps : List Step} (h : ∀ step ∈ steps, step.symbol < 19) :
    (lengths maxLength (stepWeights steps)).length ≤ 19 ∧
      (∀ l ∈ lengths maxLength (stepWeights steps), l ≤ maxLength) ∧
      (∀ step ∈ steps, (lengths maxLength (stepWeights steps)).Covers step.symbol) ∧
      (lengths maxLength (stepWeights steps)).isComplete = true := by
  obtain ⟨hsize, hoccurs⟩ := stepWeights_spec h
  have hthree : 3 ≤ (stepWeights steps).size ∧ (stepWeights steps).size ≤ 2 ^ maxLength := by
    rw [hsize]
    decide
  have hlimit : 0 < maxLength := by decide
  have hlength := length_lengths_le maxLength hthree.1
  rw [hsize] at hlength
  exact ⟨hlength, lengths_le hlimit _, fun step hstep => covers_lengths hlimit hthree.1 (hoccurs step hstep),
    isComplete_lengths hlimit (by decide) hthree.1 hthree.2⟩

/-- The description of chosen codes can be read. -/
theorem isReadable_of {c : Census} (h : c.IsFull) : (of c.codes).IsReadable := by
  have hsymbols : 3 ≤ c.symbols.size ∧ c.symbols.size ≤ 2 ^ maxCodeLength := by
    rw [h.symbols]
    decide
  have hdistances : 3 ≤ c.distances.size ∧ c.distances.size ≤ 2 ^ maxCodeLength := by
    rw [h.distances]
    decide
  have hlimit : 0 < maxCodeLength := by decide
  have hitems := symbol_lt_of_adds ((Lengths.adds_steps (lengths_le hlimit c.symbols) []).append
    (Lengths.adds_steps (lengths_le hlimit c.distances) _))
  obtain ⟨hcount, hle, hcovers, hcomplete⟩ := covers_stepCode hitems
  have hend : c.codes.symbols.Covers endSymbol := covers_lengths hlimit hsymbols.1 h.endSymbol
  have hsymbolsMax := length_lengths_le maxCodeLength hsymbols.1
  have hdistancesMax := length_lengths_le maxCodeLength hdistances.1
  have hdistancesMin : 0 < (lengths maxCodeLength c.distances).length := by
    rw [length_lengths]
    exact Nat.succ_pos _
  rw [h.symbols] at hsymbolsMax
  rw [h.distances] at hdistancesMax
  rw [of_eq]
  -- The projections are reduced first, so that no length is unfolded to compare them.
  refine ⟨?_, ?_, ?_, ?_, ?_, ?_, ?_, ?_, ?_, ?_, ?_, ?_⟩
  all_goals dsimp only
  · exact isComplete_lengths hlimit (Nat.le_refl _) hsymbols.1 hsymbols.2
  · exact isComplete_lengths hlimit (Nat.le_refl _) hdistances.1 hdistances.2
  · exact hcomplete
  · exact hend.lt_length
  · exact hsymbolsMax
  · exact hdistancesMin
  · exact hdistancesMax
  · exact hend
  · exact hcount
  · exact hle
  · exact hcovers

end Description

/-- The codes that are chosen for tokens can be read, and have all codewords that the tokens need. -/
theorem coversAll_codes (tokens : List Token) : (Census.of tokens).codes.CoversAll tokens := by
  obtain ⟨hfull, hcounts⟩ := Census.of_spec tokens
  have hreadable := Description.isReadable_of hfull
  exact ⟨Lengths.isCode_of_isComplete hreadable.symbols_complete,
    Lengths.isCode_of_isComplete hreadable.distances_complete, hreadable.endSymbol,
    fun t ht => hfull.covers_codes (hcounts t ht)⟩

/-! ## The space of a block

A block is stored if that takes no more space than the other forms. Then the number of its bytes is
bounded by the space that its tokens take in the fixed code.
-/

namespace Census

/-- If no symbol takes more than `most` bits, the symbols take so many for each time that one occurs. -/
theorem weigh_le (most : Nat) (weights : Array Nat) {lengths : Lengths} {first : Nat} {ranges : List Range}
    (h : ∀ p ∈ lengths.zip (List.replicate first 0 ++ ranges.map Range.extra), p.1 + p.2 ≤ most) :
    weigh weights lengths first ranges ≤ weights.toList.sum * most := by
  have hfold : ∀ (weights : List Nat) (lengths extras : List Nat) (sum : Nat),
      (∀ p ∈ lengths.zip extras, p.1 + p.2 ≤ most) →
      ((weights.zip lengths).zip extras).foldl (fun sum p => sum + p.1.1 * (p.1.2 + p.2)) sum ≤
        sum + weights.sum * most := by
    intro weights
    induction weights with
    | nil => exact fun _ _ sum _ => Nat.le_add_right sum _
    | cons w weights ih =>
        intro lengths extras sum hmost
        match lengths, extras with
        | [], _ => exact Nat.le_add_right sum _
        | _ :: _, [] => exact Nat.le_add_right sum _
        | l :: lengths, e :: extras =>
            have hone := Nat.mul_le_mul_left w (hmost (l, e) List.mem_cons_self)
            have hrest :=
              ih lengths extras (sum + w * (l + e)) fun p hp => hmost p (List.mem_cons_of_mem _ hp)
            rw [List.zip_cons_cons, List.zip_cons_cons, List.foldl_cons, List.sum_cons, Nat.add_mul]
            dsimp only at hone ⊢
            omega
  exact (hfold _ _ _ 0 h).trans_eq (Nat.zero_add _)

/-- One more symbol adds one to the sum of the weights at most. -/
theorem sum_modify_le (weights : Array Nat) (s : Nat) :
    (weights.modify s (· + 1)).toList.sum ≤ weights.toList.sum + 1 := by
  rw [Array.toList_modify]
  generalize weights.toList = list
  induction list generalizing s with
  | nil => cases s <;> exact Nat.le_add_right _ _
  | cons w list ih =>
      cases s with
      | zero => rw [List.modify_zero_cons, List.sum_cons, List.sum_cons]; omega
      | succ s =>
          have hrest := ih s
          rw [List.modify_succ_cons, List.sum_cons, List.sum_cons]
          omega

/-- Each token counts one symbol and at most one distance, and the end of the block one symbol more. -/
theorem sum_of_le (tokens : List Token) : (of tokens).symbols.toList.sum ≤ tokens.length + 1 ∧
    (of tokens).distances.toList.sum ≤ tokens.length := by
  have hfold : ∀ c : Census, (tokens.foldl add c).symbols.toList.sum ≤ tokens.length + c.symbols.toList.sum ∧
      (tokens.foldl add c).distances.toList.sum ≤ tokens.length + c.distances.toList.sum := by
    induction tokens with
    | nil => exact fun c => ⟨Nat.le_add_left _ _, Nat.le_add_left _ _⟩
    | cons t tokens ih =>
        intro c
        obtain ⟨hsymbols, hdistances⟩ := ih (c.add t)
        have hone : (c.add t).symbols.toList.sum ≤ c.symbols.toList.sum + 1 := by
          cases t <;> exact sum_modify_le _ _
        have hother : (c.add t).distances.toList.sum ≤ c.distances.toList.sum + 1 := by
          cases t with
          | literal byte => exact Nat.le_add_right _ _
          | copy length distance => exact sum_modify_le _ _
        rw [List.foldl_cons, List.length_cons]
        omega
  obtain ⟨hsymbols, hdistances⟩ := hfold
    ⟨(Array.replicate symbolCount 0).setIfInBounds endSymbol 1, Array.replicate distanceCount 0⟩
  have hstart : ((Array.replicate symbolCount 0).setIfInBounds endSymbol 1).toList.sum = 1 := by
    decide +kernel
  have hnone : (Array.replicate distanceCount 0).toList.sum = 0 := by decide +kernel
  rw [hstart] at hsymbols
  rw [hnone, Nat.add_zero] at hdistances
  exact ⟨hsymbols, hdistances⟩

/-- In the fixed code no symbol takes more than 13 bits and no distance more than 18. -/
theorem size_fixed_le (tokens : List Token) : (of tokens).size .fixed ≤ 31 * tokens.length + 13 := by
  obtain ⟨hsymbols, hdistances⟩ := sum_of_le tokens
  have hleft : weigh (of tokens).symbols CodePair.fixed.symbols (endSymbol + 1) lengthRanges ≤
      (of tokens).symbols.toList.sum * 13 := weigh_le 13 _ (by decide +kernel)
  have hright : weigh (of tokens).distances CodePair.fixed.distances 0 distanceRanges ≤
      (of tokens).distances.toList.sum * 18 := weigh_le 18 _ (by decide +kernel)
  rw [size]
  omega

/-- So the number of bytes that a block takes in the fixed code can be written in 16 bits. -/
theorem space_fixed_lt {tokens : List Token} (h : tokens.length < 2 ^ 14) :
    Block.space ((of tokens).size .fixed) < 65536 := by
  have hsize := size_fixed_le tokens
  rw [Block.space]
  omega

end Census

/-! ## Blocks

The three forms are read by three readers, and two of the first three bits of a block tell which. In each
case what is read is what the tokens say.
-/

/-- The block says the bytes of `data` from place `n` to place `m`, by its tokens and as they are. -/
structure Block.Says (data : Array UInt8) (n : Nat) (b : Block) (m : Nat) : Prop where
  le_size : n ≤ data.size
  tokens : Deflate.Says data n b.tokens m
  bytes : b.bytes = (data.toList.drop n).take (m - n)

namespace Block.Says

variable {b : Block}

/-- The bytes of a block follow those in front of it. -/
theorem front_append (h : b.Says data n m) : front data n ++ b.bytes.toArray = front data m := by
  have hle : n ≤ m := by
    rw [← h.tokens.add_size]
    exact Nat.le_add_right n _
  refine Array.toList_inj.mp ?_
  rw [Array.toList_append, toList_front, toList_front, h.bytes]
  show data.toList.take n ++ (data.toList.drop n).take (m - n) = data.toList.take m
  rw [← List.take_add, Nat.add_sub_cancel' hle]

/-- A stored block is read back. -/
theorem reads_stored (h : b.Says data n m) (hshort : b.bytes.length < 65536) (count : Nat) :
    Reads (readStored (front data n)) count
      (Bits.filling count ++ Bits.ofNat 16 b.bytes.length ++
        Bits.ofNat 16 (65535 - b.bytes.length) ++ Bits.ofBytes b.bytes)
      (front data m) := by
  have hsum : b.bytes.length + (65535 - b.bytes.length) = 65535 := by omega
  rw [readStored]
  simp only [List.append_assoc]
  refine (Reads.align count).bind ((Reads.number _ hshort).bind
    ((Reads.number _ (by omega)).bind ((Reads.check ?_).bind_nil ?_)))
  · rw [hsum]
    rfl
  · rw [← h.front_append]
    exact Reads.readBytes _ b.bytes (front data n)

end Block.Says

/-- A block is read behind its heading. -/
theorem Reads.block_of_form {b : Block} (form : Form) {body : Bits} {out after : Array UInt8}
    {count : Nat} (hbody : Reads
      (match form with
        | .stored => readStored out
        | .fixed => readCoded CodePair.fixed.books out
        | .described => readDescription >>= fun codes => readCoded codes.books out)
      (count + 3) body after) :
    Reads (readBlock out) count (b.heading form ++ body) (b.isLast, after) := by
  have hnumber : form.number < 2 ^ 2 := by cases form <;> decide
  rw [Block.heading, List.cons_append, ← List.singleton_append, readBlock]
  refine (bit count b.isLast).bind ((number _ hnumber).bind ?_)
  have hall := hbody.bind_last (f := fun out => Pure.pure (b.isLast, out)) (pure _ _)
  cases form with
  | stored => exact hall
  | fixed => exact hall
  | described =>
      rw [bind_assoc] at hall
      exact hall

/-- A block is read back, whatever form it takes. -/
theorem Reads.block {b : Block} (h : b.Says data n m) (htokens : b.tokens.length < 2 ^ 14) (count : Nat) :
    Reads (readBlock (front data n)) count (b.bits count) (b.isLast, front data m) := by
  rw [Block.bits]
  split
  · rename_i hstored
    have hfixed := Nat.le_trans hstored (Nat.min_le_left _ _)
    have hspace := Census.space_fixed_lt htokens
    rw [Block.stored]
    simp only [List.append_assoc]
    have hbody := h.reads_stored (by omega) (count + 3)
    simp only [List.append_assoc] at hbody
    exact block_of_form .stored hbody
  · split
    · exact block_of_form .fixed (coded h.tokens h.le_size (coversAll_fixed b.tokens) _)
    · rw [Block.described, List.append_assoc]
      refine block_of_form .described ?_
      have hreadable := Description.isReadable_of (Census.of_spec b.tokens).1
      exact (Description.reads_description hreadable _).bind
        (coded h.tokens h.le_size (coversAll_codes b.tokens) _)

end WasmEmbed.Payload.Deflate
