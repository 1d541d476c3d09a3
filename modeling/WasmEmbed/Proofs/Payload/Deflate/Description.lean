import Mathlib.Data.List.TakeWhile
import WasmEmbed.Proofs.Payload.Deflate.Huffman
import WasmEmbed.Proofs.Payload.Deflate.Repeat

/-!
# Descriptions of codes are read back

A description says how long the two lists of lengths are, gives the code in which their items are written,
and then the items. The lengths of that code stand in an order of their own, without the zeros at the
end; the reader fills them in again, and zeros behind a code change none of its codewords
(`codeword_pad`).
-/

namespace WasmEmbed.Payload.Deflate

/-! ## Zeros behind a list

A symbol without a codeword has length zero, and so has each symbol behind the end of the list. So zeros
at the end of a list say nothing.
-/

/-- Behind the end of a list stands a zero in any case. -/
theorem getD_append_zeros (list : List Nat) (k i : Nat) :
    (list ++ List.replicate k 0).getD i 0 = list.getD i 0 := by
  rw [List.getD_eq_getElem?_getD, List.getD_eq_getElem?_getD]
  rcases Nat.lt_or_ge i list.length with hlt | hge
  · rw [List.getElem?_append_left hlt]
  · rw [List.getElem?_append_right hge, List.getElem?_eq_none hge, List.getElem?_replicate]
    split <;> rfl

/-- A list ends with its last zeros. -/
theorem exists_append_zeros (list : List Nat) : ∃ front,
    list = front ++ List.replicate (list.reverse.takeWhile (· == 0)).length 0 := by
  refine ⟨(list.reverse.dropWhile (· == 0)).reverse, ?_⟩
  have hzeros : list.reverse.takeWhile (· == 0) =
      List.replicate (list.reverse.takeWhile (· == 0)).length 0 :=
    List.eq_replicate_of_mem fun n hn => beq_iff_eq.mp (List.mem_takeWhile_imp (p := (· == 0)) hn)
  have hsplit := List.takeWhile_append_dropWhile (p := (· == 0)) (l := list.reverse)
  rw [hzeros] at hsplit
  refine List.reverse_inj.mp ?_
  rw [List.reverse_append, List.reverse_reverse, List.reverse_replicate, hsplit]

/-- Dropping zeros at the end of a list loses nothing. -/
theorem getD_take_of_le {list : List Nat} {k : Nat}
    (hk : list.length - (list.reverse.takeWhile (· == 0)).length ≤ k) (i : Nat) :
    (list.take k).getD i 0 = list.getD i 0 := by
  obtain ⟨front, hfront⟩ := exists_append_zeros list
  generalize (list.reverse.takeWhile (· == 0)).length = zeros at hk hfront
  rw [hfront] at hk ⊢
  rw [List.length_append, List.length_replicate, Nat.add_sub_cancel] at hk
  rw [List.take_append, List.take_of_length_le hk, List.take_replicate, getD_append_zeros,
    getD_append_zeros]

namespace Lengths

/-- The code with symbols behind it that have no codewords. -/
def pad (lengths : Lengths) (k : Nat) : Lengths := lengths ++ List.replicate k 0

/-- Zeros take no room. -/
theorem first_pad (lengths : Lengths) (k length : Nat) :
    first (lengths.pad k) length = first lengths length := by
  induction lengths with
  | nil =>
      induction k with
      | zero => rfl
      | succ k ih =>
          show first (0 :: pad [] k) length = 0
          rw [first_cons, if_neg (by omega), ih]
          rfl
  | cons l lengths ih =>
      show first (l :: pad lengths k) length = _
      rw [first_cons, ih, first_cons]

theorem total_pad (lengths : Lengths) (k : Nat) : (lengths.pad k).total = lengths.total := by
  induction lengths with
  | nil =>
      induction k with
      | zero => rfl
      | succ k ih =>
          show total (0 :: pad [] k) = 0
          rw [total_cons, ih]
          rfl
  | cons l lengths ih =>
      show total (l :: pad lengths k) = _
      rw [total_cons, ih, total_cons]

theorem isComplete_pad (lengths : Lengths) (k : Nat) :
    (lengths.pad k).isComplete = lengths.isComplete := by
  rw [isComplete, isComplete, total_pad, pad, List.all_append]
  have hzeros : (List.replicate k 0).all (fun l => decide (l ≤ maxCodeLength)) = true :=
    List.all_eq_true.mpr fun l hl => by
      rw [List.eq_of_mem_replicate hl]
      exact decide_eq_true (Nat.zero_le _)
  rw [hzeros, Bool.and_true]

/-- A symbol keeps its codeword when zeros are added. -/
theorem covers_pad {lengths : Lengths} {s : Nat} (h : lengths.Covers s) (k : Nat) :
    (lengths.pad k).Covers s := by
  rwa [Covers, pad, getD_append_zeros]

/-- Symbols without codewords do not change the codewords of others. -/
theorem codeword_pad {lengths : Lengths} {s : Nat} (h : s < lengths.length) (k : Nat) :
    (lengths.pad k).codeword s = lengths.codeword s := by
  have hpad : s < (lengths.pad k).length := by
    rw [pad, List.length_append]
    exact Nat.lt_add_right _ h
  have htake : (lengths.pad k).take s = lengths.take s :=
    List.take_append_of_le_length (Nat.le_of_lt h)
  have hget : (lengths.pad k).getD s 0 = lengths.getD s 0 := getD_append_zeros lengths k s
  rw [codeword_eq hpad, codeword_eq h, number_eq, number_eq, htake, first_pad, hget]

end Lengths

/-! ## The code for lengths

Of the code for items at most nineteen lengths are written, three bits each, in an order in which those
that are often zero come last.
-/

namespace Description

theorem length_lengthOrder : lengthOrder.length = 19 := rfl

/-- Each symbol of the code for lengths stands once in their order. -/
theorem lengthOrder_idxOf : ∀ s < 19, lengthOrder[lengthOrder.idxOf s]? = some s := by decide

variable {d : Description}

/-- At least four lengths are written. -/
theorem length_ordered (d : Description) : 4 ≤ d.ordered.length ∧ d.ordered.length ≤ 19 := by
  rw [ordered]
  simp only [List.length_take, List.length_map, length_lengthOrder]
  omega

/-- The lengths of the code for lengths are found in their order. -/
theorem getD_ordered (d : Description) {s : Nat} (hs : s < 19) :
    d.ordered.getD (lengthOrder.idxOf s) 0 = d.stepCode.getD s 0 := by
  rw [ordered]
  rw [getD_take_of_le (Nat.le_max_right _ _), List.getD_eq_getElem?_getD, List.getElem?_map,
    lengthOrder_idxOf s hs, Option.map_some, Option.getD_some]

/-- The reader fills in the zeros that were left out. -/
theorem stepCode_read (hlength : d.stepCode.length ≤ 19) :
    ((List.range 19).map fun s => d.ordered.getD (lengthOrder.idxOf s) 0) =
      d.stepCode.pad (19 - d.stepCode.length) := by
  have hpad : (d.stepCode.pad (19 - d.stepCode.length)).length = 19 := by
    rw [Lengths.pad, List.length_append, List.length_replicate]
    omega
  refine List.ext_getElem (by rw [List.length_map, List.length_range, hpad]) fun s hs hs' => ?_
  rw [List.length_map, List.length_range] at hs
  rw [List.getElem_map, List.getElem_range, getD_ordered d hs, ← getD_append_zeros,
    List.getD_eq_getElem?_getD, ← Lengths.pad, List.getElem?_eq_getElem hs', Option.getD_some]

/-! ## Reading a description

A description is readable if its codes are complete, the code for items has a codeword for each item, and
the numbers in front fit into their bits.
-/

/-- The description is one that the reader accepts. -/
structure IsReadable (d : Description) : Prop where
  symbols_complete : d.codes.symbols.isComplete = true
  distances_complete : d.codes.distances.isComplete = true
  stepCode_complete : d.stepCode.isComplete = true
  symbols_min : endSymbol < d.codes.symbols.length
  symbols_max : d.codes.symbols.length ≤ symbolCount
  distances_min : 0 < d.codes.distances.length
  distances_max : d.codes.distances.length ≤ distanceCount
  endSymbol : d.codes.symbols.Covers endSymbol
  steps : d.steps = d.codes.symbols.steps ++ d.codes.distances.steps
  stepCode_length : d.stepCode.length ≤ 19
  stepCode_le : ∀ l ∈ d.stepCode, l ≤ maxLength
  stepCode_covers : ∀ step ∈ d.steps, d.stepCode.Covers step.symbol

namespace IsReadable

/-- The items add both lists of lengths. -/
theorem adds (h : d.IsReadable) :
    Adds [] d.steps (d.codes.symbols ++ d.codes.distances).reverse := by
  have hsymbols := Lengths.adds_steps (Lengths.isCode_of_isComplete h.symbols_complete).le_max []
  have hdistances := Lengths.adds_steps
    (Lengths.isCode_of_isComplete h.distances_complete).le_max (d.codes.symbols.reverse ++ [])
  rw [h.steps, List.reverse_append]
  rw [List.append_nil] at hsymbols hdistances
  exact hsymbols.append hdistances

/-- The lengths of the code for lengths are small enough for three bits. -/
theorem ordered_lt (h : d.IsReadable) : ∀ l ∈ d.ordered, l < 2 ^ 3 := by
  intro l hl
  obtain ⟨s, -, rfl⟩ := List.mem_map.mp (List.mem_of_mem_take hl)
  rw [List.getD_eq_getElem?_getD]
  cases hget : d.stepCode[s]? with
  | none => exact Nat.two_pow_pos 3
  | some l => exact Nat.lt_succ_of_le (h.stepCode_le l (List.mem_of_getElem? hget))

/-- The code for items is read back, with zeros up to its nineteen symbols. -/
theorem reads_stepCode (h : d.IsReadable) (count : Nat) :
    Reads (readStepCode d.ordered.length) count (d.ordered.flatMap (Bits.ofNat 3))
      (d.stepCode.pad (19 - d.stepCode.length)) := by
  rw [readStepCode]
  refine (Reads.mapM List.length_range (fun l hl count => Reads.number count (h.ordered_lt l hl))
    count).bind_last ?_
  simp only [stepCode_read h.stepCode_length]
  refine (Reads.check ?_).bind_nil (.pure _ _)
  rw [Lengths.isComplete_pad, h.stepCode_complete, Bool.or_true]

end IsReadable

/-- The codes are read back from their description. -/
theorem reads_description (h : d.IsReadable) (count : Nat) :
    Reads readDescription count d.bits d.codes := by
  have hsymbols := h.symbols_min
  have hsymbols' := h.symbols_max
  have hdistances := h.distances_min
  have hdistances' := h.distances_max
  obtain ⟨hordered, hordered'⟩ := d.length_ordered
  rw [endSymbol] at hsymbols
  rw [symbolCount] at hsymbols'
  rw [distanceCount] at hdistances'
  have hadds := h.adds
  -- Lengths that the description leaves out at the end are read as zeros.
  have hcode : (d.stepCode.pad (19 - d.stepCode.length)).IsCode :=
    Lengths.isCode_of_isComplete ((Lengths.isComplete_pad _ _).trans h.stepCode_complete)
  have hcovers : ∀ step ∈ d.steps,
      (d.stepCode.pad (19 - d.stepCode.length)).Covers step.symbol :=
    fun step hstep => Lengths.covers_pad (h.stepCode_covers step hstep) _
  have hbits : d.steps.flatMap (d.stepCode.pad (19 - d.stepCode.length)).stepBits =
      d.steps.flatMap d.stepCode.stepBits := by
    rw [List.flatMap_def, List.flatMap_def]
    refine congrArg List.flatten (List.map_congr_left fun step hstep => ?_)
    rw [Lengths.stepBits, Lengths.codeword_pad (h.stepCode_covers step hstep).lt_length]
    rfl
  have hlength : d.codes.symbols.length - 257 + 257 + (d.codes.distances.length - 1 + 1) =
      (d.codes.symbols ++ d.codes.distances).reverse.length := by
    rw [List.length_reverse, List.length_append]
    omega
  have hsteps := hadds.length_add_le
  have hlist := fun count => Reads.lengths hcode hadds hcovers
    (k := (d.codes.symbols ++ d.codes.distances).reverse.length) (by simpa using hsteps) count
  rw [hbits, List.reverse_reverse] at hlist
  have hdivide : d.codes.symbols.length - 257 + 257 = d.codes.symbols.length := by omega
  -- Three counts come first, then the code for lengths, and then the lengths.
  rw [bits]
  simp only [List.append_assoc]
  refine (Reads.number count (by omega)).bind ((Reads.number _ (by omega)).bind
    ((Reads.number _ (by omega)).bind ((Reads.check ?_).bind_nil ?_)))
  · rw [Bool.and_eq_true, decide_eq_true_eq, decide_eq_true_eq, symbolCount, distanceCount]
    omega
  · rw [Nat.sub_add_cancel hordered]
    refine (h.reads_stepCode _).bind ?_
    rw [hlength]
    refine (hlist _).bind_last ?_
    simp only [hdivide, List.take_left, List.drop_left]
    refine (Reads.check ?_).bind_nil ((Reads.check ?_).bind_nil ((Reads.check ?_).bind_nil
      (.pure _ _)))
    · exact bne_iff_ne.mpr h.endSymbol
    · rw [h.symbols_complete, Bool.true_or]
    · rw [h.distances_complete, Bool.true_or, Bool.true_or]

end Description

end WasmEmbed.Payload.Deflate
