import Mathlib.Algebra.Ring.Nat
import WasmEmbed.Proofs.Payload.Deflate.Code

/-!
# Lists of lengths are read back

Each item of a list of lengths adds some equal lengths (`Step.Adds`). The items that are written for a run
add this run whatever came before it (`adds_runSteps`), so the items for two lists, one after the
other, add both. A reader that counts the lengths it has stops at the right one (`Reads.lengths`).
-/

namespace WasmEmbed.Payload.Deflate

/-! ## What items add

The lengths that were read are kept in reverse, so that the last one is at the front. An item that repeats
the last length looks there, and one that stands for zeros does not.
-/

/-- The item adds lengths to those before it; the last length comes first in both lists. -/
inductive Step.Adds : Lengths → Step → Lengths → Prop where
  | length (before : Lengths) {l : Nat} (h : l ≤ maxCodeLength) : Adds before (.length l) (l :: before)
  | again {before : Lengths} {l count : Nat} (hlast : before.head? = some l) (hmin : 3 ≤ count)
      (hmax : count ≤ 6) : Adds before (.again count) (List.replicate count l ++ before)
  | zeros (before : Lengths) {count : Nat} (hmin : 3 ≤ count) (hmax : count ≤ 10) :
      Adds before (.zeros count) (List.replicate count 0 ++ before)
  | manyZeros (before : Lengths) {count : Nat} (hmin : 11 ≤ count) (hmax : count ≤ 138) :
      Adds before (.manyZeros count) (List.replicate count 0 ++ before)

/-- The items add lengths to those before them. -/
inductive Adds : Lengths → List Step → Lengths → Prop where
  | nil (lengths : Lengths) : Adds lengths [] lengths
  | cons {before between after : Lengths} {step : Step} {steps : List Step}
      (h : step.Adds before between) (hrest : Adds between steps after) :
      Adds before (step :: steps) after

namespace Adds

variable {before between after : Lengths} {step : Step} {steps more : List Step}

/-- Items one after the other add one after the other. -/
theorem append (h : Adds before steps between) (hmore : Adds between more after) :
    Adds before (steps ++ more) after := by
  induction h with
  | nil => exact hmore
  | cons h hrest ih => exact .cons h (ih hmore)

/-- One length several times. -/
theorem replicate (before : Lengths) {l : Nat} (hl : l ≤ maxCodeLength) (count : Nat) :
    Adds before (List.replicate count (.length l)) (List.replicate count l ++ before) := by
  induction count generalizing before with
  | zero => exact .nil before
  | succ count ih =>
      have hswap : List.replicate (count + 1) l ++ before = List.replicate count l ++ l :: before := by
        rw [List.replicate_succ', List.append_assoc]
        rfl
      rw [List.replicate_succ, hswap]
      exact .cons (.length before hl) (ih (l :: before))

end Adds

/-- Two runs of one length make one run. -/
theorem replicate_append_replicate {m n count : Nat} (l : Nat) (before : Lengths)
    (h : m + n = count) :
    List.replicate m l ++ (List.replicate n l ++ before) = List.replicate count l ++ before := by
  rw [← List.append_assoc, List.replicate_append_replicate, h]

/-- A run of a length that has come before is written with repetitions, by induction on the bound. -/
theorem adds_repeatSteps {l : Nat} (hl : l ≤ maxCodeLength) {k count : Nat} (hk : count ≤ k)
    {before : Lengths} (hlast : before.head? = some l) :
    Adds before (repeatSteps l k count) (List.replicate count l ++ before) := by
  induction k generalizing count before with
  | zero =>
      obtain rfl := Nat.le_zero.mp hk
      exact .nil before
  | succ k ih =>
      rw [repeatSteps]
      -- Fewer than three lengths are written one by one, and more of them six at a time.
      by_cases hfew : count < 3
      · rw [if_pos hfew]
        exact .replicate before hl count
      · rw [if_neg hfew]
        have hmin : 3 ≤ min count 6 := by omega
        have hhead : (List.replicate (min count 6) l ++ before).head? = some l := by
          obtain ⟨c, hc⟩ := Nat.exists_eq_add_of_le' (Nat.le_trans (by decide : 1 ≤ 3) hmin)
          rw [hc, List.replicate_succ]
          rfl
        have hrest := ih (by omega : count - 6 ≤ k) hhead
        rw [replicate_append_replicate l before (by omega : count - 6 + min count 6 = count)] at hrest
        exact .cons (.again hlast hmin (Nat.min_le_right count 6)) hrest

/-- A run of zeros is written with items for zeros, by induction on the bound. -/
theorem adds_zeroSteps {k count : Nat} (hk : count ≤ k) (before : Lengths) :
    Adds before (zeroSteps k count) (List.replicate count 0 ++ before) := by
  induction k generalizing count before with
  | zero =>
      obtain rfl := Nat.le_zero.mp hk
      exact .nil before
  | succ k ih =>
      rw [zeroSteps]
      -- Fewer than three zeros are written one by one, and more of them in runs.
      by_cases hfew : count < 3
      · rw [if_pos hfew]
        exact .replicate before (Nat.zero_le _) count
      · rw [if_neg hfew]
        have hstep : (if min count 138 ≤ 10 then Step.zeros (min count 138)
            else .manyZeros (min count 138)).Adds before
            (List.replicate (min count 138) 0 ++ before) := by
          by_cases hten : min count 138 ≤ 10
          · rw [if_pos hten]
            exact .zeros before (by omega) hten
          · rw [if_neg hten]
            exact .manyZeros before (by omega) (Nat.min_le_right count 138)
        have hrest := ih (by omega : count - 138 ≤ k)
          (List.replicate (min count 138) 0 ++ before)
        rw [replicate_append_replicate 0 before
          (by omega : count - 138 + min count 138 = count)] at hrest
        exact .cons hstep hrest

/-- The items for a run add it, whatever came before. -/
theorem adds_runSteps {l : Nat} (hl : l ≤ maxCodeLength) (count : Nat) (before : Lengths) :
    Adds before (runSteps l count) (List.replicate count l ++ before) := by
  rw [runSteps]
  by_cases hzero : l = 0
  · subst hzero
    rw [if_pos rfl]
    exact adds_zeroSteps (Nat.le_refl count) before
  · rw [if_neg hzero]
    by_cases hfew : count < 4
    · rw [if_pos hfew]
      exact .replicate before hl count
    · rw [if_neg hfew]
      have hrest := adds_repeatSteps hl (Nat.sub_le count 1) (rfl : (l :: before).head? = some l)
      have hone := replicate_append_replicate l before (by omega : count - 1 + 1 = count)
      rw [← hone]
      exact .cons (.length before hl) hrest

/-- The rest of a list behind a run that was counted. The induction is on the rest. -/
theorem adds_stepsFrom {l : Nat} (count : Nat) {rest : Lengths} (hl : l ≤ maxCodeLength)
    (hrest : ∀ m ∈ rest, m ≤ maxCodeLength) (before : Lengths) :
    Adds before (stepsFrom l count rest) (rest.reverse ++ (List.replicate count l ++ before)) := by
  induction rest generalizing l count before with
  | nil => exact adds_runSteps hl count before
  | cons m rest ih =>
      have hm : m ≤ maxCodeLength := hrest m List.mem_cons_self
      have hmore : ∀ n ∈ rest, n ≤ maxCodeLength := fun n hn => hrest n (List.mem_cons_of_mem m hn)
      rw [stepsFrom, List.reverse_cons, List.append_assoc]
      by_cases hsame : m = l
      · subst hsame
        rw [if_pos rfl]
        exact ih (count + 1) hm hmore before
      · rw [if_neg hsame]
        exact (adds_runSteps hl count before).append (ih 1 hm hmore _)

/-- The items for a list of lengths add the list. -/
theorem Lengths.adds_steps {lengths : Lengths} (h : ∀ l ∈ lengths, l ≤ maxCodeLength)
    (before : Lengths) : Adds before lengths.steps (lengths.reverse ++ before) := by
  cases lengths with
  | nil => exact .nil before
  | cons l rest =>
      rw [List.reverse_cons, List.append_assoc]
      exact adds_stepsFrom 1 (h l List.mem_cons_self)
        (fun m hm => h m (List.mem_cons_of_mem l hm)) before

/-! ## Reading items

The reader stops when it has as many lengths as were announced. Each item adds one length at least, so the
bound on the number of items is never used up before.
-/

namespace Step

/-- The symbols of items are those of the code for lengths. -/
theorem Adds.symbol_lt {before after : Lengths} {step : Step} (h : step.Adds before after) :
    step.symbol < 19 := by
  cases h with
  | length h =>
      have hmax : maxCodeLength < 19 := by decide
      exact Nat.lt_of_le_of_lt h hmax
  | again hlast hmin hmax =>
      show 16 < 19
      omega
  | zeros hmin hmax =>
      show 17 < 19
      omega
  | manyZeros hmin hmax =>
      show 18 < 19
      omega

/-- An item is read back as some number of equal lengths. -/
theorem Adds.reads {before after : Lengths} {step : Step} (h : step.Adds before after)
    (behind : Nat) : ∃ count l, Reads (readStep step.symbol before.head?) behind step.extra (count, l) ∧
      0 < count ∧ after = List.replicate count l ++ before := by
  cases h with
  | @length l h =>
      refine ⟨1, l, ?_, Nat.one_pos, rfl⟩
      have hlt : l < 16 := Nat.lt_succ_of_le h
      rw [readStep, symbol, if_pos hlt]
      exact .pure behind (1, l)
  | @again l count hlast hmin hmax =>
      refine ⟨count, l, ?_, by omega, rfl⟩
      have hread := Reads.number (k := 2) (v := count - 3) behind (by omega)
      have hcount : count - 3 + 3 = count := by omega
      rw [readStep, symbol, if_neg (by decide), if_pos rfl, hlast]
      have hpair := hread.bind_pure (f := fun c => (c + 3, l))
      rwa [hcount] at hpair
  | @zeros count hmin hmax =>
      refine ⟨count, 0, ?_, by omega, rfl⟩
      have hread := Reads.number (k := 3) (v := count - 3) behind (by omega)
      have hcount : count - 3 + 3 = count := by omega
      rw [readStep, symbol, if_neg (by decide), if_neg (by decide), if_pos rfl]
      have hpair := hread.bind_pure (f := fun c => (c + 3, 0))
      rwa [hcount] at hpair
  | @manyZeros count hmin hmax =>
      refine ⟨count, 0, ?_, by omega, rfl⟩
      have hread := Reads.number (k := 7) (v := count - 11) behind (by omega)
      have hcount : count - 11 + 11 = count := by omega
      rw [readStep, symbol, if_neg (by decide), if_neg (by decide), if_neg (by decide)]
      have hpair := hread.bind_pure (f := fun c => (c + 11, 0))
      rwa [hcount] at hpair

end Step

/-- Each item adds at least one length. -/
theorem Adds.length_add_le {before after : Lengths} {steps : List Step} (h : Adds before steps after) :
    before.length + steps.length ≤ after.length := by
  induction h with
  | nil => exact Nat.le_refl _
  | cons h hrest ih =>
      obtain ⟨count, l, -, hpos, rfl⟩ := h.reads 0
      rw [List.length_append, List.length_replicate] at ih
      rw [List.length_cons]
      omega

/-- The bits of an item in a code. -/
def Lengths.stepBits (code : Lengths) (step : Step) : Bits := code.codeword step.symbol ++ step.extra

/-- A list of lengths is read back from its items. -/
theorem Reads.lengths {code : Lengths} (hcode : code.IsCode) {before after : Lengths}
    {steps : List Step} (h : Adds before steps after)
    (hcovers : ∀ step ∈ steps, code.Covers step.symbol) {k : Nat} (hk : steps.length ≤ k)
    (count : Nat) :
    Reads (readLengths (.ofLengths code) after.length k before) count
      (steps.flatMap code.stepBits) after.reverse := by
  induction h generalizing k count with
  | nil lengths =>
      cases k with
      | zero => exact pure count _
      | succ k =>
          rw [readLengths, if_pos (Nat.le_refl _)]
          exact pure count _
  | @cons before between after step steps h hrest ih =>
      cases k with
      | zero => exact absurd hk (by simp)
      | succ k =>
          obtain ⟨number, l, hread, hpos, rfl⟩ :=
            h.reads (count + (code.codeword step.symbol).length)
          have hlength := hrest.length_add_le
          rw [List.length_append, List.length_replicate] at hlength
          rw [readLengths, if_neg (by omega), List.flatMap_cons, Lengths.stepBits, List.append_assoc]
          refine (symbol? count (hcode.find_codeword (hcovers step List.mem_cons_self))).bind ?_
          refine hread.bind (bind_nil (check (decide_eq_true (by omega))) ?_)
          exact ih (fun s hs => hcovers s (List.mem_cons_of_mem step hs)) (Nat.le_of_succ_le_succ hk) _

end WasmEmbed.Payload.Deflate
