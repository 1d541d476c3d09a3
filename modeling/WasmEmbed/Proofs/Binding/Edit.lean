import Mathlib.Data.List.Basic
import WasmEmbed.Binding.Edit

/-!
# Edits made at once

Edits are made from the last to the first, so that the places of the others stay where they are. What
comes out is the same as if all were made at once on the old bytes (`applyAll?_of_apart`): the bytes
between the edits are kept, and each edit puts its own bytes in the place of the old ones (`splice`).
-/

namespace WasmEmbed.Binding.Edit

open Script

/-- An edit lies in the data. -/
def IsIn (data : List UInt8) (e : Edit) : Prop :=
  e.span.start ≤ e.span.stop ∧ e.span.stop ≤ data.length

/-- One edit ends where the other begins or before. -/
def IsBefore (a b : Edit) : Prop := a.span.stop ≤ b.span.start

instance (a b : Edit) : Decidable (a.IsBefore b) :=
  inferInstanceAs (Decidable (a.span.stop ≤ b.span.start))

/-- The bytes from one place up to another. -/
def between (data : List UInt8) (i j : Nat) : List UInt8 := (data.drop i).take (j - i)

/-- The bytes that an edit replaces. -/
def old (data : List UInt8) (e : Edit) : List UInt8 := between data e.span.start e.span.stop

/-- The bytes from `o` on with all edits made at once. -/
def splice (data : List UInt8) : Nat → List Edit → List UInt8
  | o, [] => data.drop o
  | o, e :: rest => between data o e.span.start ++ e.replacement ++ splice data e.span.stop rest

/-- What stands between two places and what stands behind the second. -/
theorem between_append_drop (data : List UInt8) {i j : Nat} (h : i ≤ j) :
    between data i j ++ data.drop j = data.drop i := by
  have hdrop : data.drop j = (data.drop i).drop (j - i) := by
    rw [List.drop_drop, Nat.add_sub_cancel' h]
  rw [between, hdrop, List.take_append_drop]

/-- Two neighbouring stretches of bytes are one. -/
theorem between_append_between (data : List UInt8) {i j k : Nat} (hij : i ≤ j) (hjk : j ≤ k) :
    between data i j ++ between data j k = between data i k := by
  have hdrop : data.drop j = (data.drop i).drop (j - i) := by
    rw [List.drop_drop, Nat.add_sub_cancel' hij]
  rw [between, between, between, hdrop, ← List.take_add]
  congr 1
  omega

theorem take_append_between (data : List UInt8) {i j : Nat} (h : i ≤ j) :
    data.take i ++ between data i j = data.take j := by
  rw [between, ← List.take_add]
  congr 1
  omega

/-! ## Making edits one after the other

The last edit is made first. What stands in front of it does not change, so the places of the other edits
are still right.
-/

/-- Edits in order that are made from the last to the first are made at once. -/
theorem foldr_apply {data : List UInt8} {edits : List Edit} {o : Nat} (ho : o ≤ data.length)
    (hin : ∀ e ∈ edits, e.IsIn data ∧ o ≤ e.span.start) (hbefore : edits.Pairwise IsBefore) :
    edits.foldr (fun e d => apply d e) data = data.take o ++ splice data o edits := by
  induction edits generalizing o with
  | nil => exact (List.take_append_drop o data).symm
  | cons e rest ih =>
      obtain ⟨⟨hlt, hlen⟩, hoe⟩ := hin e (by simp)
      obtain ⟨hhead, htail⟩ := List.pairwise_cons.mp hbefore
      have hrest := ih hlen (fun e' he' => ⟨(hin e' (by simp [he'])).1, hhead e' he'⟩) htail
      have hlength : (data.take e.span.stop).length = e.span.stop := by simp [hlen]
      rw [List.foldr_cons, hrest, apply, splice]
      -- What the later edits leave in front of this one is what was there.
      rw [List.take_append_of_le_length (by omega), List.take_take, Nat.min_eq_left hlt,
        List.drop_append_of_le_length (by omega), List.drop_of_length_le (by omega), List.nil_append,
        ← take_append_between data hoe]
      simp only [List.append_assoc]

/-! ## Putting edits in order

Sorting keeps the edits and puts them in the order of their beginnings. Edits that are apart are then one
before the other.
-/

/-- Sorting keeps the edits. -/
theorem sorted_perm (edits : List Edit) : (sorted edits).Perm edits := List.mergeSort_perm _ _

theorem pairwise_sorted (edits : List Edit) :
    (sorted edits).Pairwise fun a b => a.span.start ≤ b.span.start := by
  have h : (sorted edits).Pairwise fun a b => decide (a.span.start ≤ b.span.start) = true := by
    refine List.pairwise_mergeSort ?_ ?_ edits
    · intro a b c hab hbc
      simp only [decide_eq_true_eq] at *
      omega
    · intro a b
      simp only [Bool.or_eq_true, decide_eq_true_eq]
      omega
  exact h.imp (by simp)

/-- Edits of which no two overlap, each with something to replace, come one behind the other. -/
theorem pairwise_isBefore_sorted {edits : List Edit}
    (hne : ∀ e ∈ edits, e.span.start < e.span.stop)
    (hapart : edits.Pairwise fun a b => a.IsBefore b ∨ b.IsBefore a) :
    (sorted edits).Pairwise IsBefore := by
  have hperm := sorted_perm edits
  have hapart' := hperm.symm.pairwise hapart fun h => h.symm
  refine (hapart'.and (pairwise_sorted edits)).imp_of_mem ?_
  rintro a b - hb ⟨hab | hba, hle⟩
  · exact hab
  · have := hne b (hperm.mem_iff.mp hb)
    simp only [IsBefore] at hba ⊢
    omega

/-- Edits one before the other are apart. -/
theorem areApart_of_pairwise {edits : List Edit} (h : edits.Pairwise IsBefore) :
    areApart edits = true := by
  induction edits with
  | nil => rfl
  | cons a rest ih =>
      obtain ⟨hhead, htail⟩ := List.pairwise_cons.mp h
      cases rest with
      | nil => rfl
      | cons b rest =>
          have hab := hhead b (by simp)
          simp only [areApart, Bool.and_eq_true, decide_eq_true_eq]
          exact ⟨hab, ih htail⟩

/-- Edits of which no two overlap are made at once. -/
theorem applyAll?_of_apart {data : List UInt8} {edits : List Edit}
    (hin : ∀ e ∈ edits, e.span.start < e.span.stop ∧ e.span.stop ≤ data.length)
    (hapart : edits.Pairwise fun a b => a.IsBefore b ∨ b.IsBefore a) :
    applyAll? data edits = some (splice data 0 (sorted edits)) := by
  have hbefore := pairwise_isBefore_sorted (fun e he => (hin e he).1) hapart
  have hsorted : ∀ e ∈ sorted edits, e.IsIn data ∧ 0 ≤ e.span.start := by
    intro e he
    have h := hin e ((sorted_perm edits).mem_iff.mp he)
    exact ⟨⟨Nat.le_of_lt h.1, h.2⟩, Nat.zero_le _⟩
  rw [applyAll?, if_pos (areApart_of_pairwise hbefore), foldr_apply (Nat.zero_le _) hsorted hbefore]
  simp

/-- Edits are made at once in whatever order they are given. -/
theorem applyAll?_of_perm {data : List UInt8} {edits ordered : List Edit} (hperm : ordered.Perm edits)
    (hin : ∀ e ∈ ordered, e.span.start < e.span.stop ∧ e.span.stop ≤ data.length)
    (hbefore : ordered.Pairwise IsBefore) : applyAll? data edits = some (splice data 0 ordered) := by
  have hin' : ∀ e ∈ edits, e.span.start < e.span.stop ∧ e.span.stop ≤ data.length :=
    fun e he => hin e (hperm.mem_iff.mpr he)
  have hapart : edits.Pairwise fun a b => a.IsBefore b ∨ b.IsBefore a :=
    hperm.pairwise (hbefore.imp Or.inl) fun h => h.symm
  rw [applyAll?_of_apart hin' hapart]
  have hsorted : sorted edits = ordered := by
    refine List.Perm.eq_of_pairwise ?_ (pairwise_isBefore_sorted (fun e he => (hin' e he).1) hapart)
      hbefore ((sorted_perm edits).trans hperm.symm)
    intro a b ha hb hab hba
    have := hin' a ((sorted_perm edits).mem_iff.mp ha)
    have := hin b hb
    simp only [IsBefore] at hab hba
    omega
  rw [hsorted]

/-! ## Edits that change nothing

An edit that writes what it takes can be left out, and so can all but one of several edits.
-/

/-- Edits that put back what they replace change nothing. -/
theorem splice_of_old {data : List UInt8} {edits : List Edit} {o : Nat}
    (hin : ∀ e ∈ edits, e.IsIn data ∧ o ≤ e.span.start) (hbefore : edits.Pairwise IsBefore)
    (hold : ∀ e ∈ edits, e.replacement = e.old data) : splice data o edits = data.drop o := by
  induction edits generalizing o with
  | nil => rfl
  | cons e rest ih =>
      obtain ⟨⟨hle, -⟩, hoe⟩ := hin e (by simp)
      obtain ⟨hhead, htail⟩ := List.pairwise_cons.mp hbefore
      rw [splice, ih (fun e' he' => ⟨(hin e' (by simp [he'])).1, hhead e' he'⟩) htail
        (fun e' he' => hold e' (by simp [he'])), hold e (by simp), old, List.append_assoc,
        between_append_drop data hle, between_append_drop data hoe]

/-- If all edits but one put back what they replace, that one alone is made. -/
theorem splice_of_old_but_one {data : List UInt8} {front back : List Edit} {e : Edit} {o : Nat}
    (hin : ∀ e' ∈ front ++ e :: back, e'.IsIn data ∧ o ≤ e'.span.start)
    (hbefore : (front ++ e :: back).Pairwise IsBefore)
    (hold : ∀ e' ∈ front ++ back, e'.replacement = e'.old data) :
    splice data o (front ++ e :: back) =
      between data o e.span.start ++ e.replacement ++ data.drop e.span.stop := by
  induction front generalizing o with
  | nil =>
      obtain ⟨hhead, htail⟩ := List.pairwise_cons.mp hbefore
      rw [List.nil_append, splice, splice_of_old
        (fun e' he' => ⟨(hin e' (by simp [he'])).1, hhead e' he'⟩) htail
        (fun e' he' => hold e' (by simp [he']))]
  | cons a front ih =>
      obtain ⟨⟨hle, -⟩, hoa⟩ := hin a (by simp)
      obtain ⟨hhead, htail⟩ := List.pairwise_cons.mp hbefore
      have hae : a.span.stop ≤ e.span.start := hhead e (by simp)
      rw [List.cons_append, splice,
        ih (fun e' he' => ⟨(hin e' (by simp [he'])).1, hhead e' he'⟩) htail
          (fun e' he' => hold e' (by simp [he'])), hold a (by simp), old]
      rw [← between_append_between data (Nat.le_trans hoa hle) hae, ← between_append_between data hoa hle]
      simp only [List.append_assoc]

/-- If all edits but one put back what they replace, making all of them makes that one. -/
theorem applyAll?_of_old_but_one {data : List UInt8} {edits : List Edit} {e : Edit} (he : e ∈ edits)
    (hin : ∀ e' ∈ edits, e'.span.start < e'.span.stop ∧ e'.span.stop ≤ data.length)
    (hapart : edits.Pairwise fun a b => a.IsBefore b ∨ b.IsBefore a)
    (hold : ∀ e' ∈ edits, e' ≠ e → e'.replacement = e'.old data) :
    applyAll? data edits =
      some (between data 0 e.span.start ++ e.replacement ++ data.drop e.span.stop) := by
  have hmem : ∀ e', e' ∈ sorted edits ↔ e' ∈ edits := fun _ => (sorted_perm edits).mem_iff
  have hbefore := pairwise_isBefore_sorted (fun e' he' => (hin e' he').1) hapart
  rw [applyAll?_of_apart hin hapart]
  obtain ⟨front, back, hsplit⟩ := List.append_of_mem ((hmem e).mpr he)
  rw [hsplit] at hmem hbefore ⊢
  rw [splice_of_old_but_one _ hbefore]
  · -- An edit with something to replace does not end before it begins, so it stands there once.
    have hlt := (hin e he).1
    intro e' he'
    have hedit : e' ∈ edits := (hmem e').mp (by simp at he' ⊢; tauto)
    refine hold e' hedit ?_
    rintro rfl
    obtain ⟨-, hback, hfront⟩ := List.pairwise_append.mp hbefore
    rcases List.mem_append.mp he' with h | h
    · have := hfront e' h e' (by simp)
      simp only [IsBefore] at this
      omega
    · have := (List.pairwise_cons.mp hback).1 e' h
      simp only [IsBefore] at this
      omega
  · intro e' he'
    have h := hin e' ((hmem e').mp he')
    exact ⟨⟨Nat.le_of_lt h.1, h.2⟩, Nat.zero_le _⟩

end WasmEmbed.Binding.Edit
