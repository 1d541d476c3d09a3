import Mathlib.Data.List.Pairwise
import WasmEmbed.Proofs.Binding.Edit

/-!
# Edits and the bytes place by place

What edits leave of a text can be said without any order among them: at each place stands what the edit
that begins there writes, and then the old byte, unless an edit takes it (`atOnce`). `applyAll?` sorts the
edits, compares neighbours only, and makes the last edit first. Where no two edits begin at one place
this finds every overlap, and without an overlap the outcome is just those bytes (`applied_at_once`).
An edit may be empty: it takes no byte, and what it writes comes in front of the byte at its place.
-/

namespace WasmEmbed.Binding.Edit

variable {data : List UInt8} {edits : List Edit}

/-! ## The bytes place by place

These definitions do not mention any order. They are computed, so that an outcome can be checked on an
example.
-/

instance (data : List UInt8) (e : Edit) : Decidable (e.IsIn data) :=
  inferInstanceAs (Decidable (e.span.start ≤ e.span.stop ∧ e.span.stop ≤ data.length))

/-- The edit takes the byte at place `i`. -/
def Takes (e : Edit) (i : Nat) : Prop := e.span.start ≤ i ∧ i < e.span.stop

instance (e : Edit) (i : Nat) : Decidable (e.Takes i) :=
  inferInstanceAs (Decidable (e.span.start ≤ i ∧ i < e.span.stop))

/-- The edit `b` begins behind the beginning of `a` and in front of the end of `a`. -/
def Overlaps (a b : Edit) : Prop := a.span.start < b.span.start ∧ b.span.start < a.span.stop

instance (a b : Edit) : Decidable (a.Overlaps b) :=
  inferInstanceAs (Decidable (a.span.start < b.span.start ∧ b.span.start < a.span.stop))

/-- What the edits that begin at place `i` write. -/
def written (edits : List Edit) (i : Nat) : List UInt8 :=
  (edits.filter fun e => e.span.start = i).flatMap (·.replacement)

/-- What the edits leave of the byte at place `i`. -/
def kept (data : List UInt8) (edits : List Edit) (i : Nat) : List UInt8 :=
  if ∃ e ∈ edits, e.Takes i then [] else data[i]?.toList

/-- What comes to stand at the places from `i` up to `j`. -/
def atPlaces (data : List UInt8) (edits : List Edit) (i j : Nat) : List UInt8 :=
  (List.range' i (j - i)).flatMap fun k => written edits k ++ kept data edits k

/-- The bytes after all edits, from the first place to the one behind the last byte. -/
def atOnce (data : List UInt8) (edits : List Edit) : List UInt8 :=
  atPlaces data edits 0 (data.length + 1)

/-- What one more edit writes at a place comes in front. -/
theorem written_cons (e : Edit) (edits : List Edit) (i : Nat) :
    written (e :: edits) i = (if e.span.start = i then e.replacement else []) ++ written edits i := by
  by_cases h : e.span.start = i <;> simp [written, h]

/-- Where no edit begins nothing is written. -/
theorem written_eq_nil {i : Nat} (h : ∀ e ∈ edits, e.span.start ≠ i) : written edits i = [] := by
  have hfilter : edits.filter (fun e => e.span.start = i) = [] := by simpa using h
  rw [written, hfilter, List.flatMap_nil]

/-- A byte that an edit takes is not kept. -/
theorem kept_cons_of_takes {e : Edit} {i : Nat} (h : e.Takes i) : kept data (e :: edits) i = [] :=
  if_pos ⟨e, List.mem_cons_self, h⟩

theorem kept_cons_of_not_takes {e : Edit} {i : Nat} (h : ¬ e.Takes i) :
    kept data (e :: edits) i = kept data edits i := by
  simp [kept, h]

/-! ## Stretches of places

A stretch of places is the concatenation of its parts. A stretch that no edit touches holds the old bytes.
-/

/-- Two stretches, one behind the other, are one. -/
theorem atPlaces_append (data : List UInt8) (edits : List Edit) {i j k : Nat} (hij : i ≤ j)
    (hjk : j ≤ k) : atPlaces data edits i j ++ atPlaces data edits j k = atPlaces data edits i k := by
  have hrange : List.range' i (k - i) = List.range' i (j - i) ++ List.range' j (k - j) := by
    have h : List.range' i (j - i) ++ List.range' (i + (j - i)) (k - j) =
        List.range' i (j - i + (k - j)) := List.range'_append_1
    have hlength : j - i + (k - j) = k - i := by omega
    rw [Nat.add_sub_cancel' hij, hlength] at h
    exact h.symm
  rw [atPlaces, atPlaces, atPlaces, hrange, List.flatMap_append]

/-- A place holds what is written there and the byte that is kept. -/
theorem atPlaces_succ (data : List UInt8) (edits : List Edit) (i : Nat) :
    atPlaces data edits i (i + 1) = written edits i ++ kept data edits i := by
  rw [atPlaces, Nat.add_sub_cancel_left, List.range'_one, List.flatMap_singleton]

/-- Only what is written and kept at the places themselves matters. -/
theorem atPlaces_congr {other : List Edit} {i j : Nat}
    (h : ∀ k, i ≤ k → k < j → written edits k = written other k ∧ kept data edits k = kept data other k) :
    atPlaces data edits i j = atPlaces data other i j := by
  refine List.flatMap_congr fun k hk => ?_
  obtain ⟨hik, hkj⟩ := List.mem_range'_1.mp hk
  obtain ⟨hwritten, hkept⟩ := h k hik (by omega)
  rw [hwritten, hkept]

theorem atPlaces_eq_nil {i j : Nat}
    (h : ∀ k, i ≤ k → k < j → written edits k = [] ∧ kept data edits k = []) :
    atPlaces data edits i j = [] := by
  refine List.flatMap_eq_nil_iff.mpr fun k hk => ?_
  obtain ⟨hik, hkj⟩ := List.mem_range'_1.mp hk
  obtain ⟨hwritten, hkept⟩ := h k hik (by omega)
  rw [hwritten, hkept, List.append_nil]

/-- Without edits the old bytes stay. -/
theorem atPlaces_nil (data : List UInt8) (i n : Nat) :
    atPlaces data [] i (i + n) = between data i (i + n) := by
  have hplace : ∀ k, atPlaces data [] k (k + 1) = data[k]?.toList := fun k => by
    rw [atPlaces_succ]
    simp [written, kept]
  induction n generalizing i with
  | zero => simp [atPlaces, between]
  | succ n ih =>
      have hfirst : data[i]?.toList = between data i (i + 1) := by
        rw [between, Nat.add_sub_cancel_left, List.take_one, List.head?_drop]
      have hrest : atPlaces data [] (i + 1) (i + (n + 1)) = between data (i + 1) (i + (n + 1)) := by
        have h := ih (i + 1)
        rwa [show i + 1 + n = i + (n + 1) from by omega] at h
      rw [← atPlaces_append data [] (Nat.le_succ i) (by omega), hplace, hfirst, hrest]
      exact between_append_between data (Nat.le_succ i) (by omega)

/-! ## One pass over edits in order

Edits in order are passed once. In front of each of them stand old bytes, and then what it writes.
-/

/-- Edits one behind the other, each of which begins behind the beginning of the one before. -/
def InOrder (edits : List Edit) : Prop :=
  edits.Pairwise fun a b => a.IsBefore b ∧ a.span.start < b.span.start

/-- In front of the first edit the old bytes stay. -/
theorem atPlaces_of_forall_le {i j : Nat} (hij : i ≤ j) (h : ∀ e ∈ edits, j ≤ e.span.start) :
    atPlaces data edits i j = between data i j := by
  have hnone : atPlaces data edits i j = atPlaces data [] i j := by
    refine atPlaces_congr fun k _ hkj => ⟨?_, ?_⟩
    · exact written_eq_nil fun e he => by have := h e he; omega
    · have hfree : ¬ ∃ e ∈ edits, e.Takes k := by
        rintro ⟨e, he, hstart, -⟩
        have := h e he
        omega
      rw [kept, kept, if_neg hfree, if_neg (by simp)]
  have hold := atPlaces_nil data i (j - i)
  rw [Nat.add_sub_cancel' hij] at hold
  exact hnone.trans hold

/-- Behind what an edit writes, the bytes are those that the edits after it leave behind its end. -/
theorem kept_append_atPlaces_of_cons {e : Edit} {n : Nat} (hle : e.span.start ≤ e.span.stop)
    (hstop : e.span.stop < n) (hbehind : ∀ e' ∈ edits, e.IsBefore e' ∧ e.span.start < e'.span.start) :
    kept data (e :: edits) e.span.start ++ atPlaces data (e :: edits) (e.span.start + 1) n =
      atPlaces data edits e.span.stop n := by
  have hstart : ∀ k, k ≤ e.span.start ∨ k < e.span.stop → written edits k = [] := by
    intro k hk
    refine written_eq_nil fun e' he' => ?_
    obtain ⟨hbefore, hlt⟩ := hbehind e' he'
    rw [IsBefore] at hbefore
    omega
  have hlater : ∀ k, e.span.start < k → e.span.stop ≤ k →
      written (e :: edits) k = written edits k ∧ kept data (e :: edits) k = kept data edits k := by
    intro k hk hstop
    rw [written_cons, if_neg (Nat.ne_of_lt hk), List.nil_append]
    exact ⟨rfl, kept_cons_of_not_takes fun h => Nat.not_lt.mpr hstop h.2⟩
  rcases Nat.eq_or_lt_of_le hle with hempty | hlt
  · -- The edit is empty, so the byte at its place is left to the edits after it.
    have hnot : ¬ e.Takes e.span.start := fun h => by have := h.2; omega
    have hplace := atPlaces_succ data edits e.span.start
    rw [hstart _ (Or.inl (Nat.le_refl _)), List.nil_append] at hplace
    rw [kept_cons_of_not_takes hnot, ← hplace,
      atPlaces_congr fun k hk _ => hlater k (by omega) (by omega),
      atPlaces_append data edits (Nat.le_succ _) (by omega), hempty]
  · have hnone : atPlaces data (e :: edits) (e.span.start + 1) e.span.stop = [] := by
      refine atPlaces_eq_nil fun k hk hkstop => ⟨?_, kept_cons_of_takes ⟨by omega, hkstop⟩⟩
      rw [written_cons, if_neg (by omega), List.nil_append]
      exact hstart k (Or.inr hkstop)
    have hrest : atPlaces data (e :: edits) e.span.stop n = atPlaces data edits e.span.stop n :=
      atPlaces_congr fun k hk _ => hlater k (by omega) hk
    rw [kept_cons_of_takes ⟨Nat.le_refl _, hlt⟩, List.nil_append,
      ← atPlaces_append data (e :: edits) hlt (Nat.le_of_lt hstop), hnone, hrest, List.nil_append]

/-- Edits in order that are made at once leave at each place what is said of it. -/
theorem atPlaces_eq_splice {o : Nat} (ho : o ≤ data.length)
    (hin : ∀ e ∈ edits, e.IsIn data ∧ o ≤ e.span.start) (horder : InOrder edits) :
    atPlaces data edits o (data.length + 1) = splice data o edits := by
  induction edits generalizing o with
  | nil =>
      have hold := atPlaces_nil data o (data.length + 1 - o)
      rw [Nat.add_sub_cancel' (by omega)] at hold
      rw [hold, splice, between, List.take_of_length_le (by rw [List.length_drop]; omega)]
  | cons e rest ih =>
      obtain ⟨⟨hle, hlen⟩, hoe⟩ := hin e List.mem_cons_self
      obtain ⟨hhead, htail⟩ := List.pairwise_cons.mp horder
      -- Old bytes come first, then what the edit writes, and the rest begins where the edit ends.
      have hrest := ih hlen
        (fun e' he' => ⟨(hin e' (List.mem_cons_of_mem e he')).1, (hhead e' he').1⟩) htail
      have hfront : atPlaces data (e :: rest) o e.span.start = between data o e.span.start := by
        refine atPlaces_of_forall_le hoe fun e' he' => ?_
        rcases List.mem_cons.mp he' with rfl | he'
        · exact Nat.le_refl _
        · exact Nat.le_of_lt (hhead e' he').2
      have hwritten : written (e :: rest) e.span.start = e.replacement := by
        rw [written_cons, if_pos rfl, written_eq_nil fun e' he' => Nat.ne_of_gt (hhead e' he').2,
          List.append_nil]
      calc atPlaces data (e :: rest) o (data.length + 1)
          = between data o e.span.start ++ (e.replacement ++ kept data (e :: rest) e.span.start ++
              atPlaces data (e :: rest) (e.span.start + 1) (data.length + 1)) := by
            rw [← atPlaces_append data (e :: rest) hoe (by omega), hfront,
              ← atPlaces_append data (e :: rest) (Nat.le_succ e.span.start) (by omega), atPlaces_succ,
              hwritten]
        _ = between data o e.span.start ++
              (e.replacement ++ atPlaces data rest e.span.stop (data.length + 1)) := by
            rw [List.append_assoc e.replacement,
              kept_append_atPlaces_of_cons hle (Nat.lt_succ_of_le hlen) hhead]
        _ = splice data o (e :: rest) := by
            rw [hrest, splice, List.append_assoc]

/-! ## Edits in any order

Without a place at which two edits begin, sorting has one outcome only.
-/

/-- No two of the edits begin at one place. -/
def HaveOwnStarts (edits : List Edit) : Prop :=
  edits.Pairwise fun a b => a.span.start ≠ b.span.start

instance (edits : List Edit) : Decidable (HaveOwnStarts edits) :=
  inferInstanceAs (Decidable (edits.Pairwise fun a b => a.span.start ≠ b.span.start))

/-- The order of the edits plays no role. -/
theorem HaveOwnStarts.perm {other : List Edit} (h : HaveOwnStarts edits) (hperm : other.Perm edits) :
    HaveOwnStarts other :=
  hperm.symm.pairwise h Ne.symm

/-- Edits with starts of their own are sorted strictly. -/
theorem HaveOwnStarts.pairwise_sorted (h : HaveOwnStarts edits) :
    (sorted edits).Pairwise fun a b => a.span.start < b.span.start :=
  ((h.perm (sorted_perm edits)).and (Edit.pairwise_sorted edits)).imp
    fun h => Nat.lt_of_le_of_ne h.2 h.1

/-- There is one way to sort edits with starts of their own. -/
theorem HaveOwnStarts.sorted_eq {other : List Edit} (h : HaveOwnStarts edits)
    (hperm : other.Perm edits) : sorted other = sorted edits := by
  refine List.Perm.eq_of_pairwise ?_ (h.perm hperm).pairwise_sorted h.pairwise_sorted
    (((sorted_perm other).trans hperm).trans (sorted_perm edits).symm)
  intro a b _ _ hab hba
  omega

/-- What is written at a place does not depend on the order of edits with starts of their own. -/
theorem HaveOwnStarts.written_eq {other : List Edit} (h : HaveOwnStarts edits)
    (hperm : other.Perm edits) (i : Nat) : written other i = written edits i := by
  have hnever : ∀ {l : List Edit}, HaveOwnStarts l →
      (l.filter fun e => e.span.start = i).Pairwise fun _ _ => False := by
    intro l hl
    refine List.Pairwise.imp_of_mem ?_ (hl.filter fun e => decide (e.span.start = i))
    intro a b ha hb hne
    have ha := of_decide_eq_true (List.mem_filter.mp ha).2
    have hb := of_decide_eq_true (List.mem_filter.mp hb).2
    exact hne (ha.trans hb.symm)
  -- No two edits begin at the place, so there is only one way to list those that do.
  have hfilter := List.Perm.eq_of_pairwise (fun _ _ _ _ hf _ => hf.elim) (hnever (h.perm hperm))
    (hnever h) (hperm.filter fun e => decide (e.span.start = i))
  rw [written, written, hfilter]

/-- The bytes are the same for edits in any order. -/
theorem HaveOwnStarts.atOnce_eq {other : List Edit} (h : HaveOwnStarts edits)
    (hperm : other.Perm edits) (data : List UInt8) : atOnce data other = atOnce data edits := by
  refine atPlaces_congr fun k _ _ => ⟨h.written_eq hperm k, ?_⟩
  simp only [kept, hperm.mem_iff]

/-! ## Overlaps

Comparing neighbours is enough for edits in order, since an edit that overlaps a later one overlaps its
neighbour too.
-/

/-- If neighbours are apart, all are. -/
theorem pairwise_of_areApart (hin : ∀ e ∈ edits, e.span.start ≤ e.span.stop)
    (h : areApart edits = true) : edits.Pairwise IsBefore := by
  induction edits with
  | nil => exact List.Pairwise.nil
  | cons a rest ih =>
      cases rest with
      | nil => exact List.pairwise_singleton _ a
      | cons b rest =>
          rw [areApart, Bool.and_eq_true, decide_eq_true_eq] at h
          have htail := ih (fun e he => hin e (List.mem_cons_of_mem a he)) h.2
          refine List.pairwise_cons.mpr ⟨fun c hc => ?_, htail⟩
          rcases List.mem_cons.mp hc with rfl | hc
          · exact h.1
          · -- The edit in between does not end before it begins.
            have hbc : b.span.stop ≤ c.span.start := (List.pairwise_cons.mp htail).1 c hc
            have hb : b.span.start ≤ b.span.stop := hin b (by simp)
            exact Nat.le_trans h.1 (Nat.le_trans hb hbc)

theorem IsBefore.not_overlaps {a b : Edit} (h : a.IsBefore b) : ¬ a.Overlaps b := fun hoverlaps =>
  Nat.not_lt.mpr h hoverlaps.2

/-- Comparing neighbours in order finds every overlap. -/
theorem areApart_sorted_iff (hin : ∀ e ∈ edits, e.IsIn data) (hown : HaveOwnStarts edits) :
    areApart (sorted edits) = true ↔ ∀ a ∈ edits, ∀ b ∈ edits, ¬ a.Overlaps b := by
  have hmem : ∀ e, e ∈ sorted edits ↔ e ∈ edits := fun _ => (sorted_perm edits).mem_iff
  have hlt := hown.pairwise_sorted
  constructor
  · intro h a ha b hb
    have hapart := pairwise_of_areApart (fun e he => (hin e ((hmem e).mp he)).1) h
    -- Neither does an edit overlap one behind it, nor one in front of it, nor itself.
    have hahead : (sorted edits).Pairwise fun a b => ¬ a.Overlaps b :=
      hapart.imp IsBefore.not_overlaps
    have hback : (sorted edits).Pairwise fun a b => ¬ b.Overlaps a := by
      apply hlt.imp
      intro a b hlt hoverlaps
      exact Nat.lt_asymm hlt hoverlaps.1
    exact hahead.forall_of_forall_of_flip (fun e _ h => Nat.lt_irrefl _ h.1) hback ((hmem a).mpr ha)
      ((hmem b).mpr hb)
  · intro h
    refine areApart_of_pairwise (hlt.imp_of_mem ?_)
    intro a b ha hb hlt
    exact Nat.not_lt.mp fun hstop => h a ((hmem a).mp ha) b ((hmem b).mp hb) ⟨hlt, hstop⟩

/-- Edits in the data that begin at places of their own are refused exactly if two of them overlap.
Otherwise they are all made at once, in whatever order they are given. -/
theorem applied_at_once {data : List UInt8} {edits : List Edit} (hin : ∀ e ∈ edits, e.IsIn data)
    (hown : HaveOwnStarts edits) :
    (applyAll? data edits = none ↔ ∃ a ∈ edits, ∃ b ∈ edits, a.Overlaps b) ∧
      ((¬ ∃ a ∈ edits, ∃ b ∈ edits, a.Overlaps b) →
        applyAll? data edits = some (atOnce data edits)) ∧
      ∀ other : List Edit, other.Perm edits → applyAll? data other = applyAll? data edits := by
  have hiff := areApart_sorted_iff hin hown
  have hmade : (¬ ∃ a ∈ edits, ∃ b ∈ edits, a.Overlaps b) →
      applyAll? data edits = some (atOnce data edits) := by
    intro hnone
    have hapart : areApart (sorted edits) = true :=
      hiff.mpr fun a ha b hb hoverlaps => hnone ⟨a, ha, b, hb, hoverlaps⟩
    have hsorted : ∀ e ∈ sorted edits, e.IsIn data ∧ 0 ≤ e.span.start := fun e he =>
      ⟨hin e ((sorted_perm edits).mem_iff.mp he), Nat.zero_le _⟩
    have hbefore := pairwise_of_areApart (fun e he => (hsorted e he).1.1) hapart
    -- In order the edits leave what one pass leaves, and no place tells the order apart.
    have hsplice := atPlaces_eq_splice (Nat.zero_le _) hsorted (hbefore.and hown.pairwise_sorted)
    rw [applyAll?, if_pos hapart, foldr_apply (Nat.zero_le _) hsorted hbefore, List.take_zero,
      List.nil_append, ← hsplice]
    exact congrArg some (hown.atOnce_eq (sorted_perm edits) data)
  refine ⟨⟨fun hrefused => ?_, ?_⟩, hmade, fun other hperm => ?_⟩
  · apply Classical.byContradiction
    intro hnone
    rw [hmade hnone] at hrefused
    cases hrefused
  · rintro ⟨a, ha, b, hb, hoverlaps⟩
    rw [applyAll?, if_neg fun hapart => hiff.mp hapart a ha b hb hoverlaps]
  · rw [applyAll?, applyAll?, hown.sorted_eq hperm]

/-- Six bytes. -/
def sixBytes : List UInt8 := [97, 98, 99, 100, 101, 102]

/-- Edits out of order: two touch each other, and one is empty. -/
def touchingEdits : List Edit := [⟨⟨4, 6⟩, [88]⟩, ⟨⟨0, 0⟩, [89]⟩, ⟨⟨2, 4⟩, []⟩]

/-- Edits that touch each other do not overlap. -/
theorem applied_at_once_touching :
    (∀ e ∈ touchingEdits, e.IsIn sixBytes) ∧ HaveOwnStarts touchingEdits ∧
      applyAll? sixBytes touchingEdits = some [89, 97, 98, 88] ∧
      applyAll? sixBytes touchingEdits.reverse = some [89, 97, 98, 88] := by
  have hin : ∀ e ∈ touchingEdits, e.IsIn sixBytes := by decide
  have hown : HaveOwnStarts touchingEdits := by decide
  obtain ⟨-, hmade, hperm⟩ := applied_at_once hin hown
  have hbytes : atOnce sixBytes touchingEdits = [89, 97, 98, 88] := by decide
  have happlied := hmade (by decide)
  rw [hbytes] at happlied
  refine ⟨hin, hown, happlied, ?_⟩
  rw [hperm _ (List.reverse_perm touchingEdits), happlied]

end WasmEmbed.Binding.Edit
