import WasmEmbed.Proofs.Payload.Deflate.Token

/-!
# Copies that are found are sound

Whatever places are tried for a copy, a run is only believed after its bytes were compared
(`Run.Repeats`). So the split of the bytes into tokens may skip places, drop runs and put off a copy
by one byte, and the tokens still say the bytes in order: `Ahead.Fits` says up to which place, and each
step of `tokenizeFrom` keeps it.
-/

namespace WasmEmbed.Payload.Deflate

variable {data : Array UInt8} {i : Nat}

/-! ## Earlier places

The places at which three bytes stood before are found by a key, and other bytes may have the same key.
All that is needed is that a place lies in front of the one from which it is reached.
-/

/-- Each place that is listed lies in front of the place that it is listed for. -/
def ListsEarlier (places : Array (Option Nat)) : Prop :=
  ∀ i j, places.getD i none = some j → j < i

theorem getD_push_of_lt {places : Array (Option Nat)} (p : Option Nat) (h : i < places.size) :
    (places.push p).getD i none = places.getD i none := by
  rw [Array.getD_eq_getD_getElem?, Array.getElem?_push, if_neg (Nat.ne_of_lt h),
    ← Array.getD_eq_getD_getElem?]

theorem getD_push_size (places : Array (Option Nat)) (p : Option Nat) :
    (places.push p).getD places.size none = p := by
  rw [Array.getD_eq_getD_getElem?, Array.getElem?_push_size, Option.getD_some]

theorem getD_eq_none_of_size_le {places : Array (Option Nat)} (h : places.size ≤ i) :
    places.getD i none = none := by
  rw [Array.getD_eq_getD_getElem?, Array.getElem?_eq_none h, Option.getD_none]

/-- One more answer that lies in front. -/
theorem ListsEarlier.push {places : Array (Option Nat)} {p : Option Nat} (h : ListsEarlier places)
    (hp : ∀ j, p = some j → j < places.size) : ListsEarlier (places.push p) := by
  intro i j hij
  rcases Nat.lt_trichotomy i places.size with hlt | rfl | hgt
  · rw [getD_push_of_lt p hlt] at hij
    exact h i j hij
  · rw [getD_push_size] at hij
    exact hp j hij
  · rw [getD_eq_none_of_size_le (by rw [Array.size_push]; exact hgt)] at hij
    exact nomatch hij

/-- While the places are listed, those in the table of last places lie in front of the current one. -/
theorem listsEarlier_go {last found : Array (Option Nat)} (k : Nat)
    (hlast : ∀ h j, last.getD h none = some j → j < i) (hsize : found.size = i)
    (hfound : ListsEarlier found) : ListsEarlier (earlierPlaces.go data i k last found) := by
  induction k generalizing i last found with
  | zero => exact hfound
  | succ k ih =>
      rw [earlierPlaces.go]
      refine ih (fun h j hj => ?_) (by rw [Array.size_push, hsize]) (hfound.push ?_)
      · -- The place that is looked at becomes the last of its key.
        rw [Array.getD_eq_getD_getElem?, Array.getElem?_setIfInBounds] at hj
        split at hj
        · split at hj
          · obtain rfl : i = j := Option.some.inj hj
            exact Nat.lt_succ_self i
          · exact nomatch hj
        · rw [← Array.getD_eq_getD_getElem?] at hj
          exact Nat.lt_succ_of_lt (hlast h j hj)
      · rw [hsize]
        exact hlast _

/-- The list of all earlier places. -/
theorem listsEarlier_earlierPlaces (data : Array UInt8) : ListsEarlier (earlierPlaces data) := by
  refine listsEarlier_go _ (fun h j hj => ?_) rfl fun i j hij => ?_
  · rw [Array.getD_eq_getD_getElem?, Array.getElem?_replicate] at hj
    split at hj <;> exact nomatch hj
  · rw [getD_eq_none_of_size_le (Nat.zero_le i)] at hij
    exact nomatch hij

/-! ## Runs

A run has a place and a length, and its bytes are compared when it is found. The search goes from place to
place and keeps the longest run.
-/

/-- The run repeats, from place `i` on, at most `longest` bytes that came before, from within the
window. -/
structure Run.Repeats (data : Array UInt8) (i longest : Nat) (run : Run) : Prop where
  length_le : run.length ≤ longest
  distance_pos : 0 < run.distance
  distance_le : run.distance ≤ i
  reach : run.distance ≤ windowSize
  same : ∀ k < run.length, data.getD (i + k) 0 = data.getD (i + k - run.distance) 0

/-- The common length is at least what was known and at most what was allowed, and the bytes up to it are
the same. -/
theorem commonLength_spec (data : Array UInt8) (i j k n : Nat) :
    n ≤ commonLength data i j k n ∧ commonLength data i j k n ≤ n + k ∧
      ∀ t, n ≤ t → t < commonLength data i j k n →
        data.getD (i + t) 0 = data.getD (j + t) 0 := by
  induction k generalizing n with
  | zero => exact ⟨Nat.le_refl n, Nat.le_refl n, fun t hle hlt => absurd hle (Nat.not_le.mpr hlt)⟩
  | succ k ih =>
      rw [commonLength]
      split
      · rename_i hbyte
        obtain ⟨hle, hmax, hsame⟩ := ih (n + 1)
        refine ⟨Nat.le_of_succ_le hle, by omega, fun t hn ht => ?_⟩
        rcases Nat.eq_or_lt_of_le hn with rfl | hlt
        · exact hbyte
        · exact hsame t hlt ht
      · exact ⟨Nat.le_refl n, Nat.le_add_right n _,
          fun t hle hlt => absurd hle (Nat.not_le.mpr hlt)⟩

/-- A run that was compared. -/
theorem repeats_commonLength {j longest : Nat} (hj : j < i) (hreach : i - j ≤ windowSize) :
    Run.Repeats data i longest ⟨commonLength data i j longest 0, i - j⟩ := by
  obtain ⟨-, hmax, hsame⟩ := commonLength_spec data i j longest 0
  refine ⟨by simpa using hmax, by simp only; omega, Nat.sub_le i j, hreach, fun k hk => ?_⟩
  have hback : i + k - (i - j) = j + k := by omega
  simp only [hback]
  exact hsame k (Nat.zero_le k) hk

/-- A search keeps the run that it began with, or it finds a longer one that repeats bytes. -/
theorem search_spec (data : Array UInt8) {earlier : Array (Option Nat)} (longest : Nat) {first : Nat}
    (hearlier : ListsEarlier earlier) (hfirst : ∀ k, first ≤ k → i - k ≤ windowSize)
    (tries : Nat) {j : Nat} (hj : j < i) (hreach : i - j ≤ windowSize) (best : Run) :
    search data earlier i longest first tries j best = best ∨
      best.length < (search data earlier i longest first tries j best).length ∧
        Run.Repeats data i longest (search data earlier i longest first tries j best) := by
  induction tries generalizing j best with
  | zero => exact .inl rfl
  | succ tries ih =>
      rw [search]
      set found := if data.getD (j + best.length) 0 = data.getD (i + best.length) 0 then
        commonLength data i j longest 0 else 0 with hfound
      set better : Run := if best.length < found then ⟨found, i - j⟩ else best with hbetter
      have hstep : better = best ∨ best.length < better.length ∧ better.Repeats data i longest := by
        by_cases hlt : best.length < found
        · have hcommon : found = commonLength data i j longest 0 := by
            by_cases hbyte : data.getD (j + best.length) 0 = data.getD (i + best.length) 0
            · rw [hfound, if_pos hbyte]
            · rw [hfound, if_neg hbyte] at hlt
              exact absurd hlt (Nat.not_lt_zero _)
          refine .inr ?_
          rw [hbetter, if_pos hlt, hcommon]
          exact ⟨hcommon ▸ hlt, repeats_commonLength hj hreach⟩
        · exact .inl (if_neg hlt)
      split
      · exact hstep
      · split
        · rename_i k hk
          split
          · rename_i hle
            -- The next place lies before this one, and not too far back.
            have hkj : k < j := hearlier j k hk
            rcases ih (Nat.lt_trans hkj hj) (hfirst k hle) better with hsame | ⟨hlonger, hrepeats⟩
            · rw [hsame]
              exact hstep
            · refine .inr ⟨?_, hrepeats⟩
              rcases hstep with heq | ⟨hlt, -⟩
              · rwa [heq] at hlonger ⊢
              · exact Nat.lt_trans hlt hlonger
          · exact hstep
        · exact hstep

/-- A run that is long enough for a copy repeats bytes. -/
theorem repeats_bestRun {earlier : Array (Option Nat)} (hearlier : ListsEarlier earlier)
    (before : Run) (h : minLength ≤ (bestRun data earlier i before).length) :
    (bestRun data earlier i before).Repeats data i (min maxLength (data.size - i)) := by
  have hnone : ¬ minLength ≤ Run.none.length := by decide
  rw [bestRun] at h ⊢
  split at h
  · exact absurd h hnone
  · rename_i j hj
    simp only at h ⊢
    split at h
    · rename_i hnear
      rw [if_pos hnear]
      rw [Bool.and_eq_true, Bool.and_eq_true, decide_eq_true_eq, decide_eq_true_eq,
        decide_eq_true_eq] at hnear
      have hwindow : reach ≤ windowSize := by
        rw [reach]
        exact Nat.sub_le windowSize lookahead
      have hfirst : ∀ k, max (windowStart data.size i + 1) (i - reach + 1) ≤ k →
          i - k ≤ windowSize := by
        intro k hk
        refine Nat.le_trans ?_ hwindow
        generalize reach = back at hk ⊢
        omega
      generalize (if goodLength ≤ before.length then patience / 4 else patience) = tries at h ⊢
      have hspec := search_spec data (min maxLength (data.size - i)) hearlier
        hfirst tries (hearlier i j hj) (Nat.le_trans hnear.2 hwindow) ⟨before.length, 0⟩
      split at h
      · exact absurd h hnone
      · rename_i hlonger
        rw [if_neg hlonger]
        rcases hspec with hsame | ⟨-, hrepeats⟩
        · rw [hsame] at hlonger
          simp at hlonger
        · exact hrepeats
    · exact absurd h hnone

/-! ## Tokens

The split keeps at most one run in reserve. `Ahead.Fits` says what was said so far and what the reserve
would say.
-/

/-- What is known in front of place `i` fits the bytes: the tokens say them up to that place, or up to
the byte before it that is still open, and a run that is long enough for a copy begins there. -/
structure Ahead.Fits (data : Array UInt8) (i : Nat) (a : Ahead) : Prop where
  le_size : i ≤ data.size
  said : Says data 0 a.tokens.reverse (if a.isOpen then i - 1 else i)
  pos : a.isOpen = true → 0 < i
  run : minLength ≤ a.run.length → a.isOpen = true ∧
    a.run.Repeats data (i - 1) (min maxLength (data.size - (i - 1)))

namespace Ahead.Fits

variable {a : Ahead}

/-- The open byte is said. -/
theorem says_literal (h : a.Fits data i) (hopen : a.isOpen = true) :
    Says data 0 (Token.literal (data.getD (i - 1) 0) :: a.tokens).reverse i := by
  have hpos := h.pos hopen
  have hle := h.le_size
  have hsaid := h.said
  rw [if_pos hopen] at hsaid
  have hnext := hsaid.snoc (.literal (by omega))
  rw [List.reverse_cons]
  rwa [Token.size, Nat.sub_add_cancel hpos] at hnext

/-- The run is copied. -/
theorem copy (h : a.Fits data i) (hrun : minLength ≤ a.run.length) :
    Fits data (i - 1 + a.run.length)
      ⟨.copy a.run.length a.run.distance :: a.tokens, false, .none⟩ := by
  obtain ⟨hopen, hrepeats⟩ := h.run hrun
  have hlength := hrepeats.length_le
  have hpos := h.pos hopen
  have hle := h.le_size
  have hsaid := h.said
  rw [if_pos hopen] at hsaid
  have hcopy : (Token.copy a.run.length a.run.distance).Says data (i - 1) :=
    .copy hrun (by omega) hrepeats.distance_pos hrepeats.distance_le hrepeats.reach (by omega)
      hrepeats.same
  have hnone : ¬ minLength ≤ Run.none.length := by decide
  refine ⟨by omega, ?_, (fun hclosed => nomatch hclosed), fun h => absurd h hnone⟩
  rw [if_neg Bool.false_ne_true, List.reverse_cons]
  exact hsaid.snoc hcopy

/-- The place becomes the open byte. -/
theorem step {tokens : List Token} {run : Run} (hi : i < data.size)
    (hsaid : Says data 0 tokens.reverse i)
    (hrun : minLength ≤ run.length → run.Repeats data i (min maxLength (data.size - i))) :
    Fits data (i + 1) ⟨tokens, true, run⟩ :=
  ⟨hi, hsaid, fun _ => Nat.succ_pos i, fun h => ⟨rfl, hrun h⟩⟩

end Ahead.Fits

/-- The tokens from a place on, by induction on the bound. The last place is reached before the bound is
used up. -/
theorem says_tokenizeFrom {earlier : Array (Option Nat)} (hearlier : ListsEarlier earlier)
    {k : Nat} {a : Ahead} (h : a.Fits data i) (hk : data.size < i + k) :
    Says data 0 (tokenizeFrom data earlier k i a).reverse data.size := by
  induction k generalizing i a with
  | zero => exact absurd h.le_size (by omega)
  | succ k ih =>
      rw [tokenizeFrom]
      split
      · rename_i hend
        have heq : i = data.size := Nat.le_antisymm h.le_size hend
        split
        · rename_i hopen
          rw [← heq]
          exact h.says_literal hopen
        · rename_i hclosed
          have hsaid := h.said
          rwa [if_neg hclosed, heq] at hsaid
      · rename_i hmore
        simp only
        split
        · -- No run that begins here is longer, so the one that begins before is copied.
          rename_i hcopy
          rw [Bool.and_eq_true, decide_eq_true_eq, decide_eq_true_eq] at hcopy
          have hmin : 3 ≤ a.run.length := hcopy.1
          exact ih (h.copy hcopy.1) (by omega)
        · split
          · rename_i hopen
            exact ih (.step (by omega) (h.says_literal hopen) (repeats_bestRun hearlier a.run))
              (by omega)
          · rename_i hclosed
            have hsaid := h.said
            rw [if_neg hclosed] at hsaid
            exact ih (.step (by omega) hsaid (repeats_bestRun hearlier a.run)) (by omega)

/-- The tokens that bytes are split into say them. -/
theorem says_tokenize (data : Array UInt8) : Says data 0 (tokenize data) data.size := by
  have hnone : ¬ minLength ≤ Run.none.length := by decide
  exact says_tokenizeFrom (listsEarlier_earlierPlaces data)
    ⟨Nat.zero_le _, Says.nil 0, (fun h => nomatch h), fun h => absurd h hnone⟩ (by omega)

/-- Splitting bytes into tokens loses nothing. -/
theorem expand_tokenize (data : Array UInt8) : expand (tokenize data) = data.toList :=
  (says_tokenize data).expand_eq

end WasmEmbed.Payload.Deflate
