import WasmEmbed.Proofs.Payload.Deflate.Depth

/-!
# Chosen codes are complete

`relieve` gives back the room that cut depths ask for too much, one word with each step
(`overfills_relieve`). It never lacks a symbol to move: as long as there is an excess, there are more
symbols at the limit than the excess, and not all of them are there, as these would be more than there are
symbols. The depths that are counted are dealt out to the same symbols again (`map_foldl_set`), so the
symbols that occur fill the room exactly (`overfills_symbolDepths`), and the symbols that do not occur take
none. This is what a reader asks of a code: `isComplete_lengths`.
-/

namespace WasmEmbed.Payload.Deflate.Huffman

variable {limit : Nat} {counts depth weights : Array Nat}

/-! ## Depths and their numbers -/

theorem count_descending (counts : Array Nat) (k l : Nat) :
    (descending counts k).count l = if 0 < l ∧ l ≤ k then counts.getD l 0 else 0 := by
  induction k with
  | zero => rw [descending, List.count_nil, if_neg (by omega)]
  | succ k ih =>
      rw [descending, List.count_append, List.count_replicate, ih]
      by_cases hl : k + 1 = l
      · subst hl
        rw [beq_self_eq_true, if_pos rfl, if_neg (by omega), if_pos (by omega), Nat.add_zero]
      · rw [if_neg (by simpa using hl), Nat.zero_add]
        exact if_congr (by omega) rfl rfl

theorem mem_descending_iff {k l : Nat} : l ∈ descending counts k ↔ 0 < l ∧ l ≤ k ∧ counts.getD l 0 ≠ 0 := by
  rw [← List.count_pos_iff, count_descending]
  split <;> omega

/-- The symbols are counted at their depths. -/
theorem population_spec (limit : Nat) (depth : Array Nat) (symbols : List Nat) :
    (population limit depth symbols).size = limit + 1 ∧ ∀ l ≤ limit,
      (population limit depth symbols).getD l 0 = (symbols.map fun s => depth.getD s 0).count l := by
  have hfold : ∀ counts : Array Nat, counts.size = limit + 1 →
      (symbols.foldl (fun counts s => counts.modify (depth.getD s 0) (· + 1)) counts).size = limit + 1 ∧
        ∀ l ≤ limit,
        (symbols.foldl (fun counts s => counts.modify (depth.getD s 0) (· + 1)) counts).getD l 0 =
          counts.getD l 0 + (symbols.map fun s => depth.getD s 0).count l := by
    induction symbols with
    | nil => exact fun counts hsize => ⟨hsize, fun l _ => rfl⟩
    | cons s symbols ih =>
        intro counts hsize
        obtain ⟨hend, hcount⟩ :=
          ih (counts.modify (depth.getD s 0) (· + 1)) ((Array.size_modify ..).trans hsize)
        refine ⟨hend, fun l hl => ?_⟩
        rw [List.foldl_cons, hcount l hl, getD_modify, List.map_cons, List.count_cons]
        by_cases hs : depth.getD s 0 = l
        · rw [if_pos ⟨hs, by omega⟩, if_pos (beq_iff_eq.mpr hs)]
          omega
        · rw [if_neg fun hboth => hs hboth.1, if_neg (by simpa using hs), Nat.add_zero]
  obtain ⟨hsize, hcount⟩ := hfold (Array.replicate (limit + 1) 0) Array.size_replicate
  refine ⟨hsize, fun l hl => (hcount l hl).trans ?_⟩
  rw [Array.getD_eq_getD_getElem?, Array.getElem?_replicate, if_pos (by omega), Option.getD_some,
    Nat.zero_add]

/-- The depths of symbols in another order. -/
theorem descending_population_perm {symbols : List Nat}
    (h : ∀ s ∈ symbols, 0 < depth.getD s 0 ∧ depth.getD s 0 ≤ limit) :
    (descending (population limit depth symbols) limit).Perm (symbols.map fun s => depth.getD s 0) := by
  refine List.perm_iff_count.mpr fun l => ?_
  rw [count_descending]
  split
  · rename_i hl
    exact (population_spec limit depth symbols).2 l hl.2
  · rename_i hl
    refine (List.count_eq_zero.mpr fun hmem => hl ?_).symm
    obtain ⟨s, hs, rfl⟩ := List.mem_map.mp hmem
    exact h s hs

/-! ## Relieving the limit -/

/-- If there is a symbol at some depth, one is found. -/
theorem occupied_spec {k d : Nat} (hd : 0 < d) (hle : d ≤ k) (h : counts.getD d 0 ≠ 0) :
    0 < occupied counts k ∧ occupied counts k ≤ k ∧ counts.getD (occupied counts k) 0 ≠ 0 := by
  induction k with
  | zero => omega
  | succ k ih =>
      rw [occupied]
      by_cases hzero : counts.getD (k + 1) 0 = 0
      · rw [if_pos hzero]
        have hlt : d ≠ k + 1 := fun heq => h (heq ▸ hzero)
        obtain ⟨hpos, hk, hne⟩ := ih (by omega)
        exact ⟨hpos, Nat.le_succ_of_le hk, hne⟩
      · rw [if_neg hzero]
        exact ⟨Nat.succ_pos k, Nat.le_refl _, hzero⟩

/-- The numbers after a symbol of depth `d` went down one step and took one of the greatest depth to its
side. -/
def moved (limit d : Nat) (counts : Array Nat) : Array Nat :=
  ((counts.modify d (· - 1)).modify (d + 1) (· + 2)).modify limit (· - 1)

theorem size_moved (limit d : Nat) (counts : Array Nat) : (moved limit d counts).size = counts.size := by
  rw [moved, Array.size_modify, Array.size_modify, Array.size_modify]

theorem relieve_succ (limit k cut : Nat) (counts : Array Nat) : relieve limit (k + 1) cut counts =
    if cut = 0 then counts
    else relieve limit k (cut - 2) (moved limit (occupied counts (limit - 1)) counts) := rfl

/-- Two symbols, one of the greatest depth and one above, become two of the depth below that one. -/
theorem exists_moved {d : Nat} (hsize : counts.size = limit + 1) (hd : d ∈ descending counts limit)
    (hlt : d < limit)
    (hlimit : limit ∈ descending counts limit) : ∃ rest, (descending counts limit).Perm (d :: limit :: rest) ∧
      (descending (moved limit d counts) limit).Perm ((d + 1) :: (d + 1) :: rest) := by
  have hother : limit ∈ (descending counts limit).erase d :=
    (List.mem_erase_of_ne (Nat.ne_of_gt hlt)).mpr hlimit
  obtain ⟨hpos, -, hdcount⟩ := mem_descending_iff.mp hd
  have hlcount := (mem_descending_iff.mp hlimit).2.2
  refine ⟨((descending counts limit).erase d).erase limit,
    (List.perm_cons_erase hd).trans ((List.perm_cons_erase hother).cons d),
    List.perm_iff_count.mpr fun l => ?_⟩
  rw [List.count_cons, List.count_cons, List.count_erase, List.count_erase, count_descending,
    count_descending, moved]
  simp only [getD_modify, Array.size_modify, beq_iff_eq, hsize]
  -- Only the numbers at three depths change, of which the last two may be the same.
  have hd' : d = l → counts.getD l 0 ≠ 0 := fun heq => heq ▸ hdcount
  have hl' : limit = l → counts.getD l 0 ≠ 0 := fun heq => heq ▸ hlcount
  generalize counts.getD l 0 = c at hd' hl'
  grind

/-- Relieving the limit takes the excess away, and the symbols stay as many as they were. -/
theorem overfills_relieve {k excess : Nat} (hsize : counts.size = limit + 1) (hk : excess ≤ k)
    (h : Overfills limit excess (descending counts limit))
    (hlength : (descending counts limit).length ≤ 2 ^ limit) :
    Overfills limit 0 (descending (relieve limit k (2 * excess) counts) limit) ∧
      (descending (relieve limit k (2 * excess) counts) limit).length = (descending counts limit).length := by
  induction k generalizing counts excess with
  | zero =>
      obtain rfl : excess = 0 := Nat.le_zero.mp hk
      exact ⟨h, rfl⟩
  | succ k ih =>
      rw [relieve_succ]
      cases excess with
      | zero => exact ⟨h, rfl⟩
      | succ excess =>
          rw [if_neg (by omega)]
          obtain ⟨d, hd, hlt⟩ := h.exists_lt hlength
          obtain ⟨hpos, -, hcount⟩ := mem_descending_iff.mp hd
          obtain ⟨hpos, hle, hcount⟩ := occupied_spec hpos (Nat.le_sub_one_of_lt hlt) hcount
          have hlimit : limit ∈ descending counts limit :=
            List.count_pos_iff.mp (Nat.zero_lt_of_lt (h.lt_count (Nat.succ_pos excess)))
          -- The symbol that is found may be another one, but it is above the limit as well.
          generalize occupied counts (limit - 1) = d at hpos hle hcount
          obtain ⟨rest, hbefore, hafter⟩ := exists_moved hsize
            (mem_descending_iff.mpr ⟨hpos, by omega, hcount⟩) (by omega) hlimit
          have hsame : (descending (moved limit d counts) limit).length = (descending counts limit).length :=
            hafter.length_eq.trans hbefore.length_eq.symm
          have hrelieved := ((h.perm hbefore).relieve (by omega)).perm hafter.symm
          obtain ⟨hover, hmore⟩ :=
            ih ((size_moved limit d counts).trans hsize) (Nat.le_of_succ_le_succ hk) hrelieved
            (hsame ▸ hlength)
          exact ⟨hover, hmore.trans hsame⟩

/-! ## Dealing out depths -/

/-- Places that are not written keep what they hold. -/
theorem getD_foldl_set_of_notMem {moves : List (Nat × Nat)} {s : Nat} (h : s ∉ moves.map Prod.fst)
    (depth : Array Nat) :
    (moves.foldl (fun depth p => depth.setIfInBounds p.1 p.2) depth).getD s 0 = depth.getD s 0 := by
  induction moves generalizing depth with
  | nil => rfl
  | cons p moves ih =>
      rw [List.map_cons, List.mem_cons, not_or] at h
      rw [List.foldl_cons, ih h.2, getD_set, if_neg fun hboth => h.1 hboth.1.symm]

/-- Each of different symbols gets the depth that is dealt out to it. -/
theorem map_foldl_set {symbols list : List Nat} (hnodup : symbols.Nodup)
    (hlength : symbols.length = list.length) (hlt : ∀ s ∈ symbols, s < depth.size) : symbols.map (fun s =>
      ((symbols.zip list).foldl (fun depth p => depth.setIfInBounds p.1 p.2) depth).getD s 0) = list := by
  induction symbols generalizing list depth with
  | nil => exact (List.eq_nil_of_length_eq_zero hlength.symm).symm
  | cons s symbols ih =>
      obtain ⟨l, list, rfl⟩ := List.exists_cons_of_length_eq_add_one hlength.symm
      obtain ⟨hnot, hnodup⟩ := List.nodup_cons.mp hnodup
      rw [List.map_cons, List.zip_cons_cons, List.foldl_cons]
      have hlater : s ∉ (symbols.zip list).map Prod.fst := fun hmem => by
        obtain ⟨p, hp, rfl⟩ := List.mem_map.mp hmem
        exact hnot (List.of_mem_zip hp).1
      rw [getD_foldl_set_of_notMem hlater, getD_set, if_pos ⟨rfl, hlt s List.mem_cons_self⟩]
      refine congrArg _ (ih hnodup (Nat.succ.inj hlength) fun t ht => ?_)
      rw [Array.size_setIfInBounds]
      exact hlt t (List.mem_cons_of_mem s ht)

/-- The symbols that were taken, the first one first. -/
def takenSymbols (weights : Array Nat) : List Nat := (tree weights).taken.reverse.filter (· < weights.size)

theorem takenSymbols_perm (htwo : 2 ≤ (occurring weights).length) :
    (takenSymbols weights).Perm (occurring weights) :=
  (((tree weights).taken.reverse_perm).filter _).trans (filter_taken_perm htwo)

theorem codeDepths_eq (limit : Nat) (weights : Array Nat) : codeDepths limit weights =
    if (depths limit (tree weights)).cut = 0 then (depths limit (tree weights)).depth
    else ((takenSymbols weights).zip (descending (relieve limit (depths limit (tree weights)).cut
      (depths limit (tree weights)).cut
        (population limit (depths limit (tree weights)).depth (takenSymbols weights)))
        limit)).foldl (fun depth p => depth.setIfInBounds p.1 p.2) (depths limit (tree weights)).depth := rfl

/-- The symbols that occur fill the room exactly. -/
theorem overfills_codeDepths (hlimit : 0 < limit) (htwo : 2 ≤ (occurring weights).length)
    (hlength : (occurring weights).length ≤ 2 ^ limit) :
    Overfills limit 0 ((occurring weights).map fun s => (codeDepths limit weights).getD s 0) := by
  obtain ⟨hhalf, hover⟩ := fills_depths limit htwo
  obtain ⟨hbounded, hdepths⟩ := bounded_depths hlimit (tree weights)
  have hperm := takenSymbols_perm htwo
  rw [codeDepths_eq]
  generalize depths limit (tree weights) = d at hhalf hover hbounded hdepths
  split
  · rename_i hcut
    rwa [hcut] at hover
  · have hlt : ∀ s ∈ takenSymbols weights, s < d.depth.size := fun s hs => by
      rw [hdepths]
      exact Nat.lt_of_lt_of_le (of_decide_eq_true (List.mem_filter.mp hs).2) (size_le_size_tree weights)
    have hrange : ∀ s ∈ takenSymbols weights, 0 < d.depth.getD s 0 ∧ d.depth.getD s 0 ≤ limit := fun s hs =>
      ⟨Nat.pos_of_ne_zero (hbounded.ne_zero s (List.mem_reverse.mp (List.mem_filter.mp hs).1) (hlt s hs)),
        hbounded.le_limit s⟩
    -- What is counted are the depths of the symbols, so that is what exceeds the room.
    have hcounted := descending_population_perm hrange
    have hbefore := hover.perm ((hperm.symm.map _).trans hcounted.symm)
    obtain ⟨hafter, hsame⟩ :=
      overfills_relieve (k := d.cut) (population_spec limit d.depth (takenSymbols weights)).1
      (by omega) hbefore (by
        rw [hcounted.length_eq, List.length_map, hperm.length_eq]
        exact hlength)
    rw [← hhalf] at hafter hsame
    refine Overfills.perm ?_ (hperm.map _)
    rw [map_foldl_set (hperm.nodup_iff.mpr (nodup_occurring weights)) ?_ hlt]
    · exact hafter
    · rw [hsame, hcounted.length_eq, List.length_map]

/-- A symbol that does not occur has depth zero. -/
theorem getD_codeDepths_of_not_occurs {s : Nat} (htwo : 2 ≤ (occurring weights).length)
    (hs : s < weights.size) (h : ¬ Occurs weights s) : (codeDepths limit weights).getD s 0 = 0 := by
  have hnot : s ∉ takenSymbols weights := fun hmem =>
    h (mem_occurring.mp ((takenSymbols_perm htwo).mem_iff.mp hmem))
  have hzero : (depths limit (tree weights)).depth.getD s 0 = 0 := Forest.getD_depths_of_notMem fun hmem =>
    hnot (List.mem_filter.mpr ⟨List.mem_reverse.mpr hmem, decide_eq_true hs⟩)
  rw [codeDepths_eq]
  split
  · exact hzero
  · rw [getD_foldl_set_of_notMem, hzero]
    intro hmem
    obtain ⟨p, hp, rfl⟩ := List.mem_map.mp hmem
    exact hnot (List.of_mem_zip hp).1

/-! ## Complete codes -/

/-- A symbol without a codeword takes no room. -/
theorem total_filter {symbols : List Nat} {f : Nat → Nat} (p : Nat → Bool)
    (h : ∀ s ∈ symbols, p s = false → f s = 0) :
    Lengths.total ((symbols.filter p).map f) = Lengths.total (symbols.map f) := by
  induction symbols with
  | nil => rfl
  | cons s symbols ih =>
      have hrest := ih fun t ht => h t (List.mem_cons_of_mem s ht)
      rw [List.map_cons, Lengths.total_cons, List.filter_cons]
      by_cases hs : p s = true
      · rw [if_pos hs, List.map_cons, Lengths.total_cons, hrest]
      · rw [if_neg hs, hrest, h s List.mem_cons_self (Bool.not_eq_true _ ▸ hs)]
        exact (Nat.zero_add _).symm

/-- A codeword takes its room, but counted in words of `maxCodeLength` bits. -/
theorem total_eq {list : List Nat} (hlimit : limit ≤ maxCodeLength) (hlist : ∀ d ∈ list, 0 < d ∧ d ≤ limit) :
    Lengths.total list = 2 ^ (maxCodeLength - limit) * room limit list := by
  induction list with
  | nil => rfl
  | cons d list ih =>
      obtain ⟨hpos, hle⟩ := hlist d List.mem_cons_self
      have hexponent : maxCodeLength - d = maxCodeLength - limit + (limit - d) := by omega
      rw [Lengths.total_cons, ih fun d hd => hlist d (List.mem_cons_of_mem _ hd), room_cons, Nat.mul_add,
        Lengths.share, if_neg (Nat.ne_of_gt hpos), Nat.one_shiftLeft, hexponent, Nat.pow_add]

/-- A code that is chosen for symbols is complete, whatever their weights. -/
theorem isComplete_lengths (hlimit : 0 < limit) (hmax : limit ≤ maxCodeLength) (hthree : 3 ≤ weights.size)
    (hsize : weights.size ≤ 2 ^ limit) : (lengths limit weights).isComplete = true := by
  have htwo := two_le_length_atLeastTwo hthree
  rw [Lengths.isComplete, Bool.and_eq_true, List.all_eq_true, beq_iff_eq, Nat.one_shiftLeft]
  refine ⟨fun l hl => decide_eq_true (Nat.le_trans (lengths_le hlimit weights l hl) hmax), ?_⟩
  rw [lengths_eq]
  rw [← size_atLeastTwo] at hthree hsize
  generalize atLeastTwo weights = w at htwo hthree hsize
  have hlast : lastSymbol w < w.size := lastSymbol_lt (by omega)
  -- Among the symbols up to the last one are all that occur.
  have hoccurs : ((List.range (lastSymbol w + 1)).filter fun s => w.getD s 0 != 0) = occurring w := by
    obtain ⟨k, hk⟩ : ∃ k, w.size = lastSymbol w + 1 + k := Nat.exists_eq_add_of_le hlast
    rw [occurring, hk, List.range_add (n := lastSymbol w + 1), List.filter_append,
      List.self_eq_append_right, List.filter_eq_nil_iff]
    intro s hs hoccur
    obtain ⟨i, -, rfl⟩ := List.mem_map.mp hs
    have hle := Occurs.le_lastSymbol (bne_iff_ne.mp hoccur)
    omega
  rw [← total_filter (fun s => w.getD s 0 != 0), hoccurs]
  · have hlength : (occurring w).length ≤ 2 ^ limit := by
      refine Nat.le_trans (Nat.le_trans (List.length_filter_le _ _) ?_) hsize
      rw [List.length_range]
    have hfull := overfills_codeDepths hlimit htwo hlength
    rw [total_eq hmax, hfull.room_eq, Nat.add_zero, ← Nat.pow_add, Nat.sub_add_cancel hmax]
    intro d hd
    refine ⟨?_, hfull.le_limit d hd⟩
    obtain ⟨s, hs, rfl⟩ := List.mem_map.mp hd
    exact Nat.pos_of_ne_zero ((mem_occurring.mp hs).getD_codeDepths_ne_zero hlimit htwo)
  · intro s hs hnone
    have hlt : s < w.size := Nat.lt_of_lt_of_le (List.mem_range.mp hs) hlast
    exact getD_codeDepths_of_not_occurs htwo hlt fun hoccur => hoccur (by simpa using hnone)

end WasmEmbed.Payload.Deflate.Huffman
