import Mathlib.Algebra.BigOperators.Group.List.Basic
import WasmEmbed.Proofs.Payload.Deflate.Huffman

/-!
# The depths of symbols fill the tree

A codeword takes the room of all longer words that it begins. A single root has the empty word, which takes
all the room there is, and dividing a node leaves the room as it is. Depths that are cut to a limit ask for
too much (`Overfills`): when a node at the limit is divided, both of its halves are cut and one word too
many is left.

Joining two roots is dividing one, read backwards. The depths are given out backwards as well, so the roots
that there were before some join exceed the room by half as many words as were cut up to there
(`Forest.exists_fills`). For the symbols this is `fills_depths`.
-/

namespace WasmEmbed.Payload.Deflate.Huffman

/-! ## Room

The room of a word is counted in words of the length that is the limit. A word at the limit has room for
itself only.
-/

/-- The room that words of these lengths take, in words of the greatest length. -/
def room (limit : Nat) (depths : List Nat) : Nat := (depths.map fun d => 2 ^ (limit - d)).sum

/-- The room of a list is the sum of the rooms of its words. -/
theorem room_cons (limit d : Nat) (depths : List Nat) :
    room limit (d :: depths) = 2 ^ (limit - d) + room limit depths := by
  rw [room, List.map_cons, List.sum_cons, room]

/-- The order of the words plays no role. -/
theorem room_perm {limit : Nat} {depths depths' : List Nat} (h : depths.Perm depths') :
    room limit depths = room limit depths' := (h.map _).sum_eq

/-- A word takes the room of the two words that are longer by one bit. -/
theorem two_pow_sub_eq {limit d : Nat} (h : d < limit) :
    2 ^ (limit - d) = 2 ^ (limit - (d + 1)) + 2 ^ (limit - (d + 1)) := by
  have hsucc : limit - d = limit - (d + 1) + 1 := by omega
  rw [hsucc, Nat.pow_succ, Nat.mul_two]

/-- Words of these lengths take more room than there is, by some words of the greatest length. If there is an
excess, there are more words of the greatest length than that. -/
structure Overfills (limit excess : Nat) (depths : List Nat) : Prop where
  room_eq : room limit depths = 2 ^ limit + excess
  le_limit : ∀ d ∈ depths, d ≤ limit
  lt_count : 0 < excess → excess < depths.count limit

namespace Overfills

variable {limit excess d : Nat} {depths depths' rest : List Nat}

theorem perm (h : Overfills limit excess depths) (hperm : depths.Perm depths') :
    Overfills limit excess depths' :=
  ⟨(room_perm hperm).symm.trans h.room_eq, fun d hd => h.le_limit d (hperm.mem_iff.mpr hd), fun hpos => by
    rw [← hperm.count_eq]
    exact h.lt_count hpos⟩

/-- A single empty word takes all the room. -/
theorem root (limit : Nat) : Overfills limit 0 [0] :=
  ⟨rfl, fun d hd => by rw [List.mem_singleton.mp hd]; exact Nat.zero_le limit, fun hpos =>
    absurd hpos (Nat.lt_irrefl 0)⟩

/-- A word that is divided leaves the room as it is. -/
theorem divide (h : Overfills limit excess (d :: rest)) (hd : d < limit) :
    Overfills limit excess ((d + 1) :: (d + 1) :: rest) := by
  obtain ⟨hroom, hle, hcount⟩ := h
  refine ⟨?_, ?_, fun hpos => ?_⟩
  · rw [room_cons, two_pow_sub_eq hd] at hroom
    rw [room_cons, room_cons, ← Nat.add_assoc, hroom]
  · intro d' hd'
    rcases List.mem_cons.mp hd' with rfl | hd'
    · exact hd
    · rcases List.mem_cons.mp hd' with rfl | hd'
      · exact hd
      · exact hle d' (List.mem_cons_of_mem d hd')
  · have hlt := hcount hpos
    rw [List.count_cons_of_ne (Nat.ne_of_lt hd)] at hlt
    exact Nat.lt_of_lt_of_le hlt (Nat.le_trans List.count_le_count_cons List.count_le_count_cons)

/-- A word of the greatest length that is divided is one word too many. -/
theorem divide_limit (h : Overfills limit excess (limit :: rest)) :
    Overfills limit (excess + 1) (limit :: limit :: rest) := by
  obtain ⟨hroom, hle, hcount⟩ := h
  refine ⟨?_, ?_, fun _ => ?_⟩
  · rw [room_cons, Nat.sub_self, Nat.pow_zero, hroom]
    omega
  · intro d hd
    rcases List.mem_cons.mp hd with rfl | hd
    · exact Nat.le_refl _
    · exact hle d hd
  · rw [List.count_cons_self] at hcount ⊢
    rw [List.count_cons_self]
    omega

/-- A word of the greatest length finds room beside a shorter one that is made longer. -/
theorem relieve (h : Overfills limit (excess + 1) (d :: limit :: rest)) (hd : d < limit) :
    Overfills limit excess ((d + 1) :: (d + 1) :: rest) := by
  obtain ⟨hroom, hle, hcount⟩ := h
  refine ⟨?_, ?_, fun _ => ?_⟩
  · rw [room_cons, room_cons, Nat.sub_self, Nat.pow_zero, two_pow_sub_eq hd] at hroom
    rw [room_cons, room_cons]
    omega
  · intro d' hd'
    rcases List.mem_cons.mp hd' with rfl | hd'
    · exact hd
    · rcases List.mem_cons.mp hd' with rfl | hd'
      · exact hd
      · exact hle d' (List.mem_cons_of_mem d (List.mem_cons_of_mem limit hd'))
  · have hlt := hcount (Nat.succ_pos excess)
    rw [List.count_cons_of_ne (Nat.ne_of_lt hd), List.count_cons_self] at hlt
    exact Nat.lt_of_lt_of_le (Nat.lt_of_succ_lt_succ hlt)
      (Nat.le_trans List.count_le_count_cons List.count_le_count_cons)

/-- If there is an excess, not all words have the greatest length, as long as there is room for so many. -/
theorem exists_lt (h : Overfills limit (excess + 1) depths) (hlength : depths.length ≤ 2 ^ limit) :
    ∃ d ∈ depths, d < limit := by
  by_contra hnone
  have hall : depths = List.replicate depths.length limit :=
    List.eq_replicate_of_mem fun d hd =>
      Nat.le_antisymm (h.le_limit d hd) (Nat.not_lt.mp fun hlt => hnone ⟨d, hd, hlt⟩)
  have hroom := h.room_eq
  rw [hall, room, List.map_replicate, List.sum_replicate_nat, Nat.sub_self, Nat.pow_zero, Nat.mul_one]
    at hroom
  omega

end Overfills

/-! ## Joining, read backwards

The nodes that were taken are a list in reverse order of the joins, and the depths are given out along it.
A node gets its depth from its parent, which was made later and so has its own already.
-/

/-- A place that is added at the end changes no other. -/
theorem getD_push {a : Array Nat} {i : Nat} (h : i < a.size) (v : Nat) :
    (a.push v).getD i 0 = a.getD i 0 := by
  rw [Array.getD_eq_getD_getElem?, Array.getElem?_push, if_neg (Nat.ne_of_lt h), Array.getD_eq_getD_getElem?]

namespace Forest

variable {f : Forest} {node : Nat}

/-- Each node of a forest is a root or was taken, but only once, and has a place for its parent. -/
structure IsSound (f : Forest) : Prop where
  nodup : (f.heap.toList ++ f.taken).Nodup
  lt_size : ∀ node, f.Has node → node < f.weight.size
  size_parent : f.parent.size = f.weight.size

theorem mem_append_iff_has : node ∈ f.heap.toList ++ f.taken ↔ f.Has node := List.mem_append

/-- The nodes after two roots were joined: one more. -/
theorem join_perm (h : 2 ≤ f.heap.size) : (f.join.heap.toList ++ f.join.taken).Perm
    (f.weight.size :: (f.heap.toList ++ f.taken)) := by
  obtain ⟨rest, hbefore, hafter, htaken⟩ := exists_join h
  rw [htaken]
  refine (hafter.append_right _).trans ?_
  rw [List.cons_append]
  refine (List.Perm.trans ?_ (hbefore.append_right f.taken).symm).cons _
  -- The two roots move from the front of the roots to the front of those that were taken.
  have hmove : (rest ++ f.take.front :: f.front :: f.taken).Perm
      (f.take.front :: (rest ++ f.front :: f.taken)) :=
    List.perm_middle
  exact hmove.trans ((List.perm_middle.cons _).trans (List.Perm.swap _ _ _))

theorem parent_join (f : Forest) : f.join.parent =
    ((f.parent.setIfInBounds f.front f.weight.size).setIfInBounds f.take.front f.weight.size).push 0 := rfl

/-- A join keeps the forest sound. -/
theorem IsSound.join (h : f.IsSound) (htwo : 2 ≤ f.heap.size) : f.join.IsSound := by
  have hperm := join_perm htwo
  have hfresh : f.weight.size ∉ f.heap.toList ++ f.taken := fun hmem =>
    Nat.lt_irrefl _ (h.lt_size _ (mem_append_iff_has.mp hmem))
  refine ⟨hperm.nodup_iff.mpr (List.nodup_cons.mpr ⟨hfresh, h.nodup⟩), fun node hnode => ?_, ?_⟩
  · rw [weight_size_join]
    rcases List.mem_cons.mp (hperm.mem_iff.mp (mem_append_iff_has.mpr hnode)) with rfl | hold
    · exact Nat.lt_succ_self _
    · exact Nat.lt_succ_of_lt (h.lt_size node (mem_append_iff_has.mp hold))
  · rw [parent_join, Array.size_push, Array.size_setIfInBounds, Array.size_setIfInBounds, weight_size_join,
      h.size_parent]

/-- Of the first nodes, none comes in when roots are joined, and none is lost. -/
theorem filter_joinAll_perm {n : Nat} (hn : n ≤ f.weight.size) (k : Nat) :
    (((f.joinAll k).heap.toList ++ (f.joinAll k).taken).filter (· < n)).Perm
      ((f.heap.toList ++ f.taken).filter (· < n)) := by
  induction k generalizing f with
  | zero => exact .refl _
  | succ k ih =>
      rw [joinAll]
      split
      · rename_i htwo
        refine (ih (by rw [weight_size_join]; exact Nat.le_succ_of_le hn)).trans ?_
        refine ((join_perm htwo).filter _).trans ?_
        rw [List.filter_cons_of_neg (by simpa using hn)]
      · exact .refl _

/-- The two roots that are joined are different, and they were not taken before. -/
theorem IsSound.front_ne (h : f.IsSound) (htwo : 2 ≤ f.heap.size) :
    f.take.front ≠ f.front ∧ f.Has f.front ∧ f.Has f.take.front ∧
      f.front ∉ f.taken ∧ f.take.front ∉ f.taken := by
  obtain ⟨rest, hbefore, -, -⟩ := exists_join htwo
  have hnodup := (hbefore.append_right f.taken).nodup_iff.mp h.nodup
  rw [List.cons_append, List.cons_append, List.nodup_cons, List.nodup_cons] at hnodup
  obtain ⟨hfront, htake, -⟩ := hnodup
  refine ⟨fun heq => hfront (heq ▸ List.mem_cons_self), .inl ?_, .inl ?_, fun hmem => hfront ?_,
    fun hmem => htake (List.mem_append_right rest hmem)⟩
  · exact hbefore.mem_iff.mpr List.mem_cons_self
  · exact hbefore.mem_iff.mpr (List.mem_cons_of_mem _ List.mem_cons_self)
  · exact List.mem_cons_of_mem _ (List.mem_append_right rest hmem)

/-- The node that joins two roots is the parent of both, and no other parent changes. -/
theorem IsSound.getD_parent_join (h : f.IsSound) (hnode : f.Has node) :
    f.join.parent.getD node 0 =
      if node = f.front ∨ node = f.take.front then f.weight.size else f.parent.getD node 0 := by
  have hlt : node < f.parent.size := by
    rw [h.size_parent]
    exact h.lt_size node hnode
  rw [parent_join, getD_push (by simpa using hlt), getD_set, getD_set, Array.size_setIfInBounds]
  simp only [hlt, and_true, eq_comm (b := node)]
  split <;> split <;> simp_all

/-- A node that was taken keeps its parent. -/
theorem IsSound.getD_parent_joinAll (h : f.IsSound) (hnode : node ∈ f.taken) (k : Nat) :
    (f.joinAll k).parent.getD node 0 = f.parent.getD node 0 := by
  induction k generalizing f with
  | zero => rfl
  | succ k ih =>
      rw [joinAll]
      split
      · rename_i htwo
        obtain ⟨-, -, -, hfront, htake⟩ := h.front_ne htwo
        obtain ⟨-, -, -, htaken⟩ := exists_join htwo
        rw [ih (h.join htwo) (by rw [htaken]; exact List.mem_cons_of_mem _ (List.mem_cons_of_mem _ hnode)),
          h.getD_parent_join (.inr hnode), if_neg]
        rintro (rfl | rfl)
        · exact hfront hnode
        · exact htake hnode
      · rfl

end Forest

/-! ## Depths of roots

The invariant of giving out depths (`Fills`) speaks of the roots before some join. The induction is on the
joins that are left, and its step divides the root that the join made.
-/

/-- What a node is called whose parent has a depth within the limit. -/
theorem Depths.add_eq {limit : Nat} {f : Forest} {d : Depths} {node parent : Nat}
    (hparent : f.parent.getD node 0 = parent) (hle : d.depth.getD parent 0 ≤ limit) :
    d.add limit f node = if d.depth.getD parent 0 = limit then ⟨d.depth.setIfInBounds node limit, d.cut + 1⟩
      else ⟨d.depth.setIfInBounds node (d.depth.getD parent 0 + 1), d.cut⟩ := by
  rw [add, hparent]
  by_cases hlimit : d.depth.getD parent 0 = limit
  · rw [if_pos (by omega), if_pos hlimit]
  · rw [if_neg (by omega), if_neg hlimit]

/-- The depths of roots whose words exceed the room by half as many words as nodes were cut. -/
structure Fills (limit : Nat) (roots : List Nat) (d : Depths) : Prop where
  half : d.cut = 2 * (d.cut / 2)
  overfills : Overfills limit (d.cut / 2) (roots.map fun node => d.depth.getD node 0)

/-- The order of the roots plays no role. -/
theorem Fills.perm {limit : Nat} {roots roots' : List Nat} {d : Depths} (h : Fills limit roots d)
    (hperm : roots.Perm roots') : Fills limit roots' d := ⟨h.half, h.overfills.perm (hperm.map _)⟩

/-- The depths of the two nodes that a root joined. -/
theorem Fills.add_add {limit : Nat} {f : Forest} {n a b : Nat} {rest : List Nat} {d : Depths}
    (h : Fills limit (n :: rest) d) (hnodup : (a :: b :: n :: rest).Nodup)
    (ha : f.parent.getD a 0 = n) (hb : f.parent.getD b 0 = n) (hasize : a < d.depth.size)
    (hbsize : b < d.depth.size) :
    Fills limit (a :: b :: rest) ((d.add limit f b).add limit f a) := by
  obtain ⟨hhalf, hover⟩ := h
  rw [List.map_cons] at hover
  have hle : d.depth.getD n 0 ≤ limit := hover.le_limit _ List.mem_cons_self
  simp only [List.nodup_cons, List.mem_cons, not_or] at hnodup
  obtain ⟨⟨hab, han, harest⟩, ⟨hbn, hbrest⟩, -, -⟩ := hnodup
  -- Both nodes get one depth, and the other roots keep theirs.
  have hmap : ∀ l, (a :: b :: rest).map (fun node =>
      ((d.depth.setIfInBounds b l).setIfInBounds a l).getD node 0) =
        l :: l :: rest.map fun node => d.depth.getD node 0 := by
    intro l
    rw [List.map_cons, List.map_cons, getD_set, if_pos ⟨rfl, by rwa [Array.size_setIfInBounds]⟩, getD_set,
      if_neg fun hboth => hab hboth.1, getD_set, if_pos ⟨rfl, hbsize⟩]
    refine congrArg _ (congrArg _ (List.map_congr_left fun node hnode => ?_))
    rw [getD_set, if_neg, getD_set, if_neg]
    · exact fun hboth => hbrest (hboth.1 ▸ hnode)
    · exact fun hboth => harest (hboth.1 ▸ hnode)
  have hkeep : ∀ l, (d.depth.setIfInBounds b l).getD n 0 = d.depth.getD n 0 := by
    intro l
    rw [getD_set, if_neg fun hboth => hbn hboth.1]
  by_cases hlimit : d.depth.getD n 0 = limit
  · rw [Depths.add_eq hb hle, if_pos hlimit, Depths.add_eq ha (by rw [hkeep]; exact hle),
      if_pos (by rw [hkeep, hlimit])]
    rw [hlimit] at hover
    refine ⟨by dsimp only; omega, ?_⟩
    rw [hmap]
    have hexcess : (d.cut + 1 + 1) / 2 = d.cut / 2 + 1 := by omega
    dsimp only
    rw [hexcess]
    exact hover.divide_limit
  · rw [Depths.add_eq hb hle, if_neg hlimit, Depths.add_eq ha (by rw [hkeep]; exact hle),
      if_neg (by rw [hkeep]; exact hlimit), hkeep]
    refine ⟨hhalf, ?_⟩
    rw [hmap]
    exact hover.divide (Nat.lt_of_le_of_ne hle hlimit)

namespace Forest

variable {f : Forest}

/-- No depth is known yet. -/
def noDepths (f : Forest) : Depths := ⟨Array.replicate f.weight.size 0, 0⟩

/-- The depths are given out along the list of taken nodes. -/
theorem depths_eq (limit : Nat) (f : Forest) :
    depths limit f = f.taken.foldl (Depths.add limit f) f.noDepths := rfl

/-- At first every depth is zero. -/
theorem getD_noDepths (f : Forest) (node : Nat) : f.noDepths.depth.getD node 0 = 0 := by
  rw [noDepths, Array.getD_eq_getD_getElem?, Array.getElem?_replicate]
  split <;> rfl

theorem size_foldl_add (limit : Nat) (f : Forest) (nodes : List Nat) (d : Depths) :
    (nodes.foldl (Depths.add limit f) d).depth.size = d.depth.size := by
  induction nodes generalizing d with
  | nil => rfl
  | cons node nodes ih => rw [List.foldl_cons, ih, d.size_add]

/-- What was not taken has depth zero. -/
theorem getD_depths_of_notMem {limit node : Nat} (h : node ∉ f.taken) :
    (depths limit f).depth.getD node 0 = 0 := by
  have hfold : ∀ (nodes : List Nat) (d : Depths), node ∉ nodes →
      (nodes.foldl (Depths.add limit f) d).depth.getD node 0 = d.depth.getD node 0 := by
    intro nodes
    induction nodes with
    | nil => exact fun _ _ => rfl
    | cons other nodes ih =>
        intro d hnot
        obtain ⟨hne, hnot⟩ := List.ne_and_not_mem_of_not_mem_cons hnot
        rw [List.foldl_cons, ih _ hnot, Depths.add]
        split <;> rw [getD_set, if_neg fun hboth => hne hboth.1.symm]
  rw [depths_eq, hfold _ _ h, getD_noDepths]

/-- The root of the whole tree has the empty word. -/
theorem fills_noDepths (limit root : Nat) (f : Forest) : Fills limit [root] f.noDepths := by
  have hcut : f.noDepths.cut = 0 := rfl
  refine ⟨by rw [hcut], ?_⟩
  rw [List.map_singleton, getD_noDepths, hcut]
  exact .root limit

/-- When a single root is left, the roots that there were at some time exceed the room by half as many words
as were cut of the nodes that were taken since then. -/
theorem exists_fills {k root : Nat} (limit : Nat) (h : f.IsSound)
    (hroot : (f.joinAll k).heap.toList = [root]) :
    ∃ newer, (f.joinAll k).taken = newer ++ f.taken ∧
      Fills limit f.heap.toList (newer.foldl (Depths.add limit (f.joinAll k)) (f.joinAll k).noDepths) := by
  induction k generalizing f with
  | zero =>
      rw [joinAll] at hroot
      exact ⟨[], rfl, hroot ▸ fills_noDepths limit root f⟩
  | succ k ih =>
      rw [joinAll] at hroot ⊢
      by_cases htwo : 2 ≤ f.heap.size
      · rw [if_pos htwo] at hroot ⊢
        have hsound := h.join htwo
        obtain ⟨newer, htaken, hfills⟩ := ih hsound hroot
        obtain ⟨rest, hbefore, hafter, hjoined⟩ := exists_join htwo
        obtain ⟨hne, hfront, htake, -, -⟩ := h.front_ne htwo
        -- The two roots that were joined have the new one as their parent, also at the end.
        have hparent : ∀ node, node = f.front ∨ node = f.take.front →
            (f.join.joinAll k).parent.getD node 0 = f.weight.size ∧
              node < (newer.foldl (Depths.add limit (f.join.joinAll k))
                (f.join.joinAll k).noDepths).depth.size := by
          intro node hnode
          have hhas : f.Has node := by rcases hnode with rfl | rfl <;> assumption
          have hmem : node ∈ f.join.taken := by
            rw [hjoined]
            rcases hnode with rfl | rfl <;> simp
          rw [hsound.getD_parent_joinAll hmem, h.getD_parent_join hhas, if_pos hnode, size_foldl_add,
            noDepths, Array.size_replicate]
          exact ⟨rfl, Nat.lt_of_lt_of_le (hsound.lt_size node (.inr hmem)) (weight_size_joinAll _ k)⟩
        have hnodup : (f.front :: f.take.front :: f.weight.size :: rest).Nodup := by
          have hroots := hbefore.nodup_iff.mp (List.nodup_append.mp h.nodup).1
          have hfresh : f.weight.size ∉ f.front :: f.take.front :: rest := fun hmem =>
            Nat.lt_irrefl _ (h.lt_size _ (.inl (hbefore.mem_iff.mpr hmem)))
          have hmove : ([f.front, f.take.front] ++ f.weight.size :: rest).Perm
              (f.weight.size :: ([f.front, f.take.front] ++ rest)) := List.perm_middle
          exact hmove.nodup_iff.mpr (List.nodup_cons.mpr ⟨hfresh, hroots⟩)
        obtain ⟨hpa, hsa⟩ := hparent _ (.inl rfl)
        obtain ⟨hpb, hsb⟩ := hparent _ (.inr rfl)
        refine ⟨newer ++ [f.take.front, f.front], by rw [htaken, hjoined, List.append_assoc]; rfl, ?_⟩
        rw [List.foldl_append, List.foldl_cons, List.foldl_cons, List.foldl_nil]
        exact ((hfills.perm hafter).add_add hnodup hpa hpb hsa hsb).perm hbefore.symm
      · rw [if_neg htwo] at hroot ⊢
        exact ⟨[], rfl, hroot ▸ fills_noDepths limit root f⟩

end Forest

/-! ## The finished tree

Before any join the roots are the symbols that occur, which turns the invariant into a statement about
them.
-/

theorem nodup_occurring (weights : Array Nat) : (occurring weights).Nodup := List.nodup_range.filter _

theorem taken_ofWeights (weights : Array Nat) : (Forest.ofWeights weights).taken = [] := by
  obtain ⟨heap, hheap⟩ := exists_ofWeights weights
  rw [hheap]

/-- The forest of the symbols is sound. -/
theorem isSound_ofWeights (weights : Array Nat) : (Forest.ofWeights weights).IsSound := by
  refine ⟨?_, fun node hnode => ?_, ?_⟩
  · rw [taken_ofWeights, List.append_nil]
    exact (ofWeights_perm weights).nodup_iff.mpr (nodup_occurring weights)
  · rw [Forest.Has, taken_ofWeights] at hnode
    rw [ofWeights_weight]
    exact (mem_occurring.mp
      ((ofWeights_perm weights).mem_iff.mp (hnode.resolve_right List.not_mem_nil))).lt_size
  · obtain ⟨heap, hheap⟩ := exists_ofWeights weights
    rw [hheap]
    exact Array.size_replicate

variable {weights : Array Nat}

/-- The depths of the symbols exceed the room by half as many words as nodes were cut. -/
theorem fills_depths (limit : Nat) (htwo : 2 ≤ (occurring weights).length) :
    Fills limit (occurring weights) (depths limit (tree weights)) := by
  obtain ⟨root, hroot, -⟩ := Forest.heap_joinAll (size_ofWeights weights ▸ htwo) (Nat.le_succ _)
  obtain ⟨newer, htaken, hfills⟩ := Forest.exists_fills limit (isSound_ofWeights weights) hroot
  rw [taken_ofWeights, List.append_nil] at htaken
  rw [Forest.depths_eq, tree, htaken]
  exact hfills.perm (ofWeights_perm weights)

/-- The symbols that were taken are those that occur. -/
theorem filter_taken_perm (htwo : 2 ≤ (occurring weights).length) :
    ((tree weights).taken.filter (· < weights.size)).Perm (occurring weights) := by
  obtain ⟨root, hroot, hle⟩ := Forest.heap_joinAll (size_ofWeights weights ▸ htwo) (Nat.le_succ _)
  rw [ofWeights_weight] at hle
  have hperm := Forest.filter_joinAll_perm (f := Forest.ofWeights weights) (n := weights.size)
    (Nat.le_of_eq (by rw [ofWeights_weight])) (Forest.ofWeights weights).heap.size
  rw [hroot, List.singleton_append, List.filter_cons_of_neg (by simpa using hle), taken_ofWeights,
    List.append_nil] at hperm
  refine (hperm.trans ((ofWeights_perm weights).filter _)).trans ?_
  rw [List.filter_eq_self.mpr fun s hs => decide_eq_true (mem_occurring.mp hs).lt_size]

end WasmEmbed.Payload.Deflate.Huffman
