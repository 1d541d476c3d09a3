import Mathlib.Algebra.Ring.Nat
import WasmEmbed.Payload.Deflate.Huffman
import WasmEmbed.Proofs.Payload.Deflate.Code

/-!
# Every symbol that occurs gets a codeword

While a heap is put in order its members stay the same (`sink_perm`). So each time two roots are joined they
move from the heap to the list of taken nodes and one new root comes in (`exists_join`), and when a single
root is left, every symbol has been taken (`mem_taken`). A taken node gets a depth from one to the limit,
and moving symbols to other depths stays within them, so a symbol that occurs has a length from one to the
limit (`covers_lengths`, `lengths_le`).
-/

namespace WasmEmbed.Payload.Deflate.Huffman

/-! ## The heap

The order of the heap plays no role for what follows: only its members do. Each step of sinking exchanges
two of them.
-/

theorem getD_eq_getElem {heap : Array Nat} {i : Nat} (h : i < heap.size) : heap.getD i 0 = heap[i] := by
  rw [Array.getD, dif_pos h]
  rfl

/-- Moving a member up and another one into its place exchanges the two. -/
theorem set_set_perm {heap : Array Nat} {i c : Nat} (node : Nat) (hi : i < heap.size)
    (hc : c < heap.size) (hne : i ≠ c) :
    ((heap.setIfInBounds i (heap.getD c 0)).setIfInBounds c node).Perm (heap.setIfInBounds i node) := by
  have hi' : i < (heap.setIfInBounds i node).size := by rwa [Array.size_setIfInBounds]
  have hc' : c < (heap.setIfInBounds i node).size := by rwa [Array.size_setIfInBounds]
  have hswap : (heap.setIfInBounds i (heap.getD c 0)).setIfInBounds c node =
      (heap.setIfInBounds i node).swap i c hi' hc' := by
    refine Array.ext (by simp) fun j hj _ => ?_
    have hj' : j < heap.size := by simpa using hj
    rw [Array.getElem_swap]
    by_cases hjc : c = j
    · subst hjc
      simp [Ne.symm hne]
    · by_cases hji : i = j
      · subst hji
        rw [if_pos rfl, Array.getElem_setIfInBounds hc, if_neg hne,
          Array.getElem_setIfInBounds (by simpa using hj'), if_neg hjc,
          Array.getElem_setIfInBounds hj', if_pos rfl]
        exact getD_eq_getElem hc
      · rw [if_neg (Ne.symm hji), if_neg (Ne.symm hjc),
          Array.getElem_setIfInBounds (by simpa using hj'), if_neg hjc,
          Array.getElem_setIfInBounds hj', if_neg hji, Array.getElem_setIfInBounds hj', if_neg hji]
  rw [hswap]
  exact Array.swap_perm hi' hc'

namespace Forest

variable {f : Forest}

/-- Putting a node into its place keeps the members of the heap. -/
theorem sink_perm (f : Forest) (node k : Nat) {i : Nat} {heap : Array Nat} (hi : i < heap.size) :
    (f.sink node k i heap).Perm (heap.setIfInBounds i node) := by
  induction k generalizing i heap with
  | zero => exact .refl _
  | succ k ih =>
      rw [sink]
      by_cases hleft : 2 * i + 1 < heap.size
      · rw [if_pos hleft]
        simp only
        -- The child that comes first lies in the heap, behind its parent.
        generalize hchild : (if 2 * i + 2 < heap.size &&
          f.precedes (heap.getD (2 * i + 2) 0) (heap.getD (2 * i + 1) 0) then 2 * i + 2
          else 2 * i + 1) = child
        have hlt : child < heap.size ∧ i ≠ child := by
          generalize f.precedes (heap.getD (2 * i + 2) 0) (heap.getD (2 * i + 1) 0) = p at hchild
          by_cases hright : (2 * i + 2 < heap.size && p) = true
          · rw [if_pos hright] at hchild
            rw [Bool.and_eq_true, decide_eq_true_eq] at hright
            omega
          · rw [if_neg hright] at hchild
            omega
        by_cases hprecedes : f.precedes node (heap.getD child 0) = true
        · rw [if_pos hprecedes]
        · rw [if_neg hprecedes]
          exact (ih (by rw [Array.size_setIfInBounds]; exact hlt.1)).trans
            (set_set_perm node hi hlt.1 hlt.2)
      · rw [if_neg hleft]

/-- A node that sinks stays a member of the heap. -/
theorem settle_perm {i : Nat} (hi : i < f.heap.size) : (f.settle i).heap.Perm f.heap := by
  have hsame : f.heap.setIfInBounds i (f.heap.getD i 0) = f.heap := by
    refine Array.ext (by simp) fun j _ hj => ?_
    rw [Array.getElem_setIfInBounds hj]
    by_cases heq : i = j
    · subst heq
      rw [if_pos rfl]
      exact getD_eq_getElem hj
    · rw [if_neg heq]
  have hperm := f.sink_perm (f.heap.getD i 0) f.heap.size hi
  rwa [hsame] at hperm

/-- Putting the heap in order keeps its members. -/
theorem order_perm {k : Nat} (hk : k ≤ f.heap.size) : (f.order k).heap.Perm f.heap := by
  induction k generalizing f with
  | zero => exact .refl _
  | succ k ih =>
      have hsettle : (f.settle k).heap.Perm f.heap := settle_perm hk
      exact (ih (by rw [hsettle.size_eq]; exact Nat.le_of_succ_le hk)).trans hsettle

/-- Putting a heap in order changes nothing else. -/
theorem exists_order (f : Forest) (k : Nat) : ∃ heap, f.order k = { f with heap := heap } := by
  induction k generalizing f with
  | zero => exact ⟨f.heap, rfl⟩
  | succ k ih =>
      obtain ⟨heap, hheap⟩ := ih (f.settle k)
      exact ⟨heap, hheap⟩

/-! ## Taking and joining roots

Two roots are taken and a new one is put in, so the heap has one node less. A node that was in the heap is
in it still or has been taken.
-/

/-- The first root is taken away. -/
theorem take_perm (h : 2 ≤ f.heap.size) : f.heap.toList.Perm (f.front :: f.take.heap.toList) := by
  obtain ⟨a, mid, last, hheap⟩ : ∃ a mid last, f.heap = ⟨a :: (mid ++ [last])⟩ := by
    rcases hheap : f.heap with ⟨list⟩
    rw [hheap] at h
    match list with
    | [] | [_] => exact absurd h (by simp)
    | a :: b :: rest =>
        exact ⟨a, (b :: rest).dropLast, (b :: rest).getLast (List.cons_ne_nil b rest),
          by rw [List.dropLast_concat_getLast]⟩
  have hfront : f.front = a := by rw [front, hheap]; rfl
  have hlast : f.heap.getD (f.heap.size - 1) 0 = last := by
    rw [hheap]
    simp [Array.getD]
  have hpop : f.heap.pop.setIfInBounds 0 (f.heap.getD (f.heap.size - 1) 0) = ⟨last :: mid⟩ := by
    rw [hlast, hheap]
    simp [List.dropLast_cons_of_ne_nil]
  -- The last root takes the place of the first one, and settling only moves the members about.
  have hsettle : f.take.heap.Perm ⟨last :: mid⟩ := by
    have hperm : f.take.heap.Perm
        (f.heap.pop.setIfInBounds 0 (f.heap.getD (f.heap.size - 1) 0)) :=
      settle_perm (by show 0 < (f.heap.pop.setIfInBounds 0 _).size; rw [hpop]; exact Nat.succ_pos _)
    rwa [hpop] at hperm
  rw [hfront, hheap]
  exact ((List.perm_append_singleton last mid).trans hsettle.toList.symm).cons a

/-- Taking a root leaves one node less. -/
theorem size_take (h : 2 ≤ f.heap.size) : f.take.heap.size + 1 = f.heap.size := by
  have hlength := (take_perm h).length_eq
  rw [List.length_cons, Array.length_toList, Array.length_toList] at hlength
  exact hlength.symm

/-- The front of the heap is its first node, which can be replaced. -/
theorem cons_front_tail (h : 0 < f.heap.size) :
    f.heap.toList = f.front :: f.heap.toList.tail ∧
      ∀ node, (f.heap.setIfInBounds 0 node).toList = node :: f.heap.toList.tail := by
  obtain ⟨a, rest, hheap⟩ : ∃ a rest, f.heap = ⟨a :: rest⟩ := by
    rcases hheap : f.heap with ⟨list⟩
    rw [hheap] at h
    cases list with
    | nil => exact absurd h (Nat.lt_irrefl 0)
    | cons a rest => exact ⟨a, rest, rfl⟩
  refine ⟨by rw [front, hheap]; rfl, fun node => by rw [hheap]; rfl⟩

/-- Two roots are taken, and a new one comes in. -/
theorem exists_join (h : 2 ≤ f.heap.size) : ∃ rest : List Nat,
    f.heap.toList.Perm (f.front :: f.take.front :: rest) ∧
      f.join.heap.toList.Perm (f.weight.size :: rest) ∧
      f.join.taken = f.take.front :: f.front :: f.taken := by
  have hsize : 0 < f.take.heap.size := by
    have hone := size_take h
    omega
  obtain ⟨hfront, hset⟩ := cons_front_tail hsize
  refine ⟨f.take.heap.toList.tail, ?_, ?_, rfl⟩
  · rw [← hfront]
    exact take_perm h
  · rw [← hset]
    exact (settle_perm (by rwa [Array.size_setIfInBounds])).toList

/-- Joining two roots leaves one node less. -/
theorem size_join (h : 2 ≤ f.heap.size) : f.join.heap.size + 1 = f.heap.size := by
  obtain ⟨rest, hperm, hjoin, -⟩ := exists_join h
  have hbefore := hperm.length_eq
  have hafter := hjoin.length_eq
  rw [List.length_cons, List.length_cons, Array.length_toList] at hbefore
  rw [List.length_cons, Array.length_toList] at hafter
  omega

/-- A join makes one node. -/
theorem weight_size_join (f : Forest) : f.join.weight.size = f.weight.size + 1 := Array.size_push ..

/-! ## Joining all roots

After as many joins as there are roots but one, a single root is left. It is the node that was made last.
-/

/-- A node is a root or was one. -/
def Has (f : Forest) (node : Nat) : Prop := node ∈ f.heap.toList ∨ node ∈ f.taken

/-- A node of the forest stays one when roots are joined. -/
theorem Has.join {node : Nat} (h : f.Has node) (htwo : 2 ≤ f.heap.size) : f.join.Has node := by
  obtain ⟨rest, hbefore, hafter, htaken⟩ := exists_join htwo
  rw [Has, hafter.mem_iff, htaken]
  rcases h with hheap | htaken
  · rw [hbefore.mem_iff] at hheap
    rcases List.mem_cons.mp hheap with rfl | hheap
    · exact .inr (List.mem_cons_of_mem _ List.mem_cons_self)
    · rcases List.mem_cons.mp hheap with rfl | hrest
      · exact .inr List.mem_cons_self
      · exact .inl (List.mem_cons_of_mem _ hrest)
  · exact .inr (List.mem_cons_of_mem _ (List.mem_cons_of_mem _ htaken))

/-- The same for several joins, by induction on their number. -/
theorem Has.joinAll {node : Nat} (h : f.Has node) (k : Nat) : (f.joinAll k).Has node := by
  induction k generalizing f with
  | zero => exact h
  | succ k ih =>
      rw [Forest.joinAll]
      split
      · rename_i htwo
        exact ih (h.join htwo)
      · exact h

/-- At the end a single root is left, and it is not one of the first nodes. -/
theorem heap_joinAll {k : Nat} (htwo : 2 ≤ f.heap.size) (hk : f.heap.size ≤ k + 1) :
    ∃ root, (f.joinAll k).heap.toList = [root] ∧ f.weight.size ≤ root := by
  induction k generalizing f with
  | zero => omega
  | succ k ih =>
      have hsize := size_join htwo
      rw [joinAll, if_pos htwo]
      -- A join takes two roots and gives one, so what is left at the end is the root of the last join.
      by_cases hmore : 2 ≤ f.join.heap.size
      · obtain ⟨root, hheap, hle⟩ := ih hmore (by omega)
        rw [weight_size_join] at hle
        exact ⟨root, hheap, Nat.le_of_succ_le hle⟩
      · have hdone : f.join.joinAll k = f.join := by
          cases k with
          | zero => rfl
          | succ k => rw [joinAll, if_neg hmore]
        obtain ⟨rest, -, hafter, -⟩ := exists_join htwo
        have hnil : rest = [] := by
          have hlength := hafter.length_eq
          rw [List.length_cons, Array.length_toList] at hlength
          exact List.eq_nil_of_length_eq_zero (by omega)
        rw [hnil] at hafter
        exact ⟨f.weight.size, by rw [hdone]; exact List.perm_singleton.mp hafter, Nat.le_refl _⟩

/-- All symbols have been taken when a single root is left. -/
theorem mem_taken {k node : Nat} (h : f.Has node) (hnode : node < f.weight.size)
    (htwo : 2 ≤ f.heap.size) (hk : f.heap.size ≤ k + 1) : node ∈ (f.joinAll k).taken := by
  obtain ⟨root, hheap, hle⟩ := heap_joinAll htwo hk
  rcases h.joinAll k with hroot | htaken
  · rw [hheap] at hroot
    obtain rfl := List.mem_singleton.mp hroot
    omega
  · exact htaken

/-- Joins make nodes and remove none. -/
theorem weight_size_joinAll (f : Forest) (k : Nat) : f.weight.size ≤ (f.joinAll k).weight.size := by
  induction k generalizing f with
  | zero => exact Nat.le_refl _
  | succ k ih =>
      rw [joinAll]
      split
      · have hjoin := ih f.join
        rw [weight_size_join] at hjoin
        exact Nat.le_of_succ_le hjoin
      · exact Nat.le_refl _

end Forest

/-! ## Symbols that occur

The forest begins with a node for each symbol that occurs. Their numbers are those of the symbols, and
nodes that are made get greater ones.
-/

/-- The symbol occurs. -/
def Occurs (weights : Array Nat) (s : Nat) : Prop := weights.getD s 0 ≠ 0

theorem Occurs.lt_size {weights : Array Nat} {s : Nat} (h : Occurs weights s) : s < weights.size := by
  rcases Nat.lt_or_ge s weights.size with hlt | hge
  · exact hlt
  · exact absurd (by rw [Array.getD, dif_neg (Nat.not_lt.mpr hge)]) h

/-- The symbols that occur, in order. -/
def occurring (weights : Array Nat) : List Nat :=
  (List.range weights.size).filter fun s => weights.getD s 0 != 0

/-- The listed symbols are those that occur. -/
theorem mem_occurring {weights : Array Nat} {s : Nat} : s ∈ occurring weights ↔ Occurs weights s := by
  rw [occurring, List.mem_filter, List.mem_range, bne_iff_ne]
  exact ⟨fun h => h.2, fun h => ⟨h.lt_size, h⟩⟩

/-- At first the roots are the symbols that occur. -/
theorem ofWeights_perm (weights : Array Nat) :
    (Forest.ofWeights weights).heap.toList.Perm (occurring weights) := by
  have horder : (Forest.ofWeights weights).heap.Perm
      ((Array.range weights.size).filter fun s => weights.getD s 0 != 0) :=
    Forest.order_perm (Nat.div_le_self _ _)
  have hlist := horder.toList
  rwa [Array.toList_filter, Array.toList_range] at hlist

/-- No root was taken or joined yet. -/
theorem exists_ofWeights (weights : Array Nat) : ∃ heap, Forest.ofWeights weights =
    { weight := weights, height := Array.replicate weights.size 0,
      parent := Array.replicate weights.size 0, heap := heap, taken := [] } := Forest.exists_order _ _

/-- The weights of the first nodes are those of the symbols. -/
theorem ofWeights_weight (weights : Array Nat) : (Forest.ofWeights weights).weight = weights := by
  obtain ⟨heap, hheap⟩ := exists_ofWeights weights
  rw [hheap]

/-- At first there is a root for each symbol that occurs. -/
theorem size_ofWeights (weights : Array Nat) :
    (Forest.ofWeights weights).heap.size = (occurring weights).length := by
  rw [← Array.length_toList, (ofWeights_perm weights).length_eq]

/-- The tree in which all symbols that occur have been joined. -/
def tree (weights : Array Nat) : Forest :=
  (Forest.ofWeights weights).joinAll (Forest.ofWeights weights).heap.size

theorem size_le_size_tree (weights : Array Nat) : weights.size ≤ (tree weights).weight.size := by
  have hle := Forest.weight_size_joinAll (Forest.ofWeights weights) (Forest.ofWeights weights).heap.size
  rwa [ofWeights_weight] at hle

/-- Every symbol that occurs is taken at some time. -/
theorem mem_taken_of_occurs {weights : Array Nat} {s : Nat} (h : Occurs weights s)
    (htwo : 2 ≤ (occurring weights).length) : s ∈ (tree weights).taken := by
  refine Forest.mem_taken (.inl ?_) ?_ ?_ (Nat.le_succ _)
  · rw [(ofWeights_perm weights).mem_iff]
    exact mem_occurring.mpr h
  · rw [ofWeights_weight]
    exact h.lt_size
  · rwa [size_ofWeights]

/-! ## Depths

A depth is given to each taken node from that of its parent, and it is cut to the limit. Afterwards the
symbols get the depths again from the deepest to the least deep, which changes none of the bounds.
-/

/-- No depth is greater than the limit, and none of the nodes has depth zero. -/
structure Bounded (limit : Nat) (nodes : List Nat) (depth : Array Nat) : Prop where
  le_limit : ∀ i, depth.getD i 0 ≤ limit
  ne_zero : ∀ node ∈ nodes, node < depth.size → depth.getD node 0 ≠ 0

theorem getD_set (depth : Array Nat) (node l i : Nat) :
    (depth.setIfInBounds node l).getD i 0 =
      if node = i ∧ i < depth.size then l else depth.getD i 0 := by
  rw [Array.getD_eq_getD_getElem?, Array.getElem?_setIfInBounds]
  by_cases hnode : node = i
  · subst hnode
    by_cases hlt : node < depth.size
    · rw [if_pos rfl, if_pos hlt, if_pos ⟨rfl, hlt⟩, Option.getD_some]
    · rw [if_pos rfl, if_neg hlt, if_neg fun h => hlt h.2, Option.getD_none,
        Array.getD, dif_neg hlt]
  · rw [if_neg hnode, if_neg fun h => hnode h.1, Array.getD_eq_getD_getElem?]

/-- The number at one place is changed. -/
theorem getD_modify (weights : Array Nat) (f : Nat → Nat) (s t : Nat) :
    (weights.modify s f).getD t 0 =
      if s = t ∧ t < weights.size then f (weights.getD t 0) else weights.getD t 0 := by
  rw [Array.getD_eq_getD_getElem?, Array.getElem?_modify, Array.getD_eq_getD_getElem?]
  by_cases hst : s = t
  · rw [if_pos hst]
    by_cases hlt : t < weights.size
    · rw [if_pos ⟨hst, hlt⟩, Array.getElem?_eq_getElem hlt]
      rfl
    · rw [if_neg fun h => hlt h.2, Array.getElem?_eq_none (Nat.not_lt.mp hlt)]
      rfl
  · rw [if_neg hst, if_neg fun h => hst h.1]

namespace Bounded

variable {limit node l : Nat} {nodes more : List Nat} {depth : Array Nat}

theorem set (h : Bounded limit nodes depth) (hpos : 0 < l) (hle : l ≤ limit) :
    Bounded limit (node :: nodes) (depth.setIfInBounds node l) := by
  refine ⟨fun i => ?_, fun i hi hlt => ?_⟩
  · rw [getD_set]
    split
    · exact hle
    · exact h.le_limit i
  · rw [Array.size_setIfInBounds] at hlt
    rw [getD_set]
    by_cases hset : node = i ∧ i < depth.size
    · rw [if_pos hset]
      exact Nat.ne_of_gt hpos
    · rw [if_neg hset]
      rcases List.mem_cons.mp hi with rfl | hmem
      · exact absurd ⟨rfl, hlt⟩ hset
      · exact h.ne_zero i hmem hlt

theorem mono (h : Bounded limit nodes depth) (hsub : ∀ node ∈ more, node ∈ nodes) :
    Bounded limit more depth :=
  ⟨h.le_limit, fun node hnode => h.ne_zero node (hsub node hnode)⟩

theorem replicate (limit n : Nat) : Bounded limit [] (Array.replicate n 0) := by
  refine ⟨fun i => ?_, fun node hnode => nomatch hnode⟩
  rw [Array.getD_eq_getD_getElem?, Array.getElem?_replicate]
  split <;> exact Nat.zero_le _

end Bounded

/-- The depth of one more node. -/
def Depths.add (limit : Nat) (f : Forest) (d : Depths) (node : Nat) : Depths :=
  let depth := d.depth.getD (f.parent.getD node 0) 0 + 1
  if limit < depth then ⟨d.depth.setIfInBounds node limit, d.cut + 1⟩
  else ⟨d.depth.setIfInBounds node depth, d.cut⟩

/-- A node that is given its depth is bounded, and so are those before. -/
theorem Bounded.add {limit : Nat} {nodes : List Nat} {d : Depths} (h : Bounded limit nodes d.depth)
    (hlimit : 0 < limit) (f : Forest) (node : Nat) :
    Bounded limit (node :: nodes) (d.add limit f node).depth := by
  rw [Depths.add]
  split
  · exact h.set hlimit (Nat.le_refl limit)
  · rename_i hle
    exact h.set (Nat.succ_pos _) (Nat.not_lt.mp hle)

/-- Giving a depth makes no place for further ones. -/
theorem Depths.size_add (limit : Nat) (f : Forest) (d : Depths) (node : Nat) :
    (d.add limit f node).depth.size = d.depth.size := by
  rw [add]
  split <;> exact Array.size_setIfInBounds

/-- Every node that was taken gets a depth from one to the limit. -/
theorem bounded_depths {limit : Nat} (hlimit : 0 < limit) (f : Forest) :
    Bounded limit f.taken (depths limit f).depth ∧ (depths limit f).depth.size = f.weight.size := by
  have hfold : ∀ (taken nodes : List Nat) (d : Depths), Bounded limit nodes d.depth →
      Bounded limit (taken ++ nodes) (taken.foldl (Depths.add limit f) d).depth ∧
        (taken.foldl (Depths.add limit f) d).depth.size = d.depth.size := by
    intro taken
    induction taken with
    | nil => exact fun nodes d h => ⟨h, rfl⟩
    | cons node taken ih =>
        intro nodes d h
        obtain ⟨hbounded, hsize⟩ := ih (node :: nodes) _ (h.add hlimit f node)
        refine ⟨hbounded.mono fun x hx => ?_, hsize.trans (d.size_add limit f node)⟩
        simpa [or_left_comm] using hx
  obtain ⟨hbounded, hsize⟩ := hfold f.taken [] ⟨Array.replicate f.weight.size 0, 0⟩ (.replicate _ _)
  rw [List.append_nil] at hbounded
  exact ⟨hbounded, hsize.trans Array.size_replicate⟩

/-- The lengths that are gone through lie between one and the greatest. -/
theorem mem_descending {counts : Array Nat} {k l : Nat} (h : l ∈ descending counts k) :
    0 < l ∧ l ≤ k := by
  induction k with
  | zero => exact nomatch h
  | succ k ih =>
      rw [descending, List.mem_append] at h
      rcases h with hl | hl
      · obtain rfl := List.eq_of_mem_replicate hl
        exact ⟨Nat.succ_pos k, Nat.le_refl _⟩
      · exact ⟨(ih hl).1, Nat.le_succ_of_le (ih hl).2⟩

/-- Moving symbols to other depths leaves them within the limit. -/
theorem bounded_symbolDepths {limit : Nat} (hlimit : 0 < limit) (n : Nat) (f : Forest) :
    Bounded limit f.taken (symbolDepths limit n f) ∧
      (symbolDepths limit n f).size = f.weight.size := by
  have hfold : ∀ (moves : List (Nat × Nat)) (depth : Array Nat), Bounded limit f.taken depth →
      (∀ p ∈ moves, 0 < p.2 ∧ p.2 ≤ limit) →
      Bounded limit f.taken (moves.foldl (fun depth p => depth.setIfInBounds p.1 p.2) depth) ∧
        (moves.foldl (fun depth p => depth.setIfInBounds p.1 p.2) depth).size = depth.size := by
    intro moves
    induction moves with
    | nil => exact fun depth h _ => ⟨h, rfl⟩
    | cons p moves ih =>
        intro depth h hmoves
        obtain ⟨hpos, hle⟩ := hmoves p List.mem_cons_self
        have hset : Bounded limit f.taken (depth.setIfInBounds p.1 p.2) :=
          (h.set hpos hle).mono fun x hx => List.mem_cons_of_mem p.1 hx
        obtain ⟨hbounded, hsize⟩ := ih _ hset fun q hq => hmoves q (List.mem_cons_of_mem p hq)
        exact ⟨hbounded, hsize.trans Array.size_setIfInBounds⟩
  obtain ⟨hbounded, hsize⟩ := bounded_depths hlimit f
  rw [symbolDepths]
  simp only
  split
  · exact ⟨hbounded, hsize⟩
  · obtain ⟨hmoved, hsame⟩ := hfold _ _ hbounded fun p hp => mem_descending (List.of_mem_zip hp).2
    exact ⟨hmoved, hsame.trans hsize⟩

/-- The depths of the symbols. -/
def codeDepths (limit : Nat) (weights : Array Nat) : Array Nat :=
  symbolDepths limit weights.size (tree weights)

/-- A symbol that occurs is not the root of the tree. -/
theorem Occurs.getD_codeDepths_ne_zero {limit s : Nat} {weights : Array Nat} (h : Occurs weights s)
    (hlimit : 0 < limit) (htwo : 2 ≤ (occurring weights).length) :
    (codeDepths limit weights).getD s 0 ≠ 0 := by
  obtain ⟨hbounded, hsize⟩ := bounded_symbolDepths hlimit weights.size (tree weights)
  refine hbounded.ne_zero s (mem_taken_of_occurs h htwo) ?_
  rw [hsize]
  exact Nat.lt_of_lt_of_le h.lt_size (size_le_size_tree weights)

/-! ## Lengths

A code needs two codewords at least, so if fewer than two symbols occur, others are given a weight. The
list of lengths ends with the last symbol that occurs.
-/

theorem size_atLeastTwo (weights : Array Nat) : (atLeastTwo weights).size = weights.size := by
  rw [atLeastTwo]
  split
  · rw [Array.size_setIfInBounds, Array.size_setIfInBounds]
  · exact Array.size_setIfInBounds
  · rfl

/-- A symbol that occurs still does when another one is set to occur. -/
theorem Occurs.set {weights : Array Nat} {s : Nat} (h : Occurs weights s) (t : Nat) :
    Occurs (weights.setIfInBounds t 1) s := by
  rw [Occurs, getD_set]
  split
  · exact Nat.one_ne_zero
  · exact h

theorem occurs_set_self {weights : Array Nat} {t : Nat} (h : t < weights.size) :
    Occurs (weights.setIfInBounds t 1) t := by
  rw [Occurs, getD_set, if_pos ⟨rfl, h⟩]
  exact Nat.one_ne_zero

/-- A symbol that occurs does so still when others are given a weight. -/
theorem Occurs.atLeastTwo {weights : Array Nat} {s : Nat} (h : Occurs weights s) :
    Occurs (Huffman.atLeastTwo weights) s := by
  rw [Huffman.atLeastTwo]
  split
  · exact (h.set 0).set 1
  · exact h.set _
  · exact h

/-- Two different symbols make two that occur. -/
theorem two_le_length_of_ne {weights : Array Nat} {s t : Nat} (hs : Occurs weights s)
    (ht : Occurs weights t) (hne : s ≠ t) : 2 ≤ (occurring weights).length := by
  have hs' := mem_occurring.mpr hs
  have ht' := mem_occurring.mpr ht
  match hlist : occurring weights with
  | [] => exact absurd (hlist ▸ hs') List.not_mem_nil
  | [x] =>
      rw [hlist, List.mem_singleton] at hs' ht'
      exact absurd (hs'.trans ht'.symm) hne
  | _ :: _ :: _ => exact Nat.le_add_left 2 _

/-- Then at least two symbols occur. -/
theorem two_le_length_atLeastTwo {weights : Array Nat} (hsize : 3 ≤ weights.size) :
    2 ≤ (occurring (atLeastTwo weights)).length := by
  rw [atLeastTwo]
  split
  · exact two_le_length_of_ne ((occurs_set_self (by omega)).set 1)
      (occurs_set_self (by rw [Array.size_setIfInBounds]; omega)) Nat.zero_ne_one
  · rename_i s hone
    have hs : Occurs weights s := mem_occurring.mp (by rw [occurring, hone]; exact List.mem_cons_self)
    refine two_le_length_of_ne (hs.set _) (occurs_set_self (t := if s < 2 then s + 1 else 0) ?_) ?_
    · split <;> omega
    · split <;> omega
  · rename_i hnil hone
    match hlist : occurring weights with
    | [] => exact absurd hlist hnil
    | [s] => exact absurd hlist (hone s)
    | _ :: _ :: _ => exact Nat.le_add_left 2 _

/-- No symbol behind the last one occurs. -/
theorem Occurs.le_lastSymbol {weights : Array Nat} {s : Nat} (h : Occurs weights s) :
    s ≤ lastSymbol weights := by
  have hmem := mem_occurring.mpr h
  have hsorted : (occurring weights).Pairwise (· < ·) := List.pairwise_lt_range.filter _
  show s ≤ (occurring weights).getLastD 0
  obtain ⟨front, last, hlist⟩ : ∃ front last, occurring weights = front ++ [last] :=
    ⟨_, _, (List.dropLast_concat_getLast (List.ne_nil_of_mem hmem)).symm⟩
  rw [hlist] at hmem hsorted ⊢
  rw [List.getLastD_concat]
  rcases List.mem_append.mp hmem with hfront | hlast
  · exact Nat.le_of_lt ((List.pairwise_append.mp hsorted).2.2 s hfront last List.mem_cons_self)
  · exact Nat.le_of_eq (List.mem_singleton.mp hlast)

theorem lastSymbol_lt {weights : Array Nat} (h : 0 < weights.size) : lastSymbol weights < weights.size := by
  show (occurring weights).getLastD 0 < weights.size
  rcases List.eq_nil_or_concat (occurring weights) with hnil | ⟨front, last, hlist⟩
  · rw [hnil]
    exact h
  · rw [List.concat_eq_append] at hlist
    rw [hlist, List.getLastD_concat]
    exact (mem_occurring.mp (by rw [hlist]; simp)).lt_size

/-- There is a length for each symbol up to the last one. -/
theorem length_lengths (limit : Nat) (weights : Array Nat) :
    (lengths limit weights).length = lastSymbol (atLeastTwo weights) + 1 := by
  rw [lengths, List.length_map, List.length_range]

theorem length_lengths_le (limit : Nat) {weights : Array Nat} (hsize : 3 ≤ weights.size) :
    (lengths limit weights).length ≤ weights.size := by
  have hlast : lastSymbol (atLeastTwo weights) < (atLeastTwo weights).size :=
    lastSymbol_lt (by rw [size_atLeastTwo]; omega)
  rw [size_atLeastTwo] at hlast
  rw [length_lengths]
  exact hlast

/-- The lengths are the depths of the symbols up to the last one that occurs. -/
theorem lengths_eq (limit : Nat) (weights : Array Nat) : lengths limit weights =
    (List.range (lastSymbol (atLeastTwo weights) + 1)).map fun s =>
      (codeDepths limit (atLeastTwo weights)).getD s 0 := rfl

/-- No codeword is longer than the limit. -/
theorem lengths_le {limit : Nat} (hlimit : 0 < limit) (weights : Array Nat) :
    ∀ l ∈ lengths limit weights, l ≤ limit := by
  intro l hl
  obtain ⟨s, -, rfl⟩ := List.mem_map.mp hl
  exact (bounded_symbolDepths hlimit _ _).1.le_limit s

/-- Every symbol that occurs has a codeword. -/
theorem covers_lengths {limit : Nat} (hlimit : 0 < limit) {weights : Array Nat}
    (hsize : 3 ≤ weights.size) {s : Nat} (h : Occurs weights s) :
    (lengths limit weights).Covers s := by
  have hlt : s < lastSymbol (atLeastTwo weights) + 1 := Nat.lt_succ_of_le h.atLeastTwo.le_lastSymbol
  rw [Lengths.Covers, lengths_eq, List.getD_eq_getElem?_getD, List.getElem?_map,
    List.getElem?_range hlt, Option.map_some, Option.getD_some]
  exact h.atLeastTwo.getD_codeDepths_ne_zero hlimit (two_le_length_atLeastTwo hsize)

end WasmEmbed.Payload.Deflate.Huffman
