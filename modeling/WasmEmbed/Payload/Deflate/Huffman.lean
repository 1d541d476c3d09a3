import WasmEmbed.Payload.Deflate.Code

/-!
# Choosing the lengths of codewords

`Huffman.lengths` gives symbols that occur more often shorter codewords. The two lightest nodes are
joined until one is left, and the depth of a symbol in this tree is the length of its codeword. If a
codeword would be too long, symbols are moved to other depths.

Nodes of equal weight are taken in the order of a heap, and of these the lower node first.
-/

namespace WasmEmbed.Payload.Deflate.Huffman

/-! ## The forest -/

/-- A forest in which nodes are joined. The symbols are the first nodes; every further node joined two
others. -/
structure Forest where
  /-- The number of times that the symbols below a node occur. -/
  weight : Array Nat
  /-- The height of a node over its symbols. -/
  height : Array Nat
  /-- The node that joined a node to another. -/
  parent : Array Nat
  /-- The roots, as a heap: no root comes before the one half as far from the front. -/
  heap : Array Nat
  /-- The nodes that are roots no longer, the last taken first. -/
  taken : List Nat

namespace Forest

/-- Whether node `a` is taken before node `b` at the latest when both are roots. -/
def precedes (f : Forest) (a b : Nat) : Bool :=
  let v := f.weight.getD a 0
  let w := f.weight.getD b 0
  v < w || (v == w && f.height.getD a 0 ≤ f.height.getD b 0)

/-- Moves `node` down from place `i` of the heap, by at most `k` steps. -/
def sink (f : Forest) (node : Nat) : Nat → Nat → Array Nat → Array Nat
  | 0, i, heap => heap.setIfInBounds i node
  | k + 1, i, heap =>
    let left := 2 * i + 1
    let right := 2 * i + 2
    if left < heap.size then
      let child :=
        if right < heap.size && f.precedes (heap.getD right 0) (heap.getD left 0) then right else left
      if f.precedes node (heap.getD child 0) then heap.setIfInBounds i node
      else sink f node k child (heap.setIfInBounds i (heap.getD child 0))
    else heap.setIfInBounds i node

/-- Moves the root at place `i` of the heap down to where it belongs. -/
def settle (f : Forest) (i : Nat) : Forest :=
  { f with heap := f.sink (f.heap.getD i 0) f.heap.size i f.heap }

/-- Orders a heap from its middle to its front. -/
def order (f : Forest) : Nat → Forest
  | 0 => f
  | k + 1 => (f.settle k).order k

/-- The root that comes first. -/
def front (f : Forest) : Nat := f.heap.getD 0 0

/-- Takes the first root away. -/
def take (f : Forest) : Forest :=
  let last := f.heap.getD (f.heap.size - 1) 0
  let g := { f with heap := f.heap.pop.setIfInBounds 0 last, taken := f.front :: f.taken }
  g.settle 0

/-- Joins the first two roots. -/
def join (f : Forest) : Forest :=
  let a := f.front
  let g := f.take
  let b := g.front
  let node := g.weight.size
  let h : Forest :=
    { weight := g.weight.push (g.weight.getD a 0 + g.weight.getD b 0)
      height := g.height.push (max (g.height.getD a 0) (g.height.getD b 0) + 1)
      parent := ((g.parent.setIfInBounds a node).setIfInBounds b node).push 0
      heap := g.heap.setIfInBounds 0 node
      taken := b :: g.taken }
  h.settle 0

/-- Joins roots until one is left, at most `k` times. -/
def joinAll (f : Forest) : Nat → Forest
  | 0 => f
  | k + 1 => if 2 ≤ f.heap.size then f.join.joinAll k else f

/-- The forest of the symbols that occur, each its own root. -/
def ofWeights (weights : Array Nat) : Forest :=
  let heap := (Array.range weights.size).filter fun s => weights.getD s 0 != 0
  let f : Forest :=
    { weight := weights, height := Array.replicate weights.size 0,
      parent := Array.replicate weights.size 0, heap := heap, taken := [] }
  f.order (heap.size / 2)

end Forest

/-! ## Depths -/

/-- The depths of nodes, and how many of them were cut to the limit. -/
structure Depths where
  depth : Array Nat
  cut : Nat

/-- The depths of all nodes of a tree, none greater than `limit`. -/
def depths (limit : Nat) (f : Forest) : Depths :=
  f.taken.foldl (fun d node =>
    let depth := d.depth.getD (f.parent.getD node 0) 0 + 1
    if limit < depth then ⟨d.depth.setIfInBounds node limit, d.cut + 1⟩
    else ⟨d.depth.setIfInBounds node depth, d.cut⟩)
    ⟨Array.replicate f.weight.size 0, 0⟩

/-- The greatest depth of at most `d` at which there is a symbol. -/
def occupied (counts : Array Nat) : Nat → Nat
  | 0 => 0
  | d + 1 => if counts.getD (d + 1) 0 = 0 then occupied counts d else d + 1

/-- Makes room at the greatest depth: a symbol from above goes down one step and takes one of the
greatest depth to its side. As long as nodes were cut, this is done for two of them. -/
def relieve (limit : Nat) : Nat → Nat → Array Nat → Array Nat
  | 0, _, counts => counts
  | k + 1, cut, counts =>
    if cut = 0 then counts
    else
      let d := occupied counts (limit - 1)
      let c₁ := counts.modify d (· - 1)
      let c₂ := c₁.modify (d + 1) (· + 2)
      relieve limit k (cut - 2) (c₂.modify limit (· - 1))

/-- The depths that symbols have, the greatest first. -/
def descending (counts : Array Nat) : Nat → List Nat
  | 0 => []
  | d + 1 => List.replicate (counts.getD (d + 1) 0) (d + 1) ++ descending counts d

/-- The number of symbols at each depth. -/
def population (limit : Nat) (depth : Array Nat) (symbols : List Nat) : Array Nat :=
  symbols.foldl (fun counts s => counts.modify (depth.getD s 0) (· + 1))
    (Array.replicate (limit + 1) 0)

/-- The depths of the symbols, none greater than `limit`. Of `n` nodes are symbols. The symbols that
were taken first get the greatest depths. -/
def symbolDepths (limit n : Nat) (f : Forest) : Array Nat :=
  let d := depths limit f
  if d.cut = 0 then d.depth
  else
    let symbols := f.taken.reverse.filter (· < n)
    let counts := relieve limit d.cut d.cut (population limit d.depth symbols)
    (symbols.zip (descending counts limit)).foldl
      (fun depth (s, l) => depth.setIfInBounds s l) d.depth

/-! ## Lengths -/

/-- The number of the last symbol that occurs, or zero. -/
def lastSymbol (weights : Array Nat) : Nat :=
  ((List.range weights.size).filter fun s => weights.getD s 0 != 0).getLastD 0

/-- Lets symbols occur once that do not occur, until there are two that do: the next one behind the
last, but only up to the third, otherwise the first. -/
def atLeastTwo (weights : Array Nat) : Array Nat :=
  match (List.range weights.size).filter fun s => weights.getD s 0 != 0 with
  | [] => (weights.setIfInBounds 0 1).setIfInBounds 1 1
  | [s] => weights.setIfInBounds (if s < 2 then s + 1 else 0) 1
  | _ => weights

/-- The lengths of the codewords for symbols that occur `weights` times, none longer than `limit`. The
list ends with the last symbol that has a codeword. -/
def lengths (limit : Nat) (weights : Array Nat) : Lengths :=
  let w := atLeastTwo weights
  let f := Forest.ofWeights w
  let depth := symbolDepths limit w.size (f.joinAll f.heap.size)
  (List.range (lastSymbol w + 1)).map fun s => depth.getD s 0

end WasmEmbed.Payload.Deflate.Huffman
