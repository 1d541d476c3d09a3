import WasmEmbed.Payload.Deflate.Code

/-!
# Lists of lengths with repetitions

The lengths of the codewords of a code are written in front of a block. Equal lengths that follow one
another are written as repetitions. `Step` is one item of such a list.
-/

namespace WasmEmbed.Payload.Deflate

/-- An item of a list of lengths. -/
inductive Step where
  /-- One length. -/
  | length (l : Nat)
  /-- The last length three to six more times. -/
  | again (count : Nat)
  /-- Three to ten zeros. -/
  | zeros (count : Nat)
  /-- Eleven to 138 zeros. -/
  | manyZeros (count : Nat)
  deriving Repr, DecidableEq

namespace Step

/-- The symbol that begins an item. -/
def symbol : Step → Nat
  | length l => l
  | again _ => 16
  | zeros _ => 17
  | manyZeros _ => 18

/-- The extra bits of an item. -/
def extra : Step → Bits
  | length _ => []
  | again count => Bits.ofNat 2 (count - 3)
  | zeros count => Bits.ofNat 3 (count - 3)
  | manyZeros count => Bits.ofNat 7 (count - 11)

end Step

/-- The items for `count` more of a length that came last. -/
def repeatSteps (l : Nat) : Nat → Nat → List Step
  | 0, _ => []
  | k + 1, count =>
    if count < 3 then List.replicate count (.length l)
    else .again (min count 6) :: repeatSteps l k (count - 6)

/-- The items for `count` zeros. -/
def zeroSteps : Nat → Nat → List Step
  | 0, _ => []
  | k + 1, count =>
    if count < 3 then List.replicate count (.length 0)
    else
      let n := min count 138
      (if n ≤ 10 then .zeros n else .manyZeros n) :: zeroSteps k (count - 138)

/-- The items for `count` lengths that are equal. -/
def runSteps (l count : Nat) : List Step :=
  if l = 0 then zeroSteps count count
  else if count < 4 then List.replicate count (.length l)
  else .length l :: repeatSteps l count (count - 1)

/-- The items for a list of lengths that begins with `count` times the length `l`. -/
def stepsFrom (l count : Nat) : Lengths → List Step
  | [] => runSteps l count
  | m :: rest =>
    if m = l then stepsFrom l (count + 1) rest
    else runSteps l count ++ stepsFrom m 1 rest

/-- The items for a list of lengths. -/
def Lengths.steps : Lengths → List Step
  | [] => []
  | l :: rest => stepsFrom l 1 rest

end WasmEmbed.Payload.Deflate
