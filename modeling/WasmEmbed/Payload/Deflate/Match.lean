import WasmEmbed.Payload.Deflate.Token

/-!
# Finding copies

`tokenize` splits bytes into tokens. At each place it looks for the longest run of bytes that came
before, and it takes a run only if none that begins one byte later is longer.

Runs are looked for among the earlier places whose next three bytes have the same key, the nearest
first. Only so many of them are tried, only those that lie within the reach of a copy, and a run
has to be longer than those that were found before it.
-/

namespace WasmEmbed.Payload.Deflate

/-! ## Limits -/

/-- The shortest run that is copied. -/
def minLength : Nat := 3

/-- The longest run that is copied. -/
def maxLength : Nat := 258

/-- The size of the window in which earlier bytes are kept. -/
def windowSize : Nat := 32768

/-- The bytes that are kept ahead of the place that is looked at. -/
def lookahead : Nat := maxLength + minLength + 1

/-- The farthest reach of a copy. -/
def reach : Nat := windowSize - lookahead

/-- A run of the shortest length is not worth a copy from farther away than this. -/
def farAway : Nat := 4096

/-- How many earlier places are tried. -/
def patience : Nat := 4096

/-- A run of this length lets fewer places be tried for a better one. -/
def goodLength : Nat := 32

/-! ## Earlier places -/

/-- The key of three bytes. Places whose keys differ begin different runs. -/
def key (a b c : UInt8) : Nat := (a.toNat * 1024).xor ((b.toNat * 32).xor c.toNat) % 32768

/-- For each place the last earlier place with the same key. A place with fewer than three bytes left
has none. -/
def earlierPlaces (data : Array UInt8) : Array (Option Nat) :=
  go data 0 (data.size - 2) (Array.replicate windowSize none) (Array.emptyWithCapacity data.size)
where
  /-- The answers for `k` places from `i` on; `last` has for each key the last place seen. -/
  go (data : Array UInt8) (i : Nat) : Nat → Array (Option Nat) → Array (Option Nat) →
      Array (Option Nat)
    | 0, _, found => found
    | k + 1, last, found =>
      let h := key (data.getD i 0) (data.getD (i + 1) 0) (data.getD (i + 2) 0)
      let seen := last.getD h none
      go data (i + 1) k (last.setIfInBounds h (some i)) (found.push seen)

/-- Where the window begins when place `i` of `n` is looked at. The window moves on by its size when
less than the lookahead is left in twice its size. -/
def windowStart (n i : Nat) : Nat :=
  let limit := windowSize + reach
  let j := if n - i < lookahead then i else i - 1
  if j < limit then 0 else ((j - limit) / windowSize + 1) * windowSize

/-! ## Runs -/

/-- How many bytes from place `i` on are the same as those from place `j` on, at most `k`. -/
def commonLength (data : Array UInt8) (i j : Nat) : Nat → Nat → Nat
  | 0, n => n
  | k + 1, n =>
    if data.getD (i + n) 0 = data.getD (j + n) 0 then commonLength data i j k (n + 1) else n

/-- A run that came before: its length and how far back it begins. -/
structure Run where
  length : Nat
  distance : Nat
  deriving Repr, DecidableEq, Inhabited

/-- No run. -/
def Run.none : Run := ⟨minLength - 1, 0⟩

/-- The longest run that place `i` has in common with place `j` or with one of the places before it,
at most `tries` in all, if it is longer than `best`. No run is longer than `longest`, and no place in
front of `first` is tried. -/
def search (data : Array UInt8) (earlier : Array (Option Nat)) (i longest first : Nat) :
    Nat → Nat → Run → Run
  | 0, _, best => best
  | tries + 1, j, best =>
    let found :=
      if data.getD (j + best.length) 0 = data.getD (i + best.length) 0 then
        commonLength data i j longest 0
      else 0
    let better : Run := if best.length < found then ⟨found, i - j⟩ else best
    if longest ≤ better.length then better
    else
      match earlier.getD j none with
      | some k => if first ≤ k then search data earlier i longest first tries k better else better
      | none => better

/-- The best run at place `i`, where `before` is the run at the place in front of it. -/
def bestRun (data : Array UInt8) (earlier : Array (Option Nat)) (i : Nat) (before : Run) : Run :=
  match earlier.getD i none with
  | none => .none
  | some j =>
    let start := windowStart data.size i
    if before.length < maxLength && start < j && i - j ≤ reach then
      let left := data.size - i
      let tries := if goodLength ≤ before.length then patience / 4 else patience
      let first := max (start + 1) (i - reach + 1)
      let run := search data earlier i (min maxLength left) first tries j ⟨before.length, 0⟩
      if run.length ≤ before.length || (run.length == minLength && farAway < run.distance) then .none
      else run
    else .none

/-! ## Tokens -/

/-- What is known in front of a place: the tokens so far, the last first; whether the byte before is
still to be said; and the run that begins at that byte. -/
structure Ahead where
  tokens : List Token
  isOpen : Bool
  run : Run

/-- Splits the bytes from place `i` on, by at most `k` steps. -/
def tokenizeFrom (data : Array UInt8) (earlier : Array (Option Nat)) :
    Nat → Nat → Ahead → List Token
  | 0, _, a => a.tokens
  | k + 1, i, a =>
    if data.size ≤ i then
      if a.isOpen then .literal (data.getD (i - 1) 0) :: a.tokens else a.tokens
    else
      let run := bestRun data earlier i a.run
      if minLength ≤ a.run.length && run.length ≤ a.run.length then
        tokenizeFrom data earlier k (i - 1 + a.run.length)
          ⟨.copy a.run.length a.run.distance :: a.tokens, false, .none⟩
      else if a.isOpen then
        tokenizeFrom data earlier k (i + 1) ⟨.literal (data.getD (i - 1) 0) :: a.tokens, true, run⟩
      else tokenizeFrom data earlier k (i + 1) ⟨a.tokens, true, run⟩

/-- Splits bytes into tokens. -/
def tokenize (data : Array UInt8) : List Token :=
  (tokenizeFrom data (earlierPlaces data) (data.size + 1) 0 ⟨[], false, .none⟩).reverse

end WasmEmbed.Payload.Deflate
