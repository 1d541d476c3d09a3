import Mathlib.Algebra.Ring.Nat
import Mathlib.Data.List.Chain
import WasmEmbed.Payload.Deflate.Match
import WasmEmbed.Proofs.Payload.Deflate.Reader

/-!
# Tokens and the bytes that they say

Tokens say the bytes of `data` from one place to another (`Says`) if each of them is a literal that stands
there or a copy, within the limits of a copy, of bytes that are the same. Then they expand to these
bytes (`foldl_appendTo`): while a copy is made, all bytes in front of it are known.

A length and a distance are read back from their places in a range (`Reads.place`), because each range
begins no later than the one before it ends.
-/

namespace WasmEmbed.Payload.Deflate

/-! ## The front of the bytes

While tokens are expanded, the bytes that are known are a front of all bytes. A token makes this front
longer.
-/

variable {data : Array UInt8} {n : Nat}

/-- The bytes in front of place `n`. -/
def front (data : Array UInt8) (n : Nat) : Array UInt8 := data.extract 0 n

theorem front_zero (data : Array UInt8) : front data 0 = #[] := Array.extract_zero

theorem front_size (data : Array UInt8) : front data data.size = data := Array.extract_size

/-- The front has as many bytes as were asked for, if there are so many. -/
theorem size_front (h : n ≤ data.size) : (front data n).size = n := by
  rw [front, Array.size_extract]
  omega

/-- The bytes of the front are those of the whole. -/
theorem getD_front {i : Nat} (hi : i < n) (h : n ≤ data.size) :
    (front data n).getD i 0 = data.getD i 0 := by
  rw [Array.getD_eq_getD_getElem?, Array.getD_eq_getD_getElem?, front, Array.getElem?_extract,
    if_pos (by omega), Nat.zero_add]

/-- The next byte makes the front longer by one. -/
theorem push_front (h : n < data.size) : (front data n).push (data.getD n 0) = front data (n + 1) := by
  have hbyte : data.getD n 0 = data[n] := by rw [Array.getD, dif_pos h]; rfl
  rw [hbyte, front, front, Array.push_extract_getElem, Nat.min_eq_left (Nat.zero_le n)]

/-- The front of the bytes, as a list. -/
theorem toList_front (data : Array UInt8) (n : Nat) : (front data n).toList = data.toList.take n := by
  rw [front, Array.toList_extract]
  rfl

/-! ## Tokens

A copy may reach into the bytes that it makes itself, since it is made byte by byte. The induction in
`copyWithin_front` goes along these bytes.
-/

/-- The token says the bytes of `data` from place `n` on. -/
inductive Token.Says (data : Array UInt8) (n : Nat) : Token → Prop where
  | literal (h : n < data.size) : Says data n (.literal (data.getD n 0))
  | copy {length distance : Nat} (hmin : minLength ≤ length) (hmax : length ≤ maxLength)
      (hpos : 0 < distance) (hback : distance ≤ n) (hreach : distance ≤ windowSize)
      (hend : n + length ≤ data.size)
      (hsame : ∀ k < length, data.getD (n + k) 0 = data.getD (n + k - distance) 0) :
      Says data n (.copy length distance)

/-- The tokens say the bytes of `data` from place `n` to place `m`. -/
inductive Says (data : Array UInt8) : Nat → List Token → Nat → Prop where
  | nil (n : Nat) : Says data n [] n
  | cons {n m : Nat} {t : Token} {tokens : List Token} (h : t.Says data n)
      (hrest : Says data (n + t.size) tokens m) : Says data n (t :: tokens) m

/-- A copy says bytes that are the same as those `distance` places before. -/
theorem copyWithin_front {distance length : Nat} (hpos : 0 < distance) (hback : distance ≤ n)
    (hend : n + length ≤ data.size)
    (hsame : ∀ k < length, data.getD (n + k) 0 = data.getD (n + k - distance) 0) :
    copyWithin distance length (front data n) = front data (n + length) := by
  induction length generalizing n with
  | zero => rfl
  | succ length ih =>
      have hn : n < data.size := by omega
      have hbyte : (front data n).getD ((front data n).size - distance) 0 = data.getD n 0 := by
        rw [size_front (Nat.le_of_lt hn), getD_front (by omega) (Nat.le_of_lt hn)]
        exact (hsame 0 (Nat.succ_pos length)).symm
      rw [copyWithin, hbyte, push_front hn, ih (by omega) (by omega) fun k hk => ?_]
      · rw [Nat.add_right_comm, Nat.add_assoc]
      · have hnext := hsame (k + 1) (Nat.succ_lt_succ hk)
        rwa [Nat.add_right_comm n 1 k, Nat.add_assoc n k 1]

/-- What a token says is appended. -/
theorem Token.Says.appendTo_front {t : Token} (h : t.Says data n) :
    t.appendTo (front data n) = front data (n + t.size) := by
  cases h with
  | literal h => exact push_front h
  | copy hmin hmax hpos hback hreach hend hsame => exact copyWithin_front hpos hback hend hsame

theorem Token.Says.le_size {t : Token} (h : t.Says data n) : n + t.size ≤ data.size := by
  cases h with
  | literal h => exact h
  | copy hmin hmax hpos hback hreach hend hsame => exact hend

namespace Says

variable {m k : Nat} {tokens more : List Token}

/-- Expanding tokens goes from one front to a longer one, by induction on how the tokens are said. -/
theorem foldl_appendTo (h : Says data n tokens m) :
    tokens.foldl Token.appendTo (front data n) = front data m := by
  induction h with
  | nil => rfl
  | cons h hrest ih => rw [List.foldl_cons, h.appendTo_front, ih]

/-- Tokens that say all bytes expand to them. -/
theorem expand_eq (h : Says data 0 tokens data.size) : expand tokens = data.toList := by
  rw [expand, ← front_zero data, h.foldl_appendTo, front_size]

theorem le_size (h : Says data n tokens m) (hn : n ≤ data.size) : m ≤ data.size := by
  induction h with
  | nil => exact hn
  | cons h hrest ih => exact ih h.le_size

/-- The sizes of the tokens add up. -/
theorem add_size (h : Says data n tokens m) : n + (tokens.map Token.size).sum = m := by
  induction h with
  | nil => rfl
  | cons h hrest ih => rw [List.map_cons, List.sum_cons, ← Nat.add_assoc, ih]

theorem append (h : Says data n tokens m) (hmore : Says data m more k) :
    Says data n (tokens ++ more) k := by
  induction h with
  | nil => exact hmore
  | cons h hrest ih => exact .cons h (ih hmore)

/-- One more token at the end. -/
theorem snoc {t : Token} (h : Says data n tokens m) (ht : t.Says data m) :
    Says data n (tokens ++ [t]) (m + t.size) :=
  h.append (.cons ht (.nil _))

/-- Tokens can be parted anywhere. -/
theorem exists_of_append (h : Says data n (tokens ++ more) k) :
    ∃ m, Says data n tokens m ∧ Says data m more k := by
  induction tokens generalizing n with
  | nil => exact ⟨n, .nil n, h⟩
  | cons t tokens ih =>
      cases h with
      | cons ht hrest =>
          obtain ⟨m, hfront, hback⟩ := ih hrest
          exact ⟨m, .cons ht hfront, hback⟩

end Says

/-! ## Places in ranges

The ranges are tables. What is used of a table is that its ranges are connected, which is decided by
computing.
-/

/-- Each range begins no later than the one before it ends. -/
def Connected (ranges : List Range) : Prop :=
  ranges.IsChain fun r s => s.base ≤ r.base + 2 ^ r.extra

instance (ranges : List Range) : Decidable (Connected ranges) :=
  inferInstanceAs (Decidable (ranges.IsChain _))

/-- A number of connected ranges has a place in one of them. -/
theorem placeFrom_spec {ranges : List Range} (h : Connected ranges) {v : Nat} (index : Nat)
    {r : Range} (hfirst : ranges.head? = some r) (hbase : r.base ≤ v)
    (hlast : ∀ s ∈ ranges.getLast?, v < s.base + 2 ^ s.extra) :
    ∃ i s, ranges[i]? = some s ∧ placeFrom index v ranges = ⟨index + i, s.extra, v - s.base⟩ ∧
      s.base ≤ v ∧ v < s.base + 2 ^ s.extra := by
  induction ranges generalizing index r with
  | nil => exact nomatch hfirst
  | cons a ranges ih =>
      obtain rfl : a = r := Option.some.inj hfirst
      cases ranges with
      | nil => exact ⟨0, a, rfl, rfl, hbase, hlast a rfl⟩
      | cons b ranges =>
          obtain ⟨hab, hrest⟩ := List.isChain_cons_cons.mp h
          rw [placeFrom]
          -- The ranges are connected, so a value below the next one lies in this one.
          by_cases hb : b.base ≤ v
          · obtain ⟨i, s, hi, hplace, hs⟩ := ih hrest (index + 1) rfl hb hlast
            refine ⟨i + 1, s, hi, ?_, hs⟩
            rw [if_pos hb, hplace, Nat.add_right_comm, Nat.add_assoc]
          · refine ⟨0, a, rfl, ?_, hbase, by omega⟩
            rw [if_neg hb]
            rfl

/-- A number of connected ranges is read back from its place. -/
theorem Reads.place {ranges : List Range} (h : Connected ranges) {v : Nat} {r : Range}
    (hfirst : ranges.head? = some r) (hbase : r.base ≤ v)
    (hlast : ∀ s ∈ ranges.getLast?, v < s.base + 2 ^ s.extra) (count : Nat) (fault : Fault) :
    Reads (readPlace ranges (placeFrom 0 v ranges).index fault) count
      (Bits.ofNat (placeFrom 0 v ranges).extra (placeFrom 0 v ranges).rest) v := by
  obtain ⟨i, s, hi, hplace, hle, hlt⟩ := placeFrom_spec h 0 hfirst hbase hlast
  have hrest : v - s.base < 2 ^ s.extra := by omega
  have hv : s.base + (v - s.base) = v := by omega
  rw [hplace, Nat.zero_add, readPlace, hi]
  have hread := (number count hrest).bind_pure (f := fun rest => s.base + rest)
  rwa [hv] at hread

theorem connected_lengthRanges : Connected lengthRanges := by decide

theorem connected_distanceRanges : Connected distanceRanges := by decide

/-- A length is read back from its place. -/
theorem Reads.place_length {length : Nat} (hmin : minLength ≤ length) (hmax : length ≤ maxLength)
    (count : Nat) (fault : Fault) :
    Reads (readPlace lengthRanges (lengthPlace length).index fault) count
      (Bits.ofNat (lengthPlace length).extra (lengthPlace length).rest) length :=
  place connected_lengthRanges rfl hmin
    (by rintro s ⟨⟩; exact Nat.lt_succ_of_le hmax) count fault

/-- A distance is read back from its place. -/
theorem Reads.place_distance {distance : Nat} (hpos : 0 < distance) (hreach : distance ≤ windowSize)
    (count : Nat) (fault : Fault) :
    Reads (readPlace distanceRanges (distancePlace distance).index fault) count
      (Bits.ofNat (distancePlace distance).extra (distancePlace distance).rest) distance :=
  place connected_distanceRanges rfl hpos
    (by rintro s ⟨⟩; exact Nat.lt_succ_of_le hreach) count fault

/-- A place counts the ranges in front of it. -/
theorem placeFrom_index_lt (index v : Nat) {ranges : List Range} (hne : ranges ≠ []) :
    (placeFrom index v ranges).index < index + ranges.length := by
  induction ranges generalizing index with
  | nil => exact absurd rfl hne
  | cons r ranges ih =>
      cases ranges with
      | nil => exact Nat.lt_succ_self index
      | cons s ranges =>
          rw [placeFrom]
          split
          · have hnext := ih (index + 1) (List.cons_ne_nil s ranges)
            rw [List.length_cons]
            omega
          · exact Nat.lt_add_of_pos_right (Nat.succ_pos _)

theorem lengthPlace_index_lt (length : Nat) : (lengthPlace length).index < 29 :=
  placeFrom_index_lt 0 length (by decide)

theorem distancePlace_index_lt (distance : Nat) : (distancePlace distance).index < 30 :=
  placeFrom_index_lt 0 distance (by decide)

end WasmEmbed.Payload.Deflate
