import Mathlib.Algebra.Ring.Nat
import WasmEmbed.Payload.Bits

/-!
# Numbers, bytes and their bits

A number is read back from its bits if there are enough of them (`toNat_ofNat`). Bits are read back from the
bytes that hold them, with the zeros behind them that fill the last byte (`ofBytes_toBytes`).
-/

namespace WasmEmbed.Payload.Bits

/-! ## Numbers -/

@[simp] theorem length_ofNat (count value : Nat) : (ofNat count value).length = count := by
  induction count generalizing value with
  | zero => rfl
  | succ k ih => rw [ofNat, List.length_cons, ih]

theorem toNat_ofNat (count value : Nat) : toNat (ofNat count value) = value % 2 ^ count := by
  induction count generalizing value with
  | zero => rw [ofNat, toNat, Nat.pow_zero, Nat.mod_one]
  | succ k ih =>
      have hbit : (value % 2 == 1).toNat = value % 2 := by
        rcases Nat.mod_two_eq_zero_or_one value with h | h <;> rw [h] <;> rfl
      rw [ofNat, toNat, ih, hbit, Nat.pow_succ, Nat.mul_comm (2 ^ k) 2, Nat.mod_mul]

theorem toNat_ofNat_of_lt {count value : Nat} (h : value < 2 ^ count) :
    toNat (ofNat count value) = value := by
  rw [toNat_ofNat, Nat.mod_eq_of_lt h]

theorem toNat_lt (bits : Bits) : toNat bits < 2 ^ bits.length := by
  induction bits with
  | nil => exact Nat.one_pos
  | cons b bits ih =>
      have hb := b.toNat_lt
      rw [toNat, List.length_cons, Nat.pow_succ]
      omega

theorem ofNat_toNat (bits : Bits) : ofNat bits.length (toNat bits) = bits := by
  induction bits with
  | nil => rfl
  | cons b bits ih =>
      have hb := b.toNat_lt
      have hbit : ((b.toNat + 2 * toNat bits) % 2 == 1) = b := by
        rw [Nat.add_mul_mod_self_left]
        cases b <;> rfl
      have hrest : (b.toNat + 2 * toNat bits) / 2 = toNat bits := by omega
      rw [toNat, List.length_cons, ofNat, hbit, hrest, ih]

/-- Only as many bits of a number are written as are asked for. -/
theorem ofNat_injective {count v w : Nat} (hv : v < 2 ^ count) (hw : w < 2 ^ count)
    (h : ofNat count v = ofNat count w) : v = w := by
  rw [← toNat_ofNat_of_lt hv, h, toNat_ofNat_of_lt hw]

/-! ## Bytes -/

@[simp] theorem ofBytes_nil : ofBytes [] = [] := rfl

theorem ofBytes_cons (b : UInt8) (bytes : List UInt8) :
    ofBytes (b :: bytes) = ofNat 8 b.toNat ++ ofBytes bytes := rfl

theorem ofBytes_append (front back : List UInt8) :
    ofBytes (front ++ back) = ofBytes front ++ ofBytes back := List.flatMap_append

/-- The number of zeros that fill the last byte. -/
theorem length_filling (count : Nat) : (filling count).length = (8 - count % 8) % 8 :=
  List.length_replicate

/-- Whole bytes in front need no filling. -/
theorem filling_add_of_dvd {whole : Nat} (h : whole % 8 = 0) (count : Nat) :
    filling (whole + count) = filling count := by
  rw [filling, filling, Nat.add_mod, h, Nat.zero_add, Nat.mod_mod]

/-- The bits of a byte that is made of eight bits. -/
theorem ofNat_byte {bits : Bits} (h : bits.length = 8) :
    ofNat 8 (UInt8.ofNat (toNat bits)).toNat = bits := by
  have hlt := toNat_lt bits
  rw [h] at hlt
  rw [UInt8.toNat_ofNat', Nat.mod_eq_of_lt hlt]
  have hbits := ofNat_toNat bits
  rwa [h] at hbits

/-- Zeros behind bits do not change their number. -/
theorem toNat_append_zeros (bits : Bits) (k : Nat) :
    toNat (bits ++ List.replicate k false) = toNat bits := by
  induction bits with
  | nil =>
      induction k with
      | zero => rfl
      | succ k ih => simpa [List.replicate_succ, toNat] using ih
  | cons b bits ih => rw [List.cons_append, toNat, ih, toNat]

/-- The bytes in front of which others were made. -/
theorem toBytesOnto_append (front done : List UInt8) (bits : Bits) :
    toBytesOnto (front ++ done) bits = toBytesOnto front bits ++ done := by
  fun_induction toBytesOnto front bits with
  | case1 front a b c d e f g h rest ih =>
      rw [toBytesOnto]
      exact ih
  | case2 front => rfl
  | case3 front bits hlong hne =>
      rw [toBytesOnto]
      · rfl
      · exact hlong
      · exact hne

/-- Eight bits make a byte. -/
theorem toBytes_eight (a b c d e f g h : Bool) (rest : Bits) :
    toBytes (a :: b :: c :: d :: e :: f :: g :: h :: rest) =
      UInt8.ofNat (toNat [a, b, c, d, e, f, g, h]) :: toBytes rest := by
  have happend := toBytesOnto_append [] [UInt8.ofNat (toNat [a, b, c, d, e, f, g, h])] rest
  rw [List.nil_append] at happend
  rw [toBytes, toBytesOnto, happend, List.reverse_append]
  rfl

/-- A few bits make a byte, too. -/
theorem toBytes_few {bits : Bits} (hne : bits ≠ []) (hfew : bits.length < 8) :
    toBytes bits = [UInt8.ofNat (toNat bits)] := by
  rw [toBytes, toBytesOnto]
  · rfl
  · rintro a b c d e f g h rest rfl
    simp only [List.length_cons] at hfew
    omega
  · exact hne

/-- A few bits are read back from their byte. -/
theorem ofBytes_toBytes_few {bits : Bits} (hne : bits ≠ []) (hfew : bits.length < 8) :
    ofBytes (toBytes bits) = bits ++ filling bits.length := by
  have hlength : (bits ++ filling bits.length).length = 8 := by
    have hpos := List.length_pos_iff.mpr hne
    rw [List.length_append, length_filling]
    omega
  rw [toBytes_few hne hfew, ofBytes_cons, ofBytes_nil, List.append_nil,
    ← toNat_append_zeros bits ((8 - bits.length % 8) % 8)]
  exact ofNat_byte hlength

/-- Bits are read back from their bytes, with the zeros that fill the last byte. -/
theorem ofBytes_toBytes (bits : Bits) : ofBytes (toBytes bits) = bits ++ filling bits.length := by
  match bits with
  | a :: b :: c :: d :: e :: f :: g :: h :: rest =>
      have hlength : (a :: b :: c :: d :: e :: f :: g :: h :: rest).length = 8 + rest.length := by
        simp only [List.length_cons]
        omega
      rw [toBytes_eight, ofBytes_cons, ofNat_byte rfl, ofBytes_toBytes rest, hlength,
        filling_add_of_dvd (Nat.mod_self 8)]
      rfl
  | [] => rfl
  | [a] | [a, b] | [a, b, c] | [a, b, c, d] | [a, b, c, d, e] | [a, b, c, d, e, f]
  | [a, b, c, d, e, f, g] => exact ofBytes_toBytes_few (by simp) (by simp)

end WasmEmbed.Payload.Bits
