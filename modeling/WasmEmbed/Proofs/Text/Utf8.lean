import WasmEmbed.Proofs.Script.Cursor
import WasmEmbed.Text.Utf8

/-!
# Text and its bytes

A text is read back from its bytes (`decode_encode`), and the number of bytes is the one that offsets
count (`length_encode`).
-/

namespace WasmEmbed.Text.Utf8

@[simp] theorem encode_nil : encode [] = [] := rfl

@[simp] theorem encode_cons (c : Char) (text : List Char) :
    encode (c :: text) = String.utf8EncodeChar c ++ encode text := rfl

@[simp] theorem encode_append (u v : List Char) : encode (u ++ v) = encode u ++ encode v :=
  List.flatMap_append

@[simp] theorem length_encode (text : List Char) :
    (encode text).length = Script.byteCount text := by
  induction text with
  | nil => rfl
  | cons c cs ih =>
      rw [encode_cons, List.length_append, String.length_utf8EncodeChar, ih]
      rfl

/-! ## Reading back -/

theorem toNat_ofNat {n : Nat} (h : n < 256) : (UInt8.ofNat n).toNat = n :=
  Nat.mod_eq_of_lt h

@[simp] theorem tail_zero (low high n right : Nat) (bytes : List UInt8) :
    tail low high 0 n right bytes = .ok (n, bytes) := rfl

/-- One more byte of a character. -/
theorem tail_cons {low high k n right b : Nat} (bytes : List UInt8) (hb : b < 256) (hlow : low ≤ b)
    (hhigh : b ≤ high) :
    tail low high (k + 1) n right (UInt8.ofNat b :: bytes) =
      tail 0x80 0xbf k (n * 64 + (b - 0x80)) (right + 1) bytes := by
  simp [tail, toNat_ofNat hb, hlow, hhigh]

/-- The first byte of a character of two bytes. -/
theorem lead?_two {n : Nat} (hlow : 0xc2 ≤ n) (hhigh : n < 0xe0) :
    lead? (UInt8.ofNat n) = some ⟨n - 0xc0, 0x80, 0xbf, 1⟩ := by
  have h : (UInt8.ofNat n).toNat = n := toNat_ofNat (by omega)
  simp only [lead?, h]
  rw [if_neg (by omega), if_neg (by omega), if_pos hhigh]

/-- The first byte of a character of three bytes, and what it lets the second be. -/
theorem lead?_three {n : Nat} (hlow : 0xe0 ≤ n) (hhigh : n < 0xf0) :
    lead? (UInt8.ofNat n) = some ⟨n - 0xe0, if n = 0xe0 then 0xa0 else 0x80,
      if n = 0xed then 0x9f else 0xbf, 2⟩ := by
  have h : (UInt8.ofNat n).toNat = n := toNat_ofNat (by omega)
  simp only [lead?, h]
  rw [if_neg (by omega), if_neg (by omega), if_neg (by omega)]
  by_cases hfirst : n = 0xe0
  · simp [hfirst]
  · by_cases hlast : n = 0xed
    · simp [hlast]
    · simp [hfirst, hlast, hhigh]

/-- The first byte of a character of four bytes, and what it lets the second be. -/
theorem lead?_four {n : Nat} (hlow : 0xf0 ≤ n) (hhigh : n ≤ 0xf4) :
    lead? (UInt8.ofNat n) = some ⟨n - 0xf0, if n = 0xf0 then 0x90 else 0x80,
      if n = 0xf4 then 0x8f else 0xbf, 3⟩ := by
  have h : (UInt8.ofNat n).toNat = n := toNat_ofNat (by omega)
  simp only [lead?, h]
  rw [if_neg (by omega), if_neg (by omega), if_neg (by omega), if_neg (by omega), if_neg (by omega),
    if_neg (by omega)]
  by_cases hfirst : n = 0xf0
  · simp [hfirst]
  · by_cases hlast : n = 0xf4
    · simp [hlast]
    · rw [if_neg hfirst, if_pos (by omega), if_neg hfirst, if_neg hlast]

/-- The first byte of a character says what the others are read with, and these lead to the
character. -/
theorem utf8EncodeChar_eq (c : Char) : ∃ b rest l, String.utf8EncodeChar c = b :: rest ∧
    lead? b = some l ∧ ∀ bytes, tail l.low l.high l.count l.bits 0 (rest ++ bytes) =
      .ok (c.toNat, bytes) := by
  have hvalid : c.val.toNat < 0xd800 ∨ 0xdfff < c.val.toNat ∧ c.val.toNat < 0x110000 := c.valid
  show ∃ b rest l, _ ∧ _ ∧ ∀ bytes, _ = Except.ok (c.val.toNat, bytes)
  simp only [String.utf8EncodeChar]
  generalize c.val.toNat = v at hvalid ⊢
  -- For each number of bytes, their bits make up the character.
  split
  · next hone =>
      refine ⟨_, [], ⟨v, 0, 0, 0⟩, rfl, ?_, fun bytes => rfl⟩
      have h : (UInt8.ofNat v).toNat = v := toNat_ofNat (by omega)
      simp only [lead?, h]
      rw [if_pos (by omega)]
  · split
    · next htwo =>
        refine ⟨_, _, _, rfl, lead?_two (by omega) (by omega), fun bytes => ?_⟩
        have hvalue : (v / 64 % 0x20 + 0xc0 - 0xc0) * 64 + (v % 0x40 + 0x80 - 0x80) = v := by omega
        dsimp only
        rw [List.cons_append, tail_cons _ (by omega) (by omega) (by omega), tail_zero, hvalue]
        rfl
    · split
      · next hthree =>
          refine ⟨_, _, _, rfl, lead?_three (by omega) (by omega), fun bytes => ?_⟩
          have hvalue : ((v / 4096 % 0x10 + 0xe0 - 0xe0) * 64 + (v / 64 % 0x40 + 0x80 - 0x80)) * 64 +
              (v % 0x40 + 0x80 - 0x80) = v := by omega
          dsimp only
          rw [List.cons_append, tail_cons _ (by omega) (by split <;> omega) (by split <;> omega),
            List.cons_append, tail_cons _ (by omega) (by omega) (by omega), tail_zero, hvalue]
          rfl
      · next hfour =>
          refine ⟨_, _, _, rfl, lead?_four (by omega) (by omega), fun bytes => ?_⟩
          have hvalue : (((v / 262144 % 0x08 + 0xf0 - 0xf0) * 64 + (v / 4096 % 0x40 + 0x80 - 0x80)) * 64 +
              (v / 64 % 0x40 + 0x80 - 0x80)) * 64 + (v % 0x40 + 0x80 - 0x80) = v := by omega
          dsimp only
          rw [List.cons_append, tail_cons _ (by omega) (by split <;> omega) (by split <;> omega),
            List.cons_append, tail_cons _ (by omega) (by omega) (by omega),
            List.cons_append, tail_cons _ (by omega) (by omega) (by omega), tail_zero, hvalue]
          rfl

/-- The byte of a line feed begins no other character. -/
theorem eq_lineFeed_of_utf8EncodeChar {c : Char} {rest : List UInt8}
    (h : String.utf8EncodeChar c = 10 :: rest) : c = '\n' := by
  obtain ⟨b, others, l, hchar, hlead, htail⟩ := utf8EncodeChar_eq c
  obtain ⟨rfl, rfl⟩ := List.cons.inj (hchar.symm.trans h)
  cases hlead
  have hvalue := congrArg Prod.fst (Except.ok.inj (htail []))
  exact Char.toNat_inj.mp hvalue.symm

/-- A text in which the byte of a line feed stands behind a front part goes on there with a line feed. -/
theorem head?_of_getElem?_encode {front rest : List Char}
    (h : (encode (front ++ rest))[Script.byteCount front]? = some 10) : rest.head? = some '\n' := by
  rw [encode_append, List.getElem?_append_right (Nat.le_of_eq (length_encode front)), length_encode,
    Nat.sub_self] at h
  cases rest with
  | nil => cases h
  | cons c rest =>
      obtain ⟨b, others, l, hchar, -, -⟩ := utf8EncodeChar_eq c
      rw [encode_cons, hchar] at h
      obtain rfl : b = 10 := Option.some.inj h
      rw [eq_lineFeed_of_utf8EncodeChar hchar]
      rfl

theorem decodeFrom_encode (done text : List Char) (position k : Nat)
    (hk : (encode text).length ≤ k) :
    decodeFrom done position k (encode text) = .ok (done.reverse ++ text) := by
  induction text generalizing done position k with
  | nil => simp [decodeFrom]
  | cons c cs ih =>
      obtain ⟨b, rest, l, hchar, hlead, htail⟩ := utf8EncodeChar_eq c
      rw [encode_cons, hchar] at hk ⊢
      cases k with
      | zero => simp at hk
      | succ k =>
          simp only [List.cons_append, List.length_cons, List.length_append] at hk
          simp only [List.cons_append, decodeFrom, hlead, htail]
          rw [ih _ _ _ (by omega)]
          simp [Char.ofNat_toNat]

/-- A text is read back from its bytes. -/
theorem decode_encode (text : List Char) : decode (encode text) = .ok text := by
  rw [decode, decodeFrom_encode [] text 0 _ (Nat.le_refl _)]
  rfl

theorem encode_injective {u v : List Char} (h : encode u = encode v) : u = v := by
  have hdecode := congrArg decode h
  rw [decode_encode, decode_encode] at hdecode
  exact Except.ok.inj hdecode

end WasmEmbed.Text.Utf8
