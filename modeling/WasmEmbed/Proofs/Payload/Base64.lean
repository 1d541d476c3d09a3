import WasmEmbed.Payload.Base64

/-!
# Base64 text is read back

`decode_encode`: the strict reader accepts the text of any bytes and gives the bytes back. The text is made
of groups of four letters, and the reader takes a whole group to the three bytes that it stands for; the
last group may be filled with padding (`readOn_encode`).
-/

namespace WasmEmbed.Payload.Base64

/-! ## Letters -/

/-- A letter stands for its number, and it is no padding. -/
theorem value?_letter {v : Nat} (h : v < 64) : value? (letter v) = some v ∧ letter v ≠ pad := by
  have hall : ∀ v < 64, value? (letter v) = some v ∧ letter v ≠ pad := by decide
  exact hall v h

/-- A letter is read as its number where no padding has come. -/
theorem readOn_letter {p : Progress} (hp : p.padded = false) {v : Nat} (hv : v < 64)
    (rest : List Char) : readOn p (letter v :: rest) = readOn (p.letter v) rest := by
  obtain ⟨hvalue, hpad⟩ := value?_letter hv
  rw [readOn, if_neg hpad, hvalue]
  simp [hp]

/-- Padding where it may count, in front of the last character of a group. -/
theorem readOn_pad {p : Progress} (hp : 2 ≤ p.position ∧ p.position + p.pads + 1 < 4) (rest : List Char) :
    readOn p (pad :: rest) = readOn { p with padded := true, pads := p.pads + 1 } rest := by
  rw [readOn, if_pos rfl, if_neg (by omega), if_pos hp.2]

/-- Padding that ends the last group. -/
theorem readOn_lastPad {p : Progress} (hp : 2 ≤ p.position ∧ 4 ≤ p.position + p.pads + 1) :
    readOn p [pad] = .ok p.bytes.reverse := by
  rw [readOn, if_pos rfl, if_neg (by omega), if_neg (by omega)]
  rfl

/-! ## The characters of the text -/

theorem isAllowed_letter {v : Nat} (h : v < 64) : isAllowed (letter v) = true := by
  have hall : ∀ v < 64, isAllowed (letter v) = true := by decide
  exact hall v h

theorem isAllowed_of_mem_encodeOnto {bytes : List UInt8} {done : List Char}
    (h : ∀ c ∈ done, isAllowed c = true) : ∀ c ∈ encodeOnto done bytes, isAllowed c = true := by
  have hletter : ∀ n, isAllowed (letter (n % 64)) = true := fun n =>
    isAllowed_letter (Nat.mod_lt n (by decide))
  -- All letters of a group but its first one are taken modulo 64, and the bytes bound that one.
  fun_induction encodeOnto done bytes with
  | case1 done a b c rest n ih =>
      refine ih fun d hd => ?_
      have ha := a.toNat_lt
      have hb := b.toNat_lt
      have hc := c.toNat_lt
      have hlead : isAllowed (letter (n / 262144)) = true := isAllowed_letter (by omega)
      simp only [List.mem_cons] at hd
      rcases hd with rfl | rfl | rfl | rfl | hd
      · exact hletter _
      · exact hletter _
      · exact hletter _
      · exact hlead
      · exact h d hd
  | case2 done a b n =>
      have ha := a.toNat_lt
      have hb := b.toNat_lt
      have hlead : isAllowed (letter (n / 1024)) = true := isAllowed_letter (by omega)
      intro d hd
      simp only [List.mem_cons] at hd
      rcases hd with rfl | rfl | rfl | rfl | hd
      · decide
      · exact hletter _
      · exact hletter _
      · exact hlead
      · exact h d hd
  | case3 done a =>
      have ha := a.toNat_lt
      have hlead : isAllowed (letter (a.toNat / 4)) = true := isAllowed_letter (by omega)
      intro d hd
      simp only [List.mem_cons] at hd
      rcases hd with rfl | rfl | rfl | rfl | hd
      · decide
      · decide
      · exact hletter _
      · exact hlead
      · exact h d hd
  | case4 done => exact h

theorem isAscii_of_isAllowed {c : Char} (h : isAllowed c = true) : isAscii c = true := by
  rw [isAllowed, Bool.or_eq_true] at h
  rcases h with h | h
  · rw [beq_iff_eq] at h
    rw [h]
    decide
  · -- Each kind of letter bounds the character from above.
    have hle : ∀ {a b : Char}, (decide (a ≤ b)) = true → a.toNat ≤ b.toNat := of_decide_eq_true
    have hlt : c.toNat < 128 := by
      simp only [value?, Bool.and_eq_true] at h
      split at h
      · next hc => exact Nat.lt_of_le_of_lt (hle hc.2) (by decide)
      · split at h
        · next hc => exact Nat.lt_of_le_of_lt (hle hc.2) (by decide)
        · split at h
          · next hc => exact Nat.lt_of_le_of_lt (hle hc.2) (by decide)
          · split at h
            · next hc => rw [hc]; decide
            · split at h
              · next hc => rw [hc]; decide
              · cases h
    simpa [isAscii] using hlt

/-! ## Groups -/

/-- Text that stands in front stays in front. -/
theorem encodeOnto_append (front done : List Char) (bytes : List UInt8) :
    encodeOnto (front ++ done) bytes = encodeOnto front bytes ++ done := by
  fun_induction encodeOnto front bytes with
  | case1 front a b c rest n ih =>
      rw [encodeOnto]
      exact ih
  | case2 front a b n => rfl
  | case3 front a => rfl
  | case4 front => rfl

theorem encode_nil : encode [] = [] := rfl

theorem encode_one (a : UInt8) :
    encode [a] = [letter (a.toNat / 4), letter (a.toNat * 16 % 64), pad, pad] := rfl

theorem encode_two (a b : UInt8) :
    encode [a, b] = [letter ((a.toNat * 256 + b.toNat) / 1024),
      letter ((a.toNat * 256 + b.toNat) / 16 % 64), letter ((a.toNat * 256 + b.toNat) * 4 % 64), pad] :=
  rfl

/-- The text of three bytes and more begins with a group of four letters. -/
theorem encode_three (a b c : UInt8) (rest : List UInt8) :
    encode (a :: b :: c :: rest) =
      letter ((a.toNat * 65536 + b.toNat * 256 + c.toNat) / 262144) ::
      letter ((a.toNat * 65536 + b.toNat * 256 + c.toNat) / 4096 % 64) ::
      letter ((a.toNat * 65536 + b.toNat * 256 + c.toNat) / 64 % 64) ::
      letter ((a.toNat * 65536 + b.toNat * 256 + c.toNat) % 64) :: encode rest := by
  rw [encode, encodeOnto]
  have h := encodeOnto_append [] [letter ((a.toNat * 65536 + b.toNat * 256 + c.toNat) % 64),
    letter ((a.toNat * 65536 + b.toNat * 256 + c.toNat) / 64 % 64),
    letter ((a.toNat * 65536 + b.toNat * 256 + c.toNat) / 4096 % 64),
    letter ((a.toNat * 65536 + b.toNat * 256 + c.toNat) / 262144)] rest
  rw [List.nil_append] at h
  rw [h, List.reverse_append]
  rfl

/-- A text has four characters for each three bytes, rounded up. -/
theorem length_encode (bytes : List UInt8) : (encode bytes).length = 4 * ((bytes.length + 2) / 3) := by
  match bytes with
  | [] => rfl
  | [a] => simp [encode_one]
  | [a, b] => simp [encode_two]
  | a :: b :: c :: rest =>
      have ih := length_encode rest
      simp only [encode_three, List.length_cons]
      omega

/-! ## Reading groups -/

/-- Between two groups, with the bytes read so far backwards. -/
def Progress.between (bytes : List UInt8) : Progress := ⟨0, 0, false, 0, bytes⟩

/-- The letters of three bytes are read as these bytes. -/
theorem readOn_three (a b c : UInt8) (done : List UInt8) (rest : List Char) :
    readOn (.between done)
        (letter ((a.toNat * 65536 + b.toNat * 256 + c.toNat) / 262144) ::
          letter ((a.toNat * 65536 + b.toNat * 256 + c.toNat) / 4096 % 64) ::
          letter ((a.toNat * 65536 + b.toNat * 256 + c.toNat) / 64 % 64) ::
          letter ((a.toNat * 65536 + b.toNat * 256 + c.toNat) % 64) :: rest) =
      readOn (.between (c :: b :: a :: done)) rest := by
  have ha := a.toNat_lt
  have hb := b.toNat_lt
  have hc := c.toNat_lt
  generalize hn : a.toNat * 65536 + b.toNat * 256 + c.toNat = n
  have hfirst : n / 262144 * 4 + n / 4096 % 64 / 16 = a.toNat := by omega
  have hsecond : n / 4096 % 64 % 16 * 16 + n / 64 % 64 / 4 = b.toNat := by omega
  have hthird : n / 64 % 64 % 4 * 64 + n % 64 = c.toNat := by omega
  rw [readOn_letter rfl (by omega), readOn_letter rfl (by omega), readOn_letter rfl (by omega),
    readOn_letter rfl (by omega)]
  simp only [Progress.between, Progress.letter, hfirst, hsecond, hthird, UInt8.ofNat_toNat]

/-- The text of bytes is read to its end. -/
theorem readOn_encode (bytes done : List UInt8) :
    readOn (.between done) (encode bytes) = .ok (done.reverse ++ bytes) := by
  match bytes with
  | [] =>
      rw [encode_nil, readOn, List.append_nil]
      rfl
  | [a] =>
      have ha := a.toNat_lt
      have hfirst : a.toNat / 4 * 4 + a.toNat * 16 % 64 / 16 = a.toNat := by omega
      rw [encode_one, readOn_letter rfl (by omega), readOn_letter rfl (by omega)]
      simp only [Progress.between, Progress.letter, hfirst, UInt8.ofNat_toNat]
      rw [readOn_pad (by simp), readOn_lastPad (by simp), List.reverse_cons]
  | [a, b] =>
      have ha := a.toNat_lt
      have hb := b.toNat_lt
      rw [encode_two]
      generalize hn : a.toNat * 256 + b.toNat = n
      have hfirst : n / 1024 * 4 + n / 16 % 64 / 16 = a.toNat := by omega
      have hsecond : n / 16 % 64 % 16 * 16 + n * 4 % 64 / 4 = b.toNat := by omega
      rw [readOn_letter rfl (by omega), readOn_letter rfl (by omega), readOn_letter rfl (by omega)]
      simp only [Progress.between, Progress.letter, hfirst, hsecond, UInt8.ofNat_toNat]
      rw [readOn_lastPad (by simp)]
      simp
  | a :: b :: c :: rest =>
      rw [encode_three, readOn_three, readOn_encode rest (c :: b :: a :: done)]
      simp

/-! ## The whole text -/

theorem outsideAscii?_eq_none {text : List Char} (h : ∀ c ∈ text, isAscii c = true) (n : Nat) :
    outsideAscii? n text = none := by
  induction text generalizing n with
  | nil => rfl
  | cons c rest ih =>
      rw [outsideAscii?, if_pos (h c (by simp))]
      exact ih (fun d hd => h d (by simp [hd])) (n + 1)

/-- The text of bytes does not begin with padding. -/
theorem head?_encode_ne_pad (bytes : List UInt8) : (encode bytes).head? ≠ some pad := by
  have hfirst : ∀ {v}, v < 64 → ∀ rest, (letter v :: rest).head? ≠ some pad := fun hv _ h =>
    (value?_letter hv).2 (Option.some.inj h)
  match bytes with
  | [] => simp [encode_nil]
  | [a] =>
      have ha := a.toNat_lt
      exact hfirst (by omega) _
  | [a, b] =>
      have ha := a.toNat_lt
      have hb := b.toNat_lt
      exact hfirst (by omega) _
  | a :: b :: c :: rest =>
      have ha := a.toNat_lt
      have hb := b.toNat_lt
      have hc := c.toNat_lt
      rw [encode_three]
      exact hfirst (by omega) _

/-- Any bytes are read back from their text. -/
theorem decode_encode (bytes : List UInt8) : decode (encode bytes) = .ok bytes := by
  have hascii : ∀ c ∈ encode bytes, isAscii c = true := by
    intro c hc
    rw [encode, List.mem_reverse] at hc
    exact isAscii_of_isAllowed (isAllowed_of_mem_encodeOnto (by simp) c hc)
  rw [decode, outsideAscii?_eq_none hascii, if_neg (head?_encode_ne_pad bytes)]
  exact readOn_encode bytes []

end WasmEmbed.Payload.Base64
