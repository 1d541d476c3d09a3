import Mathlib.Algebra.Ring.Nat
import WasmEmbed.Payload.Encoding
import WasmEmbed.Proofs.Payload.Base64

/-!
# The texts that stand for bytes

The strict reader goes through a text letter by letter and stops early in six ways. What it accepts is a
small language all the same (`IsText`): letters of the alphabet, then padding that fills their last group.
A last group of one letter is no group, and behind whole groups there may be any number of padding characters.

What such a text stands for is best seen from its canonical form, without surplus padding and with
the unused bits of the last letter cleared: that is the text of the bytes that are read
(`decode_accepts`).
-/

namespace WasmEmbed.Payload

namespace Base64

/-! ## The alphabet

A letter stands for a number below sixty-four, and each of these numbers has one letter.
-/

/-- The letters in the order of the numbers that they stand for. -/
def alphabet : List Char :=
  "ABCDEFGHIJKLMNOPQRSTUVWXYZabcdefghijklmnopqrstuvwxyz0123456789+/".toList

/-- The alphabet are the letters of the numbers below sixty-four. -/
theorem mem_alphabet_iff (c : Char) : c ∈ alphabet ↔ ∃ v < 64, letter v = c := by
  have halphabet : alphabet = (List.range 64).map letter := by decide
  simp only [halphabet, List.mem_map, List.mem_range]

/-- Only letters of the alphabet stand for a number. -/
theorem letter_of_value? {c : Char} {v : Nat} (h : value? c = some v) : v < 64 ∧ letter v = c := by
  have hall : ∀ n < 128, ∀ v ∈ value? (Char.ofNat n), v < 64 ∧ letter v = Char.ofNat n := by decide
  have hascii : isAscii c = true := isAscii_of_isAllowed (by simp [isAllowed, h])
  have hletter := hall c.toNat (by simpa [isAscii] using hascii) v
  rw [Char.ofNat_toNat] at hletter
  exact hletter h

theorem isAllowed_of_mem_alphabet {c : Char} (h : c ∈ alphabet) : isAllowed c = true := by
  obtain ⟨v, hv, rfl⟩ := (mem_alphabet_iff c).mp h
  exact isAllowed_letter hv

/-- The padding character is no letter. -/
theorem ne_pad_of_mem_alphabet {c : Char} (h : c ∈ alphabet) : c ≠ pad := by
  obtain ⟨v, hv, rfl⟩ := (mem_alphabet_iff c).mp h
  exact (value?_letter hv).2

/-! ## The language

The bits of the last letter that belong to no byte are two or four. They may have any value in a text that
is accepted, and in the canonical form they are zero.
-/

/-- So many padding characters fill the last group of so many letters. -/
structure FillsGroup (letters pads : Nat) : Prop where
  one : letters % 4 ≠ 1
  two : letters % 4 = 2 → pads = 2
  three : letters % 4 = 3 → pads = 1

/-- Letters, and padding that fills their last group. -/
structure Fills (letters padding : List Char) : Prop where
  letter : ∀ c ∈ letters, c ∈ alphabet
  pad : ∀ c ∈ padding, c = pad
  group : FillsGroup letters.length padding.length

/-- A text that stands for bytes. Padding never stands alone. -/
def IsText (text : List Char) : Prop :=
  ∃ letters padding, text = letters ++ padding ∧ Fills letters padding ∧
    (letters = [] → padding = [])

/-- A letter with its lowest bits cleared. -/
def clearBits (count : Nat) (c : Char) : Char :=
  match value? c with
  | some v => letter (v / 2 ^ count * 2 ^ count)
  | none => c

/-- The bits of the letters that no byte takes: a letter holds six, a byte takes eight. -/
def unusedBits (letters : List Char) : Nat := 6 * letters.length % 8

/-- The letters with the unused bits of the last one cleared, and just the padding that fills its group. -/
def canonical (letters : List Char) : List Char :=
  letters.dropLast ++ letters.getLast?.toList.map (clearBits (unusedBits letters)) ++
    List.replicate ((4 - letters.length % 4) % 4) pad

/-- Clearing bits of a letter rounds its number down. -/
theorem clearBits_letter {v : Nat} (hv : v < 64) (count : Nat) :
    clearBits count (letter v) = letter (v / 2 ^ count * 2 ^ count) := by
  rw [clearBits, (value?_letter hv).1]

theorem canonical_two (a b : Char) : canonical [a, b] = [a, clearBits 4 b, pad, pad] := by
  simp [canonical, unusedBits, List.replicate]

theorem canonical_three (a b c : Char) : canonical [a, b, c] = [a, b, clearBits 2 c, pad] := by
  simp [canonical, unusedBits]

/-- Whole groups are canonical. -/
theorem canonical_group {d : Char} (hd : d ∈ alphabet) (a b c : Char) (rest : List Char) :
    canonical (a :: b :: c :: d :: rest) = a :: b :: c :: d :: canonical rest := by
  have hmod : (rest.length + 4) % 4 = rest.length % 4 := Nat.add_mod_right _ _
  have hunused : unusedBits (a :: b :: c :: d :: rest) = unusedBits rest := by
    simp only [unusedBits, List.length_cons]
    omega
  cases rest with
  | nil =>
      obtain ⟨v, hv, rfl⟩ := (mem_alphabet_iff d).mp hd
      have hkept : clearBits 0 (letter v) = letter v := by
        rw [clearBits_letter hv, Nat.pow_zero, Nat.div_one, Nat.mul_one]
      simp [canonical, unusedBits, hkept]
  | cons e rest =>
      rw [canonical, hunused]
      simp only [List.length_cons] at hmod ⊢
      rw [hmod]
      rfl

/-! ## Accepted texts are of the language

The state of the reader tells how many letters its group has and whether padding has come. The induction
is on the text, from any state that can be reached.
-/

/-- A letter moves the reader to the next position of the group. -/
theorem letter_position {p : Progress} (hp : p.position < 4) (v : Nat) :
    (p.letter v).position = (p.position + 1) % 4 ∧ (p.letter v).padded = p.padded ∧
      (p.letter v).pads = p.pads := by
  obtain ⟨position, held, padded, pads, bytes⟩ := p
  match position, hp with
  | 0, _ | 1, _ | 2, _ | 3, _ => simp [Progress.letter]

/-- What follows a padding character is nothing or is read as a text behind padding. -/
theorem exists_readOn_of_pad {p : Progress} {rest : List Char} {bytes : List UInt8}
    (h : readOn p (pad :: rest) = .ok bytes) :
    rest = [] ∨ ∃ q : Progress, q.padded = true ∧ readOn q rest = .ok bytes := by
  rw [readOn, if_pos rfl] at h
  split at h
  · exact Or.inr ⟨_, rfl, h⟩
  · split at h
    · exact Or.inr ⟨_, rfl, h⟩
    · split at h
      · next hempty => exact Or.inl (List.isEmpty_iff.mp hempty)
      · cases h

/-- Behind padding, only padding is accepted. -/
theorem eq_pad_of_readOn_padded {p : Progress} {text : List Char} {bytes : List UInt8}
    (hp : p.padded = true) (h : readOn p text = .ok bytes) : ∀ c ∈ text, c = pad := by
  induction text generalizing p with
  | nil => exact fun c hc => absurd hc List.not_mem_nil
  | cons c rest ih =>
      by_cases hc : c = pad
      · subst hc
        refine List.forall_mem_cons.mpr ⟨rfl, ?_⟩
        rcases exists_readOn_of_pad h with rfl | ⟨q, hq, hread⟩
        · exact fun c hc => absurd hc List.not_mem_nil
        · exact ih hq hread
      · -- A letter behind padding is refused, and so is every other character.
        rw [readOn, if_neg hc] at h
        split at h
        · cases h
        · rw [if_pos hp] at h
          cases h

/-- Padding in front of the second letter of a group does not end the group. -/
theorem readOn_pads_early {p : Progress} (hp : p.position < 2) {text : List Char}
    (h : ∀ c ∈ text, c = pad) : readOn p text = p.finish := by
  induction text generalizing p with
  | nil => rfl
  | cons c rest ih =>
      obtain ⟨rfl, hrest⟩ := List.forall_mem_cons.mp h
      rw [readOn, if_pos rfl, if_pos hp, ih (p := { p with padded := true }) hp hrest]
      rfl

/-- Padding that is accepted fills the group in which it stands. -/
theorem fillsGroup_of_readOn_pads {p : Progress} {text : List Char} {bytes : List UInt8}
    (hp : p.position < 4 ∧ p.pads = 0) (hpads : ∀ c ∈ text, c = pad)
    (h : readOn p text = .ok bytes) : FillsGroup p.position text.length := by
  obtain ⟨position, held, padded, pads, read⟩ := p
  obtain ⟨hposition, rfl⟩ := hp
  obtain ⟨count, rfl⟩ : ∃ count, text = List.replicate count pad :=
    ⟨text.length, List.eq_replicate_of_mem hpads⟩
  rw [List.length_replicate]
  match position, count, hposition with
  | 0, _, _ => exact ⟨by simp, by simp, by simp⟩
  | 1, _, _ =>
      rw [readOn_pads_early (Nat.lt_succ_self 1) hpads] at h
      cases h
  | 2, 0, _ | 2, 1, _ | 2, _ + 3, _ => simp [List.replicate, readOn, Progress.finish] at h
  | 2, 2, _ => exact ⟨by simp, by simp, by simp⟩
  | 3, 0, _ | 3, _ + 2, _ => simp [List.replicate, readOn, Progress.finish] at h
  | 3, 1, _ => exact ⟨by simp, by simp, by simp⟩

/-- What is accepted are letters and padding that fills their last group, if `p` stands in one. -/
theorem exists_of_readOn {p : Progress} {text : List Char} {bytes : List UInt8}
    (hp : p.position < 4 ∧ p.padded = false ∧ p.pads = 0) (h : readOn p text = .ok bytes) :
    ∃ letters padding, text = letters ++ padding ∧ (∀ c ∈ letters, c ∈ alphabet) ∧
      (∀ c ∈ padding, c = pad) ∧ FillsGroup (p.position + letters.length) padding.length := by
  induction text generalizing p with
  | nil => exact ⟨[], [], rfl, by simp, by simp,
      fillsGroup_of_readOn_pads ⟨hp.1, hp.2.2⟩ (by simp) h⟩
  | cons c rest ih =>
      by_cases hc : c = pad
      · -- From here on everything is padding.
        have hrest : ∀ d ∈ c :: rest, d = pad := by
          subst hc
          refine List.forall_mem_cons.mpr ⟨rfl, ?_⟩
          rcases exists_readOn_of_pad h with rfl | ⟨q, hq, hread⟩
          · exact fun c hc => absurd hc List.not_mem_nil
          · exact eq_pad_of_readOn_padded hq hread
        exact ⟨[], c :: rest, rfl, by simp, hrest,
          fillsGroup_of_readOn_pads ⟨hp.1, hp.2.2⟩ hrest h⟩
      · rw [readOn, if_neg hc] at h
        split at h
        · cases h
        · next v hvalue =>
            rw [if_neg (by simp [hp.2.1])] at h
            obtain ⟨hposition, hpadded, hpads⟩ := letter_position hp.1 v
            obtain ⟨letters, padding, rfl, hletters, hpadding, hgroup⟩ :=
              ih ⟨by omega, hpadded.trans hp.2.1, hpads.trans hp.2.2⟩ h
            obtain ⟨hv, hletter⟩ := letter_of_value? hvalue
            refine ⟨c :: letters, padding, rfl, ?_, hpadding, ?_⟩
            · exact List.forall_mem_cons.mpr ⟨(mem_alphabet_iff c).mpr ⟨v, hv, hletter⟩, hletters⟩
            · have hmod : (p.position + (c :: letters).length) % 4 =
                  ((p.letter v).position + letters.length) % 4 := by
                rw [hposition, List.length_cons]
                omega
              exact ⟨hmod ▸ hgroup.one, hmod ▸ hgroup.two, hmod ▸ hgroup.three⟩

/-! ## Groups of letters and the bytes that they hold

Four letters hold three bytes. What a whole group does to the reader is computed once, and so is what a
last group with padding does.
-/

/-- The first byte of a group, from its first two letters. -/
def firstByte (a b : Nat) : UInt8 := UInt8.ofNat (a * 4 + b / 16)

/-- The second byte of a group, from its second and third letter. -/
def secondByte (b c : Nat) : UInt8 := UInt8.ofNat (b % 16 * 16 + c / 4)

/-- The third byte of a group, from its last two letters. -/
def thirdByte (c d : Nat) : UInt8 := UInt8.ofNat (c % 4 * 64 + d)

variable {a b c d : Nat}

theorem toNat_firstByte (ha : a < 64) (hb : b < 64) : (firstByte a b).toNat = a * 4 + b / 16 :=
  UInt8.toNat_ofNat_of_lt' (by simp only [UInt8.size]; omega)

theorem toNat_secondByte (hc : c < 64) : (secondByte b c).toNat = b % 16 * 16 + c / 4 :=
  UInt8.toNat_ofNat_of_lt' (by simp only [UInt8.size]; omega)

theorem toNat_thirdByte (hd : d < 64) : (thirdByte c d).toNat = c % 4 * 64 + d :=
  UInt8.toNat_ofNat_of_lt' (by simp only [UInt8.size]; omega)

/-- A whole group adds three bytes. -/
theorem readOn_group (ha : a < 64) (hb : b < 64) (hc : c < 64) (hd : d < 64) (done : List UInt8)
    (rest : List Char) :
    readOn (.between done) (letter a :: letter b :: letter c :: letter d :: rest) =
      readOn (.between (thirdByte c d :: secondByte b c :: firstByte a b :: done)) rest := by
  rw [readOn_letter rfl ha, readOn_letter rfl hb, readOn_letter rfl hc, readOn_letter rfl hd]
  rfl

/-- Two letters with padding are a last byte. -/
theorem readOn_twoLetters (ha : a < 64) (hb : b < 64) (done : List UInt8) :
    readOn (.between done) [letter a, letter b, pad, pad] = .ok (done.reverse ++ [firstByte a b]) := by
  rw [readOn_letter rfl ha, readOn_letter rfl hb, readOn_pad (by simp [Progress.between, Progress.letter]),
    readOn_lastPad (by simp [Progress.between, Progress.letter])]
  exact congrArg Except.ok List.reverse_cons

/-- Three letters with padding are two last bytes. -/
theorem readOn_threeLetters (ha : a < 64) (hb : b < 64) (hc : c < 64) (done : List UInt8) :
    readOn (.between done) [letter a, letter b, letter c, pad] =
      .ok (done.reverse ++ [firstByte a b, secondByte b c]) := by
  rw [readOn_letter rfl ha, readOn_letter rfl hb, readOn_letter rfl hc,
    readOn_lastPad (by simp [Progress.between, Progress.letter])]
  simp [Progress.between, Progress.letter, firstByte, secondByte]

/-- The letters of a group are written again from its bytes. -/
theorem encode_group (ha : a < 64) (hb : b < 64) (hc : c < 64) (hd : d < 64) (bytes : List UInt8) :
    encode (firstByte a b :: secondByte b c :: thirdByte c d :: bytes) =
      letter a :: letter b :: letter c :: letter d :: encode bytes := by
  rw [encode_three, toNat_firstByte ha hb, toNat_secondByte hc, toNat_thirdByte hd]
  generalize hn : (a * 4 + b / 16) * 65536 + (b % 16 * 16 + c / 4) * 256 + (c % 4 * 64 + d) = n
  have hfirst : n / 262144 = a := by omega
  have hsecond : n / 4096 % 64 = b := by omega
  have hthird : n / 64 % 64 = c := by omega
  have hfourth : n % 64 = d := by omega
  rw [hfirst, hsecond, hthird, hfourth]

/-- Four bits of the second letter are not written again. -/
theorem encode_twoLetters (ha : a < 64) (hb : b < 64) :
    encode [firstByte a b] = canonical [letter a, letter b] := by
  have hfirst : (a * 4 + b / 16) / 4 = a := by omega
  have hsecond : (a * 4 + b / 16) * 16 % 64 = b / 2 ^ 4 * 2 ^ 4 := by omega
  rw [encode_one, toNat_firstByte ha hb, hfirst, hsecond, canonical_two, clearBits_letter hb]

/-- Two bits of the third letter are not written again. -/
theorem encode_threeLetters (ha : a < 64) (hb : b < 64) (hc : c < 64) :
    encode [firstByte a b, secondByte b c] = canonical [letter a, letter b, letter c] := by
  rw [encode_two, toNat_firstByte ha hb, toNat_secondByte hc]
  generalize hn : (a * 4 + b / 16) * 256 + (b % 16 * 16 + c / 4) = n
  have hfirst : n / 1024 = a := by omega
  have hsecond : n / 16 % 64 = b := by omega
  have hthird : n * 4 % 64 = c / 2 ^ 2 * 2 ^ 2 := by omega
  rw [hfirst, hsecond, hthird, canonical_three, clearBits_letter hc]

/-! ## Texts of the language are accepted

The induction takes four letters at a time. What is left in the end is nothing or a group that is filled
with padding.
-/

theorem Fills.of_group {letters padding : List Char} {a b c d : Char}
    (h : Fills (a :: b :: c :: d :: letters) padding) : Fills letters padding := by
  have hmod : (letters.length + 4) % 4 = letters.length % 4 := Nat.add_mod_right _ _
  obtain ⟨hletter, hpad, hone, htwo, hthree⟩ := h
  simp only [List.length_cons, hmod] at hone htwo hthree
  exact ⟨fun x hx => hletter x (by simp [hx]), hpad, hone, htwo, hthree⟩

/-- Letters and padding that fills their last group are read to the end, and the bytes that are read
have the canonical text of the letters. -/
theorem exists_readOn_of_fills {letters padding : List Char} (h : Fills letters padding)
    (done : List UInt8) : ∃ bytes,
      readOn (.between done) (letters ++ padding) = .ok (done.reverse ++ bytes) ∧
        bytes.length = 3 * letters.length / 4 ∧ encode bytes = canonical letters := by
  have hnumber : ∀ c ∈ letters, ∃ v < 64, letter v = c := fun c hc =>
    (mem_alphabet_iff c).mp (h.letter c hc)
  -- A group has four letters; the last one may lack one or two of them.
  match letters, h with
  | [], h =>
      refine ⟨[], ?_, rfl, rfl⟩
      rw [List.nil_append, readOn_pads_early (by simp [Progress.between]) h.pad, List.append_nil]
      rfl
  | [_], h => exact absurd rfl h.group.one
  | [x, y], h =>
      obtain ⟨a, ha, rfl⟩ := hnumber x (by simp)
      obtain ⟨b, hb, rfl⟩ := hnumber y (by simp)
      obtain rfl : padding = [pad, pad] := List.eq_replicate_iff.mpr ⟨h.group.two rfl, h.pad⟩
      exact ⟨[firstByte a b], readOn_twoLetters ha hb done, by simp, encode_twoLetters ha hb⟩
  | [x, y, z], h =>
      obtain ⟨a, ha, rfl⟩ := hnumber x (by simp)
      obtain ⟨b, hb, rfl⟩ := hnumber y (by simp)
      obtain ⟨c, hc, rfl⟩ := hnumber z (by simp)
      obtain rfl : padding = [pad] := List.eq_replicate_iff.mpr ⟨h.group.three rfl, h.pad⟩
      exact ⟨[firstByte a b, secondByte b c], readOn_threeLetters ha hb hc done, by simp,
        encode_threeLetters ha hb hc⟩
  | x :: y :: z :: last :: rest, h =>
      have hlast : last ∈ alphabet := h.letter last (by simp)
      obtain ⟨a, ha, rfl⟩ := hnumber x (by simp)
      obtain ⟨b, hb, rfl⟩ := hnumber y (by simp)
      obtain ⟨c, hc, rfl⟩ := hnumber z (by simp)
      obtain ⟨d, hd, rfl⟩ := hnumber last (by simp)
      obtain ⟨bytes, hread, hlength, hencode⟩ := exists_readOn_of_fills h.of_group
        (thirdByte c d :: secondByte b c :: firstByte a b :: done)
      refine ⟨firstByte a b :: secondByte b c :: thirdByte c d :: bytes, ?_, ?_, ?_⟩
      · simp only [List.cons_append]
        rw [readOn_group ha hb hc hd, hread]
        simp
      · simp only [List.length_cons, hlength]
        omega
      · rw [encode_group ha hb hc hd, canonical_group hlast, hencode]

/-! ## The whole text

The reader first looks at the whole text: for characters that are not allowed, and for a padding character
in front.
-/

/-- A text of the language has allowed characters only. -/
theorem isAllowed_of_isText {text : List Char} (h : IsText text) : ∀ c ∈ text, isAllowed c = true := by
  obtain ⟨letters, padding, rfl, hfills, -⟩ := h
  intro c hc
  rcases List.mem_append.mp hc with hc | hc
  · exact isAllowed_of_mem_alphabet (hfills.letter c hc)
  · rw [hfills.pad c hc]
    decide

theorem head?_ne_pad_of_isText {text : List Char} (h : IsText text) : text.head? ≠ some pad := by
  obtain ⟨letters, padding, rfl, hfills, hled⟩ := h
  cases letters with
  | nil =>
      rw [hled rfl]
      exact nofun
  | cons first rest =>
      intro hhead
      exact ne_pad_of_mem_alphabet (hfills.letter first List.mem_cons_self) (Option.some.inj hhead)

/-- For a text of the language, only the walk through its letters counts. -/
theorem decode_of_isText {text : List Char} (h : IsText text) :
    decode text = readOn (.between []) text := by
  have hascii : ∀ c ∈ text, isAscii c = true := fun c hc =>
    isAscii_of_isAllowed (isAllowed_of_isText h c hc)
  rw [decode, outsideAscii?_eq_none hascii, if_neg (head?_ne_pad_of_isText h)]
  rfl

/-- What is decoded does not begin with padding and is read from its first letter. -/
theorem readOn_of_decode {text : List Char} {bytes : List UInt8} (h : decode text = .ok bytes) :
    text.head? ≠ some pad ∧ readOn (.between []) text = .ok bytes := by
  rw [decode] at h
  split at h
  · cases h
  · split at h
    · cases h
    · next hhead => exact ⟨hhead, h⟩

/-- A text is decoded exactly if it is of the language. -/
theorem exists_decode_iff (text : List Char) : (∃ bytes, decode text = .ok bytes) ↔ IsText text := by
  constructor
  · rintro ⟨bytes, h⟩
    obtain ⟨hhead, hread⟩ := readOn_of_decode h
    have hstart : (Progress.between []).position < 4 ∧ (Progress.between []).padded = false ∧
        (Progress.between []).pads = 0 := ⟨by decide, rfl, rfl⟩
    obtain ⟨letters, padding, rfl, hletters, hpadding, hgroup⟩ := exists_of_readOn hstart hread
    refine ⟨letters, padding, rfl, ⟨hletters, hpadding, ?_⟩, ?_⟩
    · rwa [show (Progress.between []).position + letters.length = letters.length from
        Nat.zero_add _] at hgroup
    · rintro rfl
      cases padding with
      | nil => rfl
      | cons c rest => exact absurd (congrArg some (hpadding c List.mem_cons_self)) hhead
  · intro h
    obtain ⟨letters, padding, rfl, hfills, -⟩ := id h
    obtain ⟨bytes, hread, -⟩ := exists_readOn_of_fills hfills []
    exact ⟨bytes, (decode_of_isText h).trans hread⟩

/-- The bytes of a text have the canonical text of its letters. -/
theorem canonical_of_decode {letters padding : List Char} {bytes : List UInt8}
    (hfills : Fills letters padding) (h : decode (letters ++ padding) = .ok bytes) :
    bytes.length = 3 * letters.length / 4 ∧ encode bytes = canonical letters := by
  obtain ⟨bytes', hread, hlength, hencode⟩ := exists_readOn_of_fills hfills []
  rw [(readOn_of_decode h).2] at hread
  obtain rfl : bytes = bytes' := Except.ok.inj hread
  exact ⟨hlength, hencode⟩

end Base64

/-! ## Payloads -/

/-- Without compression a text is decoded exactly if it is of the language, and every other text is refused.
The payload has three bytes for each four letters, rounded down, and its text is the canonical one. -/
theorem decode_accepts (text : List Char) :
    ((∃ payload, decode false text = .ok payload) ↔ Base64.IsText text) ∧
      (¬ Base64.IsText text → ∃ cause, decode false text = .error (.text cause)) ∧
      ∀ letters padding payload, text = letters ++ padding → Base64.Fills letters padding →
        decode false text = .ok payload →
          payload.length = 3 * letters.length / 4 ∧ encode false payload = Base64.canonical letters := by
  have hdecode : ∀ text, decode false text = (Base64.decode text).mapError .text := by
    intro text
    rw [decode]
    cases Base64.decode text <;> rfl
  have hok : ∀ payload, decode false text = .ok payload ↔ Base64.decode text = .ok payload := by
    intro payload
    rw [hdecode]
    cases Base64.decode text with
    | error cause => exact ⟨nofun, nofun⟩
    | ok read =>
        show (Except.ok read : Except EncodingError _) = .ok payload ↔ _
        rw [Except.ok.injEq, Except.ok.injEq]
  have hiff : (∃ payload, decode false text = .ok payload) ↔ Base64.IsText text := by
    rw [← Base64.exists_decode_iff]
    exact exists_congr hok
  refine ⟨hiff, fun hrefused => ?_, ?_⟩
  · rw [← Base64.exists_decode_iff] at hrefused
    rw [hdecode]
    cases hread : Base64.decode text with
    | error cause => exact ⟨cause, rfl⟩
    | ok payload => exact absurd ⟨payload, hread⟩ hrefused
  · rintro letters padding payload rfl hfills h
    exact Base64.canonical_of_decode hfills ((hok payload).mp h)

/-- Bits of the last letter that no byte takes are dropped. -/
theorem decode_accepts_unused_bits :
    Base64.Fills "YWJjQR".toList "==".toList ∧ decode false "YWJjQR==".toList = .ok [97, 98, 99, 65] ∧
      encode false [97, 98, 99, 65] = "YWJjQQ==".toList := by
  have hfills : Base64.Fills "YWJjQR".toList "==".toList :=
    ⟨by decide, by decide, by decide, by decide, by decide⟩
  have hread : decode false "YWJjQR==".toList = .ok [97, 98, 99, 65] := by rfl
  have hcanonical : Base64.canonical "YWJjQR".toList = "YWJjQQ==".toList := by decide
  obtain ⟨-, -, hbytes⟩ := decode_accepts "YWJjQR==".toList
  obtain ⟨-, hencode⟩ := hbytes _ _ _ rfl hfills hread
  exact ⟨hfills, hread, hencode.trans hcanonical⟩

end WasmEmbed.Payload
