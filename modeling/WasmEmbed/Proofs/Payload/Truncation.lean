import WasmEmbed.Proofs.Payload.Accepted
import WasmEmbed.Proofs.Payload.Deflate.Front

/-!
# Payloads that were cut off

When the end of the text of a compressed payload is missing, reading it fails, wherever it was cut
(`decode_truncated`). A text that is cut within a group of letters is no Base64 text. One that is cut
between two groups stands for a proper front of the stream, and the stream ends too early in it.
-/

namespace WasmEmbed.Payload

namespace Base64

/-- A part of a group is not accepted. -/
theorem readOn_short {text : List Char} {bytes : List UInt8} (hne : text ≠ [])
    (hlength : text.length < 4) (hhead : text.head? ≠ some pad) (done : List UInt8) :
    readOn (.between done) text ≠ .ok bytes := by
  intro h
  have hstart : (Progress.between done).position < 4 ∧ (Progress.between done).padded = false ∧
      (Progress.between done).pads = 0 := ⟨Nat.zero_lt_succ 3, rfl, rfl⟩
  obtain ⟨letters, padding, rfl, -, hpadding, hone, htwo, hthree⟩ := exists_of_readOn hstart h
  have hposition : (Progress.between done).position + letters.length = letters.length := Nat.zero_add _
  rw [hposition] at hone htwo hthree
  rw [List.length_append] at hlength
  cases letters with
  | nil =>
      cases padding with
      | nil => exact hne rfl
      | cons c rest => exact hhead (congrArg some (hpadding c List.mem_cons_self))
  | cons c rest =>
      rw [List.length_cons] at hlength hone htwo hthree
      omega

/-- What is accepted of a front of the text of bytes stands for a front of the bytes. -/
theorem exists_of_readOn_of_isPrefix {bytes done out : List UInt8} {text : List Char}
    (hcut : text <+: encode bytes) (hne : text ≠ encode bytes)
    (h : readOn (.between done) text = .ok out) :
    ∃ front, front <+: bytes ∧ front ≠ bytes ∧ out = done.reverse ++ front := by
  cases text with
  | nil =>
      refine ⟨[], List.nil_prefix, ?_, ?_⟩
      · rintro rfl
        exact hne rfl
      · rw [List.append_nil]
        exact (Except.ok.inj h).symm
  | cons first text =>
      have hhead : (first :: text).head? ≠ some pad := by
        obtain ⟨rest, hrest⟩ := hcut
        have hencode := head?_encode_ne_pad bytes
        rwa [← hrest] at hencode
      have hlong : 4 ≤ (first :: text).length := Nat.not_lt.mp fun hlength =>
        readOn_short (List.cons_ne_nil first text) hlength hhead done h
      -- Up to two bytes make one group, and a front that holds a whole group is all of their text.
      match bytes with
      | [] => exact absurd (List.prefix_nil.mp hcut) (List.cons_ne_nil first text)
      | [a] => exact absurd (hcut.eq_of_length_le hlong) hne
      | [a, b] => exact absurd (hcut.eq_of_length_le hlong) hne
      | a :: b :: c :: rest =>
          rw [encode_three] at hcut hne
          match text, hlong with
          | second :: third :: fourth :: text, _ =>
              simp only [List.cons_prefix_cons] at hcut
              obtain ⟨rfl, rfl, rfl, rfl, hcut⟩ := hcut
              rw [readOn_three] at h
              have hrest : text ≠ encode rest := fun heq => hne (by rw [heq])
              obtain ⟨front, hfront, hproper, rfl⟩ := exists_of_readOn_of_isPrefix hcut hrest h
              refine ⟨a :: b :: c :: front, ?_, ?_, by simp⟩
              · simpa only [List.cons_prefix_cons, true_and] using hfront
              · simpa using hproper

/-- A proper front of the text of bytes is refused or stands for a proper front of the bytes. -/
theorem isPrefix_of_decode {bytes out : List UInt8} {text : List Char} (hcut : text <+: encode bytes)
    (hne : text ≠ encode bytes) (h : decode text = .ok out) : out <+: bytes ∧ out ≠ bytes := by
  obtain ⟨front, hfront, hproper, rfl⟩ :=
    exists_of_readOn_of_isPrefix hcut hne (readOn_of_decode h).2
  exact ⟨hfront, hproper⟩

end Base64

/-- The text of a compressed payload has more than one group of letters. -/
theorem four_lt_length_encode (payload : List UInt8) : 4 < (encode true payload).length := by
  have hstream : 6 ≤ (Deflate.compress payload).length := by
    simp [Deflate.compress, Deflate.streamHeading, Checksum.toBytes]
  rw [encode, if_pos rfl, Base64.length_encode]
  omega

/-- A proper front of the text of a compressed payload is never decoded: it is no Base64 text, or the
stream ends too early in it. -/
theorem decode_truncated (payload : List UInt8) {text : List Char}
    (hcut : text <+: encode true payload) (hne : text ≠ encode true payload) :
    (∃ cause, decode true text = .error (.text cause)) ∨
      decode true text = .error (.stream .truncated) := by
  rw [decode]
  cases hread : Base64.decode text with
  | error cause => exact Or.inl ⟨cause, rfl⟩
  | ok front =>
      obtain ⟨hfront, hproper⟩ := Base64.isPrefix_of_decode hcut hne hread
      have htruncated : Deflate.decompress front = .error .truncated :=
        Deflate.decompress_of_isPrefix hfront hproper
      refine Or.inr ?_
      show (Deflate.decompress front).mapError EncodingError.stream = _
      rw [htruncated]
      rfl

/-- Only the first group of letters is left of the four bytes that a binary begins with. -/
theorem decode_truncated_magic :
    (encode true [0, 97, 115, 109]).take 4 ≠ encode true [0, 97, 115, 109] ∧
      ((∃ cause, decode true ((encode true [0, 97, 115, 109]).take 4) = .error (.text cause)) ∨
        decode true ((encode true [0, 97, 115, 109]).take 4) = .error (.stream .truncated)) := by
  have hne : ∀ payload, (encode true payload).take 4 ≠ encode true payload := by
    intro payload heq
    have hlength := List.length_take_le 4 (encode true payload)
    rw [heq] at hlength
    exact absurd (four_lt_length_encode payload) (Nat.not_lt.mpr hlength)
  exact ⟨hne _, decode_truncated [0, 97, 115, 109] (List.take_prefix _ _) (hne _)⟩

end WasmEmbed.Payload
