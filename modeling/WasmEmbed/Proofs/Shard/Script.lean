import WasmEmbed.Payload.Encoding
import WasmEmbed.Proofs.Payload.Base64
import WasmEmbed.Proofs.Shard.Name

/-!
# The scripts of shards

A text is split into chunks that are not empty and not too long, and that give the text back
(`split_eq_ok`). The text of a payload has characters of Base64 text alone, so each of its chunks has a
script (`script_of_isAllowed`).

Neither the script of a shard nor that of the aggregator has two opening braces. A binding has two, so
they are no bindings.
-/

namespace WasmEmbed

/-! ## The characters of Base64 text -/

namespace Payload

/-- The text of a payload has characters of Base64 text alone. -/
theorem isAllowed_of_mem_encode {compress : Bool} {payload : List UInt8} :
    ∀ c ∈ encode compress payload, Base64.isAllowed c = true := by
  intro c hc
  rw [encode, Base64.encode, List.mem_reverse] at hc
  exact Base64.isAllowed_of_mem_encodeOnto (by simp) c hc

end Payload

namespace Shard

open Payload

/-! ## Chunks -/

theorem exists_chunksFrom {size : Nat} (hsize : 0 < size) {k : Nat} {text : List Char}
    (hk : text.length ≤ k) (done : List (List Char)) :
    ∃ chunks, chunksFrom size done k text = done.reverse ++ chunks ∧ chunks.flatten = text ∧
      ∀ chunk ∈ chunks, chunk ≠ [] ∧ chunk.length ≤ size := by
  -- Each chunk takes a character at least, so `k` chunks are enough.
  induction k generalizing text done with
  | zero =>
      obtain rfl : text = [] := List.eq_nil_of_length_eq_zero (Nat.le_zero.mp hk)
      exact ⟨[], by simp [chunksFrom], rfl, by simp⟩
  | succ k ih =>
      cases text with
      | nil => exact ⟨[], by simp [chunksFrom], rfl, by simp⟩
      | cons c rest =>
          have hrest : ((c :: rest).drop size).length ≤ k := by
            simp only [List.length_drop, List.length_cons] at hk ⊢
            omega
          obtain ⟨chunks, hchunks, hflatten, hlength⟩ := ih hrest ((c :: rest).take size :: done)
          refine ⟨(c :: rest).take size :: chunks, ?_, ?_, ?_⟩
          · simp only [chunksFrom, List.splitAt_eq, hchunks]
            simp
          · rw [List.flatten_cons, hflatten, List.take_append_drop]
          · intro chunk hchunk
            rcases List.mem_cons.mp hchunk with rfl | hchunk
            · refine ⟨?_, List.length_take_le _ _⟩
              rw [ne_eq, List.take_eq_nil_iff]
              simp only [not_or]
              exact ⟨by omega, by simp⟩
            · exact hlength chunk hchunk

/-- A text is split unless its chunks were to be empty. The chunks give it back, and each of them has one
character or more, but not too many. -/
theorem exists_split {maxChars : Int} (h : 1 ≤ maxChars) (text : List Char) :
    ∃ chunks, split maxChars text = .ok chunks ∧ chunks.flatten = text ∧
      ∀ chunk ∈ chunks, 1 ≤ chunk.length ∧ (chunk.length : Int) ≤ maxChars := by
  have hsize : 0 < maxChars.toNat := by omega
  obtain ⟨chunks, hchunks, hflatten, hlength⟩ := exists_chunksFrom hsize (Nat.le_refl text.length) []
  refine ⟨chunks, ?_, hflatten, fun chunk hchunk => ?_⟩
  · rw [split, if_neg (by omega), hchunks]
    rfl
  · obtain ⟨hne, hle⟩ := hlength chunk hchunk
    have := List.length_pos_iff.mpr hne
    omega

/-! ## Scripts -/

/-- The text of a script that exports a function that returns a chunk. -/
def scriptText (chunk : List Char) : List Char :=
  "export default function() \x7b return \"".toList ++ chunk ++ "\"; \x7d".toList

/-- A chunk of Base64 text has a script. -/
theorem script_of_isAllowed {chunk : List Char} (h : ∀ c ∈ chunk, Base64.isAllowed c = true) :
    script chunk = .ok (scriptText chunk) := if_pos (List.all_eq_true.mpr h)

theorem not_isAllowed_brace : Base64.isAllowed '\x7b' = false := by decide

theorem brace_notMem_of_isAllowed {chunk : List Char} (h : ∀ c ∈ chunk, Base64.isAllowed c = true) :
    '\x7b' ∉ chunk := fun hmem => by
  have := h '\x7b' hmem
  rw [not_isAllowed_brace] at this
  cases this

theorem count_scriptText {chunk : List Char} (h : ∀ c ∈ chunk, Base64.isAllowed c = true) :
    (scriptText chunk).count '\x7b' = 1 := by
  have hfront : "export default function() \x7b return \"".toList.count '\x7b' = 1 := by decide +kernel
  have hchunk := List.count_eq_zero_of_not_mem (brace_notMem_of_isAllowed h)
  have hback : "\"; \x7d".toList.count '\x7b' = 0 := by decide +kernel
  calc (scriptText chunk).count '\x7b' = _ := List.count_append
    _ = _ := congrArg (· + _) List.count_append
    _ = 1 := by rw [hfront, hchunk, hback]

theorem brace_notMem_of_isIdentifierPart {name : List Char}
    (h : ∀ c ∈ name, isIdentifierPart c = true) : '\x7b' ∉ name := fun hmem => by
  have hbrace : isIdentifierPart '\x7b' = false := by decide
  have := h '\x7b' hmem
  rw [hbrace] at this
  cases this

theorem isIdentifierPart_of_isIdentifier {name : List Char} (h : isIdentifier name = true) :
    ∀ c ∈ name, isIdentifierPart c = true := by
  cases name with
  | nil => simp
  | cons first rest =>
      simp only [isIdentifier, Bool.and_eq_true, List.all_eq_true] at h
      intro c hc
      rcases List.mem_cons.mp hc with rfl | hc
      · rw [isIdentifierPart, h.1, Bool.true_or]
      · exact h.2 c hc

theorem isIdentifierPart_of_mem_stem {start : Name} (h : isIdentifier start = true) (i : Nat) :
    ∀ c ∈ stem start i, isIdentifierPart c = true := by
  intro c hc
  rw [stem_eq] at hc
  rcases List.mem_append.mp hc with hc | hc
  · exact isIdentifierPart_of_isIdentifier h c hc
  · have hdigit := Nat.isDigit_of_mem_toDigits (by decide) (by decide) hc
    rw [isIdentifierPart, hdigit, Bool.or_true]

theorem isIdentifierPart_of_isExtension {text : List Char} (h : isExtension text = true) :
    ∀ c ∈ text, isIdentifierPart c = true := by
  intro c hc
  simp only [isExtension, Bool.and_eq_true, List.all_eq_true] at h
  have hc := h.2 c hc
  rw [Char.isAlphanum, Bool.or_eq_true] at hc
  rcases hc with hc | hc
  · simp [isIdentifierPart, beginsIdentifier, hc]
  · simp [isIdentifierPart, hc]

theorem brace_notMem_importLine {extension name : Name} (hextension : '\x7b' ∉ extension)
    (hname : '\x7b' ∉ name) : '\x7b' ∉ importLine extension name := by
  unfold importLine withExtension
  intro h
  rcases List.mem_append.mp h with h | h
  · rcases List.mem_append.mp h with h | h
    · rcases List.mem_append.mp h with h | h
      · rcases List.mem_append.mp h with h | h
        · exact absurd h (by decide +kernel)
        · exact hname h
      · exact absurd h (by decide +kernel)
    · rcases List.mem_append.mp h with h | h
      · exact hname h
      · rcases List.mem_cons.mp h with h | h
        · exact absurd h (by decide)
        · exact hextension h
  · exact absurd h (by decide +kernel)

theorem brace_notMem_aggregator {names : List Name} {extension : Name}
    (hextension : '\x7b' ∉ extension) (hnames : ∀ name ∈ names, '\x7b' ∉ name) :
    '\x7b' ∉ aggregator names extension := by
  unfold aggregator
  intro h
  rcases List.mem_append.mp h with h | h
  · rcases List.mem_append.mp h with h | h
    · rcases List.mem_append.mp h with h | h
      · obtain ⟨name, hname, h⟩ := List.mem_flatMap.mp h
        exact brace_notMem_importLine hextension (hnames name hname) h
      · exact absurd h (by decide +kernel)
    · obtain ⟨name, hname, h⟩ := List.mem_flatMap.mp h
      rcases List.mem_append.mp h with h | h
      · rcases List.mem_append.mp h with h | h
        · exact absurd h (by decide +kernel)
        · exact hnames name hname h
      · exact absurd h (by decide +kernel)
  · exact absurd h (by decide +kernel)

end Shard

end WasmEmbed
