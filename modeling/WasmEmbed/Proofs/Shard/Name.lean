import Mathlib.Data.Nat.Digits.Defs
import WasmEmbed.Proofs.Path.Place
import WasmEmbed.Shard
import WasmEmbed.Config

/-!
# The names of shards

A shard is known by the number in its name (`index?_file`), and the aggregator has no number
(`index?_index`). So no two files of a build have one name. Other names are read as those of shards, too, if
the digits in them stand for a number (`index?_eq_some_iff`).
-/

namespace WasmEmbed

namespace Text

theorem digit?_of_isDigit {c : Char} (h : c.isDigit = true) : digit? c = some (c.toNat - '0'.toNat) := by
  have hrange : 48 ≤ c.toNat ∧ c.toNat ≤ 57 := by
    simp only [Char.isDigit, Bool.and_eq_true, decide_eq_true_eq, ge_iff_le,
      UInt32.le_iff_toNat_le] at h
    exact h
  have hzero : (decide (0x30 ≤ c.toNat) && decide (c.toNat < 0x30 + 10)) = true := by
    simp only [Bool.and_eq_true, decide_eq_true_eq]
    omega
  have hzeros : zeros = 0x30 :: zeros.tail := rfl
  rw [digit?, hzeros, List.find?_cons_of_pos (by exact hzero)]
  rfl

theorem numberFrom?_of_isDigit {digits : List Char} (h : ∀ c ∈ digits, c.isDigit = true) (n : Nat) :
    numberFrom? n digits = some (Nat.ofDigitChars 10 digits n) := by
  induction digits generalizing n with
  | nil => rfl
  | cons c rest ih =>
      rw [numberFrom?, digit?_of_isDigit (h c (by simp))]
      simp only
      rw [ih fun d hd => h d (by simp [hd])]
      simp [Nat.ofDigitChars, Nat.mul_comm]

/-- The digits of a number stand for it. -/
theorem number?_toDigits (n : Nat) : number? (Nat.toDigits 10 n) = some n := by
  have hdigits : ∀ c ∈ Nat.toDigits 10 n, c.isDigit = true := fun c hc =>
    Nat.isDigit_of_mem_toDigits (by decide) (by decide) hc
  rw [number?, if_neg (by simp), numberFrom?_of_isDigit hdigits,
    Nat.ofDigitChars_ten_toDigits]

/-- A text that stands for a number ends with a digit. -/
theorem digit?_of_number? {text : List Char} {c : Char} {n : Nat} (h : number? (text ++ [c]) = some n) :
    (digit? c).isSome = true := by
  rw [number?, if_neg (by simp)] at h
  suffices hfrom : ∀ k, numberFrom? k (text ++ [c]) = some n → (digit? c).isSome = true from hfrom 0 h
  clear h
  induction text with
  | nil =>
      intro k h
      cases hc : digit? c with
      | none => simp [numberFrom?, hc] at h
      | some d => rfl
  | cons first rest ih =>
      intro k h
      rw [List.cons_append, numberFrom?] at h
      split at h
      · exact ih _ h
      · cases h

/-- What decimal digits, of any script, stand for: the number with these digits in base ten. -/
def StandsFor (digits : List Char) (i : Nat) : Prop :=
  digits ≠ [] ∧ ∃ values : List Nat, digits.map digit? = values.map some ∧ i = Nat.ofDigits 10 values.reverse

theorem numberFrom?_eq_some_iff {digits : List Char} {n i : Nat} : numberFrom? n digits = some i ↔
    ∃ values : List Nat, digits.map digit? = values.map some ∧
      i = values.foldl (fun n d => n * 10 + d) n := by
  induction digits generalizing n with
  | nil =>
      rw [numberFrom?, Option.some_inj]
      constructor
      · rintro rfl
        exact ⟨[], rfl, rfl⟩
      · rintro ⟨values, hvalues, rfl⟩
        rw [List.map_eq_nil_iff.mp hvalues.symm]
        rfl
  | cons c rest ih =>
      rw [numberFrom?, List.map_cons]
      cases hc : digit? c with
      | none =>
          refine iff_of_false (fun h => nomatch h) ?_
          rintro ⟨values, hvalues, -⟩
          cases values <;> cases hvalues
      | some d =>
          refine Iff.trans ih ⟨?_, ?_⟩
          · rintro ⟨values, hvalues, rfl⟩
            exact ⟨d :: values, by rw [List.map_cons, hvalues], rfl⟩
          · rintro ⟨values, hvalues, rfl⟩
            cases values with
            | nil => cases hvalues
            | cons value values =>
                obtain ⟨hvalue, hrest⟩ := List.cons.inj hvalues
                obtain rfl := Option.some.inj hvalue
                exact ⟨values, hrest, rfl⟩

theorem number?_eq_some_iff {digits : List Char} {i : Nat} :
    number? digits = some i ↔ StandsFor digits i := by
  have hfold : ∀ values : List Nat,
      values.foldl (fun n d => n * 10 + d) 0 = Nat.ofDigits 10 values.reverse := by
    intro values
    rw [Nat.ofDigits_eq_foldr, List.foldr_reverse]
    exact congrArg (fun f => values.foldl f 0) (funext₂ fun n d => by simp [Nat.mul_comm, Nat.add_comm])
  rw [number?, StandsFor]
  by_cases hnil : digits = []
  · simp [hnil]
  · rw [if_neg (by simpa using hnil), numberFrom?_eq_some_iff]
    simp only [hfold, hnil, ne_eq, not_false_eq_true, true_and]

end Text

namespace Shard

theorem stem_eq (start : Name) (i : Nat) : stem start i = start ++ Nat.toDigits 10 i := by
  rw [stem, Nat.toString_eq_ofList_toDigits, String.toList_ofList]

/-- The number of a shard is read from its name. -/
theorem index?_file (start extension : Name) (i : Nat) :
    index? start extension (withExtension (stem start i) extension) = some i := by
  rw [stem_eq, withExtension, index?, List.append_assoc, List.drop_left]
  simp only [List.length_append, Nat.add_sub_cancel, List.take_left, Text.number?_toDigits]
  rw [if_pos]
  simp

/-- The aggregator has no number. -/
theorem index?_index (start extension : Name) :
    index? start extension (withExtension indexStem extension) = none := by
  rw [Option.eq_none_iff_forall_ne_some]
  intro i h
  rw [index?] at h
  split at h
  · next hname =>
      simp only [Bool.and_eq_true, List.isPrefixOf_iff_prefix, List.isSuffixOf_iff_suffix] at hname
      obtain ⟨⟨rest, hrest⟩, middle, hmiddle⟩ := hname
      rw [← hrest, List.drop_left] at h hmiddle
      rw [← hmiddle, List.length_append, Nat.add_sub_cancel, List.take_left] at h
      have hstem : start ++ middle = indexStem := by
        have hname : (start ++ middle) ++ '.' :: extension = indexStem ++ '.' :: extension := by
          rw [List.append_assoc, hmiddle, hrest, withExtension]
        exact List.append_cancel_right hname
      rcases List.eq_nil_or_concat middle with rfl | ⟨front, c, rfl⟩
      · simp [Text.number?] at h
      · -- The last letter of the name is no digit.
        have hlast : c = 'x' := by
          have := congrArg List.getLast? hstem
          simpa [indexStem] using this
        subst hlast
        exact absurd (Text.digit?_of_number? (List.concat_eq_append ▸ h)) (by decide)
  · cases h

/-- A name has the number of a shard if it consists of the beginning, digits that stand for the number, a
point and the extension. -/
theorem index?_eq_some_iff {start extension name : Name} {i : Nat} : index? start extension name = some i ↔
    ∃ digits, name = start ++ digits ++ '.' :: extension ∧ Text.StandsFor digits i := by
  rw [index?]
  constructor
  · intro h
    split at h
    · next hname =>
        simp only [Bool.and_eq_true, List.isPrefixOf_iff_prefix, List.isSuffixOf_iff_suffix] at hname
        obtain ⟨⟨rest, rfl⟩, digits, hdigits⟩ := hname
        rw [List.drop_left] at h hdigits
        rw [← hdigits, List.length_append, Nat.add_sub_cancel, List.take_left] at h
        exact ⟨digits, by rw [List.append_assoc, hdigits], Text.number?_eq_some_iff.mp h⟩
    · cases h
  · rintro ⟨digits, rfl, hdigits⟩
    rw [List.append_assoc, List.drop_left]
    simp only [List.length_append, Nat.add_sub_cancel, List.take_left]
    rw [if_pos (by simp)]
    exact Text.number?_eq_some_iff.mpr hdigits

theorem stem_injective (start : Name) : Function.Injective (stem start) := by
  intro i j h
  have hi := index?_file start [] i
  rw [h, index?_file] at hi
  exact (Option.some.inj hi).symm

/-! ## Plain names -/

theorem slash_notMem_identifier {name : List Char} (h : isIdentifier name = true) : '/' ∉ name := by
  cases name with
  | nil => simp
  | cons c rest =>
      simp only [isIdentifier, Bool.and_eq_true, List.all_eq_true] at h
      intro hmem
      rcases List.mem_cons.mp hmem with rfl | hmem
      · exact absurd h.1 (by decide)
      · exact absurd (h.2 _ hmem) (by decide)

theorem slash_notMem_extension {text : List Char} (h : isExtension text = true) : '/' ∉ text := by
  simp only [isExtension, Bool.and_eq_true, List.all_eq_true] at h
  intro hmem
  exact absurd (h.2 _ hmem) (by decide)

theorem slash_notMem_toDigits (i : Nat) : '/' ∉ Nat.toDigits 10 i := by
  intro hmem
  exact absurd (Nat.isDigit_of_mem_toDigits (by decide) (by decide) hmem) (by decide)

/-- A name that begins with a letter is that of a file. -/
theorem isPlain_of_beginsIdentifier {c : Char} {rest : List Char} (hc : beginsIdentifier c = true)
    (hrest : '/' ∉ rest) : Path.IsPlain (c :: rest) where
  ne_nil := by simp
  ne_current := by
    intro h
    obtain rfl : c = '.' := (List.cons.inj h).1
    exact absurd hc (by decide)
  ne_parent := by
    intro h
    obtain rfl : c = '.' := (List.cons.inj h).1
    exact absurd hc (by decide)
  slash_notMem := by
    rw [List.mem_cons, not_or]
    refine ⟨fun h => ?_, hrest⟩
    subst h
    exact absurd hc (by decide)

theorem isPlain_file {start extension : Name} (hstart : isIdentifier start = true)
    (hextension : isExtension extension = true) (i : Nat) :
    Path.IsPlain (withExtension (stem start i) extension) := by
  have hslash := slash_notMem_identifier hstart
  cases start with
  | nil => simp [isIdentifier] at hstart
  | cons c rest =>
      rw [stem_eq, withExtension, List.cons_append, List.cons_append]
      simp only [isIdentifier, Bool.and_eq_true] at hstart
      refine isPlain_of_beginsIdentifier hstart.1 ?_
      have := slash_notMem_toDigits i
      have := slash_notMem_extension hextension
      simp_all

theorem isPlain_index {extension : Name} (hextension : isExtension extension = true) :
    Path.IsPlain (withExtension indexStem extension) := by
  have hname : withExtension indexStem extension = 'i' :: ("ndex".toList ++ '.' :: extension) := rfl
  rw [hname]
  refine isPlain_of_beginsIdentifier (by decide) ?_
  simp [slash_notMem_extension hextension]

end Shard

end WasmEmbed
