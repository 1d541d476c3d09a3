import WasmEmbed.Proofs.Shard.Name

/-!
# Decimal integers

A `Numeral` is a decimal integer as it is written: a sign, if there is one, and digits, which stand for a
number. It is read as the integer with this sign and this number, if it does not have too many digits
(`Numeral.integer?_text`).
-/

namespace WasmEmbed.Text

/-- The signs of integers. -/
inductive Sign where
  | plus
  | minus
  deriving Repr, DecidableEq

/-- A decimal integer as it is written. -/
structure Numeral where
  sign : Option Sign
  digits : List Char
  /-- The number that the digits stand for. -/
  magnitude : Nat
  standsFor : StandsFor digits magnitude

namespace Numeral

/-- The characters of a numeral. -/
def text (n : Numeral) : List Char :=
  match n.sign with
  | none => n.digits
  | some .plus => '+' :: n.digits
  | some .minus => '-' :: n.digits

/-- The integer that a numeral stands for. -/
def value (n : Numeral) : Int :=
  match n.sign with
  | some .minus => -n.magnitude
  | _ => n.magnitude

/-- A numeral has no more digits than an integer may have. -/
def IsShort (n : Numeral) : Prop := n.digits.length ≤ maxDigits

instance (n : Numeral) : Decidable n.IsShort := inferInstanceAs (Decidable (_ ≤ _))

end Numeral

/-! ## Digits -/

section Digits

variable {c : Char} {digits : List Char} {i : Nat}

/-- What stands for a number consists of digits. -/
theorem StandsFor.isSome_digit? (h : StandsFor digits i) : ∀ c ∈ digits, (digit? c).isSome = true := by
  obtain ⟨-, values, hvalues, -⟩ := h
  intro c hc
  have hmem : digit? c ∈ values.map some := hvalues ▸ List.mem_map_of_mem hc
  obtain ⟨value, -, hvalue⟩ := List.mem_map.mp hmem
  rw [← hvalue]
  rfl

/-- A character that is no digit is none of the digits of a number. -/
theorem StandsFor.ne {x : Char} (h : StandsFor digits i) (hx : digit? x = none) : ∀ c ∈ digits, c ≠ x := by
  rintro c hc rfl
  have hdigit := h.isSome_digit? c hc
  rw [hx] at hdigit
  cases hdigit

/-- The code points of the blanks that may stand around an integer. -/
def marginBlanks : List Nat :=
  List.range' 9 5 ++ [0x20, 0x85, 0xa0, 0x1680] ++ List.range' 0x2000 11 ++
    [0x2028, 0x2029, 0x202f, 0x205f, 0x3000]

theorem mem_marginBlanks (h : isMarginBlank c = true) : c.toNat ∈ marginBlanks := by
  simp only [isMarginBlank, Bool.or_eq_true, Bool.and_eq_true, decide_eq_true_eq, beq_iff_eq] at h
  simp only [marginBlanks, List.mem_append, List.mem_range'_1, List.mem_cons, List.not_mem_nil, or_false]
  omega

/-- No digit is a blank. -/
theorem isMarginBlank_of_digit? (h : (digit? c).isSome = true) : isMarginBlank c = false := by
  rw [Bool.eq_false_iff]
  intro hblank
  have hnone : ∀ n ∈ marginBlanks, (zeros.find? fun z => z ≤ n && n < z + 10) = none := by decide
  rw [digit?, hnone _ (mem_marginBlanks hblank)] at h
  cases h

/-- Digits without underscores are joined as they are. -/
theorem joined?_of_forall_ne (hne : digits ≠ []) (h : ∀ c ∈ digits, c ≠ '_') :
    joined? digits = some digits := by
  fun_induction joined? digits with
  | case1 => exact absurd rfl hne
  | case2 => exact absurd rfl (h '_' (by simp))
  | case3 c hc => rfl
  | case4 => exact absurd rfl (h '_' (by simp))
  | case5 => exact absurd rfl (h '_' (by simp))
  | case6 => exact absurd rfl (h '_' (by simp))
  | case7 c rest _ hrest _ ih =>
      have htail : rest ≠ [] := by
        rintro rfl
        simp_all
      rw [ih htail fun d hd => h d (List.mem_cons_of_mem c hd)]
      rfl

theorem magnitude?_of_standsFor (h : StandsFor digits i) :
    magnitude? digits = if digits.length ≤ maxDigits then some i else none := by
  rw [magnitude?, joined?_of_forall_ne h.1 (h.ne (by decide))]
  show (if digits.length ≤ maxDigits then number? digits else none) = _
  rw [number?_eq_some_iff.mpr h]

/-- A text is stripped of nothing if no blank stands at its ends. -/
theorem strip_eq {text : List Char} (hfirst : ∀ c ∈ text.head?, isMarginBlank c = false)
    (hlast : ∀ c ∈ text.getLast?, isMarginBlank c = false) :
    ((text.dropWhile isMarginBlank).reverse.dropWhile isMarginBlank).reverse = text := by
  have hdrop : ∀ {t : List Char}, (∀ c ∈ t.head?, isMarginBlank c = false) → t.dropWhile isMarginBlank =
      t := by
    intro t ht
    cases t with
    | nil => rfl
    | cons c t => exact List.dropWhile_cons_of_neg (by simp [ht c rfl])
  rw [hdrop hfirst, hdrop (by rwa [List.head?_reverse]), List.reverse_reverse]

end Digits

namespace Numeral

/-- No blank stands at the ends of a numeral. -/
theorem strip_text (n : Numeral) :
    ((n.text.dropWhile isMarginBlank).reverse.dropWhile isMarginBlank).reverse = n.text := by
  obtain ⟨sign, digits, i, h⟩ := n
  have hdigit : ∀ c ∈ digits, isMarginBlank c = false :=
    fun c hc => isMarginBlank_of_digit? (h.isSome_digit? c hc)
  have hlast : ∀ {x : Char}, ∀ c ∈ (x :: digits).getLast?, isMarginBlank c = false := by
    intro x c hc
    rw [List.getLast?_cons_of_ne_nil h.1] at hc
    exact hdigit c (List.mem_of_getLast? hc)
  cases sign with
  | none => exact strip_eq (fun c hc => hdigit c (List.mem_of_head? hc)) fun c hc =>
      hdigit c (List.mem_of_getLast? hc)
  | some sign =>
      have hsign : ∀ {x y : Char}, isMarginBlank x = false → y ∈ (x :: digits).head? → isMarginBlank y =
          false := by
        intro x y hx hy
        rwa [← Option.some.inj hy]
      cases sign with
      | plus => exact strip_eq (fun _ => hsign (by decide)) hlast
      | minus => exact strip_eq (fun _ => hsign (by decide)) hlast

/-- A numeral is read as the integer that it stands for, unless it has too many digits. -/
theorem integer?_text (n : Numeral) : integer? n.text = if n.IsShort then some n.value else none := by
  rw [integer?, strip_text]
  obtain ⟨sign, digits, i, h⟩ := n
  -- Without a sign, the first digit must not be taken for one.
  cases sign with
  | none =>
      obtain ⟨c, rest, rfl⟩ := List.exists_cons_of_ne_nil h.1
      have hplus := h.ne (x := '+') (by decide) c (by simp)
      have hminus := h.ne (x := '-') (by decide) c (by simp)
      have htext : text ⟨none, c :: rest, i, h⟩ = c :: rest := rfl
      rw [htext]
      split
      · next heq => exact absurd (List.cons.inj heq).1 hminus
      · next heq => exact absurd (List.cons.inj heq).1 hplus
      · show Option.map _ ((magnitude? (c :: rest)).bind _) = if (c :: rest).length ≤ maxDigits then _ else _
        rw [magnitude?_of_standsFor h]
        split <;> rfl
  | some sign =>
      cases sign with
      | plus =>
          show Option.map _ ((magnitude? digits).bind _) = if digits.length ≤ maxDigits then _ else _
          rw [magnitude?_of_standsFor h]
          split <;> rfl
      | minus =>
          show Option.map _ ((magnitude? digits).bind _) = if digits.length ≤ maxDigits then _ else _
          rw [magnitude?_of_standsFor h]
          split <;> rfl

end Numeral

end WasmEmbed.Text
