import Mathlib.Data.List.DropRight
import WasmEmbed.Proofs.Binding.Decodes

/-!
# The name that a body decodes

The body of a loading function is the braced part of a template with a name for its marker
(`replaces_of_loaderBody`). A later build looks for the name in the body. What it looks for is the first
call of the decoder with an identifier, in whatever text (`previousName?_eq_some_iff`), and in the body of a
loading function that is the call with the name (`recognises_loaderBody`).
-/

namespace WasmEmbed.Binding

open Script

variable {c : Char} {front text : List Char} {name : Name}

/-! ## The name in the template -/

/-- The marker in the gap of a template. A name takes its place. -/
def marker : Name := "__WASM_BUNDLER_BASE64__".toList

/-- A text from its first opening brace to its last closing brace. -/
def braced (text : List Char) : List Char := (text.dropWhile (· != '\x7b')).rdropWhile (· != '\x7d')

/-- A text stands in one place of another one, and something else stands there in the third text. -/
def Replaces (old new before after : List Char) : Prop :=
  ∃ front back, before = front ++ old ++ back ∧ after = front ++ new ++ back ∧
    ∀ front' back', before = front' ++ old ++ back' → front' = front

/-- What begins with a part of a text, up to the end of the text. -/
def beginnings (part text : List Char) : List (List Char) := text.tails.filter part.isPrefixOf

theorem append_mem_beginnings {front part back text : List Char} (h : text = front ++ part ++ back) :
    part ++ back ∈ beginnings part text := by
  rw [beginnings, List.mem_filter, List.mem_tails, List.isPrefixOf_iff_prefix, h, List.append_assoc]
  exact ⟨List.suffix_append front _, List.prefix_append part back⟩

/-- A text that begins once is replaced there. -/
theorem replaces_of_beginnings {old front back : List Char}
    (h : (beginnings old (front ++ old ++ back)).length = 1)
    (new : List Char) : Replaces old new (front ++ old ++ back) (front ++ new ++ back) := by
  refine ⟨front, back, rfl, rfl, fun front' back' heq => ?_⟩
  obtain ⟨rest, hrest⟩ := List.length_eq_one_iff.mp h
  have hhere := append_mem_beginnings (rfl : front ++ old ++ back = _)
  have hthere := append_mem_beginnings heq
  rw [hrest, List.mem_singleton] at hhere hthere
  rw [List.append_assoc, List.append_assoc, hhere, hthere] at heq
  exact (List.append_cancel_right heq).symm

/-- The part of a template in its braces goes from its first opening brace to its last closing brace. -/
theorem braced_loader (compressed : Bool) (name : Name) :
    braced (loader compressed name) = '\x7b' :: (bodyText compressed name ++ ['\x7d']) := by
  have hheading : ∀ c ∈ loaderHeading, (c != '\x7b') = true := fun c hc =>
    bne_iff_ne.mpr (isBraceFree_loaderHeading c hc).1
  have hback : ∀ text : List Char, (text ++ ['\x7d', '\n']).rdropWhile (· != '\x7d') = text ++ ['\x7d'] := by
    intro text
    rw [← List.singleton_append (x := '\x7d'), ← List.append_assoc,
      List.rdropWhile_concat_pos _ _ _ (by decide), List.rdropWhile_concat_neg _ _ _ (by decide)]
  rw [braced, loader_eq_heading, List.dropWhile_append_of_pos hheading,
    List.dropWhile_cons_of_neg (by decide)]
  exact hback ('\x7b' :: bodyText compressed name)

/-- What stands around the name in the braces of a loading function does not depend on the name. -/
theorem exists_around_name (compressed : Bool) :
    ∃ front back, ∀ name, '\x7b' :: (bodyText compressed name ++ ['\x7d']) = front ++ name ++ back := by
  refine ⟨'\x7b' :: (margin ++ constantText decoderName decoderText ++
    (margin ++ ("const ".toList ++ bytesName compressed ++ " = ".toList ++ (decoderName ++ ['('])))),
    ')' :: ';' :: (useText compressed ++ ['\x7d']), fun name => ?_⟩
  unfold bodyText
  generalize margin ++ constantText decoderName decoderText = front
  unfold constantText
  simp only [List.append_assoc, List.cons_append, List.nil_append]

/-- The marker stands once in a template. -/
theorem length_beginnings_marker (compressed : Bool) :
    (beginnings marker (braced ((template compressed).fill marker))).length = 1 := by
  show (beginnings marker (braced (loader compressed marker))).length = 1
  rw [braced_loader]
  cases compressed <;> decide +kernel

/-- The body of a loading function is the part of its template in braces, with the name for the marker. -/
theorem replaces_of_loaderBody {compressed : Bool} {body : List Char} (hname : isIdentifier name = true)
    (h : loaderBody compressed name = .ok body) :
    Replaces marker name (braced ((template compressed).fill marker)) body := by
  have hbody :=
    loaderBody_of_isOperandWord compressed hname ((loaderBody_eq_ok_iff compressed hname).mp ⟨body, h⟩)
  obtain rfl := Except.ok.inj (h.symm.trans hbody)
  have hone := length_beginnings_marker compressed
  obtain ⟨front, back, haround⟩ := exists_around_name compressed
  have hmarked : braced ((template compressed).fill marker) = front ++ marker ++ back :=
    (braced_loader compressed marker).trans (haround marker)
  rw [hmarked] at hone ⊢
  rw [haround name]
  exact replaces_of_beginnings hone name

/-! ## The first call -/

/-- Behind a front part of a text, the decoder is called with an identifier. -/
def CallsAt (text front : List Char) (name : Name) : Prop :=
  isIdentifier name = true ∧ ∃ back, text = front ++ (decoderCall name ++ back)

/-- The first call of the decoder with an identifier stands behind a front part of a text. -/
structure CallsFirst (text front : List Char) (name : Name) : Prop where
  calls : CallsAt text front name
  le : ∀ {front' name'}, CallsAt text front' name' → front.length ≤ front'.length

theorem not_callsAt_nil : ¬ CallsAt [] front name := by
  rintro ⟨-, back, h⟩
  have hlength := congrArg List.length h
  simp [decoderCall] at hlength

theorem callsAt_cons_iff {c' : Char} :
    CallsAt (c :: text) (c' :: front) name ↔ c = c' ∧ CallsAt text front name := by
  simp only [CallsAt, List.cons_append, List.cons.injEq, exists_and_left]
  exact and_left_comm

/-- What is decoded at the front of a text. -/
theorem decodedName?_eq_some_iff : decodedName? text = some name ↔ CallsAt text [] name := by
  constructor
  · intro h
    rw [decodedName?] at h
    dsimp only at h
    split at h
    · next hcall =>
        obtain ⟨rest, rfl⟩ := List.isPrefixOf_iff_prefix.mp hcall
        rw [List.drop_left] at h
        split at h
        · next hclosed =>
            obtain rfl := Option.some.inj h
            obtain ⟨hname, hhead⟩ := Bool.and_eq_true_iff.mp hclosed
            obtain ⟨back, hback⟩ := List.head?_eq_some_iff.mp (beq_iff_eq.mp hhead)
            refine ⟨hname, back, ?_⟩
            have hrest : rest = rest.takeWhile isIdentifierPart ++ ')' :: back := by
              rw [← hback]
              exact (List.prefix_iff_eq_append.mp (List.takeWhile_prefix isIdentifierPart)).symm
            conv_lhs => rw [hrest]
            simp [decoderCall]
        · cases h
    · cases h
  · rintro ⟨hname, back, rfl⟩
    simpa [decoderCall] using decodedName?_call hname back

/-- The name that is looked for in a text is that of the first call of the decoder with an identifier. -/
theorem previousName?_eq_some_iff : previousName? text = some name ↔ ∃ front, CallsFirst text front name := by
  induction text with
  | nil =>
      constructor
      · intro h
        cases h
      · rintro ⟨front, h⟩
        exact absurd h.calls not_callsAt_nil
  | cons c rest ih =>
      rw [previousName?]
      -- A call at the front comes first; without one, the first call is that of the rest.
      cases hhere : decodedName? (c :: rest) with
      | some here =>
          have hcalls := decodedName?_eq_some_iff.mp hhere
          constructor
          · intro h
            obtain rfl := Option.some.inj h
            exact ⟨[], hcalls, fun _ => Nat.zero_le _⟩
          · rintro ⟨front, h⟩
            obtain rfl : front = [] := List.eq_nil_of_length_eq_zero (Nat.le_zero.mp (h.le hcalls))
            exact hhere.symm.trans (decodedName?_eq_some_iff.mpr h.calls)
      | none =>
          have hnot : ∀ {name}, ¬ CallsAt (c :: rest) [] name := fun h => by
            rw [decodedName?_eq_some_iff.mpr h] at hhere
            cases hhere
          refine ih.trans ⟨?_, ?_⟩
          · rintro ⟨front, h⟩
            refine ⟨c :: front, callsAt_cons_iff.mpr ⟨rfl, h.calls⟩, ?_⟩
            intro front' name' h'
            cases front' with
            | nil => exact absurd h' hnot
            | cons c' front' => exact Nat.succ_le_succ (h.le (callsAt_cons_iff.mp h').2)
          · rintro ⟨front, h⟩
            cases front with
            | nil => exact absurd h.calls hnot
            | cons c' front =>
                obtain ⟨rfl, hcalls⟩ := callsAt_cons_iff.mp h.calls
                refine ⟨front, hcalls, fun h' => ?_⟩
                exact Nat.le_of_succ_le_succ (h.le (callsAt_cons_iff.mpr ⟨rfl, h'⟩))

/-- No name is found in a text in which the decoder is not called with an identifier. -/
theorem previousName?_eq_none_iff : previousName? text = none ↔ ∀ front name, ¬ CallsAt text front name := by
  induction text with
  | nil => exact ⟨fun _ _ _ => not_callsAt_nil, fun _ => rfl⟩
  | cons c rest ih =>
      have hhere : decodedName? (c :: rest) = none ↔ ∀ name, ¬ CallsAt (c :: rest) [] name := by
        simp only [Option.eq_none_iff_forall_ne_some, ne_eq, decodedName?_eq_some_iff]
      have hor : previousName? (c :: rest) = none ↔
          decodedName? (c :: rest) = none ∧ previousName? rest = none := by
        rw [previousName?]
        cases decodedName? (c :: rest) <;> simp
      rw [hor, hhere, ih]
      constructor
      · rintro ⟨hfirst, hrest⟩ front name h
        cases front with
        | nil => exact hfirst name h
        | cons c' front => exact hrest front name (callsAt_cons_iff.mp h).2
      · intro h
        exact ⟨h [], fun front name hcalls => h (c :: front) name (callsAt_cons_iff.mpr ⟨rfl, hcalls⟩)⟩

/-- The body of a loading function is the part of its template in braces with the name for the marker, and
that name is found in it. In any text, the name that is found is that of the first call of the decoder with
an identifier. -/
theorem recognises_loaderBody (text : List Char) :
    (∀ {name compressed body}, isIdentifier name = true → loaderBody compressed name = .ok body →
      Replaces marker name (braced ((template compressed).fill marker)) body ∧
      previousName? body = some name) ∧
    (∀ name, previousName? text = some name ↔ ∃ front, CallsFirst text front name) ∧
    (previousName? text = none ↔ ∀ front name, ¬ CallsAt text front name) :=
  ⟨fun hname h => ⟨replaces_of_loaderBody hname h, previousName?_of_loaderBody hname h⟩,
    fun _ => previousName?_eq_some_iff, previousName?_eq_none_iff⟩

namespace Sample

/-- A name in which the name of the decoder and the marker occur. -/
def mixedName : Name := "$bytesFromBase64__WASM_BUNDLER_BASE64__".toList

/-- A text in which the decoder is first called with something else than an identifier. -/
def calls : List Char := "bytesFromBase64(1) + bytesFromBase64($a) + bytesFromBase64(b)".toList

end Sample

/-- The name is found in the body that is written for it, and in another text the first identifier is. -/
theorem recognises_loaderBody_mixed :
    (∃ body, loaderBody true Sample.mixedName = .ok body ∧
      Replaces marker Sample.mixedName (braced ((template true).fill marker)) body ∧
      previousName? body = some Sample.mixedName) ∧
    ∃ front, CallsFirst Sample.calls front "$a".toList := by
  have hname : isIdentifier Sample.mixedName = true := by decide +kernel
  obtain ⟨hbody, hfirst, -⟩ := recognises_loaderBody Sample.calls
  obtain ⟨body, h⟩ := exists_loaderBody true hname (by decide +kernel)
  exact ⟨⟨body, h, hbody hname h⟩, (hfirst _).mp (by decide +kernel)⟩

end WasmEmbed.Binding
