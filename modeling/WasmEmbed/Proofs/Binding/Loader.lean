import Mathlib.Data.List.Basic
import Mathlib.Data.List.Infix
import WasmEmbed.Binding.Loader
import WasmEmbed.Proofs.Script.Read
import WasmEmbed.Proofs.Shard.Script

/-!
# The bodies of the loading functions

The text of a loading function has one pair of braces, so its body is that pair with what stands between
them. The two loading functions have different bodies (`loaderBody_injective`): from the body that stands
in a binding one can tell whether the module is inflated.
-/

namespace WasmEmbed.Binding

open Script

/-! ## Braces

The body of a function is found by its braces. If what stands inside has none, the closing brace is the
first one behind the opening one.
-/

/-- A text with neither of the two braces. -/
def IsBraceFree (text : List Char) : Prop := ∀ c ∈ text, c ≠ '\x7b' ∧ c ≠ '\x7d'

-- The characters of the text are tried, not all characters that there are.
instance (text : List Char) : Decidable (IsBraceFree text) := List.decidableBAll _ text

/-- Two texts without braces make one. -/
theorem isBraceFree_append {front back : List Char} :
    IsBraceFree (front ++ back) ↔ IsBraceFree front ∧ IsBraceFree back :=
  List.forall_mem_append

/-- An identifier has no brace. -/
theorem isBraceFree_of_isIdentifier {name : Name} (h : isIdentifier name = true) : IsBraceFree name := by
  have hopen : isIdentifierPart '\x7b' = false := by decide
  have hclose : isIdentifierPart '\x7d' = false := by decide
  intro c hc
  have hpart := Shard.isIdentifierPart_of_isIdentifier h c hc
  constructor
  · rintro rfl
    rw [hopen] at hpart
    cases hpart
  · rintro rfl
    rw [hclose] at hpart
    cases hpart

/-- A braced part of a text with one pair of braces is that pair with what stands inside, and perhaps some
of what stands behind. -/
theorem exists_behind_of_isBraced {heading inside tail u v w : List Char}
    (htext : u ++ v ++ w = heading ++ '\x7b' :: (inside ++ '\x7d' :: tail))
    (hheading : IsBraceFree heading) (hinside : IsBraceFree inside) (htail : IsBraceFree tail)
    (hv : Outline.IsBraced v) :
    ∃ behind, v = '\x7b' :: (inside ++ '\x7d' :: behind) ∧ IsBraceFree behind := by
  obtain ⟨hopen, hclose⟩ := hv
  cases v with
  | nil => cases hopen
  | cons x rest =>
      obtain rfl : x = '\x7b' := Option.some.inj hopen
      -- There is one opening brace, at which the braced part begins.
      have hrest : '\x7b' ∉ inside ++ '\x7d' :: tail := by
        rw [List.mem_append, List.mem_cons]
        rintro (h | h | h)
        · exact (hinside _ h).1 rfl
        · exact absurd h (by decide)
        · exact (htail _ h).1 rfl
      rw [List.append_assoc, List.cons_append, eq_comm,
        List.append_cons_inj_of_notMem (fun h => (hheading _ h).1 rfl) hrest] at htext
      obtain ⟨-, -, htext⟩ := htext
      obtain ⟨p, q, rfl⟩ := List.append_of_mem ((List.mem_cons.mp hclose).resolve_left (by decide))
      rw [List.append_assoc, List.cons_append,
        List.append_cons_inj_of_notMem (fun h => (hinside _ h).2 rfl) fun h => (htail _ h).2 rfl] at htext
      obtain ⟨rfl, -, rfl⟩ := htext
      exact ⟨q, rfl, (isBraceFree_append.mp htail).1⟩

/-! ## The texts of the loading functions

Both texts are put together from parts, of which only the name is not fixed. That a part has no brace or
no call is decided by going through it.
-/

/-- A text in which no call of the decoder begins, also if a call follows it. -/
def IsCallFree (text : List Char) : Prop :=
  ∀ rest ∈ text.tails, rest ≠ [] →
    (decoderName ++ ['(']).isPrefixOf (rest ++ (decoderName ++ ['('])) = false

/-- A literal text is free of braces when its characters are. -/
theorem isBraceFree_ofList {text : List Char} (h : IsBraceFree text) :
    IsBraceFree (String.ofList text).toList := by
  rwa [String.toList_ofList]

instance (text : List Char) : Decidable (IsCallFree text) := List.decidableBAll _ text.tails

/-- What stands in front of the braces of a loading function. -/
def loaderHeading : List Char := "async function load(module, imports) ".toList

theorem isBraceFree_loaderHeading : IsBraceFree loaderHeading := by
  unfold loaderHeading
  rewrite [String.toList_ofList]
  decide

/-- What stands in front of the call of the decoder: the beginning of a constant. -/
def loaderConstant (compressed : Bool) : List Char :=
  if compressed then "    const compressed = ".toList else "    const wasmBytecode = ".toList

theorem isBraceFree_loaderConstant (compressed : Bool) : IsBraceFree (loaderConstant compressed) := by
  unfold loaderConstant
  repeat rewrite [String.toList_ofList]
  cases compressed <;> decide

/-- The two loading functions bind the decoded bytes to different constants. -/
theorem loaderConstant_append_ne (x y : List Char) :
    loaderConstant true ++ x ≠ loaderConstant false ++ y := by
  have hc : (loaderConstant true)[10]? = some 'c' := by
    unfold loaderConstant
    repeat rewrite [String.toList_ofList]
    rfl
  have hw : (loaderConstant false)[10]? = some 'w' := by
    unfold loaderConstant
    repeat rewrite [String.toList_ofList]
    rfl
  intro h
  have hat : (loaderConstant true ++ x)[10]? = (loaderConstant false ++ y)[10]? :=
    congrArg (fun text => text[10]?) h
  rw [List.getElem?_append_left (List.getElem?_eq_some_iff.mp hc).1,
    List.getElem?_append_left (List.getElem?_eq_some_iff.mp hw).1, hc, hw] at hat
  exact absurd hat (by decide)

/-- The head of the text has one brace, and no call stands behind it. -/
theorem exists_loaderHead :
    ∃ front, loaderHead.toList = loaderHeading ++ '\x7b' :: front ∧ IsBraceFree front ∧
      ∀ compressed, IsCallFree ('\x7b' :: front ++ loaderConstant compressed) := by
  have hfirst : "async function load(module, imports) \x7b\n".toList =
      loaderHeading ++ '\x7b' :: ['\n'] := by
    unfold loaderHeading
    repeat rewrite [String.toList_ofList]
    rfl
  have hfront : ∀ second third, IsBraceFree second → IsBraceFree third →
      (∀ compressed, IsCallFree ('\x7b' :: (['\n'] ++ second ++ third) ++ loaderConstant compressed)) →
      ∃ front, loaderHeading ++ '\x7b' :: ['\n'] ++ second ++ third = loaderHeading ++ '\x7b' :: front ∧
        IsBraceFree front ∧ ∀ compressed, IsCallFree ('\x7b' :: front ++ loaderConstant compressed) := by
    intro second third hsecond hthird hcalls
    refine ⟨['\n'] ++ second ++ third, by simp, ?_, hcalls⟩
    exact isBraceFree_append.mpr ⟨isBraceFree_append.mpr ⟨by decide, hsecond⟩, hthird⟩
  unfold loaderHead
  rw [String.toList_append, String.toList_append, hfirst]
  repeat rewrite [String.toList_ofList]
  refine hfront _ _ (by decide) (by decide) fun compressed => ?_
  unfold IsCallFree loaderConstant decoderName
  repeat rewrite [String.toList_ofList]
  cases compressed <;> decide +kernel

/-- The tail of the text ends with the closing brace and a line feed. -/
theorem exists_loaderTail :
    ∃ back, loaderTail.toList = back ++ '\x7d' :: ['\n'] ∧ IsBraceFree back := by
  have hlast : "\x7d\n".toList = '\x7d' :: ['\n'] := by decide
  have hback : ∀ first second, IsBraceFree first → IsBraceFree second → ∃ back,
      first ++ second ++ '\x7d' :: ['\n'] = back ++ '\x7d' :: ['\n'] ∧ IsBraceFree back :=
    fun first second hfirst hsecond => ⟨_, rfl, isBraceFree_append.mpr ⟨hfirst, hsecond⟩⟩
  unfold loaderTail
  rw [String.toList_append, String.toList_append, hlast]
  repeat rewrite [String.toList_ofList]
  exact hback _ _ (by decide) (by decide)

/-- The call of the decoder with a name. -/
def decoderCall (name : Name) : List Char := decoderName ++ ['('] ++ name ++ [')']

/-- The call has no brace if the name has none. -/
theorem isBraceFree_decoderCall {name : Name} (h : IsBraceFree name) : IsBraceFree (decoderCall name) := by
  have hdecoder : IsBraceFree decoderName := by
    unfold decoderName
    exact isBraceFree_ofList (by decide)
  rw [decoderCall, isBraceFree_append, isBraceFree_append]
  exact ⟨⟨isBraceFree_append.mpr ⟨hdecoder, by decide⟩, h⟩, by decide⟩

/-- The texts of the two loading functions: between the head and the tail, the decoder is called with the
name for a constant. -/
theorem exists_loader : ∃ after : Bool → List Char, (∀ compressed, IsBraceFree (after compressed)) ∧
    ∀ compressed name, loader compressed name =
      loaderHead.toList ++
        (loaderConstant compressed ++ (decoderCall name ++ (after compressed ++ loaderTail.toList))) := by
  have hclose : ");\n".toList = ')' :: [';', '\n'] := by decide
  have hplain : ∃ after, IsBraceFree after ∧ ∀ name, plainLoader.fill name =
      loaderHead.toList ++ (loaderConstant false ++ (decoderCall name ++ (after ++ loaderTail.toList))) := by
    have hcall : "    const wasmBytecode = bytesFromBase64(".toList =
        loaderConstant false ++ (decoderName ++ ['(']) := by
      unfold loaderConstant decoderName
      repeat rewrite [String.toList_ofList]
      rfl
    refine ⟨[';', '\n'], by decide, fun name => ?_⟩
    unfold plainLoader Template.fill decoderCall
    simp only [String.toList_append, hcall, hclose, List.append_assoc, List.cons_append, List.nil_append]
  have hinflating : ∃ after, IsBraceFree after ∧ ∀ name, inflatingLoader.fill name =
      loaderHead.toList ++ (loaderConstant true ++ (decoderCall name ++ (after ++ loaderTail.toList))) := by
    have hcall : "    const compressed = bytesFromBase64(".toList =
        loaderConstant true ++ (decoderName ++ ['(']) := by
      unfold loaderConstant decoderName
      repeat rewrite [String.toList_ofList]
      rfl
    -- Of the lines behind the call it only matters that they are free of braces.
    have hafter : ∀ first second third, IsBraceFree first → IsBraceFree second → IsBraceFree third →
        ∃ after, IsBraceFree after ∧ ∀ name,
        loaderHead.toList ++ (loaderConstant true ++ (decoderName ++ ['('])) ++
            name ++ (')' :: [';', '\n'] ++ first ++ second ++ third ++ loaderTail.toList) =
          loaderHead.toList ++
            (loaderConstant true ++ (decoderCall name ++ (after ++ loaderTail.toList))) := by
      intro first second third hfirst hsecond hthird
      refine ⟨[';', '\n'] ++ first ++ second ++ third, ?_, fun name => ?_⟩
      · simp only [isBraceFree_append]
        exact ⟨⟨⟨by decide, hfirst⟩, hsecond⟩, hthird⟩
      · unfold decoderCall
        simp only [List.append_assoc, List.cons_append, List.nil_append]
    unfold inflatingLoader Template.fill
    simp only [String.toList_append, hcall, hclose]
    exact hafter _ _ _ (isBraceFree_ofList (by decide)) (isBraceFree_ofList (by decide))
      (isBraceFree_ofList (by decide))
  obtain ⟨after, hfree, htext⟩ := hplain
  obtain ⟨after', hfree', htext'⟩ := hinflating
  refine ⟨fun compressed => if compressed then after' else after, fun compressed => ?_,
    fun compressed name => ?_⟩
  · cases compressed with
    | false => exact hfree
    | true => exact hfree'
  · cases compressed with
    | false => exact htext name
    | true => exact htext' name

/-! ## The bodies

The body is found by reading the text as a script. There is one function in it and one pair of braces, so
that pair is its body.
-/

/-- The body of a loading function is the one that is read from its text. -/
theorem exists_function_of_loaderBody {compressed : Bool} {name : Name} {body : List Char}
    (h : loaderBody compressed name = .ok body) :
    ∃ o f, Outline.read? (loader compressed name) = some o ∧ o.function? loadName = some f ∧
      f.body.span.of (loader compressed name) = body := by
  unfold loaderBody at h
  dsimp only at h
  split at h
  · cases h
  · next o ho =>
      split at h
      · cases h
      · next f hf => exact ⟨o, f, ho, hf, Except.ok.inj h⟩

/-- What is read from a text as the body of its loading function. -/
def IsBodyOf (text body : List Char) : Prop :=
  ((Outline.read? text).bind (·.function? loadName)).map (·.body.span.of text) = some body

instance (text body : List Char) : Decidable (IsBodyOf text body) := inferInstanceAs (Decidable (_ = _))

/-- The body of a loading function whose text is known. -/
theorem loaderBody_eq {compressed : Bool} {name : Name} {text body : List Char}
    (htext : loader compressed name = text) (hread : IsBodyOf text body) :
    loaderBody compressed name = .ok body := by
  obtain ⟨f, hfunction, hbody⟩ := Option.map_eq_some_iff.mp hread
  obtain ⟨o, ho, hf⟩ := Option.bind_eq_some_iff.mp hfunction
  subst htext
  unfold loaderBody
  dsimp only
  rw [ho]
  dsimp only
  rw [hf]
  exact congrArg Except.ok hbody

/-- The texts of the two loading functions differ. -/
theorem loader_injective {name : Name} {compressed compressed' : Bool}
    (h : loader compressed name = loader compressed' name) : compressed = compressed' := by
  obtain ⟨after, -, htext⟩ := exists_loader
  rw [htext, htext] at h
  have hcalls := List.append_cancel_left h
  cases compressed with
  | false =>
      cases compressed' with
      | false => rfl
      | true => exact absurd hcalls.symm (loaderConstant_append_ne _ _)
  | true =>
      cases compressed' with
      | false => exact absurd hcalls (loaderConstant_append_ne _ _)
      | true => rfl

/-- A loading function has one pair of braces, with a line feed behind it. -/
theorem exists_inside_of_isBraceFree (compressed : Bool) {name : Name} (hname : IsBraceFree name) :
    ∃ inside, IsBraceFree inside ∧
      loader compressed name = loaderHeading ++ '\x7b' :: (inside ++ '\x7d' :: ['\n']) := by
  obtain ⟨front, hfront, hfrontFree, -⟩ := exists_loaderHead
  obtain ⟨back, hback, hbackFree⟩ := exists_loaderTail
  obtain ⟨after, hafterFree, htext⟩ := exists_loader
  refine ⟨front ++ (loaderConstant compressed ++ (decoderCall name ++ (after compressed ++ back))), ?_, ?_⟩
  · simp only [isBraceFree_append]
    exact ⟨hfrontFree, isBraceFree_loaderConstant compressed, isBraceFree_decoderCall hname,
      hafterFree compressed, hbackFree⟩
  · rw [htext, hfront, hback]
    simp only [List.append_assoc, List.cons_append]

/-- The body of a loading function is what stands in its braces, and perhaps some of what stands behind. -/
theorem exists_behind_of_loaderBody {compressed : Bool} {name : Name} (hname : IsBraceFree name)
    {body : List Char} (h : loaderBody compressed name = .ok body) :
    ∃ inside behind, IsBraceFree inside ∧ IsBraceFree behind ∧
      loader compressed name = loaderHeading ++ '\x7b' :: (inside ++ '\x7d' :: ['\n']) ∧
      body = '\x7b' :: (inside ++ '\x7d' :: behind) := by
  obtain ⟨inside, hinside, hloader⟩ := exists_inside_of_isBraceFree compressed hname
  obtain ⟨o, f, ho, hf, rfl⟩ := exists_function_of_loaderBody h
  obtain ⟨-, -, -, ⟨hon, -, -⟩, -, hbraced⟩ :=
    Outline.holds_of_mem_functions ho (Outline.mem_functions_of_function? hf).1
  obtain ⟨u, v, w, -, hsplit, hspan⟩ := hon
  have hv : f.body.span.of (loader compressed name) = v := by
    rw [hsplit, hspan, Span.of_append]
  rw [hv] at hbraced ⊢
  have htail : IsBraceFree ['\n'] := by decide
  obtain ⟨behind, hbody, hbehind⟩ := exists_behind_of_isBraced (hsplit.symm.trans hloader)
    isBraceFree_loaderHeading hinside htail hbraced
  exact ⟨_, behind, hinside, hbehind, hloader, hbody⟩

/-- The loading functions for a module that is embedded as it is and for a compressed one have different
bodies. -/
theorem loaderBody_injective {name : Name} (hname : IsBraceFree name) {compressed compressed' : Bool}
    {body : List Char} (h : loaderBody compressed name = .ok body)
    (h' : loaderBody compressed' name = .ok body) : compressed = compressed' := by
  obtain ⟨inside, behind, hfree, hbehind, htext, hb⟩ := exists_behind_of_loaderBody hname h
  obtain ⟨inside', behind', -, -, htext', hb'⟩ := exists_behind_of_loaderBody hname h'
  have htails := (List.cons.inj (hb.symm.trans hb')).2
  rw [List.append_cons_inj_of_notMem (fun hmem => (hfree _ hmem).2 rfl)
    fun hmem => (hbehind _ hmem).2 rfl] at htails
  have hloaders : loader compressed name = loader compressed' name := by rw [htext, htext', htails.1]
  exact loader_injective hloaders

/-! ## The name that a body decodes

The name stands behind the first call of the decoder. In front of it the text is fixed and has no such
call.
-/

/-- Whether a text begins in a certain way is told by any beginning that is long enough. -/
theorem isPrefixOf_append {start front : List Char} (h : start.length ≤ front.length) (back : List Char) :
    start.isPrefixOf (front ++ back) = start.isPrefixOf front := by
  rw [Bool.eq_iff_iff, List.isPrefixOf_iff_prefix, List.isPrefixOf_iff_prefix]
  exact ⟨fun hprefix => List.prefix_of_prefix_length_le hprefix (List.prefix_append _ _) h,
    fun hprefix => hprefix.trans (List.prefix_append _ _)⟩

/-- The name in a call of the decoder is found. -/
theorem decodedName?_call {name : Name} (hname : isIdentifier name = true) (rest : List Char) :
    decodedName? (decoderName ++ ['('] ++ (name ++ ')' :: rest)) = some name := by
  have hstart : (decoderName ++ ['(']).isPrefixOf (decoderName ++ ['('] ++ (name ++ ')' :: rest)) = true := by
    rw [List.isPrefixOf_iff_prefix]
    exact List.prefix_append _ _
  have htake : (name ++ ')' :: rest).takeWhile isIdentifierPart = name := by
    rw [List.takeWhile_append_of_pos (Shard.isIdentifierPart_of_isIdentifier hname),
      List.takeWhile_cons_of_neg (by decide), List.append_nil]
  rw [decodedName?]
  dsimp only
  rw [if_pos hstart, List.drop_left, htake, List.drop_left, hname]
  rfl

/-- The name in the first call of the decoder. -/
theorem previousName?_call {front : List Char} (hfront : IsCallFree front) {name : Name}
    (hname : isIdentifier name = true) (rest : List Char) :
    previousName? (front ++ (decoderName ++ ['('] ++ (name ++ ')' :: rest))) = some name := by
  induction front with
  | nil =>
      obtain ⟨c, call, hcall⟩ : ∃ c call, decoderName ++ ['('] = c :: call := ⟨_, _, rfl⟩
      have hdecoded := decodedName?_call hname rest
      rw [hcall, List.cons_append] at hdecoded
      rw [List.nil_append, hcall, List.cons_append, previousName?, hdecoded]
      rfl
  | cons c front ih =>
      have hnot : decodedName? (c :: (front ++ (decoderName ++ ['('] ++ (name ++ ')' :: rest)))) = none := by
        have hhere :=
          hfront (c :: front) ((List.mem_tails _ _).mpr List.suffix_rfl) (List.cons_ne_nil c front)
        have hlength : (decoderName ++ ['(']).length ≤ (c :: front ++ (decoderName ++ ['('])).length := by
          simp only [List.length_append]
          omega
        rw [← isPrefixOf_append hlength (name ++ ')' :: rest), List.append_assoc] at hhere
        rw [decodedName?, ← List.cons_append, hhere]
        rfl
      rw [List.cons_append, previousName?, hnot]
      refine ih fun rest' hrest' => hfront rest' ((List.mem_tails _ _).mpr ?_)
      exact ((List.mem_tails _ _).mp hrest').trans (List.suffix_cons c front)

/-- The body of a loading function decodes the name that it was written for. -/
theorem previousName?_of_loaderBody {compressed : Bool} {name : Name} (hname : isIdentifier name = true)
    {body : List Char} (h : loaderBody compressed name = .ok body) : previousName? body = some name := by
  obtain ⟨front, hfront, -, hcallFree⟩ := exists_loaderHead
  obtain ⟨back, hback, -⟩ := exists_loaderTail
  obtain ⟨after, -, htext⟩ := exists_loader
  obtain ⟨inside, behind, -, -, hloader, rfl⟩ :=
    exists_behind_of_loaderBody (isBraceFree_of_isIdentifier hname) h
  rw [htext, hfront, hback] at hloader
  -- Up to the closing brace, the body is the text without its heading.
  have hbody : '\x7b' :: (inside ++ ['\x7d']) = '\x7b' :: front ++ loaderConstant compressed ++
      (decoderCall name ++ (after compressed ++ (back ++ ['\x7d']))) := by
    rw [← List.append_right_inj loaderHeading, ← List.append_left_inj ['\n']]
    simpa using hloader.symm
  have hsplit : '\x7b' :: (inside ++ '\x7d' :: behind) = '\x7b' :: front ++ loaderConstant compressed ++
      (decoderName ++ ['('] ++ (name ++ ')' :: (after compressed ++ (back ++ '\x7d' :: behind)))) := by
    have hwhole : '\x7b' :: (inside ++ '\x7d' :: behind) = '\x7b' :: (inside ++ ['\x7d']) ++ behind := by simp
    rw [hwhole, hbody, decoderCall]
    simp
  rw [hsplit]
  exact previousName?_call (hcallFree compressed) hname _

end WasmEmbed.Binding
