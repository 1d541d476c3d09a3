import WasmEmbed.Proofs.Binding.Loader
import WasmEmbed.Proofs.Script.Written.Refused
import WasmEmbed.Proofs.Script.Written.Single

/-!
# The names that a loading function may decode

The name that a loading function decodes is written into a call. The check of a config takes any identifier
for it, also a word of the language. The loading function is a script exactly if the word is an operand by
itself (`loaderBody_eq_ok_iff`); whatever is no word of the language is one. If it is not, the failure says
that the text of the binding is no script.
-/

namespace WasmEmbed.Binding

open Script Script.Written

variable {name : Name} {x : Char} {t u : List Char} {floor : Nat}

/-! ## Calls

Most of what the templates compute is a call, of a name or of a member, with a list of values as its
arguments.
-/

/-- The call of a function by its name. -/
theorem value_call (hname : isIdentifier name = true) (hplain : isPlainName name = true)
    (ht : Entries IsValue ')' t) (hx : isCloser x = true) :
    Expression IsValue floor (name ++ '(' :: (t ++ [')'])) (x :: u) :=
  .of_behind (.nameValue hname hplain (followsName_cons (by decide))) (.call ht (.nil (stops_closer hx)))

/-- The call of a member of an object, both by their names. -/
theorem value_memberCall {object : Name} (hobject : isIdentifier object = true)
    (hplain : isPlainName object = true) (hname : isIdentifier name = true) (ht : Entries IsValue ')' t)
    (hx : isCloser x = true) :
    Expression IsValue floor (object ++ '.' :: (name ++ '(' :: (t ++ [')']))) (x :: u) := by
  refine .of_behind (.nameValue hobject hplain (followsName_cons (by decide))) ?_
  exact .member hname (endsName_cons (by decide)) (.call ht (.nil (stops_closer hx)))

/-! ## What the constants are set to

Each constant has its text here and the proof that the text is read as a value.
-/

/-- The function that decodes text. -/
def decoderText : List Char :=
  '(' :: ("base64String".toList ++ ") => ".toList ++ ("Uint8Array".toList ++ '.' :: ("from".toList ++ '(' ::
    ("atob".toList ++ '(' :: ("base64String".toList ++ [')']) ++ ", ".toList ++
      '(' :: ("c".toList ++ ") => ".toList ++
        ("c".toList ++ '.' :: ("charCodeAt".toList ++ '(' :: (['0'] ++ [')'])))) ++ [')']))))

theorem value_decoderText : Expression IsValue 0 decoderText (';' :: u) := by
  have hparameter : ∀ {w : List Char}, isIdentifier w = true → isPlainName w = true →
      Entries (· = .name) ')' w :=
    fun hw hplain => .one (.inl rfl) fun _ => .name hw hplain (by decide)
  have hatob : ∀ u, Expression IsValue 0 ("atob".toList ++ '(' :: ("base64String".toList ++ [')']))
      (',' :: u) :=
    fun _ => value_call (by decide) (by decide) (.nameValue (.inl rfl) (by decide) (by decide)) (by decide)
  have hzero : Entries IsValue ')' ['0'] := .closed (.inl rfl) fun _ => .zero (by decide)
  have hcode : Entries IsValue ')' ('(' :: ("c".toList ++ ") => ".toList ++
      ("c".toList ++ '.' :: ("charCodeAt".toList ++ '(' :: (['0'] ++ [')']))))) := by
    refine .closed (.inl rfl) fun u => .arrow (hparameter (by decide) (by decide)) ?_
    exact value_memberCall (by decide) (by decide) (by decide) hzero (by decide)
  have harguments := Entries.cons (.inl rfl) hatob ⟨'(', _, rfl, by decide⟩ hcode
  refine .closed (.arrow (hparameter (by decide) (by decide)) ?_) (by decide)
  exact value_memberCall (by decide) (by decide) (by decide) harguments (by decide)

/-- The stream of the inflated bytes. -/
def streamText : List Char :=
  "new ".toList ++ "Blob".toList ++ '(' :: ('[' :: ("compressed".toList ++ [']']) ++ [')']) ++
    '.' :: ("stream".toList ++ '(' :: ')' :: '.' :: ("pipeThrough".toList ++ '(' ::
      ("new ".toList ++ "DecompressionStream".toList ++ '(' ::
        ('\'' :: ("deflate".toList ++ ['\'']) ++ [')']) ++
        [')'])))

theorem value_streamText : Expression IsValue 0 streamText (';' :: u) := by
  have hblob : Entries IsValue ')' ('[' :: ("compressed".toList ++ [']'])) :=
    .closed (.inl rfl) fun _ => .array (.nameValue (.inr rfl) (by decide) (by decide))
  have hformat : Entries IsValue ')' ('\'' :: ("deflate".toList ++ ['\''])) :=
    .closed (.inl rfl) fun _ => .string (.inr rfl) (by decide)
  have hinflater : Entries IsValue ')'
      ("new ".toList ++ "DecompressionStream".toList ++ '(' ::
        ('\'' :: ("deflate".toList ++ ['\'']) ++ [')'])) :=
    .closed (.inl rfl) fun _ => .creation (by decide) (by decide) hformat
  refine .of_behind (.creation (by decide) (by decide) hblob)
    (.member (by decide) (endsName_cons (by decide)) ?_)
  refine .callNothing (.member (by decide) (endsName_cons (by decide)) (.call hinflater (.nil ?_)))
  exact stops_closer (by decide)

/-- The inflated bytes. -/
def inflatedText : List Char :=
  "new ".toList ++ "Uint8Array".toList ++ '(' :: ("await ".toList ++
    ("new ".toList ++ "Response".toList ++ '(' :: ("stream".toList ++ [')']) ++
      '.' :: ("arrayBuffer".toList ++ ['(', ')'])) ++ [')'])

theorem value_inflatedText : Expression IsValue 0 inflatedText (';' :: u) := by
  have hstream : Entries IsValue ')' "stream".toList := .nameValue (.inl rfl) (by decide) (by decide)
  have hbuffer : ∀ u, Expression IsValue (Level.sign + 1) ("new ".toList ++ "Response".toList ++
      '(' :: ("stream".toList ++ [')']) ++ '.' :: ("arrayBuffer".toList ++ ['(', ')'])) (')' :: u) := fun _ =>
    .of_behind (.creation (by decide) (by decide) hstream)
      (.member (by decide) (endsName_cons (by decide)) (.callNothing (.nil (stops_closer (by decide)))))
  exact .closed (.creation (by decide) (by decide) (.closed (.inl rfl) fun u => .await (hbuffer u)))
    (by decide)

/-- The instance of the module. -/
def instanceText : List Char :=
  "await ".toList ++ ("WebAssembly".toList ++ '.' :: ("instantiate".toList ++ '(' ::
    ("wasmBytecode".toList ++ ", ".toList ++ "imports".toList ++ [')'])))

theorem value_instanceText : Expression IsValue 0 instanceText (';' :: u) := by
  have hnames : Entries IsValue ')' ("wasmBytecode".toList ++ ", ".toList ++ "imports".toList) := by
    refine .cons (.inl rfl) (fun u => .closed ?_ (by decide)) (starts_of_isIdentifier (by decide))
      (.nameValue (.inl rfl) (by decide) (by decide))
    exact .nameValue (by decide) (by decide) (followsName_closer (by decide))
  refine .closed (.await ?_) (by decide)
  exact value_memberCall (by decide) (by decide) (by decide) hnames (by decide)

/-! ## The bodies

The body is a series of statements, put together from the last one on. Its first constant is the one with
the name, and if that is refused, the series is.
-/

/-- The margin of a statement in a loading function. -/
def margin : List Char := "\n    ".toList

/-- The declaration of a constant. -/
def constantText (name : Name) (value : List Char) : List Char :=
  "const ".toList ++ name ++ " = ".toList ++ value ++ [';']

/-- A constant in front of other statements, or of statements that are refused. -/
theorem series_constant {value body : List Char} (hname : isIdentifier name = true)
    (hfree : isReserved name = false) (hvalue : ∀ u, Expression IsValue 0 value (';' :: u))
    (hbody : Series atBrace (fun _ => True) body u) :
    Series atBrace (fun _ => True) (margin ++ constantText name value ++ body) u :=
  .cons (by decide) (.constant hname hfree (hvalue _)) atBrace_word hbody fun _ _ _ _ => trivial

/-- What is refused behind a constant makes the series refused. -/
theorem noSeries_constant {value body : List Char} (hname : isIdentifier name = true)
    (hfree : isReserved name = false) (hvalue : ∀ u, Expression IsValue 0 value (';' :: u))
    (hbody : NoSeries atBrace body u) : NoSeries atBrace (margin ++ constantText name value ++ body) u :=
  .cons (by decide) (.constant hname hfree (hvalue _)) atBrace_word hbody

/-- The end of a body, behind the bytes of the module. -/
def endText : List Char :=
  margin ++ constantText "instance".toList instanceText ++
    (margin ++ ("return ".toList ++ "instance".toList ++ [';']) ++ ['\n'])

/-- The last statements of the body. -/
theorem series_endText : Series atBrace (fun _ => True) endText ('\x7d' :: u) := by
  refine series_constant (by decide) (by decide) (fun _ => value_instanceText) ?_
  refine .cons (by decide) (.returning ?_) atBrace_word ?_ fun _ _ _ (_ : True) => trivial
  · exact .closed (.nameValue (by decide) (by decide) (followsName_closer (by decide))) (by decide)
  · exact .nil (rests_cons (by decide)) (fun _ => rfl) (by decide) trivial

/-- The constant that the decoded bytes are bound to. -/
def bytesName (compressed : Bool) : Name := if compressed then "compressed".toList else "wasmBytecode".toList

/-- What becomes of the decoded bytes. -/
def useText (compressed : Bool) : List Char :=
  if compressed then
    margin ++ constantText "stream".toList streamText ++
      (margin ++ constantText "wasmBytecode".toList inflatedText ++ endText)
  else endText

/-- The statements behind the one with the name. -/
theorem series_useText (compressed : Bool) :
    Series atBrace (fun _ => True) (useText compressed) ('\x7d' :: u) := by
  cases compressed with
  | false => exact series_endText
  | true =>
      refine series_constant (by decide) (by decide) (fun _ => value_streamText) ?_
      exact series_constant (by decide) (by decide) (fun _ => value_inflatedText) series_endText

/-- The body of a loading function. -/
def bodyText (compressed : Bool) (name : Name) : List Char :=
  margin ++ constantText decoderName decoderText ++
    (margin ++ constantText (bytesName compressed) (decoderName ++ '(' :: (name ++ [')'])) ++
      useText compressed)

theorem isIdentifier_bytesName (compressed : Bool) :
    isIdentifier (bytesName compressed) = true ∧ isReserved (bytesName compressed) = false := by
  cases compressed <;> decide

/-- The body of a loading function is a list of statements if the name is an operand. -/
theorem series_bodyText (compressed : Bool) (hname : isIdentifier name = true)
    (hword : isOperandWord name = true) :
    Series atBrace (fun _ => True) (bodyText compressed name) ('\x7d' :: u) := by
  obtain ⟨hbytes, hfree⟩ := isIdentifier_bytesName compressed
  refine series_constant (by decide) (by decide) (fun _ => value_decoderText) ?_
  refine series_constant hbytes hfree (fun _ => ?_) (series_useText compressed)
  exact value_call (by decide) (by decide) (.closed (.inl rfl) fun _ => .word hname hword (by decide))
    (by decide)

/-- The body of a loading function up to the name. -/
def untilName (compressed : Bool) (name : Name) : List Char :=
  margin ++ constantText decoderName decoderText ++
    (margin ++ ("const ".toList ++ bytesName compressed ++ " = ".toList ++ (decoderName ++ '(' :: name)))

/-- The body is what stands up to the name, with a parenthesis and more behind it. -/
theorem exists_bodyText (compressed : Bool) (name : Name) :
    ∃ back, bodyText compressed name = untilName compressed name ++ ')' :: back := by
  refine ⟨';' :: useText compressed, ?_⟩
  unfold bodyText untilName
  generalize margin ++ constantText decoderName decoderText = front
  unfold constantText
  simp only [List.append_assoc, List.cons_append, List.nil_append]

/-- The body of a loading function is refused if the name is no operand. -/
theorem noSeries_untilName (compressed : Bool) (hname : isIdentifier name = true)
    (hword : isOperandWord name = false) : NoSeries atBrace (untilName compressed name) (')' :: u) := by
  obtain ⟨hbytes, hfree⟩ := isIdentifier_bytesName compressed
  have hcall : NoExpression 0 (decoderName ++ '(' :: name) (')' :: u) :=
    .call (by decide) (by decide) (NoOperand.word hname hword (by decide)).expression
  refine noSeries_constant (by decide) (by decide) (fun _ => value_decoderText) ?_
  exact (hcall.constant hbytes hfree).series (by decide) atBrace_word

/-! ## The loading functions

The text of a loading function is one statement. The parts above are put into its braces, and the result
is compared with the template.
-/

/-- A loading function from its heading on. -/
def functionText (rest : List Char) : List Char :=
  "async function ".toList ++ loadName ++
    '(' :: ("module".toList ++ ", ".toList ++ "imports".toList ++ ") \x7b".toList ++ rest)

/-- What stands behind belongs to the rest. -/
theorem functionText_append (rest u : List Char) : functionText rest ++ u = functionText (rest ++ u) := by
  unfold functionText
  simp only [List.append_assoc, List.cons_append]

/-- The text of a loading function for a gap. -/
def template (compressed : Bool) : Template := if compressed then inflatingLoader else plainLoader

-- The parts of the texts are computed on their characters one by one.

/-- The part of the template in front of the name. -/
theorem front_template (compressed : Bool) :
    (template compressed).front = functionText (margin ++ constantText decoderName decoderText ++
      (margin ++ ("const ".toList ++ bytesName compressed ++ " = ".toList ++ (decoderName ++ ['('])))) := by
  cases compressed with
  | false =>
      show plainLoader.front = functionText (margin ++ constantText decoderName decoderText ++
        (margin ++ ("const ".toList ++ "wasmBytecode".toList ++ " = ".toList ++ (decoderName ++ ['(']))))
      unfold plainLoader loaderHead functionText decoderText margin constantText decoderName loadName
      repeat rewrite [String.toList_append]
      repeat rewrite [String.toList_ofList]
      rfl
  | true =>
      show inflatingLoader.front = functionText (margin ++ constantText decoderName decoderText ++
        (margin ++ ("const ".toList ++ "compressed".toList ++ " = ".toList ++ (decoderName ++ ['(']))))
      unfold inflatingLoader loaderHead functionText decoderText margin constantText decoderName loadName
      repeat rewrite [String.toList_append]
      repeat rewrite [String.toList_ofList]
      rfl

/-- The part of the template behind the name. -/
theorem back_template (compressed : Bool) :
    (template compressed).back = ')' :: ';' :: (useText compressed ++ ['\x7d', '\n']) := by
  cases compressed with
  | false =>
      show plainLoader.back = ')' :: ';' :: (endText ++ ['\x7d', '\n'])
      unfold plainLoader loaderTail endText margin constantText instanceText
      repeat rewrite [String.toList_append]
      repeat rewrite [String.toList_ofList]
      rfl
  | true =>
      show inflatingLoader.back = ')' :: ';' :: (margin ++ constantText "stream".toList streamText ++
        (margin ++ constantText "wasmBytecode".toList inflatedText ++ endText) ++ ['\x7d', '\n'])
      unfold inflatingLoader loaderTail endText margin constantText streamText inflatedText instanceText
      repeat rewrite [String.toList_append]
      repeat rewrite [String.toList_ofList]
      decide +kernel

/-- A loading function has a heading, a body and a line feed behind it. -/
theorem loader_eq (compressed : Bool) (name : Name) :
    loader compressed name = functionText (bodyText compressed name ++ ['\x7d']) ++ ['\n'] := by
  have hfill : loader compressed name = (template compressed).front ++ name ++ (template compressed).back :=
    rfl
  rw [hfill, front_template, back_template, functionText_append, functionText_append, functionText_append]
  unfold bodyText
  generalize margin ++ constantText decoderName decoderText = front
  unfold constantText
  simp only [List.append_assoc, List.cons_append, List.nil_append]

theorem entries_parameters : Entries (· = .name) ')' ("module".toList ++ ", ".toList ++ "imports".toList) :=
  .cons (.inl rfl) (fun _ => .name (by decide) (by decide) (by decide)) (starts_of_isIdentifier (by decide))
    (.one (.inl rfl) fun _ => .name (by decide) (by decide) (by decide))

/-- A loading function begins with its heading and an opening brace. -/
theorem functionText_eq_heading (rest : List Char) : functionText rest = loaderHeading ++ '\x7b' :: rest := by
  have hfront : "async function ".toList ++ loadName ++ '(' ::
      ("module".toList ++ ", ".toList ++ "imports".toList ++ ") \x7b".toList) =
        loaderHeading ++ ['\x7b'] := by
    unfold loadName loaderHeading
    repeat rewrite [String.toList_ofList]
    rfl
  unfold functionText
  rw [← List.singleton_append (l := rest), ← List.append_assoc loaderHeading, ← hfront]
  simp only [List.append_assoc, List.cons_append]

/-- A loading function is its heading and its body, with a line feed behind it. -/
theorem loader_eq_heading (compressed : Bool) (name : Name) :
    loader compressed name = loaderHeading ++ '\x7b' :: (bodyText compressed name ++ '\x7d' :: ['\n']) := by
  rw [loader_eq, functionText_append, functionText_eq_heading]
  simp only [List.append_assoc, List.cons_append, List.nil_append]

/-- The body of a loading function has no brace. -/
theorem isBraceFree_bodyText (compressed : Bool) (hname : isIdentifier name = true) :
    IsBraceFree (bodyText compressed name) := by
  obtain ⟨inside, hinside, htext⟩ :=
    exists_inside_of_isBraceFree compressed (isBraceFree_of_isIdentifier hname)
  rw [loader_eq_heading] at htext
  have hinner := (List.cons.inj (List.append_cancel_left htext)).2
  rwa [List.append_cancel_right hinner]

/-- A loading function that decodes an operand is a script. Its body is what stands in its braces. -/
theorem loaderBody_of_isOperandWord (compressed : Bool) (hname : isIdentifier name = true)
    (hword : isOperandWord name = true) :
    loaderBody compressed name = .ok ('\x7b' :: (bodyText compressed name ++ ['\x7d'])) := by
  have hfunction : StatementOf
      (fun s => ∃ f, s.role = .function f ∧ f.name = loadName ∧ f.body.span.stop = s.span.stop)
      (functionText (bodyText compressed name ++ ['\x7d'])) ['\n'] :=
    .asyncFunction (by decide) (by decide) entries_parameters
      (series_bodyText compressed hname hword) ended_newline
  obtain ⟨s, hread, ⟨f, hrole, hf, hstop⟩, hspan⟩ := read?_statement hfunction (by decide)
  rw [← loader_eq] at hread
  have hfound : Outline.function? ⟨[s]⟩ loadName = some f := by
    simp [Outline.function?, Outline.functions, hrole, hf]
  refine loaderBody_eq rfl ?_
  rw [IsBodyOf, hread, Option.bind_some, hfound, Option.map_some, Option.some_inj]
  obtain ⟨-, -, -, -, hplaced⟩ :=
    Outline.isPlaced_of_mem_functions hread (Outline.mem_functions_of_function? hfound).1
  obtain ⟨u, v, w, -, hsplit, hplace⟩ := hplaced.body
  have hopens := hplaced.isBraced.opens
  rw [hplace, hsplit, Span.of_append] at hopens ⊢
  obtain ⟨v, rfl⟩ := List.head?_eq_some_iff.mp hopens
  -- The body ends where the function does, and it begins at the only opening brace.
  rw [hplace, hspan] at hstop
  have hwhole := (append_inj_of_byteCount (hsplit.symm.trans (loader_eq compressed name)) hstop).1
  have hclosed : '\x7b' ∉ bodyText compressed name ++ ['\x7d'] := by
    rw [List.mem_append, not_or]
    exact ⟨fun hmem => (isBraceFree_bodyText compressed hname _ hmem).1 rfl, by decide⟩
  rw [functionText_eq_heading, eq_comm,
    List.append_cons_inj_of_notMem (fun hmem => (isBraceFree_loaderHeading _ hmem).1 rfl) hclosed] at hwhole
  rw [hwhole.2.2]

/-- A loading function that decodes an operand is a script. -/
theorem exists_loaderBody (compressed : Bool) (hname : isIdentifier name = true)
    (hword : isOperandWord name = true) :
    ∃ body, loaderBody compressed name = .ok body := ⟨_, loaderBody_of_isOperandWord compressed hname hword⟩

/-- A loading function that decodes a word that is no operand is no script. -/
theorem loaderBody_of_not (compressed : Bool) (hname : isIdentifier name = true)
    (hword : isOperandWord name = false) : loaderBody compressed name = .error .notAScript := by
  obtain ⟨back, hbody⟩ := exists_bodyText compressed name
  have hfunction : NoStatement (functionText (untilName compressed name)) (')' :: (back ++ ['\x7d', '\n'])) :=
    .asyncFunction (by decide) (by decide) entries_parameters (noSeries_untilName compressed hname hword)
  have hseries : NoSeries atEnd ([] ++ functionText (untilName compressed name))
      (')' :: (back ++ ['\x7d', '\n'])) :=
    hfunction.series (fun _ hy => by cases hy) atEnd_word
  have hnone := read?_eq_none hseries ⟨'a', _, rfl, by decide⟩
  have htext : [] ++ functionText (untilName compressed name) ++ ')' :: (back ++ ['\x7d', '\n']) =
      loader compressed name := by
    rw [loader_eq, hbody, List.nil_append, functionText_append, functionText_append]
    simp only [List.append_assoc, List.cons_append, List.nil_append]
  rw [htext] at hnone
  unfold loaderBody
  dsimp only
  rw [hnone]

/-- A loading function can be written exactly if the name that it decodes is an operand by itself. -/
theorem loaderBody_eq_ok_iff (compressed : Bool) (hname : isIdentifier name = true) :
    (∃ body, loaderBody compressed name = .ok body) ↔ isOperandWord name = true := by
  constructor
  · rintro ⟨body, hbody⟩
    by_contra hword
    rw [loaderBody_of_not compressed hname (Bool.eq_false_iff.mpr hword)] at hbody
    cases hbody
  · exact exists_loaderBody compressed hname

end WasmEmbed.Binding
