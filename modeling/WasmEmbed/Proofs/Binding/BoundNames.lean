import WasmEmbed.Proofs.Binding.Decodes

/-!
# The names that a loading function binds

The constants of a function are read off the words of its body (`constants`): a word behind `const` names
one. Those of the written loading functions are computed once for each template, and the name that is put in
takes no part in them (`constants_of_loaderBody`). The parameters are read off the text in front of the
body, pattern by pattern (`boundNames`).
-/

namespace WasmEmbed.Binding

open Script Script.Written Text

variable {name : Name} {c : Char} {u v w : List Char}

/-! ## Words -/

/-- The words of a text, behind the beginning of a word. -/
def wordsFrom : List Char → List Char → List Name
  | w, [] => if w.isEmpty then [] else [w]
  | w, c :: rest =>
    if isWordPart c then wordsFrom (w ++ [c]) rest
    else (if w.isEmpty then [] else [w]) ++ wordsFrom [] rest

/-- The words of a text. -/
def words (text : List Char) : List Name := wordsFrom [] text

/-- A character that belongs to no word separates the words. -/
theorem wordsFrom_append (hc : isWordPart c = false) :
    wordsFrom w (u ++ c :: v) = wordsFrom w u ++ words v := by
  induction u generalizing w with
  | nil => simp [wordsFrom, words, hc]
  | cons x u ih =>
      rw [List.cons_append, wordsFrom, wordsFrom]
      split
      · exact ih
      · rw [ih, List.append_assoc]

theorem words_append (hc : isWordPart c = false) : words (u ++ c :: v) = words u ++ words v :=
  wordsFrom_append hc

theorem wordsFrom_word (hu : ∀ x ∈ u, isWordPart x = true) (hne : w ++ u ≠ []) :
    wordsFrom w u = [w ++ u] := by
  induction u generalizing w with
  | nil =>
      rw [List.append_nil] at hne ⊢
      exact if_neg fun hempty => hne (List.isEmpty_iff.mp hempty)
  | cons x u ih =>
      rw [wordsFrom, if_pos (hu x List.mem_cons_self),
        ih (fun y hy => hu y (List.mem_cons_of_mem x hy)) (by simp)]
      simp

theorem words_identifier (hname : isIdentifier name = true) : words name = [name] := by
  obtain ⟨x, rest, rfl, -⟩ := exists_cons_of_isIdentifier hname
  refine wordsFrom_word (fun y hy => ?_) (List.cons_ne_nil x rest)
  exact isWordPart_of_isIdentifierPart (Shard.isIdentifierPart_of_isIdentifier hname y hy)

/-! ## Constants -/

/-- Of some words, those behind the word `const`. -/
def declared : List Name → List Name
  | a :: b :: rest => if a = "const".toList then b :: declared (b :: rest) else declared (b :: rest)
  | _ => []

/-- The constants that a text declares. -/
def constants (text : List Char) : List Name := declared (words text)

/-- A word between others that is neither `const` nor stands behind it does not count. -/
theorem declared_append {front behind : List Name} (hfront : front.getLast? ≠ some "const".toList)
    (hname : name ≠ "const".toList) :
    declared (front ++ name :: behind) = declared front ++ declared behind := by
  induction front with
  | nil =>
      cases behind with
      | nil => rfl
      | cons b behind => exact if_neg hname
  | cons a front ih =>
      cases front with
      | nil =>
          have ha : a ≠ "const".toList := fun heq => hfront (congrArg some heq)
          exact (if_neg ha).trans (ih (by simp))
      | cons b front =>
          have hrest := ih (by rwa [List.getLast?_cons_cons] at hfront)
          rw [List.cons_append] at hrest
          rw [List.cons_append, List.cons_append, declared, declared, hrest]
          split
          · rfl
          · rfl

/-- The constants of a loading function. -/
def loaderConstants (compressed : Bool) : List Name :=
  decoderName :: bytesName compressed ::
    ((if compressed then ["stream".toList, "wasmBytecode".toList] else []) ++ ["instance".toList])

/-- The body of a loading function up to the name, from its brace on. -/
def bodyFront (compressed : Bool) : List Char :=
  '\x7b' :: (margin ++ constantText decoderName decoderText ++
    (margin ++ ("const ".toList ++ bytesName compressed ++ " = ".toList ++ decoderName)))

theorem words_bodyFront (compressed : Bool) :
    declared (words (bodyFront compressed)) = [decoderName, bytesName compressed] ∧
      (words (bodyFront compressed)).getLast? ≠ some "const".toList := by
  unfold bodyFront decoderText margin constantText decoderName
  cases compressed with
  | false =>
      unfold bytesName
      rewrite [if_neg (by decide)]
      repeat rewrite [String.toList_ofList]
      decide +kernel
  | true =>
      unfold bytesName
      rewrite [if_pos (by decide)]
      repeat rewrite [String.toList_ofList]
      decide +kernel

theorem words_useText (compressed : Bool) : declared (words (';' :: useText compressed)) =
    (if compressed then ["stream".toList, "wasmBytecode".toList] else []) ++ ["instance".toList] := by
  unfold useText endText margin constantText
  cases compressed with
  | false =>
      unfold instanceText
      rewrite [if_neg (by decide), if_neg (by decide)]
      repeat rewrite [String.toList_ofList]
      decide +kernel
  | true =>
      unfold streamText inflatedText instanceText
      rewrite [if_pos (by decide), if_pos (by decide)]
      repeat rewrite [String.toList_ofList]
      decide +kernel

/-- The body of a loading function goes on behind the name with what becomes of the decoded bytes. -/
theorem eq_bodyFront_of_loaderBody {compressed : Bool} {body : List Char} (hname : isIdentifier name = true)
    (h : loaderBody compressed name = .ok body) :
    body = bodyFront compressed ++ '(' :: (name ++ ')' :: (';' :: useText compressed ++ ['\x7d'])) := by
  have hbody :=
    loaderBody_of_isOperandWord compressed hname ((loaderBody_eq_ok_iff compressed hname).mp ⟨body, h⟩)
  obtain rfl := Except.ok.inj (h.symm.trans hbody)
  unfold bodyText bodyFront
  generalize margin ++ constantText decoderName decoderText = front
  unfold constantText
  simp only [List.append_assoc, List.cons_append, List.nil_append]

/-- The constants of the body of a loading function, whatever name it decodes. -/
theorem constants_of_loaderBody {compressed : Bool} {body : List Char} (hname : isIdentifier name = true)
    (h : loaderBody compressed name = .ok body) : constants body = loaderConstants compressed := by
  obtain rfl := eq_bodyFront_of_loaderBody hname h
  have hend : words [] = [] := rfl
  have hconst : name ≠ "const".toList := by
    rintro rfl
    have hword := (loaderBody_eq_ok_iff compressed hname).mp ⟨_, h⟩
    exact absurd hword (by decide)
  obtain ⟨hfront, hlast⟩ := words_bodyFront compressed
  rw [constants, words_append (by decide), words_append (by decide), words_append (by decide),
    words_identifier hname, hend, List.append_nil, List.singleton_append, declared_append hlast hconst,
    hfront, words_useText]
  rfl

end WasmEmbed.Binding

/-! ## Parameters -/

namespace WasmEmbed.Script.Nested

/-- What the places of a list bind, from behind its opening bracket, if `place` reads one of them. At most
`k` places are read. -/
def boundByPlaces (n : Nested) (place : Reader (List (List Char))) (close : Char) :
    Nat → Reader (List (List Char))
  | 0 => Reader.refuse
  | k + 1 => do
    n.toPlain
    let c ← get
    if c.nextIs (· == close) then
      set c.step
      pure []
    else if c.nextIs (· == ',') then
      set c.step
      n.boundByPlaces place close k
    else
      let names ← place
      n.toToken (.value false)
      let d ← get
      if d.nextIs (· == ',') then
        set d.step
        let rest ← n.boundByPlaces place close k
        pure (names ++ rest)
      else
        Reader.require (d.nextIs (· == close))
        set d.step
        pure names

/-- What an element binds: a target with its default, if there is one, or a target behind `...`. -/
def boundByElement (n : Nested) (target : Reader (List (List Char))) : Reader (List (List Char)) := do
  let c ← get
  match c.dropWord? "...".toList with
  | some d =>
    set d
    n.toPlain
    target
  | none =>
    let names ← target
    let _ ← n.initializer? .inner
    pure names

/-- What a property of an object pattern binds: what its element binds, or its own name. -/
def boundByProperty (n : Nested) (target : Reader (List (List Char))) : Reader (List (List Char)) := do
  let c ← get
  if (c.dropWord? "...".toList).isSome then n.boundByElement target
  else
    let _ ← n.memberName
    n.toPlain
    let d ← get
    if d.nextIs (· == ':') then
      set d.step
      n.toPlain
      n.boundByElement target
    else
      set c
      n.boundByElement (n.anyName.map fun name => [name])

/-- What a target binds, with at most `k` patterns in each other: a name, or what an array or an object
pattern binds. -/
def boundByTarget (n : Nested) : Nat → Reader (List (List Char))
  | 0 => Reader.refuse
  | k + 1 => do
    let c ← get
    if c.nextIs (· == '[') then
      set c.step
      n.boundByPlaces (n.boundByElement (n.boundByTarget k)) ']' n.depth
    else if c.nextIs (· == '\x7b') then
      set c.step
      n.boundByPlaces (n.boundByProperty (n.boundByTarget k)) '\x7d' n.depth
    else
      let name ← n.anyName
      pure [name]

/-- What the parameters of a function bind, from the first word of its heading. -/
def boundByParameters (n : Nested) : Reader (List (List Char)) := do
  let first ← n.anyName
  n.toPlain
  if first == "async".toList then n.word "function"
  let _ ← n.skipStar
  let _ ← n.freeName?
  n.toPlain
  Reader.exactly "("
  n.boundByPlaces (n.boundByElement (n.boundByTarget n.depth)) ')' n.depth

end WasmEmbed.Script.Nested

namespace WasmEmbed.Binding

open Script Script.Written Text

/-- The names that the parameters of a function bind, from the text in front of its body. Where that text is
no list of patterns, as the parser lets a member of an object stand among them, every word of it counts. -/
def boundNames (heading : List Char) : List Name :=
  match (Nested.ofDepth heading.length).boundByParameters (.ofText heading) with
  | some (names, _) => names
  | none => words heading

/-- Names bind themselves, keys and defaults do not. -/
example : boundNames "async function load(a, \x7bb: c = d, ...e\x7d, [f, , ...g] /* h */)".toList =
    [['a'], ['c'], ['e'], ['f'], ['g']] := by
  decide +kernel

/-- The text of a function in front of its body. -/
def heading (text : List Char) (f : FunctionDeclaration) : List Char :=
  Span.of ⟨f.span.start, f.body.span.start⟩ text

/-- The names that the parameters of a function in a text bind. -/
def parameters (text : List Char) (f : FunctionDeclaration) : List Name := boundNames (heading text f)

end WasmEmbed.Binding
