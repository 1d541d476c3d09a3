import WasmEmbed.Proofs.Script.Written.Expression

/-!
# Statements that are written

As for expressions, a text in front of another is read as a statement (`Written.StatementOf`) or as a list of
statements (`Written.Series`), with one rule for each form that the written scripts take. A script that is a
list of statements up to its end has an outline (`Written.exists_outline`).
-/

namespace WasmEmbed.Script

open Reader

variable {o k : Nat} {x : Char} {t u v w : List Char}

/-- Blanks in front of a statement are moved over. -/
theorem Nested.toStatement_margin {n : Nested} (hu : Rests u) (hn : 0 < n.depth)
    (ht : ∀ y ∈ t, isMargin y = true) :
    n.toStatement false ⟨o, t ++ u⟩ = some ([], ⟨o + byteCount t, u⟩) := by
  obtain ⟨k, hk⟩ := Nat.exists_eq_add_one.mpr hn
  have hskip := skipWhile_blanks (o := o) hu (p := isBlank) (fun _ hy => hy)
    fun y hy => isBlank_of_isMargin (ht y hy)
  rw [toStatement, hk, toStatement.go, run_get, if_neg Bool.false_ne_true, markupComment?_margin hu ht]
  dsimp only
  rw [hskip, comment?_solid hu]
  rfl

namespace Written

/-! ## The notions

A statement is read up to its end, and behind it the text that follows is read. A series of statements is
read up to a place that its reader knows: the closing brace of a block or the end of the script.
-/

/-- In front of `u`, `w` is read as a statement in `Q`, which is closed. -/
structure StatementOf (Q : Statement → Prop) (w u : List Char) : Prop where
  starts : ∃ x v, w = x :: v ∧ isIdentifierPart x = true
  reads : ∀ ⦃k⦄ o, w.length < k → Yields ((Nested.ofDepth k).statementAt) ⟨o, w ++ u⟩
    (fun closing => closing.unclosed = false ∧ Q closing.statement) u

/-- In front of `u`, where `stop` holds, `w` is read as statements in `Q`. -/
def Series (stop : Cursor → Bool) (Q : List Statement → Prop) (w u : List Char) : Prop :=
  ∀ ⦃k j⦄ o, w.length < k → w.length < j →
    Yields (Nested.statementsFrom.go (Nested.ofDepth (k + 1)) stop j (Nested.ofDepth (k + 1)).statement false)
      ⟨o, w ++ u⟩ Q u

/-! ## Lists of statements

A series is put together from its last statement on. In front of a statement that begins with a word there
is at most a margin, so none of the comments that are listed is found.
-/

/-- The closing brace of a block comes next. -/
abbrev atBrace (c : Cursor) : Bool := c.nextIs (· == '\x7d')

/-- The script is read to its end. -/
abbrev atEnd (c : Cursor) : Bool := c.rest.isEmpty

/-- A block does not end in front of a word. -/
theorem atBrace_word (o : Nat) (x : Char) (u : List Char) (hx : isIdentifierPart x = true) :
    atBrace ⟨o, x :: u⟩ = false := by
  refine beq_eq_false_iff_ne.mpr ?_
  rintro rfl
  exact absurd hx (by decide)

theorem atEnd_word (o : Nat) (x : Char) (u : List Char) (_ : isIdentifierPart x = true) :
    atEnd ⟨o, x :: u⟩ = false := rfl

section Series

variable {stop : Cursor → Bool} {P : Statement → Prop} {Q Q' : List Statement → Prop}

/-- Blanks up to the end are no statements. -/
theorem Series.nil (hu : Rests u) (hstop : ∀ o, stop ⟨o, u⟩ = true) (ht : ∀ y ∈ t, isMargin y = true)
    (hQ : Q []) : Series stop Q t u := by
  intro k j o hk hj
  obtain ⟨j, rfl⟩ : ∃ i, j = i + 1 := ⟨j - 1, by omega⟩
  rw [Yields, Nested.statementsFrom.go, run_bind (Nested.toStatement_margin hu (Nat.succ_pos k) ht), run_get,
    hstop, if_pos rfl]
  exact ⟨[], _, rfl, hQ⟩

/-- A text that begins with a character is not empty. -/
theorem length_pos_of_starts (hstarts : ∃ x w', w = x :: w' ∧ isIdentifierPart x = true) : 0 < w.length := by
  obtain ⟨x, w', rfl, -⟩ := hstarts
  exact Nat.succ_pos _

/-- Where a word comes behind the blanks, a statement is read there, and then those behind it. -/
theorem statementsFrom_word (ht : ∀ y ∈ t, isMargin y = true)
    (hstarts : ∃ x w', w = x :: w' ∧ isIdentifierPart x = true)
    (hstop : ∀ o x u, isIdentifierPart x = true → stop ⟨o, x :: u⟩ = false) (j : Nat) :
    Nested.statementsFrom.go (Nested.ofDepth (k + 1)) stop (j + 1) (Nested.ofDepth (k + 1)).statement false
        ⟨o, t ++ (w ++ u)⟩ =
      ((Nested.ofDepth k).statementAt >>= fun closing =>
        Nested.statementsFrom.go (Nested.ofDepth (k + 1)) stop j (Nested.ofDepth (k + 1)).statement
          closing.unclosed >>= fun rest => pure (closing.statement :: rest)) ⟨o + byteCount t, w ++ u⟩ := by
  obtain ⟨x, w', rfl, hx⟩ := hstarts
  have hrests : Rests (x :: w' ++ u) := rests_cons (isSolid_of_isFirm (isFirm_of_isIdentifierPart hx))
  have hnot : stop ⟨o + byteCount t, x :: w' ++ u⟩ = false := hstop _ x _ hx
  rw [Nested.statementsFrom.go, run_bind (Nested.toStatement_margin hrests (Nat.succ_pos k) ht),
    run_get, hnot, if_neg Bool.false_ne_true]
  rfl

/-- What is read as a statement in front of a list of statements makes a longer list. -/
theorem yields_cons {j : Nat} (ht : ∀ y ∈ t, isMargin y = true)
    (hstarts : ∃ x w', w = x :: w' ∧ isIdentifierPart x = true)
    (hw : Yields ((Nested.ofDepth k).statementAt) ⟨o + byteCount t, w ++ (v ++ u)⟩
      (fun closing => closing.unclosed = false ∧ P closing.statement) (v ++ u))
    (hstop : ∀ o x u, isIdentifierPart x = true → stop ⟨o, x :: u⟩ = false) (hv : Series stop Q' v u)
    (hQ : ∀ s rest, P s → Q' rest → Q (s :: rest)) (hk : (t ++ w ++ v).length < k)
    (hj : (t ++ w ++ v).length < j) :
    Yields (Nested.statementsFrom.go (Nested.ofDepth (k + 1)) stop j (Nested.ofDepth (k + 1)).statement false)
      ⟨o, t ++ w ++ v ++ u⟩ Q u := by
  have hpos : 0 < w.length := length_pos_of_starts hstarts
  simp only [List.length_append] at hk hj
  obtain ⟨j, rfl⟩ : ∃ i, j = i + 1 := ⟨j - 1, by omega⟩
  rw [show t ++ w ++ v ++ u = t ++ (w ++ (v ++ u)) by simp, Yields, statementsFrom_word ht hstarts hstop]
  refine hw.bind fun closing o' hclosing => ?_
  rw [hclosing.1]
  exact (hv o' (by omega) (by omega)).bind fun rest _ hrest => .pure (hQ _ _ hclosing.2 hrest)

/-- A statement in front of a list of statements makes a longer list. -/
theorem Series.cons (ht : ∀ y ∈ t, isMargin y = true) (hw : StatementOf P w (v ++ u))
    (hstop : ∀ o x u, isIdentifierPart x = true → stop ⟨o, x :: u⟩ = false) (hv : Series stop Q' v u)
    (hQ : ∀ s rest, P s → Q' rest → Q (s :: rest)) : Series stop Q (t ++ w ++ v) u := by
  intro k j o hk hj
  refine yields_cons ht hw.starts (hw.reads _ ?_) hstop hv hQ hk hj
  simp only [List.length_append] at hk
  omega

/-- A script that begins with a letter begins with its first statement. -/
theorem read?_eq (hstarts : ∃ x v, w = x :: v ∧ isIdentifierPart x = true) :
    Outline.read? w =
      ((Nested.ofDepth (2 * w.length + 8)).statements atEnd (.ofText w)).map fun read => ⟨read.1⟩ := by
  obtain ⟨x, v, hcons, hx⟩ := hstarts
  -- A letter is no byte order mark and begins no line that names an interpreter.
  have hne : ∀ {y : Char}, isIdentifierPart y = false → y ≠ x := by
    rintro y hy rfl
    rw [hy] at hx
    cases hx
  have hmark : Outline.skipMark (.ofText w) = .ofText w := by
    rw [Outline.skipMark, hcons]
    exact if_neg (by simpa [Cursor.nextIs, Cursor.ofText] using (hne (y := '\ufeff') (by decide)).symm)
  have hinterpreter : Outline.skipInterpreter (.ofDepth (2 * w.length + 8)) (.ofText w) = .ofText w := by
    have hword : Cursor.dropWord? "#!".toList (.ofText w) = none := by
      rw [hcons]
      show Cursor.dropWord? ('#' :: "!".toList) _ = none
      exact Cursor.dropWord?_cons_ne (hne (by decide))
    have hgap : Gap.find .plain (2 * w.length + 8) (.ofText w) = .token (.ofText w) false := by
      rw [hcons]
      exact Gap.find_firm (isFirm_of_isIdentifierPart hx) _ (by omega)
    have hdepth : (Nested.ofDepth (2 * w.length + 8)).depth = 2 * w.length + 8 := rfl
    rw [Outline.skipInterpreter, hdepth, hgap]
    dsimp only
    rw [hword]
  rw [Outline.read?, Outline.reader, run_get, hmark, hinterpreter, run_set]
  cases hread : (Nested.ofDepth (2 * w.length + 8)).statements atEnd (.ofText w) with
  | none =>
      show Option.map _ (Option.bind _ _) = _
      rw [hread]
      rfl
  | some read =>
      show Option.map _ (Option.bind _ _) = _
      rw [hread]
      rfl

/-- What is read as statements from the beginning of a text up to its end is what its outline lists. -/
theorem exists_outline_of_yields
    (hw : Yields ((Nested.ofDepth (2 * w.length + 8)).statements atEnd) (.ofText w) Q [])
    (hstarts : ∃ x v, w = x :: v ∧ isIdentifierPart x = true) :
    ∃ o, Outline.read? w = some o ∧ Q o.statements := by
  obtain ⟨statements, o, hread, hQ⟩ := hw
  refine ⟨⟨statements⟩, ?_, hQ⟩
  rw [read?_eq hstarts, hread]
  rfl

/-- A list of statements up to the end is a script. -/
theorem exists_outline (hw : Series atEnd Q w [])
    (hstarts : ∃ x v, w = x :: v ∧ isIdentifierPart x = true) :
    ∃ o, Outline.read? w = some o ∧ Q o.statements := by
  have hread := hw (k := 2 * w.length + 7) (j := 2 * w.length + 8) 0 (by omega) (by omega)
  rw [List.append_nil] at hread
  exact exists_outline_of_yields hread hstarts

/-- Statements in braces are a block. -/
theorem Series.block (hw : Series atBrace Q w ('\x7d' :: u))
    (hk : w.length + 1 < k) :
    Yields (Nested.ofDepth k).block ⟨o, '\x7b' :: (w ++ '\x7d' :: u)⟩ (fun _ => True) u := by
  obtain ⟨k, rfl⟩ : ∃ j, k = j + 1 := ⟨k - 1, by omega⟩
  refine .get (.bind_eq (b := ()) (d := ⟨o + 1, w ++ '\x7d' :: u⟩) rfl ?_)
  refine Yields.seq (hw (o + 1) (by omega) (show w.length < k + 1 by omega)) fun statements o' => ?_
  exact .bind_eq (b := ()) (d := ⟨o' + 1, u⟩) rfl (.get (.pure trivial))

end Series

/-! ## The end of a statement

The written statements end with a semicolon, except a function, which ends with its brace.
-/

/-- A semicolon that is written ends a statement. -/
theorem terminator_semicolon (operator : Bool) (hk : 0 < k) :
    (Nested.ofDepth k).terminator operator ⟨o, ';' :: u⟩ = some ((), ⟨o + 1, u⟩) := by
  rw [Nested.terminator, run_look (Gap.find_firm (by decide) _ hk)]
  rfl

/-- An expression without commas is a list of expressions in front of a semicolon. -/
theorem Expression.list (hw : Expression IsValue 0 w (';' :: u)) (hk : w.length + 1 < k) :
    Yields ((Nested.ofDepth k).expressions .outer) ⟨o, w ++ ';' :: u⟩ (fun _ => True) (';' :: u) := by
  refine (hw.value .outer hk).seq fun _ o' => ?_
  obtain ⟨k, rfl⟩ : ∃ j, k = j + 1 := ⟨k - 1, by omega⟩
  show Yields (Nested.expressions.more (Nested.ofDepth (k + 1)) .outer (k + 1)) _ _ _
  rw [Nested.expressions.more]
  exact .look (Gap.find_firm (by decide) _ (Nat.succ_pos k)) (.pure trivial)

/-! ## Forms of statements

Each form is read by the reader for its first word. Behind the word the parts are read in their order, so
the proofs follow the definition of that reader.
-/

section Forms

variable {P : Statement → Prop} {name : List Char}

/-- A name that is not reserved is read as one. -/
theorem freeName_identifier {n : Nested} (hname : isIdentifier name = true) (hfree : isReserved name = false)
    (hu : EndsName u) : n.freeName ⟨o, name ++ u⟩ = some (name, ⟨o + byteCount name, u⟩) := by
  have hany : n.anyName ⟨o, name ++ u⟩ = some (name, ⟨o + byteCount name, u⟩) :=
    Nested.nameAt?_identifier hname hu n
  rw [Nested.freeName, run_bind hany, hfree]
  rfl

/-- A constant is bound to an identifier. -/
theorem binding_identifier (hname : isIdentifier name = true) (hfree : isReserved name = false)
    (hu : EndsName u) (hk : 0 < k) :
    Yields (Nested.ofDepth k).binding ⟨o, ' ' :: (name ++ u)⟩ (fun _ => True) u := by
  obtain ⟨x, v, hcons, hx, -⟩ := exists_cons_of_isIdentifier hname
  refine .bind_eq (toPlain_space (starts_of_isIdentifier hname) hk) (.get ?_)
  -- A pattern would begin with a bracket.
  split
  · next heq =>
      rw [hcons] at heq
      obtain rfl := (List.cons.inj heq).1
      exact absurd hx (by decide)
  · next heq =>
      rw [hcons] at heq
      obtain rfl := (List.cons.inj heq).1
      exact absurd hx (by decide)
  · exact .bind_eq (freeName_identifier hname hfree hu) (.pure trivial)

/-- A declaration of a constant is a statement. -/
theorem StatementOf.constant (hname : isIdentifier name = true) (hfree : isReserved name = false)
    (hw : Expression IsValue 0 w (';' :: u)) :
    StatementOf (fun _ => True) ("const ".toList ++ name ++ " = ".toList ++ w ++ [';']) u where
  starts := ⟨'c', _, rfl, by decide⟩
  reads := by
    intro k o hk
    have hspace : "const ".toList = "const".toList ++ [' '] := by decide
    have hequals : " = ".toList = [' ', '=', ' '] := by decide
    rw [hspace, hequals] at hk ⊢
    simp only [List.length_append, List.length_cons, List.length_nil] at hk
    rw [show "const".toList ++ [' '] ++ name ++ [' ', '=', ' '] ++ w ++ [';'] ++ u =
      "const".toList ++ ' ' :: (name ++ ' ' :: '=' :: ' ' :: (w ++ ';' :: u)) by simp]
    rw [Yields, Nested.statementAt, run_get,
      Nested.nameAt?_identifier (by decide) (endsName_cons (by decide))]
    show Yields (set _ >>= fun _ => Nested.declarators _ _ _) _ _ _
    refine .set (Yields.bind (Q := fun initialized => initialized = true) (t := ';' :: u) ?_ ?_)
    · obtain ⟨k, rfl⟩ : ∃ j, k = j + 1 := ⟨k - 1, by omega⟩
      show Yields (Nested.bindings (Nested.ofDepth (k + 1)) (k + 1)) _ _ _
      rw [Nested.bindings]
      refine (binding_identifier hname hfree (endsName_cons (by decide)) (Nat.succ_pos k)).seq fun _ _ => ?_
      refine Yields.bind (Q := fun initialized => initialized = true) (t := ';' :: u) ?_ ?_
      · refine .look (Gap.find_space (by decide) _ (Nat.succ_pos k)) ?_
        exact .set ((hw.value_space .outer (by omega)).seq fun _ _ => .pure rfl)
      · rintro _ o' rfl
        exact .look (Gap.find_firm (by decide) _ (Nat.succ_pos k)) (.pure rfl)
    · rintro _ o' rfl
      exact .bind_eq (terminator_semicolon true (by omega)) (.get (.pure ⟨rfl, trivial⟩))

/-- The return of a value is a statement. -/
theorem StatementOf.returning (hw : Expression IsValue 0 w (';' :: u)) :
    StatementOf (fun _ => True) ("return ".toList ++ w ++ [';']) u where
  starts := ⟨'r', _, rfl, by decide⟩
  reads := by
    intro k o hk
    have hspace : "return ".toList = "return".toList ++ [' '] := by decide
    rw [hspace] at hk ⊢
    simp only [List.length_append, List.length_cons, List.length_nil] at hk
    obtain ⟨x, w', hcons, hx⟩ := hw.starts
    have hgap : ∀ o, Gap.find .ends k ⟨o, ' ' :: (w ++ ';' :: u)⟩ = .token ⟨o + 1, w ++ ';' :: u⟩ false := by
      intro o
      rw [hcons]
      exact Gap.find_space (isFirm_of_beginsOperand hx) _ (by omega)
    have hcomment : ∀ o, Nested.opensMarkupComment ⟨o, w ++ ';' :: u⟩ = false := by
      intro o
      have hopen : Cursor.dropWord? "<!--".toList ⟨o, w ++ ';' :: u⟩ = none := by
        show Cursor.dropWord? ('<' :: "!--".toList) _ = none
        exact hw.starts.dropWord?_eq_none (by decide)
      have hclose : Cursor.dropWord? "-->".toList ⟨o, w ++ ';' :: u⟩ = none := by
        show Cursor.dropWord? ('-' :: "->".toList) _ = none
        exact hw.starts.dropWord?_eq_none (by decide)
      rw [Nested.opensMarkupComment, hopen, hclose]
      rfl
    rw [show "return".toList ++ [' '] ++ w ++ [';'] ++ u = "return".toList ++ ' ' :: (w ++ ';' :: u) by simp]
    rw [Yields, Nested.statementAt, run_get,
      Nested.nameAt?_identifier (by decide) (endsName_cons (by decide))]
    show Yields (set _ >>= fun _ => Nested.returnStatement _ _) _ _ _
    refine .set (.look (hgap _) (.set ?_))
    rw [hw.starts.nextIs_eq_false (by decide), if_neg Bool.false_ne_true]
    refine .require (by rw [hcomment]; rfl) ((Expression.list hw (by omega)).seq fun _ o' => ?_)
    exact .bind_eq (terminator_semicolon true (by omega)) (.get (.pure ⟨rfl, trivial⟩))

/-- The word `from`, behind which a string is read. -/
theorem fromClause_word (hk : 0 < k) :
    (Nested.ofDepth k).fromClause ⟨o, "from".toList ++ ' ' :: '\'' :: u⟩ =
      (Reader.move (Token.string? k) >>= fun _ => MonadState.get >>= fun d =>
        pure (((⟨o + byteCount "from".toList + 1, '\'' :: u⟩ : Cursor).textUpTo d).drop 1).dropLast :
          Reader (List Char)) ⟨o + byteCount "from".toList + 1, '\'' :: u⟩ := by
  have hany : (Nested.ofDepth k).anyName ⟨o, "from".toList ++ ' ' :: '\'' :: u⟩ = some ("from".toList, _) :=
    Nested.nameAt?_identifier (by decide) (endsName_cons (by decide)) _
  have hword : (Nested.ofDepth k).word "from" ⟨o, "from".toList ++ ' ' :: '\'' :: u⟩ =
      some ((), ⟨o + byteCount "from".toList, ' ' :: '\'' :: u⟩) := by
    rw [Nested.word, run_bind hany]
    rfl
  rw [Nested.fromClause, run_bind (toPlain_starts (starts_of_isIdentifier (by decide)) hk), run_bind hword,
    Nested.stringText, run_bind (Nested.toPlain_space (by decide) hk)]
  rfl

/-- The word `from` with a module between quotes is read as one. -/
theorem fromClause_plain {specifier : List Char} (hspecifier : ∀ y ∈ specifier, Token.isPlain '\'' y = true)
    (hk : 1 < k) :
    Yields (Nested.ofDepth k).fromClause ⟨o, "from".toList ++ ' ' :: '\'' :: (specifier ++ '\'' :: u)⟩
      (· = specifier) u := by
  have hread := string?_plain (o := o + byteCount "from".toList + 1) (u := u) (.inr rfl) hspecifier hk
  rw [Yields, fromClause_word (by omega), run_move hread]
  refine Yields.get (.pure ?_)
  have hfront : '\'' :: (specifier ++ '\'' :: u) = '\'' :: (specifier ++ ['\'']) ++ u := by simp
  have hquote : Char.utf8Size '\'' = 1 := by decide
  have hlength : byteCount ('\'' :: (specifier ++ ['\''])) = byteCount specifier + 2 := by
    rw [byteCount_cons, byteCount_append, byteCount_cons, hquote, Nat.add_comm]
    rfl
  rw [Cursor.textUpTo_eq hfront (by dsimp only; omega)]
  simp

/-- In front of a semicolon stand no attributes of an import. -/
theorem importAttributes_semicolon (hk : 0 < k) :
    (Nested.ofDepth k).importAttributes ⟨o, ';' :: u⟩ = some ((), ⟨o, ';' :: u⟩) := by
  have hword : (Nested.ofDepth k).wordAt ⟨o, ';' :: u⟩ = "" := by rw [Nested.wordAt, nameAt?_sign (by decide)]
  rw [Nested.importAttributes, run_look (Gap.find_firm (by decide) _ hk)]
  dsimp only
  rw [hword]
  rfl

/-- What is read behind a gap at whose end a token stands. -/
def atToken (behind : Cursor → Reader Closing) : Gap → Reader Closing
  | .token d _ => behind d
  | _ => Reader.refuse

theorem atToken_token {behind : Cursor → Reader Closing} {d : Cursor} {conditional : Bool} :
    atToken behind (.token d conditional) = behind d := rfl

/-- What is read behind a cursor that was found, or else. -/
def ifFound (found : Option Cursor) (behind : Cursor → Reader Closing) (otherwise : Reader Closing) :
    Reader Closing :=
  match found with
  | some d => behind d
  | none => otherwise

theorem ifFound_some {behind : Cursor → Reader Closing} {d : Cursor} {otherwise : Reader Closing} :
    ifFound (some d) behind otherwise = behind d := rfl

/-- What is read behind the module of an import of a default. -/
def importEnd (n : Nested) (start : Nat) (name specifier : List Char) : Reader Closing := do
  n.importAttributes
  n.terminator false
  let stop ← get
  let span : Span := ⟨start, stop.offset⟩
  pure ⟨⟨⟨.importStatement, span⟩, .importing ⟨span, some name, [], specifier⟩⟩, false⟩

/-- An import of a default is read up to the module that it names. -/
theorem statementAt_importing (hname : isIdentifier name = true) (hfree : isReserved name = false)
    (hk : 0 < k) :
    (Nested.ofDepth k).statementAt ⟨o, "import ".toList ++ name ++ " from '".toList ++ u⟩ =
      ((Nested.ofDepth k).fromClause >>= importEnd (.ofDepth k) o name)
        ⟨o + byteCount "import".toList + 1 + byteCount name + 1, "from".toList ++ ' ' :: '\'' :: u⟩ := by
  have hstarts := starts_of_isIdentifier hname
  have hspace : "import ".toList = "import".toList ++ [' '] := by decide
  have hfrom : " from '".toList = ' ' :: "from".toList ++ [' ', '\''] := by decide
  generalize htail : ' ' :: ("from".toList ++ ' ' :: '\'' :: u) = tail
  have hends : EndsName tail := by
    rw [← htail]
    exact endsName_cons (by decide)
  rw [show "import ".toList ++ name ++ " from '".toList ++ u = "import".toList ++ ' ' :: (name ++ tail) by
    rw [hspace, hfrom, ← htail]
    simp]
  rw [Nested.statementAt, run_get, Nested.nameAt?_identifier (by decide) (endsName_cons (by decide))]
  -- What follows the word is no parenthesis, point or question mark, so this is no expression.
  have hgap : ∀ o, Gap.find .plain k ⟨o, ' ' :: (name ++ tail)⟩ = .token ⟨o + 1, name ++ tail⟩ false := by
    intro o
    obtain ⟨x, name', rfl, hx⟩ := exists_firm_of_isIdentifier hname
    exact Gap.find_space hx _ hk
  show atToken _ (Gap.find .plain k _) _ = _
  rw [hgap, atToken_token, nextIs_identifier hname (by decide +kernel), if_neg Bool.false_ne_true]
  dsimp only
  rw [run_set, Nested.importStatement, run_bind (toPlain_space hstarts hk), run_get,
    nextIs_identifier hname (by decide +kernel), if_neg Bool.false_ne_true,
    Nested.nameAt?_identifier hname hends, Option.isSome_some, if_pos rfl]
  rw [run_bind (freeName_identifier hname hfree hends), ← htail,
    run_bind (toPlain_space (starts_of_isIdentifier (by decide)) hk), run_get,
    (starts_of_isIdentifier (by decide)).nextIs_eq_false (by decide), if_neg Bool.false_ne_true]
  rfl

/-- An import of a default is a statement. -/
theorem StatementOf.importing {specifier : List Char} (hname : isIdentifier name = true)
    (hfree : isReserved name = false) (hspecifier : ∀ y ∈ specifier, Token.isPlain '\'' y = true) :
    StatementOf (fun s => ∃ span, s = ⟨⟨.importStatement, span⟩, .importing ⟨span, some name, [], specifier⟩⟩)
      ("import ".toList ++ name ++ " from '".toList ++ specifier ++ "';".toList) u where
  starts := ⟨'i', _, rfl, by decide⟩
  reads := by
    intro k o hk
    have hend : "';".toList = ['\'', ';'] := by decide
    rw [hend] at hk ⊢
    simp only [List.length_append, List.length_cons, List.length_nil] at hk
    have hpos : 0 < k := by omega
    rw [show "import ".toList ++ name ++ " from '".toList ++ specifier ++ ['\'', ';'] ++ u =
      "import ".toList ++ name ++ " from '".toList ++ (specifier ++ '\'' :: ';' :: u) by simp]
    rw [Yields, statementAt_importing hname hfree hpos]
    refine (fromClause_plain hspecifier (by omega)).bind fun _ o' hread => ?_
    rw [hread]
    exact .bind_eq (importAttributes_semicolon hpos)
      (.bind_eq (terminator_semicolon false hpos) (.get (.pure ⟨rfl, _, rfl⟩)))

/-! ### Functions -/

/-- A text behind which a declaration ends without a semicolon. -/
def Ended (u : List Char) : Prop :=
  ∀ ⦃k⦄ o, 0 < k → Gap.find (.value true) k ⟨o, u⟩ = .semicolon ⟨o, u⟩

theorem ended_nil : Ended [] := by
  intro k o hk
  obtain ⟨k, rfl⟩ := Nat.exists_eq_add_one.mpr hk
  rfl

theorem ended_newline : Ended ['\n'] := by
  intro k o hk
  obtain ⟨k, rfl⟩ := Nat.exists_eq_add_one.mpr hk
  rfl

/-- The heading of a function with a name and with names as parameters. -/
theorem heading_named (hname : isIdentifier name = true) (hfree : isReserved name = false)
    (ht : Entries (· = .name) ')' t) (hk : t.length + 1 < k) :
    Yields (Nested.ofDepth k).heading ⟨o, ' ' :: (name ++ '(' :: (t ++ ')' :: ' ' :: '\x7b' :: u))⟩
      (fun h => h.name = some name) ('\x7b' :: u) := by
  have hpos : 0 < k := by omega
  have hstarts := starts_of_isIdentifier hname
  have hstar : (Nested.ofDepth k).skipStar ⟨o, ' ' :: (name ++ '(' :: (t ++ ')' :: ' ' :: '\x7b' :: u))⟩ =
      some (false, ⟨o + 1, name ++ '(' :: (t ++ ')' :: ' ' :: '\x7b' :: u)⟩) := by
    rw [Nested.skipStar, run_bind (toPlain_space hstarts hpos), run_get, hstarts.nextIs_eq_false (by decide)]
    rfl
  have hfreeName : (Nested.ofDepth k).freeName? ⟨o + 1, name ++ '(' :: (t ++ ')' :: ' ' :: '\x7b' :: u)⟩ =
      some (some name, ⟨o + 1 + byteCount name, '(' :: (t ++ ')' :: ' ' :: '\x7b' :: u)⟩) := by
    rw [Nested.freeName?, run_bind (toPlain_starts hstarts hpos), run_get,
      Nested.nameAt?_identifier hname (endsName_cons (by decide))]
    dsimp only
    rw [run_require (by rw [hfree]; rfl)]
    rfl
  refine .bind_eq hstar (.bind_eq hfreeName (.bind_eq (Nested.toPlain_firm (by decide) hpos) ?_))
  refine Yields.seq (Q := fun _ => True) ?_ fun _ o' =>
    .bind_eq (Nested.toPlain_space (by decide) hpos) (.pure rfl)
  obtain ⟨k, rfl⟩ : ∃ j, k = j + 1 := ⟨k - 1, by omega⟩
  refine .bind_eq (b := ()) (d := ⟨_, t ++ ')' :: ' ' :: '\x7b' :: u⟩) rfl ?_
  refine Yields.bind (ht _ _ (by omega) (show t.length < k + 1 by omega)) fun entries o' hentries => ?_
  exact .require_last (areParameters_of_names hentries.2) trivial

/-- The heading of a function without a name and without parameters. -/
theorem heading_anonymous (hk : 0 < k) :
    Yields (Nested.ofDepth k).heading ⟨o, "() \x7b".toList ++ u⟩ (fun h => h.name = none) ('\x7b' :: u) := by
  have htext : "() \x7b".toList ++ u = '(' :: ')' :: ' ' :: '\x7b' :: u := rfl
  have hstar : (Nested.ofDepth k).skipStar ⟨o, '(' :: ')' :: ' ' :: '\x7b' :: u⟩ =
      some (false, ⟨o, '(' :: ')' :: ' ' :: '\x7b' :: u⟩) := by
    rw [Nested.skipStar, run_bind (Nested.toPlain_firm (by decide) hk)]
    rfl
  have hfreeName : (Nested.ofDepth k).freeName? ⟨o, '(' :: ')' :: ' ' :: '\x7b' :: u⟩ =
      some (none, ⟨o, '(' :: ')' :: ' ' :: '\x7b' :: u⟩) := by
    rw [Nested.freeName?, run_bind (Nested.toPlain_firm (by decide) hk), run_get, nameAt?_sign (by decide)]
    rfl
  have hparameters : (Nested.ofDepth k).parameters ⟨o, '(' :: ')' :: ' ' :: '\x7b' :: u⟩ =
      some ((), ⟨o + 2, ' ' :: '\x7b' :: u⟩) := by
    rw [Nested.parameters, run_bind (b := ()) (d := ⟨o + 1, ')' :: ' ' :: '\x7b' :: u⟩) rfl,
      run_bind (entries_nothing hk)]
    rfl
  rw [htext]
  refine .bind_eq hstar (.bind_eq hfreeName (.bind_eq (Nested.toPlain_firm (by decide) hk) ?_))
  exact .bind_eq hparameters (.bind_eq (Nested.toPlain_space (by decide) hk) (.pure rfl))

variable {Q : List Statement → Prop} {body : List Char}

/-- Behind the word `async`, the word `function` opens a declaration. -/
theorem asyncFunction?_word (hu : EndsName u) (hk : 0 < k) :
    (Nested.ofDepth k).asyncFunction? (.value true) ⟨o, ' ' :: ("function".toList ++ u)⟩ =
      some ⟨o + 1 + byteCount "function".toList, u⟩ := by
  have hgap : Gap.find (.value true) k ⟨o, ' ' :: ("function".toList ++ u)⟩ =
      .token ⟨o + 1, "function".toList ++ u⟩ false := Gap.find_space (x := 'f') (by decide) _ hk
  have hdepth : (Nested.ofDepth k).depth = k := rfl
  rw [Nested.asyncFunction?, hdepth, hgap]
  dsimp only
  rw [Nested.nameAt?_identifier (by decide) hu]
  rfl

/-- A declaration of an asynchronous function is a statement that ends with the body. -/
theorem StatementOf.asyncFunction (hname : isIdentifier name = true) (hfree : isReserved name = false)
    (ht : Entries (· = .name) ')' t)
    (hbody : Series atBrace Q body ('\x7d' :: u)) (hu : Ended u) :
    StatementOf (fun s => ∃ f, s.role = .function f ∧ f.name = name ∧ f.body.span.stop = s.span.stop)
      ("async function ".toList ++ name ++ '(' :: (t ++ ") \x7b".toList ++ (body ++ ['\x7d']))) u where
  starts := ⟨'a', _, rfl, by decide⟩
  reads := by
    intro k o hk
    have hfunction : "async function ".toList = "async".toList ++ ' ' :: "function".toList ++ [' '] := by
      decide
    have hopen : ") \x7b".toList = [')', ' ', '\x7b'] := by decide
    rw [hfunction, hopen] at hk ⊢
    simp only [List.length_append, List.length_cons, List.length_nil] at hk
    have hpos : 0 < k := by omega
    rw [show "async".toList ++ ' ' :: "function".toList ++ [' '] ++ name ++
      '(' :: (t ++ [')', ' ', '\x7b'] ++ (body ++ ['\x7d'])) ++ u =
        "async".toList ++ ' ' :: ("function".toList ++
        ' ' :: (name ++ '(' :: (t ++ ')' :: ' ' :: '\x7b' :: (body ++ '\x7d' :: u)))) by simp]
    generalize htail : ' ' :: (name ++ '(' :: (t ++ ')' :: ' ' :: '\x7b' :: (body ++ '\x7d' :: u))) = tail
    have hends : EndsName tail := by
      rw [← htail]
      exact endsName_cons (by decide)
    rw [Yields, Nested.statementAt, run_get,
      Nested.nameAt?_identifier (by decide) (endsName_cons (by decide))]
    show Yields (ifFound ((Nested.ofDepth k).asyncFunction? (.value true) _) _ _) _ _ _
    rw [asyncFunction?_word hends hpos, ifFound_some, ← htail]
    refine .set ((heading_named hname hfree ht (by omega)).bind fun heading o' hheading => ?_)
    refine (hbody.block (by omega)).seq fun block o'' => ?_
    rw [hheading]
    -- Nothing goes on behind the body.
    have hcontinues : (Nested.ofDepth k).continues (.value true) ⟨o'', u⟩ = some (false, ⟨o'', u⟩) := by
      rw [Nested.continues, run_look (hu o'' hpos)]
      rfl
    have hclosed : (Nested.ofDepth k).skipSemicolon true ⟨o'', u⟩ = some (true, ⟨o'', u⟩) := by
      rw [Nested.skipSemicolon,
        run_look (show Gap.find ⟨true, true⟩ (Nested.ofDepth k).depth _ = _ from hu o'' hpos)]
      rfl
    refine .bind_eq hcontinues (.bind_eq hclosed (.get (.pure ⟨rfl, _, rfl, rfl, rfl⟩)))

/-! ### Exports -/

/-- A value that is exported as the default. -/
def defaultValue (n : Nested) (start : Cursor) : Reader Closing := do
  n.valueOf .outer Level.lowest
  n.terminator true
  Nested.finish start .expressionStatement false

/-- A statement is closed and declares nothing. -/
def IsPlain (closing : Closing) : Prop := closing.unclosed = false ∧ closing.statement.role = .plain

/-- What is exported as the default stands behind two words. -/
theorem StatementOf.exportDefault (hw : Starts w)
    (hread : ∀ ⦃k⦄ c o, w.length < k →
      Yields ((Nested.ofDepth k).exportedDeclaration .defaultExport (defaultValue (.ofDepth k) c))
        ⟨o, w ++ u⟩ IsPlain u) :
    StatementOf (fun s => s.role = .plain) ("export default ".toList ++ w) u where
  starts := ⟨'e', _, rfl, by decide⟩
  reads := by
    intro k o hk
    have hwords : "export default ".toList = "export".toList ++ ' ' :: "default".toList ++ [' '] := by decide
    rw [hwords] at hk ⊢
    simp only [List.length_append, List.length_cons, List.length_nil] at hk
    have hpos : 0 < k := by omega
    have hstarts : Starts "default".toList := starts_of_isIdentifier (by decide)
    have hends : EndsName (' ' :: (w ++ u)) := endsName_cons (by decide)
    rw [show "export".toList ++ ' ' :: "default".toList ++ [' '] ++ w ++ u =
      "export".toList ++ ' ' :: ("default".toList ++ ' ' :: (w ++ u)) by simp]
    rw [Yields, Nested.statementAt, run_get,
      Nested.nameAt?_identifier (by decide) (endsName_cons (by decide))]
    show Yields (Nested.exportStatement _ _) _ _ _
    refine .bind_eq (toPlain_space hstarts hpos) (.get ?_)
    rw [hstarts.nextIs_eq_false (by decide), hstarts.nextIs_eq_false (by decide),
      Nested.wordAt_identifier (by decide) hends, if_neg Bool.false_ne_true, if_neg Bool.false_ne_true,
      if_pos (by decide)]
    refine .bind_eq (Nested.nameAt?_identifier (by decide) hends _) (.bind_eq (toPlain_space hw hpos) ?_)
    exact (hread _ _ (by omega)).bind fun closing _ hclosing => .get (.pure hclosing)

/-- A value behind the words `export default` is a statement. -/
theorem StatementOf.exportValue (hw : Expression IsValue 0 ('"' :: w) (';' :: u)) :
    StatementOf (fun s => s.role = .plain) ("export default ".toList ++ ('"' :: w ++ [';'])) u := by
  refine .exportDefault ⟨'"', _, rfl, by decide⟩ fun k c o hk => ?_
  have hk' : ('"' :: w).length + 1 < k := by simpa using hk
  rw [Yields, Nested.exportedDeclaration, run_get, show ('"' :: w ++ [';']) ++ u =
    '"' :: (w ++ ';' :: u) by simp]
  -- No declaration begins with a quote.
  rw [nameAt?_sign (by decide)]
  refine (hw.value .outer hk').seq fun _ o' => ?_
  exact .bind_eq (terminator_semicolon true (by omega)) (.get (.pure ⟨rfl, rfl⟩))

/-- A function without a name and parameters behind the words `export default` is a statement at the end of a
script. -/
theorem StatementOf.exportFunction (hbody : Series atBrace Q body ('\x7d' :: [])) :
    StatementOf (fun s => s.role = .plain)
      ("export default ".toList ++ ("function".toList ++ "() \x7b".toList ++ body ++ ['\x7d'])) [] := by
  refine .exportDefault ⟨'f', _, rfl, by decide⟩ fun k c o hk => ?_
  simp only [List.length_append, List.length_cons, List.length_nil] at hk
  have hpos : 0 < k := by omega
  rw [show "function".toList ++ "() \x7b".toList ++ body ++ ['\x7d'] ++ [] =
    "function".toList ++ ("() \x7b".toList ++ (body ++ ['\x7d'])) by simp]
  have hends : EndsName ("() \x7b".toList ++ (body ++ ['\x7d'])) := endsName_cons (x := '(') (by decide)
  rw [Yields, Nested.exportedDeclaration, run_get, Nested.nameAt?_identifier (by decide) hends]
  show Yields (Nested.functionStatement _ _ false .defaultExport) _ _ _
  refine (heading_anonymous hpos).bind fun heading o' hheading => ?_
  refine (hbody.block (by omega)).seq fun block o'' => ?_
  rw [hheading]
  -- A function without a name is a value; at the end of the script it is a whole one.
  have hgap : Gap.find ⟨true, true⟩ (Nested.ofDepth k).depth ⟨o'', []⟩ = .semicolon ⟨o'', []⟩ :=
    ended_nil o'' hpos
  have hclimb : (Nested.ofDepth k).climb .outer Level.lowest (Nested.ofDepth k).depth .primary ⟨o'', []⟩ =
      some (.primary, ⟨o'', []⟩) := by
    obtain ⟨k, rfl⟩ := Nat.exists_eq_add_one.mpr hpos
    show Nested.climb _ _ _ (k + 1) _ _ = _
    rw [Nested.climb, run_look (show Gap.find (Nested.followOf .outer .primary) _ _ = _ from hgap)]
    rfl
  refine .bind_eq (b := ()) (d := ⟨o'', []⟩) ?_
    (.bind_eq (b := ()) (d := ⟨o'', []⟩) ?_ (.get (.pure ⟨rfl, rfl⟩)))
  · rw [Nested.expressionBehind, run_bind hclimb]
    rfl
  · rw [Nested.terminator, run_look hgap]
    rfl

end Forms

end Written

end WasmEmbed.Script
