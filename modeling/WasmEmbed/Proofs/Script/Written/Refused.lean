import WasmEmbed.Proofs.Script.Written.Statement

/-!
# Texts that are refused

A construct is refused if a part of it is, whatever stands behind that part. So here a text `w` ends with
the part that is refused in front of `u`: as an operand (`Written.NoOperand`), as an expression
(`Written.NoExpression`), as a statement (`Written.NoStatement`) or as statements (`Written.NoSeries`). A
word with a meaning of its own is refused where an expression ends behind it, unless it is an operand by
itself (`Written.NoOperand.word`).
-/

namespace WasmEmbed.Script

open Reader

variable {o k : Nat} {x : Char} {t u v w : List Char}

namespace Reader

variable {α β : Type} {c : Cursor}

/-- If the first part refuses, so does the whole. -/
theorem bind_none {r : Reader β} {f : β → Reader α} (h : r c = none) : (r >>= f) c = none :=
  Option.bind_eq_none_iff.mpr fun _ hread => nomatch h.symm.trans hread

/-- If the first part is read and the second one refuses, so does the whole. -/
theorem Yields.bind_none {r : Reader β} {f : β → Reader α} {Q : β → Prop} (hr : Yields r c Q t)
    (hf : ∀ b o, Q b → f b ⟨o, t⟩ = none) : (r >>= f) c = none := by
  obtain ⟨b, o, hb, hQ⟩ := hr
  exact (run_bind hb).trans (hf b o hQ)

end Reader

namespace Written

/-- In front of `u`, `w` is refused as an operand. -/
structure NoOperand (w u : List Char) : Prop where
  starts : Starts w
  refuses : ∀ ⦃k⦄ m o, w.length < k → (Nested.ofDepth k).operandAt m ⟨o, w ++ u⟩ = none

/-- In front of `u`, `w` is refused as an expression. -/
structure NoExpression (floor : Nat) (w u : List Char) : Prop where
  starts : Starts w
  refuses : ∀ ⦃k⦄ m o, w.length < k → (Nested.ofDepth k).expressionAt m floor ⟨o, w ++ u⟩ = none

/-- In front of `u`, `w` is refused as a statement. -/
structure NoStatement (w u : List Char) : Prop where
  starts : ∃ x v, w = x :: v ∧ isIdentifierPart x = true
  refuses : ∀ ⦃k⦄ o, w.length < k → (Nested.ofDepth k).statementAt ⟨o, w ++ u⟩ = none

/-- In front of `u`, `w` is refused as statements. -/
def NoSeries (stop : Cursor → Bool) (w u : List Char) : Prop :=
  ∀ ⦃k j⦄ o, w.length < k → w.length < j →
    Nested.statementsFrom.go (Nested.ofDepth (k + 1)) stop j (Nested.ofDepth (k + 1)).statement false
      ⟨o, w ++ u⟩ = none

/-! ## Expressions

An operand that is refused makes every expression that begins with it refused, and so do the arguments of
a call.
-/

variable {floor : Nat}

/-- An expression that begins with a refused operand is refused. -/
theorem NoOperand.expression (h : NoOperand w u) : NoExpression floor w u where
  starts := h.starts
  refuses := by
    intro k m o hk
    rw [Nested.expressionAt, run_bind (toPlain_starts h.starts (by omega))]
    exact bind_none (h.refuses m o hk)

/-- What is refused as an expression is refused as a value behind a blank. -/
theorem NoExpression.value_space (h : NoExpression floor w u) (m : Mode) (hk : w.length + 1 < k) :
    (Nested.ofDepth k).valueOf m floor ⟨o, ' ' :: (w ++ u)⟩ = none := by
  obtain ⟨k, rfl⟩ : ∃ j, k = j + 1 := ⟨k - 1, by omega⟩
  refine bind_none ?_
  have hrefuses := h.refuses (k := k) m (o + 1) (by omega)
  show (Nested.ofDepth k).expressionAt m floor ⟨o, ' ' :: (w ++ u)⟩ = none
  rw [Nested.expressionAt, run_bind (toPlain_starts h.starts (by omega))] at hrefuses
  rw [Nested.expressionAt, run_bind (toPlain_space h.starts (by omega))]
  exact hrefuses

/-- A call is refused if its first argument is. -/
theorem NoExpression.call {name : List Char} (hname : isIdentifier name = true)
    (hplain : isPlainName name = true)
    (h : NoExpression 0 w u) : NoExpression floor (name ++ '(' :: w) u where
  starts := by
    obtain ⟨x, v, rfl, hx⟩ := starts_of_isIdentifier hname
    exact ⟨x, _, rfl, hx⟩
  refuses := by
    intro k m o hk
    rw [List.length_append, List.length_cons] at hk
    have hstarts := starts_of_isIdentifier hname
    have hoperand : Operand IsValue name ('(' :: (w ++ u)) :=
      .nameValue hname hplain (followsName_cons (by decide))
    rw [show name ++ '(' :: w ++ u = name ++ '(' :: (w ++ u) by simp, Nested.expressionAt,
      run_bind (toPlain_starts hstarts (by omega))]
    refine (hoperand.reads m o (by omega)).bind_none fun s o' hs => ?_
    obtain ⟨k, rfl⟩ : ∃ j, k = j + 1 := ⟨k - 1, by omega⟩
    -- The parenthesis can only open the arguments.
    have hgap : Gap.find (Nested.followOf m s) (k + 1) ⟨o', '(' :: (w ++ u)⟩ =
        .token ⟨o', '(' :: (w ++ u)⟩ false :=
      Gap.find_firm (by decide) _ (by omega)
    show (Nested.ofDepth (k + 1)).climb m floor (k + 1) s _ = none
    rw [Nested.climb_of_extended? .call hgap (e := ⟨o' + 1, w ++ u⟩) rfl (if_pos hs)]
    refine bind_none (bind_none (bind_none ?_))
    show Nested.entries.go _ ')' (k + 1) _ = none
    rw [Nested.entries.go, run_bind (toPlain_starts h.starts (by omega)), run_get,
      h.starts.nextIs_eq_false (by decide), if_neg Bool.false_ne_true, h.starts.nextIs_eq_false (by decide),
      if_neg Bool.false_ne_true]
    have hdots : Cursor.dropWord? "...".toList ⟨o' + 1, w ++ u⟩ = none := by
      show Cursor.dropWord? ('.' :: "..".toList) _ = none
      exact h.starts.dropWord?_eq_none (by decide)
    rw [hdots]
    exact bind_none (h.refuses (k := k) .inner _ (by omega))

/-! ## Statements

A statement is refused by the part in which something is refused. In a list of statements the ones in
front of it are read, and then the list is refused.
-/

/-- A constant is refused if its value is. -/
theorem NoExpression.constant {name : List Char} (hname : isIdentifier name = true)
    (hfree : isReserved name = false) (h : NoExpression 0 w u) :
    NoStatement ("const ".toList ++ name ++ " = ".toList ++ w) u where
  starts := ⟨'c', _, rfl, by decide⟩
  refuses := by
    intro k o hk
    have hspace : "const ".toList = "const".toList ++ [' '] := by decide
    have hequals : " = ".toList = [' ', '=', ' '] := by decide
    rw [hspace, hequals] at hk ⊢
    simp only [List.length_append, List.length_cons, List.length_nil] at hk
    rw [show "const".toList ++ [' '] ++ name ++ [' ', '=', ' '] ++ w ++ u =
      "const".toList ++ ' ' :: (name ++ ' ' :: '=' :: ' ' :: (w ++ u)) by simp]
    rw [Nested.statementAt, run_get, Nested.nameAt?_identifier (by decide) (endsName_cons (by decide))]
    obtain ⟨k, rfl⟩ : ∃ j, k = j + 1 := ⟨k - 1, by omega⟩
    show (set _ >>= fun _ => Nested.declarators _ _ _) _ = none
    rw [run_set]
    refine bind_none ?_
    show Nested.bindings (Nested.ofDepth (k + 1)) (k + 1) _ = none
    rw [Nested.bindings]
    refine (binding_identifier hname hfree (endsName_cons (by decide)) (Nat.succ_pos k)).bind_none
      fun _ o' _ => ?_
    refine bind_none ?_
    rw [Nested.initializer?, run_look (Gap.find_space (by decide) _ (Nat.succ_pos k))]
    show (set _ >>= fun _ => Nested.valueOf _ _ _ >>= _ : Reader Bool) _ = none
    rw [run_set]
    exact bind_none (h.value_space .outer (by omega))

variable {stop : Cursor → Bool}

/-- Statements are refused if the first one is. -/
theorem NoStatement.series (ht : ∀ y ∈ t, isMargin y = true) (hw : NoStatement w u)
    (hstop : ∀ o x u, isIdentifierPart x = true → stop ⟨o, x :: u⟩ = false) : NoSeries stop (t ++ w) u := by
  intro k j o hk hj
  have hpos : 0 < w.length := length_pos_of_starts hw.starts
  rw [List.length_append] at hk hj
  obtain ⟨j, rfl⟩ : ∃ i, j = i + 1 := ⟨j - 1, by omega⟩
  rw [List.append_assoc, statementsFrom_word ht hw.starts hstop]
  exact bind_none (hw.refuses _ (show w.length < k by omega))

/-- Statements are refused if those behind the first one are. -/
theorem NoSeries.cons {P : Statement → Prop} (ht : ∀ y ∈ t, isMargin y = true) (hw : StatementOf P w (v ++ u))
    (hstop : ∀ o x u, isIdentifierPart x = true → stop ⟨o, x :: u⟩ = false) (hv : NoSeries stop v u) :
    NoSeries stop (t ++ w ++ v) u := by
  intro k j o hk hj
  have hpos : 0 < w.length := length_pos_of_starts hw.starts
  simp only [List.length_append] at hk hj
  obtain ⟨j, rfl⟩ : ∃ i, j = i + 1 := ⟨j - 1, by omega⟩
  rw [show t ++ w ++ v ++ u = t ++ (w ++ (v ++ u)) by simp, statementsFrom_word ht hw.starts hstop]
  refine (hw.reads _ (show w.length < k by omega)).bind_none fun closing o' hclosing => ?_
  rw [hclosing.1]
  exact bind_none (hv o' (by omega) (by omega))

/-- A function is refused if its body is. -/
theorem NoStatement.asyncFunction {name body : List Char} (hname : isIdentifier name = true)
    (hfree : isReserved name = false) (ht : Entries (· = .name) ')' t) (hbody : NoSeries atBrace body u) :
    NoStatement ("async function ".toList ++ name ++ '(' :: (t ++ ") \x7b".toList ++ body)) u where
  starts := ⟨'a', _, rfl, by decide⟩
  refuses := by
    intro k o hk
    have hfunction : "async function ".toList = "async".toList ++ ' ' :: "function".toList ++ [' '] := by
      decide
    have hopen : ") \x7b".toList = [')', ' ', '\x7b'] := by decide
    rw [hfunction, hopen] at hk ⊢
    simp only [List.length_append, List.length_cons, List.length_nil] at hk
    obtain ⟨k, rfl⟩ : ∃ j, k = j + 1 := ⟨k - 1, by omega⟩
    rw [show "async".toList ++ ' ' :: "function".toList ++ [' '] ++ name ++
      '(' :: (t ++ [')', ' ', '\x7b'] ++ body) ++ u = "async".toList ++ ' ' :: ("function".toList ++
        ' ' :: (name ++ '(' :: (t ++ ')' :: ' ' :: '\x7b' :: (body ++ u)))) by simp]
    rw [Nested.statementAt, run_get, Nested.nameAt?_identifier (by decide) (endsName_cons (by decide))]
    show ifFound ((Nested.ofDepth (k + 1)).asyncFunction? (.value true) _) _ _ _ = none
    rw [asyncFunction?_word (endsName_cons (by decide)) (Nat.succ_pos k), ifFound_some, run_set]
    refine (heading_named hname hfree ht (by omega)).bind_none fun heading o' _ => bind_none ?_
    show (get >>= _ : Reader Block) _ = none
    rw [run_get, run_bind (b := ()) (d := ⟨o' + 1, body ++ u⟩) rfl]
    exact bind_none (hbody (j := k + 1) (o' + 1) (by omega) (by omega))

/-- An import is refused under a reserved name. -/
theorem NoStatement.importing {name : List Char} (hname : isIdentifier name = true)
    (hreserved : isReserved name = true) (hu : EndsName u) : NoStatement ("import ".toList ++ name) u where
  starts := ⟨'i', _, rfl, by decide⟩
  refuses := by
    intro k o hk
    have hspace : "import ".toList = "import".toList ++ [' '] := by decide
    rw [hspace] at hk ⊢
    simp only [List.length_append, List.length_cons, List.length_nil] at hk
    have hpos : 0 < k := by omega
    have hgap : ∀ o, Gap.find .plain k ⟨o, ' ' :: (name ++ u)⟩ = .token ⟨o + 1, name ++ u⟩ false := by
      intro o
      obtain ⟨x, name', rfl, hx⟩ := exists_firm_of_isIdentifier hname
      exact Gap.find_space hx _ hpos
    have hany : ∀ o, (Nested.ofDepth k).anyName ⟨o, name ++ u⟩ = some (name, ⟨o + byteCount name, u⟩) :=
      fun _ => Nested.nameAt?_identifier hname hu _
    rw [show "import".toList ++ [' '] ++ name ++ u = "import".toList ++ ' ' :: (name ++ u) by simp]
    rw [Nested.statementAt, run_get, Nested.nameAt?_identifier (by decide) (endsName_cons (by decide))]
    show atToken _ (Gap.find .plain k _) _ = none
    rw [hgap, atToken_token, nextIs_identifier hname (by decide +kernel), if_neg Bool.false_ne_true]
    dsimp only
    rw [run_set, Nested.importStatement,
      run_bind (toPlain_space (starts_of_isIdentifier hname) hpos), run_get,
      nextIs_identifier hname (by decide +kernel), if_neg Bool.false_ne_true,
      Nested.nameAt?_identifier hname hu, Option.isSome_some, if_pos rfl]
    refine bind_none ?_
    -- The word is read as a name, which is not free.
    rw [Nested.freeName, run_bind (hany _), hreserved]
    rfl

/-- A string with a null character is refused. -/
theorem stringEnd?_null {quote : Char} (hquote : quote ≠ '\x00')
    (ht : ∀ y ∈ t, Token.isPlain quote y = true) :
    Token.stringEnd? quote k ⟨o, t ++ '\x00' :: u⟩ = none := by
  have hnull : Token.isPlain quote '\x00' = false := by simp [Token.isPlain]
  have hend : ∀ k o, Token.stringEnd? quote k ⟨o, '\x00' :: u⟩ = none := by
    intro k o
    cases k with
    | zero => rfl
    | succ k =>
        have hskip : (⟨o, '\x00' :: u⟩ : Cursor).skipWhile isBlank = ⟨o, '\x00' :: u⟩ := rfl
        rw [Token.stringEnd?, hskip]
        simp [Cursor.nextIs, hnull, hquote.symm, Token.comment?]
  cases k with
  | zero => rfl
  | succ k =>
      cases t with
      | nil => exact hend _ o
      | cons x t =>
          have hx : (⟨o, x :: t ++ '\x00' :: u⟩ : Cursor).nextIs (Token.isPlain quote) = true :=
            ht x List.mem_cons_self
          have hskip := Cursor.skipWhile_append (o := o) (u := '\x00' :: u) ht fun y hy => by
            obtain rfl := Option.some.inj hy
            exact hnull
          rw [Token.stringEnd?, if_pos hx, hskip]
          exact hend k _

/-- An import is refused if the name of its module has a null character. -/
theorem NoStatement.importingNull {name : List Char} (hname : isIdentifier name = true)
    (hfree : isReserved name = false) (ht : ∀ y ∈ t, Token.isPlain '\'' y = true) :
    NoStatement ("import ".toList ++ name ++ " from '".toList ++ t ++ ['\x00']) u where
  starts := ⟨'i', _, rfl, by decide⟩
  refuses := by
    intro k o hk
    have hpos : 0 < k := by omega
    have hstring : ∀ o, Token.string? k ⟨o, '\'' :: (t ++ '\x00' :: u)⟩ = none := fun o =>
      stringEnd?_null (o := o + 1) (by decide) ht
    rw [show "import ".toList ++ name ++ " from '".toList ++ t ++ ['\x00'] ++ u =
      "import ".toList ++ name ++ " from '".toList ++ (t ++ '\x00' :: u) by simp]
    rw [statementAt_importing hname hfree hpos]
    refine bind_none ?_
    rw [fromClause_word hpos]
    exact bind_none (congrArg (Option.map _) (hstring _))

/-- A text is no script if its statements are refused. -/
theorem read?_eq_none (h : NoSeries atEnd w u) (hstarts : ∃ x v, w = x :: v ∧ isIdentifierPart x = true) :
    Outline.read? (w ++ u) = none := by
  obtain ⟨x, v, hcons, hx⟩ := hstarts
  have hlength : w.length ≤ (w ++ u).length := by rw [List.length_append]; omega
  have hrefuses := h (k := 2 * (w ++ u).length + 7) (j := 2 * (w ++ u).length + 8) 0 (by omega) (by omega)
  have hstatements : (Nested.ofDepth (2 * (w ++ u).length + 8)).statements atEnd (.ofText (w ++ u)) =
      none := hrefuses
  rw [read?_eq ⟨x, v ++ u, by rw [hcons, List.cons_append], hx⟩, hstatements]
  rfl

/-- A line that names an interpreter is no statement: behind a number sign stands a name. -/
theorem statementAt_interpreter : (Nested.ofDepth k).statementAt ⟨o, '#' :: '!' :: u⟩ = none := by
  have hsign : ∀ o, (Nested.ofDepth k).nameAt? ⟨o, '#' :: '!' :: u⟩ = none :=
    fun o => nameAt?_sign (by decide)
  have hname : ∀ o, (Nested.ofDepth k).anyName ⟨o, '!' :: u⟩ = none := fun o => nameAt?_sign (by decide)
  rw [Nested.statementAt, run_get, hsign]
  show (get >>= _ : Reader Closing) _ = none
  rw [run_get]
  refine bind_none ?_
  rw [Nested.operandAt, run_get, hsign]
  refine bind_none ?_
  rw [Nested.privateName, run_bind (b := ()) (d := ⟨o + 1, '!' :: u⟩) rfl]
  exact bind_none (hname _)

/-- A line that would name an interpreter is refused behind the beginning of a script. -/
theorem noSeries_interpreter : NoSeries atEnd "\n#!".toList u := by
  intro k j o _ hj
  obtain ⟨j, rfl⟩ : ∃ i, j = i + 1 := ⟨j - 1, by omega⟩
  have hmargin : (Nested.ofDepth (k + 1)).toStatement false ⟨o, ['\n'] ++ '#' :: '!' :: u⟩ =
      some ([], ⟨o + byteCount ['\n'], '#' :: '!' :: u⟩) :=
    Nested.toStatement_margin (rests_cons (by decide)) (Nat.succ_pos k)
      (List.forall_mem_singleton.mpr (by decide))
  show Nested.statementsFrom.go _ atEnd (j + 1) _ false ⟨o, ['\n'] ++ '#' :: '!' :: u⟩ = none
  rw [Nested.statementsFrom.go, run_bind hmargin, run_get]
  exact bind_none statementAt_interpreter

/-! ## Words

Behind a word with a meaning of its own something has to follow, and a closing character does not do. So
each of these words is refused in front of one.
-/

/-- No operand begins with a mark that ends an expression. -/
theorem operandAt_closer {m : Mode} (hx : isCloser x = true) :
    (Nested.ofDepth k).operandAt m ⟨o, x :: u⟩ = none := by
  rw [Nested.operandAt, run_get, nameAt?_closer hx]
  rcases eq_of_isCloser hx with rfl | rfl | rfl | rfl <;> rfl

theorem toPlain_closer (hx : isCloser x = true) (hk : 0 < k) :
    (Nested.ofDepth k).toPlain ⟨o, x :: u⟩ = some ((), ⟨o, x :: u⟩) :=
  Nested.toPlain_firm (isFirm_of_isCloser hx) hk

/-- No expression begins with a closing character. -/
theorem expression_closer {m : Mode} (hx : isCloser x = true) (hk : 1 < k) :
    (Nested.ofDepth k).expression m floor ⟨o, x :: u⟩ = none := by
  obtain ⟨k, rfl⟩ : ∃ j, k = j + 1 := ⟨k - 1, by omega⟩
  show (Nested.ofDepth k).expressionAt m floor _ = none
  rw [Nested.expressionAt, run_bind (toPlain_closer hx (by omega))]
  exact bind_none (operandAt_closer hx)

/-- A function goes on with its parameters. -/
theorem functionRest_closer (hx : isCloser x = true) (hk : 0 < k) :
    (Nested.ofDepth k).functionRest ⟨o, x :: u⟩ = none := by
  have hplain := toPlain_closer (o := o) (u := u) hx hk
  have hstar : (Nested.ofDepth k).skipStar ⟨o, x :: u⟩ = some (false, ⟨o, x :: u⟩) := by
    rw [Nested.skipStar, run_bind hplain]
    rcases eq_of_isCloser hx with rfl | rfl | rfl | rfl <;> rfl
  have hname : (Nested.ofDepth k).freeName? ⟨o, x :: u⟩ = some (none, ⟨o, x :: u⟩) := by
    rw [Nested.freeName?, run_bind hplain, run_get, nameAt?_closer hx]
    rfl
  refine bind_none ?_
  rw [Nested.heading, run_bind hstar, run_bind hname, run_bind hplain]
  refine bind_none (bind_none ?_)
  rcases eq_of_isCloser hx with rfl | rfl | rfl | rfl <;> rfl

/-- A class goes on with its body. -/
theorem classRest_closer (hx : isCloser x = true) (hk : 0 < k) :
    (Nested.ofDepth k).classRest ⟨o, x :: u⟩ = none := by
  have hplain := toPlain_closer (o := o) (u := u) hx hk
  have hword : (Nested.ofDepth k).wordAt ⟨o, x :: u⟩ = "" := by rw [Nested.wordAt, nameAt?_closer hx]
  rw [Nested.classRest, run_bind hplain, run_get, nameAt?_closer hx]
  dsimp only
  rw [run_bind (b := false) (d := ⟨o, x :: u⟩) rfl, run_bind hplain, run_get, hword, if_neg (by decide)]
  refine bind_none (bind_none ?_)
  rcases eq_of_isCloser hx with rfl | rfl | rfl | rfl <;> rfl

/-- The word `new` goes on with an operand. -/
theorem newRest_closer {m : Mode} (hx : isCloser x = true) (hk : 1 < k) :
    (Nested.ofDepth k).newRest m ⟨o, x :: u⟩ = none := by
  have hpoint : (⟨o, x :: u⟩ : Cursor).nextIs (· == '.') = false := by
    rcases eq_of_isCloser hx with rfl | rfl | rfl | rfl <;> rfl
  obtain ⟨k, rfl⟩ : ∃ j, k = j + 1 := ⟨k - 1, by omega⟩
  rw [Nested.newRest, run_bind (toPlain_closer hx (by omega)), run_get, hpoint, if_neg Bool.false_ne_true]
  exact bind_none (operandAt_closer (k := k) hx)

/-- Inside an expression, the word `import` goes on with a point or a parenthesis. -/
theorem importRest_closer (hx : isCloser x = true) (hk : 0 < k) :
    (Nested.ofDepth k).importRest ⟨o, x :: u⟩ = none := by
  rw [Nested.importRest, run_bind (toPlain_closer hx hk), run_get]
  rcases eq_of_isCloser hx with rfl | rfl | rfl | rfl <;> rfl

/-- A word with a meaning of its own is refused in front of a mark that ends an expression, unless it may be
an operand by itself. -/
theorem NoOperand.word (hw : isIdentifier w = true) (hword : isOperandWord w = false)
    (hx : isCloser x = true) :
    NoOperand w (x :: u) where
  starts := starts_of_isIdentifier hw
  refuses := by
    intro k m o hk
    simp only [isOperandWord, isPlainName, Bool.or_eq_false_iff, Bool.not_eq_false', Bool.or_eq_true] at hword
    obtain ⟨hmeaning, hstanding⟩ := hword
    have hne : ∀ word ∈ standingWords, String.ofList w ≠ word := by
      rintro word hmem rfl
      exact Bool.false_ne_true (hstanding.symm.trans (List.contains_iff_mem.mpr hmem))
    have hk : 1 < k := by
      obtain ⟨y, v, rfl, -⟩ := exists_cons_of_isIdentifier hw
      rw [List.length_cons] at hk
      omega
    have hvalue : ∀ {m : Mode} {floor o : Nat}, (Nested.ofDepth k).valueOf m floor ⟨o, x :: u⟩ = none :=
      bind_none (expression_closer hx hk)
    rw [operandAt_word (Nested.nameAt?_identifier hw (followsName_closer hx).1 _)]
    generalize hr : (Nested.ofDepth k).wordOperand m w = r
    unfold Nested.wordOperand at hr
    split at hr <;> subst hr
    case h_1 => exact bind_none (functionRest_closer hx (by omega))
    case h_2 => exact bind_none (classRest_closer hx (by omega))
    case h_4 => exact newRest_closer hx hk
    case h_5 => exact importRest_closer hx (by omega)
    case h_7 | h_8 | h_9 | h_10 => exact bind_none hvalue
    case h_11 => exact bind_none (expression_closer hx hk)
    case h_18 =>
      -- A word that opens nothing here is reserved.
      have hreserved : isReserved w = true := by
        refine hmeaning.resolve_right fun hopening => ?_
        have hmem := List.contains_iff_mem.mp hopening
        simp only [openingNames, List.mem_cons, List.not_mem_nil, or_false] at hmem
        rcases hmem with h | h | h | h | h <;> exact absurd h (by assumption)
      rw [hreserved]
      rfl
    all_goals exact absurd (by assumption) (hne _ (by decide))

end Written

end WasmEmbed.Script
