import WasmEmbed.Proofs.Script.Fits
import WasmEmbed.Script.Statement

/-!
# Statements lie where they are read

Most rules for statements are given the cursor at which the statement began and finish it further on:
`n.Finishes start r` says that whatever `r` reads behind `start` is a statement from `start` to where `r`
stops. There is one lemma for each rule, and `fits_statementAt` puts them together.

The readers of statements nest: a loop reads the head and then a statement, a block reads statements in
braces. That these inner readers go forward is the hypothesis `n.Forward`, or `n.Sound` where also the
places of inner statements are asked for, so no lemma here is an induction on the nesting. Where a rule
has local definitions, because more than one branch goes on in the same way, each of them gets its own
fact first.
-/

namespace WasmEmbed.Script.Nested

open Reader

variable {n : Nested}

/-- Whatever the reader reads behind `start` is a statement from `start` to where it stops. -/
def Finishes (n : Nested) (start : Cursor) (r : Reader Closing) : Prop :=
  ∀ c, start < c → After c (fun closing d => closing.statement.Fits n.depth start d) c r

/-- What finishes a statement may come last. -/
theorem Finishes.last {start b c : Cursor} {r : Reader Closing} (hr : n.Finishes start r)
    (hb : start < b) : After b (fun closing d => closing.statement.Fits n.depth start d) c r :=
  fun hc closing d h => hr c (hb.trans_le hc) (le_refl c) closing d h

/-- A statement ends where it is finished, and nothing that declares something is finished so. -/
theorem finishes_finish {start : Cursor} (kind : Kind) (unclosed : Bool) :
    n.Finishes start (finish start kind unclosed) :=
  fun _ hc => .get (.pure fun _ => ⟨⟨hc, rfl⟩, trivial⟩)

/-- Behind a closing brace, a semicolon of its own may belong to the statement. -/
theorem finishes_finishBehindBrace {start : Cursor} (kind : Kind) (operator : Bool) :
    n.Finishes start (n.finishBehindBrace start kind operator) := by
  intro c hc
  unfold finishBehindBrace
  exact .bind (forward_skipSemicolon _) fun _ _ => (finishes_finish _ _).last hc

/-- A look at the next word leaves the cursor where it is. -/
theorem after_wordBehind (unclosed : Bool) (c : Cursor) :
    After c (fun found d => d = c ∧ c ≤ found.2) c (n.wordBehind unclosed) := by
  intro _ found d h
  obtain ⟨⟨comments, e⟩, he, heq⟩ := Option.map_eq_some_iff.mp h
  obtain ⟨rfl, rfl⟩ := Prod.mk.inj heq
  exact ⟨rfl, (forward_toStatement unclosed).le he⟩

/-! ## Expressions as statements

A statement that begins with an expression has no word in front of it. That it takes at least one
character is therefore a fact about its operand.
-/

/-- Behind the operand that it begins with, an expression goes on to the end of the statement. -/
theorem finishes_expressionStatementBehind (hn : n.Forward) {start : Cursor} (s : Shape) :
    n.Finishes start (n.expressionStatementBehind start s) := by
  intro c hc
  unfold expressionStatementBehind
  refine .bind (forward_expressionsBehind hn _ _) fun _ _ => .bind (forward_terminator _) fun _ _ => ?_
  exact (finishes_finish _ _).last hc

/-- A statement whose first part takes at least one character. -/
theorem after_start {α : Type} {c : Cursor} {r : Reader α} {f : α → Reader Closing} (hr : r.Strict)
    (hf : ∀ a, n.Finishes c (f a)) :
    After c (fun closing d => closing.statement.Fits n.depth c d) c (r >>= f) := by
  intro _ closing e h
  obtain ⟨⟨x, d⟩, hx, hrest⟩ := Option.bind_eq_some_iff.mp h
  exact hf x d (hr.lt hx) (le_refl d) closing e hrest

/-- An expression that is a statement lies from its operand to its terminator. -/
theorem fits_expressionStatement (hn : n.Forward) (c : Cursor) :
    After c (fun closing d => closing.statement.Fits n.depth c d) c n.expressionStatement := by
  unfold expressionStatement
  refine .get ?_
  exact after_start (strict_operandAt hn _) fun s => finishes_expressionStatementBehind hn s

/-! ## Blocks

A brace begins a block or an object. The reader tries both and keeps the object only where the block
cannot be read or is empty, so both have to lie in their place.
-/

/-- A block takes at least its opening brace. -/
theorem strict_looseBlock (hn : n.Forward) : n.looseBlock.Strict := by
  intro c
  unfold looseBlock blockFrom
  refine .get (.bind_strict (strict_exactly (by decide)) fun _ _ => ?_)
  refine .bind (forward_statementsFrom hn (forward_firstStatement hn) _) fun _ _ => ?_
  exact .bind (forward_exactly _) fun _ _ => .get (.pure id)

theorem fits_blockStatement (hn : n.Forward) (c : Cursor) :
    After c (fun closing d => closing.statement.Fits n.depth c d) c n.blockStatement := by
  unfold blockStatement
  refine .get ?_
  exact after_start (strict_looseBlock hn) fun _ => finishes_finishBehindBrace _ _

theorem fits_objectStatement (hn : n.Forward) (c : Cursor) :
    After c (fun closing d => closing.statement.Fits n.depth c d) c n.objectStatement := by
  unfold objectStatement
  refine .get ?_
  exact after_start (strict_leadingObject hn) fun s => finishes_expressionStatementBehind hn s

/-- What begins with a brace lies in its place, whichever of the two readings is kept. -/
theorem fits_braceStatement (hn : n.Forward) (c : Cursor) :
    After c (fun closing d => closing.statement.Fits n.depth c d) c n.braceStatement := by
  intro hc closing d h
  simp only [braceStatement] at h
  split at h
  · exact fits_objectStatement hn c hc closing d h
  · next block e hblock =>
      -- Of a block that could be read, the object is the first choice and the block the second.
      rcases (Option.orElse_eq_some _ _ _).mp h with hobject | ⟨-, hsame⟩
      · split at hobject
        · exact fits_objectStatement hn c hc closing d hobject
        · cases hobject
      · cases hsame
        exact fits_blockStatement hn c hc closing d hblock

/-! ## Declarations -/

/-- What is bound is an array pattern, an object pattern or a name. -/
theorem forward_binding (hn : n.Forward) : n.binding.Forward := by
  intro c
  unfold binding
  refine .bind forward_toPlain fun _ _ => .get ?_
  split
  · exact .bind (strict_array hn).forward fun _ _ => .last (forward_require _)
  · exact .bind (strict_object hn).forward fun _ _ => .last (forward_require _)
  · exact .bind forward_freeName fun _ _ => .pure id

/-- A default is a look at the next token and, behind an equals sign, a value. -/
theorem forward_initializer? (hn : n.Forward) (m : Mode) : (n.initializer? m).Forward := by
  intro c
  unfold initializer?
  refine after_look fun gap hgap => ?_
  split
  · split
    · refine .ahead (hgap.trans (Cursor.le_step _)) ?_
      exact .bind (forward_valueOf hn _ _) fun _ _ => .pure id
    · exact .pure id
  · exact .pure id

/-- The bindings of a declaration: a bound on their number, by induction on which the list goes
forward. -/
theorem forward_bindings (hn : n.Forward) (k : Nat) : (n.bindings k).Forward := by
  induction k with
  | zero => exact fun _ => .refuse
  | succ k ih =>
      intro c
      unfold bindings
      refine .bind (forward_binding hn) fun _ _ => .bind (forward_initializer? hn _) fun _ _ => ?_
      refine after_look fun gap hgap => ?_
      split
      · split
        · exact .ahead (hgap.trans (Cursor.le_step _)) (.last ih)
        · exact .pure id
      · exact .pure id

/-- A declaration of variables is finished behind its last binding. -/
theorem finishes_declarators (hn : n.Forward) {start : Cursor} (kind : Kind) :
    n.Finishes start (n.declarators start kind) := by
  intro c hc
  unfold declarators
  refine .bind (forward_bindings hn _) fun _ _ => .bind (forward_terminator _) fun _ _ => ?_
  exact (finishes_finish _ _).last hc

/-- What was begun as a declaration without a name goes on as an expression, where one may stand. -/
theorem finishes_expressionRest (hn : n.Forward) {start : Cursor} (site : Site) :
    n.Finishes start (site.expressionRest n start) := by
  intro c hc
  cases site with
  | statement => exact finishes_expressionStatementBehind hn _ c hc
  | defaultExport =>
      refine .bind (forward_expressionBehind hn _ _) fun _ _ => .bind (forward_terminator _) fun _ _ => ?_
      exact (finishes_finish _ _).last hc
  | «export» => exact .refuse

/-- A look at whether an expression goes on leaves the cursor where it is. -/
theorem after_continues (follow : Follow) (c : Cursor) :
    After c (fun _ d => d = c ∧ True) c (n.continues follow) := by
  unfold continues
  refine after_look fun gap _ => ?_
  split
  · exact .pure fun _ => ⟨rfl, trivial⟩
  · exact .pure fun _ => ⟨rfl, trivial⟩

/-- A function with a name that stands as a statement lies in its place, and so do its heading, its body
and the pieces of the body. Where its name is missing or an operator follows, it is the beginning of an
expression. -/
theorem after_functionStatement (hn : n.Sound) {start c : Cursor} {isAsync : Bool} (hc : start < c)
    (hword : Introduces isAsync start.rest c.rest) (site : Site) :
    After c (fun closing d => closing.statement.Fits n.depth start d) c
      (n.functionStatement start isAsync site) := by
  unfold functionStatement
  refine .seq (after_heading hn.toForward c) fun heading d hheading => .rebase fun hcd => ?_
  have hd := hc.trans_le hcd
  refine .seq (after_block hn d) fun body e hbody => ?_
  obtain ⟨hde, hspan, hblock⟩ := hbody
  split
  · exact (finishes_expressionRest hn.toForward site).last hd
  · next name hname =>
      obtain ⟨t, hstar, hopens⟩ := hheading name hname
      extract_lets rest
      -- Both ways to go on behind the body end in the same reader, so what it reads is shown once.
      have hrest : ∀ continued,
          After e (fun closing f => closing.statement.Fits n.depth start f) e (rest continued) := by
        intro continued
        dsimp only [rest]
        split
        · exact (finishes_expressionRest hn.toForward site).last (hd.trans hde)
        · refine .bind (forward_skipSemicolon _) fun closed f => .get (.pure fun hef => ?_)
          have hdf := hde.trans_le hef
          refine ⟨⟨hd.trans hdf, rfl⟩, ⟨start, f, le_refl start, hd.trans hdf, le_refl f, rfl, ?_⟩⟩
          -- The body is closed at its brace, behind which only the semicolon was skipped.
          refine ⟨d, f, hd.le, hdf, le_refl f, by rw [hspan], ?_, .intro hword hstar hopens⟩
          obtain ⟨m, hdm, hme, hclose⟩ := hblock.closes
          exact ⟨hblock.opens, ⟨m, hdm, hme.trans_le hef, hclose⟩, hblock.pieces.trans_le hef⟩
      split
      · exact .still (after_continues _ e) fun continued _ => .rebase fun _ => hrest continued
      · exact .rebase fun _ => hrest false

/-- A class without a name, and one in front of an operator, is the beginning of an expression. -/
theorem finishes_classStatement (hn : n.Forward) {start : Cursor} (site : Site) :
    n.Finishes start (n.classStatement start site) := by
  intro c hc
  unfold classStatement
  refine .bind (forward_classRest hn) fun named d => ?_
  split
  · exact (finishes_expressionRest hn site).last hc
  · extract_lets rest
    have hrest : ∀ continued,
        After c (fun closing e => closing.statement.Fits n.depth start e) d (rest continued) := by
      intro continued
      dsimp only [rest]
      split
      · exact (finishes_expressionRest hn site).last hc
      · exact (finishes_finishBehindBrace _ _).last hc
    split
    · exact .still (after_continues _ d) fun continued _ => hrest continued
    · exact hrest false

/-- Behind `async`, the word `function` is found on the same line or not at all. -/
theorem le_of_asyncFunction? {follow : Follow} {c d : Cursor} (h : n.asyncFunction? follow c = some d) :
    c ≤ d := by
  have hfind := Gap.le_find follow n.depth c
  simp only [asyncFunction?] at h
  split at h
  · next hgap =>
      rw [hgap] at hfind
      split at h
      · next hname =>
          split at h
          · cases h
            exact hfind.trans (lt_of_nameAt? hname).le
          · cases h
      · cases h
  · cases h

/-- The words `async` and `function` introduce a function. -/
theorem introduces_of_asyncFunction? {follow : Follow} {c d e : Cursor} {w : List Char}
    (hname : n.nameAt? c = some (w, d)) (hw : String.ofList w = "async")
    (he : n.asyncFunction? follow d = some e) : Introduces true c.rest e.rest := by
  have hrest := rest_of_nameAt? hname
  rw [← String.toList_ofList (l := w), hw] at hrest
  simp only [asyncFunction?] at he
  split at he
  · next hgap =>
      split at he
      · next hfunction =>
          split at he
          · next hword =>
              cases he
              have hover := Over.of_find hgap
              rw [rest_of_nameAt? hfunction, beq_iff_eq.mp hword] at hover
              exact .async hrest hover
          · cases he
      · cases he
  · cases he

/-! ## Control

Each of these statements is read behind its first word. A look behind an inner statement, for `else`,
`while`, `catch` or `finally`, moves the cursor only if the word is there.
-/

/-- A condition with a statement, and behind `else` with another one. -/
theorem finishes_ifStatement (hn : n.Forward) {start : Cursor} : n.Finishes start (n.ifStatement start) := by
  intro c hc
  unfold ifStatement
  refine .bind (forward_parenthesized hn) fun _ _ => .bind forward_toPlain fun _ _ => ?_
  refine .bind hn.statement fun _ d => .still (after_wordBehind _ d) fun found hfound => ?_
  obtain ⟨w, e⟩ := found
  dsimp only
  split
  · refine .ahead hfound (.bind forward_anyName fun _ _ => .bind forward_toPlain fun _ _ => ?_)
    exact .bind hn.statement fun _ _ => (finishes_finish _ _).last hc
  · exact (finishes_finish _ _).last hc

/-- A condition in parentheses and a statement: the loop `while`, and `with`. -/
theorem finishes_conditionAndBody (hn : n.Forward) {start : Cursor} (kind : Kind) :
    n.Finishes start (n.conditionAndBody start kind) := by
  intro c hc
  unfold conditionAndBody
  refine .bind (forward_parenthesized hn) fun _ _ => .bind forward_toPlain fun _ _ => ?_
  exact .bind hn.statement fun _ _ => (finishes_finish _ _).last hc

/-- A statement in front of its condition. The semicolon behind the condition may be missing on the same
line. -/
theorem finishes_doStatement (hn : n.Forward) {start : Cursor} : n.Finishes start (n.doStatement start) := by
  intro c hc
  unfold doStatement
  refine .bind forward_toPlain fun _ _ => .bind hn.statement fun _ d => ?_
  refine .still (after_wordBehind _ d) fun found hfound => .ahead hfound ?_
  refine .bind (forward_word _) fun _ _ => .bind (forward_parenthesized hn) fun _ _ => ?_
  refine after_look fun gap hgap => ?_
  split
  · exact .ahead hgap ((finishes_finish _ _).last hc)
  · split
    · exact .ahead (hgap.trans (Cursor.le_step _)) ((finishes_finish _ _).last hc)
    · exact (finishes_finish _ _).last hc

/-- The body of a loop, whatever its head was. -/
theorem finishes_forBody (hn : n.Forward) {start : Cursor} (kind : Kind) :
    n.Finishes start (n.forBody start kind) := by
  intro c hc
  unfold forBody
  refine .bind forward_toPlain fun _ _ => .bind hn.statement fun _ _ => ?_
  exact (finishes_finish _ _).last hc

/-- Behind `in` or `of` stands one list of expressions up to the closing parenthesis. -/
theorem finishes_forInRest (hn : n.Forward) {start : Cursor} (operator : Bool) :
    n.Finishes start (n.forInRest start operator) := by
  intro c hc
  unfold forInRest
  refine .bind (forward_toToken _) fun _ _ => .bind forward_anyName fun _ _ => .require fun _ => ?_
  refine .bind (forward_expressions hn _) fun _ _ => .bind (forward_symbol _ _) fun _ _ => ?_
  exact (finishes_forBody hn _).last hc

/-- The condition and the update of a counting loop may each be missing. -/
theorem finishes_forRest (hn : n.Forward) {start : Cursor} : n.Finishes start (n.forRest start) := by
  intro c hc
  unfold forRest
  refine .bind forward_toPlain fun _ _ => .get ?_
  extract_lets body update
  have hbody : ∀ u, n.Finishes start (body u) := fun _ => finishes_forBody hn _
  -- A missing condition and one that was read go on with the same update.
  have hupdate : ∀ u, n.Finishes start (update u) := by
    intro u d hd
    refine .bind forward_toPlain fun _ _ => .get ?_
    split
    · exact .step ((hbody ⟨⟩).last hd)
    · refine .bind (forward_expressions hn _) fun _ _ => ?_
      exact .bind (forward_symbol _ _) fun u _ => (hbody u).last hd
  split
  · exact .step ((hupdate ⟨⟩).last hc)
  · refine .bind (forward_expressions hn _) fun _ _ => ?_
    exact .bind (forward_symbol _ _) fun u _ => (hupdate u).last hc

/-- A variable that takes one value after the other. Only behind `var` may it have a default. -/
theorem finishes_forInDeclaration (hn : n.Forward) {start : Cursor} (isVar : Bool) :
    n.Finishes start (n.forInDeclaration start isVar) := by
  intro c hc
  unfold forInDeclaration
  refine .bind (forward_binding hn) fun _ _ => ?_
  split
  · refine .bind (forward_initializer? hn _) fun _ _ => after_look fun gap hgap => ?_
    split
    · exact .ahead hgap ((finishes_forInRest hn _).last hc)
    · exact .refuse
  · exact .bind (forward_skipSemicolon _) fun _ _ => (finishes_forInRest hn _).last hc

/-- Declared variables of a counting loop. -/
theorem finishes_forDeclaration (hn : n.Forward) {start : Cursor} :
    n.Finishes start (n.forDeclaration start) := by
  intro c hc
  unfold forDeclaration
  refine .bind (forward_bindings hn _) fun _ _ => .bind (forward_terminator _) fun _ _ => ?_
  exact (finishes_forRest hn).last hc

/-- An expression in the head of a loop takes values itself, or it is the first part of a counting
loop. -/
theorem finishes_forExpression (hn : n.Forward) {start : Cursor} :
    n.Finishes start (n.forExpression start) := by
  intro c hc
  unfold forExpression
  refine .bind (hn.expression _ _) fun s d => ?_
  extract_lets counting
  have hcounting : n.Finishes start counting := by
    intro e he
    refine .bind (forward_expressionsBehind hn _ _) fun _ _ => ?_
    exact .bind (forward_symbol _ _) fun _ _ => (finishes_forRest hn).last he
  split
  · exact .orElse ((finishes_forInRest hn _).last hc) (hcounting.last hc)
  · exact hcounting.last hc

/-- A loop over values or a counting loop. Which one it is shows only behind what the head declares, so
the first is tried and then the second, and after `await` the first alone. -/
theorem finishes_forStatement (hn : n.Forward) {start : Cursor} :
    n.Finishes start (n.forStatement start) := by
  intro c hc
  unfold forStatement
  refine .bind forward_toPlain fun _ _ => .get ?_
  extract_lets awaited inOnly declared head
  -- After `await` there is no second choice: the loop is refused if it takes no values.
  have hinOnly {r : Reader Closing} (hr : n.Finishes start r) : n.Finishes start (inOnly r) :=
    fun d hd => .check (hr d hd)
  have hdeclared : n.Finishes start declared := fun d hd =>
    .bind forward_anyName fun _ _ => .orElse ((finishes_forInDeclaration hn _).last hd)
      ((hinOnly (finishes_forDeclaration hn)).last hd)
  have hhead : ∀ u, n.Finishes start (head u) := by
    intro u d hd
    refine .bind (forward_symbol _ _) fun _ _ => .bind forward_toPlain fun _ _ => .get ?_
    dsimp only
    split
    · exact .step ((hinOnly (finishes_forRest hn)).last hd)
    · split
      · refine .bind forward_anyName fun _ _ => .orElse ?_ ?_
        · exact (finishes_forInDeclaration hn _).last hd
        · exact (hinOnly (finishes_forDeclaration hn)).last hd
      · split
        · exact .orElse (hdeclared.last hd) ((hinOnly (finishes_forExpression hn)).last hd)
        · exact (hinOnly (finishes_forExpression hn)).last hd
  split
  · exact .bind forward_anyName fun _ _ => (hhead ()).last hc
  · exact (hhead ()).last hc

/-- The cases of a switch up to its closing brace, by induction on the bound on their number. -/
theorem forward_cases (hn : n.Forward) (k : Nat) : (n.cases k).Forward := by
  induction k with
  | zero => exact fun _ => .refuse
  | succ k ih =>
      intro c
      unfold cases
      refine .bind forward_toPlain fun _ _ => .get ?_
      split
      · exact .step_last
      · refine .bind forward_anyName fun w _ => ?_
        extract_lets body
        have hbody : ∀ u, (body u).Forward := fun _ _ =>
          .bind (forward_statements hn _) fun _ _ => .last ih
        split
        · refine .bind (forward_expressions hn _) fun _ _ => ?_
          exact .bind (forward_symbol _ _) fun u _ => .last (hbody u)
        · refine .require fun _ => ?_
          exact .bind (forward_symbol _ _) fun u _ => .last (hbody u)

/-- A switch is finished behind the closing brace of its cases. -/
theorem finishes_switchStatement (hn : n.Forward) {start : Cursor} :
    n.Finishes start (n.switchStatement start) := by
  intro c hc
  unfold switchStatement
  refine .bind (forward_parenthesized hn) fun _ _ => .bind (forward_symbol _ _) fun _ _ => ?_
  exact .bind (forward_cases hn _) fun _ _ => (finishes_finish _ _).last hc

/-- A block inside a statement with the semicolon that may follow it. -/
theorem forward_innerBlock (hn : n.Forward) : n.innerBlock.Forward := by
  intro c
  unfold innerBlock
  refine .bind forward_toPlain fun _ _ => .bind (forward_block hn) fun _ _ => ?_
  exact .last (forward_skipSemicolon _)

/-- A block with a handler or a block behind `finally`, or with both. Whether one of them follows is seen
by a look behind the block before. -/
theorem finishes_tryStatement (hn : n.Forward) {start : Cursor} :
    n.Finishes start (n.tryStatement start) := by
  intro c hc
  unfold tryStatement
  refine .bind (forward_innerBlock hn) fun closed d => .still (after_wordBehind _ d) fun found hfound => ?_
  obtain ⟨w, e⟩ := found
  extract_lets finish behindHandler handler
  have hfinish : ∀ closed, n.Finishes start (finish closed) := fun closed => finishes_finish _ _
  have hbehind : ∀ closed, n.Finishes start (behindHandler closed) := by
    intro closed d hd
    refine .still (after_wordBehind _ d) fun found hfound => ?_
    obtain ⟨w, e⟩ := found
    dsimp only
    split
    · refine .ahead hfound (.bind forward_anyName fun _ _ => ?_)
      exact .bind (forward_innerBlock hn) fun closed _ => (hfinish closed).last hd
    · exact .bind (forward_pure _) fun closed _ => (hfinish closed).last hd
  -- The parameter of a handler may be missing; its block and what follows are the same.
  have hhandler : ∀ u, n.Finishes start (handler u) := fun u d hd =>
    .bind (forward_innerBlock hn) fun closed _ => (hbehind closed).last hd
  dsimp only
  split
  · refine .ahead hfound (.bind forward_anyName fun _ _ => .bind forward_toPlain fun _ _ => .get ?_)
    split
    · refine .step (.bind (forward_binding hn) fun _ _ => ?_)
      exact .bind (forward_symbol _ _) fun u _ => (hhandler u).last hc
    · exact (hhandler ()).last hc
  · exact .bind (forward_pure _) fun closed _ => (hbehind closed).last hc

/-- A jump to a label or without one. The label must stand on the same line. -/
theorem finishes_jumpStatement {start : Cursor} (kind : Kind) :
    n.Finishes start (n.jumpStatement start kind) := by
  intro c hc
  unfold jumpStatement
  refine after_look fun gap hgap => ?_
  extract_lets finish
  have hfinish : ∀ u, n.Finishes start (finish u) := fun u d hd =>
    .bind (forward_terminator _) fun _ _ => (finishes_finish _ _).last hd
  split
  · split
    · exact .ahead hgap (.bind forward_freeName fun _ _ => (hfinish ()).last hc)
    · exact (hfinish ()).last hc
  · exact (hfinish ()).last hc

/-- A return with a value or without one. The value must begin on the same line. -/
theorem finishes_returnStatement (hn : n.Forward) {start : Cursor} :
    n.Finishes start (n.returnStatement start) := by
  intro c hc
  unfold returnStatement
  refine after_look fun gap hgap => ?_
  extract_lets finish
  have hfinish : ∀ u, n.Finishes start (finish u) := fun u => finishes_finish _ _
  split
  · exact .ahead hgap ((hfinish ()).last hc)
  · refine .ahead hgap ?_
    split
    · exact .step ((hfinish ()).last hc)
    · refine .require fun _ => .bind (forward_expressions hn _) fun _ _ => ?_
      exact .bind (forward_terminator _) fun _ _ => (hfinish ()).last hc

/-! ## Imports and exports

The parts of an import and an export are read by short readers, each of which goes forward. An import is
more: its statement is what its text says, which was shown of the clause and only has to be carried to the
statement.
-/

/-- A specifier is a string. -/
theorem forward_stringText : n.stringText.Forward := by
  intro c
  unfold stringText
  refine .bind forward_toPlain fun _ _ => .get ?_
  refine .bind (forward_move fun h => (Token.lt_of_string? h).le) fun _ _ => .get (.pure id)

/-- The module of an import or an export stands behind `from`. -/
theorem forward_fromClause : n.fromClause.Forward := by
  intro c
  unfold fromClause
  refine .bind forward_toPlain fun _ _ => .bind (forward_word _) fun _ _ => ?_
  exact .last forward_stringText

/-- What another module knows is called by a name or by a string. -/
theorem forward_exportName : n.exportName.Forward := by
  intro c
  unfold exportName
  refine .bind forward_toPlain fun _ _ => .get ?_
  split
  · next hname => exact .require fun _ => .ahead (lt_of_nameAt? hname).le (.pure id)
  · exact .bind forward_stringText fun _ _ => .pure id

/-- A name behind `as` may be missing. -/
theorem forward_alias? {α : Type} {target : Reader α} (htarget : target.Forward) :
    (n.alias? target).Forward := by
  intro c
  unfold alias?
  refine .bind forward_toPlain fun _ _ => .get ?_
  split
  · refine .bind forward_anyName fun _ _ => .bind forward_toPlain fun _ _ => ?_
    exact .bind htarget fun _ _ => .pure id
  · exact .pure id

/-- The items of a list in braces behind its opening one. At most `k` of them are read, and the induction
is on `k`. -/
theorem forward_braceItems {α : Type} {item : Reader α} (hitem : item.Forward) (k : Nat) :
    (n.braceItems item k).Forward := by
  induction k with
  | zero => exact fun _ => .refuse
  | succ k ih =>
      intro c
      unfold braceItems
      refine .bind forward_toPlain fun _ _ => .get ?_
      split
      · exact .step (.pure id)
      · refine .bind hitem fun _ _ => .bind forward_toPlain fun _ _ => .get ?_
        split
        · exact .step (.bind ih fun _ _ => .pure id)
        · exact .bind (forward_exactly _) fun _ _ => .pure id

/-- A list in braces, which may be empty. -/
theorem forward_braceList {α : Type} {item : Reader α} (hitem : item.Forward) :
    (n.braceList item).Forward := by
  intro c
  unfold braceList
  refine .bind forward_toPlain fun _ _ => .get ?_
  split
  · refine .step (.bind forward_toPlain fun _ _ => ?_)
    exact .bind (forward_exactly _) fun _ _ => .pure id
  · exact .last (forward_braceItems hitem _)

/-- A name that is imported, perhaps under another name. A name that is reserved needs one. -/
theorem forward_importBinding : n.importBinding.Forward := by
  intro c
  unfold importBinding
  refine .bind forward_exportName fun exported _ => ?_
  obtain ⟨imported, isFree⟩ := exported
  refine .bind (forward_alias? forward_freeName) fun localName _ => ?_
  split
  · exact .pure id
  · exact .require fun _ => .pure id

/-- All names of a module, or a list of names in braces. -/
theorem forward_importBindings : n.importBindings.Forward := by
  intro c
  unfold importBindings
  refine .bind forward_toPlain fun _ _ => .get ?_
  split
  · refine .step (.bind forward_toPlain fun _ _ => .bind (forward_word _) fun _ _ => ?_)
    exact .bind forward_toPlain fun _ _ => .bind forward_freeName fun _ _ => .pure id
  · exact .bind (forward_exactly _) fun _ _ => .last (forward_braceList forward_importBinding)

/-- Attributes are an object behind `with`. -/
theorem forward_importAttributes (hn : n.Forward) : n.importAttributes.Forward := by
  intro c
  unfold importAttributes
  refine after_look fun gap hgap => ?_
  split
  · split
    · refine .ahead hgap (.bind forward_anyName fun _ _ => .bind forward_toPlain fun _ _ => ?_)
      exact .bind (strict_object hn).forward fun _ _ => .last (forward_require _)
    · exact .pure id
  · exact .pure id

/-- A clause is a string alone, or a default with other bindings or without them. -/
theorem forward_importClause : n.importClause.Forward := by
  intro c
  unfold importClause
  refine .bind forward_toPlain fun _ _ => .get ?_
  split
  · exact .bind forward_stringText fun _ _ => .pure id
  · split
    · refine .bind forward_freeName fun _ _ => .bind forward_toPlain fun _ _ => .get ?_
      split
      · refine .step (.bind forward_importBindings fun _ _ => ?_)
        exact .bind forward_fromClause fun _ _ => .pure id
      · exact .bind forward_fromClause fun _ _ => .pure id
    · exact .bind forward_importBindings fun _ _ => .bind forward_fromClause fun _ _ => .pure id

/-- An import lies from its word to its terminator, and it is what its text says from the word to the end
of its clause. -/
theorem after_importStatement (hn : n.Forward) {start c : Cursor} (hc : start < c)
    (hword : start.rest = "import".toList ++ c.rest) :
    After c (fun closing d => closing.statement.Fits n.depth start d) c (n.importStatement start) := by
  rw [importStatement_eq]
  have hclause : After c (fun clause d => c ≤ d ∧ (c.rest.length ≤ n.depth →
      ∃ ts, Lexemes true ts c.rest d.rest ∧ ∀ us, clause.Said (ts ++ us) us)) c n.importClause :=
    fun hle clause d h =>
    ⟨forward_importClause.le h, fun hdepth => (parses_importClause c hdepth hle clause d h).2⟩
  refine .seq hclause fun clause m hsaid => .rebase fun hcm => ?_
  unfold importEnd
  refine .bind (forward_importAttributes hn) fun _ _ => ?_
  refine .bind (forward_terminator _) fun _ stop => .get (.pure fun hstop => ?_)
  have hlt := hc.trans_le (hcm.trans hstop)
  refine ⟨⟨hlt, rfl⟩, ⟨start, stop, le_refl start, hlt, le_refl stop, rfl, ?_, fun hdepth => ⟨m, hstop, ?_⟩⟩⟩
  · simp [Cursor.nextIs, hword]
  · -- The text behind the word is shorter, so the bound on the nesting is large enough for the clause
    -- too.
    rw [hword, List.length_append] at hdepth
    obtain ⟨ts, hts, hclause⟩ := hsaid (by omega)
    exact ⟨c.rest, ts, hword, hts, hclause⟩

/-- What `r` declares from `c` on lies there. -/
def Declares (n : Nested) (r : Reader Closing) : Prop :=
  ∀ c, After c (fun closing d => c ≤ d ∧ closing.statement.role.Fits n.depth c d) c r

/-- What lies in its place as a statement declares what lies there. -/
theorem declares_of_after {start b c : Cursor} {r : Reader Closing}
    (hr : After c (fun closing d => closing.statement.Fits n.depth start d) c r) :
    After b (fun closing d => start ≤ d ∧ closing.statement.role.Fits n.depth start d) c r := by
  intro _ closing d h
  have hfits := hr (le_refl c) closing d h
  exact ⟨hfits.piece.lt.le, hfits.role⟩

/-- What finishes a statement declares what lies between the beginning of the statement and its end. -/
theorem Finishes.declares {start b c : Cursor} {r : Reader Closing} (hr : n.Finishes start r)
    (hc : start < c) :
    After b (fun closing d => start ≤ d ∧ closing.statement.role.Fits n.depth start d) c r :=
  declares_of_after (hr c hc)

/-- Behind `export` a declaration is read as it is without the word. What is no declaration is read by
`otherwise`. -/
theorem declares_exportedDeclaration (hn : n.Sound) (site : Site) {otherwise : Reader Closing}
    (ho : n.Declares otherwise) : n.Declares (n.exportedDeclaration site otherwise) := by
  intro c
  have hforward := hn.toForward
  unfold exportedDeclaration
  refine .get ?_
  split
  · split
    · refine .bind (forward_decorators hforward) fun _ d => .rebase fun hcd => ?_
      refine .seq ((strict_word "class" d).mono fun _ e h => ⟨h.le, h⟩) fun _ e hde => ?_
      exact (finishes_classStatement hforward site).declares (hcd.trans_lt hde)
    · exact ho c
  · next w d hname =>
      have hd := lt_of_nameAt? hname
      split
      · next hw =>
          have hword := introduces_function hname hw
          exact .ahead hd.le (declares_of_after (after_functionStatement hn hd hword site))
      · next hw =>
          split
          · next e he =>
              have hce := hd.trans_le (le_of_asyncFunction? he)
              have hword := introduces_of_asyncFunction? hname hw he
              exact .ahead hce.le (declares_of_after (after_functionStatement hn hce hword site))
          · exact ho c
      · exact .ahead hd.le ((finishes_classStatement hforward site).declares hd)
      · exact .ahead hd.le ((finishes_declarators hforward _).declares hd)
      · exact .ahead hd.le ((finishes_declarators hforward _).declares hd)
      · split
        · exact .ahead hd.le ((finishes_declarators hforward _).declares hd)
        · exact ho c
      · exact ho c

/-- An export is a statement around what it declares, which lies inside. -/
theorem finishes_exported {start : Cursor} {r : Reader Closing} (hr : n.Declares r) :
    n.Finishes start (r >>= exported start) := by
  intro c hc
  refine .rebase fun _ => .seq (hr c) fun closing d hrole => ?_
  refine .get (.pure fun hcd => ?_)
  exact ⟨⟨hc.trans_le hcd, rfl⟩, hrole.mono hc.le (le_refl d)⟩

/-- An export of everything, of names in braces, of a default or of a declaration. -/
theorem finishes_exportStatement (hn : n.Sound) {start : Cursor} :
    n.Finishes start (n.exportStatement start) := by
  intro c hc
  have hforward := hn.toForward
  unfold exportStatement
  refine .bind forward_toPlain fun _ d => .get ?_
  split
  · refine .step (.bind (forward_alias? forward_exportName) fun _ _ => ?_)
    refine .bind forward_fromClause fun _ _ => .bind (forward_terminator _) fun _ _ => ?_
    exact (finishes_finish _ _).last hc
  · split
    · extract_lets item rest
      have hitem : item.Forward := fun _ =>
        .bind forward_exportName fun _ _ => .bind (forward_alias? forward_exportName) fun _ _ => .pure id
      refine .step (.bind (forward_braceList hitem) fun _ _ => after_look fun gap hgap => ?_)
      have hrest : ∀ u, n.Finishes start (rest u) := fun u e he =>
        .bind (forward_terminator _) fun _ _ => (finishes_finish _ _).last he
      split
      · split
        · exact .bind forward_fromClause fun _ _ => (hrest ()).last hc
        · exact (hrest ()).last hc
      · exact (hrest ()).last hc
    · split
      · refine .bind forward_anyName fun _ _ => .bind forward_toPlain fun _ _ => ?_
        extract_lets value
        -- A default that is no declaration is a value, which declares nothing.
        have hvalue : n.Declares value := fun _ =>
          .bind (forward_valueOf hforward _ _) fun _ _ => .bind (forward_terminator _) fun _ _ =>
            .get (.pure fun h => ⟨h, trivial⟩)
        exact (finishes_exported (declares_exportedDeclaration hn _ hvalue)).last hc
      · -- Without `default`, only a declaration may follow.
        have hnothing : n.Declares Reader.refuse := fun _ => .refuse
        exact (finishes_exported (declares_exportedDeclaration hn _ hnothing)).last hc

/-! ## Dispatch -/

/-- A name begins a statement behind a label, or an expression. -/
theorem fits_nameStatement (hn : n.Forward) {start behind : Cursor} (hlt : start < behind)
    (w : String) :
    After start (fun closing d => closing.statement.Fits n.depth start d) start
      (n.nameStatement start w behind) := by
  unfold nameStatement
  dsimp only
  split
  · next hlabel =>
      split at hlabel
      · cases hlabel
      · have hd := hlt.trans_le (le_of_labelColon? hlabel)
        refine .ahead hd.le (.rebase fun _ => .bind forward_toPlain fun _ _ => ?_)
        exact .bind hn.statement fun _ _ => (finishes_finish _ _).last hd
  · exact fits_expressionStatement hn start

/-- Every statement lies from the cursor at which it begins to the one where it ends. -/
theorem fits_statementAt (hn : n.Sound) (c : Cursor) :
    After c (fun closing d => closing.statement.Fits n.depth c d) c n.statementAt := by
  have hforward := hn.toForward
  unfold statementAt
  refine .get ?_
  -- The first character decides about the statement, or else its first word.
  split
  · split
    · next hrest =>
        have hstep : c < c.step := Cursor.lt_step (by simp [hrest])
        exact .ahead hstep.le (.rebase fun _ => (finishes_finish _ _).last hstep)
    · exact fits_braceStatement hforward c
    · refine .bind (forward_decorators hforward) fun _ d => .get (.rebase fun hcd => ?_)
      refine .seq ((strict_anyName d).mono fun _ e h => ⟨h.le, h⟩) fun w e hde => ?_
      have hce := hcd.trans_lt hde
      split
      · exact .rebase fun _ => (finishes_exportStatement hn).last hce
      · exact .require fun _ => .rebase fun _ => (finishes_classStatement hforward _).last hce
    · exact fits_expressionStatement hforward c
  · next w d hname =>
      have hd := lt_of_nameAt? hname
      extract_lets behind
      -- Behind a word that decides, the reader goes on from the end of that word.
      have hbehind {r : Reader Closing} (hr : n.Finishes c r) :
          After c (fun closing d => closing.statement.Fits n.depth c d) c (behind r) :=
        .ahead hd.le (.rebase fun _ => hr.last hd)
      split
      · exact hbehind (finishes_ifStatement hforward)
      · exact hbehind (finishes_forStatement hforward)
      · exact hbehind (finishes_conditionAndBody hforward _)
      · exact hbehind (finishes_conditionAndBody hforward _)
      · exact hbehind (finishes_doStatement hforward)
      · exact hbehind (finishes_switchStatement hforward)
      · exact hbehind (finishes_tryStatement hforward)
      · exact hbehind (finishes_jumpStatement _)
      · exact hbehind (finishes_jumpStatement _)
      · exact hbehind (finishes_returnStatement hforward)
      · refine hbehind fun e he => ?_
        refine .bind (forward_expressions hforward _) fun _ _ => ?_
        exact .bind (forward_terminator _) fun _ _ => (finishes_finish _ _).last he
      · refine hbehind fun e he => ?_
        exact .bind (forward_terminator _) fun _ _ => (finishes_finish _ _).last he
      · exact hbehind (finishes_declarators hforward _)
      · exact hbehind (finishes_declarators hforward _)
      · split
        · exact hbehind (finishes_declarators hforward _)
        · exact fits_nameStatement hforward hd _
      · next hw =>
          have hword := introduces_function hname hw
          exact .ahead hd.le (.rebase fun _ => after_functionStatement hn hd hword _)
      · next hw =>
          split
          · next e he =>
              have hce := hd.trans_le (le_of_asyncFunction? he)
              have hword := introduces_of_asyncFunction? hname hw he
              exact .ahead hce.le (.rebase fun _ => after_functionStatement hn hce hword _)
          · exact fits_nameStatement hforward hd _
      · exact hbehind (finishes_classStatement hforward _)
      · next hword =>
          have hw : w = "import".toList := by rw [← hword, String.toList_ofList]
          split
          · split
            · exact fits_expressionStatement hforward c
            · refine .ahead hd.le (.rebase fun _ => after_importStatement hforward hd ?_)
              rw [← hw]
              exact rest_of_nameAt? hname
          · exact .refuse
      · exact hbehind (finishes_exportStatement hn)
      · exact fits_nameStatement hforward hd _

end WasmEmbed.Script.Nested
