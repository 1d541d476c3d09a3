import WasmEmbed.Proofs.Script.Moved.Declaration
import WasmEmbed.Proofs.Script.Read

/-!
# Statements further back in a file

The rules for control statements agree for twins, and with them the rule for any statement. The rules are
closed by induction on the number of characters that are left: each construct takes at least one before it
holds another one of its kind. So readers of every sufficient depth are twins (`Nested.twins_ofDepth`).
-/

namespace WasmEmbed.Script.Nested

open Reader

variable {k m : Nat} {n n' : Nested} {c : Cursor}

/-! ## Control

Each of these statements is read behind its first word, where fewer characters are left. A look at the
word behind an inner statement does not move the cursor, and `Twins.wordBehind` is the rule for it.
-/

/-- The rule for a look at the word behind a part of a statement. -/
theorem Twins.wordBehind (hn : Twins k m n n') {α : Type} {f : α → α} {unclosed : Bool}
    {h h' : String × Cursor → Reader α}
    (hh : ∀ w d, d.rest.length < m → Agrees k m f c (h (w, d)) (h' (w, d.moved k))) :
    Agrees k m f c (n.wordBehind unclosed >>= h) (n'.wordBehind unclosed >>= h') := by
  intro hc
  obtain ⟨heq, hbound⟩ := agrees_toStatement hn unclosed hc
  show (((n'.toStatement unclosed (c.moved k)).map fun p => ((n'.wordAt p.2, p.2), c.moved k)) >>=
      fun p => h' p.1 p.2) = (((n.toStatement unclosed c).map fun p => ((n.wordAt p.2, p.2), c)) >>=
      fun p => h p.1 p.2).map _ ∧ ∀ a e,
      (((n.toStatement unclosed c).map fun p => ((n.wordAt p.2, p.2), c)) >>=
      fun p => h p.1 p.2) = some (a, e) → _
  -- The look reads the blanks and comments and goes back to where it began.
  rw [heq]
  cases hread : n.toStatement unclosed c with
  | none => exact ⟨rfl, nofun⟩
  | some p =>
      have hd := hbound p.1 p.2 hread
      simp only [Option.map_some, Prod.map, hn.wordAt hd]
      exact hh _ p.2 hd hc

/-- A condition with a statement, and behind `else` with another one. -/
theorem agrees_ifStatement (hn : Twins k m n n') (start : Cursor) :
    Agrees k m (Closing.moved k) c (n.ifStatement start) (n'.ifStatement (start.moved k)) := by
  unfold ifStatement
  refine .bind (same_parenthesized hn) fun _ _ => .bind (same_toPlain hn) fun _ d => ?_
  refine .bind (hn.statement d) fun consequence _ => hn.wordBehind fun w e he => ?_
  refine .ite (fun _ => .set he (.bind (same_anyName hn) fun _ _ => ?_)) fun _ => agrees_finish _ _ _
  exact .bind (same_toPlain hn) fun _ g => .bind (hn.statement g) fun _ _ => agrees_finish _ _ _

theorem agrees_conditionAndBody (hn : Twins k m n n') (start : Cursor) (kind : Kind) :
    Agrees k m (Closing.moved k) c (n.conditionAndBody start kind)
      (n'.conditionAndBody (start.moved k) kind) := by
  unfold conditionAndBody
  refine .bind (same_parenthesized hn) fun _ _ => .bind (same_toPlain hn) fun _ d => ?_
  exact .bind (hn.statement d) fun _ _ => agrees_finish _ _ _

/-- A statement in front of its condition, behind which the semicolon may be missing. -/
theorem agrees_doStatement (hn : Twins k m n n') (start : Cursor) :
    Agrees k m (Closing.moved k) c (n.doStatement start) (n'.doStatement (start.moved k)) := by
  unfold doStatement
  refine .bind (same_toPlain hn) fun _ d => .bind (hn.statement d) fun body _ =>
    hn.wordBehind fun w e he => ?_
  refine .set he (.bind (same_word hn _) fun _ _ => .bind (same_parenthesized hn) fun _ _ => ?_)
  refine hn.look_any (fun _ hg => .set hg (agrees_finish _ _ _)) fun g _ hg => .ite (fun _ => ?_) fun _ => ?_
  · exact .step hg (agrees_finish _ _ _)
  · exact agrees_finish _ _ _

theorem agrees_forBody (hn : Twins k m n n') (start : Cursor) (kind : Kind) :
    Agrees k m (Closing.moved k) c (n.forBody start kind) (n'.forBody (start.moved k) kind) := by
  unfold forBody
  exact .bind (same_toPlain hn) fun _ d => .bind (hn.statement d) fun _ _ => agrees_finish _ _ _

/-- A loop over values, from `in` or `of` on. -/
theorem agrees_forInRest (hn : Twins k m n n') (start : Cursor) (operator : Bool) :
    Agrees k m (Closing.moved k) c (n.forInRest start operator) (n'.forInRest (start.moved k) operator) := by
  unfold forInRest
  refine .bind (same_toToken hn _) fun _ _ => .bind (same_anyName hn) fun _ _ => .require fun _ => ?_
  refine .bind (same_expressions hn _) fun _ _ => .bind (same_symbol hn _ _) fun _ _ => ?_
  exact agrees_forBody hn _ _

/-- The condition and the update of a counting loop. Both may be missing, which the local readers allow
for. -/
theorem agrees_forRest (hn : Twins k m n n') (start : Cursor) :
    Agrees k m (Closing.moved k) c (n.forRest start) (n'.forRest (start.moved k)) := by
  unfold forRest
  refine .bind (same_toPlain hn) fun _ d => .get fun hd => ?_
  extract_lets body rest body' rest'
  have hbody : ∀ u e, Agrees k m (Closing.moved k) e (body u) (body' u) := fun _ _ => agrees_forBody hn _ _
  have hrest : ∀ u e, Agrees k m (Closing.moved k) e (rest u) (rest' u) := by
    intro u e
    refine .bind (same_toPlain hn) fun _ g => .get fun hg => .ite (fun _ => .step hg (hbody ⟨⟩ _)) fun _ => ?_
    refine .bind (same_expressions hn _) fun _ _ => ?_
    exact .bind (same_symbol hn _ _) fun u h => hbody u h
  refine .ite (fun _ => .step hd (hrest ⟨⟩ _)) fun _ => .bind (same_expressions hn _) fun _ _ => ?_
  exact .bind (same_symbol hn _ _) fun u e => hrest u e

theorem agrees_forInDeclaration (hn : Twins k m n n') (start : Cursor) (isVar : Bool) :
    Agrees k m (Closing.moved k) c (n.forInDeclaration start isVar)
      (n'.forInDeclaration (start.moved k) isVar) := by
  unfold forInDeclaration
  refine .bind (same_binding hn) fun _ _ =>
    .ite (fun _ => .bind (same_initializer? hn _) fun _ _ => ?_) fun _ => ?_
  · exact hn.look (fun _ _ => .refuse) (fun _ he => .set he (agrees_forInRest hn _ _)) fun _ _ _ => .refuse
  · exact .bind (same_skipSemicolon hn _) fun _ _ => agrees_forInRest hn _ _

theorem agrees_forDeclaration (hn : Twins k m n n') (start : Cursor) :
    Agrees k m (Closing.moved k) c (n.forDeclaration start) (n'.forDeclaration (start.moved k)) := by
  unfold forDeclaration
  refine .bind (same_bindings hn hn.depth hn.depth') fun _ _ => ?_
  exact .bind (same_terminator hn _) fun _ _ => agrees_forRest hn _

theorem agrees_forExpression (hn : Twins k m n n') (start : Cursor) :
    Agrees k m (Closing.moved k) c (n.forExpression start) (n'.forExpression (start.moved k)) := by
  unfold forExpression
  refine .bind (hn.expression _ _ _) fun s d => ?_
  extract_lets counting counting'
  have hcounting : Agrees k m (Closing.moved k) d counting counting' := by
    refine .bind (same_expressionsBehind hn _ _) fun _ _ => ?_
    exact .bind (same_symbol hn _ _) fun _ _ => agrees_forRest hn _
  exact .ite (fun _ => .orElse (agrees_forInRest hn _ _) hcounting) fun _ => hcounting

/-- A loop, by what its head declares. Both sides try the loop over values first and fall back to the
counting loop under the same conditions. -/
theorem agrees_forStatement (hn : Twins k m n n') (start : Cursor) :
    Agrees k m (Closing.moved k) c (n.forStatement start) (n'.forStatement (start.moved k)) := by
  unfold forStatement
  refine .bind (same_toPlain hn) fun _ d => .get fun hd => ?_
  rw [hn.wordAt hd]
  extract_lets awaited inOnly declared rest declared' rest'
  -- Behind `await` only a loop over values is allowed.
  have hinOnly {r r' : Reader Closing} {e : Cursor} (hr : Agrees k m (Closing.moved k) e r r') :
      Agrees k m (Closing.moved k) e (inOnly r) (inOnly r') :=
    .bind hr fun closing _ => .require fun _ => .pure
  have hdeclared : ∀ e, Agrees k m (Closing.moved k) e declared declared' := fun e =>
    .bind (same_anyName hn) fun _ _ =>
    .orElse (agrees_forInDeclaration hn _ _) (hinOnly (agrees_forDeclaration hn _))
  have hrest : ∀ u e, Agrees k m (Closing.moved k) e (rest u) (rest' u) := by
    intro u e
    refine .bind (same_symbol hn _ _) fun _ _ => .bind (same_toPlain hn) fun _ g => .get fun hg => ?_
    rw [hn.wordAt hg]
    refine .ite (fun _ => .step hg (hinOnly (agrees_forRest hn _))) fun _ => .ite (fun _ => ?_) fun _ => ?_
    · refine .bind (same_anyName hn) fun _ _ => ?_
      exact .orElse (agrees_forInDeclaration hn _ _) (hinOnly (agrees_forDeclaration hn _))
    · refine .ite (fun _ => .orElse (hdeclared g) ?_) fun _ => hinOnly (agrees_forExpression hn _)
      exact hinOnly (agrees_forExpression hn _)
  exact .ite (fun _ => .bind (same_anyName hn) fun _ e => hrest () e) fun _ => hrest () d

/-- The cases of a switch. A case consumes its word, so the statements of the case and the cases behind it
are read by twins for one character less. -/
theorem same_cases (hn : Twins k m n n') {j j' : Nat} (hj : m ≤ j) (hj' : m ≤ j') :
    Same k m c (n.cases j) (n'.cases j') := by
  refine .loop (fun q hq i i' ih c => ?_) hj hj' c
  replace hn := hn.mono hq
  unfold cases
  refine .bind (same_toPlain hn) fun _ d => .get fun hd => .ite (fun _ => .step_last hd) fun _ => ?_
  refine .bind_strict (same_anyName hn) (fun _ _ h => strict_anyName.lt h) fun w _ => ?_
  extract_lets rest rest'
  have hrest : ∀ u e, Same k q e (rest u) (rest' u) := by
    intro u e
    refine .bind (agrees_statements hn.pred fun g hg => ?_) fun _ g => ih g
    rw [hn.pred.wordAt hg, Cursor.nextIs_moved]
  refine .ite (fun _ => .bind (same_expressions hn.pred _) fun _ _ => ?_) fun _ => .require fun _ => ?_
  · exact .bind (same_symbol hn.pred _ _) fun u e => hrest u e
  · exact .bind (same_symbol hn.pred _ _) fun u e => hrest u e

theorem agrees_switchStatement (hn : Twins k m n n') (start : Cursor) :
    Agrees k m (Closing.moved k) c (n.switchStatement start) (n'.switchStatement (start.moved k)) := by
  unfold switchStatement
  refine .bind (same_parenthesized hn) fun _ _ => .bind (same_symbol hn _ _) fun _ _ => ?_
  exact .bind (same_cases hn hn.depth hn.depth') fun _ _ => agrees_finish _ _ _

theorem same_innerBlock (hn : Twins k m n n') : Same k m c n.innerBlock n'.innerBlock := by
  unfold innerBlock
  exact .bind (same_toPlain hn) fun _ _ => .bind (agrees_block hn) fun _ _ => same_skipSemicolon hn _

/-- A block with a handler, a block behind `finally`, or both. -/
theorem agrees_tryStatement (hn : Twins k m n n') (start : Cursor) :
    Agrees k m (Closing.moved k) c (n.tryStatement start) (n'.tryStatement (start.moved k)) := by
  unfold tryStatement
  refine .bind (same_innerBlock hn) fun closed _ => hn.wordBehind fun w d hd => ?_
  dsimp -zeta only
  extract_lets ending behindCatch caught ending' behindCatch' caught'
  -- Behind the block or behind its handler, `finally` may follow.
  have hbehind : ∀ closed e, Agrees k m (Closing.moved k) e (behindCatch closed) (behindCatch' closed) := by
    intro closed e
    refine hn.wordBehind fun w g hg => .ite (fun _ => .set hg ?_) fun _ => agrees_finish _ _ _
    exact .bind (same_anyName hn) fun _ _ => .bind (same_innerBlock hn) fun _ _ => agrees_finish _ _ _
  have hcaught : ∀ u e, Agrees k m (Closing.moved k) e (caught u) (caught' u) := fun _ _ =>
    .bind (same_innerBlock hn) fun closed e => hbehind closed e
  refine .ite (fun _ => .set hd (.bind (same_anyName hn) fun _ _ => ?_)) fun _ => hbehind closed _
  refine .bind (same_toPlain hn) fun _ e => .get fun he => .ite (fun _ => .step he ?_) fun _ => hcaught () e
  exact .bind (same_binding hn) fun _ _ => .bind (same_symbol hn _ _) fun u g => hcaught u g

/-- A jump, with a label on the same line or without one. -/
theorem agrees_jumpStatement (hn : Twins k m n n') (start : Cursor) (kind : Kind) :
    Agrees k m (Closing.moved k) c (n.jumpStatement start kind) (n'.jumpStatement (start.moved k) kind) := by
  have hend (d : Cursor) : Agrees k m (Closing.moved k) d
      (n.terminator false >>= fun _ => finish start kind false)
      (n'.terminator false >>= fun _ => finish (start.moved k) kind false) :=
    .bind (same_terminator hn _) fun _ _ => agrees_finish _ _ _
  unfold jumpStatement
  refine hn.look_any (fun _ _ => hend c) fun d _ hd => ?_
  dsimp only
  rw [hn.nameAt? hd, Option.isSome_map]
  exact .ite (fun _ => .set hd (.bind (same_freeName hn) fun _ e => hend e)) fun _ => hend c

/-- A return, with a value that begins on the same line or without one. -/
theorem agrees_returnStatement (hn : Twins k m n n') (start : Cursor) :
    Agrees k m (Closing.moved k) c (n.returnStatement start) (n'.returnStatement (start.moved k)) := by
  unfold returnStatement
  refine hn.look_any (fun _ hd => .set hd (agrees_finish _ _ _)) fun d _ hd => .set hd ?_
  refine .ite (fun _ => .step hd (agrees_finish _ _ _)) fun _ => ?_
  rw [opensMarkupComment_moved]
  refine .require fun _ => .bind (same_expressions hn _) fun _ _ => ?_
  exact .bind (same_terminator hn _) fun _ _ => agrees_finish _ _ _

/-! ## Dispatch

The first word or character tells the statement. It is consumed before the readers of the parts are
called, and so `agrees_statementAt` gains the one character that the induction below goes by.
-/

/-- A statement that begins with a name: a label with a statement, or an expression. -/
theorem agrees_nameStatement (hn : Starts k m n n') (w : String) {behind : Cursor} (hlt : c < behind) :
    Agrees k (m + 1) (Closing.moved k) c (n.nameStatement c w behind)
      (n'.nameStatement (c.moved k) w (behind.moved k)) := by
  unfold nameStatement
  refine .given fun hc => ?_
  have hshort := Cursor.length_lt hlt
  -- A word with a meaning of its own is no label, and for any other one the colon is looked for.
  have hlabel :
      (if (reservedWords.contains w || openingWord w) = true then none else n'.labelColon? (behind.moved k)) =
      (if (reservedWords.contains w || openingWord w) = true then none else n.labelColon? behind).map
        (Cursor.moved k) := by
    rw [hn.labelColon? (by omega), apply_ite (Option.map (Cursor.moved k))]
    rfl
  rw [hlabel]
  cases hcolon :
    (if (reservedWords.contains w || openingWord w) = true then none else n.labelColon? behind) with
  | none => exact agrees_expressionStatement hn
  | some d =>
      have hle : behind ≤ d := by
        split at hcolon
        · cases hcolon
        · exact le_of_labelColon? hcolon
      refine .ahead_lower (hlt.trans_le hle) hc (.bind (same_toPlain hn.toTwins) fun _ e => ?_)
      exact .bind (hn.statement e) fun _ _ => agrees_finish _ _ _

/-- A statement of any kind, in front of one character more than the twins agree for. -/
theorem agrees_statementAt (hn : Starts k m n n') :
    Agrees k (m + 1) (Closing.moved k) c n.statementAt n'.statementAt := by
  unfold statementAt
  refine .get fun hc => ?_
  rw [hn.deep.nameAt? hc]
  cases hname : n.nameAt? c with
  | none =>
      dsimp only [Option.map_none]
      rw [Cursor.rest_moved]
      split
      · next hrest =>
          have hsemicolon : c.nextIs (· == ';') = true := by simp [Cursor.nextIs, hrest]
          exact .step_lower hc hsemicolon (agrees_finish _ _ _)
      · next hrest =>
          have hbrace : c.nextIs (· == '\x7b') = true := by simp [Cursor.nextIs, hrest]
          exact agrees_braceStatement hn.toTwins hbrace
      · refine .bind hn.decorators fun _ d => .get fun hd => ?_
        refine .bind_strict hn.deep.anyName (fun _ _ h => strict_anyName.lt h) fun w _ => ?_
        refine .ite (fun _ => agrees_exportStatement hn.toTwins c) fun _ => ?_
        rw [Cursor.offset_moved, Cursor.offset_moved]
        simp only [Nat.add_lt_add_iff_left]
        exact .require fun _ => agrees_classStatement hn.toTwins _ _
      · exact agrees_expressionStatement hn
  | some p =>
      obtain ⟨w, d⟩ := p
      have hlt := lt_of_nameAt? hname
      have hshort := Cursor.length_lt hlt
      have hd : d.rest.length < m := by omega
      dsimp only [Option.map_some]
      -- What the dispatch asks about the text behind the first word has the same answers.
      rw [hn.letDeclares _ hd, hn.asyncFunction? _ hd, hn.find _ hd]
      -- Behind the first word less is left, so the nested readers agree there.
      have hbehind {r r' : Reader Closing} (hr : Agrees k m (Closing.moved k) d r r') :
          Agrees k (m + 1) (Closing.moved k) c (set d >>= fun _ => r) (set (d.moved k) >>= fun _ => r') :=
        .ahead_lower hlt hc hr
      split
      · exact hbehind (agrees_ifStatement hn.toTwins _)
      · exact hbehind (agrees_forStatement hn.toTwins _)
      · exact hbehind (agrees_conditionAndBody hn.toTwins _ _)
      · exact hbehind (agrees_conditionAndBody hn.toTwins _ _)
      · exact hbehind (agrees_doStatement hn.toTwins _)
      · exact hbehind (agrees_switchStatement hn.toTwins _)
      · exact hbehind (agrees_tryStatement hn.toTwins _)
      · exact hbehind (agrees_jumpStatement hn.toTwins _ _)
      · exact hbehind (agrees_jumpStatement hn.toTwins _ _)
      · exact hbehind (agrees_returnStatement hn.toTwins _)
      · refine hbehind (.bind (same_expressions hn.toTwins _) fun _ _ => ?_)
        exact .bind (same_terminator hn.toTwins _) fun _ _ => agrees_finish _ _ _
      · exact hbehind (.bind (same_terminator hn.toTwins _) fun _ _ => agrees_finish _ _ _)
      · exact hbehind (agrees_declarators hn.toTwins _ _)
      · exact hbehind (agrees_declarators hn.toTwins _ _)
      · refine .ite (fun _ => hbehind (agrees_declarators hn.toTwins _ _)) fun _ => ?_
        exact agrees_nameStatement hn _ hlt
      · exact hbehind (agrees_functionStatement hn.toTwins _ _ _)
      · cases hasync : n.asyncFunction? (.value true) d with
        | none => exact agrees_nameStatement hn _ hlt
        | some e =>
            exact .ahead_lower (hlt.trans_le (le_of_asyncFunction? hasync)) hc
              (agrees_functionStatement hn.toTwins _ _ _)
      · exact hbehind (agrees_classStatement hn.toTwins _ _)
      · obtain e | ⟨e, conditional⟩ := Gap.find .plain n.depth d
        · exact .refuse
        · refine .ite (fun _ => agrees_expressionStatement hn) fun _ => ?_
          exact hbehind (agrees_importStatement hn.toTwins _)
      · exact hbehind (agrees_exportStatement hn.toTwins _)
      · exact agrees_nameStatement hn _ hlt

/-! ## Readers of a sufficient depth

The tower of readers needs two levels for a character: one for the construct that holds an element and one
for the element itself. At no characters there is nothing to show.
-/

/-- Readers whose depth is more than twice the number of characters that are left are twins. -/
theorem twins_ofDepth {j j' : Nat} (hj : 2 * m < j) (hj' : 2 * m < j') :
    Twins k m (ofDepth j) (ofDepth j') := by
  induction m generalizing j j' with
  | zero =>
      refine ⟨⟨Nat.zero_le _, Nat.zero_le _⟩, sound_ofDepth j, ?_, ?_, ?_, ?_⟩
      · exact fun _ _ _ => nofun
      · exact fun _ _ => nofun
      · exact fun _ => nofun
      · exact fun _ => nofun
  | succ m ih =>
      obtain _ | _ | j := j
      · omega
      · omega
      obtain _ | _ | j' := j'
      · omega
      · omega
      -- An element is read by twins one level further in, and so is what an element contains.
      have hn : Starts k m (ofDepth (j + 1)) (ofDepth (j' + 1)) :=
        ⟨ih (by omega) (by omega), ⟨by show m + 1 ≤ j + 1; omega, by show m + 1 ≤ j' + 1; omega⟩,
          fun _ => same_markup (ih (by omega) (by omega))⟩
      refine ⟨⟨?_, ?_⟩, sound_ofDepth _, ?_, ?_, ?_, ?_⟩
      · show m + 1 ≤ j + 2
        omega
      · show m + 1 ≤ j' + 2
        omega
      · exact fun mode floor _ => same_expressionAt hn mode floor
      · exact fun mode _ => same_operandAt hn mode
      · exact fun _ => same_markup hn.toTwins
      · exact fun _ => agrees_statementAt hn

end WasmEmbed.Script.Nested
