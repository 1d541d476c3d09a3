import WasmEmbed.Proofs.Script.Moved.Collection

/-!
# Expressions further back in a file

The rules for the operators behind an operand, for functions with an arrow and for operands agree for twins.

An operator that is found takes at least one character. So what it is followed by is read in front of
fewer characters, and the twins need not know about the place in front of the operator. That carries the
loops over operators and over the members behind `new`.
-/

namespace WasmEmbed.Script.Nested

open Reader

variable {k m : Nat} {n n' : Nested} {c : Cursor}

/-! ## Operators behind an operand

`access?` and `extended?` answer a reader or nothing. That they agree is a relation between their answers:
both are nothing, or both are readers that read the same at every cursor.
-/

/-- The operator at a place is told by its characters or by its name. -/
theorem Deep.operator? (hn : Deep m n n') (hc : c.rest.length < m) :
    Operator.at? n' (c.moved k) = (Operator.at? n c).map (Prod.map id (Cursor.moved k)) := by
  simp only [Operator.at?, Cursor.rest_moved, Cursor.skip_moved, hn.nameAt? hc]
  cases Operator.ofSymbol? c.rest with
  | some p => rfl
  | none =>
      cases n.nameAt? c with
      | none => rfl
      | some p =>
          simp only [Option.map_some, apply_ite (Option.map (Prod.map id (Cursor.moved k)))]
          rfl

/-- Whether an expression can begin at a place. -/
theorem Deep.beginsExpression (hn : Deep m n n') (hc : c.rest.length < m) :
    Operator.beginsExpression n' (c.moved k) = Operator.beginsExpression n c := by
  simp only [Operator.beginsExpression, Cursor.rest_moved, hn.nameAt? hc]
  cases n.nameAt? c <;> rfl

/-- Whether what stands at a place can only continue an expression. -/
theorem Deep.onlyContinues (hn : Deep m n n') (hc : c.rest.length < m) :
    Operator.onlyContinues n' (c.moved k) = Operator.onlyContinues n c := by
  simp only [Operator.onlyContinues, hn.operator? hc, hn.beginsExpression hc, Option.isSome_map,
    Cursor.nextIs_moved]

theorem same_memberBehind (hn : Twins k m n n') : Same k m c n.memberBehind n'.memberBehind := by
  unfold memberBehind
  refine .bind (same_toPlain hn) fun _ d => .get fun _ => .ite (fun _ => hn.privateName) fun _ => ?_
  exact .bind (same_anyName hn) fun _ _ => .pure

theorem same_indexBehind (hn : Twins k m n n') : Same k m c n.indexBehind n'.indexBehind := by
  unfold indexBehind
  exact .bind (same_expressions hn _) fun _ _ => same_symbol hn _ _

/-- What follows an operand as part of it is read the same, if there is such a thing. -/
theorem rel_access? (hn : Twins k m n n') (s : Shape) (op : Operator) :
    Option.Rel (fun r r' => ∀ c, Same k m c r r') (n.access? s op) (n'.access? s op) := by
  cases op with
  | dot => exact .some fun c => .bind (same_memberBehind hn) fun _ _ => .pure
  | index => exact .some fun c => .bind (same_indexBehind hn) fun _ _ => .pure
  | chain =>
      refine .some fun c => .bind (same_toPlain hn) fun _ d => .get fun hd => .ite (fun _ => ?_) fun _ => ?_
      · exact .require fun _ => .step hd (.bind (same_arguments hn) fun _ _ => .pure)
      · refine .ite (fun _ => .step hd (.bind (same_indexBehind hn) fun _ _ => .pure)) fun _ => ?_
        exact .bind (same_memberBehind hn) fun _ _ => .pure
  | template =>
      simp only [access?]
      split
      · exact .some fun c => .bind (same_templateRest hn hn.depth hn.depth') fun _ _ => .pure
      · exact .none
  | _ => exact .none

/-- What an operator makes of a shape is read the same, if it may follow. -/
theorem rel_extended? (hn : Twins k m n n') (mode : Mode) (floor : Nat) (s : Shape) (op : Operator) :
    Option.Rel (fun r r' => ∀ c, Same k m c r r') (n.extended? mode floor s op)
      (n'.extended? mode floor s op) := by
  -- An operator with a right operand reads a value, whatever its level.
  have hvalue (level : Nat) (t : Shape) (c : Cursor) : Same k m c
      (n.valueOf mode.right level >>= fun _ => pure t) (n'.valueOf mode.right level >>= fun _ => pure t) :=
    .bind (same_valueOf hn _ _) fun _ _ => .pure
  cases op with
  | step =>
      simp only [extended?]
      split
      · exact .some fun _ => .pure
      · exact .none
  | call =>
      simp only [extended?]
      split
      · exact .some fun c => .bind (same_arguments hn) fun _ _ => .pure
      · exact .none
  | dot | index | chain | template =>
      simp only [extended?]
      split
      · exact rel_access? hn s _
      · exact .none
  | _ =>
      simp only [extended?]
      split
      · exact .some (hvalue _ _)
      · exact .none

theorem same_conditionalRest (hn : Twins k m n n') (mode : Mode) :
    Same k m c (n.conditionalRest mode) (n'.conditionalRest mode) := by
  unfold conditionalRest
  refine .bind (same_valueOf hn _ _) fun _ _ => .bind (same_symbol hn _ _) fun _ _ => ?_
  exact .bind (same_valueOf hn _ _) fun _ _ => .pure

/-- The operators behind an operand, at most as many as there are characters. The shape so far is an
argument of the loop, and the induction is over all shapes at once. -/
theorem same_climb (hn : Twins k m n n') (mode : Mode) (floor : Nat) {j j' : Nat} (hj : m ≤ j) (hj' : m ≤ j')
    (s : Shape) : Same k m c (n.climb mode floor j s) (n'.climb mode floor j' s) := by
  refine @Agrees.loop_with _ k m _ _ (fun s i => n.climb mode floor i s) (fun s i => n'.climb mode floor i s)
    (fun q hq i i' ih s c => ?_) j j' hj hj' s c
  replace hn := hn.mono hq
  show Same k (q + 1) c (n.climb mode floor (i + 1) s) (n'.climb mode floor (i' + 1) s)
  unfold climb
  refine hn.look (fun _ _ => .pure) (fun d hd => ?_) fun d hd hmark => .ite (fun _ => ?_) fun _ => .pure
  · dsimp only
    rw [hn.operator? hd]
    cases hop : Operator.at? n d with
    | none => exact .pure
    | some p =>
        have hreader := rel_extended? hn.pred mode floor s p.1
        dsimp only [Option.map_some, Prod.map, id]
        generalize n.extended? mode floor s p.1 = reader, n'.extended? mode floor s p.1 = reader' at hreader
        cases hreader with
        | none => exact .pure
        | some hreader => exact .ahead_lower (lt_of_at? hop) hd (.bind (hreader _) fun t e => ih t e)
  · -- The question mark of a conditional is one character, which is consumed.
    exact .step_lower hd hmark (.bind (same_conditionalRest hn.pred mode) fun t e => ih t e)

theorem same_expressionsBehind (hn : Twins k m n n') (mode : Mode) (s : Shape) :
    Same k m c (n.expressionsBehind mode s) (n'.expressionsBehind mode s) := by
  unfold expressionsBehind
  refine .bind (same_climb hn _ _ hn.depth hn.depth' _) fun _ _ => .require fun _ => ?_
  exact same_expressionsMore hn _ hn.depth hn.depth'

theorem same_expressionBehind (hn : Twins k m n n') (mode : Mode) (s : Shape) :
    Same k m c (n.expressionBehind mode s) (n'.expressionBehind mode s) := by
  unfold expressionBehind
  exact .bind (same_climb hn _ _ hn.depth hn.depth' _) fun _ _ => .require_last

/-- The statement that ends here, with `k` more bytes in front of it. -/
theorem agrees_finish (start : Cursor) (kind : Kind) (unclosed : Bool) :
    Agrees k m (Closing.moved k) c (finish start kind unclosed) (finish (start.moved k) kind unclosed) := by
  unfold finish
  exact .get fun _ => .pure

/-- An expression that stands as a statement ends at its terminator. -/
theorem agrees_expressionStatementBehind (hn : Twins k m n n') (start : Cursor) (s : Shape) :
    Agrees k m (Closing.moved k) c (n.expressionStatementBehind start s)
      (n'.expressionStatementBehind (start.moved k) s) := by
  unfold expressionStatementBehind
  refine .bind (same_expressionsBehind hn _ _) fun _ _ => ?_
  exact .bind (same_terminator hn _) fun _ _ => agrees_finish _ _ _

/-! ## Blocks that begin like objects

The first statement of such a block has a reader of its own. It agrees as one that may be given to
`agrees_blockFrom`.
-/

/-- The colon behind a word is behind the gap behind the word. -/
theorem Deep.labelColon? (hn : Deep m n n') (hc : c.rest.length < m) :
    n'.labelColon? (c.moved k) = (n.labelColon? c).map (Cursor.moved k) := by
  simp only [Nested.labelColon?, hn.find _ hc]
  obtain d | ⟨d, _ | _⟩ := Gap.find (.value true) n.depth c
  · rfl
  · exact Cursor.dropWord?_moved _
  · rfl

theorem first_firstStatement (hn : Twins k m n n') : First k m n.firstStatement n'.firstStatement where
  strict := strict_firstStatement hn.sound.toForward hn.strict_statement
  agrees c := by
    unfold firstStatement
    refine .get fun hc => ?_
    rw [hn.nameAt? hc]
    cases hname : n.nameAt? c with
    | none => exact hn.statement c
    | some p =>
        have hle := (lt_of_nameAt? hname).le
        have hd := Nat.lt_of_le_of_lt (Cursor.length_le hle) hc
        refine .ite (fun _ => .ahead hle hc ?_) fun _ => hn.statement c
        rw [hn.labelColon? hd]
        cases hcolon : n.labelColon? p.2 with
        | none => exact agrees_expressionStatementBehind hn _ _
        | some e =>
            refine .ahead (le_of_labelColon? hcolon) hd (.bind (same_toPlain hn) fun _ _ => ?_)
            exact .bind (hn.statement _) fun _ _ => agrees_finish _ _ _

/-- A block whose brace could also open an object. -/
theorem agrees_looseBlock (hn : Twins k m n n') :
    Agrees k (m + 1) (Block.moved k) c n.looseBlock n'.looseBlock :=
  agrees_blockFrom hn (first_firstStatement hn)

/-! ## Functions written with an arrow

A look for an arrow answers the cursor behind the arrow and stays where it is. The rule `Twins.arrow`
turns that into two cases, so that no lemma below speaks of the look itself.
-/

/-- The arrow is found at its moved place or on neither side. -/
theorem agrees_arrowFollows (hn : Twins k m n n') (follow : Follow) :
    Agrees k m (Option.map (Cursor.moved k)) c (n.arrowFollows follow) (n'.arrowFollows follow) := by
  unfold arrowFollows
  exact hn.look (fun _ _ => .pure) (fun d _ => .pure_of (Cursor.dropWord?_moved _)) fun _ _ _ => .pure

/-- The rule for a look for an arrow, which leaves the cursor where it is. -/
theorem Twins.arrow (hn : Twins k m n n') {α : Type} {f : α → α} {follow : Follow}
    {h h' : Option Cursor → Reader α}
    (hnone : Agrees k m f c (h none) (h' none))
    (hsome : ∀ d, d.rest.length < m → Agrees k m f c (h (some d)) (h' (some (d.moved k)))) :
    Agrees k m f c (n.arrowFollows follow >>= h) (n'.arrowFollows follow >>= h') := by
  refine .bind_read (agrees_arrowFollows hn follow) fun arrow d hread => .given fun hd => ?_
  obtain ⟨rfl, hplace⟩ := after_arrowFollows follow c (le_refl c) arrow d hread
  cases arrow with
  | none => exact hnone
  | some e => exact hsome e (Nat.lt_of_le_of_lt (Cursor.length_le (hplace e rfl)) hd)

theorem same_leadingExpression (hn : Twins k m n n') (mode : Mode) {p : Char → Bool}
    (hnext : c.nextIs p = true) :
    Same k m c (n.leadingExpression mode) (n'.leadingExpression mode) := by
  unfold leadingExpression
  have hobject :=
    (same_leadingObject hn hnext).mono (strict_leadingObject hn.sound.toForward).forward (Nat.le_succ m)
  exact .bind hobject fun _ _ => same_expressionBehind hn _ _

/-- The body behind an arrow, a block, an object or a value, by the same choice. -/
theorem same_arrowBody (hn : Twins k m n n') (mode : Mode) :
    Same k m c (n.arrowBody mode) (n'.arrowBody mode) := by
  unfold arrowBody
  refine .bind (same_toPlain hn) fun _ d => .get fun hd => ?_
  extract_lets finish asBlock asBlock'
  have hfinish : ∀ u e, Same k m e (finish u) (finish u) := fun _ _ => .pure
  -- The reading as a block, with the answer whether it is complete.
  have hblock : Same k m d asBlock asBlock' := by
    have hloose :=
      (agrees_looseBlock (c := d) hn).mono (forward_looseBlock hn.sound.toForward) (Nat.le_succ m)
    refine .bind hloose fun _ _ => hn.look_any (fun _ _ => .pure) fun e _ _ => ?_
    dsimp only
    rw [Cursor.dropWord?_moved, Cursor.dropWord?_moved, Option.isSome_map, Option.isSome_map]
    exact .pure
  refine .ite (fun hbrace => ?_) fun _ => .bind (same_valueOf hn _ _) fun u e => hfinish u e
  -- The rule runs this reading on the side and looks at its answer.
  obtain ⟨heq, hbound⟩ := hblock hd
  rw [heq]
  have hobject := same_leadingExpression hn mode.right hbrace
  cases hread : asBlock d with
  | none => exact .bind hobject fun u e => hfinish u e
  | some p =>
      obtain ⟨complete, e⟩ := p
      have he := hbound complete e hread
      cases complete with
      | true => exact .set he (hfinish () e)
      | false => exact .bind (.orElse hobject (.set_last he)) fun u e => hfinish u e

/-- A list in parentheses with an arrow behind it, or without one. -/
theorem same_listOrArrow (hn : Twins k m n n') (mode : Mode) (entries : List Entry) (allowed : Bool)
    (otherwise : Shape) :
    Same k m c (n.listOrArrow mode entries allowed otherwise)
      (n'.listOrArrow mode entries allowed otherwise) := by
  unfold listOrArrow
  extract_lets rest rest'
  have hnone : ∀ d, Same k m d (rest none) (rest' none) := fun d => .require fun _ => .pure
  exact .ite (fun _ => hn.arrow (hnone c) fun d hd => .set hd (same_arrowBody hn mode)) fun _ => hnone c

theorem same_groupOrArrow (hn : Twins k m n n') (mode : Mode) :
    Same k (m + 1) c (n.groupOrArrow mode) (n'.groupOrArrow mode) := by
  unfold groupOrArrow
  refine .bind_strict (.exactly _) (fun _ _ h => (strict_exactly (by decide)).lt h) fun _ _ => ?_
  exact .bind (same_entries hn _) fun _ _ => same_listOrArrow hn _ _ _ _

theorem same_nameOrArrow (hn : Twins k m n n') (mode : Mode) :
    Same k m c (n.nameOrArrow mode) (n'.nameOrArrow mode) := by
  unfold nameOrArrow
  exact hn.arrow .pure fun d hd => .set hd (same_arrowBody hn mode)

/-- Behind `async`: a function, a list with or without an arrow, one parameter with an arrow, or
nothing. -/
theorem same_asyncRest (hn : Twins k m n n') (mode : Mode) :
    Same k m c (n.asyncRest mode) (n'.asyncRest mode) := by
  unfold asyncRest
  refine hn.look (fun _ _ => .pure) (fun d hd => ?_) fun _ _ _ => .pure
  dsimp only
  rw [hn.wordAt hd, hn.nameAt? hd]
  refine .ite (fun _ => .set hd ?_) fun _ => .ite (fun _ => .step hd ?_) fun _ => ?_
  · exact .bind (same_anyName hn) fun _ _ => .bind (same_functionRest hn) fun _ _ => .pure
  · exact .bind (same_entries hn _) fun _ _ => same_listOrArrow hn _ _ _ _
  · cases hname : n.nameAt? d with
    | none => exact same_nameOrArrow hn mode
    | some p =>
        refine .ite (fun _ => same_nameOrArrow hn mode) fun _ => ?_
        have he := Nat.lt_trans (Cursor.length_lt (lt_of_nameAt? hname)) hd
        -- The one parameter is followed by an arrow, behind another gap.
        have hfind := Cursor.length_le (Gap.le_find .plain n.depth p.2)
        rw [hn.find _ he]
        generalize Gap.find .plain n.depth p.2 = gap at hfind
        obtain g | ⟨g, conditional⟩ := gap
        · exact .pure
        · dsimp only [Gap.moved]
          rw [Cursor.dropWord?_moved]
          cases harrow : g.dropWord? "=>".toList with
          | none => exact .pure
          | some h =>
              exact .ahead (Cursor.le_of_dropWord? harrow) (Nat.lt_of_le_of_lt hfind he)
                (same_arrowBody hn mode)

/-! ## Operands

An operand begins with a word, a bracket, a quote or a sign, and that first character is consumed before
anything nested in the operand is read. Therefore operands agree in front of one character more than the
twins do.
-/

/-- The members behind the callee of `new`, with the shape so far as an argument of the loop. -/
theorem same_calleeRest (hn : Twins k m n n') (mode : Mode) {j j' : Nat} (hj : m ≤ j) (hj' : m ≤ j')
    (s : Shape) :
    Same k m c (n.calleeRest mode j s) (n'.calleeRest mode j' s) := by
  refine @Agrees.loop_with _ k m _ _ (fun s i => n.calleeRest mode i s) (fun s i => n'.calleeRest mode i s)
    (fun q hq i i' ih s c => ?_) j j' hj hj' s c
  replace hn := hn.mono hq
  show Same k (q + 1) c (n.calleeRest mode (i + 1) s) (n'.calleeRest mode (i' + 1) s)
  unfold calleeRest
  refine .require fun _ => hn.look (fun _ _ => .pure) (fun d hd => ?_) fun _ _ _ => .pure
  dsimp only
  rw [hn.operator? hd]
  cases hop : Operator.at? n d with
  | none => exact .pure
  | some p =>
      obtain ⟨op, e⟩ := p
      have hlt := lt_of_at? hop
      -- Arguments end the loop. Every other operator that may follow goes on with it.
      have hreader := rel_access? hn.pred s op
      cases op with
      | call => exact .ahead_lower hlt hd (.bind (same_arguments hn.pred) fun _ _ => .pure)
      | _ =>
          dsimp only [Option.map_some, Prod.map, id]
          generalize n.access? s _ = reader, n'.access? s _ = reader' at hreader ⊢
          cases hreader with
          | none => exact .pure
          | some hreader => exact .ahead_lower hlt hd (.bind (hreader e) fun t g => ih t g)

theorem same_newRest (hn : Twins k m n n') (mode : Mode) : Same k m c (n.newRest mode) (n'.newRest mode) := by
  unfold newRest
  refine .bind (same_toPlain hn) fun _ d => .get fun hd => .ite (fun _ => .step hd ?_) fun _ => ?_
  · exact .bind (same_toPlain hn) fun _ _ => .bind (same_word hn _) fun _ _ => .pure
  · exact .bind (hn.operand _ _) fun _ _ => same_calleeRest hn _ hn.depth hn.depth' _

theorem same_importRest (hn : Twins k m n n') : Same k m c n.importRest n'.importRest := by
  unfold importRest
  refine .bind (same_toPlain hn) fun _ d => .get fun hd => .ite (fun _ => .step hd ?_) fun _ => ?_
  · exact .bind (same_toPlain hn) fun _ _ => .bind (same_word hn _) fun _ _ => .pure
  · rw [Cursor.dropWord?_moved]
    cases hchain : d.dropWord? "?.".toList with
    | some e =>
        exact .ahead (Cursor.le_of_dropWord? hchain) hd
          (.bind (same_memberBehind hn) fun _ _ => .pure)
    | none => exact .bind (.exactly _) fun _ _ => .bind (same_arguments hn) fun _ _ => .pure

/-- Whether the characters in front would open an HTML-like comment. -/
@[simp] theorem opensMarkupComment_moved : opensMarkupComment (c.moved k) = opensMarkupComment c := by
  simp only [opensMarkupComment, Cursor.dropWord?_moved, Option.isSome_map]

theorem same_yieldRest (hn : Twins k m n n') (mode : Mode) :
    Same k m c (n.yieldRest mode) (n'.yieldRest mode) := by
  unfold yieldRest
  refine hn.look (fun _ _ => .pure) (fun d hd => ?_) fun _ _ _ => .pure
  extract_lets finish
  have hfinish : ∀ u e, Same k m e (finish u) (finish u) := fun _ _ => .pure
  dsimp only
  rw [hn.beginsExpression hd, opensMarkupComment_moved, Cursor.step_moved]
  refine .require fun _ => .ite (fun _ => .ahead (Cursor.le_step d) hd ?_) fun _ =>
    .ite (fun _ => ?_) fun _ => hfinish () c
  · exact .bind (same_valueOf hn _ _) fun u e => hfinish u e
  · exact .bind (same_valueOf hn _ _) fun u e => hfinish u e

/-- An operand behind the word that begins it, in the order of the reader. -/
theorem same_wordOperand (hn : Twins k m n n') (mode : Mode) (w : List Char) :
    Same k m c (n.wordOperand mode w) (n'.wordOperand mode w) := by
  have hsign : Same k m c (n.valueOf mode.right (Level.sign + 1) >>= fun _ => pure Shape.compound)
      (n'.valueOf mode.right (Level.sign + 1) >>= fun _ => pure Shape.compound) :=
    .bind (same_valueOf hn _ _) fun _ _ => .pure
  unfold wordOperand
  split
  · exact .bind (same_functionRest hn) fun _ _ => .pure
  · exact .bind (same_classRest hn) fun _ _ => .pure
  · exact same_asyncRest hn mode
  · exact same_newRest hn mode
  · exact same_importRest hn
  · exact same_yieldRest hn mode
  · exact hsign
  · exact hsign
  · exact hsign
  · exact hsign
  · refine .bind (hn.expression _ _ _) fun s _ => ?_
    cases s with
    | assignment pattern => exact .pure
    | _ => exact .refuse
  · exact .pure
  · exact .pure
  · exact .pure
  · exact .pure
  · exact .pure
  · exact .pure
  · exact .require fun _ => same_nameOrArrow hn mode

/-- An operand in front of at most `m` characters, if the twins agree in front of fewer. -/
theorem same_operandAt (hn : Starts k m n n') (mode : Mode) :
    Same k (m + 1) c (n.operandAt mode) (n'.operandAt mode) := by
  -- A literal is one token, and nothing is nested in it.
  have htoken {q q' : Cursor → Option Cursor}
      (hq : c.rest.length < m + 1 → q' (c.moved k) = (q c).map (Cursor.moved k))
      (hle : ∀ d, q c = some d → c ≤ d) : Same k (m + 1) c (Reader.move q >>= fun _ => pure Shape.primary)
        (Reader.move q' >>= fun _ => pure Shape.primary) :=
    .bind (.move hq hle) fun _ _ => .pure
  -- A sign is consumed, and the value behind it is read by the twins.
  have hsigned {d : Cursor} (hd : c < d) (level : Nat) (hc : c.rest.length < m + 1) : Same k (m + 1) c
      (set d >>= fun _ => n.valueOf mode.right level >>= fun _ => pure Shape.compound)
      (set (d.moved k) >>= fun _ => n'.valueOf mode.right level >>= fun _ => pure Shape.compound) :=
    .ahead_lower hd hc (.bind (same_valueOf hn.toTwins _ _) fun _ _ => .pure)
  -- What is nested in an operand is read behind its first character.
  have hone {x : Char} {rest : List Char} (h : c.rest = x :: rest) : c < c.step :=
    Cursor.lt_step (by simp [h])
  have htwo {x : Char} {rest : List Char} (h : c.rest = x :: rest) : c < c.skip 2 :=
    (hone h).trans_le (Cursor.le_step _)
  unfold operandAt
  refine .get fun hc => ?_
  rw [hn.deep.nameAt? hc]
  cases hname : n.nameAt? c with
  | some p => exact .ahead_lower (lt_of_nameAt? hname) hc (same_wordOperand hn.toTwins mode _)
  | none =>
      dsimp only [Option.map_none]
      rw [Cursor.rest_moved, Cursor.step_moved, Cursor.skip_moved]
      split
      · exact same_groupOrArrow hn.toTwins mode
      · exact same_array hn.toTwins
      · exact same_object hn.toTwins
      · exact htoken hn.deep.string? fun _ h => (Token.lt_of_string? h).le
      · exact htoken hn.deep.string? fun _ h => (Token.lt_of_string? h).le
      · next hrest =>
          refine .ahead_lower (hone hrest) hc ?_
          exact .bind (same_templateRest hn.toTwins hn.depth hn.depth') fun _ _ => .pure
      · exact htoken (fun _ => Token.regex?_moved) fun _ h => (Token.lt_of_regex? h).le
      · exact .bind (hn.opening c) fun _ _ => .pure
      · refine .bind hn.decorators fun _ _ => ?_
        refine .bind_strict (hn.deep.word _) (fun _ _ h => (strict_word _).lt h) fun _ _ => ?_
        exact .bind (same_classRest hn.toTwins) fun _ _ => .pure
      · refine .bind_strict hn.deep.privateName (fun _ _ h => strict_privateName.lt h) fun _ _ => ?_
        refine .bind (same_toPlain hn.toTwins) fun _ _ => .bind (same_word hn.toTwins _) fun _ _ => ?_
        exact .bind (same_valueOf hn.toTwins _ _) fun _ _ => .pure
      · next hrest => exact hsigned (htwo hrest) _ hc
      · next hrest => exact hsigned (htwo hrest) _ hc
      · next hrest => exact hsigned (hone hrest) _ hc
      · next hrest => exact hsigned (hone hrest) _ hc
      · next hrest => exact hsigned (hone hrest) _ hc
      · next hrest => exact hsigned (hone hrest) _ hc
      · exact htoken (fun _ => Token.number?_moved) fun _ h => (Token.lt_of_number? h).le

/-- An expression is an operand and the operators behind it, in front of one character more. -/
theorem same_expressionAt (hn : Starts k m n n') (mode : Mode) (floor : Nat) :
    Same k (m + 1) c (n.expressionAt mode floor) (n'.expressionAt mode floor) := by
  unfold expressionAt
  refine .bind (hn.deep.toToken _) fun _ _ => ?_
  refine .bind_strict (same_operandAt hn mode)
    (fun _ _ h => (strict_operandAt hn.sound.toForward mode).lt h) fun s _ => ?_
  exact same_climb hn.toTwins mode floor hn.depth hn.depth' s

end WasmEmbed.Script.Nested
