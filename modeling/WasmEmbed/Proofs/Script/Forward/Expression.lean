import WasmEmbed.Proofs.Script.Forward.Function
import WasmEmbed.Proofs.Script.Forward.Markup
import WasmEmbed.Script.Expression

/-!
# Rules that go forward: expressions

Templates, objects and arrays, the operators behind an operand, and the operands. An operand takes at
least one character.

Behind an operand `climb` reads one operator after the other, and each operator reads its own right side.
The induction in `forward_climb` is on the bound on the number of operators. Expressions inside an
expression, as arguments and in templates, are read by the readers of `n`, for which the hypothesis `hn`
speaks.
-/

namespace WasmEmbed.Script.Nested

open Reader

variable {n : Nested}

/-! ## Templates, objects and arrays

Between the expressions of a template stands text, read character by character, and an escape may take
several. The parts of an object are read by a reader with local definitions, one for each modifier that
may be missing. They are followed from the last one to the first.
-/

/-- The rest of a template behind its opening quote, by induction on the bound on its parts. -/
theorem forward_templateRest (hn : n.Forward) (k : Nat) : (n.templateRest k).Forward := by
  induction k with
  | zero => exact fun _ => .refuse
  | succ k ih =>
      intro c
      have hrun := Cursor.le_skipWhile isTemplateText c
      unfold templateRest
      refine .get ?_
      dsimp only
      split
      · -- The closing quote.
        exact .ahead_last (hrun.trans (Cursor.le_step _))
      · -- An expression in braces, and the template goes on behind them.
        refine .ahead (hrun.trans (Cursor.le_skip 2 _)) ?_
        refine .bind (forward_expressions hn _) fun _ _ => ?_
        exact .bind (forward_symbol _ _) fun _ _ => .last ih
      · -- A dollar sign that opens nothing.
        exact .ahead (hrun.trans (Cursor.le_step _)) (.last ih)
      · exact .move (fun _ h => hrun.trans (Token.le_of_escape? h)) fun _ => .last ih
      · exact .refuse

/-- Behind its name a property has a value, is a method or stands for itself. -/
theorem forward_propertyRest (hn : n.Forward) (name : MemberName) : (n.propertyRest name).Forward := by
  intro c
  unfold propertyRest
  refine .bind forward_toPlain fun _ _ => .get ?_
  split
  · refine .require fun _ => .step (.bind forward_toPlain fun _ _ => .get ?_)
    split
    · next hd =>
        refine .ahead (Cursor.le_of_dropWord? hd) ?_
        exact .bind (hn.expression _ _) fun _ _ => .pure id
    · exact .bind (hn.expression _ _) fun _ _ => .pure id
  · split
    · exact .require fun _ => .bind (forward_methodRest hn) fun _ _ => .pure id
    · split
      · refine .step (.bind (forward_valueOf hn _ _) fun _ _ => ?_)
        split
        · exact .pure id
        · exact .pure id
        · exact .refuse
      · exact .require fun _ => .pure id

theorem forward_methodProperty (hn : n.Forward) : n.methodProperty.Forward := by
  intro c
  unfold methodProperty
  refine .bind (forward_memberName hn) fun _ _ => .require fun _ => ?_
  exact .bind forward_toPlain fun _ _ => .bind (forward_methodRest hn) fun _ _ => .pure id

/-- A modifier is skipped or stays where it is, for it may be the name of the property. -/
theorem forward_skipModifier (w : String) (others : Char → Bool) :
    (n.skipModifier w others).Forward := by
  intro c
  unfold skipModifier
  refine .get ?_
  split
  · refine .bind forward_anyName fun _ _ => .bind forward_toPlain fun _ _ => .get ?_
    split
    · exact .pure id
    · -- What follows says that the word is a name: the cursor is set back to its start.
      exact .set (le_refl c) (.pure id)
  · exact .pure id

/-- The end of a property, which is a method if `isMethod` says so. -/
theorem forward_propertyEnd (hn : n.Forward) (isMethod : Bool) :
    Reader.Forward (if isMethod = true then n.methodProperty
      else n.memberName >>= fun name => n.propertyRest name) := by
  split
  · exact forward_methodProperty hn
  · exact fun _ => .bind (forward_memberName hn) fun _ _ => .last (forward_propertyRest hn _)

/-- A property of an object: spread, an assignment to a pattern, or a name with modifiers in front of
it. -/
theorem forward_property (hn : n.Forward) : n.property.Forward := by
  intro c
  unfold property
  refine .get ?_
  split
  · next hd =>
      refine .ahead (Cursor.le_of_dropWord? hd) ?_
      exact .bind (hn.expression _ _) fun _ _ => .pure id
  · split
    · refine .bind (hn.operand _) fun _ _ => .bind forward_toPlain fun _ _ => ?_
      exact .bind (forward_exactly _) fun _ _ => .bind (forward_valueOf hn _ _) fun _ _ => .pure id
    · refine .bind (forward_decorators hn) fun _ _ => .get ?_
      extract_lets decorated behindStatic
      refine .get ?_
      -- From the last modifier to the first: an accessor, a star, `async`, `static`.
      have hstatic : ∀ static, (behindStatic static).Forward := by
        intro static d
        refine .bind (forward_skipModifier _ _) fun async _ => .get ?_
        extract_lets star behindGetter behindStar
        have hgetter : ∀ getter, (behindGetter getter).Forward := by
          intro getter e
          dsimp only [behindGetter]
          split
          · exact .bind (forward_pure _) fun _ _ => .last (forward_propertyEnd hn _)
          · exact .bind (forward_skipModifier _ _) fun _ _ => .last (forward_propertyEnd hn _)
        have hstar : ∀ u, (behindStar u).Forward := by
          intro u e
          dsimp only [behindStar]
          split
          · exact .bind (forward_pure _) fun getter _ => .last (hgetter getter)
          · exact .bind (forward_skipModifier _ _) fun getter _ => .last (hgetter getter)
        split
        · exact .step (.bind forward_toPlain fun u _ => .last (hstar u))
        · exact .last (hstar ())
      split
      · next hd =>
          refine .ahead (le_of_staticGet? hd) (.bind forward_toPlain fun _ _ => ?_)
          exact .bind (forward_pure _) fun static _ => .last (hstatic static)
      · exact .bind (forward_skipModifier _ _) fun static _ => .last (hstatic static)

/-- The properties behind the opening brace. At most `k` of them are read, and the induction is on `k`. -/
theorem forward_properties (hn : n.Forward) (k : Nat) : (n.properties k).Forward := by
  induction k with
  | zero => exact fun _ => .refuse
  | succ k ih =>
      intro c
      unfold properties
      refine .bind forward_toPlain fun _ _ => .get ?_
      split
      · exact .step (.pure id)
      · split
        · exact .step (.last ih)
        · refine .bind (forward_property hn) fun _ _ => .bind (forward_toToken _) fun _ _ => .get ?_
          split
          · exact .step (.bind ih fun _ _ => .pure id)
          · exact .require fun _ => .step (.pure id)

/-- An object takes at least its opening brace. -/
theorem strict_object (hn : n.Forward) : n.object.Strict := by
  intro c
  unfold object
  refine .bind_strict (strict_exactly (by decide)) fun _ d => ?_
  exact .bind (forward_properties hn _) fun _ _ => .require fun _ => .pure id

/-- An object that an expression begins with, where a block would also do. -/
theorem strict_leadingObject (hn : n.Forward) : n.leadingObject.Strict := by
  intro c
  unfold leadingObject
  refine .get ?_
  split
  · exact .require fun _ => strict_object hn c
  · exact .refuse

/-- An array takes at least its opening bracket. -/
theorem strict_array (hn : n.Forward) : n.array.Strict := by
  intro c
  unfold array
  refine .bind_strict (strict_exactly (by decide)) fun _ d => ?_
  exact .bind (forward_entries hn _) fun _ _ => .require fun _ => .pure id

/-! ## Operators behind an operand

An operator is found first and then followed by its own reader. `access?` and `extended?` choose that
reader, so the facts about them are about every reader they can choose.
-/

/-- Behind the point stands a name, which may be a private one. -/
theorem forward_memberBehind : n.memberBehind.Forward := by
  intro c
  unfold memberBehind
  refine .bind forward_toPlain fun _ _ => .get ?_
  split
  · exact .last forward_privateName
  · exact .bind forward_anyName fun _ _ => .pure id

theorem forward_indexBehind (hn : n.Forward) : n.indexBehind.Forward := by
  intro c
  unfold indexBehind
  exact .bind (forward_expressions hn _) fun _ _ => .last (forward_symbol _ _)

/-- Members, elements and templates go forward behind the operator that was read. -/
theorem forward_of_access? (hn : n.Forward) {s : Shape} {op : Operator} {r : Reader Shape}
    (h : n.access? s op = some r) : r.Forward := by
  intro c
  cases op with
  | dot =>
      cases h
      exact .bind forward_memberBehind fun _ _ => .pure id
  | index =>
      cases h
      exact .bind (forward_indexBehind hn) fun _ _ => .pure id
  | chain =>
      cases h
      refine .bind forward_toPlain fun _ _ => .get ?_
      split
      · refine .require fun _ => .step (.bind (forward_arguments hn) fun _ _ => .pure id)
      · split
        · exact .step (.bind (forward_indexBehind hn) fun _ _ => .pure id)
        · exact .bind forward_memberBehind fun _ _ => .pure id
  | template =>
      simp only [access?] at h
      split at h
      · cases h
        exact .bind (forward_templateRest hn _) fun _ _ => .pure id
      · cases h
  | _ => cases h

/-- Whatever reader an operator chooses goes forward. The operators that take a right side are alike. -/
theorem forward_of_extended? (hn : n.Forward) {m : Mode} {floor : Nat} {s : Shape} {op : Operator}
    {r : Reader Shape} (h : n.extended? m floor s op = some r) : r.Forward := by
  intro c
  have hvalue {level : Nat} {t : Shape} : After c (fun _ d => c ≤ d) c
      (n.valueOf m.right level >>= fun _ => pure t) :=
    .bind (forward_valueOf hn _ _) fun _ _ => .pure id
  cases op with
  | step =>
      simp only [extended?] at h
      split at h
      · cases h
        exact .pure id
      · cases h
  | call =>
      simp only [extended?] at h
      split at h
      · cases h
        exact .bind (forward_arguments hn) fun _ _ => .pure id
      · cases h
  | dot | index | chain | template =>
      simp only [extended?] at h
      split at h
      · exact forward_of_access? hn h c
      · cases h
  -- Assignments and the operators with two operands.
  | _ =>
      simp only [extended?] at h
      split at h
      · cases h
        exact hvalue
      · cases h

/-- Both branches of a conditional, with a colon between them. -/
theorem forward_conditionalRest (hn : n.Forward) (m : Mode) : (n.conditionalRest m).Forward := by
  intro c
  unfold conditionalRest
  refine .bind (forward_valueOf hn _ _) fun _ _ => .bind (forward_symbol _ _) fun _ _ => ?_
  exact .bind (forward_valueOf hn _ _) fun _ _ => .pure id

/-- An operator that a text begins with has at least one character. -/
theorem pos_of_ofSymbol? {text : List Char} {op : Operator} {length : Nat}
    (h : Operator.ofSymbol? text = some (op, length)) : text ≠ [] ∧ 0 < length := by
  unfold Operator.ofSymbol? at h
  split at h <;> cases h <;> exact ⟨List.cons_ne_nil _ _, by decide⟩

/-- An operator is not empty. -/
theorem lt_of_at? {c d : Cursor} {op : Operator} (h : Operator.at? n c = some (op, d)) : c < d := by
  simp only [Operator.at?] at h
  split at h
  · next length hsymbol =>
      cases h
      obtain ⟨hrest, hlength⟩ := pos_of_ofSymbol? hsymbol
      obtain _ | length := length
      · cases hlength
      · exact (Cursor.lt_step hrest).trans_le (Cursor.le_skip length _)
  · split at h
    · cases h
    · next hname =>
        split at h
        · cases h
          exact lt_of_nameAt? hname
        · split at h
          · cases h
            exact lt_of_nameAt? hname
          · cases h

theorem le_of_at? {c d : Cursor} {op : Operator} (h : Operator.at? n c = some (op, d)) : c ≤ d :=
  (lt_of_at? h).le

/-- An expression goes on while operators follow that bind tightly enough. One round reads the gap, the
operator and what belongs to it, so the cursor moves forward with each round. -/
theorem forward_climb (hn : n.Forward) (m : Mode) (floor k : Nat) (s : Shape) :
    (n.climb m floor k s).Forward := by
  induction k generalizing s with
  | zero => exact fun _ => .refuse
  | succ k ih =>
      intro c
      unfold climb
      refine after_look fun gap hgap => ?_
      split
      · exact .pure id
      · -- The question mark of a conditional.
        split
        · refine .ahead (hgap.trans (Cursor.le_step _)) ?_
          exact .bind (forward_conditionalRest hn m) fun _ _ => .last (ih _)
        · exact .pure id
      · split
        · exact .pure id
        · next hop =>
            split
            · exact .pure id
            · next hreader =>
                refine .ahead (hgap.trans (le_of_at? hop)) ?_
                exact .bind (forward_of_extended? hn hreader) fun _ _ => .last (ih _)

theorem forward_expressionsBehind (hn : n.Forward) (m : Mode) (s : Shape) :
    (n.expressionsBehind m s).Forward := by
  intro c
  unfold expressionsBehind
  refine .bind (forward_climb hn _ _ _ _) fun _ _ => .require fun _ => ?_
  exact .last (forward_expressionsMore hn _ _)

theorem forward_expressionBehind (hn : n.Forward) (m : Mode) (s : Shape) :
    (n.expressionBehind m s).Forward := by
  intro c
  unfold expressionBehind
  exact .bind (forward_climb hn _ _ _ _) fun _ _ => .last (forward_require _)

theorem forward_finish (start : Cursor) (kind : Kind) (unclosed : Bool) :
    (finish start kind unclosed).Forward := fun _ => .get (.pure id)

theorem forward_expressionStatementBehind (hn : n.Forward) (start : Cursor) (s : Shape) :
    (n.expressionStatementBehind start s).Forward := by
  intro c
  unfold expressionStatementBehind
  refine .bind (forward_expressionsBehind hn _ _) fun _ _ => ?_
  exact .bind (forward_terminator _) fun _ _ => .last (forward_finish _ _ _)

/-- The colon that makes a word a label is found behind the word. -/
theorem le_of_labelColon? {c d : Cursor} (h : n.labelColon? c = some d) : c ≤ d := by
  have hfind := Gap.le_find (.value true) n.depth c
  simp only [labelColon?] at h
  split at h
  · next hgap =>
      rw [hgap] at hfind
      exact hfind.trans (Cursor.le_of_dropWord? h)
  · cases h

/-- The brace of such a block may open an object too. A word that begins no statement is therefore read as
a name, and a colon behind it makes it a label. -/
theorem forward_firstStatement (hn : n.Forward) : n.firstStatement.Forward := by
  intro c
  unfold firstStatement
  refine .get ?_
  split
  · exact .last hn.statement
  · next hname =>
      split
      · refine .ahead (lt_of_nameAt? hname).le ?_
        split
        · next hcolon =>
            refine .ahead (le_of_labelColon? hcolon) (.bind forward_toPlain fun _ _ => ?_)
            exact .bind hn.statement fun _ _ => .last (forward_finish _ _ _)
        · exact .last (forward_expressionStatementBehind hn _ _)
      · exact .last hn.statement

/-- The first statement of a block takes at least one character if statements do. -/
theorem strict_firstStatement (hn : n.Forward) (hstatement : n.statement.Strict) :
    n.firstStatement.Strict := by
  intro c
  unfold firstStatement
  refine .get ?_
  split
  · exact .last_strict hstatement
  · next hname =>
      split
      · -- The name is consumed, so whatever follows it may be empty.
        have hd := lt_of_nameAt? hname
        refine .ahead hd.le (.behind hd ?_)
        split
        · next hcolon =>
            refine .ahead (le_of_labelColon? hcolon) (.bind forward_toPlain fun _ _ => ?_)
            exact .bind hn.statement fun _ _ => .last (forward_finish _ _ _)
        · exact .last (forward_expressionStatementBehind hn _ _)
      · exact .last_strict hstatement

theorem forward_looseBlock (hn : n.Forward) : n.looseBlock.Forward :=
  forward_blockFrom hn (forward_firstStatement hn)

/-! ## Functions written with an arrow

Whether a name or a list in parentheses is a parameter shows only behind it. The look at the arrow does
not move the cursor, and where the arrow is found, the cursor is set behind it.
-/

/-- A look for an arrow leaves the cursor where it is. -/
theorem after_arrowFollows (follow : Follow) (c : Cursor) :
    After c (fun arrow d => d = c ∧ ∀ e, arrow = some e → c ≤ e) c (n.arrowFollows follow) := by
  unfold arrowFollows
  refine after_look fun gap hgap => ?_
  split
  · exact .pure fun _ => ⟨rfl, fun _ he => hgap.trans (Cursor.le_of_dropWord? he)⟩
  · exact .pure fun _ => ⟨rfl, by simp⟩

theorem forward_leadingExpression (hn : n.Forward) (m : Mode) : (n.leadingExpression m).Forward := by
  intro c
  unfold leadingExpression
  exact .bind (strict_leadingObject hn).forward fun _ _ => .last (forward_expressionBehind hn _ _)

/-- The body of such a function is a block, an object that an expression begins with, or a value. -/
theorem forward_arrowBody (hn : n.Forward) (m : Mode) : (n.arrowBody m).Forward := by
  intro c
  unfold arrowBody
  refine .bind forward_toPlain fun _ d => .get ?_
  extract_lets finish asBlock
  -- Where the block ends is also where the body ends if no object can be read.
  have hblock : asBlock.Forward := by
    intro e
    refine .bind (forward_looseBlock hn) fun _ _ => after_look fun _ _ => ?_
    split
    · exact .pure id
    · exact .pure id
  have hfinish : ∀ u, (finish u).Forward := fun _ _ => .pure id
  split
  · split
    · next hread => exact .ahead (hblock.le hread) (.last (hfinish ()))
    · next hread =>
        refine .bind_here ?_ fun u _ => .last (hfinish u)
        exact .orElse (.last (forward_leadingExpression hn _)) (.ahead_last (hblock.le hread))
    · exact .bind (forward_leadingExpression hn _) fun u _ => .last (hfinish u)
  · exact .bind (forward_valueOf hn _ _) fun u _ => .last (hfinish u)

/-- A list in parentheses is the list of parameters if an arrow follows, and must be a value otherwise. -/
theorem forward_listOrArrow (hn : n.Forward) (m : Mode) (entries : List Entry) (allowed : Bool)
    (otherwise : Shape) : (n.listOrArrow m entries allowed otherwise).Forward := by
  intro c
  unfold listOrArrow
  extract_lets rest
  -- Both cases go on in the same way, with the arrow or without one.
  have hrest : ∀ arrow d, (∀ e, arrow = some e → d ≤ e) → After c (fun _ d => c ≤ d) d (rest arrow) := by
    intro arrow d hle
    cases arrow with
    | some e => exact .ahead (hle e rfl) (.last (forward_arrowBody hn m))
    | none => exact .require fun _ => .pure id
  split
  · exact .still (after_arrowFollows _ c) fun arrow hle => hrest arrow c hle
  · exact hrest none c (by simp)

/-- What stands in parentheses takes at least the opening one. -/
theorem strict_groupOrArrow (hn : n.Forward) (m : Mode) : (n.groupOrArrow m).Strict := by
  intro c
  unfold groupOrArrow
  refine .bind_strict (strict_exactly (by decide)) fun _ d => ?_
  exact .bind (forward_entries hn _) fun _ _ => .last (forward_listOrArrow hn _ _ _ _)

/-- A name is a parameter if an arrow follows. -/
theorem forward_nameOrArrow (hn : n.Forward) (m : Mode) : (n.nameOrArrow m).Forward := by
  intro c
  unfold nameOrArrow
  refine .still (after_arrowFollows _ c) fun arrow hle => ?_
  split
  · exact .ahead (hle _ rfl) (.last (forward_arrowBody hn m))
  · exact .pure id

/-- Behind `async` stands a function, a list of parameters or one name, each on the same line; otherwise
`async` is a name itself. -/
theorem forward_asyncRest (hn : n.Forward) (m : Mode) : (n.asyncRest m).Forward := by
  intro c
  unfold asyncRest
  refine after_look fun gap hgap => ?_
  split
  · next d =>
      have hd : c ≤ d := hgap
      split
      · refine .ahead hd (.bind forward_anyName fun _ _ => ?_)
        exact .bind (forward_functionRest hn) fun _ _ => .pure id
      · split
        · refine .ahead (hd.trans d.le_step) (.bind (forward_entries hn _) fun _ _ => ?_)
          exact .last (forward_listOrArrow hn _ _ _ _)
        · split
          · next e hname =>
              have he : c ≤ e := hd.trans (lt_of_nameAt? hname).le
              split
              · exact .last (forward_nameOrArrow hn m)
              · have hfind := Gap.le_find .plain n.depth e
                split
                · next hnext =>
                    rw [hnext] at hfind
                    split
                    · next harrow =>
                        refine .ahead (he.trans (hfind.trans (Cursor.le_of_dropWord? harrow))) ?_
                        exact .last (forward_arrowBody hn m)
                    · exact .pure id
                · exact .pure id
          · exact .last (forward_nameOrArrow hn m)
  · exact .pure id

/-! ## Operands

A word may begin an operand of its own kind, and so may a sign or a bracket. Every operand takes at least
one character, for the reader of operands is called where something is expected.
-/

/-- The members behind the callee of `new`, up to the first list of arguments. The induction is on the
bound on their number. -/
theorem forward_calleeRest (hn : n.Forward) (m : Mode) (k : Nat) (s : Shape) :
    (n.calleeRest m k s).Forward := by
  induction k generalizing s with
  | zero => exact fun _ => .refuse
  | succ k ih =>
      intro c
      unfold calleeRest
      refine .require fun _ => after_look fun gap hgap => ?_
      split
      · split
        · next hop =>
            refine .ahead (hgap.trans (le_of_at? hop)) ?_
            exact .bind (forward_arguments hn) fun _ _ => .pure id
        · next hop =>
            split
            · next hreader =>
                refine .ahead (hgap.trans (le_of_at? hop)) ?_
                exact .bind (forward_of_access? hn hreader) fun _ _ => .last (ih _)
            · exact .pure id
        · exact .pure id
      · exact .pure id

/-- Behind `new` stands a callee, or a point and `target`. -/
theorem forward_newRest (hn : n.Forward) (m : Mode) : (n.newRest m).Forward := by
  intro c
  unfold newRest
  refine .bind forward_toPlain fun _ _ => .get ?_
  split
  · refine .step (.bind forward_toPlain fun _ _ => ?_)
    exact .bind (forward_word _) fun _ _ => .pure id
  · exact .bind (hn.operand m) fun _ _ => .last (forward_calleeRest hn _ _ _)

/-- Behind `import` stand arguments, a point and `meta`, or a member that may be skipped. -/
theorem forward_importRest (hn : n.Forward) : n.importRest.Forward := by
  intro c
  unfold importRest
  refine .bind forward_toPlain fun _ _ => .get ?_
  split
  · refine .step (.bind forward_toPlain fun _ _ => ?_)
    exact .bind (forward_word _) fun _ _ => .pure id
  · split
    · next hd =>
        refine .ahead (Cursor.le_of_dropWord? hd) ?_
        exact .bind forward_memberBehind fun _ _ => .pure id
    · exact .bind (forward_exactly _) fun _ _ => .bind (forward_arguments hn) fun _ _ => .pure id

/-- The value behind `yield` may be missing. -/
theorem forward_yieldRest (hn : n.Forward) (m : Mode) : (n.yieldRest m).Forward := by
  intro c
  unfold yieldRest
  refine after_look fun gap hgap => ?_
  extract_lets finish
  have hfinish : ∀ u, (finish u).Forward := fun _ _ => .pure id
  split
  · refine .require fun _ => ?_
    split
    · refine .ahead (hgap.trans (Cursor.le_step _)) ?_
      exact .bind (forward_valueOf hn _ _) fun u _ => .last (hfinish u)
    · split
      · exact .bind (forward_valueOf hn _ _) fun u _ => .last (hfinish u)
      · exact .last (hfinish ())
  · exact .last (hfinish ())

/-- The rest of an operand behind its first word, by cases on the word. -/
theorem forward_wordOperand (hn : n.Forward) (m : Mode) (w : List Char) :
    (n.wordOperand m w).Forward := by
  intro c
  -- The operators that are words take an operand behind them, all in the same way.
  have hsign : After c (fun _ d => c ≤ d) c
      (n.valueOf m.right (Level.sign + 1) >>= fun _ => pure Shape.compound) :=
    .bind (forward_valueOf hn _ _) fun _ _ => .pure id
  unfold wordOperand
  split
  · exact .bind (forward_functionRest hn) fun _ _ => .pure id
  · exact .bind (forward_classRest hn) fun _ _ => .pure id
  · exact .last (forward_asyncRest hn m)
  · exact .last (forward_newRest hn m)
  · exact .last (forward_importRest hn)
  · exact .last (forward_yieldRest hn m)
  · exact hsign
  · exact hsign
  · exact hsign
  · exact hsign
  · refine .bind (hn.expression _ _) fun _ _ => ?_
    split
    · exact .pure id
    · exact .refuse
  · exact .pure id
  · exact .pure id
  · exact .pure id
  · exact .pure id
  · exact .pure id
  · exact .pure id
  · exact .require fun _ => .last (forward_nameOrArrow hn m)

/-- An operand takes at least one character. -/
theorem strict_operandAt (hn : n.Forward) (m : Mode) : (n.operandAt m).Strict := by
  intro c
  -- Whatever an operand begins with is consumed.
  have htoken {f : Cursor → Option Cursor} (hf : ∀ {c d}, f c = some d → c < d) :
      After c (fun _ d => c < d) c (Reader.move f >>= fun _ => pure Shape.primary) :=
    .bind_strict (strict_move hf) fun _ => forward_pure _
  have hsigned {d : Cursor} (hd : c < d) (level : Nat) : After c (fun _ d => c < d) c
      (set d >>= fun _ => n.valueOf m.right level >>= fun _ => pure Shape.compound) :=
    .ahead_strict hd fun _ => .bind (forward_valueOf hn _ _) fun _ _ => .pure id
  have hone {x : Char} {rest : List Char} (h : c.rest = x :: rest) : c < c.step :=
    Cursor.lt_step (by simp [h])
  have htwo {x : Char} {rest : List Char} (h : c.rest = x :: rest) : c < c.skip 2 :=
    (hone h).trans_le (Cursor.le_step _)
  unfold operandAt
  refine .get ?_
  split
  · -- A word, a bracket, a literal or a sign, in the order of the reader.
    next hname => exact .ahead_strict (lt_of_nameAt? hname) (forward_wordOperand hn m _)
  · split
    · exact strict_groupOrArrow hn m c
    · exact strict_array hn c
    · exact strict_object hn c
    · exact htoken Token.lt_of_string?
    · exact htoken Token.lt_of_string?
    · next hrest =>
        refine .ahead_strict (hone hrest) fun _ => ?_
        exact .bind (forward_templateRest hn _) fun _ _ => .pure id
    · exact htoken Token.lt_of_regex?
    · exact .bind_strict hn.element fun _ => forward_pure _
    · refine .bind_then_strict (forward_decorators hn) fun _ _ => ?_
      exact .bind_strict (strict_word _) fun _ _ => .bind (forward_classRest hn) fun _ _ => .pure id
    · refine .bind_strict (strict_privateName) fun _ _ => .bind forward_toPlain fun _ _ => ?_
      refine .bind (forward_word _) fun _ _ => ?_
      exact .bind (forward_valueOf hn _ _) fun _ _ => .pure id
    · next hrest => exact hsigned (htwo hrest) _
    · next hrest => exact hsigned (htwo hrest) _
    · next hrest => exact hsigned (hone hrest) _
    · next hrest => exact hsigned (hone hrest) _
    · next hrest => exact hsigned (hone hrest) _
    · next hrest => exact hsigned (hone hrest) _
    · exact htoken Token.lt_of_number?

/-- An expression is an operand and the operators behind it. -/
theorem forward_expressionAt (hn : n.Forward) (m : Mode) (floor : Nat) :
    (n.expressionAt m floor).Forward := by
  intro c
  unfold expressionAt
  refine .bind forward_toPlain fun _ _ => .bind (strict_operandAt hn m).forward fun _ _ => ?_
  exact .last (forward_climb hn _ _ _ _)

end WasmEmbed.Script.Nested
