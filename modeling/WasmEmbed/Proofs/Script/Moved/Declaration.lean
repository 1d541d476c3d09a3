import WasmEmbed.Proofs.Script.Moved.Expression
import WasmEmbed.Proofs.Script.Statement

/-!
# Declarations further back in a file

The rules for blocks, for declarations and for imports and exports agree for twins. Most of them are given
the cursor at which the statement began, which is moved as well.

Where a rule has local definitions, for two ways to the same end, they agree first, and the branches of
the rule use that. A rule that looks ahead without moving asks about a cursor further on, and its answer
is the same on both sides.
-/

namespace WasmEmbed.Script.Nested

open Reader

variable {k m : Nat} {n n' : Nested} {c : Cursor}

/-! ## Blocks

A statement in braces is a block or begins with an object, and both are tried. Each begins with its brace,
so both agree in front of one character more than the twins do.
-/

/-- A statement that ends with a closing brace, and the semicolon that may follow it. -/
theorem agrees_finishBehindBrace (hn : Twins k m n n') (start : Cursor) (kind : Kind) (operator : Bool) :
    Agrees k m (Closing.moved k) c (n.finishBehindBrace start kind operator)
      (n'.finishBehindBrace (start.moved k) kind operator) := by
  unfold finishBehindBrace
  exact .bind (same_skipSemicolon hn _) fun _ _ => agrees_finish _ _ _

theorem agrees_expressionStatement (hn : Starts k m n n') :
    Agrees k (m + 1) (Closing.moved k) c n.expressionStatement n'.expressionStatement := by
  unfold expressionStatement
  refine .get fun _ => .bind_strict (same_operandAt hn _) (fun _ _ h => ?_) fun _ _ => ?_
  · exact (strict_operandAt hn.sound.toForward _).lt h
  · exact agrees_expressionStatementBehind hn.toTwins _ _

theorem agrees_blockStatement (hn : Twins k m n n') :
    Agrees k (m + 1) (Closing.moved k) c n.blockStatement n'.blockStatement := by
  unfold blockStatement
  refine .get fun _ => .bind_strict (agrees_looseBlock hn) (fun _ _ h => ?_) fun block _ => ?_
  · exact (strict_looseBlock hn.sound.toForward).lt h
  · -- Whether the block holds anything but comments is a matter of the kinds of its pieces.
    have hpieces : ((block.moved k).pieces.all fun p => p.kind == .markupComment) =
        block.pieces.all fun p => p.kind == .markupComment := List.all_map
    rw [hpieces]
    exact agrees_finishBehindBrace hn _ _ _

theorem agrees_objectStatement (hn : Twins k m n n') {p : Char → Bool} (hnext : c.nextIs p = true) :
    Agrees k (m + 1) (Closing.moved k) c n.objectStatement n'.objectStatement := by
  unfold objectStatement
  refine .get fun _ => .bind_strict (same_leadingObject hn hnext) (fun _ _ h => ?_) fun _ _ => ?_
  · exact (strict_leadingObject hn.sound.toForward).lt h
  · exact agrees_expressionStatementBehind hn _ _

/-- Whether an expression goes on behind a brace. -/
theorem same_continues (hn : Twins k m n n') (follow : Follow) :
    Same k m c (n.continues follow) (n'.continues follow) := by
  unfold continues
  refine hn.look_any (fun _ _ => .pure) fun d _ hd => ?_
  dsimp only
  rw [hn.onlyContinues hd]
  exact .pure

/-- Whether a brace is followed by a name and a colon. The name is behind the gap behind the brace, and
the colon behind another gap. -/
theorem Deep.opensWithLabel (hn : Deep m n n') (hc : c.step.rest.length < m) :
    n'.opensWithLabel (c.moved k) = n.opensWithLabel c := by
  have hfind := Cursor.length_le (Gap.le_find .plain n.depth c.step)
  unfold Nested.opensWithLabel
  rw [Cursor.step_moved, hn.find _ hc]
  generalize Gap.find .plain n.depth c.step = gap at hfind
  obtain d | ⟨d, conditional⟩ := gap
  · rfl
  · have hd : d.rest.length < m := Nat.lt_of_le_of_lt hfind hc
    dsimp only [Gap.moved]
    rw [hn.nameAt? hd]
    cases hname : n.nameAt? d with
    | none => rfl
    | some p =>
        have he := Nat.lt_trans (Cursor.length_lt (lt_of_nameAt? hname)) hd
        dsimp only [Option.map_some]
        rw [hn.find _ he]
        obtain e | ⟨e, _ | _⟩ := Gap.find (.value true) n.depth p.2 <;> rfl

/-- A statement in braces. Of the two readings the same one is kept, because it is kept for the same
reason. -/
theorem agrees_braceStatement (hn : Twins k m n n') {p : Char → Bool} (hnext : c.nextIs p = true) :
    Agrees k (m + 1) (Closing.moved k) c n.braceStatement n'.braceStatement := by
  intro hc
  have hobject := agrees_objectStatement hn hnext hc
  have hblock := agrees_blockStatement hn hc
  have hstep := Cursor.length_step_lt hnext
  unfold braceStatement
  rw [hblock.1]
  cases hread : n.blockStatement c with
  | none => exact hobject
  | some p =>
      obtain ⟨closing, d⟩ := p
      -- Behind the block fewer characters are left.
      have hlt : c < d := (fits_blockStatement hn.sound.toForward c (le_refl c) closing d hread).piece.lt
      have hd := Cursor.length_lt hlt
      -- What is asked behind the block is whether an expression goes on there.
      have hcontinues := (same_continues (c := d) hn (.value true) (by omega)).1
      have hcontinued : (n'.continues (.value true) (d.moved k)).map Prod.fst =
          (n.continues (.value true) d).map Prod.fst := by
        rw [hcontinues, Option.map_map]
        rfl
      dsimp only [Option.map_some, Prod.map]
      rw [hn.opensWithLabel (by omega), hcontinued]
      generalize n.opensWithLabel c = labelled,
        ((n.continues (.value true) d).map Prod.fst).getD false = continued
      have hempty : Agrees k (m + 1) (Closing.moved k) c (fun _ => some (closing, d))
          (fun _ => some (closing.moved k, d.moved k)) := fun _ => ⟨rfl, fun _ _ h => by cases h; omega⟩
      have hchoice := Agrees.orElse (fun _ => hobject) hempty
      show ((if (labelled || (closing.unclosed && continued)) = true then _ else none) <|> _) = _ ∧ _
      cases labelled || (closing.unclosed && continued) with
      | true => exact hchoice hc
      | false => exact ⟨rfl, fun _ _ h => by cases h; omega⟩

/-! ## Declarations

A declaration that lacks its name, or behind which an operator follows, is the beginning of an expression
where one may stand. That case is one rule (`agrees_expressionRest`).
-/

theorem same_binding (hn : Twins k m n n') : Same k m c n.binding n'.binding := by
  -- Objects and arrays agree for one character more, which is more than is needed here.
  have hobject (d : Cursor) : Same k m d n.object n'.object :=
    (same_object hn).mono (strict_object hn.sound.toForward).forward (Nat.le_succ m)
  have harray (d : Cursor) : Same k m d n.array n'.array :=
    (same_array hn).mono (strict_array hn.sound.toForward).forward (Nat.le_succ m)
  unfold binding
  refine .bind (same_toPlain hn) fun _ d => .get fun _ => ?_
  rw [Cursor.rest_moved]
  split
  · exact .bind (harray d) fun _ _ => .require_last
  · exact .bind (hobject d) fun _ _ => .require_last
  · exact .bind (same_freeName hn) fun _ _ => .pure

theorem same_initializer? (hn : Twins k m n n') (mode : Mode) :
    Same k m c (n.initializer? mode) (n'.initializer? mode) := by
  unfold initializer?
  refine hn.look (fun _ _ => .pure) (fun d hd => .ite (fun _ => .step hd ?_) fun _ => .pure)
    fun _ _ _ => .pure
  exact .bind (same_valueOf hn _ _) fun _ _ => .pure

/-- The declared variables. A comma is consumed between two of them, which makes the loop shorter than the
text. -/
theorem same_bindings (hn : Twins k m n n') {j j' : Nat} (hj : m ≤ j) (hj' : m ≤ j') :
    Same k m c (n.bindings j) (n'.bindings j') := by
  refine .loop (fun q hq i i' ih c => ?_) hj hj' c
  replace hn := hn.mono hq
  unfold bindings
  refine .bind (same_binding hn) fun _ _ => .bind (same_initializer? hn _) fun _ _ => ?_
  refine hn.look (fun _ _ => .pure) (fun d hd => .ite (fun hcomma => ?_) fun _ => .pure) fun _ _ _ => .pure
  exact .step_lower hd hcomma (ih _)

theorem agrees_declarators (hn : Twins k m n n') (start : Cursor) (kind : Kind) :
    Agrees k m (Closing.moved k) c (n.declarators start kind) (n'.declarators (start.moved k) kind) := by
  unfold declarators
  refine .bind (same_bindings hn hn.depth hn.depth') fun _ _ => ?_
  exact .bind (same_terminator hn _) fun _ _ => agrees_finish _ _ _

/-- Where a declaration turns out to be an expression, by the place at which it stands. -/
theorem agrees_expressionRest (hn : Twins k m n n') (start : Cursor) (site : Site) :
    Agrees k m (Closing.moved k) c (site.expressionRest n start)
      (site.expressionRest n' (start.moved k)) := by
  cases site with
  | statement => exact agrees_expressionStatementBehind hn _ _
  | defaultExport =>
      unfold Site.expressionRest
      refine .bind (same_expressionBehind hn _ _) fun _ _ => ?_
      exact .bind (same_terminator hn _) fun _ _ => agrees_finish _ _ _
  | «export» => exact .refuse

/-- A function that stands as a statement, with its heading and the pieces of its body at their moved
places. -/
theorem agrees_functionStatement (hn : Twins k m n n') (start : Cursor) (isAsync : Bool) (site : Site) :
    Agrees k m (Closing.moved k) c (n.functionStatement start isAsync site)
      (n'.functionStatement (start.moved k) isAsync site) := by
  unfold functionStatement
  refine .bind (same_heading hn) fun heading _ => .bind (agrees_block hn) fun body _ => ?_
  cases heading.name with
  | none => exact agrees_expressionRest hn start site
  | some name =>
      dsimp -zeta only
      extract_lets rest rest'
      -- Whether an operator follows is asked only where an expression may stand.
      have hrest : ∀ continued d, Agrees k m (Closing.moved k) d (rest continued) (rest' continued) := by
        intro continued d
        refine .ite (fun _ => agrees_expressionRest hn start site) fun _ => ?_
        exact .bind (same_skipSemicolon hn _) fun _ _ => .get fun _ => .pure
      refine .ite (fun _ => .bind (same_continues hn _) fun continued d => hrest continued d) fun _ => ?_
      exact hrest false _

theorem agrees_classStatement (hn : Twins k m n n') (start : Cursor) (site : Site) :
    Agrees k m (Closing.moved k) c (n.classStatement start site)
      (n'.classStatement (start.moved k) site) := by
  unfold classStatement
  refine .bind (same_classRest hn) fun named _ =>
    .ite (fun _ => agrees_expressionRest hn start site) fun _ => ?_
  extract_lets rest rest'
  have hrest : ∀ continued d, Agrees k m (Closing.moved k) d (rest continued) (rest' continued) := by
    intro continued d
    exact .ite (fun _ => agrees_expressionRest hn start site) fun _ => agrees_finishBehindBrace hn _ _ _
  refine .ite (fun _ => .bind (same_continues hn _) fun continued d => hrest continued d) fun _ => ?_
  exact hrest false _

/-- Whether the word `let` is followed by what may be bound. -/
theorem Deep.letDeclares (hn : Deep m n n') (follow : Follow) (hc : c.rest.length < m) :
    n'.letDeclares follow (c.moved k) = n.letDeclares follow c := by
  have hfind := Cursor.length_le (Gap.le_find follow n.depth c)
  unfold Nested.letDeclares
  rw [hn.find _ hc]
  generalize Gap.find follow n.depth c = gap at hfind
  obtain d | ⟨d, _ | _⟩ := gap
  · rfl
  · have hd : d.rest.length < m := Nat.lt_of_le_of_lt hfind hc
    dsimp only [Gap.moved]
    rw [hn.nameAt? hd]
    cases n.nameAt? d <;> rfl
  · rfl

/-- The word `function` behind `async`, at its moved place. -/
theorem Deep.asyncFunction? (hn : Deep m n n') (follow : Follow) (hc : c.rest.length < m) :
    n'.asyncFunction? follow (c.moved k) = (n.asyncFunction? follow c).map (Cursor.moved k) := by
  have hfind := Cursor.length_le (Gap.le_find follow n.depth c)
  unfold Nested.asyncFunction?
  rw [hn.find _ hc]
  generalize Gap.find follow n.depth c = gap at hfind
  obtain d | ⟨d, _ | _⟩ := gap
  · rfl
  · have hd : d.rest.length < m := Nat.lt_of_le_of_lt hfind hc
    dsimp only [Gap.moved]
    rw [hn.nameAt? hd]
    cases n.nameAt? d with
    | none => rfl
    | some p =>
        dsimp only [Option.map_some]
        rw [apply_ite (Option.map (Cursor.moved k))]
        rfl
  · rfl

/-! ## Imports

The texts of an import, its names and its specifier, are texts between two cursors, so they stay when both
are moved.
-/

/-- A specifier is the text between its first and its last character. -/
theorem same_stringText (hn : Twins k m n n') : Same k m c n.stringText n'.stringText := by
  unfold stringText
  refine .bind (same_toPlain hn) fun _ d => .get fun _ => ?_
  refine .bind (.move hn.string? fun _ h => (Token.lt_of_string? h).le) fun _ e => .get fun _ => ?_
  rw [Cursor.textUpTo_moved]
  exact .pure

theorem same_fromClause (hn : Twins k m n n') : Same k m c n.fromClause n'.fromClause := by
  unfold fromClause
  exact .bind (same_toPlain hn) fun _ _ => .bind (same_word hn _) fun _ _ => same_stringText hn

/-- A name that another module knows is a word or a string. -/
theorem same_exportName (hn : Twins k m n n') : Same k m c n.exportName n'.exportName := by
  unfold exportName
  refine .bind (same_toPlain hn) fun _ d => .get fun hd => ?_
  rw [hn.nameAt? hd]
  cases hname : n.nameAt? d with
  | none => exact .bind (same_stringText hn) fun _ _ => .pure
  | some p => exact .require fun _ => .ahead (lt_of_nameAt? hname).le hd .pure

section Targets

variable {α : Type} {r r' : Reader α}

/-- The name behind `as`, if there is one, whatever reader reads it. -/
theorem same_alias? (hn : Twins k m n n') (hr : ∀ d, Same k m d r r') :
    Same k m c (n.alias? r) (n'.alias? r') := by
  unfold alias?
  refine .bind (same_toPlain hn) fun _ d => .get fun hd => ?_
  rw [hn.wordAt hd]
  refine .ite (fun _ => .bind (same_anyName hn) fun _ _ => ?_) fun _ => .pure
  exact .bind (same_toPlain hn) fun _ e => .bind (hr e) fun _ _ => .pure

/-- The items behind an opening brace, whatever reader reads one of them. Of that reader the loop needs
that it goes forward, for an item may take no character, while the comma behind it does. -/
theorem same_braceItems (hn : Twins k m n n') (hforward : r.Forward) (hr : ∀ d, Same k m d r r') {j j' : Nat}
    (hj : m ≤ j) (hj' : m ≤ j') : Same k m c (n.braceItems r j) (n'.braceItems r' j') := by
  refine .loop (fun q hq i i' ih c => ?_) hj hj' c
  replace hn := hn.mono hq
  unfold braceItems
  refine .bind (same_toPlain hn) fun _ d => .get fun hd => .ite (fun _ => .step hd .pure) fun _ => ?_
  refine .bind ((hr d).mono hforward hq) fun _ _ => .bind (same_toPlain hn) fun _ e => .get fun he => ?_
  refine .ite (fun hcomma => .step_lower he hcomma (.bind (ih _) fun _ _ => .pure)) fun _ => ?_
  exact .bind (.exactly _) fun _ _ => .pure

theorem same_braceList (hn : Twins k m n n') (hforward : r.Forward) (hr : ∀ d, Same k m d r r') :
    Same k m c (n.braceList r) (n'.braceList r') := by
  unfold braceList
  refine .bind (same_toPlain hn) fun _ d => .get fun hd => .ite (fun _ => .step hd ?_) fun _ => ?_
  · exact .bind (same_toPlain hn) fun _ _ => .bind (.exactly _) fun _ _ => .pure
  · exact same_braceItems hn hforward hr hn.depth hn.depth'

end Targets

/-- One imported name with the name it is given. -/
theorem same_importBinding (hn : Twins k m n n') : Same k m c n.importBinding n'.importBinding := by
  unfold importBinding
  refine .bind (same_exportName hn) fun p _ =>
    .bind (same_alias? hn fun _ => same_freeName hn) fun localName? _ => ?_
  cases localName? with
  | none => exact .require fun _ => .pure
  | some localName => exact .pure

theorem same_importBindings (hn : Twins k m n n') : Same k m c n.importBindings n'.importBindings := by
  unfold importBindings
  refine .bind (same_toPlain hn) fun _ d => .get fun hd => .ite (fun _ => .step hd ?_) fun _ => ?_
  · refine .bind (same_toPlain hn) fun _ _ => .bind (same_word hn _) fun _ _ => ?_
    exact .bind (same_toPlain hn) fun _ _ => .bind (same_freeName hn) fun _ _ => .pure
  · exact .bind (.exactly _) fun _ _ => same_braceList hn forward_importBinding fun _ => same_importBinding hn

theorem same_importAttributes (hn : Twins k m n n') : Same k m c n.importAttributes n'.importAttributes := by
  unfold importAttributes
  refine hn.look (fun _ _ => .pure) (fun d hd => ?_) fun _ _ _ => .pure
  dsimp only
  rw [hn.wordAt hd]
  refine .ite (fun _ => .set hd (.bind (same_anyName hn) fun _ _ => .bind (same_toPlain hn) fun _ e => ?_))
    fun _ => .pure
  have hobject : Same k m e n.object n'.object :=
    (same_object hn).mono (strict_object hn.sound.toForward).forward (Nat.le_succ m)
  exact .bind hobject fun _ _ => .require_last

/-- The clause of an import: a specifier alone, a default name, names in braces or a name for all of
them. -/
theorem same_importClause (hn : Twins k m n n') : Same k m c n.importClause n'.importClause := by
  unfold importClause
  refine .bind (same_toPlain hn) fun _ d => .get fun hd => ?_
  rw [hn.nameAt? hd, Option.isSome_map]
  refine .ite (fun _ => .bind (same_stringText hn) fun _ _ => .pure) fun _ => .ite (fun _ => ?_) fun _ => ?_
  · refine .bind (same_freeName hn) fun _ _ => .bind (same_toPlain hn) fun _ e => .get fun he => ?_
    refine .ite (fun _ => .step he ?_) fun _ => .bind (same_fromClause hn) fun _ _ => .pure
    exact .bind (same_importBindings hn) fun _ _ => .bind (same_fromClause hn) fun _ _ => .pure
  · exact .bind (same_importBindings hn) fun _ _ => .bind (same_fromClause hn) fun _ _ => .pure

/-- An import has the same names and the same specifier at its moved place. -/
theorem agrees_importStatement (hn : Twins k m n n') (start : Cursor) :
    Agrees k m (Closing.moved k) c (n.importStatement start) (n'.importStatement (start.moved k)) := by
  rw [importStatement_eq, importStatement_eq]
  unfold importEnd
  refine .bind (same_importClause hn) fun _ _ => .bind (same_importAttributes hn) fun _ _ => ?_
  exact .bind (same_terminator hn _) fun _ _ => .get fun _ => .pure

/-! ## Exports

An exported declaration is read by the readers of declarations, with the place at which it stands as an
argument. The statement around it is the export.
-/

/-- A declaration behind `export` or `default`, or what else may stand there. -/
theorem agrees_exportedDeclaration (hn : Twins k m n n') (site : Site) {otherwise otherwise' : Reader Closing}
    (ho : ∀ d, Agrees k m (Closing.moved k) d otherwise otherwise') :
    Agrees k m (Closing.moved k) c (n.exportedDeclaration site otherwise)
      (n'.exportedDeclaration site otherwise') := by
  unfold exportedDeclaration
  refine .get fun hc => ?_
  rw [hn.nameAt? hc]
  cases hname : n.nameAt? c with
  | none =>
      refine .ite (fun _ => .bind (same_decorators hn) fun _ _ => ?_) fun _ => ho c
      exact .bind (same_word hn _) fun _ _ => agrees_classStatement hn _ _
  | some p =>
      obtain ⟨w, d⟩ := p
      have hle := (lt_of_nameAt? hname).le
      have hd := Nat.lt_of_le_of_lt (Cursor.length_le hle) hc
      dsimp only [Option.map_some]
      rw [hn.asyncFunction? _ hd, hn.letDeclares _ hd]
      split
      · exact .ahead hle hc (agrees_functionStatement hn _ _ _)
      · cases hasync : n.asyncFunction? site.follow d with
        | none => exact ho c
        | some e => exact .ahead (le_of_asyncFunction? hasync) hd (agrees_functionStatement hn _ _ _)
      · exact .ahead hle hc (agrees_classStatement hn _ _)
      · exact .ahead hle hc (agrees_declarators hn _ _)
      · exact .ahead hle hc (agrees_declarators hn _ _)
      · exact .ite (fun _ => .ahead hle hc (agrees_declarators hn _ _)) fun _ => ho c
      · exact ho c

/-- The export around a declaration begins at its own word and ends with the declaration. -/
theorem agrees_exported (start : Cursor) (declaration : Closing) :
    Agrees k m (Closing.moved k) c (exported start declaration)
      (exported (start.moved k) (declaration.moved k)) := by
  unfold exported
  exact .get fun _ => .pure

/-- An export of everything, of names in braces, of a value by default, or of a declaration. -/
theorem agrees_exportStatement (hn : Twins k m n n') (start : Cursor) :
    Agrees k m (Closing.moved k) c (n.exportStatement start) (n'.exportStatement (start.moved k)) := by
  have hend (d : Cursor) : Agrees k m (Closing.moved k) d
      (n.terminator false >>= fun _ => finish start .exportStatement false)
      (n'.terminator false >>= fun _ => finish (start.moved k) .exportStatement false) :=
    .bind (same_terminator hn _) fun _ _ => agrees_finish _ _ _
  have halias (d : Cursor) : Same k m d (n.alias? n.exportName) (n'.alias? n'.exportName) :=
    same_alias? hn fun _ => same_exportName hn
  unfold exportStatement
  refine .bind (same_toPlain hn) fun _ d => .get fun hd => .ite (fun _ => .step hd ?_) fun _ => ?_
  · exact .bind (halias _) fun _ _ => .bind (same_fromClause hn) fun _ e => hend e
  · refine .ite (fun _ => .step hd ?_) fun _ => ?_
    · extract_lets item rest item' rest'
      have hforward : item.Forward := fun _ =>
        .bind forward_exportName fun _ _ => .bind (forward_alias? forward_exportName) fun _ _ => .pure id
      have hitem : ∀ e, Same k m e item item' := fun e =>
        .bind (same_exportName hn) fun _ _ => .bind (halias _) fun _ _ => .pure
      have hrest : ∀ u e, Agrees k m (Closing.moved k) e (rest u) (rest' u) := fun _ e => hend e
      refine .bind (same_braceList hn hforward hitem) fun _ e =>
        hn.look_any (fun _ _ => hrest () e) fun g _ hg => ?_
      dsimp only
      rw [hn.wordAt hg]
      exact .ite (fun _ => .bind (same_fromClause hn) fun _ e => hrest () e) fun _ => hrest () e
    · rw [hn.wordAt hd]
      refine .ite (fun _ => .bind (same_anyName hn) fun _ _ => .bind (same_toPlain hn) fun _ e => ?_)
        fun _ => ?_
      · extract_lets value value'
        have hvalue : ∀ g, Agrees k m (Closing.moved k) g value value' := fun g =>
          .bind (same_valueOf hn _ _) fun _ _ => .bind (same_terminator hn _) fun _ _ => agrees_finish _ _ _
        exact .bind (agrees_exportedDeclaration hn _ hvalue) fun closing _ => agrees_exported _ closing
      · exact .bind (agrees_exportedDeclaration hn _ fun _ => .refuse) fun closing _ =>
          agrees_exported _ closing

end WasmEmbed.Script.Nested
