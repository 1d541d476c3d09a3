import WasmEmbed.Proofs.Script.Fits
import WasmEmbed.Proofs.Script.Moved.Reader

/-!
# Rules that read the same further back in a file

Two records of readers that differ in their bounds alone are twins as far as they agree on what a construct
contains. Then the rules that are written with them agree. There is one lemma for each rule, in the order of
the rules: here those of gaps and words, and of lists of statements and of expressions.

How the readers of an inner construct agree is a field of `Twins`, so that no rule is proved twice. A rule
that consumes a character before it calls them needs them for one character less only. That is what makes
the induction on the number of characters in the tower of readers possible.
-/

namespace WasmEmbed.Script

open Reader

variable {k m p : Nat}

/-! ## Pieces of an outline further back in a file -/

/-- The range with `k` more bytes in front of it. -/
def Span.moved (k : Nat) (s : Span) : Span := ⟨k + s.start, k + s.stop⟩

/-- The piece with `k` more bytes in front of it. Its kind is that of its text and stays. -/
def Piece.moved (k : Nat) (p : Piece) : Piece := ⟨p.kind, p.span.moved k⟩

/-- The block with `k` more bytes in front of it, and so its pieces. -/
def Block.moved (k : Nat) (b : Block) : Block := ⟨b.span.moved k, b.pieces.map (Piece.moved k)⟩

def FunctionDeclaration.moved (k : Nat) (f : FunctionDeclaration) : FunctionDeclaration :=
  { f with span := f.span.moved k, body := f.body.moved k }

def ImportDeclaration.moved (k : Nat) (i : ImportDeclaration) : ImportDeclaration :=
  { i with span := i.span.moved k }

def Role.moved (k : Nat) : Role → Role
  | plain => plain
  | function f => function (f.moved k)
  | importing i => importing (i.moved k)

/-- The statement with `k` more bytes in front of it. -/
def Statement.moved (k : Nat) (s : Statement) : Statement := ⟨s.toPiece.moved k, s.role.moved k⟩

def Closing.moved (k : Nat) (c : Closing) : Closing := ⟨c.statement.moved k, c.unclosed⟩

/-! ## Twins

`m` is the number of characters that the agreement is about: it is claimed of cursors in front of fewer
than `m` characters. Smaller numbers ask for less, so twins for `m` are twins for each smaller number.
-/

/-- The bounds of both records allow for `m` repetitions. -/
structure Nested.Deep (m : Nat) (n n' : Nested) : Prop where
  depth : m ≤ n.depth
  depth' : m ≤ n'.depth

/-- Two records of readers agree while fewer than `m` characters are left, and their bounds are not less. -/
structure Nested.Twins (k m : Nat) (n n' : Nested) : Prop extends Deep m n n' where
  sound : n.Sound
  expression : ∀ mode floor c, Same k m c (n.expression mode floor) (n'.expression mode floor)
  operand : ∀ mode c, Same k m c (n.operand mode) (n'.operand mode)
  element : ∀ c, Same k m c n.element n'.element
  statement : ∀ c, Agrees k m (Closing.moved k) c n.statement n'.statement

/-- Twins that may be used in front of one character more, where only a gap, a word or an element is read. -/
structure Nested.Starts (k m : Nat) (n n' : Nested) : Prop extends Twins k m n n' where
  deep : Deep (m + 1) n n'
  opening : ∀ c, Same k (m + 1) c n.element n'.element

namespace Nested

variable {n n' : Nested} {c d : Cursor}

/-- Twins for `m` characters are twins for fewer. -/
theorem Twins.mono (hn : Twins k m n n') (hp : p ≤ m) : Twins k p n n' where
  depth := Nat.le_trans hp hn.depth
  depth' := Nat.le_trans hp hn.depth'
  sound := hn.sound
  expression mode floor c := (hn.expression mode floor c).mono (hn.sound.expression mode floor) hp
  operand mode c := (hn.operand mode c).mono (hn.sound.operand mode) hp
  element c := (hn.element c).mono hn.sound.element.forward hp
  statement c := (hn.statement c).mono hn.sound.statement hp

theorem Twins.pred (hn : Twins k (p + 1) n n') : Twins k p n n' := hn.mono (Nat.le_succ p)

/-! ## Gaps and words

A gap is found with a bound on the comments in it. Both bounds are at least the number of characters left,
and none of the two runs out.
-/

section Rules

variable {α : Type} {f : α → α}

/-- The gap is found in the same way, and its cursor is moved. -/
theorem Deep.find (hn : Deep m n n') (follow : Follow) (hc : c.rest.length < m) :
    Gap.find follow n'.depth (c.moved k) = (Gap.find follow n.depth c).moved k :=
  Gap.find_moved follow (Nat.lt_of_lt_of_le hc hn.depth) (Nat.lt_of_lt_of_le hc hn.depth')

/-- A name is the same text at a moved place. -/
theorem Deep.nameAt? (hn : Deep m n n') (hc : c.rest.length < m) :
    n'.nameAt? (c.moved k) = (n.nameAt? c).map fun p => (p.1, p.2.moved k) := by
  have hname : Token.name? n'.depth (c.moved k) = (Token.name? n.depth c).map (Cursor.moved k) :=
    Token.name?_moved (Nat.le_of_lt (Nat.lt_of_lt_of_le hc hn.depth))
      (Nat.le_of_lt (Nat.lt_of_lt_of_le hc hn.depth'))
  rw [Nested.nameAt?, Nested.nameAt?, hname]
  cases Token.name? n.depth c with
  | none => rfl
  | some d => exact congrArg (fun w => some (w, d.moved k)) Cursor.textUpTo_moved

theorem Deep.string? (hn : Deep m n n') (hc : c.rest.length < m) :
    Token.string? n'.depth (c.moved k) = (Token.string? n.depth c).map (Cursor.moved k) :=
  Token.string?_moved (Nat.le_of_lt (Nat.lt_of_lt_of_le hc hn.depth))
    (Nat.le_of_lt (Nat.lt_of_lt_of_le hc hn.depth'))

/-- The word at a place is its text, which does not tell the place. -/
theorem Deep.wordAt (hn : Deep m n n') (hc : c.rest.length < m) : n'.wordAt (c.moved k) = n.wordAt c := by
  rw [Nested.wordAt, Nested.wordAt, hn.nameAt? hc]
  cases n.nameAt? c <;> rfl

theorem Deep.toToken (hn : Deep m n n') (follow : Follow) :
    Same k m c (n.toToken follow) (n'.toToken follow) := by
  refine .move (fun hc => ?_) fun d h => (forward_toToken follow).le (a := ()) (congrArg (Option.map _) h)
  rw [hn.find follow hc]
  obtain d | ⟨d, _ | _⟩ := Gap.find follow n.depth c <;> rfl

theorem Deep.anyName (hn : Deep m n n') : Same k m c n.anyName n'.anyName :=
  fun hc => ⟨hn.nameAt? hc, fun _ _ h => Nat.lt_trans (Cursor.length_lt (strict_anyName.lt h)) hc⟩

theorem Deep.word (hn : Deep m n n') (text : String) : Same k m c (n.word text) (n'.word text) := by
  unfold Nested.word
  exact .bind hn.anyName fun _ _ => .require_last

/-- The rule for a look at the gap behind `c`, where a question mark may make a difference. -/
theorem Twins.look (hn : Twins k m n n') {follow : Follow} {h h' : Gap → Reader α}
    (hsemicolon : ∀ d, d.rest.length < m → Agrees k m f c (h (.semicolon d)) (h' (.semicolon (d.moved k))))
    (htoken : ∀ d, d.rest.length < m → Agrees k m f c (h (.token d false)) (h' (.token (d.moved k) false)))
    (hquestion : ∀ d, d.rest.length < m → d.nextIs (· == '?') = true →
      Agrees k m f c (h (.token d true)) (h' (.token (d.moved k) true))) :
    Agrees k m f c (n.look follow >>= h) (n'.look follow >>= h') := by
  intro hc
  -- The gap lies in front of fewer than `m` characters, so what follows it may be read by the twins.
  have hbound : (Gap.find follow n.depth c).cursor.rest.length < m :=
    Nat.lt_of_le_of_lt (Cursor.length_le (Gap.le_find follow n.depth c)) hc
  -- A gap that tells of a question mark lies in front of one.
  have hmark : ∀ d, Gap.find follow n.depth c = .token d true → d.nextIs (· == '?') = true :=
    fun _ => Gap.nextIs_of_find
  show h' (Gap.find follow n'.depth (c.moved k)) (c.moved k) = (h (Gap.find follow n.depth c) c).map _ ∧
    ∀ a d, h (Gap.find follow n.depth c) c = some (a, d) → _
  rw [hn.find follow hc]
  generalize Gap.find follow n.depth c = gap at hbound hmark
  obtain d | ⟨d, _ | _⟩ := gap
  · exact hsemicolon d hbound hc
  · exact htoken d hbound hc
  · exact hquestion d hbound (hmark d rfl) hc

/-- The rule for a look at the gap behind `c`. -/
theorem Twins.look_any (hn : Twins k m n n') {follow : Follow} {h h' : Gap → Reader α}
    (hsemicolon : ∀ d, d.rest.length < m → Agrees k m f c (h (.semicolon d)) (h' (.semicolon (d.moved k))))
    (htoken : ∀ d b, d.rest.length < m → Agrees k m f c (h (.token d b)) (h' (.token (d.moved k) b))) :
    Agrees k m f c (n.look follow >>= h) (n'.look follow >>= h') :=
  hn.look hsemicolon (fun d => htoken d false) fun d hd _ => htoken d true hd

end Rules

theorem same_toToken (hn : Twins k m n n') (follow : Follow) :
    Same k m c (n.toToken follow) (n'.toToken follow) :=
  hn.toToken follow

theorem same_toPlain (hn : Twins k m n n') : Same k m c n.toPlain n'.toPlain := same_toToken hn .plain

/-- A symbol is found behind the gap in front of it. -/
theorem same_symbol (hn : Twins k m n n') (follow : Follow) (text : String) :
    Same k m c (n.symbol follow text) (n'.symbol follow text) := by
  unfold symbol
  exact .bind (same_toToken hn _) fun _ _ => .exactly text

theorem same_anyName (hn : Twins k m n n') : Same k m c n.anyName n'.anyName := hn.anyName

theorem same_word (hn : Twins k m n n') (text : String) : Same k m c (n.word text) (n'.word text) :=
  hn.word text

/-- A statement is ended by a semicolon, written or not. -/
theorem same_terminator (hn : Twins k m n n') (operator : Bool) :
    Same k m c (n.terminator operator) (n'.terminator operator) := by
  unfold terminator
  exact hn.look (fun d hd => .set_last hd) (fun d hd => .set hd (.exactly _)) fun _ _ _ => .refuse

/-- A value is an expression that is one. -/
theorem same_valueOf (hn : Twins k m n n') (mode : Mode) (floor : Nat) :
    Same k m c (n.valueOf mode floor) (n'.valueOf mode floor) := by
  unfold valueOf
  exact .bind (hn.expression _ _ _) fun _ _ => .require_last

/-- The list after its first expression. Each round consumes a comma, so the round behind it is in front
of fewer characters and the twins are needed for that number only. -/
theorem same_expressionsMore (hn : Twins k m n n') (mode : Mode) {j j' : Nat} (hj : m ≤ j) (hj' : m ≤ j') :
    Same k m c (expressions.more n mode j) (expressions.more n' mode j') := by
  refine .loop (fun q hq i i' ih c => ?_) hj hj' c
  replace hn := hn.mono hq
  unfold expressions.more
  refine hn.look (fun _ _ => .pure) (fun d hd => .ite (fun hnext => ?_) fun _ => .pure) fun _ _ _ => .pure
  exact .step_lower hd hnext (.bind (same_valueOf hn.pred mode 0) fun _ _ => ih _)

theorem same_expressions (hn : Twins k m n n') (mode : Mode) :
    Same k m c (n.expressions mode) (n'.expressions mode) := by
  unfold expressions
  exact .bind (same_valueOf hn mode 0) fun _ _ => same_expressionsMore hn mode hn.depth hn.depth'

/-- A condition in parentheses. -/
theorem same_parenthesized (hn : Twins k m n n') : Same k m c n.parenthesized n'.parenthesized := by
  unfold parenthesized
  refine .bind (same_symbol hn _ _) fun _ _ => ?_
  exact .bind (same_expressions hn _) fun _ _ => same_symbol hn _ _

theorem same_freeName (hn : Twins k m n n') : Same k m c n.freeName n'.freeName := by
  unfold freeName
  exact .bind (same_anyName hn) fun _ _ => .require fun _ => .pure

/-! ## Lists of statements

The statements of a list are read by the inner reader, except the first one of a block, for which another
reader may stand. Therefore the lemmas are about any reader that is given for the first statement.
-/

/-- The HTML-like comments in front of a statement are listed, each at its moved place. -/
theorem agrees_toStatement (hn : Twins k m n n') (unclosed : Bool) :
    Agrees k m (List.map (Statement.moved k)) c (n.toStatement unclosed) (n'.toStatement unclosed) := by
  -- Each comment is consumed before the next one is looked for.
  refine .loop (fun q hq i i' ih c => ?_) hn.depth hn.depth' c
  unfold toStatement.go
  refine .get fun hc => ?_
  -- Behind an unclosed statement no such comment is looked for; elsewhere it is the same text.
  have hmarkup : (if unclosed then none else Token.markupComment? (c.moved k)) =
      (if unclosed then none else Token.markupComment? c).map
        (Prod.map (Cursor.moved k) (Cursor.moved k)) := by
    cases unclosed with
    | true => rfl
    | false => exact Token.markupComment?_moved
  rw [hmarkup]
  cases hfound : (if unclosed then none else Token.markupComment? c) with
  | some place =>
      obtain ⟨start, stop⟩ := place
      have hplace : c < stop := by
        cases unclosed with
        | true => cases hfound
        | false =>
            obtain ⟨hstart, hstop⟩ := Token.le_of_markupComment? hfound
            exact hstart.trans_lt hstop
      exact .ahead_lower hplace hc (.bind (ih stop) fun _ _ => .pure)
  | none =>
      have hblank := Cursor.le_skipWhile isBlank c
      dsimp only [Option.map_none]
      rw [Cursor.skipWhile_moved, Token.comment?_moved]
      cases hcomment : Token.comment? (c.skipWhile isBlank) with
      | some e =>
          exact .ahead_lower (hblank.trans_lt (Token.lt_of_comment? hcomment)) hc (ih e)
      | none => exact .ahead hblank hc .pure

/-- A statement of twins takes at least one character. -/
theorem Twins.strict_statement (hn : Twins k m n n') : n.statement.Strict :=
  fun c hc closing d h => (hn.sound.fits c hc closing d h).piece.lt

/-- Two readers of a first statement agree, and a statement is not empty. -/
structure First (k m : Nat) (first first' : Reader Closing) : Prop where
  strict : first.Strict
  agrees : ∀ c, Agrees k m (Closing.moved k) c first first'

theorem Twins.first (hn : Twins k m n n') : First k m n.statement n'.statement :=
  ⟨hn.strict_statement, hn.statement⟩

/-- The bounds on the number of statements do not matter if they are not less than the number of
characters. -/
theorem agrees_statementsUpTo (hn : Twins k m n n') {first first' : Reader Closing}
    (hfirst : First k m first first')
    {stop stop' : Cursor → Bool} (hstop : ∀ c, c.rest.length < m → stop' (c.moved k) = stop c) {j j' : Nat}
    (hj : m ≤ j) (hj' : m ≤ j') (unclosed : Bool) (c : Cursor) :
    Agrees k m (List.map (Statement.moved k)) c (statementsFrom.go n stop j first unclosed)
      (statementsFrom.go n' stop' j' first' unclosed) := by
  induction m generalizing j j' first first' unclosed c with
  | zero => exact nofun
  | succ q ih =>
      obtain _ | j := j
      · cases hj
      obtain _ | j' := j'
      · cases hj'
      unfold statementsFrom.go
      refine .bind (agrees_toStatement hn unclosed) fun comments d => .get fun hd => ?_
      rw [hstop d hd]
      refine .ite (fun _ => .pure) fun _ => ?_
      refine .bind_strict (hfirst.agrees d) (fun s e h => hfirst.strict.lt h) fun s e => ?_
      -- The statement took a character, so the hypothesis of the induction applies behind it.
      have hrest :=
        ih hn.pred hn.pred.first (fun c hc => hstop c (Nat.lt_succ_of_lt hc)) (Nat.le_of_succ_le_succ hj)
        (Nat.le_of_succ_le_succ hj') s.unclosed e
      exact .bind hrest fun rest f => .pure_of (by rw [List.map_append, List.map_cons]; rfl)

theorem agrees_statementsFrom (hn : Twins k m n n') {first first' : Reader Closing}
    (hfirst : First k m first first')
    {stop stop' : Cursor → Bool} (hstop : ∀ c, c.rest.length < m → stop' (c.moved k) = stop c) :
    Agrees k m (List.map (Statement.moved k)) c (n.statementsFrom first stop)
      (n'.statementsFrom first' stop') :=
  agrees_statementsUpTo hn hfirst hstop hn.depth hn.depth' false c

/-- The statements up to a place that `stop` knows. -/
theorem agrees_statements (hn : Twins k m n n') {stop stop' : Cursor → Bool}
    (hstop : ∀ c, c.rest.length < m → stop' (c.moved k) = stop c) :
    Agrees k m (List.map (Statement.moved k)) c (n.statements stop) (n'.statements stop') :=
  agrees_statementsFrom hn hn.first hstop

/-- A block begins with a brace, so that the twins that read the statements may be twins for one character
less. -/
theorem agrees_blockFrom (hn : Twins k m n n') {first first' : Reader Closing}
    (hfirst : First k m first first') :
    Agrees k (m + 1) (Block.moved k) c (n.blockFrom first) (n'.blockFrom first') := by
  unfold blockFrom
  refine .get fun _ =>
    .bind_strict (.exactly _) (fun _ _ h => (strict_exactly (by decide)).lt h) fun _ _ => ?_
  refine .bind (agrees_statementsFrom hn hfirst fun _ _ => rfl) fun statements _ =>
    .bind (.exactly _) fun _ _ => ?_
  refine .get fun _ => .pure_of (congrArg (Block.mk _) ?_)
  rw [List.map_map, List.map_map]
  rfl

theorem agrees_block (hn : Twins k m n n') : Agrees k m (Block.moved k) c n.block n'.block :=
  (agrees_blockFrom hn hn.first).mono (forward_block hn.sound.toForward) (Nat.le_succ m)

theorem same_skipSemicolon (hn : Twins k m n n') (operator : Bool) :
    Same k m c (n.skipSemicolon operator) (n'.skipSemicolon operator) := by
  unfold skipSemicolon
  exact hn.look_any (fun _ hd => .set hd .pure) fun _ _ _ => .pure

/-! ## Lists of expressions

Entries stand in an array, in a list of arguments and in parentheses. They are separated by commas, and
any of them may be missing. Which lists allow that is asked when the list has been read.
-/

/-- The entries up to the closing character, which the reader consumes. -/
theorem same_entries (hn : Twins k m n n') (close : Char) :
    Same k m c (n.entries close) (n'.entries close) := by
  refine .loop (fun q hq i i' ih c => ?_) hn.depth hn.depth' c
  replace hn := hn.mono hq
  unfold entries.go
  refine .bind (same_toPlain hn) fun _ d => .get fun hd => .ite (fun hnext => ?_) fun _ =>
    .ite (fun _ => ?_) fun _ => ?_
  · exact .step_lower hd hnext (.bind (ih _) fun _ _ => .pure)
  · exact .step hd .pure
  · extract_lets more more'
    -- Behind an entry stands a comma or the closing character, whether or not the entry was spread.
    have hmore : ∀ entry e, Same k (q + 1) e (more entry) (more' entry) := by
      intro entry e
      refine .bind (same_toToken hn _) fun _ g => .get fun hg => .ite (fun hnext => ?_) fun _ => ?_
      · exact .step_lower hg hnext (.bind (ih _) fun _ _ => .pure)
      · exact .require fun _ => .step hg .pure
    rw [Cursor.dropWord?_moved]
    cases he : d.dropWord? "...".toList with
    | none => exact .bind (hn.expression _ _ _) fun s e => .bind .pure fun entry e => hmore entry e
    | some e =>
        exact .ahead (Cursor.le_of_dropWord? he) hd <|
          .bind (hn.expression _ _ _) fun s e => .bind .pure fun entry e => hmore entry e

theorem same_arguments (hn : Twins k m n n') : Same k m c n.arguments n'.arguments := by
  unfold arguments
  exact .bind (same_entries hn _) fun _ _ => .require_last

theorem same_parameters (hn : Twins k m n n') : Same k m c n.parameters n'.parameters := by
  unfold parameters
  exact .bind (.exactly _) fun _ _ => .bind (same_entries hn _) fun _ _ => .require_last

end Nested

end WasmEmbed.Script
