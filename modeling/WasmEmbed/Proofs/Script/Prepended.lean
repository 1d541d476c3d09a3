import WasmEmbed.Proofs.Script.Moved.Statement
import WasmEmbed.Proofs.Script.Written.Refused

/-!
# Scripts behind a line

A line is put in front of a script. If the line is a statement that ends with the line, the outline of both
is the statement and the outline of the script, moved by the bytes of the line (`Outline.read?_prepended`).
There are two exceptions, in which both together are no script. A line that names an interpreter is read in
front of the first statement only, and there also behind blanks and comments. And behind a byte order mark
in the middle of a text no HTML-like comment may stand in the same line.
-/

namespace WasmEmbed.Script

open Reader Written

variable {k j b o : Nat} {c d : Cursor} {source u w : List Char}

/-! ## Gaps in front of a statement -/

/-- In front of a statement as well, a gap leads to the next token. -/
theorem Nested.toStatement_eq_find {n : Nested} : ∃ comments,
    n.toStatement false c = some (comments, (Gap.find .plain n.depth c).cursor) := by
  unfold toStatement
  induction n.depth generalizing c with
  | zero => exact ⟨[], rfl⟩
  | succ k ih =>
      have hfirst : Gap.first? .plain c = (Token.markupComment? c).map fun p => .inl p.2 := rfl
      rw [toStatement.go, run_get, if_neg Bool.false_ne_true, Gap.find, hfirst]
      cases hmarkup : Token.markupComment? c with
      | some place =>
          obtain ⟨start, stop⟩ := place
          obtain ⟨comments, hrest⟩ := ih (c := stop)
          refine ⟨⟨⟨.markupComment, ⟨start.offset, stop.offset⟩⟩, .plain⟩ :: comments, ?_⟩
          dsimp only [Option.map_some]
          rw [run_set, run_bind hrest]
          rfl
      | none =>
          dsimp only [Option.map_none]
          cases hcomment : Token.comment? (c.skipWhile isBlank) with
          | some e => exact ih (c := e)
          | none => exact ⟨[], rfl⟩

/-- What stands in front of a statement depends on where the blanks lead and on whether an HTML-like comment
comes first. -/
theorem Nested.toStatement_congr {n : Nested} (hn : 0 < n.depth)
    (hmarkup : Token.markupComment? c = Token.markupComment? d)
    (hblank : c.skipWhile isBlank = d.skipWhile isBlank) :
    n.toStatement false c = n.toStatement false d := by
  obtain ⟨k, hk⟩ := Nat.exists_eq_add_one.mpr hn
  unfold toStatement
  rw [hk, toStatement.go, run_get, run_get, if_neg Bool.false_ne_true, if_neg Bool.false_ne_true, hmarkup]
  cases Token.markupComment? d with
  | some place => rfl
  | none =>
      dsimp only
      rw [hblank]
      cases Token.comment? (d.skipWhile isBlank) <;> rfl

/-! ## Comments that are refused -/

/-- In front of a firm sign the gap is empty. -/
theorem toPlain_sign {x : Char} (hx : isFirm x = true) :
    (Nested.ofDepth k).toPlain ⟨o, x :: u⟩ = some ((), ⟨o, x :: u⟩) := by
  cases k with
  | zero => rfl
  | succ k => exact Nested.toPlain_firm hx (Nat.succ_pos k)

/-- An HTML-like comment is no element of markup: behind the bracket stands a name. -/
theorem statementAt_opening : (Nested.ofDepth k).statementAt ⟨o, '<' :: '!' :: u⟩ = none := by
  have hsign : ∀ o, (Nested.ofDepth k).nameAt? ⟨o, '<' :: '!' :: u⟩ = none :=
    fun o => nameAt?_sign (by decide)
  have helement : (Nested.ofDepth k).element ⟨o, '<' :: '!' :: u⟩ = none := by
    obtain _ | k := k
    · rfl
    · have hname : ∀ o, (Nested.ofDepth k).anyName ⟨o, '!' :: u⟩ = none := fun o => nameAt?_sign (by decide)
      have hplain : (Nested.ofDepth k).toPlain ⟨o + 1, '!' :: u⟩ = some ((), ⟨o + 1, '!' :: u⟩) :=
        toPlain_sign (by decide)
      show (Nested.ofDepth k).markup _ = none
      rw [Nested.markup, run_bind (b := ()) (d := ⟨o + 1, '!' :: u⟩) rfl, run_bind hplain, run_get]
      show ((Nested.ofDepth k).elementName >>= _ : Reader Unit) _ = none
      refine bind_none (bind_none ?_)
      rw [Nested.tagName, run_get]
      show ((Nested.ofDepth k).freeName >>= _ : Reader Bool) _ = none
      exact bind_none (bind_none (hname _))
  rw [Nested.statementAt, run_get, hsign]
  show (get >>= _ : Reader Closing) _ = none
  rw [run_get]
  refine bind_none ?_
  rw [Nested.operandAt, run_get, hsign]
  exact bind_none helement

/-- The characters that close an HTML-like comment begin no statement. -/
theorem statementAt_closing : (Nested.ofDepth k).statementAt ⟨o, '-' :: '-' :: '>' :: u⟩ = none := by
  have hsign : ∀ o, (Nested.ofDepth k).nameAt? ⟨o, '-' :: '-' :: '>' :: u⟩ = none :=
    fun o => nameAt?_sign (by decide)
  have hvalue : ∀ mode floor, (Nested.ofDepth k).expression mode floor ⟨o + 2, '>' :: u⟩ = none := by
    intro mode floor
    obtain _ | k := k
    · rfl
    · have hname : (Nested.ofDepth k).nameAt? ⟨o + 2, '>' :: u⟩ = none := nameAt?_sign (by decide)
      show (Nested.ofDepth k).expressionAt mode floor _ = none
      rw [Nested.expressionAt, run_bind (toPlain_sign (by decide))]
      refine bind_none ?_
      rw [Nested.operandAt, run_get, hname]
      exact bind_none rfl
  rw [Nested.statementAt, run_get, hsign]
  show (get >>= _ : Reader Closing) _ = none
  rw [run_get]
  refine bind_none ?_
  rw [Nested.operandAt, run_get, hsign]
  show (set _ >>= _ : Reader Shape) _ = none
  rw [run_set]
  exact bind_none (bind_none (hvalue _ _))

/-- An HTML-like comment begins behind blanks of the margin, and where it begins no statement does. -/
theorem exists_of_markupComment? (h : (Token.markupComment? c).isSome = true) :
    ∃ t x v, c.rest = t ++ x :: v ∧ (∀ y ∈ t, isMargin y = true) ∧ isBlank x = false ∧
      ∀ o, Token.comment? ⟨o, x :: v⟩ = none ∧ ∀ k, (Nested.ofDepth k).statementAt ⟨o, x :: v⟩ = none := by
  obtain ⟨⟨start, stop⟩, hfound⟩ := Option.isSome_iff_exists.mp h
  simp only [Token.markupComment?] at hfound
  have hsplit : c.rest = c.rest.takeWhile isMargin ++ (c.skipWhile isMargin).rest := by
    rw [Cursor.rest_skipWhile, List.takeWhile_append_dropWhile]
  have hmargin : ∀ y ∈ c.rest.takeWhile isMargin, isMargin y = true :=
    List.all_eq_true.mp List.all_takeWhile
  split at hfound
  · next d hd =>
      rcases (Option.orElse_eq_some _ _ _).mp hd with hopen | ⟨-, hclose⟩
      · rw [(Cursor.dropWord?_eq_some hopen).1] at hsplit
        exact ⟨_, '<', _, hsplit, hmargin, by decide, fun o => ⟨rfl, fun k => statementAt_opening⟩⟩
      · rw [(Cursor.dropWord?_eq_some hclose).1] at hsplit
        exact ⟨_, '-', _, hsplit, hmargin, by decide, fun o => ⟨rfl, fun k => statementAt_closing⟩⟩
  · cases hfound

namespace Outline

/-! ## What is special at the beginning of a script -/

/-- A line that names an interpreter stands in front of the first statement. -/
def HasInterpreter (text : List Char) : Prop :=
  skipInterpreter (.ofDepth (2 * text.length + 8)) (skipMark (.ofText text)) ≠ skipMark (.ofText text)

instance (text : List Char) : Decidable (HasInterpreter text) := inferInstanceAs (Decidable (_ ≠ _))

/-- A byte order mark stands in front of an HTML-like comment. -/
def MarksMarkup (text : List Char) : Prop :=
  (Cursor.ofText text).nextIs (· == '\ufeff') = true ∧
  (Token.markupComment? (skipMark (.ofText text))).isSome = true

instance (text : List Char) : Decidable (MarksMarkup text) := inferInstanceAs (Decidable (_ ∧ _))

/-- In front of a script, the comments and blanks are the same behind a line end, unless the script begins
with a mark in front of an HTML-like comment. -/
theorem toStatement_behind {n : Nested} (hn : 0 < n.depth) (hmarks : ¬ MarksMarkup source) :
    n.toStatement false ⟨b, '\n' :: source⟩ =
      n.toStatement false ((skipMark (.ofText source)).moved (b + 1)) := by
  by_cases hmark : (Cursor.ofText source).nextIs (· == '\ufeff') = true
  · have hmarkup : Token.markupComment? (skipMark (.ofText source)) = none := by
      cases h : Token.markupComment? (skipMark (.ofText source)) with
      | none => rfl
      | some place => exact absurd ⟨hmark, by rw [h]; rfl⟩ hmarks
    obtain _ | ⟨x, u⟩ := source
    · cases hmark
    · obtain rfl : x = '\ufeff' := by simpa [Cursor.nextIs, Cursor.ofText] using hmark
      have hstart : skipMark (.ofText ('\ufeff' :: u)) = ⟨3, u⟩ := rfl
      rw [hstart] at hmarkup ⊢
      refine Nested.toStatement_congr hn ?_ rfl
      rw [Token.markupComment?_moved, hmarkup]
      rfl
  · have hstart : skipMark (.ofText source) = .ofText source := if_neg hmark
    rw [hstart]
    exact Nested.toStatement_congr hn rfl rfl

/-! ## A line in front of a script -/

/-- The outline with `k` more bytes in front of it. -/
def moved (k : Nat) (o : Outline) : Outline := ⟨o.statements.map (Statement.moved k)⟩

@[simp] theorem functions_moved (k : Nat) (o : Outline) :
    (o.moved k).functions = o.functions.map (FunctionDeclaration.moved k) := by
  simp only [functions, moved, List.filterMap_map, List.map_filterMap]
  congr 1
  funext s
  obtain ⟨piece, role⟩ := s
  cases role <;> rfl

@[simp] theorem imports_moved (k : Nat) (o : Outline) :
    (o.moved k).imports = o.imports.map (ImportDeclaration.moved k) := by
  simp only [imports, moved, List.filterMap_map, List.map_filterMap]
  congr 1
  funext s
  obtain ⟨piece, role⟩ := s
  cases role <;> rfl

variable {out : Outline}

/-- Where no interpreter is named, the statements are read from behind the mark. -/
theorem statements_of_read? (ho : read? source = some out) (hinterpreter : ¬ HasInterpreter source) :
    ∃ e, (Nested.ofDepth (2 * source.length + 8)).statements atEnd (skipMark (.ofText source)) =
      some (out.statements, e) := by
  obtain ⟨⟨out', e⟩, hread, rfl⟩ := Option.map_eq_some_iff.mp ho
  rw [reader, run_get, run_set, not_not.mp hinterpreter] at hread
  obtain ⟨⟨statements, d⟩, hstatements, heq⟩ := Option.bind_eq_some_iff.mp hread
  cases heq
  exact ⟨_, hstatements⟩

/-- Behind a line end, the statements of a script are read again, each moved. -/
theorem statementsFrom_behind (ho : read? source = some out) (hinterpreter : ¬ HasInterpreter source)
    (hmarks : ¬ MarksMarkup source) (hk : 2 * source.length + 2 < k) (hj : source.length < j) :
    ∃ e, Nested.statementsFrom.go (.ofDepth k) atEnd j (Nested.ofDepth k).statement false
      ⟨b, '\n' :: source⟩ =
      some ((out.moved (b + 1)).statements, e) := by
  obtain ⟨e, hread⟩ := statements_of_read? ho hinterpreter
  have hstart : (skipMark (.ofText source)).rest.length < source.length + 1 :=
    Nat.lt_succ_of_le (Cursor.length_le (le_skipMark (.ofText source)))
  have htwins : Nested.Twins (b + 1) (source.length + 1) (.ofDepth (2 * source.length + 8)) (.ofDepth k) :=
    Nested.twins_ofDepth (by omega) (by omega)
  have hstop : ∀ c, c.rest.length < source.length + 1 → atEnd (c.moved (b + 1)) = atEnd c := fun _ _ => rfl
  obtain ⟨heq, -⟩ :=
    Nested.agrees_statementsUpTo htwins htwins.first hstop (j := 2 * source.length + 8) (by omega) hj
    false (skipMark (.ofText source)) hstart
  obtain ⟨j, rfl⟩ := Nat.exists_eq_add_one.mpr (Nat.zero_lt_of_lt hj)
  -- The line end changes nothing but what stands in front of the first statement.
  have hbehind : Nested.statementsFrom.go (.ofDepth k) atEnd (j + 1) (Nested.ofDepth k).statement false
      ⟨b, '\n' :: source⟩ =
      Nested.statementsFrom.go (.ofDepth k) atEnd (j + 1) (Nested.ofDepth k).statement false
        ((skipMark (.ofText source)).moved (b + 1)) := by
    have hcomments := toStatement_behind (n := .ofDepth k) (b := b) (Nat.zero_lt_of_lt hk) hmarks
    rw [Nested.statementsFrom.go]
    show Option.bind _ _ = Option.bind _ _
    rw [hcomments]
  replace hread : Nested.statementsFrom.go (.ofDepth (2 * source.length + 8)) atEnd (2 * source.length + 8)
      (Nested.ofDepth (2 * source.length + 8)).statement false (skipMark (.ofText source)) =
        some (out.statements, e) := hread
  exact ⟨e.moved (b + 1), by rw [hbehind, heq, hread]; rfl⟩

/-- A line that names an interpreter is sought where a gap leads. -/
theorem exists_of_hasInterpreter (h : HasInterpreter source) : ∃ o v,
    (Gap.find .plain (2 * source.length + 8) (skipMark (.ofText source))).cursor = ⟨o, '#' :: '!' :: v⟩ := by
  have hdepth : (Nested.ofDepth (2 * source.length + 8)).depth = 2 * source.length + 8 := rfl
  unfold HasInterpreter skipInterpreter at h
  rw [hdepth] at h
  cases hfind : Gap.find .plain (2 * source.length + 8) (skipMark (.ofText source)) with
  | semicolon d => exact absurd (by rw [hfind]) h
  | token d conditional =>
      rw [hfind] at h
      cases hword : d.dropWord? "#!".toList with
      | none => exact absurd (by simp only [hword]) h
      | some e => exact ⟨d.offset, e.rest, congrArg (Cursor.mk d.offset) (Cursor.dropWord?_eq_some hword).1⟩

/-- Behind a line end, a line that names an interpreter is refused, and so is a mark in front of an
HTML-like comment. -/
theorem statementsFrom_behind_none (h : HasInterpreter source ∨ MarksMarkup source)
    (hk : source.length + 1 < k) :
    Nested.statementsFrom.go (.ofDepth (k + 1)) atEnd j (Nested.ofDepth (k + 1)).statement false
      ⟨b, '\n' :: source⟩ =
      none := by
  obtain _ | j := j
  · rfl
  have hrefused {comments : List Statement} {o : Nat} {x : Char} {v : List Char}
      (hcomments : (Nested.ofDepth (k + 1)).toStatement false ⟨b, '\n' :: source⟩ =
        some (comments, ⟨o, x :: v⟩))
      (hstatement : (Nested.ofDepth k).statementAt ⟨o, x :: v⟩ = none) :
      Nested.statementsFrom.go (.ofDepth (k + 1)) atEnd (j + 1) (Nested.ofDepth (k + 1)).statement false
        ⟨b, '\n' :: source⟩ = none := by
    rw [Nested.statementsFrom.go, run_bind hcomments, run_get]
    exact bind_none hstatement
  have hdepth : (Nested.ofDepth (k + 1)).depth = k + 1 := rfl
  -- Behind the mark the comment is at no beginning of a line any more.
  by_cases hmarks : MarksMarkup source
  · obtain ⟨hmark, hmarkup⟩ := hmarks
    obtain _ | ⟨y, u⟩ := source
    · cases hmark
    obtain rfl : y = '\ufeff' := by simpa [Cursor.nextIs, Cursor.ofText] using hmark
    obtain ⟨t, x, v, hsplit, hmargin, hx, hrefuses⟩ := exists_of_markupComment? hmarkup
    obtain ⟨hcomment, hstatement⟩ := hrefuses (b + 4 + byteCount t)
    have hblank : ∀ y ∈ t, isBlank y = true := fun y hy => isBlank_of_isMargin (hmargin y hy)
    have hskip : Cursor.skipWhile isBlank ⟨b, '\n' :: '\ufeff' :: (t ++ x :: v)⟩ =
        ⟨b + 4 + byteCount t, x :: v⟩ :=
      Cursor.skipWhile_append (o := b + 4) hblank fun y hy => by
        obtain rfl := Option.some.inj hy
        exact hx
    obtain rfl : u = t ++ x :: v := hsplit
    have hnone : Token.markupComment? ⟨b, '\n' :: '\ufeff' :: (t ++ x :: v)⟩ = none := rfl
    have hcomments : (Nested.ofDepth (k + 1)).toStatement false ⟨b, '\n' :: '\ufeff' :: (t ++ x :: v)⟩ =
        some ([], ⟨b + 4 + byteCount t, x :: v⟩) := by
      unfold Nested.toStatement
      rw [hdepth, Nested.toStatement.go, run_get, if_neg Bool.false_ne_true, hnone]
      dsimp only
      rw [hskip, hcomment]
      rfl
    exact hrefused hcomments (hstatement k)
  · have hinterpreter := h.resolve_right hmarks
    obtain ⟨o, v, hfound⟩ := exists_of_hasInterpreter hinterpreter
    have hstart : (skipMark (.ofText source)).rest.length ≤ source.length :=
      Cursor.length_le (le_skipMark (.ofText source))
    obtain ⟨comments, hcomments⟩ := Nested.toStatement_eq_find (n := .ofDepth (k + 1))
      (c := (skipMark (.ofText source)).moved (b + 1))
    rw [hdepth, Gap.find_moved (n := 2 * source.length + 8) _ (by omega) (by omega), Gap.cursor_moved,
      hfound] at hcomments
    rw [← toStatement_behind (Nat.succ_pos k) hmarks] at hcomments
    exact hrefused hcomments statementAt_interpreter

/-- What begins with a letter begins with a statement, and goes on with the statements behind it. -/
theorem statements_eq (hstarts : ∃ x v, w = x :: v ∧ isIdentifierPart x = true) :
    (Nested.ofDepth (k + 1)).statements atEnd (.ofText w) =
      ((Nested.ofDepth k).statementAt ⟨0, w⟩).bind fun p =>
      (Nested.statementsFrom.go (.ofDepth (k + 1)) atEnd k
        (Nested.ofDepth (k + 1)).statement p.1.unclosed p.2).map
        fun rest => (p.1.statement :: rest.1, rest.2) := by
  have hfirst := statementsFrom_word (t := []) (u := []) (k := k) (o := 0) (by simp) hstarts atEnd_word k
  rw [List.append_nil] at hfirst
  refine hfirst.trans ?_
  show Option.bind ((Nested.ofDepth k).statementAt ⟨0, w⟩) _ = _
  congr 1
  funext p
  obtain ⟨closing, c⟩ := p
  show Option.bind (Nested.statementsFrom.go _ atEnd k _ closing.unclosed c) _ = _
  cases Nested.statementsFrom.go (.ofDepth (k + 1)) atEnd k
    (Nested.ofDepth (k + 1)).statement closing.unclosed c <;> rfl

/-- A script that begins with a letter begins with a statement. -/
theorem isSome_statementAt (hstarts : ∃ x v, w = x :: v ∧ isIdentifierPart x = true)
    (h : (read? w).isSome = true) :
    ((Nested.ofDepth (2 * w.length + 7)).statementAt ⟨0, w⟩).isSome = true := by
  obtain ⟨k, hk⟩ : ∃ k, 2 * w.length + 7 = k := ⟨_, rfl⟩
  rw [read?_eq hstarts, show 2 * w.length + 8 = k + 1 by omega, statements_eq hstarts] at h
  rw [hk]
  cases hread : (Nested.ofDepth k).statementAt ⟨0, w⟩ with
  | none => simp [hread] at h
  | some p => rfl

/-- A statement with a line end behind it is put in front of a script. Both are a script, that of the
statement and the other ones moved by its bytes, unless the script behind began with what may stand at the
beginning alone. -/
theorem read?_prepended {closing : Closing}
    (hstarts : ∃ x v, w ++ '\n' :: source = x :: v ∧ isIdentifierPart x = true)
    (hread : (Nested.ofDepth (2 * (w ++ '\n' :: source).length + 7)).statementAt ⟨0, w ++ '\n' :: source⟩ =
      some (closing, ⟨b, '\n' :: source⟩)) (hclosed : closing.unclosed = false)
        (ho : read? source = some out) :
    read? (w ++ '\n' :: source) = if HasInterpreter source ∨ MarksMarkup source then none
      else some ⟨closing.statement :: (out.moved (byteCount w + 1)).statements⟩ := by
  have hlength : (w ++ '\n' :: source).length = w.length + (source.length + 1) := by simp
  obtain ⟨k, hk⟩ : ∃ k, 2 * (w ++ '\n' :: source).length + 7 = k := ⟨_, rfl⟩
  rw [hk] at hread
  -- The statement ends where its text does.
  obtain rfl : b = byteCount w := by
    have hfits := Nested.fits_statementAt (Nested.sound_ofDepth k) _ (le_refl _) closing _ hread
    obtain ⟨front, hfront, hoffset⟩ := hfits.piece.lt.le
    obtain rfl : w = front := List.append_cancel_right hfront
    exact hoffset.trans (Nat.zero_add _)
  rw [read?_eq hstarts, show 2 * (w ++ '\n' :: source).length + 8 = k + 1 by omega, statements_eq hstarts,
    hread]
  dsimp only [Option.bind_some]
  rw [hclosed]
  split
  · next h =>
      rw [statementsFrom_behind_none h (by omega)]
      rfl
  · next h =>
      obtain ⟨hinterpreter, hmarks⟩ := not_or.mp h
      obtain ⟨e, hrest⟩ :=
        statementsFrom_behind (b := byteCount w) (k := k + 1) (j := k) ho hinterpreter hmarks
        (by omega) (by omega)
      rw [hrest]
      rfl

end Outline

end WasmEmbed.Script
