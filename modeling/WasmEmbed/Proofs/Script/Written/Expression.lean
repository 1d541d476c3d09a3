import WasmEmbed.Proofs.Script.Written.Token
import WasmEmbed.Script.Read

/-!
# Expressions that are written

What a text is read as depends on the text behind it, so each notion of this module is about a text `w` in
front of a text `u`: `w` is read as an operand (`Written.Operand`), as what stands behind an operand
(`Written.Behind`), as an expression (`Written.Expression`), as a list up to a closing bracket
(`Written.Entries`). There is one rule for each form that the expressions of the written scripts take: a
form is read if its parts are.

The readers are bounded by how deep constructs are nested. The length of a text is always enough: what a
construct contains is shorter than the construct.
-/

namespace WasmEmbed.Script

open Reader

variable {o k : Nat} {x : Char} {t u v w : List Char}

/-! ## What may follow

Behind an operand the reader looks for an operator. A closing character ends the expression, and so does
an operator that binds less strongly than the floor.
-/

/-- A character that the operands of written scripts begin with. -/
def beginsOperand (x : Char) : Bool := isIdentifierPart x || "\"'([".toList.contains x

/-- A character that ends an expression. -/
def isCloser (x : Char) : Bool := ";),]".toList.contains x

theorem isFirm_of_beginsOperand (h : beginsOperand x = true) : isFirm x = true := by
  rcases (Bool.or_eq_true _ _).mp h with h | h
  · exact isFirm_of_isIdentifierPart h
  · have hlist : "\"'([".toList = ['"', '\'', '(', '['] := by decide
    have hmem := List.contains_iff_mem.mp h
    rw [hlist] at hmem
    simp only [List.mem_cons, List.not_mem_nil, or_false] at hmem
    rcases hmem with rfl | rfl | rfl | rfl <;> decide

theorem ne_of_beginsOperand {y : Char} (h : beginsOperand x = true) (hy : beginsOperand y = false) :
    x ≠ y := by
  rintro rfl
  exact Bool.false_ne_true (hy.symm.trans h)

/-- The four characters that close an expression here. -/
theorem eq_of_isCloser (h : isCloser x = true) : x = ';' ∨ x = ')' ∨ x = ',' ∨ x = ']' := by
  have hmem : x ∈ ";),]".toList := List.contains_iff_mem.mp h
  have hlist : ";),]".toList = [';', ')', ',', ']'] := by decide
  rw [hlist] at hmem
  simpa using hmem

theorem isFirm_of_isCloser (h : isCloser x = true) : isFirm x = true := by
  rcases eq_of_isCloser h with rfl | rfl | rfl | rfl <;> decide

/-- A text begins with a character that may begin an operand. -/
def Starts (w : List Char) : Prop := ∃ x v, w = x :: v ∧ beginsOperand x = true

/-- An identifier begins like an operand. -/
theorem starts_of_isIdentifier (hw : isIdentifier w = true) : Starts w := by
  obtain ⟨x, v, rfl, hx, -⟩ := exists_cons_of_isIdentifier hw
  exact ⟨x, v, rfl, by rw [beginsOperand, isIdentifierPart, hx, Bool.true_or, Bool.true_or]⟩

/-- A text that begins so begins with no other character. -/
theorem Starts.nextIs_eq_false {y : Char} (h : Starts w) (hy : beginsOperand y = false) :
    (⟨o, w ++ u⟩ : Cursor).nextIs (· == y) = false := by
  obtain ⟨x, v, rfl, hx⟩ := h
  exact beq_eq_false_iff_ne.mpr (ne_of_beginsOperand hx hy)

theorem Starts.dropWord?_eq_none {word : List Char} {y : Char} (h : Starts w) (hy : beginsOperand y = false) :
    Cursor.dropWord? (y :: word) ⟨o, w ++ u⟩ = none := by
  obtain ⟨x, v, rfl, hx⟩ := h
  exact Cursor.dropWord?_cons_ne (ne_of_beginsOperand hx hy).symm

/-- A text begins with a firm character, perhaps behind a space, but not with an arrow. -/
def FollowsName (u : List Char) : Prop :=
  EndsName u ∧ ∃ x v, isFirm x = true ∧ x ≠ '=' ∧ (u = x :: v ∨ u = ' ' :: x :: v)

theorem followsName_cons (hx : (isFirm x && !(isWordPart x || x == '\\' || x == '=')) = true) :
    FollowsName (x :: u) := by
  simp only [Bool.and_eq_true, Bool.not_eq_true', Bool.or_eq_false_iff, beq_eq_false_iff_ne] at hx
  exact ⟨endsName_cons (by simpa using hx.2.1), x, u, hx.1, hx.2.2, .inl rfl⟩

/-- Behind a name may stand any of the closing characters. -/
theorem followsName_closer (hx : isCloser x = true) : FollowsName (x :: u) := by
  rcases eq_of_isCloser hx with rfl | rfl | rfl | rfl <;> exact followsName_cons (by decide)

/-- Behind a value, an expression whose operators are at least of level `floor` ends in front of `u`. -/
def Stops (floor : Nat) (u : List Char) : Prop :=
  ∀ ⦃k j : Nat⦄ (m : Mode) (o : Nat) (s : Shape), 0 < k → 0 < j → s.isValue = true →
    (Nested.ofDepth k).climb m floor j s ⟨o, u⟩ = some (s, ⟨o, u⟩)

namespace Nested

/-- Where no operator stands, none is read. -/
theorem climb_of_at?_none {n : Nested} {m : Mode} {floor j : Nat} {s : Shape} {c d : Cursor}
    (hgap : Gap.find (followOf m s) n.depth c = .token d false) (hop : Operator.at? n d = none) :
    n.climb m floor (j + 1) s c = some (s, c) := by
  rw [climb, run_look hgap]
  dsimp only
  rw [hop]
  rfl

/-- An operator that may not follow is left alone. -/
theorem climb_of_extended?_none {n : Nested} {m : Mode} {floor j : Nat} {s : Shape} {c d e : Cursor}
    {op : Operator} (hgap : Gap.find (followOf m s) n.depth c = .token d false)
    (hop : Operator.at? n d = some (op, e)) (hnone : n.extended? m floor s op = none) :
    n.climb m floor (j + 1) s c = some (s, c) := by
  rw [climb, run_look hgap]
  dsimp only
  rw [hop]
  dsimp only
  rw [hnone]
  rfl

/-- An operator that may follow is read with what it takes. -/
theorem climb_of_extended? {n : Nested} {m : Mode} {floor j : Nat} {s : Shape} {c d e : Cursor}
    (op : Operator) {reader : Reader Shape}
    (hgap : Gap.find (followOf m s) n.depth c = .token d false)
    (hop : Operator.at? n d = some (op, e)) (hsome : n.extended? m floor s op = some reader) :
    n.climb m floor (j + 1) s c = (reader >>= fun t => n.climb m floor j t) e := by
  rw [climb, run_look hgap]
  dsimp only
  rw [hop]
  dsimp only
  rw [hsome]
  rfl

end Nested

/-- In front of a closing character no operator is found. -/
theorem stops_closer {floor : Nat} (hx : isCloser x = true) : Stops floor (x :: u) := by
  intro k j m o s hk hj hs
  obtain ⟨j, rfl⟩ := Nat.exists_eq_add_one.mpr hj
  refine Nested.climb_of_at?_none (Gap.find_firm (isFirm_of_isCloser hx) _ hk) ?_
  have hname : (Nested.ofDepth k).nameAt? ⟨o, x :: u⟩ = none := by
    refine Nested.nameAt?_of_not _ fun y hy => ?_
    obtain rfl := Option.some.inj hy
    rcases eq_of_isCloser hx with rfl | rfl | rfl | rfl <;> decide
  have hsymbol : Operator.ofSymbol? (x :: u) = none := by
    rcases eq_of_isCloser hx with rfl | rfl | rfl | rfl <;> rfl
  simp only [Operator.at?, hsymbol, hname]

/-- A sum leaves a sum behind it alone. -/
theorem stops_sum {floor : Nat} (hfloor : Level.sum < floor) : Stops floor (" + ".toList ++ u) := by
  intro k j m o s hk hj hs
  obtain ⟨j, rfl⟩ := Nat.exists_eq_add_one.mpr hj
  have hgap := Gap.find_space (x := '+') (u := ' ' :: u) (o := o) (by decide) (Nested.followOf m s) hk
  refine Nested.climb_of_extended?_none (e := ⟨o + 2, ' ' :: u⟩) hgap rfl ?_
  rw [Nested.extended?, if_neg]
  simp only [Bool.and_eq_true, decide_eq_true_eq, not_and]
  exact fun _ => by omega

namespace Written

/-! ## The notions

Each of them says what is read for every bound that is greater than the length of the text. So a rule that
puts parts together has room for one more level of nesting.
-/

/-- In front of `u`, `w` is read as an operand of some shape in `P`. -/
structure Operand (P : Shape → Prop) (w u : List Char) : Prop where
  starts : Starts w
  reads : ∀ ⦃k⦄ m o, w.length < k → Yields ((Nested.ofDepth k).operandAt m) ⟨o, w ++ u⟩ P u

/-- In front of `u`, `w` is read as what stands behind an operand, with operators that are at least of
level `floor`. -/
def Behind (floor : Nat) (w u : List Char) : Prop :=
  ∀ ⦃k j s⦄ m o, w.length < k → w.length < j → s.isValue = true →
    Yields ((Nested.ofDepth k).climb m floor j s) ⟨o, w ++ u⟩ (fun s => s.isValue = true) u

/-- In front of `u`, `w` is read as an expression of some shape in `P` with operators that are at least of
level `floor`. -/
structure Expression (P : Shape → Prop) (floor : Nat) (w u : List Char) : Prop where
  starts : Starts w
  reads : ∀ ⦃k⦄ m o, w.length < k → Yields ((Nested.ofDepth k).expressionAt m floor) ⟨o, w ++ u⟩ P u

/-- In front of a closing bracket, `w` is read as a list of expressions of shapes in `P`. -/
def Entries (P : Shape → Prop) (close : Char) (w : List Char) : Prop :=
  ∀ ⦃k j⦄ o u, w.length < k → w.length < j →
    Yields (Nested.entries.go (Nested.ofDepth (k + 1)) close j) ⟨o, w ++ close :: u⟩
      (fun entries => entries ≠ [] ∧ ∀ e ∈ entries, ∃ s, e = .item s ∧ P s) u

/-- The shapes of values. -/
abbrev IsValue (s : Shape) : Prop := s.isValue = true

variable {P : Shape → Prop} {floor : Nat}

/-! ## Expressions

An expression is read as an operand and as what stands behind it. The two are put together by the rules of
this section.
-/

theorem Operand.mono {Q : Shape → Prop} (h : Operand P w u) (hPQ : ∀ s, P s → Q s) : Operand Q w u :=
  ⟨h.starts, fun _ m o hk => (h.reads m o hk).mono hPQ⟩

/-- In front of an operand the gap is empty. -/
theorem toPlain_starts (hw : Starts w) (hk : 0 < k) :
    (Nested.ofDepth k).toPlain ⟨o, w ++ u⟩ = some ((), ⟨o, w ++ u⟩) := by
  obtain ⟨x, v, rfl, hx⟩ := hw
  exact Nested.toPlain_firm (isFirm_of_beginsOperand hx) hk

theorem toPlain_space (hw : Starts w) (hk : 0 < k) :
    (Nested.ofDepth k).toPlain ⟨o, ' ' :: (w ++ u)⟩ = some ((), ⟨o + 1, w ++ u⟩) := by
  obtain ⟨x, v, rfl, hx⟩ := hw
  exact Nested.toPlain_space (isFirm_of_beginsOperand hx) hk

/-- An operand with what stands behind it is an expression. -/
theorem Expression.of_behind (hw : Operand IsValue w (v ++ u)) (hv : Behind floor v u) :
    Expression IsValue floor (w ++ v) u where
  starts := by
    obtain ⟨x, t, rfl, hx⟩ := hw.starts
    exact ⟨x, t ++ v, rfl, hx⟩
  reads := by
    intro k m o hk
    rw [List.length_append] at hk
    rw [List.append_assoc]
    refine .bind_eq (toPlain_starts hw.starts (by omega)) ?_
    refine (hw.reads m o (by omega)).bind fun s o' hs => ?_
    exact hv m o' (by omega) (by show v.length < k; omega) hs

/-- An operand behind which the expression ends is an expression. -/
theorem Expression.of_operand (hP : ∀ s, P s → IsValue s) (hw : Operand P w u) (hu : Stops floor u) :
    Expression P floor w u where
  starts := hw.starts
  reads := by
    intro k m o hk
    refine .bind_eq (toPlain_starts hw.starts (by omega)) ?_
    refine (hw.reads m o hk).bind fun s o' hs => ?_
    exact .of_eq (hu m o' s (by omega) (by show 0 < k; omega) (hP s hs)) hs

/-- An expression that has a value, in its place. -/
theorem Expression.value (h : Expression IsValue floor w u) (m : Mode) (hk : w.length + 1 < k) :
    Yields ((Nested.ofDepth k).valueOf m floor) ⟨o, w ++ u⟩ (fun _ => True) u := by
  obtain ⟨k, rfl⟩ : ∃ j, k = j + 1 := ⟨k - 1, by omega⟩
  refine Yields.bind (h.reads m o (by omega)) fun s o' hs => ?_
  exact .require_last hs trivial

/-- An expression that has a value, behind a space. -/
theorem Expression.value_space (h : Expression IsValue floor w u) (m : Mode) (hk : w.length + 1 < k) :
    Yields ((Nested.ofDepth k).valueOf m floor) ⟨o, ' ' :: (w ++ u)⟩ (fun _ => True) u := by
  obtain ⟨k, rfl⟩ : ∃ j, k = j + 1 := ⟨k - 1, by omega⟩
  have hspace : (Nested.ofDepth k).expressionAt m floor ⟨o, ' ' :: (w ++ u)⟩ =
      (Nested.ofDepth k).expressionAt m floor ⟨o + 1, w ++ u⟩ := by
    show (_ >>= _ : Option _) = (_ >>= _ : Option _)
    rw [toPlain_space h.starts (by omega), toPlain_starts h.starts (by omega)]
  obtain ⟨s, o', hs, hvalue⟩ := h.reads (k := k) m (o + 1) (by omega)
  exact .bind_eq (hspace.trans hs) (.require_last hvalue trivial)

/-! ## Lists

The entries of a list are written with a comma and a blank between them, up to a closing bracket.
-/

/-- A closing bracket of a list. -/
def Closes (close : Char) : Prop := close = ')' ∨ close = ']'

/-- A bracket that closes a list closes an expression. -/
theorem Closes.isCloser {close : Char} (h : Closes close) : isCloser close = true := by
  rcases h with rfl | rfl <;> decide

/-- The first entry of a list is read up to the mark behind it, and then the rest if the mark is a comma. -/
theorem exists_entries_go {close : Char} {j : Nat} (hclose : Closes close) (hx : isCloser x = true)
    (hw : Expression P 0 w (x :: u)) (hk : w.length < k) :
    ∃ s o', P s ∧
      (x = ',' → Nested.entries.go (Nested.ofDepth (k + 1)) close (j + 1) ⟨o, w ++ x :: u⟩ =
        (Nested.entries.go (Nested.ofDepth (k + 1)) close j >>= fun rest => pure (.item s :: rest))
          ⟨o', u⟩) ∧
      (x = close → Nested.entries.go (Nested.ofDepth (k + 1)) close (j + 1) ⟨o, w ++ x :: u⟩ =
        some ([.item s], ⟨o', u⟩)) := by
  have hcomma := hw.starts.nextIs_eq_false (o := o) (u := x :: u) (y := ',') (by decide)
  have hcloser := hw.starts.nextIs_eq_false (o := o) (u := x :: u) (y := close)
    (by rcases hclose with rfl | rfl <;> decide)
  -- What begins an operand is no hole, no end of the list and no spread.
  have hdots : Cursor.dropWord? "...".toList ⟨o, w ++ x :: u⟩ = none := by
    show Cursor.dropWord? ('.' :: "..".toList) _ = none
    exact hw.starts.dropWord?_eq_none (by decide)
  have hplain : (Nested.ofDepth (k + 1)).toPlain ⟨o, w ++ x :: u⟩ = some ((), ⟨o, w ++ x :: u⟩) :=
    toPlain_starts hw.starts (Nat.succ_pos k)
  obtain ⟨s, o', hs, hP⟩ := hw.reads .inner o hk
  have hitem : (Nested.ofDepth (k + 1)).expression .inner 0 ⟨o, w ++ x :: u⟩ = some (s, ⟨o', x :: u⟩) := hs
  have hmark : (Nested.ofDepth (k + 1)).toToken (.value false) ⟨o', x :: u⟩ = some ((), ⟨o', x :: u⟩) :=
    Nested.toToken_firm (isFirm_of_isCloser hx) (Nat.succ_pos k) _
  refine ⟨s, o' + x.utf8Size, hP, ?_⟩
  rw [Nested.entries.go, run_bind hplain, run_get, hcomma, if_neg Bool.false_ne_true, hcloser,
    if_neg Bool.false_ne_true, hdots]
  dsimp only
  rw [run_bind hitem, run_bind (b := Entry.item s) (d := ⟨o', x :: u⟩) rfl, run_bind hmark, run_get]
  constructor
  · rintro rfl
    rfl
  · rintro rfl
    have hcomma : (⟨o', x :: u⟩ : Cursor).nextIs (· == ',') = false := by
      rcases hclose with rfl | rfl <;> rfl
    rw [hcomma, if_neg Bool.false_ne_true,
      run_require (show (⟨o', x :: u⟩ : Cursor).nextIs (· == x) = true from beq_self_eq_true x)]
    rfl

/-- One expression is a list. -/
theorem Entries.one {close : Char} (hclose : Closes close)
    (hw : ∀ u, Expression P 0 w (close :: u)) : Entries P close w := by
  intro k j o u hk hj
  obtain ⟨j, rfl⟩ : ∃ i, j = i + 1 := ⟨j - 1, by omega⟩
  obtain ⟨s, o', hs, -, hend⟩ := exists_entries_go (o := o) (j := j) hclose hclose.isCloser (hw u) hk
  refine .of_eq (hend rfl) ⟨by simp, fun e he => ?_⟩
  exact ⟨s, List.mem_singleton.mp he, hs⟩

/-- An expression in front of a list makes a longer list. -/
theorem Entries.cons {close : Char} (hclose : Closes close)
    (hw : ∀ u, Expression P 0 w (',' :: u)) (ht : Starts t) (hrest : Entries P close t) :
    Entries P close (w ++ ", ".toList ++ t) := by
  intro k j o u hk hj
  have hcomma : ", ".toList = [',', ' '] := by decide
  rw [hcomma] at hk hj ⊢
  simp only [List.length_append, List.length_cons, List.length_nil] at hk hj
  obtain ⟨j, rfl⟩ : ∃ i, j = i + 1 + 1 := ⟨j - 2, by omega⟩
  rw [show w ++ [',', ' '] ++ t ++ close :: u = w ++ ',' :: ' ' :: (t ++ close :: u) by simp]
  obtain ⟨s, o', hs, hmore, -⟩ := exists_entries_go (o := o) (j := j + 1) (k := k) hclose (x := ',')
    (by decide) (hw (' ' :: (t ++ close :: u))) (by omega)
  -- The space in front of the rest of the list makes no difference to it.
  have hspace : Nested.entries.go (Nested.ofDepth (k + 1)) close (j + 1) ⟨o', ' ' :: (t ++ close :: u)⟩ =
      Nested.entries.go (Nested.ofDepth (k + 1)) close (j + 1) ⟨o' + 1, t ++ close :: u⟩ := by
    rw [Nested.entries.go, run_bind (toPlain_space ht (Nat.succ_pos k)),
      run_bind (toPlain_starts ht (Nat.succ_pos k))]
  obtain ⟨entries, o'', hentries, -, hall⟩ := hrest (k := k) (j := j + 1) (o' + 1) u (by omega) (by omega)
  refine .of_eq ((hmore rfl).trans (run_bind (hspace.trans hentries))) ⟨by simp, fun e he => ?_⟩
  rcases List.mem_cons.mp he with rfl | he
  · exact ⟨s, rfl, hs⟩
  · exact hall e he

/-- A list of values is read as arguments. -/
theorem Entries.arguments (h : Entries IsValue ')' w) (hk : w.length + 1 < k) :
    Yields ((Nested.ofDepth k).arguments) ⟨o, w ++ ')' :: u⟩ (fun _ => True) u := by
  obtain ⟨k, rfl⟩ : ∃ j, k = j + 1 := ⟨k - 1, by omega⟩
  refine Yields.bind (h o u (by omega) (by show w.length < k + 1; omega)) fun entries o' hentries => ?_
  refine .require_last (List.all_eq_true.mpr fun e he => ?_) trivial
  obtain ⟨s, rfl, hs⟩ := hentries.2 e he
  exact hs

/-- Nothing in parentheses is a list with one place that holds nothing. -/
theorem entries_nothing (hk : 0 < k) :
    (Nested.ofDepth k).entries ')' ⟨o, ')' :: u⟩ = some ([.hole], ⟨o + 1, u⟩) := by
  obtain ⟨k, rfl⟩ := Nat.exists_eq_add_one.mpr hk
  show Nested.entries.go _ ')' (k + 1) _ = _
  rw [Nested.entries.go, run_bind (Nested.toPlain_firm (by decide) hk)]
  rfl

/-! ## Behind an operand

A call and a member are read behind an operand, whatever the floor is, and a sum only where the floor
allows it.
-/

/-- Where nothing may follow, nothing stands behind the operand. -/
theorem Behind.nil (h : Stops floor u) : Behind floor [] u := by
  intro k j s m o hk hj hs
  exact .of_eq (h m o s hk hj hs) hs

/-- An operator that may follow, with what it takes, goes on with what stands behind it. -/
theorem Behind.extended (op : Operator) {c d : Cursor} {j : Nat} {s : Shape} {m : Mode}
    {reader : Reader Shape}
    (hgap : Gap.find (Nested.followOf m s) k c = .token d false) (hv : Behind floor v u)
    (hk : v.length < k) (hj : v.length < j)
    (hop : ∃ e, Operator.at? (Nested.ofDepth k) d = some (op, e) ∧
      (Nested.ofDepth k).extended? m floor s op = some reader ∧
      Yields reader e IsValue (v ++ u)) :
    Yields ((Nested.ofDepth k).climb m floor (j + 1) s) c IsValue u := by
  obtain ⟨e, hat, hextended, hreader⟩ := hop
  have hclimb := hreader.bind fun t o' ht => hv (s := t) m o' hk hj ht
  rw [Yields, Nested.climb_of_extended? op hgap hat hextended]
  exact hclimb

/-- A call stands behind a value. -/
theorem Behind.call (ha : Entries IsValue ')' t) (hv : Behind floor v u) :
    Behind floor ('(' :: (t ++ ')' :: v)) u := by
  intro k j s m o hk hj hs
  simp only [List.length_cons, List.length_append] at hk hj
  obtain ⟨j, rfl⟩ : ∃ i, j = i + 1 := ⟨j - 1, by omega⟩
  refine Behind.extended .call (Gap.find_firm (by decide) _ (by omega)) hv (by omega) (by omega)
    ⟨⟨o + 1, t ++ ')' :: v ++ u⟩, rfl, if_pos hs, ?_⟩
  rw [List.append_assoc]
  exact (ha.arguments (by omega)).seq fun _ _ => .pure rfl

/-- A call without arguments stands behind a value. -/
theorem Behind.callNothing (hv : Behind floor v u) : Behind floor ('(' :: ')' :: v) u := by
  intro k j s m o hk hj hs
  simp only [List.length_cons] at hk hj
  obtain ⟨j, rfl⟩ : ∃ i, j = i + 1 := ⟨j - 1, by omega⟩
  refine Behind.extended .call (Gap.find_firm (by decide) _ (by omega)) hv (by omega) (by omega)
    ⟨⟨o + 1, ')' :: (v ++ u)⟩, rfl, if_pos hs, ?_⟩
  exact Yields.bind_eq (.trans (run_bind (entries_nothing (by omega))) rfl) (.pure rfl)

/-- A member stands behind a value. -/
theorem Behind.member (hw : isIdentifier w = true) (hends : EndsName (v ++ u)) (hv : Behind floor v u) :
    Behind floor ('.' :: (w ++ v)) u := by
  intro k j s m o hk hj hs
  simp only [List.length_cons, List.length_append] at hk hj
  obtain ⟨j, rfl⟩ : ∃ i, j = i + 1 := ⟨j - 1, by omega⟩
  refine Behind.extended .dot (Gap.find_firm (by decide) _ (by omega)) hv (by omega) (by omega)
    ⟨⟨o + 1, w ++ v ++ u⟩, rfl, if_pos hs, ?_⟩
  rw [List.append_assoc]
  refine Yields.bind (Q := fun _ => True) ?_ fun _ _ _ => .pure rfl
  refine .bind_eq (toPlain_starts (starts_of_isIdentifier hw) (by omega)) (.get ?_)
  rw [(starts_of_isIdentifier hw).nextIs_eq_false (by decide), if_neg Bool.false_ne_true]
  exact .bind_eq (Nested.nameAt?_identifier hw hends _) (.pure trivial)

/-- A sum goes on behind a value. -/
theorem Behind.sum (hfloor : floor ≤ Level.sum) (hw : Expression IsValue (Level.sum + 1) w (v ++ u))
    (hv : Behind floor v u) : Behind floor (" + ".toList ++ w ++ v) u := by
  intro k j s m o hk hj hs
  have hplus : " + ".toList = [' ', '+', ' '] := by decide
  rw [hplus] at hk hj ⊢
  simp only [List.length_cons, List.length_append, List.length_nil] at hk hj
  obtain ⟨j, rfl⟩ : ∃ i, j = i + 1 := ⟨j - 1, by omega⟩
  have hextended : (Nested.ofDepth k).extended? m floor s (.binary Level.sum false) = some
      (do (Nested.ofDepth k).valueOf m.right (Level.sum + 1); pure .compound) := by
    rw [Nested.extended?, if_pos (by simp [hs, hfloor])]
    rfl
  refine Behind.extended (.binary Level.sum false) (Gap.find_space (by decide) _ (by omega)) hv (by omega)
    (by omega) ⟨⟨o + 2, ' ' :: (w ++ (v ++ u))⟩, by rw [← List.append_assoc]; rfl, hextended, ?_⟩
  exact (hw.value_space m.right (by omega)).seq fun _ _ => .pure rfl

/-! ## Operands

An operand that is a word is read as a name unless the word has a meaning of its own. The others are
strings, the number zero, arrays, and what `await`, `new` and an arrow make of their parts.
-/

/-- The words that an operand may begin with and that are no reserved words. -/
def openingNames : List String := ["async", "await", "undefined", "using", "yield"]

/-- Whether a word is read as a name wherever it stands. -/
def isPlainName (w : List Char) : Bool := !(isReserved w || openingNames.contains (String.ofList w))

/-- A name with no arrow behind it is a name. -/
theorem nameOrArrow_name {m : Mode} (hu : FollowsName u) (hk : 0 < k) :
    (Nested.ofDepth k).nameOrArrow m ⟨o, u⟩ = some (.name, ⟨o, u⟩) := by
  obtain ⟨-, x, v, hx, hne, hu⟩ := hu
  -- Wherever the gap leads, no arrow stands there.
  have hgap : ∃ d, Gap.find m.follow k ⟨o, u⟩ = .token d false ∧ d.dropWord? "=>".toList = none := by
    rcases hu with rfl | rfl
    · exact ⟨_, Gap.find_firm hx _ hk, Cursor.dropWord?_cons_ne hne.symm⟩
    · exact ⟨_, Gap.find_space hx _ hk, Cursor.dropWord?_cons_ne hne.symm⟩
  obtain ⟨d, hgap, hdrop⟩ := hgap
  have harrow : (Nested.ofDepth k).arrowFollows m.follow ⟨o, u⟩ = some (none, ⟨o, u⟩) := by
    rw [Nested.arrowFollows, run_look hgap, ← hdrop]
    rfl
  rw [Nested.nameOrArrow, run_bind harrow]
  rfl

/-- An operand that begins with a word is read by its word. -/
theorem operandAt_word {n : Nested} {m : Mode} {c d : Cursor} (h : n.nameAt? c = some (w, d)) :
    n.operandAt m c = n.wordOperand m w d := by
  rw [Nested.operandAt, run_get, h]
  rfl

/-- A word without a meaning of its own is a name, or the parameter of a function. -/
theorem wordOperand_plain {n : Nested} {m : Mode} (h : isPlainName w = true) :
    n.wordOperand m w = n.nameOrArrow m := by
  simp only [isPlainName, Bool.not_eq_true', Bool.or_eq_false_iff] at h
  have hne : ∀ word ∈ reservedWords ++ openingNames, String.ofList w ≠ word := by
    rintro word hword rfl
    rcases List.mem_append.mp hword with hword | hword
    · exact Bool.false_ne_true (h.1.symm.trans (List.contains_iff_mem.mpr hword))
    · exact Bool.false_ne_true (h.2.symm.trans (List.contains_iff_mem.mpr hword))
  unfold Nested.wordOperand
  split
  all_goals first
    | exact absurd (by assumption) (hne _ (by decide))
    | rw [h.1]; rfl

/-- A name is an operand. -/
theorem Operand.name (hw : isIdentifier w = true) (hplain : isPlainName w = true) (hu : FollowsName u) :
    Operand (· = .name) w u where
  starts := starts_of_isIdentifier hw
  reads := by
    intro k m o hk
    refine ⟨.name, o + byteCount w, ?_, rfl⟩
    rw [operandAt_word (Nested.nameAt?_identifier hw hu.1 _), wordOperand_plain hplain]
    exact nameOrArrow_name hu (by omega)

/-- A name is a value. -/
theorem Operand.nameValue (hw : isIdentifier w = true) (hplain : isPlainName w = true) (hu : FollowsName u) :
    Operand IsValue w u := by
  refine (Operand.name hw hplain hu).mono ?_
  rintro _ rfl
  rfl

/-- A name is an expression in front of a mark that ends one. -/
theorem Expression.name (hw : isIdentifier w = true) (hplain : isPlainName w = true)
    (hx : isCloser x = true) :
    Expression (· = .name) floor w (x :: u) := by
  refine .of_operand ?_ (.name hw hplain (followsName_closer hx)) (stops_closer hx)
  rintro _ rfl
  rfl

/-- An operand with a value is an expression in front of a mark that ends one. -/
theorem Expression.closed (hw : Operand IsValue w (x :: u)) (hx : isCloser x = true) :
    Expression IsValue floor w (x :: u) := .of_operand (fun _ h => h) hw (stops_closer hx)

/-- An operand with a value is an argument, or the entry of an array. -/
theorem Entries.closed {close : Char} (hclose : Closes close) (hw : ∀ u, Operand IsValue w (close :: u)) :
    Entries IsValue close w := .one hclose fun u => .closed (hw u) hclose.isCloser

/-- A name as the only entry of a list. -/
theorem Entries.nameValue {close : Char} (hclose : Closes close) (hw : isIdentifier w = true)
    (hplain : isPlainName w = true) : Entries IsValue close w :=
  .closed hclose fun _ => .nameValue hw hplain (followsName_closer hclose.isCloser)

theorem nameAt?_sign {n : Nested} (hx : (isWordStart x || x == '\\') = false) :
    n.nameAt? ⟨o, x :: u⟩ = none := by
  refine Nested.nameAt?_of_not n fun y hy => ?_
  obtain rfl := Option.some.inj hy
  exact hx

/-- A text between quotes is an operand. -/
theorem Operand.string {quote : Char} (hquote : quote = '"' ∨ quote = '\'')
    (ht : ∀ y ∈ t, Token.isPlain quote y = true) : Operand IsValue (quote :: (t ++ [quote])) u where
  starts := ⟨quote, _, rfl, by rcases hquote with rfl | rfl <;> decide⟩
  reads := by
    intro k m o hk
    simp only [List.length_cons, List.length_append, List.length_nil] at hk
    rw [show quote :: (t ++ [quote]) ++ u = quote :: (t ++ quote :: u) by simp]
    have hread := string?_plain (o := o) (u := u) hquote ht (show 1 < k by omega)
    refine ⟨.primary, o + 1 + byteCount t + quote.utf8Size, ?_, rfl⟩
    have hname : (Nested.ofDepth k).nameAt? ⟨o, quote :: (t ++ quote :: u)⟩ = none :=
      nameAt?_sign (by rcases hquote with rfl | rfl <;> decide)
    have hstring : (Nested.ofDepth k).operandAt m ⟨o, quote :: (t ++ quote :: u)⟩ =
        (Reader.move (Token.string? k) >>= fun _ => pure Shape.primary) ⟨o, quote :: (t ++ quote :: u)⟩ := by
      rw [Nested.operandAt, run_get, hname]
      rcases hquote with rfl | rfl <;> rfl
    rw [hstring, run_move hread]
    rfl

/-- A zero is an operand in front of a mark that ends an expression. -/
theorem Operand.zero (hx : isCloser x = true) : Operand IsValue ['0'] (x :: u) where
  starts := ⟨'0', [], rfl, by decide⟩
  reads := by
    intro k m o hk
    refine ⟨.primary, o + 1, ?_, rfl⟩
    show (Nested.operandAt (Nested.ofDepth k) m) ⟨o, '0' :: x :: u⟩ = _
    rw [Nested.operandAt, run_get, nameAt?_sign (by decide)]
    have hnumber : Token.number? ⟨o, '0' :: x :: u⟩ = some ⟨o + 1, x :: u⟩ := by
      rcases eq_of_isCloser hx with rfl | rfl | rfl | rfl <;> rfl
    show ((Reader.move Token.number? >>= fun _ => pure Shape.primary) _ : Option _) = _
    rw [run_move hnumber]
    rfl

/-- A list of values in brackets is an operand. -/
theorem Operand.array (ht : Entries IsValue ']' t) : Operand IsValue ('[' :: (t ++ [']'])) u where
  starts := ⟨'[', _, rfl, by decide⟩
  reads := by
    intro k m o hk
    simp only [List.length_cons, List.length_append, List.length_nil] at hk
    obtain ⟨k, rfl⟩ : ∃ j, k = j + 1 := ⟨k - 1, by omega⟩
    rw [show '[' :: (t ++ [']']) ++ u = '[' :: (t ++ ']' :: u) by simp]
    rw [Yields, Nested.operandAt, run_get, nameAt?_sign (by decide)]
    show Yields (Nested.array _) _ _ _
    refine .bind_eq (b := ()) (d := ⟨o + 1, t ++ ']' :: u⟩) rfl ?_
    refine Yields.bind (ht (o + 1) u (by omega) (by show t.length < k + 1; omega))
      fun entries o' hentries => ?_
    have hvalue : entries.all Entry.isValue = true := by
      refine List.all_eq_true.mpr fun e he => ?_
      obtain ⟨s, rfl, hs⟩ := hentries.2 e he
      exact hs
    exact .require (by rw [hvalue]; rfl) (.pure hvalue)

/-- The word `await` in front of a value is an operand. -/
theorem Operand.await (hw : Expression IsValue (Level.sign + 1) w u) :
    Operand IsValue ("await ".toList ++ w) u where
  starts := ⟨'a', "wait ".toList ++ w, rfl, by decide⟩
  reads := by
    intro k m o hk
    have hspace : "await ".toList = "await".toList ++ [' '] := by decide
    rw [hspace] at hk ⊢
    simp only [List.length_append, List.length_cons, List.length_nil] at hk
    rw [show "await".toList ++ [' '] ++ w ++ u = "await".toList ++ ' ' :: (w ++ u) by simp]
    rw [Yields, operandAt_word (Nested.nameAt?_identifier (by decide) (endsName_cons (by decide)) _)]
    exact (hw.value_space m.right (by omega)).seq fun _ _ => .pure rfl

/-- The word `new` in front of a name with arguments is an operand. -/
theorem Operand.creation (hw : isIdentifier w = true) (hplain : isPlainName w = true)
    (ht : Entries IsValue ')' t) : Operand IsValue ("new ".toList ++ w ++ '(' :: (t ++ [')'])) u where
  starts := ⟨'n', _, rfl, by decide⟩
  reads := by
    intro k m o hk
    have hspace : "new ".toList = "new".toList ++ [' '] := by decide
    rw [hspace] at hk ⊢
    simp only [List.length_append, List.length_cons, List.length_nil] at hk
    obtain ⟨k, rfl⟩ : ∃ j, k = j + 1 := ⟨k - 1, by omega⟩
    have hstarts := starts_of_isIdentifier hw
    have hname : Operand (· = .name) w ('(' :: (t ++ ')' :: u)) :=
      .name hw hplain (followsName_cons (by decide))
    rw [show "new".toList ++ [' '] ++ w ++ '(' :: (t ++ [')']) ++ u =
      "new".toList ++ ' ' :: (w ++ '(' :: (t ++ ')' :: u)) by simp]
    rw [Yields, operandAt_word (Nested.nameAt?_identifier (by decide) (endsName_cons (by decide)) _)]
    refine Yields.bind_eq (toPlain_space hstarts (Nat.succ_pos k)) (.get ?_)
    rw [hstarts.nextIs_eq_false (by decide), if_neg Bool.false_ne_true]
    refine (hname.reads m _ (show w.length < k by omega)).bind ?_
    rintro s o' rfl
    refine .require rfl (.look (Gap.find_firm (by decide) _ (Nat.succ_pos k)) ?_)
    exact .set ((ht.arguments (by omega)).seq fun _ _ => .pure rfl)

/-- Names may be the parameters of a function. -/
theorem areParameters_of_names {entries : List Entry}
    (h : ∀ e ∈ entries, ∃ s, e = Entry.item s ∧ s = .name) : Entry.areParameters entries = true := by
  have hall : entries.all Entry.isParameter = true := by
    refine List.all_eq_true.mpr fun e he => ?_
    obtain ⟨s, rfl, rfl⟩ := h e he
    rfl
  rw [Entry.areParameters, Bool.or_eq_true]
  right
  split
  · next hlast =>
      obtain ⟨s, hs, -⟩ := h _ (List.mem_of_getLast? hlast)
      cases hs
  · exact hall

/-- A function with names as parameters and a value behind its arrow is an operand. -/
theorem Operand.arrow (ht : Entries (· = .name) ')' t) (hw : Expression IsValue 0 w u) :
    Operand IsValue ('(' :: (t ++ ") => ".toList ++ w)) u where
  starts := ⟨'(', _, rfl, by decide⟩
  reads := by
    intro k m o hk
    have harrow : ") => ".toList = [')', ' ', '=', '>', ' '] := by decide
    rw [harrow] at hk ⊢
    simp only [List.length_append, List.length_cons, List.length_nil] at hk
    obtain ⟨k, rfl⟩ : ∃ j, k = j + 1 := ⟨k - 1, by omega⟩
    rw [show '(' :: (t ++ [')', ' ', '=', '>', ' '] ++ w) ++ u =
      '(' :: (t ++ ')' :: ' ' :: '=' :: '>' :: ' ' :: (w ++ u)) by simp]
    rw [Yields, Nested.operandAt, run_get, nameAt?_sign (by decide)]
    show Yields (Nested.groupOrArrow _ m) _ _ _
    refine .bind_eq (b := ()) (d := ⟨o + 1, _⟩) rfl ?_
    refine Yields.bind (ht (o + 1) _ (by omega) (by show t.length < k + 1; omega)) ?_
    rintro entries o' ⟨hne, hall⟩
    have hexpressions : Entry.areExpressions entries = true := by
      refine List.all_eq_true.mpr fun e he => ?_
      obtain ⟨s, rfl, rfl⟩ := hall e he
      rfl
    -- A list of names could be expressions in parentheses as well; the arrow decides.
    have hfollows : (Nested.ofDepth (k + 1)).arrowFollows m.follow
        ⟨o', ' ' :: '=' :: '>' :: ' ' :: (w ++ u)⟩ =
        some (some ⟨o' + 3, ' ' :: (w ++ u)⟩, ⟨o', ' ' :: '=' :: '>' :: ' ' :: (w ++ u)⟩) := by
      rw [Nested.arrowFollows, run_look (Gap.find_space (by decide) _ (Nat.succ_pos k))]
      rfl
    rw [hexpressions, Nested.listOrArrow, if_pos (areParameters_of_names hall), if_pos rfl]
    refine .bind_eq hfollows (.set ?_)
    refine .bind_eq (toPlain_space hw.starts (Nat.succ_pos k)) (.get ?_)
    rw [hw.starts.nextIs_eq_false (by decide), if_neg Bool.false_ne_true]
    exact (hw.value m.right (by omega)).seq fun _ _ => .pure rfl

/-! ### Words with a meaning of their own -/

/-- The words with a meaning of their own that are operands by themselves. -/
def standingWords : List String :=
  ["async", "false", "null", "super", "this", "true", "undefined", "yield"]

/-- Whether a word is an operand by itself where an expression ends behind it. -/
def isOperandWord (w : List Char) : Bool := isPlainName w || standingWords.contains (String.ofList w)

theorem nameAt?_closer {n : Nested} (hx : isCloser x = true) : n.nameAt? ⟨o, x :: u⟩ = none := by
  rcases eq_of_isCloser hx with rfl | rfl | rfl | rfl <;> exact nameAt?_sign (by decide)

/-- Where an expression ends behind it, the word `async` is a name. -/
theorem asyncRest_closer {m : Mode} (hx : isCloser x = true) (hk : 0 < k) :
    (Nested.ofDepth k).asyncRest m ⟨o, x :: u⟩ = some (.name, ⟨o, x :: u⟩) := by
  have hword : (Nested.ofDepth k).wordAt ⟨o, x :: u⟩ = "" := by rw [Nested.wordAt, nameAt?_closer hx]
  have hparenthesis : (⟨o, x :: u⟩ : Cursor).nextIs (· == '(') = false := by
    rcases eq_of_isCloser hx with rfl | rfl | rfl | rfl <;> rfl
  rw [Nested.asyncRest, run_look (Gap.find_firm (isFirm_of_isCloser hx) _ hk)]
  dsimp only
  rw [hword, if_neg (by decide), hparenthesis, if_neg Bool.false_ne_true, nameAt?_closer hx]
  exact nameOrArrow_name (followsName_closer hx) hk

/-- Where an expression ends behind it, the word `yield` takes nothing. -/
theorem yieldRest_closer {m : Mode} (hx : isCloser x = true) (hk : 0 < k) :
    (Nested.ofDepth k).yieldRest m ⟨o, x :: u⟩ = some (.compound, ⟨o, x :: u⟩) := by
  have hbegins : Operator.beginsExpression (Nested.ofDepth k) ⟨o, x :: u⟩ = false := by
    rcases eq_of_isCloser hx with rfl | rfl | rfl | rfl <;>
      simp only [Operator.beginsExpression, nameAt?_closer hx] <;> rfl
  have hcomment : Nested.opensMarkupComment ⟨o, x :: u⟩ = false := by
    rcases eq_of_isCloser hx with rfl | rfl | rfl | rfl <;> rfl
  have hstar : (⟨o, x :: u⟩ : Cursor).nextIs (· == '*') = false := by
    rcases eq_of_isCloser hx with rfl | rfl | rfl | rfl <;> rfl
  rw [Nested.yieldRest, run_look (Gap.find_firm (isFirm_of_isCloser hx) _ hk)]
  dsimp only
  rw [hcomment, run_require (p := !false) rfl, hstar, hbegins]
  rfl

/-- A word that may be an operand by itself is one in front of a mark that ends an expression. -/
theorem Operand.word (hw : isIdentifier w = true) (hword : isOperandWord w = true) (hx : isCloser x = true) :
    Operand IsValue w (x :: u) := by
  have hfollows := followsName_closer (u := u) hx
  refine ⟨starts_of_isIdentifier hw, fun k m o hk => ?_⟩
  have hk : 0 < k := by omega
  rw [Yields, operandAt_word (Nested.nameAt?_identifier hw hfollows.1 _)]
  rcases (Bool.or_eq_true _ _).mp hword with hplain | hstanding
  · rw [wordOperand_plain hplain, nameOrArrow_name hfollows hk]
    exact ⟨_, _, rfl, rfl⟩
  · have hmem := List.contains_iff_mem.mp hstanding
    simp only [standingWords, List.mem_cons, List.not_mem_nil, or_false] at hmem
    rcases hmem with h | h | h | h | h | h | h | h <;> unfold Nested.wordOperand <;> rw [h]
    case inl => exact ⟨_, _, asyncRest_closer hx hk, rfl⟩
    case inr.inr.inr.inr.inr.inr.inr => exact ⟨_, _, yieldRest_closer hx hk, rfl⟩
    all_goals exact ⟨_, _, rfl, rfl⟩

end Written

end WasmEmbed.Script
