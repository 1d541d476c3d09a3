import Mathlib.Data.List.Pairwise
import WasmEmbed.Proofs.Script.Statement
import WasmEmbed.Script.Read

/-!
# The outline of a script lies on its text

The rules are closed by induction on the depth of nesting (`Nested.sound_ofDepth`), so the statements of
an outline lie in their order on the text that was read (`Outline.lies_of_read?`).
-/

namespace WasmEmbed.Script

open Reader

/-- The readers of every depth go forward and read statements that lie in their places. -/
theorem Nested.sound_ofDepth (k : Nat) : (Nested.ofDepth k).Sound := by
  induction k with
  | zero =>
      refine ⟨⟨fun _ _ _ => ?_, fun _ _ => ?_, fun _ => ?_, fun _ => ?_⟩, fun _ => ?_⟩
      all_goals exact .refuse
  | succ k ih =>
      have hforward := ih.toForward
      have hfits : ∀ c, After c (fun closing d => closing.statement.Fits k c d) c
          (Nested.ofDepth (k + 1)).statement := Nested.fits_statementAt ih
      refine ⟨⟨?_, ?_, ?_, ?_⟩, hfits⟩
      · exact fun m floor => Nested.forward_expressionAt hforward m floor
      · exact fun m => (Nested.strict_operandAt hforward m).forward
      · exact Nested.strict_markup hforward
      · exact fun c hc closing d h => (hfits c hc closing d h).piece.lt.le

namespace Outline

theorem le_skipInterpreter (n : Nested) (c : Cursor) : c ≤ skipInterpreter n c := by
  have hfind := Gap.le_find .plain n.depth c
  simp only [skipInterpreter]
  split
  · next hgap =>
      rw [hgap] at hfind
      split
      · next he => exact hfind.trans ((Cursor.le_of_dropWord? he).trans (Cursor.le_skipWhile _ _))
      · exact le_refl c
  · exact le_refl c

theorem le_skipMark (c : Cursor) : c ≤ skipMark c := by
  simp only [skipMark]
  split
  · exact Cursor.le_step c
  · exact le_refl c

/-- The statements of an outline lie in their order on the text. -/
theorem lies_of_read? {text : List Char} {o : Outline} (h : read? text = some o) :
    ∃ d, Lies (Statement.Fits (2 * text.length + 7)) (.ofText text) o.statements d := by
  obtain ⟨⟨o', d⟩, hread, rfl⟩ := Option.map_eq_some_iff.mp h
  refine ⟨d, ?_⟩
  suffices hlies : After (.ofText text)
      (fun o d => Lies (Statement.Fits (2 * text.length + 7)) (.ofText text) (Outline.statements o) d)
        (.ofText text)
      (reader (.ofDepth (2 * text.length + 8))) from hlies (le_refl _) _ _ hread
  have hle := (le_skipMark (.ofText text)).trans
    (le_skipInterpreter (.ofDepth (2 * text.length + 8)) _)
  unfold reader
  refine .get (.ahead hle ?_)
  refine .seq (Nested.after_statements (Nested.sound_ofDepth _) _ _) fun statements e hlies => ?_
  exact .pure fun _ => hlies.of_le hle

/-! ## Places of what is declared -/

variable {text : List Char} {o : Outline}

theorem fits_of_mem (h : read? text = some o) {s : Statement} (hs : s ∈ o.statements) :
    ∃ a b, .ofText text ≤ a ∧ s.Fits (2 * text.length + 7) a b := by
  obtain ⟨d, hlies⟩ := lies_of_read? h
  obtain ⟨a, b, ha, hfits, -⟩ := hlies.fits_of_mem (fun h => h.piece.lt.le) hs
  exact ⟨a, b, ha, hfits⟩

/-- One range of bytes ends where another begins or before. -/
def Apart (p q : Span) : Prop := p.stop ≤ q.start ∨ q.stop ≤ p.start

theorem Apart.symm {p q : Span} (h : Apart p q) : Apart q p := Or.symm h

/-- Each statement ends where the next begins or before. -/
theorem pairwise_statements (h : read? text = some o) :
    o.statements.Pairwise fun s s' => s.span.stop ≤ s'.span.start := by
  obtain ⟨d, hlies⟩ := lies_of_read? h
  refine hlies.pairwise (fun h => h.piece.lt.le) ?_
  intro a s b a' s' b' hs hba hs'
  rw [hs.piece.span, hs'.piece.span]
  exact Cursor.offset_le hba

/-- Two statements of different meaning lie apart. -/
theorem apart_of_ne (h : read? text = some o) {s s' : Statement} (hs : s ∈ o.statements)
    (hs' : s' ∈ o.statements) (hne : s.role ≠ s'.role) : Apart s.span s'.span := by
  have hapart : o.statements.Pairwise fun s s' => Apart s.span s'.span :=
    (pairwise_statements h).imp fun h => Or.inl h
  have : Std.Symm fun s s' : Statement => Apart s.span s'.span := ⟨fun _ _ h => h.symm⟩
  exact hapart.forall hs hs' fun heq => hne (congrArg _ heq)

/-- Ranges inside two ranges that lie apart lie apart. -/
theorem Apart.mono {p q p' q' : Span} (h : Apart p q) (hp : p.start ≤ p'.start)
    (hp' : p'.stop ≤ p.stop) (hq : q.start ≤ q'.start) (hq' : q'.stop ≤ q.stop) : Apart p' q' := by
  unfold Apart at *
  omega

/-- What a statement declares stands in a range of its own inside the statement. -/
structure Holds (text : List Char) (s : Statement) (span : Span) : Prop where
  isOn : span.IsOn text
  start : s.span.start ≤ span.start
  stop : span.stop ≤ s.span.stop

theorem Holds.apart {s s' : Statement} {p q : Span} (hp : Holds text s p) (hq : Holds text s' q)
    (h : Apart s.span s'.span) : Apart p q := h.mono hp.start hp.stop hq.start hq.stop

theorem Holds.mono {s : Statement} {p q : Span} (hp : Holds text s p) (hq : q.IsOn text)
    (hstart : p.start ≤ q.start) (hstop : q.stop ≤ p.stop) : Holds text s q :=
  ⟨hq, Nat.le_trans hp.start hstart, Nat.le_trans hstop hp.stop⟩

/-- A range between the two cursors of a statement stands in it. -/
theorem holds_of_within {s : Statement} {k : Nat} {a b : Cursor} {inside : Cursor → Cursor → Prop}
    {span : Span}
    (ha : .ofText text ≤ a) (hfits : s.Fits k a b) (hspan : span.Within a b inside) : Holds text s span := by
  obtain ⟨c, d, hac, hcd, hdb, rfl, -⟩ := hspan
  refine ⟨Span.isOn_of_lt (ha.trans hac) hcd, ?_, ?_⟩
  · rw [hfits.piece.span]
    exact Cursor.offset_le hac
  · rw [hfits.piece.span]
    exact Cursor.offset_le hdb

/-- What stands between two cursors begins with the character at the first of them. -/
theorem head?_of_nextIs {a b : Cursor} {x : Char} (ha : .ofText text ≤ a) (hab : a < b)
    (h : a.nextIs (· == x) = true) : (Span.of ⟨a.offset, b.offset⟩ text).head? = some x := by
  obtain ⟨v, hrest, hoffset⟩ := hab.le
  rw [Span.of_between ha hrest hoffset]
  cases v with
  | nil =>
      have := Cursor.offset_lt hab
      simp at hoffset
      omega
  | cons y v => simpa [Cursor.nextIs, hrest] using h

/-- A text that begins with an opening brace and has a closing one. -/
structure IsBraced (text : List Char) : Prop where
  opens : text.head? = some '\x7b'
  closes : '\x7d' ∈ text

/-- A block between two cursors is braced. -/
theorem isBraced_of_fits {c d : Cursor} {body : Block} (hc : .ofText text ≤ c) (hcd : c < d)
    (h : body.Fits c d) : IsBraced (Span.of ⟨c.offset, d.offset⟩ text) := by
  refine ⟨head?_of_nextIs hc hcd h.opens, ?_⟩
  -- The closing brace stands between the two ends.
  obtain ⟨m, ⟨u, hu, hlength⟩, hmd, hclose⟩ := h.closes
  have hhead := head?_of_nextIs (hc.trans ⟨u, hu, hlength⟩) hmd hclose
  obtain ⟨w, hw, hlength'⟩ := hmd.le
  rw [Span.of_between (hc.trans ⟨u, hu, hlength⟩) hw hlength'] at hhead
  have hrest : c.rest = (u ++ w) ++ d.rest := by rw [hu, hw, List.append_assoc]
  rw [Span.of_between hc hrest (by rw [hlength', hlength, byteCount_append, Nat.add_assoc])]
  exact List.mem_append_right u (List.mem_of_head? hhead)

/-- A function stands on a text with its parts in their places: the body in the function, and the pieces of
the body in the body, one behind the other. -/
structure IsPlaced (text : List Char) (f : FunctionDeclaration) : Prop where
  isOn : f.span.IsOn text
  body : f.body.span.IsOn text
  start : f.span.start ≤ f.body.span.start
  stop : f.body.span.stop ≤ f.span.stop
  isBraced : IsBraced (f.body.span.of text)
  pieces : ∀ p ∈ f.body.pieces,
    p.span.IsOn text ∧ f.body.span.start ≤ p.span.start ∧ p.span.stop ≤ f.body.span.stop
  pairwise : f.body.pieces.Pairwise fun p q => p.span.stop ≤ q.span.start

/-- A function is declared by a statement and stands in it, with its parts in their places. -/
theorem isPlaced_of_mem_functions (h : read? text = some o) {f : FunctionDeclaration}
    (hf : f ∈ o.functions) :
    ∃ s ∈ o.statements, s.role = .function f ∧ Holds text s f.span ∧ IsPlaced text f := by
  obtain ⟨s, hs, hrole⟩ := List.mem_filterMap.mp hf
  split at hrole
  · next g hg =>
      cases hrole
      obtain ⟨a, b, ha, hfits⟩ := fits_of_mem h hs
      have hspan := hfits.role
      rw [hg] at hspan
      have hholds := holds_of_within ha hfits hspan
      -- The parts were read one after the other between the ends of the statement.
      obtain ⟨a', b', haa', -, -, hspan, c, d, hac, hcd, hdb, hbody, hinside, -⟩ := hspan
      have hc := ha.trans (haa'.trans hac)
      refine ⟨s, hs, hg, hholds, hholds.isOn, ?_, ?_, ?_, ?_, fun p hp => ?_, ?_⟩
      · rw [hbody]
        exact Span.isOn_of_lt hc hcd
      · rw [hspan, hbody]
        exact Cursor.offset_le hac
      · rw [hspan, hbody]
        exact Cursor.offset_le hdb
      · rw [hbody]
        exact isBraced_of_fits hc hcd hinside
      · obtain ⟨p₁, p₂, hp₁, hfit, hp₂⟩ := hinside.pieces.fits_of_mem (fun h => h.lt.le) hp
        rw [hfit.span, hbody]
        exact ⟨Span.isOn_of_lt (hc.trans hp₁) hfit.lt, Cursor.offset_le hp₁, Cursor.offset_le hp₂⟩
      · refine hinside.pieces.pairwise (fun h => h.lt.le) ?_
        intro p₁ p p₂ q₁ q q₂ hp hpq hq
        rw [hp.span, hq.span]
        exact Cursor.offset_le hpq
  · cases hrole

/-- A function stands behind a part of the text and begins with its heading, which ends in front of its
body. -/
theorem exists_heads_of_mem_functions (h : read? text = some o) {f : FunctionDeclaration}
    (hf : f ∈ o.functions) :
    ∃ u front behind, text = u ++ front ++ behind ∧ f.span.start = byteCount u ∧
      f.body.span.start = byteCount (u ++ front) ∧ f.Heads (front ++ behind) behind := by
  obtain ⟨s, hs, hrole⟩ := List.mem_filterMap.mp hf
  split at hrole
  · next g hg =>
      cases hrole
      obtain ⟨a, b, ha, hfits⟩ := fits_of_mem h hs
      have hspan := hfits.role
      rw [hg] at hspan
      obtain ⟨a', b', haa', -, -, hspan, c, d, hac, -, -, hbody, -, hheads⟩ := hspan
      obtain ⟨u, hu, hu'⟩ := ha.trans haa'
      obtain ⟨front, hfront, hfront'⟩ := hac
      rw [hfront] at hheads
      refine ⟨u, front, c.rest, by rw [List.append_assoc, ← hfront]; exact hu, ?_, ?_, hheads⟩
      · rw [hspan, hu']
        exact Nat.zero_add _
      · rw [hbody, hfront', hu', byteCount_append]
        exact congrArg (· + byteCount front) (Nat.zero_add _)
  · cases hrole

/-- A function is what stands behind a part of the text up to some other part, and begins with its heading. -/
theorem exists_heads_of {f : FunctionDeclaration} (h : read? text = some o) (hf : f ∈ o.functions) :
    ∃ w rest, f.span.of text ≠ [] ∧ f.Heads (f.span.of text ++ w) rest := by
  obtain ⟨u, front, behind, htext, hstart, -, hheads⟩ := exists_heads_of_mem_functions h hf
  obtain ⟨-, -, -, -, hplaced⟩ := isPlaced_of_mem_functions h hf
  obtain ⟨u', v, w, hv, htext', hspan⟩ := hplaced.isOn
  rw [hspan] at hstart ⊢
  rw [Span.of_eq htext']
  rw [htext, List.append_assoc, List.append_assoc] at htext'
  obtain ⟨-, hrest⟩ := append_inj_of_byteCount htext' hstart.symm
  exact ⟨w, behind, hv, hrest ▸ hheads⟩

/-- The text of a function does not begin with a line feed. -/
theorem head?_ne_of_mem_functions (h : read? text = some o) {f : FunctionDeclaration}
    (hf : f ∈ o.functions) : (f.span.of text).head? ≠ some '\n' := by
  obtain ⟨w, rest, hne, hword, -⟩ := exists_heads_of h hf
  obtain ⟨x, v, hv⟩ := List.exists_cons_of_ne_nil hne
  rw [hv] at hword ⊢
  exact hword.head?_ne

/-- A function whose text begins like that of another one up to its body has the same heading. -/
theorem heading_eq_of_isPrefix {text' : List Char} {o' : Outline} (h : read? text = some o)
    (h' : read? text' = some o') {f f' : FunctionDeclaration} (hf : f ∈ o.functions)
    (hf' : f' ∈ o'.functions)
    (hfront : Span.of ⟨f.span.start, f.body.span.start⟩ text <+: f'.span.of text') :
    f.isAsync = f'.isAsync ∧ f.isGenerator = f'.isGenerator ∧ f.name = f'.name := by
  obtain ⟨u, front, behind, htext, hstart, hbody, hheads⟩ := exists_heads_of_mem_functions h hf
  obtain ⟨w, rest, -, hheads'⟩ := exists_heads_of h' hf'
  obtain ⟨v, hv⟩ := hfront
  rw [← hv, hstart, hbody, Span.of_eq htext, List.append_assoc] at hheads'
  exact (hheads.change (v ++ w)).unique hheads'

/-- A function is declared by a statement, and its body and the pieces of its body stand in it. -/
theorem holds_of_mem_functions (h : read? text = some o) {f : FunctionDeclaration}
    (hf : f ∈ o.functions) : ∃ s ∈ o.statements, s.role = .function f ∧ Holds text s f.body.span ∧
      (∀ p ∈ f.body.pieces, Holds text s p.span) ∧ IsBraced (f.body.span.of text) := by
  obtain ⟨s, hs, hrole, hholds, hplaced⟩ := isPlaced_of_mem_functions h hf
  have hbody := hholds.mono hplaced.body hplaced.start hplaced.stop
  refine ⟨s, hs, hrole, hbody, fun p hp => ?_, hplaced.isBraced⟩
  obtain ⟨hon, hstart, hstop⟩ := hplaced.pieces p hp
  exact hbody.mono hon hstart hstop

/-- An import is declared by a statement, stands in it and begins with its word. -/
theorem opens_of_mem_imports (h : read? text = some o) {i : ImportDeclaration} (hi : i ∈ o.imports) :
    ∃ s ∈ o.statements, s.role = .importing i ∧ Holds text s i.span ∧
      (i.span.of text).head? = some 'i' := by
  obtain ⟨s, hs, hrole⟩ := List.mem_filterMap.mp hi
  split at hrole
  · next j hj =>
      cases hrole
      obtain ⟨a, b, ha, hfits⟩ := fits_of_mem h hs
      have hspan := hfits.role
      rw [hj] at hspan
      refine ⟨s, hs, hj, holds_of_within ha hfits hspan, ?_⟩
      obtain ⟨c, d, hac, hcd, -, hspan, hopens⟩ := hspan
      rw [hspan]
      exact head?_of_nextIs (ha.trans hac) hcd hopens.1
  · cases hrole

/-- An import is declared by a statement and stands in it. -/
theorem holds_of_mem_imports (h : read? text = some o) {i : ImportDeclaration} (hi : i ∈ o.imports) :
    ∃ s ∈ o.statements, s.role = .importing i ∧ Holds text s i.span := by
  obtain ⟨s, hs, hrole, hholds, -⟩ := opens_of_mem_imports h hi
  exact ⟨s, hs, hrole, hholds⟩

/-- An import begins with what says what it binds and names, whatever comes behind it. -/
theorem exists_says_of_mem_imports (h : read? text = some o) {i : ImportDeclaration} (hi : i ∈ o.imports) :
    ∃ front behind, i.span.of text = front ++ behind ∧ ∀ w, i.Says (front ++ w) w := by
  obtain ⟨s, hs, hrole⟩ := List.mem_filterMap.mp hi
  split at hrole
  · next j hj =>
      cases hrole
      obtain ⟨a, b, ha, hfits⟩ := fits_of_mem h hs
      have hspan := hfits.role
      rw [hj] at hspan
      obtain ⟨c, d, hac, hcd, -, hspan, -, hsaid⟩ := hspan
      -- The bound on repetitions is never reached.
      have hdepth : c.rest.length ≤ 2 * text.length + 7 := by
        obtain ⟨u, hu, -⟩ := ha.trans hac
        have hlength := congrArg List.length hu
        simp only [Cursor.ofText, List.length_append] at hlength
        omega
      obtain ⟨m, ⟨behind, hbehind, hoffset⟩, hsaid⟩ := hsaid hdepth
      obtain ⟨v, hv, hoffset'⟩ := hcd.le
      obtain ⟨f, hf⟩ := hsaid.suffix
      have hrest : v ++ d.rest = f ++ behind ++ d.rest := by
        rw [← hv, ← hf, hbehind, List.append_assoc]
      obtain rfl : v = f ++ behind := List.append_cancel_right hrest
      rw [hspan, Span.of_between (ha.trans hac) hv hoffset']
      rw [← hf] at hsaid
      exact ⟨f, behind, rfl, hsaid.change⟩
  · cases hrole

/-- Imports of the same text bind the same and name the same. -/
theorem clause_eq_of_of_eq {text' : List Char} {o' : Outline} (h : read? text = some o)
    (h' : read? text' = some o') {i i' : ImportDeclaration} (hi : i ∈ o.imports) (hi' : i' ∈ o'.imports)
    (heq : i.span.of text = i'.span.of text') : i.clause = i'.clause := by
  obtain ⟨front, behind, hfront, hsaid⟩ := exists_says_of_mem_imports h hi
  obtain ⟨front', behind', hfront', hsaid'⟩ := exists_says_of_mem_imports h' hi'
  have htext : front ++ behind = front' ++ behind' := hfront.symm.trans (heq.trans hfront')
  exact (hsaid behind).unique (htext ▸ hsaid' behind')

/-- Two functions lie apart. -/
theorem apart_of_mem_functions (h : read? text = some o) {f g : FunctionDeclaration} (hf : f ∈ o.functions)
    (hg : g ∈ o.functions) (hne : f ≠ g) : Apart f.span g.span := by
  obtain ⟨s, hs, hrole, hholds, -⟩ := isPlaced_of_mem_functions h hf
  obtain ⟨s', hs', hrole', hholds', -⟩ := isPlaced_of_mem_functions h hg
  refine hholds.apart hholds' (apart_of_ne h hs hs' ?_)
  rw [hrole, hrole']
  exact fun heq => hne (Role.function.inj heq)

/-- An import and a function lie apart. -/
theorem apart_of_mem_imports (h : read? text = some o) {i : ImportDeclaration} (hi : i ∈ o.imports)
    {f : FunctionDeclaration} (hf : f ∈ o.functions) : Apart i.span f.span := by
  obtain ⟨s, hs, hrole, hholds⟩ := holds_of_mem_imports h hi
  obtain ⟨s', hs', hrole', hholds', -⟩ := isPlaced_of_mem_functions h hf
  refine hholds.apart hholds' (apart_of_ne h hs hs' ?_)
  simp [hrole, hrole']

/-- What statements declare is listed in their order, each where the next begins or before. -/
theorem pairwise_filterMap {β : Type} (h : read? text = some o) {declared : Statement → Option β}
    (span : β → Span) (hspan : ∀ s x, declared s = some x → s.role.span? = some (span x)) :
    (o.statements.filterMap declared).Pairwise fun x y => (span x).stop ≤ (span y).start := by
  obtain ⟨d, hlies⟩ := lies_of_read? h
  have hroles : o.statements.Pairwise fun s s' => ∀ p, s.role.span? = some p → ∀ q,
      s'.role.span? = some q → p.stop ≤ q.start := by
    refine hlies.pairwise (fun h => h.piece.lt.le) ?_
    intro a s b a' s' b' hs hba hs' p hp q hq
    obtain ⟨-, c, d, -, -, hdb, rfl, -⟩ := hs.role.within hp
    obtain ⟨-, c', d', hac', -, -, rfl, -⟩ := hs'.role.within hq
    exact Cursor.offset_le (hdb.trans (hba.trans hac'))
  refine List.Pairwise.filterMap declared ?_ hroles
  intro s s' hss x hx y hy
  exact hss _ (hspan s x hx) _ (hspan s' y hy)

/-- Each import ends where the next begins or before. -/
theorem pairwise_imports (h : read? text = some o) :
    o.imports.Pairwise fun i j => i.span.stop ≤ j.span.start := by
  refine pairwise_filterMap h ImportDeclaration.span fun s i hs => ?_
  split at hs
  · next j hrole =>
      cases hs
      rw [hrole]
      rfl
  · cases hs

/-- An import takes at least one byte. -/
theorem start_lt_of_mem_imports (h : read? text = some o) {i : ImportDeclaration}
    (hi : i ∈ o.imports) : i.span.start < i.span.stop := by
  obtain ⟨_, _, _, hholds⟩ := holds_of_mem_imports h hi
  exact hholds.isOn.start_lt

/-- No import is listed twice. -/
theorem nodup_imports (h : read? text = some o) : o.imports.Nodup := by
  refine (pairwise_imports h).imp_of_mem fun hi _ hle heq => ?_
  subst heq
  exact Nat.not_le_of_lt (start_lt_of_mem_imports h hi) hle

/-- There is one import at a place. -/
theorem eq_of_span_eq (h : read? text = some o) {i j : ImportDeclaration} (hi : i ∈ o.imports)
    (hj : j ∈ o.imports) (hspan : i.span = j.span) : i = j := by
  by_contra hne
  obtain ⟨s, hs, hrole, hholds⟩ := holds_of_mem_imports h hi
  obtain ⟨s', hs', hrole', hholds'⟩ := holds_of_mem_imports h hj
  have hapart : Apart i.span j.span := hholds.apart hholds' (apart_of_ne h hs hs' (by
    rw [hrole, hrole']
    exact fun heq => hne (Role.importing.inj heq)))
  have hlt := start_lt_of_mem_imports h hj
  rw [hspan] at hapart
  rcases hapart with hle | hle <;> omega

/-- The ranges of the functions and imports, in the order of their statements. -/
def spans (o : Outline) : List Span := o.statements.filterMap fun s => s.role.span?

theorem pairwise_spans (h : read? text = some o) : o.spans.Pairwise fun p q => p.stop ≤ q.start :=
  pairwise_filterMap h id fun _ _ hs => hs

theorem isOn_of_mem_spans (h : read? text = some o) {p : Span} (hp : p ∈ o.spans) : p.IsOn text := by
  obtain ⟨s, hs, hrole⟩ := List.mem_filterMap.mp hp
  obtain ⟨a, b, ha, hfits⟩ := fits_of_mem h hs
  obtain ⟨_, hspan⟩ := hfits.role.within hrole
  exact (holds_of_within ha hfits hspan).isOn

/-- What an outline declares stands on a text: the functions and imports in their order, none of them in
another, and the parts of each function in their places. -/
structure IsPlacedOn (text : List Char) (o : Outline) : Prop where
  isOn : ∀ p ∈ o.spans, p.IsOn text
  pairwise : o.spans.Pairwise fun p q => p.stop ≤ q.start
  functions : ∀ f ∈ o.functions, IsPlaced text f

/-- What the outline of a text declares stands on it. -/
theorem isPlacedOn_of_read? (h : read? text = some o) : o.IsPlacedOn text := by
  refine ⟨fun p hp => isOn_of_mem_spans h hp, pairwise_spans h, fun f hf => ?_⟩
  obtain ⟨s, -, -, -, hplaced⟩ := isPlaced_of_mem_functions h hf
  exact hplaced

/-- Functions of different names are declared apart from each other. -/
theorem apart_of_name_ne (h : read? text = some o) {s s' : Statement} (hs : s ∈ o.statements)
    (hs' : s' ∈ o.statements) {f f' : FunctionDeclaration} (hrole : s.role = .function f)
    (hrole' : s'.role = .function f') (hname : f.name ≠ f'.name) : Apart s.span s'.span := by
  refine apart_of_ne h hs hs' ?_
  rw [hrole, hrole']
  exact fun heq => hname (congrArg FunctionDeclaration.name (Role.function.inj heq))

theorem mem_functions_of_function? {name : List Char} {f : FunctionDeclaration}
    (hf : o.function? name = some f) : f ∈ o.functions ∧ f.name = name := by
  refine ⟨List.mem_of_find?_eq_some hf, ?_⟩
  simpa using List.find?_some hf

end Outline

end WasmEmbed.Script
