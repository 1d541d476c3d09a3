import WasmEmbed.Proofs.Script.Forward.Expression
import WasmEmbed.Proofs.Script.Import

/-!
# Statements in their places

A statement that was read lies between two cursors: where it begins and where it ends. `Statement.Fits` says
that its range of bytes is the range between them, and so for what it declares: a function begins with its
heading and ends with its body, which begins at a brace, with the pieces of the body in their order between,
and an import is the whole statement and is what its text says. Statements that are read one after the other
lie in their order on the text (`Lies`).
-/

namespace WasmEmbed.Script

open Reader

/-! ## Lists in order -/

/-- The members of a list lie one behind the other between two cursors. -/
inductive Lies {α : Type} (Fits : Cursor → α → Cursor → Prop) : Cursor → List α → Cursor → Prop
  | nil {c d : Cursor} : c ≤ d → Lies Fits c [] d
  | cons {c a b d : Cursor} {x : α} {xs : List α} :
      c ≤ a → Fits a x b → Lies Fits b xs d → Lies Fits c (x :: xs) d

namespace Lies

variable {α β : Type} {Fits : Cursor → α → Cursor → Prop} {b c d e : Cursor} {xs ys : List α}

theorem le (hstep : ∀ {a x b}, Fits a x b → a ≤ b) (h : Lies Fits c xs d) : c ≤ d := by
  induction h with
  | nil h => exact h
  | cons hc hx _ ih => exact hc.trans ((hstep hx).trans ih)

theorem of_le (hbc : b ≤ c) (h : Lies Fits c xs d) : Lies Fits b xs d := by
  cases h with
  | nil h => exact .nil (hbc.trans h)
  | cons hc hx hxs => exact .cons (hbc.trans hc) hx hxs

theorem trans_le (h : Lies Fits c xs d) (hde : d ≤ e) : Lies Fits c xs e := by
  induction h with
  | nil h => exact .nil (h.trans hde)
  | cons hc hx _ ih => exact .cons hc hx (ih hde)

theorem append (hxs : Lies Fits c xs d) (hys : Lies Fits d ys e) : Lies Fits c (xs ++ ys) e := by
  induction hxs with
  | nil h => exact hys.of_le h
  | cons hc hx _ ih => exact .cons hc hx (ih hys)

theorem map {Fits' : Cursor → β → Cursor → Prop} {f : α → β}
    (hf : ∀ {a x b}, Fits a x b → Fits' a (f x) b) (h : Lies Fits c xs d) :
    Lies Fits' c (xs.map f) d := by
  induction h with
  | nil h => exact .nil h
  | cons hc hx _ ih => exact .cons hc (hf hx) ih

theorem fits_of_mem (hstep : ∀ {a x b}, Fits a x b → a ≤ b) (h : Lies Fits c xs d) {x : α}
    (hx : x ∈ xs) : ∃ a b, c ≤ a ∧ Fits a x b ∧ b ≤ d := by
  induction h with
  | nil h => cases hx
  | cons hc hy hys ih =>
      rcases List.mem_cons.mp hx with rfl | hmem
      · exact ⟨_, _, hc, hy, hys.le hstep⟩
      · obtain ⟨a', b', ha', hfits, hb'⟩ := ih hmem
        exact ⟨a', b', (hc.trans (hstep hy)).trans ha', hfits, hb'⟩

/-- A relation that holds of members one behind the other holds along the whole list. -/
theorem pairwise (hstep : ∀ {a x b}, Fits a x b → a ≤ b) {R : α → α → Prop}
    (hR : ∀ {a x b a' y b'}, Fits a x b → b ≤ a' → Fits a' y b' → R x y) (h : Lies Fits c xs d) :
    xs.Pairwise R := by
  induction h with
  | nil h => exact .nil
  | cons hc hx hxs ih =>
      refine .cons (fun y hy => ?_) ih
      obtain ⟨a', b', ha', hfits, -⟩ := hxs.fits_of_mem hstep hy
      exact hR hx ha' hfits

end Lies

/-! ## Pieces and statements -/

/-- A piece lies between two cursors and takes at least one character. -/
structure Piece.Fits (a : Cursor) (p : Piece) (b : Cursor) : Prop where
  lt : a < b
  span : p.span = ⟨a.offset, b.offset⟩

/-- A range of bytes lies between two cursors and takes at least one character; `inside` is what is known
of the two cursors at its ends. -/
def Span.Within (a b : Cursor) (inside : Cursor → Cursor → Prop) (span : Span) : Prop :=
  ∃ s e, a ≤ s ∧ s < e ∧ e ≤ b ∧ span = ⟨s.offset, e.offset⟩ ∧ inside s e

/-- Between two cursors stands a block: it begins at a brace, it has a closing brace, and its pieces lie in
their places. -/
structure Block.Fits (s : Cursor) (body : Block) (e : Cursor) : Prop where
  opens : s.nextIs (· == '\x7b') = true
  closes : ∃ m, s ≤ m ∧ m < e ∧ m.nextIs (· == '\x7d') = true
  pieces : Lies Piece.Fits s body.pieces e

/-- What a statement declares lies in its place: a function with its body behind its heading, and an import,
which begins with its word. If no more than `k` characters are left where it begins, the import is what its
text says. -/
def Role.Fits (k : Nat) (a b : Cursor) : Role → Prop
  | .plain => True
  | .function f => f.span.Within a b fun s e =>
      f.body.span.Within s e fun c e => f.body.Fits c e ∧ f.Heads s.rest c.rest
  | .importing i => i.span.Within a b fun s e =>
      s.nextIs (· == 'i') = true ∧ (s.rest.length ≤ k → ∃ m ≤ e, i.Says s.rest m.rest)

theorem Role.Fits.mono {k : Nat} {a a' b b' : Cursor} {role : Role} (ha : a' ≤ a) (hb : b ≤ b')
    (h : role.Fits k a b) : role.Fits k a' b' := by
  cases role with
  | plain => trivial
  | function f | importing i =>
      obtain ⟨s, e, has, hse, heb, hinside⟩ := h
      exact ⟨s, e, ha.trans has, hse, heb.trans hb, hinside⟩

/-- The range of what a statement declares. -/
def Role.span? : Role → Option Span
  | .plain => none
  | .function f => some f.span
  | .importing i => some i.span

/-- What is declared between two cursors has its range between them. -/
theorem Role.Fits.within {k : Nat} {a b : Cursor} {role : Role} (h : role.Fits k a b) {span : Span}
    (hspan : role.span? = some span) : ∃ inside, span.Within a b inside := by
  cases role with
  | plain => cases hspan
  | function f | importing i =>
      cases hspan
      exact ⟨_, h⟩

/-- A statement lies between two cursors with what it declares. -/
structure Statement.Fits (k : Nat) (a : Cursor) (s : Statement) (b : Cursor) : Prop where
  piece : s.toPiece.Fits a b
  role : s.role.Fits k a b

namespace Nested

/-- The readers for what a construct contains go forward, and statements lie in their places. The reader of a
statement is bounded by one less than those for what surrounds it. -/
structure Sound (n : Nested) : Prop extends n.Forward where
  fits : ∀ c, After c (fun closing d => closing.statement.Fits (n.depth - 1) c d) c n.statement

variable {n : Nested}

/-! ## Lists of statements -/

theorem after_toStatement (k : Nat) (unclosed : Bool) (c : Cursor) :
    After c (fun statements d => c ≤ d ∧ Lies (Statement.Fits k) c statements d) c
      (n.toStatement unclosed) := by
  unfold toStatement
  induction n.depth generalizing c with
  | zero => exact .pure fun h => ⟨h, .nil h⟩
  | succ j ih =>
      unfold toStatement.go
      refine .get ?_
      split
      · next start stop hcomment =>
          -- An HTML-like comment is a statement, and the others are blanks in front of one.
          have hplace : c ≤ start ∧ start < stop := by
            split at hcomment
            · cases hcomment
            · exact Token.le_of_markupComment? hcomment
          refine .ahead (hplace.1.trans hplace.2.le) (.seq (ih stop) fun rest d hrest => .pure fun h => ?_)
          refine ⟨h, .cons hplace.1 ?_ hrest⟩
          exact ⟨⟨hplace.2, rfl⟩, trivial⟩
      · have hblank := Cursor.le_skipWhile isBlank c
        dsimp only
        split
        · next e he =>
            have hce := hblank.trans (Token.le_of_comment? he)
            intro hc statements d h
            obtain ⟨hed, hlies⟩ := ih e (le_refl e) statements d h
            exact ⟨hce.trans hed, hlies.of_le hce⟩
        · exact .ahead hblank (.pure fun h => ⟨h, .nil h⟩)

/-- Statements lie in their order. -/
theorem after_statementsFrom (hn : n.Sound) {first : Reader Closing}
    (hfirst : ∀ c, After c (fun closing d => closing.statement.Fits (n.depth - 1) c d) c first)
    (stop : Cursor → Bool) (c : Cursor) :
    After c (fun statements d => c ≤ d ∧ Lies (Statement.Fits (n.depth - 1)) c statements d) c
      (n.statementsFrom first stop) := by
  suffices h : ∀ k reader unclosed c,
      (∀ c, After c (fun closing d => closing.statement.Fits (n.depth - 1) c d) c reader) →
      After c (fun statements d => c ≤ d ∧ Lies (Statement.Fits (n.depth - 1)) c statements d) c
        (statementsFrom.go n stop k reader unclosed) from h n.depth first false c hfirst
  intro k
  induction k with
  | zero => exact fun reader unclosed c _ => .refuse
  | succ k ih =>
      intro reader unclosed c hreader
      unfold statementsFrom.go
      refine .seq (after_toStatement (n.depth - 1) unclosed c) fun comments d hcomments => .get ?_
      split
      · exact .pure fun h => ⟨h, hcomments⟩
      · have hd : After d (fun closing e => d ≤ e ∧ closing.statement.Fits (n.depth - 1) d e) d reader :=
          (hreader d).mono fun closing e h => ⟨h.piece.lt.le, h⟩
        refine .seq hd fun closing e hstatement => ?_
        refine .seq (ih n.statement closing.unclosed e hn.fits) fun rest f hrest => .pure fun h => ?_
        exact ⟨h, hcomments.append (.cons (le_refl d) hstatement hrest)⟩

theorem after_statements (hn : n.Sound) (stop : Cursor → Bool) (c : Cursor) :
    After c (fun statements d => c ≤ d ∧ Lies (Statement.Fits (n.depth - 1)) c statements d) c
      (n.statements stop) :=
  after_statementsFrom hn hn.fits stop c

/-- What is read as a block is one. -/
theorem after_block (hn : n.Sound) (c : Cursor) :
    After c (fun body d => c ≤ d ∧ c < d ∧ body.span.start = c.offset ∧ body.Fits c d) c n.block := by
  unfold block blockFrom
  refine .get ?_
  have hbrace : ∀ {text : String} {x : Char} (_ : text.toList = [x]) (c : Cursor),
      After c (fun (_ : Unit) d => c ≤ d ∧ c < d ∧ c.nextIs (· == x) = true) c (exactly text) := by
    intro text x htext c hc u d h
    obtain ⟨hle, hrest⟩ := after_exactly text c hc u d h
    rw [htext] at hrest
    refine ⟨hle, (strict_exactly (by simp [htext])).lt h, ?_⟩
    simp [Cursor.nextIs, hrest]
  refine .seq (hbrace rfl c) fun _ d hd => ?_
  refine .seq (after_statementsFrom hn hn.fits _ d) fun statements e hstatements => ?_
  refine .seq (hbrace rfl e) fun _ f hf => .get (.pure fun h => ?_)
  have hde := hstatements.le fun h => h.piece.lt.le
  have hpieces := hstatements.map (f := Statement.toPiece) fun h => h.piece
  refine ⟨h, hd.1.trans_le (hde.trans hf.1.le), rfl, hd.2, ⟨e, hd.1.le.trans hde, hf⟩, ?_⟩
  exact (hpieces.of_le hd.1.le).trans_le hf.1.le

end Nested

end WasmEmbed.Script
