import WasmEmbed.Proofs.Script.Kept.Import
import WasmEmbed.Proofs.Script.Moved.Statement
import WasmEmbed.Proofs.Script.Written.Statement

/-!
# Import statements in front of any text

An import whose string is followed by a semicolon is a statement that ends with the semicolon. It is the
same statement in front of any text (`Nested.exists_closing`).
-/

namespace WasmEmbed.Script

open Reader Written

variable {k o : Nat} {c d : Cursor} {t u v : List Char}

/-- A gap where nothing but a token may come leads to one. -/
theorem Gap.exists_find_plain (k : Nat) (c : Cursor) : ∃ d, Gap.find .plain k c = .token d false := by
  induction k generalizing c with
  | zero => exact ⟨c, rfl⟩
  | succ k ih =>
      have hfirst : Gap.first? .plain c = (Token.markupComment? c).map fun p => .inl p.2 := rfl
      rw [find, hfirst]
      cases Token.markupComment? c with
      | some place => exact ih place.2
      | none =>
          dsimp only [Option.map_none]
          cases Token.comment? (c.skipWhile isBlank) with
          | some e => exact ih e
          | none => exact ⟨_, rfl⟩

/-- An import does not go on with a parenthesis, a point or a question mark. -/
theorem Lexemes.nextIs_eq_false {as : List Lexeme} (h : Lexemes true as t u) (hover : Over t d.rest) :
    d.nextIs (fun x => x == '(' || x == '.' || x == '?') = false := by
  have hstands : ∃ a t₁ t₂, Over t t₁ ∧ Lexeme.Stands a t₁ t₂ := by
    cases h with
    | last hover hs => exact ⟨_, _, _, hover, .text hs⟩
    | cons hover ha => exact ⟨_, _, _, hover, ha⟩
  obtain ⟨a, t₁, t₂, hover', ha⟩ := hstands
  obtain ⟨x, t', rfl, hx⟩ := ha.exists_cons
  rw [Bool.eq_false_iff]
  intro hcall
  obtain ⟨o, _ | ⟨y, rest⟩⟩ := d
  · cases hcall
  have hy : y = '(' ∨ y = '.' ∨ y = '?' := by simpa [Cursor.nextIs, or_assoc] using hcall
  obtain ⟨hsolid, hword, hslash, hquote, hsign⟩ : Over.isSolid y = true ∧ isWordPart y = false ∧
      (y == '\\') = false ∧ isQuote y = false ∧ isSign y = false := by
    rcases hy with rfl | rfl | rfl <;> decide
  obtain ⟨rfl, -⟩ := List.cons.inj (hover'.unique (Lexeme.isSolid_of_begins hx) hsolid hover)
  cases a <;> simp [Lexeme.begins, hword, hslash, hquote, hsign] at hx

namespace Nested

/-- A statement that says an import is read as one. -/
theorem statementAt_import {i : ImportDeclaration} (h : i.Says ("import".toList ++ ' ' :: t) u) :
    (ofDepth k).statementAt ⟨o, "import".toList ++ ' ' :: t⟩ =
      ((ofDepth k).importClause >>= (ofDepth k).importEnd ⟨o, "import".toList ++ ' ' :: t⟩)
        ⟨o + byteCount "import".toList, ' ' :: t⟩ := by
  obtain ⟨v, ts, heq, hts, -⟩ := h
  obtain rfl := List.append_cancel_left heq
  obtain ⟨d, hfind⟩ := Gap.exists_find_plain k ⟨o + byteCount "import".toList, ' ' :: t⟩
  have hnext := hts.nextIs_eq_false (Over.of_find hfind)
  rw [← importStatement_eq, statementAt, run_get, nameAt?_identifier (by decide) (endsName_cons (by decide))]
  show atToken _ (Gap.find .plain k _) _ = _
  rw [hfind, atToken_token, hnext, if_neg Bool.false_ne_true]
  rfl

/-- In front of a semicolon, an import ends with it. -/
theorem importEnd_semicolon (hk : 0 < k) (start : Cursor) (clause : Clause) :
    (ofDepth k).importEnd start clause ⟨o, ';' :: u⟩ = some (⟨⟨⟨.importStatement, ⟨start.offset, o + 1⟩⟩,
      .importing ⟨⟨start.offset, o + 1⟩, clause.defaultName, clause.bindings, clause.specifier⟩⟩, false⟩,
      ⟨o + 1, u⟩) := by
  rw [importEnd, run_bind (importAttributes_semicolon hk), run_bind (terminator_semicolon false hk)]
  rfl

/-- If an import is read whose string is followed by a semicolon, it is read as the same statement in front
of any text, whatever bound is large enough for the nesting. -/
theorem exists_closing {i : ImportDeclaration}
    (h : i.Says ("import".toList ++ ' ' :: (t ++ ';' :: u)) (';' :: u))
    (hk : 2 * (t ++ ';' :: u).length + 4 < k)
    (hread : ((ofDepth k).statementAt ⟨o, "import".toList ++ ' ' :: (t ++ ';' :: u)⟩).isSome = true) :
    ∃ closing b, closing.unclosed = false ∧ (∃ j, closing.statement.role = .importing j) ∧
      ∀ {j v}, 2 * (t ++ ';' :: u).length + 4 < j → (ofDepth j).statementAt
        ⟨o, "import".toList ++ ' ' :: (t ++ ';' :: v)⟩ = some (closing, ⟨b, v⟩) := by
  obtain ⟨w, ts, heq, hts, -⟩ := id h
  obtain rfl := List.append_cancel_left heq
  have hlength : (' ' :: (t ++ ';' :: u)).length = (t ++ ';' :: u).length + 1 := rfl
  rw [statementAt_import h] at hread
  obtain ⟨⟨_, _⟩, hread⟩ := Option.isSome_iff_exists.mp hread
  obtain ⟨⟨clause, e⟩, hclause, -⟩ := Option.bind_eq_some_iff.mp hread
  -- What is read of the import is what it says, so it ends in front of the semicolon.
  have hrest : e.rest = ';' :: u := by
    have hdepth : (' ' :: (t ++ ';' :: u)).length ≤ k := by omega
    obtain ⟨-, us, hus, hsaid⟩ := parses_importClause (n := ofDepth k) _ hdepth (le_refl _) clause e hclause
    have hsays : ImportDeclaration.Says ⟨⟨0, 0⟩, clause.defaultName, clause.bindings, clause.specifier⟩
        ("import".toList ++ ' ' :: (t ++ ';' :: u)) e.rest := ⟨_, us, rfl, hus, hsaid⟩
    exact hsays.rest_unique h
  obtain ⟨b, rest⟩ := e
  obtain rfl : rest = ';' :: u := hrest
  refine ⟨⟨⟨⟨.importStatement, ⟨o, b + 1⟩⟩,
    .importing ⟨⟨o, b + 1⟩, clause.defaultName, clause.bindings, clause.specifier⟩⟩, false⟩,
    b + 1, rfl, ⟨_, rfl⟩, fun {j v} hj => ?_⟩
  obtain ⟨f, q, hq, hf, -⟩ := hts.exists_change
  have hkept : Kept q (';' :: u) (';' :: v) ⟨o + byteCount "import".toList, ' ' :: (t ++ ';' :: u)⟩
      ⟨o + byteCount "import".toList, ' ' :: (t ++ ';' :: v)⟩ := by
    have ht : ' ' :: t ++ ';' :: u = f ++ [q] ++ ';' :: u := by simpa using hf
    replace ht := List.append_cancel_right ht
    have hshape : ∀ w, ' ' :: (t ++ w) = f ++ q :: w := fun w => by rw [← List.cons_append, ht]; simp
    rw [hshape, hshape]
    exact .intro _ f
  have hfree : ¬ IsStuck ⟨b, ';' :: u⟩ := by
    rintro ⟨⟨w, hw⟩, -⟩
    cases hw
  have hsame : (ofDepth j).importClause ⟨o + byteCount "import".toList, ' ' :: (t ++ ';' :: u)⟩ =
      some (clause, ⟨b, ';' :: u⟩) := by
    have htwins : Twins 0 ((t ++ ';' :: u).length + 2) (ofDepth k) (ofDepth j) :=
      twins_ofDepth (by omega) (by omega)
    have hshort : (' ' :: (t ++ ';' :: u)).length < (t ++ ';' :: u).length + 2 := by omega
    obtain ⟨hread, -⟩ := same_importClause (c := ⟨o + byteCount "import".toList, _⟩) htwins hshort
    rw [hclause] at hread
    simpa [Cursor.moved] using hread
  have hsays : i.Says ("import".toList ++ ' ' :: (t ++ ';' :: v)) (';' :: v) := by
    have hchange :=
      ImportDeclaration.Says.change (f := "import".toList ++ ' ' :: t) (u := ';' :: u) (by simpa using h)
      (';' :: v)
    simpa using hchange
  rw [statementAt_import hsays, run_bind ((keeps_importClause hq).again hkept (.behind hfree) hsame),
    importEnd_semicolon (by omega)]

end Nested

end WasmEmbed.Script
