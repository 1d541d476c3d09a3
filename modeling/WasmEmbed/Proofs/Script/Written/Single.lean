import WasmEmbed.Proofs.Script.Read
import WasmEmbed.Proofs.Script.Written.Statement

/-!
# Scripts of one statement

What is read as a statement takes the text that was written for it (`Written.StatementOf.span_eq`), so with
nothing but blanks behind it that text is a script of one statement (`Written.read?_statement`).
-/

namespace WasmEmbed.Script.Written

open Reader

variable {P : Statement → Prop} {o k : Nat} {t u w : List Char}

/-- The statement that is read takes the bytes of its text. -/
theorem StatementOf.yields_span (hw : StatementOf P w u) (hk : w.length < k) :
    Yields ((Nested.ofDepth k).statementAt) ⟨o, w ++ u⟩ (fun closing => closing.unclosed = false ∧
      P closing.statement ∧ closing.statement.span = ⟨o, o + byteCount w⟩) u := by
  obtain ⟨closing, o', hread, hclosed, hP⟩ := hw.reads o hk
  have hfits := Nested.fits_statementAt (Nested.sound_ofDepth k) ⟨o, w ++ u⟩ (le_refl _) closing ⟨o', u⟩ hread
  obtain ⟨v, hv, hoffset⟩ := hfits.piece.lt.le
  obtain rfl : w = v := List.append_cancel_right hv
  exact .of_eq hread ⟨hclosed, hP, hfits.piece.span.trans (congrArg (Span.mk o) hoffset)⟩

/-- A statement with blanks behind it is a script that consists of this statement. -/
theorem read?_statement (hw : StatementOf P w t) (ht : ∀ y ∈ t, isMargin y = true) :
    ∃ s, Outline.read? (w ++ t) = some ⟨[s]⟩ ∧ P s ∧ s.span = ⟨0, byteCount w⟩ := by
  obtain ⟨x, v, hcons, hx⟩ := hw.starts
  have hstarts : ∃ x v, w ++ t = x :: v ∧ isIdentifierPart x = true :=
    ⟨x, v ++ t, by rw [hcons, List.cons_append], hx⟩
  have hend : Series atEnd (fun ss => ss = []) t [] := .nil (fun _ hy => by cases hy) (fun _ => rfl) ht rfl
  have hread : Yields ((Nested.ofDepth (2 * (w ++ t).length + 8)).statements atEnd) (.ofText (w ++ t))
      (fun ss => ∃ s, ss = [s] ∧ P s ∧ s.span = ⟨0, byteCount w⟩) [] := by
    have hlength : w.length ≤ (w ++ t).length := by rw [List.length_append]; omega
    obtain ⟨k, hk⟩ : ∃ k, 2 * (w ++ t).length + 8 = k + 1 := ⟨2 * (w ++ t).length + 7, rfl⟩
    rw [hk]
    have hlong : ([] ++ w ++ t).length < k := by rw [List.nil_append]; omega
    have hfirst := hw.yields_span (o := 0) (show w.length < k by omega)
    have hcons := yields_cons (t := []) (v := t) (u := []) (o := 0) (j := k + 1)
      (Q := fun ss => ∃ s, ss = [s] ∧ P s ∧ s.span = ⟨0, 0 + byteCount w⟩)
      (fun _ hy => by cases hy) hw.starts (by rw [List.append_nil]; exact hfirst) atEnd_word hend
      (fun s rest hs hrest => ⟨s, by rw [hrest], hs⟩) hlong (by omega)
    rw [List.append_nil, List.nil_append, Nat.zero_add] at hcons
    exact hcons
  obtain ⟨⟨_⟩, houtline, s, rfl, hs⟩ := exists_outline_of_yields hread hstarts
  exact ⟨s, houtline, hs⟩

end WasmEmbed.Script.Written
