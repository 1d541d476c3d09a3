import WasmEmbed.Proofs.Script.Forward.Nested
import WasmEmbed.Script.Markup

/-!
# Rules that go forward: markup

Elements hold attributes and content, and in both stand expressions and other elements. The parts of an element that take
at least one character are strict, for the loops over attributes and over content end when nothing is left.
-/

namespace WasmEmbed.Script.Nested

open Reader

variable {n : Nested}

/-! ## Text and references

These functions look at the text alone. They are defined by recursion on it or on a bound, and the
inductions follow that.
-/

/-- Text that is found holds at least one character. -/
theorem lt_of_markupText? {c d : Cursor} (h : markupText? c = some d) : c < d := by
  obtain ⟨o, rest⟩ := c
  -- Once a character was seen, the search may stop where it is.
  suffices hgo : ∀ seen fresh, markupText?.go seen fresh o rest = some d →
      (⟨o, rest⟩ : Cursor) ≤ d ∧ (seen = false → (⟨o, rest⟩ : Cursor) < d) from (hgo false false h).2 rfl
  clear h
  induction rest generalizing o with
  | nil =>
      intro seen fresh h
      simp only [markupText?.go] at h
      split at h
      · next hseen =>
          cases h
          exact ⟨le_refl _, fun h => absurd (hseen.symm.trans h) (by decide)⟩
      · cases h
  | cons x xs ih =>
      intro seen fresh h
      simp only [markupText?.go] at h
      split at h
      · split at h
        · next hseen =>
            cases h
            exact ⟨le_refl _, fun h => absurd (hseen.symm.trans h) (by decide)⟩
        · cases h
      · have hlt := Cursor.lt_of_cons.trans_le (ih _ _ _ h).1
        exact ⟨hlt.le, fun _ => hlt⟩

theorem le_of_markupText? {c d : Cursor} (h : markupText? c = some d) : c ≤ d := (lt_of_markupText? h).le

/-- A reference takes at least its ampersand. -/
theorem lt_of_reference? {c d : Cursor} (h : reference? c = some d) : c < d := by
  -- By name or by number, the reference is closed by a semicolon further on.
  have hclose {p : Char → Bool} {most : Nat} {e : Cursor} (he : c < e)
      (h : (if 0 < runLength p e && runLength p e ≤ most then
        (e.skip (runLength p e)).dropWord? [';'] else none) = some d) : c < d := by
    split at h
    · exact he.trans_le ((Cursor.le_skip _ e).trans (Cursor.le_of_dropWord? h))
    · cases h
  simp only [reference?] at h
  split at h
  · next hrest =>
      have hstep : c < c.step := Cursor.lt_step (by simp [hrest])
      split at h
      · exact hclose (hstep.trans_le (Cursor.le_skip 2 _)) h
      · exact hclose (hstep.trans_le (Cursor.le_skip 1 _)) h
  · next hrest => exact hclose (Cursor.lt_step (by simp [hrest])) h
  · cases h

theorem le_of_reference? {c d : Cursor} (h : reference? c = some d) : c ≤ d := (lt_of_reference? h).le

/-- A run of plain characters, which may be empty. -/
theorem le_attributeRun (quote : Char) (o : Nat) (text : List Char) :
    (⟨o, text⟩ : Cursor) ≤ attributeRun quote o text := by
  fun_induction attributeRun quote o text with
  | case1 => exact le_refl _
  -- An ampersand that begins no reference takes the next character with it.
  | case2 o x rest _ ih =>
      have hboth : (⟨o, '&' :: x :: rest⟩ : Cursor) ≤ ⟨o + 1 + x.utf8Size, rest⟩ :=
        (Cursor.le_of_cons (x := '&')).trans Cursor.le_of_cons
      exact hboth.trans ih
  | case3 => exact le_refl _
  | case4 o x rest _ _ ih => exact Cursor.le_of_cons.trans ih
  | case5 => exact le_refl _

/-- The end of an attribute in quotes, by induction on the bound on its pieces. -/
theorem le_of_attributeEnd? {quote : Char} {k : Nat} {c d : Cursor}
    (h : attributeEnd? quote k c = some d) : c ≤ d := by
  induction k generalizing c with
  | zero => simp [attributeEnd?] at h
  | succ k ih =>
      simp only [attributeEnd?] at h
      split at h
      · next hcomment =>
          obtain ⟨hstart, hstop⟩ := Token.le_of_markupComment? hcomment
          exact (hstart.trans hstop.le).trans (ih h)
      · split at h
        · exact (le_attributeRun quote c.offset c.rest).trans (ih h)
        · split at h
          · cases h
            exact Cursor.le_step c
          · split at h
            · next e he => exact (le_of_reference? he).trans (ih h)
            · cases h

/-! ## Tags

A tag begins with a name, and an attribute begins with a name or a brace.
-/

/-- A name in a tag takes at least one character, with hyphens or without them. -/
theorem strict_tagName : n.tagName.Strict := by
  intro c
  unfold tagName
  refine .get ?_
  dsimp only
  split
  · next hstart =>
      have hword : c.nextIs isAsciiWordPart = true := by
        obtain ⟨o, _ | ⟨x, rest⟩⟩ := c
        · cases hstart
        · simp only [Cursor.nextIs, Bool.and_eq_true] at hstart ⊢
          exact hstart.1.1
      exact .ahead_strict ((Token.lt_skipWhile hword).trans_le (Cursor.le_skipWhile _ _)) (forward_pure _)
  · exact .bind_strict strict_freeName fun _ => forward_pure _

theorem forward_tagName : n.tagName.Forward := strict_tagName.forward

/-- The names behind points, by induction on the bound on their number. -/
theorem forward_elementNamePath (k : Nat) : (elementName.path n k).Forward := by
  induction k with
  | zero => exact forward_pure ()
  | succ k ih =>
      intro c
      unfold elementName.path
      refine after_look fun gap hgap => ?_
      split
      · split
        · refine .ahead (hgap.trans (Cursor.le_step _)) ?_
          exact .bind forward_toPlain fun _ _ => .bind forward_freeName fun _ _ => .last ih
        · exact .pure id
      · exact .refuse

/-- The name of an element. -/
theorem forward_elementName : n.elementName.Forward := by
  intro c
  unfold elementName
  refine .bind forward_tagName fun _ _ => after_look fun gap hgap => ?_
  split
  · split
    · refine .ahead (hgap.trans (Cursor.le_step _)) ?_
      exact .bind forward_toPlain fun _ _ => .bind forward_tagName fun _ _ => .pure id
    · split
      · exact .pure id
      · exact .last (forward_elementNamePath _)
  · exact .refuse

/-- What stands in braces takes at least the opening one. -/
theorem strict_embedded (hn : n.Forward) : n.embedded.Strict := by
  intro c
  unfold embedded
  refine .bind_strict (strict_exactly (by decide)) fun _ _ => .bind forward_toPlain fun _ _ => .get ?_
  split
  · exact .step_last
  · split
    · next hd =>
        refine .ahead (Cursor.le_of_dropWord? hd) ?_
        exact .bind (forward_valueOf hn _ _) fun _ _ => .last (forward_symbol _ _)
    · exact .bind (forward_expressions hn _) fun _ _ => .last (forward_symbol _ _)

theorem forward_embedded (hn : n.Forward) : n.embedded.Forward := (strict_embedded hn).forward

/-- The value of an attribute is a text in quotes, an element or an expression. -/
theorem forward_attributeValue (hn : n.Forward) : n.attributeValue.Forward := by
  intro c
  unfold attributeValue
  refine .bind forward_toPlain fun _ d => .get ?_
  split
  · exact .move_last fun _ h => d.le_step.trans (le_of_attributeEnd? h)
  · exact .move_last fun _ h => d.le_step.trans (le_of_attributeEnd? h)
  · exact .last hn.element.forward
  · exact .last (forward_embedded hn)

/-- An attribute takes at least one character, since its name or its brace does. -/
theorem strict_attributePair (hn : n.Forward) : n.attributePair.Strict := by
  intro c
  unfold attributePair
  refine .get ?_
  split
  · exact .last_strict (strict_embedded hn)
  · refine .bind_strict strict_tagName fun _ _ => .bind forward_toPlain fun _ _ => .get ?_
    extract_lets value
    have hvalue : ∀ u, (value u).Forward := by
      intro u d
      refine .bind forward_toPlain fun _ _ => .get ?_
      split
      · exact .step (.last (forward_attributeValue hn))
      · exact .pure id
    split
    · refine .step (.bind forward_toPlain fun _ _ => ?_)
      exact .bind forward_tagName fun u _ => .last (hvalue ())
    · exact .last (hvalue ())

theorem forward_attributePair (hn : n.Forward) : n.attributePair.Forward := (strict_attributePair hn).forward

/-- The attributes up to the end of the tag, by induction on the bound on their number. -/
theorem forward_tagRest (hn : n.Forward) (k : Nat) : (n.tagRest k).Forward := by
  induction k with
  | zero => exact fun _ => .refuse
  | succ k ih =>
      intro c
      unfold tagRest
      refine .bind forward_toPlain fun _ _ => .get ?_
      split
      · exact .step (.pure id)
      · split
        · next hd => exact .ahead (Cursor.le_of_dropWord? hd) (.pure id)
        · exact .bind (forward_attributePair hn) fun _ _ => .last ih

/-- The content of an element and its closing tag, by induction on the bound on the pieces of the
content. -/
theorem forward_contentRest (hn : n.Forward) (k : Nat) : (n.contentRest k).Forward := by
  induction k with
  | zero => exact fun _ => .refuse
  | succ k ih =>
      intro c
      unfold contentRest
      refine .get ?_
      split
      · next hd => exact .ahead (le_of_markupText? hd) (.last ih)
      · dsimp only
        refine .ahead (Cursor.le_skipWhile _ c) ?_
        split
        · -- The closing tag, the name of which may be missing.
          refine .ahead (Cursor.le_skip 2 _) (.bind forward_toPlain fun _ _ => .get ?_)
          split
          · exact .bind forward_elementName fun _ _ => .last (forward_symbol _ _)
          · exact .last (forward_symbol _ _)
        · exact .ahead (Cursor.le_skipWhile _ _) (.last ih)
        · exact .bind hn.element.forward fun _ _ => .last ih
        · exact .bind (forward_move le_of_reference?) fun _ _ => .last ih
        · exact .bind (forward_embedded hn) fun _ _ => .last ih

/-- An element takes at least its opening angle bracket. -/
theorem strict_markup (hn : n.Forward) : n.markup.Strict := by
  intro c
  unfold markup
  refine .bind_strict (strict_exactly (by decide)) fun _ _ => .bind forward_toPlain fun _ _ => .get ?_
  split
  · exact .step (.last (forward_contentRest hn _))
  · refine .bind forward_elementName fun _ _ => .bind (forward_tagRest hn _) fun closed _ => ?_
    split
    · exact .pure id
    · exact .last (forward_contentRest hn _)

end WasmEmbed.Script.Nested
