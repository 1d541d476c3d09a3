import WasmEmbed.Proofs.Script.Moved.Nested

/-!
# Elements of markup further back in a file

The rules for markup agree for twins.

An element holds attributes and content, and each of these is a loop that consumes a character in every
round. What stands in braces is an expression and is read by the twins, and so is an element inside the
content.
-/

namespace WasmEmbed.Script.Nested

open Reader

variable {k m : Nat} {n n' : Nested} {c : Cursor}

/-! ## Text and references

These are functions of the text without a nested reader. The two flags of the search for text say what was
seen before, and the induction is over both.
-/

/-- The end of a text between two tags. White space around a line end alone is no text. -/
@[simp] theorem markupText?_moved : markupText? (c.moved k) = (markupText? c).map (Cursor.moved k) := by
  obtain ⟨o, rest⟩ := c
  suffices h : ∀ seen fresh, markupText?.go seen fresh (k + o) rest =
      (markupText?.go seen fresh o rest).map (Cursor.moved k) from h false false
  induction rest generalizing o with
  | nil =>
      intro seen fresh
      cases seen <;> rfl
  | cons x rest ih =>
      intro seen fresh
      simp only [markupText?.go, Nat.add_assoc k, ih, apply_ite (Option.map (Cursor.moved k))]
      rfl

@[simp] theorem runLength_moved (p : Char → Bool) : runLength p (c.moved k) = runLength p c := rfl

/-- A reference to a character, by a name or a number between an ampersand and a semicolon. -/
@[simp] theorem reference?_moved : reference? (c.moved k) = (reference? c).map (Cursor.moved k) := by
  simp only [reference?, Cursor.rest_moved, Cursor.skip_moved, Cursor.step_moved, runLength_moved,
    Cursor.dropWord?_moved]
  split
  · simp only [apply_ite (Option.map (Cursor.moved k)), Option.map_none]
  · simp only [apply_ite (Option.map (Cursor.moved k)), Option.map_none]
  · rfl

/-- A run of plain characters, by the cases of its definition. An ampersand takes the next character with
it. -/
theorem attributeRun_moved (quote : Char) (o : Nat) (text : List Char) :
    attributeRun quote (k + o) text = (attributeRun quote o text).moved k := by
  fun_induction attributeRun quote o text with
  | case1 o x rest h => rw [attributeRun, if_pos h]; rfl
  | case2 o x rest h ih => rw [attributeRun, if_neg h, ← ih, Nat.add_assoc k, Nat.add_assoc k]
  | case3 o x rest hamp h => rw [attributeRun, if_pos h]; rfl; exact hamp
  | case4 o x rest hamp h ih => rw [attributeRun, if_neg h, ← ih, Nat.add_assoc k]; exact hamp
  | case5 => rfl

/-- The end of an attribute. Comments, runs and references each take at least one character. -/
theorem attributeEnd?_moved {quote : Char} {j j' : Nat} (h : c.rest.length < j) (h' : c.rest.length < j') :
    attributeEnd? quote j' (c.moved k) = (attributeEnd? quote j c).map (Cursor.moved k) := by
  -- Each step consumes a character, so both bounds stay above what is left.
  induction j generalizing c j' with
  | zero => cases h
  | succ j ih =>
      cases j' with
      | zero => cases h'
      | succ j' =>
          have hrun : attributeRun quote (k + c.offset) c.rest = _ := attributeRun_moved quote c.offset c.rest
          simp only [attributeEnd?, Token.markupComment?_moved, Cursor.offset_moved, Cursor.rest_moved, hrun,
            Cursor.nextIs_moved, Cursor.step_moved, reference?_moved]
          cases hcomment : Token.markupComment? c with
          | some place =>
              obtain ⟨hstart, hstop⟩ := Token.le_of_markupComment? hcomment
              have hshort := Cursor.length_lt (hstart.trans_lt hstop)
              exact ih (by omega) (by omega)
          | none =>
              have hle := le_attributeRun quote c.offset c.rest
              simp only [Option.map_none, bne_iff_ne, ne_eq, Nat.add_right_inj]
              -- A run that is empty shows in the offset, and moving adds the same on both sides.
              by_cases hoffset : (attributeRun quote c.offset c.rest).offset = c.offset
              · rw [if_neg (not_not_intro hoffset), if_neg (not_not_intro hoffset)]
                cases hreference : reference? c with
                | none =>
                    simp only [apply_ite (Option.map (Cursor.moved k))]
                    rfl
                | some d =>
                    have hshort := Cursor.length_lt (lt_of_reference? hreference)
                    have hd : attributeEnd? quote j' (d.moved k) =
                        (attributeEnd? quote j d).map (Cursor.moved k) :=
                      ih (by omega) (by omega)
                    simp only [Option.map_some, apply_ite (Option.map (Cursor.moved k)), hd]
              · rw [if_pos hoffset, if_pos hoffset]
                have hlt : c < attributeRun quote c.offset c.rest :=
                  lt_of_le_of_ne hle fun h => hoffset (congrArg Cursor.offset h).symm
                have hshort := Cursor.length_lt hlt
                exact ih (by omega) (by omega)

/-! ## Tags

A tag is a name with attributes, and the loop over them is bounded. So is the loop over the content of an
element.
-/

/-- A name in a tag is told from an ordinary one by its hyphens. -/
theorem same_tagName (hn : Twins k m n n') : Same k m c n.tagName n'.tagName := by
  unfold tagName
  refine .get fun hc => ?_
  simp only [Cursor.skipWhile_moved, Cursor.nextIs_moved]
  refine .ite (fun _ => ?_) fun _ => .bind (same_freeName hn) fun _ _ => .pure
  exact .ahead ((Cursor.le_skipWhile _ c).trans (Cursor.le_skipWhile _ _)) hc .pure

theorem same_elementNamePath (hn : Twins k m n n') {j j' : Nat} (hj : m ≤ j) (hj' : m ≤ j') :
    Same k m c (elementName.path n j) (elementName.path n' j') := by
  refine .loop (fun q hq i i' ih c => ?_) hj hj' c
  replace hn := hn.mono hq
  unfold elementName.path
  refine hn.look_any (fun _ _ => .refuse) fun d _ hd =>
    .ite (fun hpoint => .step_lower hd hpoint ?_) fun _ => .pure
  exact .bind (same_toPlain hn.pred) fun _ _ => .bind (same_freeName hn.pred) fun _ d => ih d

/-- The name of an element, with points or a colon. -/
theorem same_elementName (hn : Twins k m n n') : Same k m c n.elementName n'.elementName := by
  unfold elementName
  refine .bind (same_tagName hn) fun hyphen d => ?_
  refine hn.look_any (fun _ _ => .refuse) fun d _ hd => .ite (fun _ => .step hd ?_) fun _ =>
    .ite (fun _ => .pure) fun _ => ?_
  · exact .bind (same_toPlain hn) fun _ _ => .bind (same_tagName hn) fun _ _ => .pure
  · exact same_elementNamePath hn hn.depth hn.depth'

/-- An expression in braces, which may be missing. -/
theorem same_embedded (hn : Twins k m n n') : Same k m c n.embedded n'.embedded := by
  unfold embedded
  refine .bind (.exactly _) fun _ _ => .bind (same_toPlain hn) fun _ d => .get fun hd => ?_
  refine .ite (fun _ => .step_last hd) fun _ => ?_
  rw [Cursor.dropWord?_moved]
  cases hdots : d.dropWord? "...".toList with
  | some e =>
      refine .ahead (Cursor.le_of_dropWord? hdots) hd ?_
      exact .bind (same_valueOf hn _ _) fun _ _ => same_symbol hn _ _
  | none => exact .bind (same_expressions hn _) fun _ _ => same_symbol hn _ _

/-- With the bounds of twins, the end of an attribute is found on both sides or on none. -/
theorem Twins.attributeEnd? (hn : Twins k m n n') (quote : Char) (hc : c.rest.length < m) :
    Nested.attributeEnd? quote n'.depth (c.moved k).step =
      (Nested.attributeEnd? quote n.depth c.step).map (Cursor.moved k) := by
  have hstep := Nat.lt_of_le_of_lt (Cursor.length_le (Cursor.le_step c)) hc
  rw [Cursor.step_moved]
  exact attributeEnd?_moved (Nat.lt_of_lt_of_le hstep hn.depth) (Nat.lt_of_lt_of_le hstep hn.depth')

/-- The value of an attribute: a text in quotes, an element or an expression. -/
theorem same_attributeValue (hn : Twins k m n n') : Same k m c n.attributeValue n'.attributeValue := by
  unfold attributeValue
  refine .bind (same_toPlain hn) fun _ d => .get fun hd => ?_
  have hquoted (quote : Char) : Same k m d (Reader.move fun _ => Nested.attributeEnd? quote n.depth d.step)
      (Reader.move fun _ => Nested.attributeEnd? quote n'.depth (d.moved k).step) :=
    .move (fun hd => hn.attributeEnd? quote hd) fun e h => (Cursor.le_step d).trans (le_of_attributeEnd? h)
  rw [Cursor.rest_moved]
  split
  · exact hquoted _
  · exact hquoted _
  · exact hn.element d
  · exact same_embedded hn

theorem same_attributePair (hn : Twins k m n n') : Same k m c n.attributePair n'.attributePair := by
  unfold attributePair
  refine .get fun hc => .ite (fun _ => same_embedded hn) fun _ => ?_
  refine .bind (same_tagName hn) fun _ _ => .bind (same_toPlain hn) fun _ d => .get fun hd => ?_
  extract_lets value value'
  have hvalue : ∀ u e, Same k m e (value u) (value' u) := by
    intro u e
    refine .bind (same_toPlain hn) fun _ g => .get fun hg => .ite (fun _ => ?_) fun _ => .pure
    exact .step hg (same_attributeValue hn)
  refine .ite (fun _ => .step hd (.bind (same_toPlain hn) fun _ _ => ?_)) fun _ => hvalue () _
  exact .bind (same_tagName hn) fun u e => hvalue () e

/-- The attributes and the end of a tag. -/
theorem same_tagRest (hn : Twins k m n n') {j j' : Nat} (hj : m ≤ j) (hj' : m ≤ j') :
    Same k m c (n.tagRest j) (n'.tagRest j') := by
  refine .loop (fun q hq i i' ih c => ?_) hj hj' c
  replace hn := hn.mono hq
  unfold tagRest
  refine .bind (same_toPlain hn) fun _ d => .get fun hd => .ite (fun _ => .step hd .pure) fun _ => ?_
  rw [Cursor.dropWord?_moved]
  cases hclose : d.dropWord? "/>".toList with
  | some e => exact .ahead (Cursor.le_of_dropWord? hclose) hd .pure
  | none =>
      exact .bind_strict (same_attributePair hn) (fun _ _ h => (strict_attributePair hn.sound.toForward).lt h)
        fun _ e => ih e

/-- The content of an element and its closing tag. -/
theorem same_contentRest (hn : Twins k m n n') {j j' : Nat} (hj : m ≤ j) (hj' : m ≤ j') :
    Same k m c (n.contentRest j) (n'.contentRest j') := by
  -- Each part of the content is consumed before the next one is read.
  refine .loop (fun q hq i i' ih c => ?_) hj hj' c
  replace hn := hn.mono hq
  unfold contentRest
  refine .get fun hc => ?_
  rw [markupText?_moved]
  cases htext : markupText? c with
  | some d => exact .ahead_lower (lt_of_markupText? htext) hc (ih d)
  | none =>
      dsimp only [Option.map_none]
      rw [Cursor.skipWhile_moved]
      have hblank := Cursor.le_skipWhile isBlank c
      generalize c.skipWhile isBlank = d at hblank
      refine .ahead hblank hc (.given fun hd => ?_)
      rw [Cursor.rest_moved, Cursor.skip_moved, Cursor.skipWhile_moved]
      split
      · refine .ahead (Cursor.le_skip 2 d) hd (.bind (same_toPlain hn) fun _ e => .get fun _ => ?_)
        rw [Cursor.nextIs_moved]
        refine .ite (fun _ => ?_) fun _ => same_symbol hn _ _
        exact .bind (same_elementName hn) fun _ _ => same_symbol hn _ _
      · next hrest =>
          have hlt : d < d.skipWhile Token.inMarkupComment :=
            Token.lt_skipWhile (by simp [Cursor.nextIs, hrest]; decide)
          exact .ahead_lower hlt hd (ih _)
      · exact .bind_strict (hn.element d) (fun _ _ h => hn.sound.element.lt h) fun _ e => ih e
      · refine .bind_strict (.move (fun _ => reference?_moved) fun _ => le_of_reference?)
          (fun _ _ h => ?_) fun _ e => ih e
        exact (strict_move lt_of_reference?).lt h
      · exact .bind_strict (same_embedded hn)
          (fun _ _ h => (strict_embedded hn.sound.toForward).lt h) fun _ e => ih e

/-- An element holds at least its opening angle bracket, so that its content may be read by twins for one
character less. -/
theorem same_markup (hn : Twins k m n n') : Same k (m + 1) c n.markup n'.markup := by
  unfold markup
  refine .bind_strict (.exactly _) (fun _ _ h => (strict_exactly (by decide)).lt h) fun _ d => ?_
  refine .bind (same_toPlain hn) fun _ d => .get fun hd => ?_
  refine .ite (fun _ => .step hd (same_contentRest hn hn.depth hn.depth')) fun _ => ?_
  refine .bind (same_elementName hn) fun _ _ => .bind (same_tagRest hn hn.depth hn.depth') fun closed _ => ?_
  exact .ite (fun _ => .pure) fun _ => same_contentRest hn hn.depth hn.depth'

end WasmEmbed.Script.Nested
