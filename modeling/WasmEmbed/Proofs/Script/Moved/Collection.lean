import WasmEmbed.Proofs.Script.Forward.Expression
import WasmEmbed.Proofs.Script.Moved.Function
import WasmEmbed.Proofs.Script.Moved.Markup

/-!
# Templates, objects and arrays further back in a file

The rules for the operands that hold other expressions agree for twins. An object or an array begins with a
bracket, so that the twins that read what is inside may be twins for one character less.
-/

namespace WasmEmbed.Script.Nested

open Reader

variable {k m : Nat} {n n' : Nested} {c : Cursor}

/-! ## Templates

A template is a loop over text, escapes and expressions in braces.
-/

/-- The rest of a template behind its opening quote, with any two sufficient bounds. -/
theorem same_templateRest (hn : Twins k m n n') {j j' : Nat} (hj : m ≤ j) (hj' : m ≤ j') :
    Same k m c (n.templateRest j) (n'.templateRest j') := by
  -- Each part of a template is consumed before the next one is read.
  refine .loop (fun q hq i i' ih c => ?_) hj hj' c
  replace hn := hn.mono hq
  have hrun := Cursor.le_skipWhile isTemplateText c
  unfold templateRest
  refine .get fun hc => ?_
  dsimp only
  rw [Cursor.skipWhile_moved]
  -- Behind the text the next character decides, and each of the branches consumes it.
  generalize c.skipWhile isTemplateText = d at hrun
  have hstep {x : Char} {rest : List Char} (h : d.rest = x :: rest) : c < d.step :=
    hrun.trans_lt (Cursor.lt_step (by simp [h]))
  rw [Cursor.rest_moved, Cursor.step_moved, Cursor.skip_moved]
  split
  · exact .set_last (Nat.lt_of_le_of_lt (Cursor.length_le (hrun.trans (Cursor.le_step d))) hc)
  · next hrest =>
      refine .ahead_lower ((hstep hrest).trans_le (Cursor.le_step _)) hc ?_
      refine .bind (same_expressions hn.pred _) fun _ _ => ?_
      exact .bind (same_symbol hn.pred _ _) fun _ e => ih e
  · next hrest => exact .ahead_lower (hstep hrest) hc (ih _)
  · refine .bind_strict (.move (fun _ => Token.escape?_moved) fun e h => ?_) (fun _ e h => ?_) fun _ e => ih e
    · exact hrun.trans (Token.le_of_escape? h)
    · obtain ⟨e, he, heq⟩ := Option.map_eq_some_iff.mp h
      cases heq
      exact hrun.trans_lt (Token.lt_of_escape? he)
  · exact .refuse

/-! ## Objects

A property may begin with any of several modifiers, and each of them may turn out to be its name. The
reader has one local definition for each, and they agree from the last one to the first.
-/

/-- Behind the name of a property: a value, a method, a default, or nothing. -/
theorem same_propertyRest (hn : Twins k m n n') (name : MemberName) :
    Same k m c (n.propertyRest name) (n'.propertyRest name) := by
  unfold propertyRest
  refine .bind (same_toPlain hn) fun _ d => .get fun hd => .ite (fun _ => ?_) fun _ =>
    .ite (fun _ => ?_) fun _ => ?_
  · refine .require fun _ => .step hd (.bind (same_toPlain hn) fun _ e => .get fun he => ?_)
    rw [Cursor.dropWord?_moved]
    cases hdots : e.dropWord? "...".toList with
    | some g => exact .ahead (Cursor.le_of_dropWord? hdots) he (.bind (hn.expression _ _ _) fun _ _ => .pure)
    | none => exact .bind (hn.expression _ _ _) fun _ _ => .pure
  · exact .require fun _ => .bind (same_methodRest hn) fun _ _ => .pure
  · refine .ite (fun _ => .step hd (.bind (same_valueOf hn _ _) fun _ _ => ?_)) fun _ =>
      .require fun _ => .pure
    cases name with
    | word => exact .pure
    | bracketed => exact .pure
    | fixed => exact .refuse

theorem same_methodProperty (hn : Twins k m n n') : Same k m c n.methodProperty n'.methodProperty := by
  unfold methodProperty
  refine .bind (same_memberName hn) fun _ _ => .require fun _ => ?_
  exact .bind (same_toPlain hn) fun _ _ => .bind (same_methodRest hn) fun _ _ => .pure

/-- A word is skipped as a modifier if the name of a member follows. -/
theorem same_skipModifier (hn : Twins k m n n') (w : String) (others : Char → Bool) :
    Same k m c (n.skipModifier w others) (n'.skipModifier w others) := by
  unfold skipModifier
  refine .get fun hc => ?_
  rw [hn.wordAt hc]
  refine .ite (fun _ => .bind (same_anyName hn) fun _ _ => ?_) fun _ => .pure
  refine .bind (same_toPlain hn) fun _ d => .get fun hd => ?_
  rw [hn.beginsMemberName hd]
  exact .ite (fun _ => .pure) fun _ => .set hc .pure

/-- The end of a property, which is a method if `isMethod` says so. -/
theorem same_propertyEnd (hn : Twins k m n n') (isMethod : Bool) :
    Same k m c
      (if isMethod = true then n.methodProperty else n.memberName >>= fun name => n.propertyRest name)
      (if isMethod = true then n'.methodProperty else n'.memberName >>= fun name => n'.propertyRest name) :=
  .ite (fun _ => same_methodProperty hn) fun _ => .bind (same_memberName hn) fun _ _ => same_propertyRest hn _

/-- A property of an object. Whether decorators stood in front of it is told by an offset. -/
theorem same_property (hn : Twins k m n n') : Same k m c n.property n'.property := by
  unfold property
  refine .get fun hc => ?_
  rw [Cursor.dropWord?_moved]
  cases hdots : c.dropWord? "...".toList with
  | some d => exact .ahead (Cursor.le_of_dropWord? hdots) hc (.bind (hn.expression _ _ _) fun _ _ => .pure)
  | none =>
      refine .ite (fun _ => ?_) fun _ => ?_
      · refine .bind (hn.operand _ _) fun _ _ => .bind (same_toPlain hn) fun _ _ => ?_
        exact .bind (.exactly _) fun _ _ => .bind (same_valueOf hn _ _) fun _ _ => .pure
      · refine .bind (same_decorators hn) fun _ d => .get fun hd => ?_
        -- Decorators are told by the distance from the beginning, which does not move.
        have hdecorated : ((d.moved k).offset != (c.moved k).offset) = (d.offset != c.offset) := by
          simp [bne]
        rw [hdecorated]
        extract_lets decorated behindStatic behindStatic'
        refine .get fun he => ?_
        -- Behind `static` comes `async`, a star, and at last an accessor.
        have hstatic : ∀ static e, Same k m e (behindStatic static) (behindStatic' static) := by
          intro static e
          refine .bind (same_skipModifier hn _ _) fun async e => .get fun he => ?_
          rw [Cursor.nextIs_moved]
          extract_lets star behindGetter behindStar behindGetter' behindStar'
          have hgetter : ∀ getter g, Same k m g (behindGetter getter) (behindGetter' getter) := by
            intro getter g
            dsimp only [behindGetter, behindGetter']
            refine .ite (fun _ => .bind .pure fun _ _ => same_propertyEnd hn _) fun _ => ?_
            exact .bind (same_skipModifier hn _ _) fun _ _ => same_propertyEnd hn _
          have hstar : ∀ u g, Same k m g (behindStar u) (behindStar' u) := by
            intro u g
            dsimp only [behindStar, behindStar']
            refine .ite (fun _ => .bind .pure fun getter g => hgetter getter g) fun _ => ?_
            exact .bind (same_skipModifier hn _ _) fun getter g => hgetter getter g
          refine .ite (fun _ => .step he (.bind (same_toPlain hn) fun u g => hstar u g)) fun _ => hstar () _
        rw [staticGet?_moved]
        cases hget : staticGet? d with
        | some e =>
            refine .ahead (le_of_staticGet? hget) hd (.bind (same_toPlain hn) fun _ _ => ?_)
            exact .bind .pure fun static e => hstatic static e
        | none => exact .bind (same_skipModifier hn _ _) fun static e => hstatic static e

/-- Whether what stands behind a brace can be the beginning of a property. -/
theorem Twins.mayOpenObject (hn : Twins k m n n') (hc : c.rest.length < m) :
    n'.mayOpenObject (c.moved k) = n.mayOpenObject c := by
  unfold Nested.mayOpenObject
  rw [hn.nameAt? hc]
  cases hname : n.nameAt? c with
  | none => rfl
  | some p =>
      have hd := Nat.lt_trans (Cursor.length_lt (lt_of_nameAt? hname)) hc
      dsimp only [Option.map_some]
      rw [hn.find _ hd]
      cases Gap.find (.value true) n.depth p.2 <;> rfl

/-- The properties behind the opening brace, separated by commas. -/
theorem same_properties (hn : Twins k m n n') {j j' : Nat} (hj : m ≤ j) (hj' : m ≤ j') :
    Same k m c (n.properties j) (n'.properties j') := by
  refine .loop (fun q hq i i' ih c => ?_) hj hj' c
  replace hn := hn.mono hq
  unfold properties
  refine .bind (same_toPlain hn) fun _ d => .get fun hd => .ite (fun _ => .step hd .pure) fun _ => ?_
  refine .ite (fun hcomma => .step_lower hd hcomma (ih _)) fun _ => .bind (same_property hn) fun _ _ => ?_
  refine .bind (same_toToken hn _) fun _ e => .get fun he => .ite (fun hcomma => ?_) fun _ => ?_
  · exact .step_lower he hcomma (.bind (ih _) fun _ _ => .pure)
  · exact .require fun _ => .step he .pure

/-- An object agrees in front of one character more than its properties. -/
theorem same_object (hn : Twins k m n n') : Same k (m + 1) c n.object n'.object := by
  unfold object
  refine .bind_strict (.exactly _) (fun _ _ h => (strict_exactly (by decide)).lt h) fun _ _ => ?_
  exact .bind (same_properties hn hn.depth hn.depth') fun _ _ => .require fun _ => .pure

/-- An object whose brace could also open a block. That there is a brace is the hypothesis `hnext`, since
the reader looks behind it before it consumes it. -/
theorem same_leadingObject (hn : Twins k m n n') {p : Char → Bool} (hnext : c.nextIs p = true) :
    Same k (m + 1) c n.leadingObject n'.leadingObject := by
  unfold leadingObject
  refine .get fun hc => ?_
  have hshort := Cursor.length_step_lt hnext
  have hfind := Cursor.length_le (Gap.le_find .plain n.depth c.step)
  rw [Cursor.step_moved, hn.find _ (by omega)]
  generalize Gap.find .plain n.depth c.step = gap at hfind
  obtain d | ⟨d, conditional⟩ := gap
  · exact .refuse
  · replace hfind : d.rest.length ≤ c.step.rest.length := hfind
    dsimp only [Gap.moved]
    rw [hn.mayOpenObject (by omega)]
    exact .require fun _ => same_object hn

/-- An array agrees in front of one character more than its entries. -/
theorem same_array (hn : Twins k m n n') : Same k (m + 1) c n.array n'.array := by
  unfold array
  refine .bind_strict (.exactly _) (fun _ _ h => (strict_exactly (by decide)).lt h) fun _ _ => ?_
  exact .bind (same_entries hn _) fun _ _ => .require fun _ => .pure

end WasmEmbed.Script.Nested
