import WasmEmbed.Proofs.Script.Forward.Nested
import WasmEmbed.Script.Function

/-!
# Rules that go forward: functions and classes

A modifier in front of a member is read before it is known to be one, and the cursor is set back if it is
not. It is set back to where the member began, so the member as a whole goes forward all the same.
-/

namespace WasmEmbed.Script.Nested

open Reader

variable {n : Nested}

/-! ## Functions

What follows the word `function` is the same in a declaration and in an expression. Only the block of the
body nests, and the reader of blocks goes forward if the readers inside it do.
-/

theorem forward_skipStar : n.skipStar.Forward := by
  intro c
  unfold skipStar
  refine .bind forward_toPlain fun _ d => .get ?_
  split
  · exact .step (.pure id)
  · exact .pure id

theorem forward_freeName? : n.freeName?.Forward := by
  intro c
  unfold freeName?
  refine .bind forward_toPlain fun _ d => .get ?_
  split
  · exact .pure id
  · next hname => exact .require fun _ => .ahead (lt_of_nameAt? hname).le (.pure id)

/-- The heading of a function, from its star to its body. -/
theorem forward_heading (hn : n.Forward) : n.heading.Forward := by
  intro c
  unfold heading
  refine .bind forward_skipStar fun _ _ => .bind forward_freeName? fun _ _ => ?_
  refine .bind forward_toPlain fun _ _ => .bind (forward_parameters hn) fun _ _ => ?_
  exact .bind forward_toPlain fun _ _ => .pure id

theorem forward_functionRest (hn : n.Forward) : n.functionRest.Forward := by
  intro c
  unfold functionRest
  exact .bind (forward_heading hn) fun _ _ => .bind (forward_block hn) fun _ _ => .pure id

/-! ## Names of members

A member takes at least one character, because its name does. A name in brackets is an expression, of
which only the opening bracket is known to be there.
-/

theorem strict_privateName : n.privateName.Strict := by
  intro c
  unfold privateName
  refine .bind_strict (strict_exactly (by decide)) fun _ _ => ?_
  exact .bind forward_anyName fun _ _ => .pure id

theorem forward_privateName : n.privateName.Forward := strict_privateName.forward

/-- The name of a member takes at least one character, whichever kind of name it is. -/
theorem strict_memberName (hn : n.Forward) : n.memberName.Strict := by
  intro c
  unfold memberName
  refine .get ?_
  split
  · next hname => exact .ahead_strict (lt_of_nameAt? hname) (forward_pure _)
  · split
    · exact .bind_strict strict_privateName fun _ => forward_pure _
    · split
      · next hopen =>
          refine .ahead_strict (Cursor.lt_step_of_nextIs hopen) fun _ => ?_
          exact .bind (forward_entries hn _) fun _ _ => .pure id
      · refine .bind_strict (strict_move ?_) fun _ => forward_pure _
        intro c d h
        rcases (Option.orElse_eq_some _ _ _).mp h with hstring | ⟨-, hnumber⟩
        · exact Token.lt_of_string? hstring
        · exact Token.lt_of_number? hnumber

theorem forward_memberName (hn : n.Forward) : n.memberName.Forward := (strict_memberName hn).forward

/-- The last line end is the one found so far or lies further on. -/
theorem le_of_lastLineEnd? {found : Option Cursor} {o : Nat} {text : List Char} {d : Cursor}
    (h : staticGet?.lastLineEnd? found o text = some d) :
    found = some d ∨ (⟨o, text⟩ : Cursor) ≤ d := by
  induction text generalizing found o with
  | nil => exact Or.inl h
  | cons x xs ih =>
      simp only [staticGet?.lastLineEnd?] at h
      split at h
      · next hx =>
          subst hx
          rcases ih h with hfound | hle
          · cases hfound
            exact Or.inr Cursor.le_of_cons
          · exact Or.inr (Cursor.le_of_cons.trans hle)
      · split at h
        · exact (ih h).imp_right Cursor.le_of_cons.trans
        · exact Or.inl h

/-- The two words that are read as one take at least the characters of the first. -/
theorem lt_of_staticGet? {c d : Cursor} (h : staticGet? c = some d) : c < d := by
  simp only [staticGet?] at h
  obtain ⟨e, he, h⟩ := Option.bind_eq_some_iff.mp h
  split at h
  · obtain ⟨f, hf, h⟩ := Option.bind_eq_some_iff.mp h
    rcases le_of_lastLineEnd? h with hnone | hle
    · cases hnone
    · exact ((Cursor.lt_of_dropWord? he (by decide)).trans_le (Cursor.le_skipWhile _ e)).trans_le
        ((Cursor.le_of_dropWord? hf).trans hle)
  · cases h

theorem le_of_staticGet? {c d : Cursor} (h : staticGet? c = some d) : c ≤ d := (lt_of_staticGet? h).le

/-- The rest of a decorator, by induction on the bound on its names. -/
theorem forward_decoratorsPath (hn : n.Forward) (k : Nat) : (decorators.path n k).Forward := by
  induction k with
  | zero => exact forward_pure ()
  | succ k ih =>
      intro c
      unfold decorators.path
      refine after_look fun gap hgap => ?_
      split
      · split
        · refine .ahead (hgap.trans (Cursor.le_step _)) ?_
          exact .bind forward_toPlain fun _ _ => .bind forward_freeName fun _ _ => .last ih
        · split
          · exact .ahead (hgap.trans (Cursor.le_step _)) (.last (forward_arguments hn))
          · exact .pure id
      · exact .pure id

/-- Decorators, by induction on the bound on their number. There may be none. -/
theorem forward_decorators (hn : n.Forward) : n.decorators.Forward := by
  have hgo : ∀ k, (decorators.go n k).Forward := by
    intro k
    induction k with
    | zero => exact forward_pure ()
    | succ k ih =>
        intro c
        unfold decorators.go
        refine .bind forward_toPlain fun _ _ => .get ?_
        split
        · refine .step (.bind forward_toPlain fun _ _ => .bind forward_freeName fun _ _ => ?_)
          exact .bind (forward_decoratorsPath hn _) fun _ _ => .last ih
        · exact .pure id
  exact hgo n.depth

/-- Parameters and body of a method. -/
theorem forward_methodRest (hn : n.Forward) : n.methodRest.Forward := by
  intro c
  unfold methodRest
  refine .bind (forward_parameters hn) fun _ _ => .bind forward_toPlain fun _ _ => ?_
  exact .bind (forward_block hn) fun _ _ => .pure id

/-! ## Classes

`n.ahead` looks at what follows a word without moving, and `after_ahead` says so. The readers of a member
act on its answer: they go on behind a modifier and go back to its beginning where it is a name.
-/

/-- A look at what follows a word leaves the cursor behind the word, and a field ends there or further
on. -/
theorem after_ahead (isStatic starred : Bool) (c : Cursor) :
    After c (fun a d => d = c ∧ ∀ e, a = .field e → c ≤ e) c (n.ahead isStatic starred) := by
  unfold ahead
  refine after_look fun gap hgap => ?_
  split
  · next e =>
      have hfield : ∀ f, Ahead.field e = .field f → c ≤ f := by
        rintro f ⟨⟩
        exact hgap
      split
      · split
        · split
          · exact .pure fun _ => ⟨rfl, by simp⟩
          · exact .pure fun _ => ⟨rfl, hfield⟩
        · exact .pure fun _ => ⟨rfl, hfield⟩
      · exact .pure fun _ => ⟨rfl, hfield⟩
  · split
    · exact .pure fun _ => ⟨rfl, by simp⟩
    · split
      · exact .pure fun _ => ⟨rfl, by simp⟩
      · exact .pure fun _ => ⟨rfl, by simp⟩

/-- A member from its name on. -/
theorem strict_memberRest (hn : n.Forward) (fieldAllowed : Bool) : (n.memberRest fieldAllowed).Strict := by
  intro c
  unfold memberRest
  refine .bind_strict (strict_memberName hn) fun _ d => .require fun _ => after_look fun gap hgap => ?_
  split
  · exact .ahead_last hgap
  · refine .ahead hgap ?_
    split
    · -- A method may be followed by an unwritten semicolon, which changes nothing.
      refine .bind (forward_methodRest hn) fun _ e => after_look fun gap' hgap' => ?_
      split
      · exact .ahead_last hgap'
      · exact .ahead_last hgap'
    · refine .require fun _ => ?_
      split
      · exact .step_last
      · refine .bind (forward_exactly _) fun _ _ => ?_
        exact .bind (forward_valueOf hn _ _) fun _ _ => .last (forward_terminator _)

/-- A word in front of a member takes at least one character. -/
theorem after_anyName (c : Cursor) : After c (fun _ d => c ≤ d ∧ c < d) c n.anyName :=
  fun _ _ _ h => ⟨(strict_anyName.lt h).le, strict_anyName.lt h⟩

/-- A member where `static` and `async` may not come any more. -/
theorem strict_behindAsync (hn : n.Forward) (fieldAllowed : Bool) :
    (member.behindAsync n fieldAllowed).Strict := by
  intro c
  unfold member.behindAsync
  refine .get ?_
  dsimp only
  split
  · exact .step (.bind forward_toPlain fun _ _ => .last_strict (strict_memberRest hn _))
  · split
    · refine .seq (after_anyName c) fun _ d hd => .still (after_ahead _ _ d) fun a ha => ?_
      split
      · exact .bind (forward_toToken _) fun _ _ => .last_strict (strict_memberRest hn _)
      · exact .require fun _ => .set_strict (hd.trans_le (ha _ rfl))
      · -- The word is a name: the member is read again from the word on.
        exact .set (le_refl c) (.last_strict (strict_memberRest hn _))
    · exact .last_strict (strict_memberRest hn _)

/-- A member where `static` may not come any more. -/
theorem strict_behindStatic (hn : n.Forward) : (member.behindStatic n).Strict := by
  intro c
  unfold member.behindStatic
  refine .get ?_
  split
  · refine .seq (after_anyName c) fun _ d hd => .still (after_ahead _ _ d) fun a ha => ?_
    split
    · exact .bind (forward_toToken _) fun _ _ => .last_strict (strict_behindAsync hn _)
    · exact .set_strict (hd.trans_le (ha _ rfl))
    · exact .set (le_refl c) (.last_strict (strict_memberRest hn _))
  · exact .last_strict (strict_behindAsync hn _)

/-- A member takes at least one character, with modifiers or without them. -/
theorem strict_member (hn : n.Forward) : n.member.Strict := by
  intro c
  unfold member
  refine .get ?_
  split
  · next d hd =>
      refine .ahead (le_of_staticGet? hd) ?_
      exact .bind forward_toPlain fun _ _ => .last_strict (strict_behindStatic hn)
  · split
    · refine .seq (after_anyName c) fun _ d hd => .still (after_ahead _ _ d) fun a ha => ?_
      split
      · exact .bind (forward_toToken _) fun _ _ => .last_strict (strict_behindStatic hn)
      · exact .set (le_refl c) (.last_strict (strict_memberRest hn _))
      · exact .set_strict (hd.trans_le (ha _ rfl))
      · -- The word opens a static block.
        refine .behind hd (.bind (forward_skipSemicolon _) fun _ _ => .bind forward_toPlain fun _ _ => ?_)
        refine .bind (forward_block hn) fun _ _ => after_look fun gap hgap => ?_
        split
        · exact .ahead_last hgap
        · exact .ahead_last hgap
    · exact .last_strict (strict_behindStatic hn)

theorem forward_member (hn : n.Forward) : n.member.Forward := (strict_member hn).forward

/-- The members up to the closing brace, by induction on the bound on their number. -/
theorem forward_classBody (hn : n.Forward) : n.classBody.Forward := by
  have hgo : ∀ k, (classBody.go n k).Forward := by
    intro k
    induction k with
    | zero => exact fun _ => .refuse
    | succ k ih =>
        intro c
        unfold classBody.go
        refine .bind forward_toPlain fun _ _ => .get ?_
        split
        · exact .step_last
        · split
          · exact .step (.last ih)
          · refine .bind (forward_decorators hn) fun _ _ => ?_
            exact .bind (forward_member hn) fun _ _ => .last ih
  intro c
  unfold classBody
  exact .bind (forward_exactly _) fun _ _ => .last (hgo _)

/-- The rest of a class: its name, its parent class and its members. The first two may be missing. -/
theorem forward_classRest (hn : n.Forward) : n.classRest.Forward := by
  intro c
  unfold classRest
  refine .bind forward_toPlain fun _ _ => .get ?_
  extract_lets body
  have hbody : ∀ named, (body named).Forward := by
    intro named d
    refine .bind forward_toPlain fun _ _ => .get ?_
    extract_lets rest
    have hrest : ∀ u, (rest u).Forward := fun _ _ =>
      .bind (forward_classBody hn) fun _ _ => .pure id
    split
    · refine .bind forward_anyName fun _ _ => .bind (forward_valueOf hn _ _) fun _ _ => ?_
      exact .bind (forward_toToken _) fun u _ => .last (hrest u)
    · exact .last (hrest ())
  split
  · exact .last (hbody _)
  · next hname =>
      split
      · exact .last (hbody _)
      · exact .require fun _ => .ahead (lt_of_nameAt? hname).le (.last (hbody _))

end WasmEmbed.Script.Nested
