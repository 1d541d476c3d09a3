import WasmEmbed.Proofs.Script.Moved.Nested

/-!
# Functions and classes further back in a file

The rules for functions, for the names of members and for classes agree for twins.

A modifier in front of a member is read before it is known to be one. What is looked at to decide it is
the same on both sides, and the cursor that is kept to go back to is moved like any other.
-/

namespace WasmEmbed.Script.Nested

open Reader

variable {k m : Nat} {n n' : Nested} {c : Cursor}

/-! ## Functions

A heading is the part of a function up to its body. The same reader serves where a function is a
statement, and there its name counts.
-/

theorem same_skipStar (hn : Twins k m n n') : Same k m c n.skipStar n'.skipStar := by
  unfold skipStar
  refine .bind (same_toPlain hn) fun _ d => .get fun hd => .ite (fun _ => ?_) fun _ => .pure
  exact .step hd .pure

/-- The name of a function may be missing. -/
theorem same_freeName? (hn : Twins k m n n') : Same k m c n.freeName? n'.freeName? := by
  unfold freeName?
  refine .bind (same_toPlain hn) fun _ d => .get fun hd => ?_
  rw [hn.nameAt? hd]
  cases hname : n.nameAt? d with
  | none => exact .pure
  | some p => exact .require fun _ => .ahead (lt_of_nameAt? hname).le hd .pure

/-- The heading tells the same name and the same star. -/
theorem same_heading (hn : Twins k m n n') : Same k m c n.heading n'.heading := by
  unfold heading
  refine .bind (same_skipStar hn) fun _ _ => .bind (same_freeName? hn) fun _ _ => ?_
  refine .bind (same_toPlain hn) fun _ _ => .bind (same_parameters hn) fun _ _ => ?_
  exact .bind (same_toPlain hn) fun _ _ => .pure

theorem same_functionRest (hn : Twins k m n n') : Same k m c n.functionRest n'.functionRest := by
  unfold functionRest
  exact .bind (same_heading hn) fun _ _ => .bind (agrees_block hn) fun _ _ => .pure

/-! ## Names of members

A member is named by a word, by a word behind `#`, by a string or a number, or by an expression in
brackets. Which of these it is shows at its first character.
-/

theorem Deep.privateName (hn : Deep m n n') : Same k m c n.privateName n'.privateName := by
  unfold Nested.privateName
  exact .bind (.exactly _) fun _ _ => .bind hn.anyName fun _ _ => .pure

/-- A string or a number is the same token. -/
theorem Twins.stringOrNumber (hn : Twins k m n n') (hc : c.rest.length < m) :
    (Token.string? n'.depth (c.moved k) <|> Token.number? (c.moved k)) =
      (Token.string? n.depth c <|> Token.number? c).map (Cursor.moved k) := by
  rw [hn.string? hc, Token.number?_moved]
  cases Token.string? n.depth c <;> rfl

theorem same_memberName (hn : Twins k m n n') : Same k m c n.memberName n'.memberName := by
  unfold memberName
  refine .get fun hc => ?_
  rw [hn.nameAt? hc]
  cases hname : n.nameAt? c with
  | some p => exact .ahead (lt_of_nameAt? hname).le hc .pure
  | none =>
      refine .ite (fun _ => .bind (hn.privateName) fun _ _ => .pure) fun _ => .ite (fun _ => ?_) fun _ => ?_
      · exact .step hc (.bind (same_entries hn _) fun _ _ => .pure)
      · refine .bind (.move hn.stringOrNumber fun d h => ?_) fun _ _ => .pure
        rcases (Option.orElse_eq_some _ _ _).mp h with hstring | ⟨-, hnumber⟩
        · exact (Token.lt_of_string? hstring).le
        · exact (Token.lt_of_number? hnumber).le

theorem Twins.beginsMemberName (hn : Twins k m n n') (hc : c.rest.length < m) :
    n'.beginsMemberName (c.moved k) = n.beginsMemberName c := by
  simp only [Nested.beginsMemberName, hn.nameAt? hc, Token.number?_moved, Option.isSome_map,
    Cursor.nextIs_moved]

/-- The last line end in a run of white space. What was found so far is moved too. -/
theorem lastLineEnd?_moved (found : Option Cursor) (o : Nat) (text : List Char) :
    staticGet?.lastLineEnd? (found.map (Cursor.moved k)) (k + o) text =
      (staticGet?.lastLineEnd? found o text).map (Cursor.moved k) := by
  induction text generalizing found o with
  | nil => rfl
  | cons x rest ih =>
      have hfound : staticGet?.lastLineEnd? (some ⟨k + (o + 1), rest⟩) (k + (o + 1)) rest = _ :=
        ih (some ⟨o + 1, rest⟩) (o + 1)
      simp only [staticGet?.lastLineEnd?, Nat.add_assoc k, ih, hfound,
        apply_ite (Option.map (Cursor.moved k))]

/-- The words `static get` with a line end behind them, where the end is found. -/
@[simp] theorem staticGet?_moved : staticGet? (c.moved k) = (staticGet? c).map (Cursor.moved k) := by
  simp only [staticGet?, Cursor.dropWord?_moved]
  cases c.dropWord? "static".toList with
  | none => rfl
  | some d =>
      simp only [Option.map_some, Option.bind_eq_bind, Option.bind_some, Cursor.nextIs_moved,
        Cursor.skipWhile_moved, Cursor.dropWord?_moved, apply_ite (Option.map (Cursor.moved k))]
      cases (d.skipWhile isSpace).dropWord? "get".toList with
      | none => rfl
      | some e =>
          have hend := lastLineEnd?_moved (k := k) none e.offset e.rest
          simp only [Option.map_some, Option.bind_some, Cursor.rest_moved, Cursor.offset_moved]
          rw [show staticGet?.lastLineEnd? none (k + e.offset) e.rest = _ from hend]
          rfl

/-! ## Decorators

Decorators may be missing, so a statement can be asked for them in front of its first character. Therefore
they have to agree in front of one character more, for which one round of the loop is a lemma of its own.
-/

/-- The names behind the first one of a decorator. A point that begins a number is none. -/
theorem same_decoratorsPath (hn : Twins k m n n') {j j' : Nat} (hj : m ≤ j) (hj' : m ≤ j') :
    Same k m c (decorators.path n j) (decorators.path n' j') := by
  refine .loop (fun q hq i i' ih c => ?_) hj hj' c
  replace hn := hn.mono hq
  unfold decorators.path
  refine hn.look (fun _ _ => .pure) (fun d hd => ?_) fun _ _ _ => .pure
  dsimp only
  rw [Token.number?_moved, Option.isNone_map]
  refine .ite (fun hpoint => ?_) fun _ => .ite (fun _ => .step hd (same_arguments hn)) fun _ => .pure
  refine .step_lower hd (Bool.and_eq_true_iff.mp hpoint).1 ?_
  exact .bind (same_toPlain hn.pred) fun _ _ => .bind (same_freeName hn.pred) fun _ d => ih d

/-- One more decorator agrees where one more character is left, if the gap in front of it does. -/
theorem same_decoratorsGo (hn : Twins k m n n') (hplain : ∀ d, Same k (m + 1) d n.toPlain n'.toPlain)
    {i i' : Nat}
    (ih : ∀ d, Same k m d (decorators.go n i) (decorators.go n' i')) :
    Same k (m + 1) c (decorators.go n (i + 1)) (decorators.go n' (i' + 1)) := by
  unfold decorators.go
  refine .bind (hplain c) fun _ d => .get fun hd => .ite (fun hsign => .step_lower hd hsign ?_) fun _ => .pure
  refine .bind (same_toPlain hn) fun _ _ => .bind (same_freeName hn) fun _ _ => ?_
  exact .bind (same_decoratorsPath hn hn.depth hn.depth') fun _ d => ih d

/-- Decorators with any two sufficient bounds. -/
theorem same_decoratorsUpTo (hn : Twins k m n n') {j j' : Nat} (hj : m ≤ j) (hj' : m ≤ j') :
    Same k m c (decorators.go n j) (decorators.go n' j') := by
  refine .loop (fun q hq i i' ih c => ?_) hj hj' c
  exact same_decoratorsGo (hn.mono (Nat.le_of_lt hq)) (fun _ => same_toPlain (hn.mono hq)) ih

theorem same_decorators (hn : Twins k m n n') : Same k m c n.decorators n'.decorators :=
  same_decoratorsUpTo hn hn.depth hn.depth'

/-- Decorators begin with a sign, so that they agree in front of one character more. -/
theorem Starts.decorators (hn : Starts k m n n') : Same k (m + 1) c n.decorators n'.decorators := by
  unfold Nested.decorators
  have hdepth := hn.deep.depth
  have hdepth' := hn.deep.depth'
  obtain ⟨j, hj⟩ := Nat.exists_eq_add_of_le' hdepth
  obtain ⟨j', hj'⟩ := Nat.exists_eq_add_of_le' hdepth'
  rw [hj, hj']
  refine same_decoratorsGo hn.toTwins (fun _ => hn.deep.toToken _) fun d => ?_
  exact same_decoratorsUpTo hn.toTwins (Nat.le_add_left m j) (Nat.le_add_left m j')

theorem same_methodRest (hn : Twins k m n n') : Same k m c n.methodRest n'.methodRest := by
  unfold methodRest
  refine .bind (same_parameters hn) fun _ _ => .bind (same_toPlain hn) fun _ _ => ?_
  exact .bind (agrees_block hn) fun _ _ => .pure

/-! ## Classes

The modifiers of a member come in a fixed order, and there is one reader for each of them. `Twins.ahead`
is the rule for the look that decides whether a word is one.
-/

/-- What a modifier leads to, with `k` more bytes in front of it. -/
def Ahead.moved (k : Nat) : Ahead → Ahead
  | field c => field (c.moved k)
  | a => a

/-- What a word is, by what follows it. A field that ends behind its name ends at a moved place. -/
theorem agrees_ahead (hn : Twins k m n n') (isStatic starred : Bool) :
    Agrees k m (Ahead.moved k) c (n.ahead isStatic starred) (n'.ahead isStatic starred) := by
  unfold ahead
  refine hn.look_any (fun d hd => .ite (fun _ => ?_) fun _ => .pure) fun d _ hd => ?_
  · rw [hn.find _ hd]
    obtain e | ⟨e, conditional⟩ := Gap.find .plain n.depth d
    · exact .pure
    · exact .ite (fun _ => .pure) fun _ => .pure
  · dsimp only
    rw [hn.beginsMemberName hd]
    exact .ite (fun _ => .pure) fun _ => .ite (fun _ => .pure) fun _ => .pure

/-- The rule for what a word that may be a modifier is. -/
theorem Twins.ahead (hn : Twins k m n n') {α : Type} {f : α → α} {isStatic starred : Bool}
    {h h' : Ahead → Reader α}
    (hmodifier : Agrees k m f c (h .modifier) (h' .modifier)) (hname : Agrees k m f c (h .name) (h' .name))
    (hfield : ∀ d, d.rest.length < m → Agrees k m f c (h (.field d)) (h' (.field (d.moved k))))
    (hblock : Agrees k m f c (h .block) (h' .block)) :
    Agrees k m f c (n.ahead isStatic starred >>= h) (n'.ahead isStatic starred >>= h') := by
  refine .bind_read (agrees_ahead hn isStatic starred) fun a d hread => .given fun hd => ?_
  obtain ⟨rfl, hplace⟩ := after_ahead isStatic starred c (le_refl c) a d hread
  cases a with
  | modifier => exact hmodifier
  | name => exact hname
  | field e => exact hfield e (Nat.lt_of_le_of_lt (Cursor.length_le (hplace e rfl)) hd)
  | block => exact hblock

/-- A member from its name on: a method, a field with a value, or a field without one. -/
theorem same_memberRest (hn : Twins k m n n') (fieldAllowed : Bool) :
    Same k m c (n.memberRest fieldAllowed) (n'.memberRest fieldAllowed) := by
  unfold memberRest
  refine .bind (same_memberName hn) fun _ _ => .require fun _ => ?_
  refine hn.look_any (fun _ hd => .set_last hd) fun d _ hd => .set hd ?_
  refine .ite (fun _ => .bind (same_methodRest hn) fun _ _ => ?_) fun _ => .require fun _ => ?_
  · exact hn.look_any (fun _ he => .set_last he) fun _ _ he => .set_last he
  · refine .ite (fun _ => .step_last hd) fun _ => .bind (.exactly _) fun _ _ => ?_
    exact .bind (same_valueOf hn _ _) fun _ _ => same_terminator hn _

theorem same_behindAsync (hn : Twins k m n n') (fieldAllowed : Bool) :
    Same k m c (member.behindAsync n fieldAllowed) (member.behindAsync n' fieldAllowed) := by
  unfold member.behindAsync
  refine .get fun hc => ?_
  dsimp only
  rw [hn.wordAt hc]
  refine .ite (fun _ => .step hc (.bind (same_toPlain hn) fun _ _ => same_memberRest hn _)) fun _ => ?_
  refine .ite (fun _ => .bind (same_anyName hn) fun _ d => hn.ahead ?_ ?_ (fun e he => ?_) ?_) fun _ =>
    same_memberRest hn _
  · exact .bind (same_toToken hn _) fun _ _ => same_memberRest hn _
  · exact .set hc (same_memberRest hn _)
  · exact .require fun _ => .set_last he
  · exact .set hc (same_memberRest hn _)

theorem same_behindStatic (hn : Twins k m n n') :
    Same k m c (member.behindStatic n) (member.behindStatic n') := by
  unfold member.behindStatic
  refine .get fun hc => ?_
  rw [hn.wordAt hc]
  refine .ite (fun _ => .bind (same_anyName hn) fun _ d => hn.ahead ?_ ?_ (fun e he => .set_last he) ?_)
    fun _ => same_behindAsync hn _
  · exact .bind (same_toToken hn _) fun _ _ => same_behindAsync hn _
  · exact .set hc (same_memberRest hn _)
  · exact .set hc (same_memberRest hn _)

/-- A member behind its decorators, with `static` or without it. -/
theorem same_member (hn : Twins k m n n') : Same k m c n.member n'.member := by
  unfold member
  refine .get fun hc => ?_
  rw [staticGet?_moved, hn.wordAt hc]
  cases hstatic : staticGet? c with
  | some d =>
      refine .ahead (le_of_staticGet? hstatic) hc ?_
      exact .bind (same_toPlain hn) fun _ _ => same_behindStatic hn
  | none =>
      refine .ite (fun _ => .bind (same_anyName hn) fun _ d => hn.ahead ?_ ?_ (fun e he => .set_last he) ?_)
        fun _ => same_behindStatic hn
      · exact .bind (same_toToken hn _) fun _ _ => same_behindStatic hn
      · exact .set hc (same_memberRest hn _)
      · refine .bind (same_skipSemicolon hn _) fun _ _ => .bind (same_toPlain hn) fun _ _ => ?_
        refine .bind (agrees_block hn) fun _ _ => ?_
        exact hn.look_any (fun _ he => .set_last he) fun _ _ he => .set_last he

/-- The members up to the closing brace. Each of them takes at least one character. -/
theorem same_classBody (hn : Twins k m n n') : Same k m c n.classBody n'.classBody := by
  have hgo : ∀ d, Same k m d (classBody.go n n.depth) (classBody.go n' n'.depth) := by
    refine .loop (fun q hq i i' ih c => ?_) hn.depth hn.depth'
    have hnq := hn.mono hq
    unfold classBody.go
    refine .bind (same_toPlain hnq) fun _ d => .get fun hd => .ite (fun _ => .step_last hd) fun _ => ?_
    refine .ite (fun hnext => .step_lower hd hnext (ih _)) fun _ => .bind (same_decorators hnq) fun _ e => ?_
    exact .bind_strict (same_member hnq) (fun _ _ h => (strict_member hn.sound.toForward).lt h) fun _ e =>
      ih e
  unfold classBody
  exact .bind (.exactly _) fun _ d => hgo d

theorem same_classRest (hn : Twins k m n n') : Same k m c n.classRest n'.classRest := by
  unfold classRest
  refine .bind (same_toPlain hn) fun _ d => .get fun hd => ?_
  extract_lets body body'
  -- Whether or not there was a name, the parent class and the members follow.
  have hbody : ∀ named e, Same k m e (body named) (body' named) := by
    intro named e
    refine .bind (same_toPlain hn) fun _ e => .get fun he => ?_
    extract_lets rest rest'
    have hrest : ∀ u g, Same k m g (rest u) (rest' u) := fun _ _ => .bind (same_classBody hn) fun _ _ => .pure
    rw [hn.wordAt he]
    refine .ite (fun _ => ?_) fun _ => hrest () _
    refine .bind (same_anyName hn) fun _ _ => .bind (same_valueOf hn _ _) fun _ _ => ?_
    exact .bind (same_toToken hn _) fun u g => hrest u g
  rw [hn.nameAt? hd]
  cases hname : n.nameAt? d with
  | none => exact .bind .pure fun named e => hbody named e
  | some p =>
      refine .ite (fun _ => .bind .pure fun named e => hbody named e) fun _ => ?_
      exact .require fun _ => .ahead (lt_of_nameAt? hname).le hd (.bind .pure fun named e => hbody named e)

end WasmEmbed.Script.Nested
