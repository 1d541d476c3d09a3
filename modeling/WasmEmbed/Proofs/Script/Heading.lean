import WasmEmbed.Proofs.Script.Forward.Function
import WasmEmbed.Proofs.Script.Name

/-!
# Headings of functions

What a function is called, and whether it is asynchronous or a generator, is said in front of its
parameters. `FunctionDeclaration.Heads` says that a text begins with the heading of a function. A text begins
with one heading only (`Heads.unique`), and a heading stays when what comes behind it changes
(`Heads.change`). What is read as the heading of a function is one (`Nested.after_heading`).

That a text begins with one heading only is shown from the end of its parts: the gaps between them end at
the first character that is neither blank nor in a comment, and the names end where no further character
of a name comes.
-/

namespace WasmEmbed.Script

open Reader

/-! ## Headings -/

/-- The word `function`, with the word `async` in front of it if it is there, stands in front of a text. -/
inductive Introduces : Bool → List Char → List Char → Prop
  | plain {t u : List Char} : t = "function".toList ++ u → Introduces false t u
  | async {t v u : List Char} :
      t = "async".toList ++ v → Over v ("function".toList ++ u) → Introduces true t u

/-- A star, if it is there, stands in front of a text. -/
inductive Starred : Bool → List Char → List Char → Prop
  | without {t : List Char} : Starred false t t
  | star {t u : List Char} : Over t ('*' :: u) → Starred true t u

/-- A name and a parenthesis stand in front of a text, with something behind them. -/
inductive Opens (name : List Char) : List Char → List Char → Prop
  | intro {t t₁ t₂ u v : List Char} :
      Over t t₁ → Names name t₁ t₂ → Over t₂ ('(' :: (u ++ v)) → Opens name t v

/-- The heading of a function stands in front of a text. -/
inductive FunctionDeclaration.Heads (f : FunctionDeclaration) : List Char → List Char → Prop
  | intro {t t₁ t₂ u : List Char} :
      Introduces f.isAsync t t₁ → Starred f.isGenerator t₁ t₂ → Opens f.name t₂ u → Heads f t u

/-! ### One heading only -/

section Unique

variable {name name' t u u' v v' : List Char} {b b' : Bool}

/-- Whether `async` stands in front of `function` shows at the first letter. -/
theorem Introduces.unique (h : Introduces b t u) (h' : Introduces b' t u') : b = b' ∧ u = u' := by
  have hfunction : "function".toList = 'f' :: "unction".toList := by decide
  have hasync : "async".toList = 'a' :: "sync".toList := by decide
  cases h with
  | plain ht =>
      cases h' with
      | plain ht' => exact ⟨rfl, List.append_cancel_left (ht.symm.trans ht')⟩
      | async ht' =>
          rw [ht, hfunction, hasync] at ht'
          cases (List.cons.inj ht').1
  | async ht hover =>
      cases h' with
      | plain ht' =>
          rw [ht, hfunction, hasync] at ht'
          cases (List.cons.inj ht').1
      | async ht' hover' =>
          obtain rfl := List.append_cancel_left (ht.symm.trans ht')
          rw [hfunction] at hover hover'
          have heq := hover.unique (by decide) (by decide) hover'
          exact ⟨rfl, List.append_cancel_left (List.cons.inj heq).2⟩

/-- A heading does not begin with a line feed. -/
theorem Introduces.head?_ne (h : Introduces b t u) : t.head? ≠ some '\n' := by
  cases h with
  | plain ht =>
      rw [ht]
      exact fun hhead => absurd (Option.some.inj hhead) (by decide)
  | async ht =>
      rw [ht]
      exact fun hhead => absurd (Option.some.inj hhead) (by decide)

/-- No name goes on with blanks and comments in front of a parenthesis. -/
theorem Over.haltsName (h : Over t ('(' :: u)) : HaltsName t := by
  refine haltsName_of_head? fun x hx => ?_
  rcases h.cases_head with rfl | ⟨_, hpass, -⟩
  · obtain rfl := Option.some.inj hx
    decide
  · cases hpass with
    | blank hblank =>
        obtain rfl := Option.some.inj hx
        exact isNameChar_of_isBlank hblank
    | line | block | opening | closing =>
        obtain rfl := Option.some.inj hx
        decide

/-- The name in front of the parenthesis is as long as it can be, so there is one only. -/
theorem Opens.unique (h : Opens name t u) (h' : Opens name' t u') : name = name' := by
  obtain ⟨hover, hnames, hbehind⟩ := h
  obtain ⟨hover', hnames', hbehind'⟩ := h'
  obtain ⟨x, t₁, rfl, hx⟩ := hnames.exists_cons
  obtain ⟨x', t₁', rfl, hx'⟩ := hnames'.exists_cons
  rw [← hover.unique (isSolid_of_isNameChar hx) (isSolid_of_isNameChar hx') hover'] at hnames'
  exact (hnames.unique hnames' hbehind.haltsName hbehind'.haltsName).1

/-- A star is not the beginning of a name. -/
theorem Starred.not_opens (h : Over t ('*' :: v)) : ¬ Opens name t u := by
  rintro ⟨hover, hnames, -⟩
  obtain ⟨x, t₁, rfl, hx⟩ := hnames.exists_cons
  have heq := h.unique (by decide) (isSolid_of_isNameChar hx) hover
  obtain rfl := (List.cons.inj heq).1
  exact absurd hx (by decide)

/-- Whether there is a star shows at the first character that is neither blank nor in a comment. -/
theorem Starred.unique (h : Starred b t u) (h' : Starred b' t u') (hu : Opens name u v)
    (hu' : Opens name' u' v') : b = b' ∧ u = u' := by
  cases h with
  | without =>
      cases h' with
      | without => exact ⟨rfl, rfl⟩
      | star hover => exact absurd hu (not_opens hover)
  | star hover =>
      cases h' with
      | without => exact absurd hu' (not_opens hover)
      | star hover' => exact ⟨rfl, (List.cons.inj (hover.unique (by decide) (by decide) hover')).2⟩

/-- A text begins with one heading only. -/
theorem FunctionDeclaration.Heads.unique {f f' : FunctionDeclaration} (h : f.Heads t u)
    (h' : f'.Heads t u') : f.isAsync = f'.isAsync ∧ f.isGenerator = f'.isGenerator ∧ f.name = f'.name := by
  obtain ⟨hword, hstar, hname⟩ := h
  obtain ⟨hword', hstar', hname'⟩ := h'
  obtain ⟨hasync, rfl⟩ := hword.unique hword'
  obtain ⟨hgenerator, rfl⟩ := hstar.unique hstar' hname hname'
  exact ⟨hasync, hgenerator, hname.unique hname'⟩

end Unique

/-! ### What comes behind -/

section Change

variable {name t u r v : List Char} {b : Bool}

/-- The words in front stay when what stands behind the parenthesis changes. -/
theorem Introduces.exists_change (h : Introduces b t (r ++ '(' :: v)) :
    ∃ u, t = u ++ '(' :: v ∧ ∀ w, Introduces b (u ++ '(' :: w) (r ++ '(' :: w) := by
  cases h with
  | plain ht =>
      refine ⟨"function".toList ++ r, by rw [ht, List.append_assoc], fun w => .plain ?_⟩
      exact List.append_assoc _ _ _
  | async ht hover =>
      rw [← List.append_assoc] at hover
      obtain ⟨u, rfl, hchange⟩ := hover.exists_change (by decide)
      refine ⟨"async".toList ++ u, by rw [ht, List.append_assoc], fun w => ?_⟩
      exact .async (List.append_assoc _ _ _) (by rw [← List.append_assoc]; exact hchange w)

/-- The star stays when what stands behind the parenthesis changes. -/
theorem Starred.exists_change (h : Starred b t (r ++ '(' :: v)) :
    ∃ u, t = u ++ '(' :: v ∧ ∀ w, Starred b (u ++ '(' :: w) (r ++ '(' :: w) := by
  cases h with
  | without => exact ⟨r, rfl, fun w => .without⟩
  | star hover =>
      obtain ⟨u, rfl, hchange⟩ := Over.exists_change (r := '*' :: r) (by decide) hover
      exact ⟨u, rfl, fun w => .star (hchange w)⟩

/-- The name and the parenthesis stay when what stands behind them changes. -/
theorem Opens.exists_change (h : Opens name t v) :
    ∃ u r, t = u ++ '(' :: (r ++ v) ∧ ∀ w, Opens name (u ++ '(' :: (r ++ w)) w := by
  obtain ⟨hover, hnames, hbehind⟩ := h
  rename_i t₁ t₂ r
  obtain ⟨u₂, rfl, hchange₂⟩ := Over.exists_change (r := []) (by decide) hbehind
  obtain ⟨rfl, hne, hspelled⟩ := hnames
  rw [← List.append_assoc] at hover
  obtain ⟨u₁, rfl, hchange₁⟩ := hover.exists_change (by decide)
  refine ⟨u₁, r, rfl, fun w => .intro (hchange₁ _) ⟨List.append_assoc _ _ _, hne, hspelled⟩ (hchange₂ _)⟩

/-- A heading stays when what comes behind it changes. -/
theorem FunctionDeclaration.Heads.change {f : FunctionDeclaration} (h : f.Heads (t ++ v) v) (w : List Char) :
    f.Heads (t ++ w) w := by
  generalize ht : t ++ v = text at h
  obtain ⟨hword, hstar, hname⟩ := h
  obtain ⟨u₂, r, rfl, hopens⟩ := hname.exists_change
  obtain ⟨u₁, rfl, hstarred⟩ := hstar.exists_change
  obtain ⟨u, rfl, hintroduces⟩ := hword.exists_change
  -- The three parts, one behind the other, end in front of the same parenthesis.
  have hfront : t = u ++ '(' :: r := List.append_cancel_right (ht.trans (by simp))
  rw [hfront, List.append_assoc]
  exact .intro (hintroduces _) (hstarred _) (hopens w)

end Change

/-! ## Headings that were read

Each reader of a part says what part of the text it went over. `n.heading` reads the parts one after the
other, so what it went over is put together from theirs.
-/

namespace Nested

variable {n : Nested}

/-- The word `function` that was read stands in front of the text. -/
theorem introduces_function {c d : Cursor} {w : List Char} (h : n.nameAt? c = some (w, d))
    (hw : String.ofList w = "function") : Introduces false c.rest d.rest :=
  .plain (by rw [rest_of_nameAt? h, ← hw, String.toList_ofList])

/-- What is read exactly stands in front. -/
theorem after_exactly (text : String) (c : Cursor) :
    After c (fun _ d => c ≤ d ∧ c.rest = text.toList ++ d.rest) c (exactly text) := by
  intro _ _ d h
  obtain ⟨e, he, heq⟩ := Option.map_eq_some_iff.mp h
  obtain ⟨-, rfl⟩ := Prod.mk.inj heq
  exact ⟨Cursor.le_of_dropWord? he, (Cursor.dropWord?_eq_some he).1⟩

/-- In front of the next token stand blanks and comments. -/
theorem after_toPlain (c : Cursor) : After c (fun _ d => c ≤ d ∧ Over c.rest d.rest) c n.toPlain := by
  intro _ _ d h
  refine ⟨forward_toPlain.le h, ?_⟩
  obtain ⟨e, he, heq⟩ := Option.map_eq_some_iff.mp h
  obtain ⟨-, rfl⟩ := Prod.mk.inj heq
  dsimp only at he
  split at he
  · next hgap =>
      cases he
      exact .of_find hgap
  · cases he

/-- A star that was read stands behind blanks and comments. -/
theorem after_skipStar (c : Cursor) :
    After c (fun star d => c ≤ d ∧ ∃ t, Starred star c.rest t ∧ Over t d.rest) c n.skipStar := by
  unfold skipStar
  refine .seq (after_toPlain c) fun _ d hover => .get ?_
  split
  · next hstar =>
      have hrest : d.rest = '*' :: d.step.rest := by
        obtain ⟨o, _ | ⟨x, rest⟩⟩ := d
        · cases hstar
        · rw [show x = '*' from by simpa [Cursor.nextIs] using hstar]
          rfl
      rw [hrest] at hover
      exact .step (.pure fun h => ⟨h, d.step.rest, .star hover, .refl⟩)
  · exact .pure fun h => ⟨h, c.rest, .without, hover⟩

/-- A name that was read stands behind blanks and comments. -/
theorem after_freeName? (c : Cursor) :
    After c (fun name d => c ≤ d ∧ ∀ w ∈ name, ∃ t, Over c.rest t ∧ Names w t d.rest) c n.freeName? := by
  unfold freeName?
  refine .seq (after_toPlain c) fun _ d hover => .get ?_
  split
  · exact .pure fun h => ⟨h, by simp⟩
  · next w e hname =>
      refine .require fun _ => .ahead (lt_of_nameAt? hname).le (.pure fun h => ⟨h, ?_⟩)
      intro _ hw
      obtain rfl := Option.some.inj hw
      exact ⟨d.rest, hover, names_of_nameAt? hname⟩

/-- The parameters begin with a parenthesis, behind which some text belongs to them. -/
theorem after_parameters (hn : n.Forward) (c : Cursor) :
    After c (fun _ d => c ≤ d ∧ ∃ v, c.rest = '(' :: (v ++ d.rest)) c n.parameters := by
  unfold parameters
  refine .seq (after_exactly "(" c) fun _ d hd => .rebase fun hcd => ?_
  have hrest : After d (fun _ e => d ≤ e) d
      (n.entries ')' >>= fun entries => require (Entry.areParameters entries)) :=
    .bind (forward_entries hn _) fun _ _ => .last (forward_require _)
  refine hrest.mono fun _ e hde => ⟨hcd.trans hde, ?_⟩
  obtain ⟨v, hv, -⟩ := hde
  exact ⟨v, by rw [hd, hv]; rfl⟩

/-- What is read as the heading of a function is one, if the function has a name. -/
theorem after_heading (hn : n.Forward) (c : Cursor) :
    After c (fun heading d => c ≤ d ∧ ∀ w ∈ heading.name, ∃ t,
      Starred heading.isGenerator c.rest t ∧ Opens w t d.rest) c n.heading := by
  unfold heading
  refine .seq (after_skipStar c) fun star d hstar => ?_
  obtain ⟨t, hstar, hgap⟩ := hstar
  refine .seq (after_freeName? d) fun name e hname => .seq (after_toPlain e) fun _ f hover => ?_
  refine .seq (after_parameters hn f) fun _ g hparameters => .seq (after_toPlain g) fun _ i hi => ?_
  obtain ⟨v, hv⟩ := hparameters
  refine .pure fun h => ⟨h, fun w hw => ⟨t, hstar, ?_⟩⟩
  obtain ⟨t₁, hbehind, hnames⟩ := hname w hw
  obtain ⟨u, hu⟩ := hi.suffix
  rw [hv, ← hu, ← List.append_assoc] at hover
  exact .intro (hgap.trans hbehind) hnames hover

end Nested

end WasmEmbed.Script
