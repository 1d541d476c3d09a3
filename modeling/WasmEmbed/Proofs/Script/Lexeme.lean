import WasmEmbed.Proofs.Script.Heading
import WasmEmbed.Proofs.Script.Quoted

/-!
# The tokens of an import

An import is made of names, strings and four signs, with gaps between them (`Lexemes`). A text begins with
one such list of tokens only, up to how long it is (`Lexemes.prefix_or_prefix`), and if the list ends with a
string, it stays when what comes behind the string changes (`Lexemes.change`).

`Nested.Parses` says of a reader that what it reads is said by the tokens that it passes. There is one rule
for each way in which the readers of imports are put together.

The flag `closed` of a list of tokens says that the last of them is a string. Behind a string nothing has
to be known of the text, whereas a name ends only where no further character of a name comes.
-/

namespace WasmEmbed.Script

open Reader

/-- A token of an import. -/
inductive Lexeme where
  | name (w : List Char)
  | text (s : List Char)
  | sign (x : Char)

/-- A sign of an import. -/
def isSign (x : Char) : Bool := x == ',' || x == '*' || x == '\x7b' || x == '\x7d'

/-- The four signs. -/
theorem eq_of_isSign {x : Char} (h : isSign x = true) : x = ',' ∨ x = '*' ∨ x = '\x7b' ∨ x = '\x7d' := by
  simpa [isSign, or_assoc] using h

namespace Lexeme

/-- A token stands in front of a text. A name goes on as long as it can. -/
inductive Stands : Lexeme → List Char → List Char → Prop
  | name {w t u : List Char} : Names w t u → HaltsName u → Stands (.name w) t u
  | text {s t u : List Char} : Quoted s t u → Stands (.text s) t u
  | sign {x : Char} {u : List Char} : isSign x = true → Stands (.sign x) (x :: u) u

variable {a b : Lexeme} {t u u' : List Char}

/-- The character at which a token begins. -/
def begins : Lexeme → Char → Bool
  | .name _, x => isWordPart x || x == '\\'
  | .text _, x => isQuote x
  | .sign y, x => isSign x && x == y

/-- A token begins with a character by which its kind is known. -/
theorem Stands.exists_cons (h : Stands a t u) : ∃ x t', t = x :: t' ∧ a.begins x = true := by
  cases h with
  | name h => exact h.exists_start
  | text h => exact h.exists_cons
  | sign hx => exact ⟨_, u, rfl, by simp [begins, hx]⟩

/-- Neither blanks nor comments begin like a token. -/
theorem isSolid_of_begins {x : Char} (h : a.begins x = true) : Over.isSolid x = true := by
  cases a with
  | name w =>
      refine isSolid_of_isNameChar ?_
      simp only [begins, Bool.or_eq_true] at h
      rcases h with h | h <;> simp [isNameChar, h]
  | text s => rcases eq_of_isQuote h with rfl | rfl <;> decide
  | sign y =>
      simp only [begins, Bool.and_eq_true] at h
      rcases eq_of_isSign h.1 with rfl | rfl | rfl | rfl <;> decide

/-- The first character tells the three kinds of token apart, and the signs. -/
theorem Stands.unique (h : Stands a t u) (h' : Stands b t u') : a = b ∧ u = u' := by
  have hname : ∀ {x : Char}, isQuote x || isSign x → (isWordPart x || x == '\\') = false := by
    intro x hx
    rcases Bool.or_eq_true_iff.mp hx with hx | hx
    · rcases eq_of_isQuote hx with rfl | rfl <;> decide
    · rcases eq_of_isSign hx with rfl | rfl | rfl | rfl <;> decide
  have htext : ∀ {x : Char}, isSign x = true → isQuote x = false := by
    intro x hx
    rcases eq_of_isSign hx with rfl | rfl | rfl | rfl <;> decide
  obtain ⟨x, t', rfl, hx⟩ := h.exists_cons
  obtain ⟨_, _, heq, hx'⟩ := h'.exists_cons
  obtain ⟨rfl, -⟩ := List.cons.inj heq
  cases h with
  | name hw hu =>
      cases h' with
      | name hw' hu' =>
          obtain ⟨rfl, rfl⟩ := hw.unique hw' hu hu'
          exact ⟨rfl, rfl⟩
      | text => simp [begins, hname (x := x) (by simpa [begins] using Or.inl hx')] at hx
      | sign hsign => simp [begins, hname (x := x) (by simp [hsign])] at hx
  | text hs =>
      cases h' with
      | name => simp [begins, hname (x := x) (by simpa [begins] using Or.inl hx)] at hx'
      | text hs' =>
          obtain ⟨rfl, rfl⟩ := hs.unique hs'
          exact ⟨rfl, rfl⟩
      | sign hsign => simp [begins, htext hsign] at hx
  | sign hsign =>
      cases h' with
      | name => simp [begins, hname (x := x) (by simp [hsign])] at hx'
      | text => simp [begins, htext hsign] at hx'
      | sign => exact ⟨rfl, rfl⟩

/-- A token stays in front of a quote when what comes behind the quote changes. -/
theorem Stands.exists_change {q : Char} {r v : List Char} (hq : isQuote q = true)
    (h : Stands a t (r ++ q :: v)) :
    ∃ f, t = f ++ q :: v ∧ ∀ w, Stands a (f ++ q :: w) (r ++ q :: w) := by
  generalize hu : r ++ q :: v = u at h
  cases h with
  | @name w t _ hw hhalts =>
      subst hu
      refine ⟨w ++ r, by rw [hw.eq, List.append_assoc], fun v' => ?_⟩
      rw [List.append_assoc]
      exact .name ⟨rfl, hw.ne_nil, hw.spelled⟩ (hhalts.change (isNameChar_of_isQuote hq) v')
  | text hs =>
      subst hu
      obtain ⟨f, rfl, hchange⟩ := hs.change
      refine ⟨f ++ r, by rw [List.append_assoc], fun v' => ?_⟩
      rw [List.append_assoc]
      exact .text (hchange _)
  | @sign x _ hx =>
      subst hu
      exact ⟨x :: r, rfl, fun v' => .sign hx⟩

end Lexeme

/-! ## Lists of tokens

The gaps belong to the tokens behind them. With a gap at the end a list can be continued, and without one
it ends at its last token.
-/

/-- Tokens with gaps between them stand in front of a text. If the list is closed, it ends right behind a
string. -/
inductive Lexemes : Bool → List Lexeme → List Char → List Char → Prop
  | nil {t u : List Char} : Over t u → Lexemes false [] t u
  | last {s t t₁ u : List Char} : Over t t₁ → Quoted s t₁ u → Lexemes true [.text s] t u
  | cons {closed : Bool} {a : Lexeme} {as : List Lexeme} {t t₁ t₂ u : List Char} :
      Over t t₁ → a.Stands t₁ t₂ → Lexemes closed as t₂ u → Lexemes closed (a :: as) t u

namespace Lexemes

variable {closed : Bool} {as bs : List Lexeme} {t t' u u' : List Char}

/-- A token without a gap in front of it. -/
theorem one {a : Lexeme} (h : a.Stands t u) : Lexemes false [a] t u := .cons .refl h (.nil .refl)

/-- A gap may stand in front. -/
theorem of_over (hover : Over t t') (h : Lexemes closed as t' u) : Lexemes closed as t u := by
  cases h with
  | nil h => exact .nil (hover.trans h)
  | last h hs => exact .last (hover.trans h) hs
  | cons h ha has => exact .cons (hover.trans h) ha has

/-- Two lists one behind the other. -/
theorem append (h : Lexemes false as t t') (h' : Lexemes closed bs t' u) : Lexemes closed (as ++ bs) t u := by
  generalize hopen : false = c at h
  induction h with
  | nil hover => exact h'.of_over hover
  | last => cases hopen
  | cons hover ha _ ih => exact .cons hover ha (ih h' hopen)

/-- A gap may come behind a list that is not closed. -/
theorem relax (h : Lexemes closed as t u) : Lexemes false as t u := by
  induction h with
  | nil h => exact .nil h
  | last h hs => exact .cons h (.text hs) (.nil .refl)
  | cons h ha _ ih => exact .cons h ha ih

/-- Blanks and comments in front of two tokens lead to one place. -/
theorem Over.stands_unique {a b : Lexeme} {t₁ t₂ : List Char} (h : Over t t₁) (ha : a.Stands t₁ u)
    (h' : Over t t₂) (hb : b.Stands t₂ u') : a = b ∧ u = u' := by
  obtain ⟨x, t₁, rfl, hx⟩ := ha.exists_cons
  obtain ⟨y, t₂, rfl, hy⟩ := hb.exists_cons
  rw [← h.unique (Lexeme.isSolid_of_begins hx) (Lexeme.isSolid_of_begins hy) h'] at hb
  exact ha.unique hb

/-- Of two lists of tokens in front of one text, one is the beginning of the other. -/
theorem prefix_or_prefix (h : Lexemes true as t u) (h' : Lexemes true bs t u') : as <+: bs ∨ bs <+: as := by
  generalize hclosed : true = c at h
  induction h generalizing bs with
  | nil => cases hclosed
  | last hover hs =>
      cases h' with
      | last hover' hs' =>
          obtain ⟨heq, -⟩ := Over.stands_unique hover (.text hs) hover' (.text hs')
          rw [heq]
          exact Or.inl List.prefix_rfl
      | cons hover' hb _ =>
          obtain ⟨rfl, -⟩ := Over.stands_unique hover (.text hs) hover' hb
          exact Or.inl (List.prefix_append [_] _)
  | cons hover ha _ ih =>
      cases h' with
      | last hover' hs' =>
          obtain ⟨rfl, -⟩ := Over.stands_unique hover ha hover' (.text hs')
          exact Or.inr (List.prefix_append [_] _)
      | cons hover' hb hbs =>
          obtain ⟨rfl, rfl⟩ := Over.stands_unique hover ha hover' hb
          rcases ih hbs hclosed with hpre | hpre
          · exact Or.inl (List.cons_prefix_cons.mpr ⟨rfl, hpre⟩)
          · exact Or.inr (List.cons_prefix_cons.mpr ⟨rfl, hpre⟩)

/-- A closed list of tokens ends at one place only. -/
theorem rest_unique (h : Lexemes true as t u) (h' : Lexemes true as t u') : u = u' := by
  generalize hclosed : true = c at h
  induction h with
  | nil => cases hclosed
  | last hover hs =>
      cases h' with
      | last hover' hs' => exact (Over.stands_unique hover (.text hs) hover' (.text hs')).2
      | cons _ _ hnone => cases hnone
  | cons hover ha has ih =>
      subst hclosed
      cases h' with
      | last => cases has
      | cons hover' ha' has' =>
          obtain ⟨-, rfl⟩ := Over.stands_unique hover ha hover' ha'
          exact ih has' rfl

/-- A closed list of tokens stays when what comes behind it changes. -/
theorem exists_change (h : Lexemes true as t u) :
    ∃ f q, isQuote q = true ∧ t = f ++ q :: u ∧ ∀ w, Lexemes true as (f ++ q :: w) w := by
  generalize hclosed : true = c at h
  induction h with
  | nil => cases hclosed
  | @last s _ t₁ u hover hs =>
      -- The gap ends in front of the opening quote, which comes in front of the closing one.
      obtain ⟨q, hq, rfl, -⟩ := id hs
      obtain ⟨f, rfl, hchange⟩ := Over.exists_change (r := q :: s) (isBarrier_of_isQuote hq) hover
      obtain ⟨f', hf', hquoted⟩ := hs.change
      obtain rfl : f' = q :: (s ++ [q]) := List.append_cancel_right (by rw [← hf']; simp)
      refine ⟨f, q, hq, rfl, fun w => .last (hchange w) ?_⟩
      simpa using hquoted w
  | cons hover ha _ ih =>
      subst hclosed
      obtain ⟨r, q, hq, rfl, hrest⟩ := ih rfl
      obtain ⟨r', rfl, hstands⟩ := ha.exists_change hq
      obtain ⟨f, rfl, hchange⟩ := hover.exists_change (isBarrier_of_isQuote hq)
      exact ⟨f, q, hq, rfl, fun w => .cons (hchange w) (hstands w) (hrest w)⟩

end Lexemes

/-! ## Readers of tokens

The relation `S` of `Parses` connects the answer of a reader with the tokens in front of it and the tokens
behind it. So the rules put relations together as the readers are put together.
-/

/-- What `r` reads is said by the tokens that it passes, whatever tokens come behind them, if the bound on
repetitions is large enough. -/
def Nested.Parses (n : Nested) {α : Type} (closed : Bool) (r : Reader α)
    (Says : α → List Lexeme → List Lexeme → Prop) : Prop :=
  ∀ c, c.rest.length ≤ n.depth → After c (fun a d => c ≤ d ∧ ∃ ts, Lexemes closed ts c.rest d.rest ∧
    ∀ us, Says a (ts ++ us) us) c r

namespace Nested.Parses

variable {α β : Type} {n : Nested} {closed : Bool} {S : α → List Lexeme → List Lexeme → Prop}

/-- What is said behind a first part is said with the tokens of that part in front. -/
theorem bind {r : Reader β} {f : β → Reader α} {R : β → List Lexeme → List Lexeme → Prop}
    (hr : n.Parses false r R)
    (hf : ∀ b, n.Parses closed (f b) fun a us vs => ∀ ts, R b ts us → S a ts vs) :
    n.Parses closed (r >>= f) S := by
  intro c hc _ a e h
  obtain ⟨⟨b, d⟩, hb, ha⟩ := Option.bind_eq_some_iff.mp h
  obtain ⟨hcd, ts, hts, hR⟩ := hr c hc (le_refl c) b d hb
  have hd : d.rest.length ≤ n.depth := by
    obtain ⟨front, hfront, -⟩ := hcd
    rw [hfront, List.length_append] at hc
    omega
  obtain ⟨hde, us, hus, hS⟩ := hf b d hd (le_refl d) a e ha
  refine ⟨hcd.trans hde, ts ++ us, hts.append hus, fun vs => ?_⟩
  rw [List.append_assoc]
  exact hS vs _ (hR _)

/-- What the tokens say may be weakened. -/
theorem mono {r : Reader α} {T : α → List Lexeme → List Lexeme → Prop} (hr : n.Parses closed r S)
    (h : ∀ a ts us, S a ts us → T a ts us) : n.Parses closed r T := by
  intro c hc
  refine (hr c hc).mono fun a d hread => ?_
  obtain ⟨hcd, ts, hts, hS⟩ := hread
  exact ⟨hcd, ts, hts, fun us => h a _ us (hS us)⟩

theorem pure {a : α} (h : ∀ us, S a us us) : n.Parses false (Pure.pure a) S :=
  fun _ _ => .pure fun hle => ⟨hle, [], .nil .refl, h⟩

/-- What was read is given another form. -/
theorem map {r : Reader β} {f : β → α} (hr : n.Parses closed r fun b => S (f b)) :
    n.Parses closed (r >>= fun b => Pure.pure (f b)) S := by
  intro c hc _ a e h
  obtain ⟨⟨b, d⟩, hb, ha⟩ := Option.bind_eq_some_iff.mp h
  obtain ⟨rfl, rfl⟩ := Prod.mk.inj (Option.some.inj ha)
  exact hr c hc (le_refl c) b d hb

/-- A reader that refuses has passed no tokens. -/
theorem refuse : n.Parses closed (Reader.refuse : Reader α) S := fun _ _ => .refuse

/-- The rule for a condition. -/
theorem require {p : Bool} {f : Unit → Reader α} (h : p = true → n.Parses closed (f ()) S) :
    n.Parses closed (Reader.require p >>= f) S :=
  fun c hc => .require fun hp => h hp c hc

/-- The rule for a look at the cursor. -/
theorem get {f : Cursor → Reader α} (h : ∀ c, n.Parses closed (f c) S) :
    n.Parses closed ((MonadState.get : Reader Cursor) >>= f) S :=
  fun c hc => .get (h c c hc)

/-- The rule for a gap in front of what is read. -/
theorem gap {f : Unit → Reader α} (hf : n.Parses closed (f ()) S) : n.Parses closed (n.toPlain >>= f) S := by
  have hgap : n.Parses false n.toPlain fun _ ts us => ts = us :=
    fun c _ => (after_toPlain c).mono fun _ d h => ⟨h.1, [], .nil h.2, fun _ => rfl⟩
  refine hgap.bind fun _ => hf.mono ?_
  rintro a us vs hS _ rfl
  exact hS

/-- The rule for any name. -/
theorem anyName {f : List Char → Reader α}
    (hf : ∀ w, n.Parses closed (f w) fun a us => S a (.name w :: us)) :
    n.Parses closed (n.anyName >>= f) S := by
  have hname : n.Parses false n.anyName fun w ts us => ts = .name w :: us := by
    intro c hc _ w d h
    refine ⟨(lt_of_nameAt? h).le, [.name w], .one (.name (names_of_nameAt? h) ?_), fun _ => rfl⟩
    exact haltsName_of_nameAt? h hc
  refine hname.bind fun w => (hf w).mono ?_
  rintro a us vs hS _ rfl
  exact hS

/-- The rule for one word. -/
theorem word {text : String} {f : Unit → Reader α}
    (hf : n.Parses closed (f ()) fun a us => S a (.name text.toList :: us)) :
    n.Parses closed (n.word text >>= f) S := by
  unfold Nested.word
  rw [bind_assoc]
  refine .anyName fun w => .require fun hw => ?_
  rw [eq_of_beq hw]
  exact hf

/-- The rule for a name that is not reserved. -/
theorem freeName {f : List Char → Reader α}
    (hf : ∀ w, n.Parses closed (f w) fun a us => S a (.name w :: us)) :
    n.Parses closed (n.freeName >>= f) S := by
  unfold Nested.freeName
  simp only [bind_assoc, pure_bind]
  exact .anyName fun w => .require fun _ => hf w

/-- The rule for a string that comes last. -/
theorem text_last {S : List Char → List Lexeme → List Lexeme → Prop} (h : ∀ s us, S s (.text s :: us) us) :
    n.Parses true n.stringText S := by
  unfold Nested.stringText
  refine .gap fun c hc _ s d hread => ?_
  obtain ⟨⟨_, e⟩, hmove, hrest⟩ := Option.bind_eq_some_iff.mp
    (show (move (Token.string? n.depth) >>= fun _ => _) c = some (s, d) from hread)
  obtain ⟨e', he, heq⟩ := Option.map_eq_some_iff.mp hmove
  cases heq
  cases hrest
  exact ⟨(Token.lt_of_string? he).le, [.text _], .last .refl (exists_quoted_of_string? he), h _⟩

/-- The rule for a string. -/
theorem text {f : List Char → Reader α}
    (hf : ∀ s, n.Parses closed (f s) fun a us => S a (.text s :: us)) :
    n.Parses closed (n.stringText >>= f) S := by
  have htext : n.Parses false n.stringText fun s ts us => ts = .text s :: us := by
    intro c hc
    refine (text_last (S := fun s ts us => ts = .text s :: us) (fun _ _ => rfl) c hc).mono fun s d hread => ?_
    obtain ⟨hle, ts, hts, hS⟩ := hread
    exact ⟨hle, ts, hts.relax, hS⟩
  refine htext.bind fun s => (hf s).mono ?_
  rintro a us vs hS _ rfl
  exact hS

/-- The rule for one of the signs. -/
theorem exactly {text : String} {x : Char} {f : Unit → Reader α} (htext : text.toList = [x])
    (hx : isSign x = true) (hf : n.Parses closed (f ()) fun a us => S a (.sign x :: us)) :
    n.Parses closed (Reader.exactly text >>= f) S := by
  have hsign : n.Parses false (Reader.exactly text) fun _ ts us => ts = .sign x :: us := by
    intro c _
    refine (after_exactly text c).mono fun _ d h => ?_
    rw [htext] at h
    refine ⟨h.1, [.sign x], ?_, fun _ => rfl⟩
    rw [h.2]
    exact .one (.sign hx)
  refine hsign.bind fun _ => hf.mono ?_
  rintro a us vs hS _ rfl
  exact hS

/-- The rule for a sign that is looked for. -/
theorem ifNext {x : Char} {r s : Reader α} (hx : isSign x = true)
    (hr : n.Parses closed r fun a us => S a (.sign x :: us)) (hs : n.Parses closed s S) :
    n.Parses closed ((MonadState.get : Reader Cursor) >>= fun c =>
      if c.nextIs (· == x) then (MonadStateOf.set c.step : Reader PUnit) >>= fun _ => r else s) S := by
  intro c hc
  refine .get ?_
  split
  · next hnext =>
      have hrest : c.rest = x :: c.step.rest := Cursor.rest_of_nextIs hnext
      have hdepth : c.step.rest.length ≤ n.depth := by
        rw [hrest, List.length_cons] at hc
        omega
      intro _ a d h
      obtain ⟨hle, ts, hts, hS⟩ := hr c.step hdepth (le_refl c.step) a d h
      refine ⟨c.le_step.trans hle, .sign x :: ts, ?_, hS⟩
      rw [hrest]
      exact .cons .refl (.sign hx) hts
  · exact hs c hc

/-- The rule for a word that is looked for. -/
theorem ifWord {word : String} {f : List Char → Reader α} {s : Reader α}
    (hf : ∀ w, n.Parses closed (f w) fun a us => S a (.name word.toList :: us)) (hs : n.Parses closed s S) :
    n.Parses closed ((MonadState.get : Reader Cursor) >>= fun c =>
      if n.wordAt c == word then n.anyName >>= f else s) S := by
  intro c hc
  refine .get ?_
  split
  · next hword =>
      intro _ a d h
      obtain ⟨⟨w, e⟩, hw, hrest⟩ := Option.bind_eq_some_iff.mp h
      have hname : n.nameAt? c = some (w, e) := hw
      rw [Nested.wordAt, hname] at hword
      obtain rfl : word.toList = w := by rw [← eq_of_beq hword, String.toList_ofList]
      have hnames := names_of_nameAt? hname
      have hdepth : e.rest.length ≤ n.depth := by
        rw [hnames.eq, List.length_append] at hc
        omega
      obtain ⟨hle, ts, hts, hS⟩ := hf _ e hdepth (le_refl e) a d hrest
      have hlexeme := Lexemes.one (.name hnames (haltsName_of_nameAt? hname hc))
      exact ⟨(lt_of_nameAt? hname).le.trans hle, _, hlexeme.append hts, hS⟩
  · exact hs c hc

end Nested.Parses

end WasmEmbed.Script
