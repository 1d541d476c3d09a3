import Mathlib.Logic.Relation
import WasmEmbed.Proofs.Script.Token

/-!
# What stands in a gap

Between two tokens stand blanks and comments (`Over`). Whatever may come next, a gap that leads to a token
is made of them (`Over.of_find`), so where it leads depends on the text alone: blanks and comments lead to
one place only (`Over.unique`), and in front of a parenthesis or a quote it does not matter what comes
behind it (`Over.change`).

Blanks and comments are moved over one at a time (`Over.Passes`). Each of these steps is determined by the
text, so two ways over blanks and comments have the same steps, up to how many they are.
-/

namespace WasmEmbed.Script

/-! ## Blanks and comments

A gap ends at the first character that is no blank and begins no comment. Such a character is called solid
here.
-/

/-- One blank or one comment stands in front of a text. -/
inductive Passes : List Char → List Char → Prop
  | blank {x : Char} {t : List Char} : isBlank x = true → Passes (x :: t) t
  | line {t : List Char} : Passes ('/' :: '/' :: t) (t.dropWhile Token.inLineComment)
  | block {t : List Char} {o : Nat} {d : Cursor} :
      Token.blockCommentEnd? false o t = some d → Passes ('/' :: '*' :: t) d.rest
  | opening {t : List Char} : Passes ('<' :: '!' :: '-' :: '-' :: t) (t.dropWhile Token.inMarkupComment)
  | closing {t : List Char} : Passes ('-' :: '-' :: '>' :: t) (t.dropWhile Token.inMarkupComment)

/-- Blanks and comments stand in front of a text. -/
def Over : List Char → List Char → Prop := Relation.ReflTransGen Passes

namespace Passes

variable {t u v : List Char}

/-- What is passed stands in front. -/
theorem suffix (h : Passes t u) : u <:+ t := by
  cases h with
  | blank => exact List.suffix_cons _ _
  | line => exact (List.dropWhile_suffix _).trans (List.suffix_append ['/', '/'] _)
  | block h =>
      obtain ⟨front, hfront, -⟩ := Token.le_of_blockCommentEnd? h
      exact ⟨'/' :: '*' :: front, by simpa using hfront.symm⟩
  | opening => exact (List.dropWhile_suffix _).trans (List.suffix_append ['<', '!', '-', '-'] _)
  | closing => exact (List.dropWhile_suffix _).trans (List.suffix_append ['-', '-', '>'] _)

/-- Only one blank or comment stands in front. -/
theorem unique (h : Passes t u) (h' : Passes t v) : u = v := by
  -- A blank is none of the characters that comments begin with.
  have hblank : ∀ {x : Char}, isBlank x = true → x ≠ '/' ∧ x ≠ '<' ∧ x ≠ '-' := by
    intro x hx
    refine ⟨?_, ?_, ?_⟩
    all_goals
      rintro rfl
      exact absurd hx (by decide)
  cases h with
  | blank hx =>
      cases h' with
      | blank => rfl
      | line | block => exact absurd rfl (hblank hx).1
      | opening => exact absurd rfl (hblank hx).2.1
      | closing => exact absurd rfl (hblank hx).2.2
  | line =>
      cases h' with
      | blank hx => exact absurd rfl (hblank hx).1
      | line => rfl
  | block hd =>
      cases h' with
      | blank hx => exact absurd rfl (hblank hx).1
      | block hd' =>
          obtain ⟨d, hd, hrest⟩ := Token.rest_of_blockCommentEnd? hd
          obtain rfl := Option.some.inj (hd.symm.trans hd')
          exact hrest.symm
  | opening =>
      cases h' with
      | blank hx => exact absurd rfl (hblank hx).2.1
      | opening => rfl
  | closing =>
      cases h' with
      | blank hx => exact absurd rfl (hblank hx).2.2
      | closing => rfl

end Passes

namespace Over

variable {t u v : List Char}

theorem suffix (h : Over t u) : u <:+ t := by
  induction h with
  | refl => exact List.suffix_refl t
  | tail _ hpass ih => exact hpass.suffix.trans ih

/-- A character at which no blank and no comment begins. -/
def isSolid (x : Char) : Bool := !(isBlank x || x == '/' || x == '<' || x == '-')

/-- A character that belongs to no blank and to neither end of a comment. -/
def isBarrier (x : Char) : Bool := isSolid x && !(x == '*' || x == '!' || x == '>')

/-- A text without barriers does not hold this one. -/
theorem notMem_of_isBarrier {x : Char} (hx : isBarrier x = true) {k : List Char}
    (hk : k.all fun y => !isBarrier y) : x ∉ k := by
  intro hmem
  have := List.all_eq_true.mp hk x hmem
  simp [hx] at this

/-- No comment begins with a solid character, and it is no blank. -/
theorem not_passes {x : Char} (hx : isSolid x = true) : ¬ Passes (x :: t) u := by
  intro h
  cases h with
  | blank hblank => simp [isSolid, hblank] at hx
  | line | block | opening | closing => exact absurd hx (by decide)

/-- Blanks and comments lead to one place only. -/
theorem unique {x y : Char} (hx : isSolid x = true) (hy : isSolid y = true) (h : Over t (x :: u))
    (h' : Over t (y :: v)) : x :: u = y :: v := by
  have hunique : Relator.RightUnique Passes := fun _ _ _ h h' => h.unique h'
  rcases h.total_of_right_unique hunique h' with hover | hover
  · rcases hover.cases_head with heq | ⟨_, hpass, -⟩
    · exact heq
    · exact absurd hpass (not_passes hx)
  · rcases hover.cases_head with heq | ⟨_, hpass, -⟩
    · exact heq.symm
    · exact absurd hpass (not_passes hy)

end Over

/-! ## What comes behind

A line comment ends with its line, and a block comment at the first star with a slash. That a parenthesis
or a quote stands behind the comment is therefore enough to know that the comment does not reach beyond
it.
-/

section Behind

variable {u r v w : List Char}

/-- What is left in front of a character does not depend on what comes behind it. -/
theorem dropWhile_change {p : Char → Bool} {x : Char} (h : (u ++ x :: v).dropWhile p = r ++ x :: v) :
    (u ++ x :: w).dropWhile p = r ++ x :: w := by
  induction u with
  | nil =>
      rw [List.nil_append, List.dropWhile_cons] at h ⊢
      split at h
      · -- Then more than the whole rest is left.
        have hle := (List.dropWhile_suffix p (l := v)).length_le
        rw [h, List.length_append, List.length_cons] at hle
        omega
      · next hp =>
          rw [if_neg hp, List.self_eq_append_left.mp h]
          rfl
  | cons y u ih =>
      rw [List.cons_append, List.dropWhile_cons] at h ⊢
      split at h
      · next hy =>
          rw [if_pos hy]
          exact ih h
      · next hy =>
          rw [if_neg hy]
          have hu : y :: u = r := List.append_cancel_right (by simpa using h)
          rw [← hu]
          rfl

/-- Where a block comment ends in front of a character does not depend on what comes behind it. -/
theorem blockCommentEnd?_change {x : Char} {star : Bool} {o : Nat} {d : Cursor}
    (h : Token.blockCommentEnd? star o (u ++ x :: v) = some d) (hd : d.rest = r ++ x :: v) (o' : Nat) :
    ∃ d', Token.blockCommentEnd? star o' (u ++ x :: w) = some d' ∧ d'.rest = r ++ x :: w := by
  induction u generalizing star o o' with
  | nil =>
      -- The comment would end behind the character.
      have hrest : d.rest.length ≤ v.length := by
        rw [List.nil_append, Token.blockCommentEnd?] at h
        split at h
        · cases h
        · split at h
          · cases h
            exact Nat.le_refl _
          · obtain ⟨front, hfront, -⟩ := Token.le_of_blockCommentEnd? h
            have hlength := congrArg List.length hfront
            simp only [List.length_append] at hlength
            omega
      rw [hd, List.length_append, List.length_cons] at hrest
      omega
  | cons y u ih =>
      rw [List.cons_append, Token.blockCommentEnd?] at h ⊢
      split at h
      · cases h
      · next hzero =>
          rw [if_neg hzero]
          split at h
          · next hclose =>
              rw [if_pos hclose]
              cases h
              have hu : u = r := List.append_cancel_right hd
              exact ⟨_, rfl, by rw [hu]⟩
          · next hopen =>
              rw [if_neg hopen]
              exact ih h _

/-- A front part without a character ends in front of the character. -/
theorem exists_of_notMem {x : Char} {k t : List Char} (hk : x ∉ k) (h : u ++ x :: v = k ++ t) :
    ∃ u', u = k ++ u' ∧ t = u' ++ x :: v := by
  rcases List.append_eq_append_iff.mp h with ⟨a, rfl, hv⟩ | ⟨u', rfl, ht⟩
  · cases a with
    | nil => exact ⟨[], by simp, hv.symm⟩
    | cons y a =>
        obtain ⟨rfl, -⟩ := List.cons.inj hv
        exact absurd (List.mem_append_right u List.mem_cons_self) hk
  · exact ⟨u', rfl, ht⟩

/-- What stands in front of a barrier is passed whatever comes behind it. -/
theorem Passes.change {x : Char} (hx : Over.isBarrier x = true) (h : Passes (u ++ x :: v) (r ++ x :: v)) :
    Passes (u ++ x :: w) (r ++ x :: w) := by
  have hnotMem := fun {k} => Over.notMem_of_isBarrier hx (k := k)
  generalize ht : u ++ x :: v = t at h
  generalize hy : r ++ x :: v = y at h
  -- The barrier is none of the characters that are looked at, so it stands behind them.
  cases h with
  | @blank y t hblank =>
      have hk : x ∉ [y] := by
        rw [List.mem_singleton]
        rintro rfl
        simp [Over.isBarrier, Over.isSolid, hblank] at hx
      obtain ⟨u, rfl, htail⟩ := exists_of_notMem hk ht
      obtain rfl : r = u := List.append_cancel_right (hy.trans htail)
      exact .blank hblank
  | line =>
      obtain ⟨u, rfl, rfl⟩ := exists_of_notMem (k := ['/', '/']) (hnotMem (by decide)) ht
      rw [← dropWhile_change hy.symm]
      exact .line
  | block hd =>
      obtain ⟨u, rfl, rfl⟩ := exists_of_notMem (k := ['/', '*']) (hnotMem (by decide)) ht
      obtain ⟨d', hd', hrest⟩ := blockCommentEnd?_change hd hy.symm 0
      rw [← hrest]
      exact .block hd'
  | opening =>
      obtain ⟨u, rfl, rfl⟩ := exists_of_notMem (k := ['<', '!', '-', '-']) (hnotMem (by decide)) ht
      rw [← dropWhile_change hy.symm]
      exact .opening
  | closing =>
      obtain ⟨u, rfl, rfl⟩ := exists_of_notMem (k := ['-', '-', '>']) (hnotMem (by decide)) ht
      rw [← dropWhile_change hy.symm]
      exact .closing

/-- Where blanks and comments in front of a barrier lead does not depend on what comes behind it. -/
theorem Over.change {x : Char} (hx : isBarrier x = true) (h : Over (u ++ x :: v) (r ++ x :: v)) :
    Over (u ++ x :: w) (r ++ x :: w) := by
  generalize ht : u ++ x :: v = t at h
  generalize hy : r ++ x :: v = y at h
  induction h generalizing r with
  | refl =>
      obtain rfl := List.append_cancel_right (ht.trans hy.symm)
      exact .refl
  | tail hover hpass ih =>
      obtain ⟨front, rfl⟩ := hpass.suffix
      subst hy
      rw [← List.append_assoc] at hpass
      exact (ih (List.append_assoc front r _)).tail (hpass.change hx)

/-- Over blanks and comments one comes to a barrier from in front of it. -/
theorem Over.exists_change {x : Char} {t : List Char} (hx : isBarrier x = true) (h : Over t (r ++ x :: v)) :
    ∃ u, t = u ++ x :: v ∧ ∀ w, Over (u ++ x :: w) (r ++ x :: w) := by
  obtain ⟨front, rfl⟩ := h.suffix
  rw [← List.append_assoc] at h
  exact ⟨front ++ r, by rw [List.append_assoc], fun w => h.change hx⟩

end Behind

/-! ## Gaps

What the readers find is made of the same steps: a run of blanks, a comment, an HTML-like comment.
-/

namespace Over

/-- Blanks that are dropped are moved over one by one. -/
theorem dropWhile {p : Char → Bool} (hp : ∀ x, p x = true → isBlank x = true) (t : List Char) :
    Over t (t.dropWhile p) := by
  induction t with
  | nil => exact .refl
  | cons x t ih =>
      rw [List.dropWhile_cons]
      split
      · next hx => exact .head (.blank (hp x hx)) ih
      · exact .refl

/-- A run of blanks is moved over. -/
theorem of_skipWhile {p : Char → Bool} (hp : ∀ x, p x = true → isBlank x = true) (c : Cursor) :
    Over c.rest (c.skipWhile p).rest := by
  rw [Cursor.rest_skipWhile]
  exact dropWhile hp c.rest

/-- A comment that is found is moved over. -/
theorem of_comment? {c d : Cursor} (h : Token.comment? c = some d) : Over c.rest d.rest := by
  obtain ⟨o, rest⟩ := c
  simp only [Token.comment?] at h
  split at h
  · cases h
    rw [Cursor.rest_skipWhile]
    exact .single .line
  · exact .single (.block h)
  · cases h

/-- An HTML-like comment that is found is moved over, with the margin in front of it. -/
theorem of_markupComment? {c a b : Cursor} (h : Token.markupComment? c = some (a, b)) :
    Over c.rest b.rest := by
  simp only [Token.markupComment?] at h
  split at h
  · next d hd =>
      cases h
      have hmargin := of_skipWhile (fun _ => isBlank_of_isMargin) c
      rw [Cursor.rest_skipWhile Token.inMarkupComment]
      rcases (Option.orElse_eq_some _ _ _).mp hd with hopen | ⟨-, hclose⟩
      · rw [(Cursor.dropWord?_eq_some hopen).1] at hmargin
        exact hmargin.tail .opening
      · rw [(Cursor.dropWord?_eq_some hclose).1] at hmargin
        exact hmargin.tail .closing
  · cases h

/-- Where a gap does not end, it goes on behind a comment. -/
theorem of_first? {follow : Follow} {c : Cursor} {r : Cursor ⊕ Gap} (h : Gap.first? follow c = some r) :
    r.elim (fun d => Over c.rest d.rest) fun gap => ∀ d, gap ≠ .token d false := by
  simp only [Gap.first?] at h
  split at h
  · split at h
    · cases h
      simp
    · split at h <;> cases h
      simp
  · split at h
    · split at h <;> cases h
      simp
    · obtain ⟨⟨a, b⟩, hcomment, rfl⟩ := Option.map_eq_some_iff.mp h
      exact of_markupComment? hcomment

/-- A gap that leads to a token is made of blanks and comments. -/
theorem of_find {follow : Follow} {k : Nat} {c d : Cursor} (h : Gap.find follow k c = .token d false) :
    Over c.rest d.rest := by
  induction k generalizing c with
  | zero =>
      cases h
      exact .refl
  | succ k ih =>
      simp only [Gap.find] at h
      split at h
      · next hfirst => exact absurd h (of_first? hfirst d)
      · next e hfirst => exact (of_first? hfirst).trans (ih h)
      · have hblank := of_skipWhile (fun _ h => h) c
        split at h
        · next e he => exact hblank.trans ((of_comment? he).trans (ih h))
        · cases h
          exact hblank

end Over

end WasmEmbed.Script
