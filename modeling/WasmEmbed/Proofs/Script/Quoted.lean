import WasmEmbed.Proofs.Script.Name
import WasmEmbed.Script.Statement

/-!
# Strings

A string ends at a quote, but not every quote inside it ends it: one may stand behind a backslash, or in a
comment behind a line end. `Quoted` says that a string is read in front of a text. What is between its
quotes depends on the text alone (`Quoted.unique`), and not on what comes behind the closing quote
(`Quoted.change`).

A string is read with a bound on its pieces, and strings in front of two different texts are read with
different bounds. That the bound plays no role is `stringEnd?_mono`: a string that is closed within a
bound is closed within every greater one, with the same end.
-/

namespace WasmEmbed.Script

/-- The two quotes. -/
def isQuote (x : Char) : Bool := x == '"' || x == '\''

/-- There are two quotes. -/
theorem eq_of_isQuote {q : Char} (hq : isQuote q = true) : q = '"' ∨ q = '\'' := by
  simpa [isQuote] using hq

theorem isBarrier_of_isQuote {q : Char} (hq : isQuote q = true) : Over.isBarrier q = true := by
  rcases eq_of_isQuote hq with rfl | rfl <;> decide

/-- A quote stands in no name. -/
theorem isNameChar_of_isQuote {q : Char} (hq : isQuote q = true) : isNameChar q = false := by
  rcases eq_of_isQuote hq with rfl | rfl <;> decide

/-! ## What comes behind

What a string consists of is followed piece by piece: a run of plain characters, an escape, a comment
behind a line end. For each of them it is shown that it lies in front of the closing quote and stays when
the text behind the quote changes.
-/

namespace Token

variable {o o' k : Nat} {d : Cursor} {x q : Char} {u r v : List Char}

/-- Where a comment ends in front of a barrier does not depend on what comes behind it. -/
theorem comment?_change (hx : Over.isBarrier x = true) (h : comment? ⟨o, u ++ x :: v⟩ = some d)
    (hd : d.rest = r ++ x :: v) (o' : Nat) (w : List Char) :
    ∃ d', comment? ⟨o', u ++ x :: w⟩ = some d' ∧ d'.rest = r ++ x :: w := by
  have hnotMem := fun {k} => Over.notMem_of_isBarrier hx (k := k)
  generalize ht : u ++ x :: v = t at h
  simp only [comment?] at h
  split at h
  · next t =>
      cases h
      obtain ⟨u, rfl, rfl⟩ := exists_of_notMem (k := ['/', '/']) (hnotMem (by decide)) ht
      rw [Cursor.rest_skipWhile] at hd
      refine ⟨_, rfl, ?_⟩
      rw [Cursor.rest_skipWhile]
      exact dropWhile_change hd
  · next t =>
      obtain ⟨u, rfl, rfl⟩ := exists_of_notMem (k := ['/', '*']) (hnotMem (by decide)) ht
      exact blockCommentEnd?_change h hd _
  · cases h

/-- Where an escape in a name ends does not depend on what comes behind it. -/
theorem nameEscape?_change (h : nameEscape? ⟨o, u ++ x :: v⟩ = some d)
    (hd : d.rest = r ++ x :: v) (o' : Nat) (w : List Char) :
    ∃ d', nameEscape? ⟨o', u ++ x :: w⟩ = some d' ∧ d'.rest = r ++ x :: w := by
  obtain ⟨e, he, hrest⟩ := IsEscape.exists_of_nameEscape? h
  have htext : u ++ x :: v = e ++ r ++ x :: v := by
    rw [List.append_assoc, ← hd]
    exact hrest
  have hu : u = e ++ r := List.append_cancel_right htext
  rw [hu, List.append_assoc]
  exact he.exists_nameEscape? o' _

/-- A quote is no digit and ends no line. -/
theorem classes_of_isQuote (hq : isQuote q = true) :
    isOctalDigit q = false ∧ isHexDigit q = false ∧ endsLine q = false := by
  rcases eq_of_isQuote hq with rfl | rfl <;> decide

/-- What is left in front of a character is left whatever comes behind it. -/
theorem append_cons_congr (h : u ++ x :: v = r ++ x :: v) (w : List Char) : u ++ x :: w = r ++ x :: w := by
  rw [List.append_cancel_right h]

/-- Two digits behind `x` are an escape. -/
theorem escape?_change_hex (hq : isQuote q = true) (h : escape? ⟨o, '\\' :: 'x' :: (u ++ q :: v)⟩ = some d)
    (hd : d.rest = r ++ q :: v) (o' : Nat) (w : List Char) :
    ∃ d', escape? ⟨o', '\\' :: 'x' :: (u ++ q :: w)⟩ = some d' ∧ d'.rest = r ++ q :: w := by
  obtain ⟨-, hhex, -⟩ := classes_of_isQuote hq
  simp only [escape?, if_true] at h ⊢
  obtain _ | ⟨a, _ | ⟨b, u⟩⟩ := u
  · cases v <;> simp [hhex] at h
  · simp [hhex] at h
  · simp only [List.cons_append] at h ⊢
    split at h
    · next hdigits =>
        cases h
        exact ⟨_, if_pos hdigits, append_cons_congr hd w⟩
    · cases h

/-- One to three octal digits are an escape. -/
theorem escape?_change_octal (hq : isQuote q = true) (hx : isOctalDigit x = true)
    (h : escape? ⟨o, '\\' :: x :: (u ++ q :: v)⟩ = some d) (hd : d.rest = r ++ q :: v) (o' : Nat)
    (w : List Char) : ∃ d', escape? ⟨o', '\\' :: x :: (u ++ q :: w)⟩ = some d' ∧ d'.rest = r ++ q :: w := by
  obtain ⟨hoctal, -, -⟩ := classes_of_isQuote hq
  have hne : x ≠ 'x' ∧ x ≠ 'u' := by
    refine ⟨?_, ?_⟩
    all_goals
      rintro rfl
      exact absurd hx (by decide)
  simp only [escape?, hne, hx, if_true, if_false] at h ⊢
  -- The quote is no digit, so no digit is sought behind it.
  obtain _ | ⟨a, _ | ⟨b, u⟩⟩ := u
  · have hrest : d.rest = q :: v := by
      cases v <;> simp [hoctal] at h <;> cases h <;> rfl
    have hnil := append_cons_congr (u := []) (hrest.symm.trans hd) w
    cases w <;> simp [hoctal] <;> exact hnil
  · simp only [List.cons_append, List.nil_append, hoctal, if_false, Bool.false_eq_true] at h ⊢
    split at h <;> cases h
    · next ha => exact ⟨_, if_pos ha, append_cons_congr (u := []) hd w⟩
    · next ha => exact ⟨_, if_neg ha, append_cons_congr (u := [a]) hd w⟩
  · simp only [List.cons_append] at h ⊢
    split at h <;> cases h
    · next ha =>
        rw [if_pos ha]
        refine ⟨_, rfl, ?_⟩
        split at hd
        · next hb => exact (if_pos hb).symm ▸ append_cons_congr hd w
        · next hb => exact (if_neg hb).symm ▸ append_cons_congr (u := b :: u) hd w
    · next ha => exact ⟨_, if_neg ha, append_cons_congr (u := a :: b :: u) hd w⟩

/-- Where an escape in a string ends in front of a quote does not depend on what comes behind the quote. -/
theorem escape?_change (hq : isQuote q = true) (h : escape? ⟨o, u ++ q :: v⟩ = some d)
    (hd : d.rest = r ++ q :: v) (o' : Nat) (w : List Char) :
    ∃ d', escape? ⟨o', u ++ q :: w⟩ = some d' ∧ d'.rest = r ++ q :: w := by
  obtain _ | ⟨y, u⟩ := u
  · rcases eq_of_isQuote hq with rfl | rfl <;> cases h
  obtain rfl : y = '\\' := by
    by_contra hy
    simp [escape?, hy] at h
  obtain _ | ⟨x, u⟩ := u
  · -- The quote itself would stand behind the backslash.
    have hrest : d.rest = v := by
      rcases eq_of_isQuote hq with rfl | rfl <;> cases h <;> rfl
    have hlength := congrArg List.length (hrest.symm.trans hd)
    simp only [List.length_append, List.length_cons] at hlength
    omega
  by_cases hhex : x = 'x'
  · subst hhex
    exact escape?_change_hex hq h hd o' w
  by_cases hname : x = 'u'
  · subst hname
    exact nameEscape?_change (u := '\\' :: 'u' :: u) h hd o' w
  by_cases hoctal : isOctalDigit x = true
  · exact escape?_change_octal hq hoctal h hd o' w
  simp only [escape?, List.cons_append, hhex, hname, hoctal, if_false, Bool.false_eq_true] at h ⊢
  split at h
  · cases h
  · next hzero =>
      rw [if_neg hzero]
      obtain ⟨-, -, hline⟩ := classes_of_isQuote hq
      split at h <;> cases h
      · next hreturn =>
          refine ⟨_, if_pos hreturn, ?_⟩
          -- The line feed behind a carriage return belongs to it.
          cases u with
          | nil => simpa [Cursor.skip, Cursor.step, Cursor.nextIs, hline] using hd
          | cons a u =>
              by_cases ha : endsLine a = true
              · simpa [Cursor.skip, Cursor.step, Cursor.nextIs, ha] using hd
              · simp only [Cursor.skip, Cursor.step, Cursor.nextIs, List.cons_append, ha, if_false,
                  Bool.false_eq_true] at hd ⊢
                exact append_cons_congr (u := a :: u) hd w
      · next hreturn => exact ⟨_, if_neg hreturn, append_cons_congr hd w⟩

/-- A string ends behind its closing quote. -/
theorem exists_of_stringEnd? {c : Cursor} (h : stringEnd? q k c = some d) :
    ∃ s, c.rest = s ++ q :: d.rest := by
  -- Each step moves on, so what stands behind a later place stands behind this one.
  have hbehind : ∀ {c e : Cursor}, c ≤ e → (∃ s, e.rest = s ++ q :: d.rest) →
      ∃ s, c.rest = s ++ q :: d.rest := by
    rintro c e ⟨front, hfront, -⟩ ⟨s, hs⟩
    exact ⟨front ++ s, by rw [hfront, hs, List.append_assoc]⟩
  induction k generalizing c with
  | zero => cases h
  | succ k ih =>
      simp only [stringEnd?] at h
      split at h
      · exact hbehind (Cursor.le_skipWhile _ c) (ih h)
      · split at h
        · next hquote =>
            cases h
            exact ⟨[], Cursor.rest_of_nextIs hquote⟩
        · split at h
          · split at h
            · next e he => exact hbehind (le_of_escape? he) (ih h)
            · cases h
          · split at h
            · next hquote =>
                cases h
                exact hbehind (Cursor.le_skipWhile _ c) ⟨[], Cursor.rest_of_nextIs hquote⟩
            · split at h
              · next e he =>
                  exact hbehind ((Cursor.le_skipWhile _ c).trans (le_of_comment? he)) (ih h)
              · cases h

/-- A string that is read in some number of pieces is read if more are allowed. -/
theorem stringEnd?_mono {c : Cursor} {k' : Nat} (hk : k ≤ k') (h : stringEnd? q k c = some d) :
    stringEnd? q k' c = some d := by
  induction k generalizing c k' with
  | zero => cases h
  | succ k ih =>
      obtain ⟨j, rfl⟩ := Nat.exists_eq_add_of_le hk
      have hle : k ≤ k + j := Nat.le_add_right k j
      rw [show k + 1 + j = (k + j) + 1 by omega]
      simp only [stringEnd?] at h ⊢
      grind

/-- A run of characters ends in front of one that is not of the class. -/
theorem skipWhile_front {p : Char → Bool} (hp : p q = false) :
    Cursor.skipWhile p ⟨o, u ++ q :: v⟩ = ⟨o + byteCount (u.takeWhile p), u.dropWhile p ++ q :: v⟩ := by
  have hall := List.all_eq_true.mp (List.all_takeWhile (p := p) (l := u))
  have hstop : ∀ x ∈ (u.dropWhile p ++ q :: v).head?, p x = false := by
    have hhead := List.head?_dropWhile_not p u
    cases hrest : u.dropWhile p with
    | nil => simpa using hp
    | cons y rest => simpa [hrest] using hhead
  have hskip := Cursor.skipWhile_append (o := o) hall hstop
  rwa [← List.append_assoc, List.takeWhile_append_dropWhile] at hskip

/-- Where a string ends does not depend on what comes behind its closing quote. -/
theorem stringEnd?_change (hq : isQuote q = true) (h : stringEnd? q k ⟨o, u ++ q :: v⟩ = some d)
    (hd : d.rest = v) (o' : Nat) (w : List Char) :
    ∃ d', stringEnd? q k ⟨o', u ++ q :: w⟩ = some d' ∧ d'.rest = w := by
  have hplain : isPlain q q = false := by simp [isPlain]
  have hblank : isBlank q = false := by rcases eq_of_isQuote hq with rfl | rfl <;> decide
  -- The string ends at the last quote, so at an earlier one it goes on.
  have hlast : ∀ {u : List Char} {o o' : Nat}, (⟨o, u ++ q :: v⟩ : Cursor).step.rest = v →
      (⟨o', u ++ q :: w⟩ : Cursor).step.rest = w := by
    intro u o o' hstep
    cases u with
    | nil => rfl
    | cons x u =>
        have hlength := congrArg List.length hstep
        simp only [Cursor.step, List.cons_append, List.length_append, List.length_cons] at hlength
        omega
  induction k generalizing o u o' with
  | zero => cases h
  | succ k ih =>
      have hnext : ∀ {u : List Char} {o o' : Nat} p,
          Cursor.nextIs p ⟨o', u ++ q :: w⟩ = Cursor.nextIs p ⟨o, u ++ q :: v⟩ := by
        intro u o o' p
        cases u <;> rfl
      have hbehind : ∀ {e : Cursor}, stringEnd? q k e = some d → ∃ s, e.rest = s ++ q :: v ∧
          ∀ e' : Cursor, e'.rest = s ++ q :: w → ∃ d', stringEnd? q k e' = some d' ∧ d'.rest = w := by
        rintro ⟨o₁, rest⟩ hend
        obtain ⟨s, hs⟩ := exists_of_stringEnd? hend
        obtain rfl : rest = s ++ q :: v := hd ▸ hs
        refine ⟨s, rfl, ?_⟩
        rintro ⟨o₂, rest'⟩ hrest'
        obtain rfl : rest' = s ++ q :: w := hrest'
        exact ih hend o₂
      simp only [stringEnd?] at h ⊢
      rw [hnext (o := o), hnext (o := o), hnext (o := o)]
      split at h
      · next hnextPlain =>
          rw [if_pos hnextPlain]
          rw [skipWhile_front hplain] at h
          rw [skipWhile_front hplain]
          exact ih h _
      next hnextPlain =>
      rw [if_neg hnextPlain]
      split at h
      · next hquote =>
          cases h
          exact ⟨_, if_pos hquote, hlast hd⟩
      next hquote =>
      rw [if_neg hquote]
      split at h
      · next hslash =>
          rw [if_pos hslash]
          split at h
          · next e he =>
              obtain ⟨s, hs, hend⟩ := hbehind h
              obtain ⟨e', he', hs'⟩ := escape?_change hq he hs o' w
              rw [he']
              exact hend e' hs'
          · cases h
      · next hslash =>
          rw [if_neg hslash]
          rw [skipWhile_front hblank] at h
          rw [skipWhile_front hblank, hnext (o := o + byteCount (u.takeWhile isBlank))]
          split at h
          · next hclose =>
              cases h
              exact ⟨_, if_pos hclose, hlast hd⟩
          next hclose =>
          rw [if_neg hclose]
          split at h
          · next e he =>
              obtain ⟨s, hs, hend⟩ := hbehind h
              obtain ⟨e', he', hs'⟩ := comment?_change (isBarrier_of_isQuote hq) he hs _ w
              rw [he']
              exact hend e' hs'
          · cases h

end Token

/-! ## Strings that are read

The quote that closes a string is the last character of the string. So the text behind it is what is left,
and everything in front of it is what was read.
-/

/-- A string stands in front of a text, with `s` between its quotes. -/
def Quoted (s t u : List Char) : Prop :=
  ∃ q, isQuote q = true ∧ t = q :: (s ++ q :: u) ∧
    ∃ k o o', Token.stringEnd? q k ⟨o, s ++ q :: u⟩ = some ⟨o', u⟩

namespace Quoted

variable {s s' t u u' : List Char}

/-- A string stays when what comes behind it changes. -/
theorem change (h : Quoted s t u) : ∃ f, t = f ++ u ∧ ∀ w, Quoted s (f ++ w) w := by
  obtain ⟨q, hq, rfl, k, o, o', hend⟩ := h
  refine ⟨q :: (s ++ [q]), by simp, fun w => ⟨q, hq, by simp, k, o, ?_⟩⟩
  obtain ⟨⟨o₁, rest⟩, hend', hrest⟩ := Token.stringEnd?_change hq hend rfl o w
  obtain rfl : rest = w := hrest
  exact ⟨o₁, hend'⟩

/-- Only one string stands in front of a text. -/
theorem unique (h : Quoted s t u) (h' : Quoted s' t u') : s = s' ∧ u = u' := by
  obtain ⟨q, hq, rfl, k, o, o₁, hend⟩ := h
  obtain ⟨q', hq', heq, k', o', o₁', hend'⟩ := h'
  obtain ⟨rfl, htext⟩ := List.cons.inj heq
  -- Both strings are read from one place with as many pieces as either of them takes.
  obtain ⟨d, hd, hu⟩ := Token.stringEnd?_change hq hend rfl o' u
  have hfirst := Token.stringEnd?_mono (Nat.le_max_left k k') hd
  have hsecond := Token.stringEnd?_mono (Nat.le_max_right k k') hend'
  rw [← htext] at hsecond
  obtain rfl := Option.some.inj (hfirst.symm.trans hsecond)
  obtain rfl : u' = u := hu
  exact ⟨List.append_cancel_right htext, rfl⟩

theorem exists_cons (h : Quoted s t u) : ∃ q t', t = q :: t' ∧ isQuote q = true := by
  obtain ⟨q, hq, rfl, -⟩ := h
  exact ⟨q, _, rfl, hq⟩

end Quoted

/-- A string that was read ends where it is closed by the quote that opens it. -/
theorem exists_of_string? {k : Nat} {c d : Cursor} (h : Token.string? k c = some d) :
    ∃ q s, isQuote q = true ∧ c.rest = q :: (s ++ q :: d.rest) ∧
      Token.stringEnd? q k ⟨c.offset + q.utf8Size, s ++ q :: d.rest⟩ = some d := by
  have hread : ∃ q, isQuote q = true ∧ c = ⟨c.offset, q :: c.step.rest⟩ ∧
      Token.stringEnd? q k c.step = some d := by
    obtain ⟨o, rest⟩ := c
    simp only [Token.string?] at h
    split at h
    · exact ⟨'"', rfl, rfl, h⟩
    · exact ⟨'\'', rfl, rfl, h⟩
    · cases h
  obtain ⟨q, hq, hrest, hend⟩ := hread
  obtain ⟨s, hs⟩ := Token.exists_of_stringEnd? hend
  rw [hs] at hrest
  rw [hrest] at hend ⊢
  exact ⟨q, s, hq, rfl, hend⟩

/-- A string ends where it does whatever stands behind it. -/
theorem string?_change {k : Nat} {c d : Cursor} {front : List Char} (h : Token.string? k c = some d)
    (hfront : c.rest = front ++ d.rest) (w : List Char) :
    Token.string? k ⟨c.offset, front ++ w⟩ = some ⟨d.offset, w⟩ := by
  obtain ⟨q, s, hq, hrest, hend⟩ := exists_of_string? h
  have htext : front ++ d.rest = q :: (s ++ [q]) ++ d.rest := by simp [← hfront, hrest]
  obtain rfl := List.append_cancel_right htext
  obtain ⟨⟨o, rest⟩, hend', hw⟩ := Token.stringEnd?_change hq hend rfl (c.offset + q.utf8Size) w
  obtain rfl : rest = w := hw
  have hchange : Token.string? k ⟨c.offset, q :: (s ++ [q]) ++ rest⟩ = some ⟨o, rest⟩ := by
    rw [← hend']
    rcases eq_of_isQuote hq with rfl | rfl <;> simp [Token.string?, Cursor.step]
  -- The bytes of the string are the same.
  obtain ⟨front, hsame, hoffset⟩ := (Token.lt_of_string? h).le
  obtain ⟨front', hsame', hoffset'⟩ := (Token.lt_of_string? hchange).le
  obtain rfl := List.append_cancel_right (hfront.symm.trans hsame)
  obtain rfl := List.append_cancel_right hsame'
  rw [hchange, hoffset]
  exact congrArg (fun o => some (Cursor.mk o rest)) hoffset'

/-- A string that was read stands in front. -/
theorem exists_quoted_of_string? {k : Nat} {c d : Cursor} (h : Token.string? k c = some d) :
    Quoted ((c.textUpTo d).drop 1).dropLast c.rest d.rest := by
  obtain ⟨front, hfront, hoffset⟩ := (Token.lt_of_string? h).le
  obtain ⟨q, s, hq, hrest, hend⟩ := exists_of_string? h
  have htext : front ++ d.rest = q :: (s ++ [q]) ++ d.rest := by simp [← hfront, hrest]
  obtain rfl := List.append_cancel_right htext
  rw [Cursor.textUpTo_eq hfront hoffset]
  have hs : ((q :: (s ++ [q])).drop 1).dropLast = s := by simp
  rw [hs]
  exact ⟨q, hq, hrest, k, _, d.offset, hend⟩

end WasmEmbed.Script
