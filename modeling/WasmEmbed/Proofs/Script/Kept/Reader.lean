import WasmEmbed.Proofs.Script.Kept.Token
import WasmEmbed.Proofs.Script.Lexeme
import WasmEmbed.Proofs.Script.Yields

/-!
# Readers in front of a quote

`Reader.Keeps q u v closed r` says that what `r` reads in front of the quote `q` it reads again if `v`
stands behind the quote instead of `u`. A closed reader ends behind the quote, another one in front of it.
There is one rule for each way in which readers are put together.

A block comment that is not closed may be closed by other text behind the quote. A reader that stands in
front of such a comment gets no further (`IsStuck`), so nothing is asked about a reader that ends there.
-/

namespace WasmEmbed.Script

/-! ## In front of a comment that is not closed

Nothing can be read there: no name, no word and no string begins with a slash. So a reader that comes to
such a place refuses in both texts.
-/

namespace IsStuck

variable {c d : Cursor} {p : Char → Bool} {n : Nested} {k : Nat}

/-- The next character is a slash. -/
theorem nextIs (h : IsStuck c) (hp : p '/' = false) : c.nextIs p = false := by
  obtain ⟨⟨t, ht⟩, -⟩ := h
  rw [Cursor.nextIs, ht]
  exact hp

/-- A word with another first character does not stand there. -/
theorem dropWord? {x : Char} {word : List Char} (h : IsStuck c) (hx : x ≠ '/') :
    c.dropWord? (x :: word) = none := by
  obtain ⟨⟨t, ht⟩, -⟩ := h
  obtain ⟨o, rest⟩ := c
  obtain rfl : rest = '/' :: '*' :: t := ht
  exact Cursor.dropWord?_cons_ne hx

theorem nameAt? (h : IsStuck c) : n.nameAt? c = none := by
  have hescape : Token.nameEscape? c = none := by
    rw [Token.nameEscape?, h.dropWord? (by decide)]
  rw [Nested.nameAt?, Token.name?, h.nextIs (by decide), if_neg Bool.false_ne_true, hescape]
  rfl

theorem string? (h : IsStuck c) : Token.string? k c = none := by
  obtain ⟨⟨t, ht⟩, -⟩ := h
  obtain ⟨o, rest⟩ := c
  obtain rfl : rest = '/' :: '*' :: t := ht
  rfl

/-- A gap ends in front of a comment that is not closed. -/
theorem find (h : IsStuck c) : Gap.find .plain k c = .token c false := by
  obtain _ | k := k
  · rfl
  obtain ⟨⟨t, ht⟩, hcomment⟩ := h
  obtain ⟨o, rest⟩ := c
  obtain rfl : rest = '/' :: '*' :: t := ht
  have hblank : Cursor.skipWhile isBlank ⟨o, '/' :: '*' :: t⟩ = ⟨o, '/' :: '*' :: t⟩ := rfl
  have hfirst : Gap.first? .plain ⟨o, '/' :: '*' :: t⟩ = none := rfl
  rw [Gap.find, hfirst]
  dsimp only
  rw [hblank, hcomment]

end IsStuck

namespace Reader

/-- Where a reader ends in the two texts: in front of the quote, or behind it if the reader is closed. -/
inductive Ends (q : Char) (u v : List Char) : Bool → Cursor → Cursor → Prop
  | before {d d' : Cursor} : Kept q u v d d' → ¬ IsStuck d → Ends q u v false d d'
  | behind {o : Nat} : ¬ IsStuck ⟨o, u⟩ → Ends q u v true ⟨o, u⟩ ⟨o, v⟩

/-- From in front of the quote, the same leads to the end in both texts. -/
theorem Ends.exists_front {q : Char} {u v front : List Char} {closed : Bool} {c c' d d' : Cursor}
    (hd : Ends q u v closed d d') (hc : Kept q u v c c') (hfront : c.rest = front ++ d.rest) :
    c' = ⟨c.offset, front ++ d'.rest⟩ ∧ d'.offset = d.offset := by
  obtain ⟨o, r⟩ := hc
  cases hd with
  | before hkept hfree =>
      obtain ⟨o', r'⟩ := hkept
      have hr : r = front ++ r' := List.append_cancel_right (by simpa using hfront)
      exact ⟨by simp [hr], rfl⟩
  | behind hfree =>
      have hr : r ++ [q] ++ u = front ++ u := by simpa using hfront
      replace hr := List.append_cancel_right hr
      exact ⟨by simp [← hr], rfl⟩

/-- What is read in front of the quote is read with other text behind the quote as well. -/
structure Keeps (q : Char) (u v : List Char) (closed : Bool) {α : Type} (r : Reader α) : Prop where
  forward : ∀ {c a d}, r c = some (a, d) → c ≤ d ∧ (closed = true → c < d)
  stuck : ∀ {c a d}, IsStuck c → r c = some (a, d) → IsStuck d
  again : ∀ {c c' a d d'}, Kept q u v c c' → Ends q u v closed d d' → r c = some (a, d) → r c' = some (a, d')

namespace Keeps

variable {α β : Type} {q : Char} {u v : List Char} {closed : Bool} {r s : Reader α} {n : Nested}

/-- The rule for two parts, one behind the other. -/
theorem bind {r : Reader β} {f : β → Reader α} (hr : Keeps q u v false r)
    (hf : ∀ b, Keeps q u v closed (f b)) :
    Keeps q u v closed (r >>= f) where
  forward h := by
    obtain ⟨⟨b, e⟩, hb, ha⟩ := Option.bind_eq_some_iff.mp h
    obtain ⟨hle, -⟩ := hr.forward hb
    obtain ⟨hle', hlt⟩ := (hf b).forward ha
    exact ⟨hle.trans hle', fun hclosed => hle.trans_lt (hlt hclosed)⟩
  stuck hc h := by
    obtain ⟨⟨b, e⟩, hb, ha⟩ := Option.bind_eq_some_iff.mp h
    exact (hf b).stuck (hr.stuck hc hb) ha
  again {c c' a d d'} hc hd h := by
    obtain ⟨⟨b, e⟩, hb, ha⟩ := Option.bind_eq_some_iff.mp h
    have hle := (hr.forward hb).1
    obtain ⟨hle', hlt⟩ := (hf b).forward ha
    have hstuck : ¬ IsStuck d := by cases hd <;> assumption
    have hfree : ¬ IsStuck e := fun hstuck' => hstuck ((hf b).stuck hstuck' ha)
    -- The first part ends in front of the quote.
    obtain ⟨e', he⟩ : ∃ e', Kept q u v e e' := by
      cases hd with
      | before hkept => exact hkept.of_le hle'
      | behind => exact hc.of_lt hle (hlt rfl) rfl
    exact Option.bind_eq_some_iff.mpr ⟨(b, e'), hr.again hc (.before he hfree) hb, (hf b).again he hd ha⟩

/-- An answer without a move is the same. -/
theorem pure {a : α} : Keeps q u v false (Pure.pure a : Reader α) where
  forward h := by
    cases h
    exact ⟨le_refl _, nofun⟩
  stuck hc h := by
    cases h
    exact hc
  again {c c' b d d'} hc hd h := by
    cases h
    obtain ⟨hd, -⟩ := hd
    rw [hc.unique hd]
    rfl

/-- A reader that refuses reads nothing in either text. -/
theorem refuse : Keeps q u v closed (refuse : Reader α) :=
  ⟨fun h => (nomatch h), fun _ h => (nomatch h), fun _ _ h => (nomatch h)⟩

/-- The rule for a condition. -/
theorem require {p : Bool} {f : Unit → Reader α} (hf : p = true → Keeps q u v closed (f ())) :
    Keeps q u v closed (Reader.require p >>= f) := by
  cases p with
  | true => exact hf rfl
  | false => exact .refuse

/-- The rule for what was read that is given another form. -/
theorem map {r : Reader β} {f : β → α} (hr : Keeps q u v closed r) :
    Keeps q u v closed (r >>= fun b => Pure.pure (f b)) where
  forward h := by
    obtain ⟨⟨b, e⟩, hb, ha⟩ := Option.bind_eq_some_iff.mp h
    cases ha
    exact hr.forward hb
  stuck hc h := by
    obtain ⟨⟨b, e⟩, hb, ha⟩ := Option.bind_eq_some_iff.mp h
    cases ha
    exact hr.stuck hc hb
  again hc hd h := by
    obtain ⟨⟨b, e⟩, hb, ha⟩ := Option.bind_eq_some_iff.mp h
    cases ha
    exact Option.bind_eq_some_iff.mpr ⟨_, hr.again hc hd hb, rfl⟩

/-- The rule for a reader that is written in another way. -/
theorem of_run (h : ∀ c, r c = s c) (hs : Keeps q u v closed s) : Keeps q u v closed r := by
  rwa [funext h]

/-- The rule for a choice by what comes next. -/
theorem ite {p : Cursor → Bool} (hp : ∀ {c c'}, Kept q u v c c' → p c' = p c) (hr : Keeps q u v closed r)
    (hs : Keeps q u v closed s) :
    Keeps q u v closed ((MonadState.get : Reader Cursor) >>= fun c => if p c then r else s) where
  forward {c a d} h := by
    rw [run_get] at h
    split at h
    · exact hr.forward h
    · exact hs.forward h
  stuck {c a d} hc h := by
    rw [run_get] at h
    split at h
    · exact hr.stuck hc h
    · exact hs.stuck hc h
  again {c c' a d d'} hc hd h := by
    rw [run_get] at h ⊢
    rw [hp hc]
    split at h
    · next htrue =>
        rw [if_pos htrue]
        exact hr.again hc hd h
    · next hfalse =>
        rw [if_neg hfalse]
        exact hs.again hc hd h

/-- The rule for a choice by two things that come next. -/
theorem ite_ite {t : Reader α} {p p' : Cursor → Bool} (hp : ∀ {c c'}, Kept q u v c c' → p c' = p c)
    (hp' : ∀ {c c'}, Kept q u v c c' → p' c' = p' c) (hr : Keeps q u v closed r) (hs : Keeps q u v closed s)
    (ht : Keeps q u v closed t) :
    Keeps q u v closed ((MonadState.get : Reader Cursor) >>= fun c =>
      if p c then r else if p' c then s else t) := by
  refine .of_run (fun c => ?_) (.ite hp hr (.ite hp' hs ht))
  rw [run_get, run_get]
  split <;> rfl

/-- The rule for a sign that is looked for. -/
theorem ifNext {x : Char} (hx : isSign x = true) (hq : isQuote q = true) (hr : Keeps q u v closed r)
    (hs : Keeps q u v closed s) :
    Keeps q u v closed ((MonadState.get : Reader Cursor) >>= fun c =>
      if c.nextIs (· == x) then (MonadStateOf.set c.step : Reader PUnit) >>= fun _ => r else s) where
  forward {c a d} h := by
    rw [run_get] at h
    split at h
    · obtain ⟨hle, hlt⟩ := hr.forward h
      exact ⟨c.le_step.trans hle, fun hclosed => c.le_step.trans_lt (hlt hclosed)⟩
    · exact hs.forward h
  stuck {c a d} hc h := by
    have hnext : c.nextIs (· == x) = false :=
      hc.nextIs (by rcases eq_of_isSign hx with rfl | rfl | rfl | rfl <;> rfl)
    rw [run_get, hnext, if_neg Bool.false_ne_true] at h
    exact hs.stuck hc h
  again {c c' a d d'} hc hd h := by
    rw [run_get] at h ⊢
    rw [hc.nextIs]
    split at h
    · next hnext =>
        rw [if_pos hnext]
        refine hr.again (hc.step hnext ?_) hd h
        rcases eq_of_isSign hx with rfl | rfl | rfl | rfl <;> rcases eq_of_isQuote hq with rfl | rfl <;> rfl
    · next hnext =>
        rw [if_neg hnext]
        exact hs.again hc hd h

end Keeps

/-! ## Tokens

A token is found behind the gap in front of it. If the gap ends in front of the quote it is the same in
both texts, and if it ends in front of a comment that is not closed, no token follows.
-/

section Tokens

variable {q : Char} {u v : List Char} {n : Nested}

/-- A gap is passed if it leads to a token. -/
theorem toPlain_eq_some_iff {c d : Cursor} :
    n.toPlain c = some ((), d) ↔ Gap.find .plain n.depth c = .token d false := by
  unfold Nested.toPlain Nested.toToken Reader.move
  cases hfind : Gap.find .plain n.depth c with
  | semicolon e => simp [hfind]
  | token e conditional => cases conditional <;> simp [hfind]

/-- The gap in front of a token. -/
theorem keeps_toPlain (hq : isQuote q = true) : Keeps q u v false n.toPlain where
  forward h := ⟨Nested.forward_toPlain.le h, nofun⟩
  stuck hc h := by
    rw [toPlain_eq_some_iff, hc.find] at h
    cases h
    exact hc
  again hc hd h := by
    obtain ⟨hkept, hfree⟩ := hd
    exact toPlain_eq_some_iff.mpr (hc.find (isBarrier_of_isQuote hq) hkept hfree (toPlain_eq_some_iff.mp h))

/-- A name with any text behind the quote. -/
theorem keeps_anyName (hq : isQuote q = true) : Keeps q u v false n.anyName where
  forward h := ⟨(Nested.lt_of_nameAt? h).le, nofun⟩
  stuck hc h := absurd (hc.nameAt?.symm.trans h) (by simp)
  again {c c' w d d'} hc hd h := by
    obtain ⟨hkept, -⟩ := hd
    obtain ⟨e, he, hread⟩ := hc.nameAt? (isNameChar_of_isQuote hq) (show n.nameAt? c = some (w, d) from h)
    rw [← he.unique hkept]
    exact hread

theorem keeps_word (hq : isQuote q = true) (text : String) : Keeps q u v false (n.word text) := by
  have hrequire : ∀ w : List Char, Keeps q u v false (require (w == text.toList) >>= Pure.pure) :=
    fun _ => .require fun _ => .pure
  simp only [bind_pure] at hrequire
  unfold Nested.word
  exact (keeps_anyName hq).bind hrequire

theorem keeps_freeName (hq : isQuote q = true) : Keeps q u v false n.freeName := by
  unfold Nested.freeName
  exact (keeps_anyName hq).bind fun w => .require fun _ => .pure

/-- A sign is read in front of the quote. -/
theorem keeps_exactly (hq : isQuote q = true) {text : String} {x : Char} (htext : text.toList = [x])
    (hx : isSign x = true) : Keeps q u v false (exactly text) where
  forward h := ⟨(forward_exactly text).le h, nofun⟩
  stuck {c a d} hc h := by
    have hne : x ≠ '/' := by rcases eq_of_isSign hx with rfl | rfl | rfl | rfl <;> decide
    have hnone : exactly text c = none := by
      rw [exactly, move, htext, hc.dropWord? hne]
      rfl
    exact absurd (hnone.symm.trans h) (by simp)
  again {c c' a d d'} hc hd h := by
    obtain ⟨hkept, -⟩ := hd
    obtain ⟨e, he, heq⟩ := Option.map_eq_some_iff.mp h
    cases heq
    have hword : q ∉ text.toList := by
      rw [htext, List.mem_singleton]
      rintro rfl
      rcases eq_of_isSign hx with rfl | rfl | rfl | rfl <;> exact absurd hq (by decide)
    obtain ⟨e', hkept', he'⟩ := hc.dropWord? hword he
    rw [← hkept'.unique hkept, exactly, move, he']
    rfl

/-- The text between the quotes of a string that comes next. -/
theorem run_string {c d : Cursor} {t : List Char} :
    (MonadState.get >>= fun c => move (Token.string? n.depth) >>= fun _ => MonadState.get >>= fun d =>
      Pure.pure ((c.textUpTo d).drop 1).dropLast : Reader (List Char)) c = some (t, d) ↔
    Token.string? n.depth c = some d ∧ ((c.textUpTo d).drop 1).dropLast = t := by
  constructor
  · intro h
    obtain ⟨⟨_, e⟩, hmove, hrest⟩ := Option.bind_eq_some_iff.mp h
    obtain ⟨e', he, heq⟩ := Option.map_eq_some_iff.mp hmove
    cases heq
    cases hrest
    exact ⟨he, rfl⟩
  · rintro ⟨hread, rfl⟩
    rw [run_get, run_move hread, run_get]
    rfl

/-- The quote may end the string. -/
theorem keeps_stringText (hq : isQuote q = true) (closed : Bool) : Keeps q u v closed n.stringText := by
  unfold Nested.stringText
  refine (keeps_toPlain hq).bind fun _ => ⟨fun h => ?_, fun hc h => ?_, fun {c c' t d d'} hc hd h => ?_⟩
  · have hlt := Token.lt_of_string? (run_string.mp h).1
    exact ⟨hlt.le, fun _ => hlt⟩
  · exact absurd (hc.string?.symm.trans (run_string.mp h).1) (by simp)
  · obtain ⟨hread, rfl⟩ := run_string.mp h
    obtain ⟨front, hfront, hoffset⟩ := (Token.lt_of_string? hread).le
    obtain ⟨rfl, hoffset'⟩ := hd.exists_front hc hfront
    have hread' := string?_change hread hfront d'.rest
    rw [← hoffset'] at hread'
    have htext : Cursor.textUpTo ⟨c.offset, front ++ d'.rest⟩ d' = c.textUpTo d := by
      rw [Cursor.textUpTo_eq hfront hoffset]
      exact Cursor.textUpTo_eq rfl (hoffset'.trans hoffset)
    exact run_string.mpr ⟨hread', by rw [htext]⟩

end Tokens

end Reader

end WasmEmbed.Script
