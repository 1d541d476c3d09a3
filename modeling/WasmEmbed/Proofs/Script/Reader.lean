import WasmEmbed.Proofs.Script.Token
import WasmEmbed.Script.Nested

/-!
# What a reader ensures

`Reader.After b Q c r` says that whatever `r` reads from `c` satisfies `Q`, provided that `c` is not in
front of `b`. There is one rule for each way in which readers are put together, so what a reader ensures
is shown by following its definition. `Reader.Forward r` is the special case that `r` never goes back.

The cursor `b` stands still while a rule is followed. It is the place at which the construct began, and it
lets a reader set the cursor back as far as that place: what is asked in the end is asked in relation to
`b`.
-/

namespace WasmEmbed.Script

namespace Reader

variable {α β : Type}

/-- Whatever `r` reads from `c` satisfies `Q`, provided that `c` is not in front of `b`. -/
def After (b : Cursor) (Q : α → Cursor → Prop) (c : Cursor) (r : Reader α) : Prop :=
  b ≤ c → ∀ a d, r c = some (a, d) → Q a d

/-- The reader never goes back. -/
def Forward (r : Reader α) : Prop := ∀ c, After c (fun _ d => c ≤ d) c r

/-- The reader never stays where it is. -/
def Strict (r : Reader α) : Prop := ∀ c, After c (fun _ d => c < d) c r

/-! ## One rule for each way to put readers together

Readers are put together in `do` blocks, so there is one rule for a bind with each of the primitive
readers as its first part, and one for each of them as the last part. The proofs that use them have the
shape of the `do` block.
-/

section Rules

variable {b c d : Cursor} {Q : α → Cursor → Prop}

/-- What a reader that goes forward has read ends at or behind its beginning. -/
theorem Forward.le {r : Reader α} (hr : r.Forward) {a : α} (h : r c = some (a, d)) : c ≤ d :=
  hr c (le_refl c) a d h

/-- The rule for a first part that goes forward from where it stands. -/
theorem After.bind_here {r : Reader β} {f : β → Reader α} (hr : After c (fun _ d => c ≤ d) c r)
    (hf : ∀ a d, After b Q d (f a)) : After b Q c (r >>= f) := by
  intro hb a e h
  obtain ⟨⟨x, d⟩, hx, hrest⟩ := Option.bind_eq_some_iff.mp h
  exact hf x d (hb.trans (hr (le_refl c) x d hx)) a e hrest

/-- The rule for two parts one after the other. -/
theorem After.bind {r : Reader β} {f : β → Reader α} (hr : r.Forward)
    (hf : ∀ a d, After b Q d (f a)) : After b Q c (r >>= f) := .bind_here (hr c) hf

/-- The rule for a first part of which more is known than that it goes forward. -/
theorem After.seq {r : Reader β} {f : β → Reader α} {P : β → Cursor → Prop}
    (hr : After c (fun a d => c ≤ d ∧ P a d) c r) (hf : ∀ a d, P a d → After b Q d (f a)) :
    After b Q c (r >>= f) := by
  intro hb a e h
  obtain ⟨⟨x, d⟩, hx, hrest⟩ := Option.bind_eq_some_iff.mp h
  obtain ⟨hle, hP⟩ := hr (le_refl c) x d hx
  exact hf x d hP (hb.trans hle) a e hrest

/-- From here on, what is asked counts from `c`. -/
theorem After.rebase {r : Reader α} (h : b ≤ c → After c Q c r) : After b Q c r :=
  fun hb => h hb (le_refl c)

/-- The rule for a first part that only looks ahead. -/
theorem After.still {r : Reader β} {f : β → Reader α} {P : β → Prop}
    (hr : After c (fun a d => d = c ∧ P a) c r) (hf : ∀ a, P a → After b Q c (f a)) :
    After b Q c (r >>= f) := by
  intro hb a e h
  obtain ⟨⟨x, d⟩, hx, hrest⟩ := Option.bind_eq_some_iff.mp h
  obtain ⟨rfl, hP⟩ := hr (le_refl c) x d hx
  exact hf x hP hb a e hrest

/-- The rule for an answer without a move. -/
theorem After.pure {a : α} (h : b ≤ c → Q a c) : After b Q c (pure a : Reader α) := by
  intro hb a' d heq
  obtain ⟨rfl, rfl⟩ := Prod.mk.inj (Option.some.inj heq)
  exact h hb

/-- A reader that refuses ensures everything. -/
theorem After.refuse : After b Q c (refuse : Reader α) := by
  intro _ a d h
  cases h

/-- The rule for a look at the cursor. -/
theorem After.get {f : Cursor → Reader α} (h : After b Q c (f c)) :
    After b Q c ((MonadState.get : Reader Cursor) >>= f) := h

/-- The rule for a cursor that may also be set back, but not in front of `b`. -/
theorem After.set {f : PUnit → Reader α} (hd : b ≤ d) (h : After b Q d (f ⟨⟩)) :
    After b Q c ((MonadStateOf.set d : Reader PUnit) >>= f) := fun _ => h hd

/-- The rule for a cursor that is set further on. -/
theorem After.ahead {f : PUnit → Reader α} (hd : c ≤ d) (h : After b Q d (f ⟨⟩)) :
    After b Q c ((MonadStateOf.set d : Reader PUnit) >>= f) := fun hb => h (hb.trans hd)

/-- A cursor that is set further on, as the last part. -/
theorem After.ahead_last (hd : c ≤ d) :
    After b (fun _ d => b ≤ d) c (MonadStateOf.set d : Reader PUnit) := by
  intro hb a e heq
  obtain ⟨rfl, rfl⟩ := Prod.mk.inj (Option.some.inj heq)
  exact hb.trans hd

/-- The rule for a cursor that goes over one character. -/
theorem After.step {f : PUnit → Reader α} (h : After b Q c.step (f ⟨⟩)) :
    After b Q c ((MonadStateOf.set c.step : Reader PUnit) >>= f) := .ahead c.le_step h

/-- One character as the last part. -/
theorem After.step_last : After b (fun _ d => b ≤ d) c (MonadStateOf.set c.step : Reader PUnit) :=
  .ahead_last c.le_step

/-- A token as the last part. -/
theorem After.move_last {f : Cursor → Option Cursor} (hf : ∀ d, f c = some d → c ≤ d) :
    After b (fun _ d => b ≤ d) c (move f) := by
  intro hb a d h
  obtain ⟨e, he, heq⟩ := Option.map_eq_some_iff.mp h
  obtain ⟨-, rfl⟩ := Prod.mk.inj heq
  exact hb.trans (hf e he)

/-- The rule for a token with something behind it. -/
theorem After.move {f : Cursor → Option Cursor} {g : Unit → Reader α}
    (hf : ∀ d, f c = some d → c ≤ d) (hg : ∀ d, After b Q d (g ())) :
    After b Q c (move f >>= g) := by
  intro hb a e h
  obtain ⟨⟨x, d⟩, hx, hrest⟩ := Option.bind_eq_some_iff.mp h
  exact hg d (After.move_last hf hb x d hx) a e hrest

/-- The rule for a condition, which holds in what comes behind it. -/
theorem After.require {p : Bool} {f : Unit → Reader α} (h : p = true → After b Q c (f ())) :
    After b Q c (Reader.require p >>= f) := by
  cases p with
  | true => exact h rfl
  | false =>
      intro _ a d heq
      cases heq

/-- What was read is only looked at. -/
theorem After.check {r : Reader α} {p : α → Bool} (hr : After b Q c r) :
    After b Q c (r >>= fun a => Reader.require (p a) >>= fun _ => Pure.pure a) := by
  intro hb a d h
  obtain ⟨⟨x, e⟩, hx, hrest⟩ := Option.bind_eq_some_iff.mp h
  -- Behind the first part nothing is read any more.
  have hcheck : After e (fun a' d' => a' = x ∧ d' = e) e
      (Reader.require (p x) >>= fun _ => Pure.pure x) :=
    .require fun _ => .pure fun _ => ⟨rfl, rfl⟩
  obtain ⟨rfl, rfl⟩ := hcheck (le_refl e) a d hrest
  exact hr hb a d hx

/-- The rule for a choice: both alternatives ensure the same. -/
theorem After.orElse {r s : Reader α} (hr : After b Q c r) (hs : After b Q c s) :
    After b Q c (r <|> s) := by
  intro hb a d h
  rcases (Option.orElse_eq_some _ _ _).mp h with hfirst | ⟨-, hsecond⟩
  · exact hr hb a d hfirst
  · exact hs hb a d hsecond

/-- A part that comes last has only to be known to go forward, if that is all that is asked. -/
theorem After.last {r : Reader α} (hr : r.Forward) : After b (fun _ d => b ≤ d) c r :=
  fun hb _ _ h => hb.trans (hr.le h)

/-- What a strict reader has read is not empty. -/
theorem Strict.lt {r : Reader α} (hr : r.Strict) {a : α} (h : r c = some (a, d)) : c < d :=
  hr c (le_refl c) a d h

/-- The rule for a first part that never stays where it is. -/
theorem After.bind_strict {r : Reader β} {f : β → Reader α} (hr : r.Strict)
    (hf : ∀ a, (f a).Forward) : After c (fun _ d => c < d) c (r >>= f) := by
  intro _ a e h
  obtain ⟨⟨x, d⟩, hx, hrest⟩ := Option.bind_eq_some_iff.mp h
  exact (hr.lt hx).trans_le ((hf x).le hrest)

/-- A part that comes last has only to be known to go over one character, if that is all that is asked. -/
theorem After.last_strict {r : Reader α} (hr : r.Strict) : After b (fun _ d => b < d) c r :=
  fun hb _ _ h => hb.trans_lt (hr.lt h)

/-- A cursor that is set behind `b`, as the last part. -/
theorem After.set_strict (hd : b < d) : After b (fun _ e => b < e) c (MonadStateOf.set d : Reader PUnit) := by
  intro _ a e heq
  obtain ⟨rfl, rfl⟩ := Prod.mk.inj (Option.some.inj heq)
  exact hd

/-- Behind at least one character, it is enough to go forward. -/
theorem After.behind {r : Reader α} (hd : b < d) (hr : After d (fun _ e => d ≤ e) d r) :
    After b (fun _ e => b < e) d r :=
  fun _ a e h => hd.trans_le (hr (le_refl d) a e h)

/-- The rule for a second part that never stays where it is. -/
theorem After.bind_then_strict {r : Reader β} {f : β → Reader α} (hr : r.Forward)
    (hf : ∀ a, (f a).Strict) : After c (fun _ d => c < d) c (r >>= f) := by
  intro _ a e h
  obtain ⟨⟨x, d⟩, hx, hrest⟩ := Option.bind_eq_some_iff.mp h
  exact (hr.le hx).trans_lt ((hf x).lt hrest)

/-- The rule for a cursor that goes over one character at least. -/
theorem After.ahead_strict {f : PUnit → Reader α} (hd : c < d) (hf : (f ⟨⟩).Forward) :
    After c (fun _ e => c < e) c ((MonadStateOf.set d : Reader PUnit) >>= f) :=
  fun _ _ _ h => hd.trans_le (hf.le h)

/-- What is ensured may be weakened. -/
theorem After.mono {r : Reader α} {P : α → Cursor → Prop} (hr : After b P c r)
    (h : ∀ a d, P a d → Q a d) : After b Q c r :=
  fun hb a d heq => h a d (hr hb a d heq)

end Rules

/-! ## Readers that go forward

The primitive readers, for which nothing has to be followed.
-/

theorem forward_pure (a : α) : (pure a : Reader α).Forward := fun _ => .pure id

theorem forward_require (p : Bool) : (require p).Forward := by
  intro c hb a d h
  cases p with
  | true => exact forward_pure () c hb a d h
  | false => cases h

theorem forward_move {f : Cursor → Option Cursor} (hf : ∀ {c d}, f c = some d → c ≤ d) :
    (move f).Forward := fun _ => .move_last fun _ => hf

theorem Strict.forward {r : Reader α} (hr : r.Strict) : r.Forward :=
  fun _ _ _ _ h => (hr.lt h).le

theorem strict_move {f : Cursor → Option Cursor} (hf : ∀ {c d}, f c = some d → c < d) :
    (move f).Strict := by
  intro c _ a d h
  obtain ⟨e, he, heq⟩ := Option.map_eq_some_iff.mp h
  obtain ⟨-, rfl⟩ := Prod.mk.inj heq
  exact hf he

theorem strict_exactly {text : String} (h : text.toList ≠ []) : (exactly text).Strict :=
  strict_move fun hd => Cursor.lt_of_dropWord? hd h

theorem forward_exactly (text : String) : (exactly text).Forward :=
  forward_move Cursor.le_of_dropWord?

end Reader

end WasmEmbed.Script
