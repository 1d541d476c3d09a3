import WasmEmbed.Proofs.Script.Moved.Gap
import WasmEmbed.Proofs.Script.Reader

/-!
# Readers that read the same further back in a file

`Reader.Agrees k m f c r r'` says that `r'` reads, with `k` more bytes in front of `c`, what `r` reads at
`c`, with `f` telling what becomes of the result. That is asked only if fewer than `m` characters are left,
for the bounds of the two readers on nesting and on repetitions may differ. There is one rule for each way
in which readers are put together.
-/

namespace WasmEmbed.Script.Reader

open Cursor

variable {α β : Type} {k m p : Nat} {f : α → α} {g : β → β} {b c d : Cursor} {r r' s s' : Reader α}

/-- With `k` more bytes in front of it, `r'` reads what `r` reads, if fewer than `m` characters are left. -/
def Agrees (k m : Nat) (f : α → α) (c : Cursor) (r r' : Reader α) : Prop :=
  c.rest.length < m → r' (c.moved k) = (r c).map (Prod.map f (moved k)) ∧
    ∀ a d, r c = some (a, d) → d.rest.length < m

/-- The readers agree and have the same result. -/
abbrev Same (k m : Nat) (c : Cursor) (r r' : Reader α) : Prop := Agrees k m (fun a => a) c r r'

namespace Agrees

theorem pure_of {a a' : α} (h : a' = f a) : Agrees k m f c (pure a) (pure a') := by
  refine fun hc => ⟨by rw [h]; rfl, fun b d hread => ?_⟩
  cases hread
  exact hc

theorem pure {a : α} : Agrees k m f c (pure a) (pure (f a)) := .pure_of rfl

theorem refuse : Agrees k m f c refuse refuse := fun _ => ⟨rfl, nofun⟩

/-- That few enough characters are left may be used. -/
theorem given (h : c.rest.length < m → Agrees k m f c r r') : Agrees k m f c r r' := fun hc => h hc hc

/-- The rule for a second part that depends on what was read. -/
theorem bind_read {h : α → Reader β} {h' : α → Reader β} (hr : Agrees k m f c r r')
    (hh : ∀ a d, r c = some (a, d) → Agrees k m g d (h a) (h' (f a))) :
    Agrees k m g c (r >>= h) (r' >>= h') := by
  intro hc
  obtain ⟨heq, hbound⟩ := hr hc
  show (r' (c.moved k) >>= fun p => h' p.1 p.2) = (r c >>= fun p => h p.1 p.2).map _ ∧
    ∀ b e, (r c >>= fun p => h p.1 p.2) = some (b, e) → _
  rw [heq]
  cases hread : r c with
  | none => exact ⟨rfl, nofun⟩
  | some p => exact hh p.1 p.2 hread (hbound p.1 p.2 hread)

theorem bind {h : α → Reader β} {h' : α → Reader β} (hr : Agrees k m f c r r')
    (hh : ∀ a d, Agrees k m g d (h a) (h' (f a))) : Agrees k m g c (r >>= h) (r' >>= h') :=
  hr.bind_read fun a d _ => hh a d

/-- Where fewer characters are left, it is enough that the readers agree for so many. -/
theorem lower (hr : Agrees k p f c r r') (hp : p ≤ m) (hc : c.rest.length < m → c.rest.length < p) :
    Agrees k m f c r r' := by
  intro hm
  obtain ⟨heq, hbound⟩ := hr (hc hm)
  exact ⟨heq, fun a d h => Nat.lt_of_lt_of_le (hbound a d h) hp⟩

/-- What goes forward agrees for fewer characters as well. -/
theorem mono (hr : Agrees k m f c r r') (hforward : r.Forward) (hp : p ≤ m) : Agrees k p f c r r' := by
  intro hc
  obtain ⟨heq, -⟩ := hr (Nat.lt_of_lt_of_le hc hp)
  exact ⟨heq, fun a d h => Nat.lt_of_le_of_lt (length_le (hforward.le h)) hc⟩

/-- The rule for a first part that takes at least one character. -/
theorem bind_strict {h : α → Reader β} {h' : α → Reader β} (hr : Agrees k (p + 1) f c r r')
    (hstrict : ∀ a d, r c = some (a, d) → c < d) (hh : ∀ a d, Agrees k p g d (h a) (h' (f a))) :
    Agrees k (p + 1) g c (r >>= h) (r' >>= h') := by
  intro hc
  refine hr.bind_read (fun a d hread => (hh a d).lower (Nat.le_succ p) fun _ => ?_) hc
  have := length_lt (hstrict a d hread)
  omega

/-! ## Cursors -/

section Cursors

variable {h h' : PUnit → Reader α} {hu hu' : Unit → Reader α}

theorem get {h h' : Cursor → Reader α} (hh : c.rest.length < m → Agrees k m f c (h c) (h' (c.moved k))) :
    Agrees k m f c (MonadState.get >>= h) (MonadState.get >>= h') := fun hc => hh hc hc

theorem set (hd : d.rest.length < m) (hh : Agrees k m f d (h ⟨⟩) (h' ⟨⟩)) :
    Agrees k m f c (MonadStateOf.set d >>= h) (MonadStateOf.set (d.moved k) >>= h') := fun _ => hh hd

/-- The rule for a cursor further on than one that was looked at. -/
theorem ahead {e : Cursor} (hle : d ≤ e) (hd : d.rest.length < m) (hh : Agrees k m f e (h ⟨⟩) (h' ⟨⟩)) :
    Agrees k m f c (MonadStateOf.set e >>= h) (MonadStateOf.set (e.moved k) >>= h') :=
  .set (Nat.lt_of_le_of_lt (length_le hle) hd) hh

/-- The rule for a cursor behind at least one character: fewer are left. -/
theorem ahead_lower {e : Cursor} (hlt : d < e) (hd : d.rest.length < p + 1)
    (hh : Agrees k p f e (h ⟨⟩) (h' ⟨⟩)) :
    Agrees k (p + 1) f c (MonadStateOf.set e >>= h) (MonadStateOf.set (e.moved k) >>= h') := by
  have hshort := length_lt hlt
  exact .set (by omega) (hh.lower (Nat.le_succ p) fun _ => by omega)

theorem set_last (hd : d.rest.length < m) :
    Same k m c (MonadStateOf.set d) (MonadStateOf.set (d.moved k)) := by
  refine fun _ => ⟨rfl, fun a e h => ?_⟩
  cases h
  exact hd

theorem step (hd : d.rest.length < m) (hh : Agrees k m f d.step (h ⟨⟩) (h' ⟨⟩)) :
    Agrees k m f c (MonadStateOf.set d.step >>= h) (MonadStateOf.set (d.moved k).step >>= h') := by
  rw [step_moved]
  exact .ahead (le_step d) hd hh

theorem step_last (hd : d.rest.length < m) :
    Same k m c (MonadStateOf.set d.step) (MonadStateOf.set (d.moved k).step) := by
  rw [step_moved]
  exact .set_last (Nat.lt_of_le_of_lt (length_le (le_step d)) hd)

/-- The rule for a cursor that goes over a character that was looked at: fewer characters are left. -/
theorem step_lower {q : Char → Bool} (hd : d.rest.length < p + 1) (hnext : d.nextIs q = true)
    (hh : Agrees k p f d.step (h ⟨⟩) (h' ⟨⟩)) :
    Agrees k (p + 1) f c (MonadStateOf.set d.step >>= h) (MonadStateOf.set (d.moved k).step >>= h') := by
  have hshort := length_step_lt hnext
  rw [step_moved]
  exact .set (by omega) (hh.lower (Nat.le_succ p) fun _ => by omega)

theorem require {q : Bool} (hh : q = true → Agrees k m f c (hu ()) (hu' ())) :
    Agrees k m f c (Reader.require q >>= hu) (Reader.require q >>= hu') := by
  cases q with
  | true => exact hh rfl
  | false => exact .refuse

theorem require_last {q : Bool} : Same k m c (Reader.require q) (Reader.require q) := by
  cases q with
  | true => exact .pure
  | false => exact .refuse

theorem move {q q' : Cursor → Option Cursor} (hq : c.rest.length < m → q' (c.moved k) = (q c).map (moved k))
    (hle : ∀ d, q c = some d → c ≤ d) : Same k m c (Reader.move q) (Reader.move q') := by
  intro hc
  show (q' (c.moved k)).map (fun d => ((), d)) = ((q c).map fun d => ((), d)).map _ ∧ _
  rw [hq hc]
  cases hread : q c with
  | none => exact ⟨rfl, by simp [Reader.move, hread]⟩
  | some d =>
      refine ⟨rfl, fun a e h => ?_⟩
      rw [Reader.move, hread] at h
      cases h
      exact Nat.lt_of_le_of_lt (length_le (hle d hread)) hc

theorem exactly (text : String) : Same k m c (Reader.exactly text) (Reader.exactly text) :=
  .move (fun _ => dropWord?_moved _) fun _ => le_of_dropWord?

end Cursors

/-! ## Choices -/

theorem orElse (hr : Agrees k m f c r r') (hs : Agrees k m f c s s') :
    Agrees k m f c (r <|> s) (r' <|> s') := by
  intro hc
  obtain ⟨heq, hbound⟩ := hr hc
  obtain ⟨heq', hbound'⟩ := hs hc
  constructor
  · show (r' (c.moved k) <|> s' (c.moved k)) = (r c <|> s c).map _
    rw [heq, heq']
    cases r c <;> rfl
  · intro a d h
    rcases (Option.orElse_eq_some _ _ _).mp h with hfirst | ⟨-, hsecond⟩
    · exact hbound a d hfirst
    · exact hbound' a d hsecond

theorem ite {q : Prop} [Decidable q] (hr : q → Agrees k m f c r r') (hs : ¬q → Agrees k m f c s s') :
    Agrees k m f c (if q then r else s) (if q then r' else s') := by
  by_cases h : q
  · rw [if_pos h, if_pos h]
    exact hr h
  · rw [if_neg h, if_neg h]
    exact hs h

/-! ## Repetitions -/

/-- Repetitions agree if one more of them agrees where one more character is left. Then their bounds do not
matter if they are not less than the number of characters. -/
theorem loop_with {σ : Type} {go go' : σ → Nat → Reader α}
    (hstep : ∀ q, q < m → ∀ i i', (∀ t d, Agrees k q f d (go t i) (go' t i')) →
      ∀ t d, Agrees k (q + 1) f d (go t (i + 1)) (go' t (i' + 1)))
    {j j' : Nat} (hj : m ≤ j) (hj' : m ≤ j') (t : σ) (c : Cursor) : Agrees k m f c (go t j) (go' t j') := by
  induction m generalizing j j' t c with
  | zero => exact nofun
  | succ q ih =>
      obtain _ | j := j
      · cases hj
      obtain _ | j' := j'
      · cases hj'
      refine hstep q (Nat.lt_succ_self q) j j' (fun t d => ?_) t c
      exact ih (fun p hp => hstep p (Nat.lt_succ_of_lt hp)) (Nat.le_of_succ_le_succ hj)
        (Nat.le_of_succ_le_succ hj') t d

theorem loop {go go' : Nat → Reader α}
    (hstep : ∀ q, q < m → ∀ i i', (∀ d, Agrees k q f d (go i) (go' i')) →
      ∀ d, Agrees k (q + 1) f d (go (i + 1)) (go' (i' + 1)))
    {j j' : Nat} (hj : m ≤ j) (hj' : m ≤ j') (c : Cursor) : Agrees k m f c (go j) (go' j') :=
  @loop_with α k m f Unit (fun _ => go) (fun _ => go')
    (fun q hq i i' ih _ => hstep q hq i i' fun d => ih () d) j j' hj hj' () c

end Agrees

end WasmEmbed.Script.Reader
