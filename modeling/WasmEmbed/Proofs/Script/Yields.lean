import WasmEmbed.Proofs.Script.Reader

/-!
# What a reader yields

`Reader.Yields r c P u` says that `r` does read something from `c`, that what it reads satisfies `P`, and
that it leaves the text `u`. Where the cursor then stands in bytes is left open. As for `Reader.After`,
there is one rule for each way in which readers are put together; where `After` says what is known if
something was read, `Yields` says that it is read.

That a reader yields something cannot be shown by a rule for all cursors, since it depends on the
characters that come. So the rules of the first section compute one step each, and those of the second
leave out the offset, which no later part asks about.
-/

namespace WasmEmbed.Script.Reader

variable {α β : Type}

/-! ## What is read, step by step

Equations for a `do` block whose first part has a known answer.
-/

section Run

variable {c d : Cursor}

theorem run_bind {r : Reader β} {f : β → Reader α} {b : β} (h : r c = some (b, d)) :
    (r >>= f) c = f b d := by
  show Option.bind (r c) _ = _
  rw [h]
  rfl

theorem run_get {f : Cursor → Reader α} : ((MonadState.get : Reader Cursor) >>= f) c = f c c := rfl

theorem run_set {f : PUnit → Reader α} : ((MonadStateOf.set d : Reader PUnit) >>= f) c = f ⟨⟩ d := rfl

theorem run_require {p : Bool} {f : Unit → Reader α} (h : p = true) :
    (require p >>= f) c = f () c := by
  subst h
  rfl

theorem run_move {f : Cursor → Option Cursor} {g : Unit → Reader α} (h : f c = some d) :
    (move f >>= g) c = g () d := by
  refine run_bind ?_
  show Option.map _ (f c) = _
  rw [h]
  rfl

theorem run_look {n : Nested} {follow : Follow} {gap : Gap} {f : Gap → Reader α}
    (h : Gap.find follow n.depth c = gap) : (n.look follow >>= f) c = f gap c := by
  subst h
  rfl

end Run

/-! ## What is read, up to the bytes

The offset behind a part is some number. The rules quantify over it where a part is followed by another
one.
-/

/-- From `c`, `r` reads something that satisfies `P`, and it leaves `u`. -/
def Yields (r : Reader α) (c : Cursor) (P : α → Prop) (u : List Char) : Prop :=
  ∃ a o, r c = some (a, ⟨o, u⟩) ∧ P a

namespace Yields

variable {c d : Cursor} {o : Nat} {P : α → Prop} {t u : List Char}

/-- The rule for two parts one after the other, the second of which is read at any offset. -/
theorem bind {r : Reader β} {f : β → Reader α} {Q : β → Prop} (hr : Yields r c Q t)
    (hf : ∀ b o, Q b → Yields (f b) ⟨o, t⟩ P u) : Yields (r >>= f) c P u := by
  obtain ⟨b, o, hb, hQ⟩ := hr
  obtain ⟨a, o', ha, hP⟩ := hf b o hQ
  exact ⟨a, o', Option.bind_eq_some_iff.mpr ⟨(b, ⟨o, t⟩), hb, ha⟩, hP⟩

/-- The rule for a first part of which it does not matter what it reads. -/
theorem seq {r : Reader β} {f : β → Reader α} {Q : β → Prop} (hr : Yields r c Q t)
    (hf : ∀ b o, Yields (f b) ⟨o, t⟩ P u) : Yields (r >>= f) c P u :=
  hr.bind fun b o _ => hf b o

/-- The rule for a first part that reads one thing. -/
theorem bind_eq {r : Reader β} {f : β → Reader α} {b : β} (hr : r c = some (b, d))
    (hf : Yields (f b) d P u) : Yields (r >>= f) c P u := by
  obtain ⟨a, o, ha, hP⟩ := hf
  exact ⟨a, o, (run_bind hr).trans ha, hP⟩

/-- A reader whose answer is known. -/
theorem of_eq {r : Reader α} {a : α} (h : r c = some (a, ⟨o, u⟩)) (hP : P a) : Yields r c P u :=
  ⟨a, o, h, hP⟩

theorem pure {a : α} (h : P a) : Yields (Pure.pure a) ⟨o, u⟩ P u := of_eq rfl h

/-- What is read may be weakened. -/
theorem mono {r : Reader α} {Q : α → Prop} (hr : Yields r c Q u) (h : ∀ a, Q a → P a) :
    Yields r c P u := by
  obtain ⟨a, o, ha, hQ⟩ := hr
  exact ⟨a, o, ha, h a hQ⟩

theorem get {f : Cursor → Reader α} (h : Yields (f c) c P u) :
    Yields ((MonadState.get : Reader Cursor) >>= f) c P u := h

theorem set {f : PUnit → Reader α} (h : Yields (f ⟨⟩) d P u) :
    Yields ((MonadStateOf.set d : Reader PUnit) >>= f) c P u := h

/-- The rule for a look at the gap, whose cursor is known. -/
theorem look {n : Nested} {follow : Follow} {gap : Gap} {f : Gap → Reader α}
    (hgap : Gap.find follow n.depth c = gap) (h : Yields (f gap) c P u) :
    Yields (n.look follow >>= f) c P u := by
  subst hgap
  exact h

theorem require {p : Bool} {f : Unit → Reader α} (hp : p = true) (h : Yields (f ()) c P u) :
    Yields (Reader.require p >>= f) c P u := by
  subst hp
  exact h

/-- A condition as the last part. -/
theorem require_last {p : Bool} {P : Unit → Prop} (hp : p = true) (h : P ()) :
    Yields (Reader.require p) ⟨o, u⟩ P u := by
  subst hp
  exact pure h

end Yields

end WasmEmbed.Script.Reader
