import WasmEmbed.CommandLine.Run
import WasmEmbed.Proofs.Build.Steps

/-!
# What is heard of a build

Whoever listens to a build chooses the least level that is heard. The choice does nothing to the build: it
ends with the same result and leaves the same store, and what it does and tells in between is the same but for
the notices that are not heard (`Composed.isMuted`).
-/

namespace WasmEmbed

/-! ## Muted journals -/

/-- Whether an event stays in a journal where `least` is the least level that is heard. -/
def Event.isKept (least : Int) : Event → Bool
  | .change _ => true
  | .notice n => n.level.isHeard least

namespace Journal

variable {least : Int}

/-- A journal without the notices that are not heard. -/
def muted (least : Int) (j : Journal) : Journal := j.filter (Event.isKept least)

theorem muted_append (i j : Journal) : muted least (i ++ j) = muted least i ++ muted least j :=
  List.filter_append i j

theorem muted_reverse (j : Journal) : muted least j.reverse = (muted least j).reverse := List.filter_reverse

/-- Muting leaves all changes. -/
theorem changes_muted (j : Journal) : (muted least j).changes = j.changes := by
  induction j with
  | nil => rfl
  | cons e j ih => cases e with
    | change c => exact congrArg (c :: ·) ih
    | notice n =>
        rw [muted, List.filter_cons]
        split
        · exact ih
        · exact ih

/-- Muting leaves the notices that are heard. -/
theorem notices_muted (j : Journal) : (muted least j).notices = j.heard least := by
  induction j with
  | nil => rfl
  | cons e j ih => cases e with
    | change c => exact ih
    | notice n =>
        have hcons : heard least (.notice n :: j) = (n :: notices j).filter fun n =>
            n.level.isHeard least := rfl
        rw [hcons, muted, List.filter_cons, List.filter_cons, Event.isKept]
        cases n.level.isHeard least with
        | true => exact congrArg (n :: ·) ih
        | false => exact ih

end Journal

/-- Two outcomes are those of one build that is heard from `least` on the second time, and was heard further
down the first time. -/
structure Outcome.IsMuted {α : Type} (least : Int) (o o' : Outcome α) : Prop where
  result_eq : o'.result = o.result
  store_eq : o'.store = o.store
  journal_eq : o'.journal = o.journal.muted least

namespace Build

variable {α : Type} {fails : Failure → Prop} {b : Build α}

/-- A composed build does and tells the same whatever is heard. -/
theorem Composed.exists_told (h : Composed fails b) (cwd : Location) (s : Store) :
    ∃ r s' told, ∀ least events, (ReaderT.run b cwd).run.run ⟨s, events, least⟩ =
      (r, ⟨s', Journal.muted least told ++ events, least⟩) := by
  induction h generalizing s with
  | pure a => exact ⟨.ok a, s, [], fun _ _ => rfl⟩
  | fail h => exact ⟨.error _, s, [], fun _ _ => rfl⟩
  | bind h hf ih ihf =>
      -- What the second part does depends on the store that the first one left, not on what was heard.
      obtain ⟨r, s', told, hrun⟩ := ih s
      cases r with
      | error e =>
          refine ⟨.error e, s', told, fun least events => ?_⟩
          simp only [ReaderT.run_bind, ExceptT.run_bind, StateT.run_bind, hrun]
          rfl
      | ok a =>
          obtain ⟨r', s'', told', hrun'⟩ := ihf a s'
          refine ⟨r', s'', told' ++ told, fun least events => ?_⟩
          simp only [ReaderT.run_bind, ExceptT.run_bind, StateT.run_bind, hrun]
          rw [Journal.muted_append, List.append_assoc]
          exact hrun' least _
  | change c => exact ⟨.ok (), c.apply s, [.change c], fun _ _ => rfl⟩
  | tell n =>
      refine ⟨.ok (), s, [.notice n], fun least events => ?_⟩
      rw [run_tell]
      cases hheard : n.level.isHeard least with
      | true => simp [Journal.muted, Event.isKept, hheard]
      | false => simp [Journal.muted, Event.isKept, hheard]
  | detail n h =>
      refine ⟨.ok (), s, [.notice n], fun least events => ?_⟩
      rw [run_detail, run_tell, h]
      cases hheard : Level.debug.isHeard least with
      | true => simp [Journal.muted, Event.isKept, h, hheard]
      | false => simp [Journal.muted, Event.isKept, h, hheard]
  | store => exact ⟨.ok s, s, [], fun _ _ => rfl⟩
  | read => exact ⟨.ok cwd, s, [], fun _ _ => rfl⟩

/-- The outcomes of a composed build for all levels come from one journal. -/
theorem Composed.exists_runAt (h : Composed fails b) (cwd : Location) (s : Store) :
    ∃ r s' journal, ∀ least, runAt least b cwd s = ⟨r, Journal.muted least journal, s'⟩ := by
  obtain ⟨r, s', told, hrun⟩ := h.exists_told cwd s
  refine ⟨r, s', told.reverse, fun least => ?_⟩
  rw [runAt, hrun, List.append_nil, Journal.muted_reverse]

/-- What a composed build does is the same for all levels. -/
theorem Composed.outcome_runAt (h : Composed fails b) (least least' : Int) (cwd : Location) (s : Store) :
    (runAt least b cwd s).result = (runAt least' b cwd s).result ∧
    (runAt least b cwd s).store = (runAt least' b cwd s).store ∧
    (runAt least b cwd s).journal.changes = (runAt least' b cwd s).journal.changes := by
  obtain ⟨r, s', journal, hrun⟩ := h.exists_runAt cwd s
  rw [hrun, hrun]
  exact ⟨rfl, rfl, (Journal.changes_muted _).trans (Journal.changes_muted _).symm⟩

end Build

/-- An invocation builds with its config, if it has one. -/
theorem CommandLine.Invocation.composed_build (i : Invocation) : Build.Composed (fun _ => True) i.build := by
  rw [build]
  exact .bind .read fun cwd => .bind (.require (fun _ => trivial) _) fun config => .bundle config

end WasmEmbed
