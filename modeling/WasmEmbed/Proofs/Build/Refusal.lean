import WasmEmbed.Proofs.Build.Heard
import WasmEmbed.Proofs.Build.Inputs

/-!
# Builds that are refused

A build is refused because of its settings or its inputs. Three checks decide about that (`Refuses`), and
they come before anything is changed. Nothing that is done later fails for such a reason (`Composed.embed`),
so the failure alone tells that the store is as it was (`refused_before_writing`).
-/

namespace WasmEmbed

namespace Build

open Store

variable {α β ε : Type} {cwd : Location} {s : Store} {c : Config} {e : Failure}

/-! ## What a build is refused for -/

/-- The settings are wrong, or else the payload, or else the binding. -/
inductive Refuses (c : Config) (cwd : Location) (s : Store) : Failure → Prop
  | config {e : ConfigError} (h : c.check = .error e) : Refuses c cwd s (.config e)
  | payload {e : InputError} (hcheck : c.check = .ok ()) (h : IsFault cwd s .payload c.payload e) :
      Refuses c cwd s (.input e)
  | binding {e : InputError} (hcheck : c.check = .ok ()) (hpayload : s.isFile cwd c.payload = true)
      (h : IsFault cwd s .binding c.binding e) : Refuses c cwd s (.input e)

theorem Refuses.isRefusal (h : Refuses c cwd s e) : e.IsRefusal := by
  cases h with
  | config h => exact .config _
  | payload hcheck h => exact .input _
  | binding hcheck hpayload h => exact .input _

theorem Refuses.ends_checks (h : Refuses c cwd s e) : Ends (checks c) cwd s (.error e) [] := by
  rw [checks]
  cases h with
  | config h =>
      rw [h]
      exact (Ends.require_error _ _).bind_error
  | payload hcheck h =>
      rw [hcheck]
      exact (Ends.require_ok _ _).then h.ends.bind_error
  | binding hcheck hpayload h =>
      rw [hcheck]
      exact (Ends.require_ok _ _).then ((ends_requireInput _ hpayload).then h.ends)

/-- A build that is refused has changed nothing. -/
theorem Refuses.ends (h : Refuses c cwd s e) : Ends (bundle c) cwd s (.error e) [] := by
  rw [bundle_eq_checks]
  exact h.ends_checks.bind_error

theorem refuses_or_ends_checks (c : Config) (cwd : Location) (s : Store) :
    (∃ e, Refuses c cwd s e) ∨ Ends (checks c) cwd s (.ok ()) [] := by
  cases hcheck : c.check with
  | error e => exact Or.inl ⟨_, .config hcheck⟩
  | ok u =>
      cases hpayload : s.isFile cwd c.payload with
      | false =>
          obtain ⟨e, he⟩ := exists_isFault .payload hpayload
          exact Or.inl ⟨_, .payload hcheck he⟩
      | true =>
          cases hbinding : s.isFile cwd c.binding with
          | false =>
              obtain ⟨e, he⟩ := exists_isFault .binding hbinding
              exact Or.inl ⟨_, .binding hcheck hpayload he⟩
          | true =>
              rw [checks, hcheck]
              exact Or.inr ((Ends.require_ok _ _).then
                ((ends_requireInput _ hpayload).then (ends_requireInput _ hbinding)))

/-! ## Steps that refuse nothing -/

/-- What refuses nothing by itself refuses nothing either after something that returns. -/
theorem not_isRefusal_of_composed {b : Build α} {f : α → Build β} {a : α} {changes : List Change}
    (hf : Composed (fun e => ¬ e.IsRefusal) (f a)) (h : Ends b cwd s (.ok a) changes)
    (he : (run (b >>= f) cwd s).result = .error e) : ¬ e.IsRefusal := by
  obtain ⟨done, hrun, -⟩ := h.run_eq Level.debug.number []
  refine hf.fails_of_error cwd ⟨s.replay changes, done ++ [], Level.debug.number⟩ ?_
  rw [run, runAt] at he
  simp only [ReaderT.run_bind, ExceptT.run_bind, StateT.run_bind, hrun] at he
  exact he

/-! ## Builds and command lines -/

/-- A build fails because of its settings or its inputs exactly for what it is refused for. -/
theorem result_bundle_iff : (run (bundle c) cwd s).result = .error e ∧ e.IsRefusal ↔ Refuses c cwd s e := by
  constructor
  · rintro ⟨hresult, hrefusal⟩
    rcases refuses_or_ends_checks c cwd s with ⟨e', he'⟩ | hchecks
    · rw [he'.ends.outcome.1] at hresult
      rwa [← Except.error.inj hresult]
    · -- The checks were passed, and what comes behind them fails for other reasons.
      rw [bundle_eq_checks] at hresult
      have hembed : Composed (fun e => ¬ e.IsRefusal) (embed c) := .embed (fun _ h => h) c
      exact absurd hrefusal (not_isRefusal_of_composed (f := fun _ => embed c) hembed hchecks hresult)
  · exact fun h => ⟨h.ends.outcome.1, h.isRefusal⟩

theorem ends_of_isRefusal (h : (run (bundle c) cwd s).result = .error e) (he : e.IsRefusal) :
    Ends (bundle c) cwd s (.error e) [] := (result_bundle_iff.mp ⟨h, he⟩).ends

/-- What an invocation does is to build with its config, if it has one. -/
theorem run_build (i : CommandLine.Invocation) (cwd : Location) (s : Store) :
    run i.build cwd s = run (Build.require .config (i.request.resolve ⟨.root, cwd⟩) >>= bundle) cwd s := rfl

/-- An invocation that is refused has changed nothing. -/
theorem outcome_build_of_isRefusal {i : CommandLine.Invocation} (h : (run i.build cwd s).result = .error e)
    (he : e.IsRefusal) : (run i.build cwd s).store = s ∧ (run i.build cwd s).journal.changes = [] := by
  rw [run_build] at h ⊢
  cases hresolve : i.request.resolve ⟨.root, cwd⟩ with
  | error cause =>
      have hends : Ends (Build.require .config (Except.error cause : Except ConfigError Config) >>=
          bundle) cwd s
          (.error (.config cause)) [] := (Ends.require_error _ _).bind_error
      exact ⟨hends.outcome.2.2, hends.outcome.2.1⟩
  | ok c =>
      rw [hresolve] at h
      rw [require, pure_bind] at h ⊢
      have hends := ends_of_isRefusal h he
      exact ⟨hends.outcome.2.2, hends.outcome.2.1⟩

theorem outcome_run_of_stop {words : List (List Char)} {stop : CommandLine.Stop}
    (h : CommandLine.parse words = .error stop) :
    (CommandLine.run words cwd s).store = s ∧ (CommandLine.run words cwd s).journal.changes = [] := by
  rw [CommandLine.run, h]
  cases stop with
  | help scope => exact ⟨rfl, rfl⟩
  | usage scope e => exact ⟨rfl, rfl⟩

theorem outcome_run_of_isRefusal {words : List (List Char)}
    (h : (CommandLine.run words cwd s).ending = .error e)
    (he : e.IsRefusal) :
    (CommandLine.run words cwd s).store = s ∧ (CommandLine.run words cwd s).journal.changes = [] := by
  cases hparse : CommandLine.parse words with
  | error stop => exact outcome_run_of_stop hparse
  | ok i =>
      obtain ⟨hsame, hstore, hchanges⟩ :=
        i.composed_build.outcome_runAt i.level.number Level.debug.number cwd s
      rw [CommandLine.run, hparse] at h ⊢
      dsimp only at h ⊢
      rw [hsame] at h
      rw [hstore, hchanges]
      refine outcome_build_of_isRefusal ?_ he
      rw [run]
      cases hresult : (runAt Level.debug.number i.build cwd s).result with
      | ok result =>
          rw [hresult] at h
          cases h
      | error e' =>
          rw [hresult] at h
          exact congrArg Except.error (Except.error.inj h)

/-- A build that is refused leaves the store as it is, and so does a command line that leads to no build or
to one that is refused. A build is refused exactly if something is wrong with its settings, its payload or
its binding, and for the first of these. -/
theorem refused_before_writing (c : Config) (words : List (List Char)) (cwd : Location) (s : Store) :
    (∀ e, (run (bundle c) cwd s).result = .error e ∧ e.IsRefusal ↔ Refuses c cwd s e) ∧
    (∀ e, (run (bundle c) cwd s).result = .error e → e.IsRefusal →
      (run (bundle c) cwd s).store = s ∧ (run (bundle c) cwd s).journal.changes = []) ∧
    ((∃ stop, CommandLine.parse words = .error stop) ∨
        (∃ e, (CommandLine.run words cwd s).ending = .error e ∧ e.IsRefusal) →
      (CommandLine.run words cwd s).store = s ∧ (CommandLine.run words cwd s).journal.changes = []) := by
  refine ⟨fun e => result_bundle_iff, fun e h he => ?_, ?_⟩
  · have hends := ends_of_isRefusal h he
    exact ⟨hends.outcome.2.2, hends.outcome.2.1⟩
  · rintro (⟨stop, hstop⟩ | ⟨e, hending, he⟩)
    · exact outcome_run_of_stop hstop
    · exact outcome_run_of_isRefusal hending he

/-- A payload, and a directory in the place of the binding. -/
def Sample.misplaced : Store := ⟨[(["p".toList], .file [0]), (["b.js".toList], .directory)]⟩

/-- A build is refused for its binding, and a command line for a switch without a value. -/
theorem refused_before_writing_misplaced :
    (run (bundle (Sample.config "p" "b.js" "w")) [] Sample.misplaced).result =
      .error (.input (.notAFile .binding (.ofText "b.js".toList))) ∧
    (run (bundle (Sample.config "p" "b.js" "w")) [] Sample.misplaced).store = Sample.misplaced ∧
    (CommandLine.run ["bundle".toList, "--pay".toList] [] Sample.misplaced).store = Sample.misplaced := by
  have hrefuses : Refuses (Sample.config "p" "b.js" "w") [] Sample.misplaced
      (.input (.notAFile .binding (.ofText "b.js".toList))) :=
    .binding (by decide) (by decide) (.notAFile (by decide) (by decide))
  obtain ⟨hresult, hstore, hcommand⟩ := refused_before_writing (Sample.config "p" "b.js" "w")
    ["bundle".toList, "--pay".toList] [] Sample.misplaced
  have hfails := ((hresult _).mpr hrefuses).1
  exact ⟨hfails, (hstore _ hfails hrefuses.isRefusal).1, (hcommand (Or.inl ⟨_, rfl⟩)).1⟩

end Build

end WasmEmbed
