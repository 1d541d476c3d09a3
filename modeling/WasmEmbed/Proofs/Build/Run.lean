import WasmEmbed.Build.Basic
import WasmEmbed.Proofs.Store.Change

/-!
# How builds end

`Ends b cwd s r changes` says how a build ends that is run in the directory `cwd` of a store: with the
result `r`, after these changes, each of which was allowed, whatever was noted before and whatever is heard.
There is one rule for each way to put builds together, and one lemma for each step that touches files.

Notices do not concern the store, so the rules leave them out: `Ends` quantifies over the events that were
there before. What remains of a build is the list of its changes, and the store behind it is the old one
with these changes.
-/

namespace WasmEmbed

namespace Journal

/-- The changes of two journals, one behind the other. -/
theorem changes_append (i j : Journal) : changes (i ++ j) = changes i ++ changes j :=
  List.filterMap_append

end Journal

namespace Build

open Store

variable {α β ε : Type} {cwd : Location} {s : Store}

/-- How a build ends: with this result and after these changes. -/
structure Ends (b : Build α) (cwd : Location) (s : Store) (r : Except Failure α)
    (changes : List Change) : Prop where
  run_eq : ∀ least events, ∃ done, (ReaderT.run b cwd).run.run ⟨s, events, least⟩ =
    (r, ⟨s.replay changes, done ++ events, least⟩) ∧ Journal.changes done.reverse = changes
  allows : s.Allows changes

/-! ## What is told

A notice is an event if its level is heard. That is the only place where a build depends on what is heard.
-/

/-- A notice is kept if its level is heard and forgotten otherwise. -/
theorem run_tell (n : Notice) (cwd : Location) (p : Progress) : (ReaderT.run (tell n) cwd).run.run p =
    (.ok (), if n.level.isHeard p.least then { p with events := .notice n :: p.events } else p) := rfl

/-- A detail is told like anything else, if details are heard. -/
theorem run_detail (n : Notice) (cwd : Location) (p : Progress) : (ReaderT.run (detail n) cwd).run.run p =
    if Level.debug.isHeard p.least then (ReaderT.run (tell n) cwd).run.run p else (.ok (), p) := by
  show (ReaderT.run (if Level.debug.isHeard p.least then tell n else Pure.pure ()) cwd).run.run p = _
  split
  · rfl
  · rfl

/-! ## Rules

The rules follow the `do` blocks of the builds. The second part of a bind is run on the store behind the
first part.
-/

/-- The outcome of a build is told by how it ends, whatever is heard. -/
theorem Ends.outcomeAt {b : Build α} {r : Except Failure α} {changes : List Change}
    (h : Ends b cwd s r changes) (least : Int) : (runAt least b cwd s).result = r ∧
      (runAt least b cwd s).journal.changes = changes ∧ (runAt least b cwd s).store = s.replay changes := by
  obtain ⟨done, hrun, hchanges⟩ := h.run_eq least []
  rw [runAt, hrun]
  exact ⟨rfl, by rw [List.append_nil]; exact hchanges, rfl⟩

/-- The outcome of a build is told by how it ends. -/
theorem Ends.outcome {b : Build α} {r : Except Failure α} {changes : List Change}
    (h : Ends b cwd s r changes) : (run b cwd s).result = r ∧
      (run b cwd s).journal.changes = changes ∧ (run b cwd s).store = s.replay changes :=
  h.outcomeAt _

/-- The rule for two parts one after the other, the second of which sees the changes of the first. -/
theorem Ends.bind {b : Build α} {f : α → Build β} {a : α} {r : Except Failure β}
    {front back : List Change} (h : Ends b cwd s (.ok a) front)
    (hf : Ends (f a) cwd (s.replay front) r back) : Ends (b >>= f) cwd s r (front ++ back) := by
  refine ⟨fun least events => ?_, allows_append.mpr ⟨h.allows, hf.allows⟩⟩
  obtain ⟨done, hrun, hchanges⟩ := h.run_eq least events
  obtain ⟨done', hrun', hchanges'⟩ := hf.run_eq least (done ++ events)
  refine ⟨done' ++ done, ?_, ?_⟩
  · simp only [ReaderT.run_bind, ExceptT.run_bind, StateT.run_bind, hrun]
    rw [replay_append, List.append_assoc]
    exact hrun'
  · rw [List.reverse_append, Journal.changes_append, hchanges, hchanges']

/-- A part that fails is the last one. -/
theorem Ends.bind_error {b : Build α} {f : α → Build β} {e : Failure} {changes : List Change}
    (h : Ends b cwd s (.error e) changes) : Ends (b >>= f) cwd s (.error e) changes := by
  refine ⟨fun least events => ?_, h.allows⟩
  obtain ⟨done, hrun, hchanges⟩ := h.run_eq least events
  refine ⟨done, ?_, hchanges⟩
  simp only [ReaderT.run_bind, ExceptT.run_bind, StateT.run_bind, hrun]
  rfl

theorem Ends.pure (a : α) : Ends (Pure.pure a) cwd s (.ok a) [] :=
  ⟨fun _ _ => ⟨[], rfl, rfl⟩, trivial⟩

theorem Ends.fail (f : Failure) : Ends (Build.fail f : Build α) cwd s (.error f) [] :=
  ⟨fun _ _ => ⟨[], rfl, rfl⟩, trivial⟩

theorem Ends.require_ok (f : ε → Failure) (a : α) : Ends (require f (.ok a)) cwd s (.ok a) [] :=
  Ends.pure a

theorem Ends.require_error (f : ε → Failure) (e : ε) :
    Ends (require f (.error e) : Build α) cwd s (.error (f e)) [] := Ends.fail (f e)

/-- A change that is allowed. -/
theorem Ends.change {c : Change} (h : c.IsAllowed s) : Ends (Build.change c) cwd s (.ok ()) [c] :=
  ⟨fun _ _ => ⟨[.change c], rfl, rfl⟩, h, trivial⟩

theorem Ends.tell (n : Notice) : Ends (Build.tell n) cwd s (.ok ()) [] := by
  refine ⟨fun least events => ?_, trivial⟩
  rw [run_tell]
  cases n.level.isHeard least with
  | true => exact ⟨[.notice n], rfl, rfl⟩
  | false => exact ⟨[], rfl, rfl⟩

theorem Ends.detail (n : Notice) : Ends (Build.detail n) cwd s (.ok ()) [] := by
  refine ⟨fun least events => ?_, trivial⟩
  rw [run_detail]
  cases Level.debug.isHeard least with
  | true => exact (Ends.tell n).run_eq least events
  | false => exact ⟨[], rfl, rfl⟩

theorem Ends.store : Ends Build.store cwd s (.ok s) [] := ⟨fun _ _ => ⟨[], rfl, rfl⟩, trivial⟩

theorem Ends.read : Ends (read : Build Location) cwd s (.ok cwd) [] :=
  ⟨fun _ _ => ⟨[], rfl, rfl⟩, trivial⟩

/-- A build goes on after a step that changes nothing. -/
theorem Ends.then {b : Build α} {f : α → Build β} {a : α} {r : Except Failure β} {changes : List Change}
    (h : Ends b cwd s (.ok a) []) (hf : Ends (f a) cwd s r changes) : Ends (b >>= f) cwd s r changes :=
  h.bind hf

/-! ## Files and directories

For each step there is one lemma for each way in which it can end. The hypotheses say what stands at the
place.
-/

variable {path : Path} {l : Location}

/-- A path is followed without a change. -/
theorem Ends.locate (h : s.locate cwd path = .ok l) : Ends (Build.locate path) cwd s (.ok l) [] := by
  rw [Build.locate]
  refine Ends.store.then (Ends.read.then ?_)
  rw [h]
  exact Ends.pure l

/-- A file is written where no directory stands. -/
theorem Ends.writeFile (h : s.locate cwd path = .ok l) (hl : s.get? l ≠ some .directory)
    (content : List UInt8) : Ends (Build.writeFile path content) cwd s (.ok ()) [.write l content] := by
  rw [Build.writeFile]
  refine (Ends.locate h).then (Ends.store.then ?_)
  split
  · next hdir => exact absurd hdir hl
  · exact Ends.change hl

/-- No file is written over a directory. -/
theorem Ends.writeFile_directory (h : s.locate cwd path = .ok l) (hl : s.get? l = some .directory)
    (content : List UInt8) :
    Ends (Build.writeFile path content) cwd s (.error (.path ⟨.isDirectory, path⟩)) [] := by
  rw [Build.writeFile]
  refine (Ends.locate h).then (Ends.store.then ?_)
  rw [hl]
  exact Ends.fail _

/-- What is read is the content of the file. -/
theorem Ends.readFile {content : List UInt8} (h : s.locate cwd path = .ok l)
    (hl : s.get? l = some (.file content)) : Ends (Build.readFile path) cwd s (.ok content) [] := by
  rw [Build.readFile]
  refine (Ends.locate h).then (Ends.store.then ?_)
  rw [hl]
  exact Ends.pure content

/-- Reading answers nothing but the content of a file. -/
theorem exists_ends_readFile (h : s.locate cwd path = .ok l) :
    ∃ r, Ends (Build.readFile path) cwd s r [] ∧
      ∀ content, r = .ok content → s.get? l = some (.file content) := by
  cases hl : s.get? l with
  | none =>
      refine ⟨.error (.path ⟨.missing, path⟩), ?_, by simp⟩
      rw [Build.readFile]
      refine (Ends.locate h).then (Ends.store.then ?_)
      rw [hl]
      exact Ends.fail _
  | some e => cases e with
    | directory =>
        refine ⟨.error (.path ⟨.isDirectory, path⟩), ?_, by simp⟩
        rw [Build.readFile]
        refine (Ends.locate h).then (Ends.store.then ?_)
        rw [hl]
        exact Ends.fail _
    | file content => exact ⟨.ok content, Ends.readFile h hl, fun _ h => by rw [Except.ok.inj h]⟩

/-- A file is removed where one stands. -/
theorem Ends.removeFile {content : List UInt8} (h : s.locate cwd path = .ok l)
    (hl : s.get? l = some (.file content)) : Ends (Build.removeFile path) cwd s (.ok ()) [.remove l] := by
  rw [Build.removeFile]
  refine (Ends.locate h).then (Ends.store.then ?_)
  rw [hl]
  exact Ends.change ⟨content, hl⟩

/-- The names in a directory are listed. -/
theorem Ends.listDirectory (h : s.locate cwd path = .ok l) (hl : s.get? l = some .directory) :
    Ends (Build.listDirectory path) cwd s (.ok (s.names l)) [] := by
  rw [Build.listDirectory]
  refine (Ends.locate h).then (Ends.store.then ?_)
  rw [hl]
  exact Ends.pure _

/-! ## Making directories

A build that makes directories is followed without knowing which of them are there. `Makes` says that it
changes nothing but places where nothing stood, and that the path leads to a directory where it has
succeeded.
-/

/-- A path leads to a directory. -/
def Opens (s : Store) (cwd : Location) (path : Path) : Prop :=
  ∃ l, s.locate cwd path = .ok l ∧ s.get? l = some .directory

/-- Directories are made, and nothing else is done. -/
def OnlyMakes (changes : List Change) : Prop := ∀ c ∈ changes, ∃ l, c = .makeDirectory l

/-- Both parts of a list of changes make directories only, if the list does. -/
theorem onlyMakes_append {front back : List Change} :
    OnlyMakes (front ++ back) ↔ OnlyMakes front ∧ OnlyMakes back := by
  simp only [OnlyMakes, List.mem_append, or_imp, forall_and]

/-- Whatever was there before directories are made is there afterwards. -/
theorem OnlyMakes.get?_replay {changes : List Change} (h : OnlyMakes changes) (hallows : s.Allows changes)
    {e : Entry} (he : s.get? l = some e) : (s.replay changes).get? l = some e := by
  induction changes generalizing s with
  | nil => exact he
  | cons c changes ih =>
      obtain ⟨hc, hrest⟩ := hallows
      obtain ⟨place, rfl⟩ := h c (by simp)
      refine ih (fun d hd => h d (by simp [hd])) hrest ?_
      rw [get?_apply hc, if_neg, he]
      rintro rfl
      exact absurd (hc.symm.trans he) (by simp)

/-- A build makes directories and does nothing else. Where it has an answer as it should be, a path leads
to a directory. -/
def Makes (b : Build α) (cwd : Location) (path : Path) (isMade : α → Prop) (s : Store) : Prop :=
  ∃ r made, Ends b cwd s r made ∧ OnlyMakes made ∧
    ∀ a, r = .ok a → isMade a → Opens (s.replay made) cwd path

variable {isMade : α → Prop} {isMade' : β → Prop}

theorem Makes.of_ends {b : Build α} {r : Except Failure α} (h : Ends b cwd s r [])
    (hopen : ∀ a, r = .ok a → isMade a → Opens s cwd path) : Makes b cwd path isMade s :=
  ⟨r, [], h, by simp [OnlyMakes], hopen⟩

/-- The rule for two parts, the second of which is followed on any store behind the first. -/
theorem Makes.bind {b : Build α} {f : α → Build β} {path' : Path} (h : Makes b cwd path' isMade s)
    (hf : ∀ a s', (isMade a → Opens s' cwd path') → Makes (f a) cwd path isMade' s') :
    Makes (b >>= f) cwd path isMade' s := by
  obtain ⟨r, made, hends, honly, hopen⟩ := h
  cases r with
  | error e => exact ⟨_, made, hends.bind_error, honly, by simp⟩
  | ok a =>
      obtain ⟨r', made', hends', honly', hopen'⟩ := hf a (s.replay made) (hopen a rfl)
      refine ⟨r', made ++ made', hends.bind hends', onlyMakes_append.mpr ⟨honly, honly'⟩, ?_⟩
      rw [replay_append]
      exact hopen'

/-- A directory is made, or a fault says what stands in its way. -/
theorem makes_makeDirectory? (path : Path) (s : Store) :
    Makes (makeDirectory? path) cwd path (· = none) s := by
  rw [makeDirectory?]
  cases hlocate : s.locate cwd path with
  | error fault =>
      refine .of_ends (Ends.store.then (Ends.read.then ?_)) (r := .ok (some fault)) (by simp)
      rw [hlocate]
      exact Ends.pure _
  | ok l =>
      cases hl : s.get? l with
      | some e =>
          refine .of_ends (Ends.store.then (Ends.read.then ?_)) (r := .ok (some .occupied)) (by simp)
          simp only [hlocate, hl]
          exact Ends.pure _
      | none =>
          have hmake : (Change.makeDirectory l).IsAllowed s := hl
          have hallows : s.Allows [.makeDirectory l] := ⟨hmake, trivial⟩
          refine ⟨.ok none, [.makeDirectory l], Ends.store.then (Ends.read.then ?_), by simp [OnlyMakes],
            fun _ _ _ => ⟨l, locate_replay hallows hlocate, ?_⟩⟩
          · simp only [hlocate, hl]
            exact (Ends.change hmake).bind (Ends.pure _)
          · rw [replay_cons, replay_nil, get?_apply hmake]
            exact if_pos rfl

/-- A directory that could not be made is accepted if it is there. -/
theorem makes_acceptDirectory (path : Path) (fault : PathFault) (s : Store) :
    Makes (acceptDirectory path fault) cwd path (fun _ => True) s := by
  rw [acceptDirectory]
  by_cases h : s.isDirectory cwd path = true
  · refine .of_ends (Ends.store.then (Ends.read.then ?_)) (r := .ok ()) fun _ _ _ => ?_
    · rw [h]
      exact Ends.pure ()
    · rw [isDirectory, beq_iff_eq, find?] at h
      split at h
      · next l hl => exact ⟨l, hl, h⟩
      · cases h
  · refine .of_ends (r := .error (.path ⟨fault, path⟩)) (Ends.store.then (Ends.read.then ?_)) (by simp)
    rw [Bool.eq_false_iff.mpr h]
    exact Ends.fail _

/-- Making sure of a directory, by induction on the number of directories above it that may have to be
made. -/
theorem makes_ensureDirectory (k : Nat) (path : Path) (s : Store) :
    Makes (ensureDirectory k path) cwd path (fun _ => True) s := by
  induction k generalizing path s with
  | zero =>
      rw [ensureDirectory]
      refine (makes_makeDirectory? path s).bind fun fault? s' hopen => ?_
      split
      · exact .of_ends (Ends.pure ()) fun _ _ _ => hopen rfl
      · exact .of_ends (Ends.fail _) (by simp)
      · exact makes_acceptDirectory path _ s'
  | succ k ih =>
      rw [ensureDirectory]
      refine (makes_makeDirectory? path s).bind fun fault? s' hopen => ?_
      split
      · exact .of_ends (Ends.pure ()) fun _ _ _ => hopen rfl
      · refine (ih path.parent s').bind fun _ s'' _ => ?_
        refine (makes_makeDirectory? path s'').bind fun fault?' s₃ hopen' => ?_
        split
        · exact .of_ends (Ends.pure ()) fun _ _ _ => hopen' rfl
        · exact .of_ends (Ends.fail _) (by simp)
        · exact makes_acceptDirectory path _ s₃
      · exact makes_acceptDirectory path _ s'

/-- Making sure of a directory makes directories and does nothing else. If it does not fail, the path
leads to a directory. -/
theorem exists_ends_makeDirectories (cwd : Location) (path : Path) (s : Store) :
    ∃ r made, Ends (makeDirectories path) cwd s r made ∧ OnlyMakes made ∧
      (r = .ok () → Opens (s.replay made) cwd path) := by
  obtain ⟨r, made, hends, honly, hopen⟩ := makes_ensureDirectory path.names.length path s
  exact ⟨r, made, hends, honly, fun h => hopen () h trivial⟩

end Build

end WasmEmbed
