import WasmEmbed.Proofs.Build.Bundle

/-!
# What builds are made of

A build is put together from changes, notices and looks at the store, and it may fail between them
(`Composed`). There is one rule for each way to put builds together and one lemma for each function, so what
holds of all builds is proved by induction on the rules, once for all functions.

The predicate `fails` of `Composed` says which failures a build may end with. Where it does not matter, it
is true of every failure; where it does, it keeps out the refusals that only the checks in front of a
build make.
-/

namespace WasmEmbed

/-- A failure of the settings or of the inputs. -/
inductive Failure.IsRefusal : Failure → Prop
  | config (cause : ConfigError) : IsRefusal (.config cause)
  | input (cause : InputError) : IsRefusal (.input cause)

namespace Build

variable {α β ε : Type} {fails : Failure → Prop}

/-- A build that is made of the steps of builds. What it fails for is something that `fails`. -/
inductive Composed (fails : Failure → Prop) : {α : Type} → Build α → Prop
  | pure {α : Type} (a : α) : Composed fails (Pure.pure a : Build α)
  | fail {α : Type} {f : Failure} (h : fails f) : Composed fails (Build.fail f : Build α)
  | bind {α β : Type} {b : Build α} {f : α → Build β} (h : Composed fails b)
    (hf : ∀ a, Composed fails (f a)) :
      Composed fails (b >>= f)
  | change (c : Change) : Composed fails (Build.change c)
  | tell (n : Notice) : Composed fails (Build.tell n)
  | detail (n : Notice) (h : n.level = .debug) : Composed fails (Build.detail n)
  | store : Composed fails Build.store
  | read : Composed fails (MonadReaderOf.read : Build Location)

namespace Composed

/-- What is required fails with the failure that is made of its error. -/
theorem require {f : ε → Failure} (h : ∀ e, fails (f e)) (r : Except ε α) :
    Composed fails (Build.require f r) := by
  cases r with
  | error e => exact .fail (h e)
  | ok a => exact .pure a

/-- A composed build fails only for something that fails. -/
theorem fails_of_error {b : Build α} (h : Composed fails b) (cwd : Location) (p : Progress) {e : Failure}
    (he : ((ReaderT.run b cwd).run.run p).1 = .error e) : fails e := by
  -- Only `fail` ends with an error of its own, and a bind fails as one of its parts does.
  induction h generalizing p with
  | pure a => cases he
  | fail h =>
      cases he
      exact h
  | bind h hf ih ihf =>
      rename_i b f
      simp only [ReaderT.run_bind, ExceptT.run_bind, StateT.run_bind] at he
      cases hrun : (ReaderT.run b cwd).run.run p with
      | mk r p' =>
          rw [hrun] at he
          cases r with
          | error e' =>
              obtain rfl : e' = e := Except.error.inj he
              exact ih p (congrArg Prod.fst hrun)
          | ok a => exact ihf a p' he
  | change c => cases he
  | tell n => cases he
  | detail n h =>
      rw [run_detail] at he
      split at he
      · cases he
      · cases he
  | store => cases he
  | read => cases he

/-! ## Files and directories

Each of these functions looks at the store, decides by what it finds, and then makes one change or fails.
-/

section Functions

variable (hfails : ∀ e : Failure, ¬ e.IsRefusal → fails e)

include hfails

theorem failAt (path : Path) (fault : PathFault) : Composed fails (Build.failAt path fault : Build α) :=
  .fail (hfails _ fun h => by cases h)

theorem locate (path : Path) : Composed fails (Build.locate path) := by
  rw [Build.locate]
  refine .bind .store fun s => .bind .read fun cwd => ?_
  split
  · exact .pure _
  · exact failAt hfails path _

omit hfails in
theorem makeDirectory? (path : Path) : Composed fails (Build.makeDirectory? path) := by
  rw [Build.makeDirectory?]
  refine .bind .store fun s => .bind .read fun cwd => ?_
  split
  · exact .pure _
  · split
    · exact .pure _
    · exact .bind (.change _) fun _ => .pure _

theorem acceptDirectory (path : Path) (fault : PathFault) :
    Composed fails (Build.acceptDirectory path fault) := by
  rw [Build.acceptDirectory]
  refine .bind .store fun s => .bind .read fun cwd => ?_
  split
  · exact failAt hfails path fault
  · exact .pure _

/-- Making sure of a directory, by induction on how many of the directories above it are looked at. -/
theorem ensureDirectory (k : Nat) (path : Path) : Composed fails (Build.ensureDirectory k path) := by
  induction k generalizing path with
  | zero =>
      rw [Build.ensureDirectory]
      refine .bind (makeDirectory? path) fun fault? => ?_
      split
      · exact .pure _
      · exact failAt hfails path _
      · exact acceptDirectory hfails path _
  | succ k ih =>
      rw [Build.ensureDirectory]
      refine .bind (makeDirectory? path) fun fault? => ?_
      split
      · exact .pure _
      · -- The directory above is made, and then this one is tried once more.
        refine .bind (ih path.parent) fun _ => .bind (makeDirectory? path) fun fault? => ?_
        split
        · exact .pure _
        · exact failAt hfails path _
        · exact acceptDirectory hfails path _
      · exact acceptDirectory hfails path _

theorem writeFile (path : Path) (content : List UInt8) : Composed fails (Build.writeFile path content) := by
  rw [Build.writeFile]
  refine .bind (locate hfails path) fun l => .bind .store fun s => ?_
  split
  · exact failAt hfails path _
  · exact .change _

theorem readFile (path : Path) : Composed fails (Build.readFile path) := by
  rw [Build.readFile]
  refine .bind (locate hfails path) fun l => .bind .store fun s => ?_
  split
  · exact .pure _
  · exact failAt hfails path _
  · exact failAt hfails path _

theorem removeFile (path : Path) : Composed fails (Build.removeFile path) := by
  rw [Build.removeFile]
  refine .bind (locate hfails path) fun l => .bind .store fun s => ?_
  split
  · exact .change _
  · exact failAt hfails path _
  · exact failAt hfails path _

theorem listDirectory (path : Path) : Composed fails (Build.listDirectory path) := by
  rw [Build.listDirectory]
  refine .bind (locate hfails path) fun l => .bind .store fun s => ?_
  split
  · exact .pure _
  · exact failAt hfails path _
  · exact failAt hfails path _

/-! ## Shards and the binding

These functions go through lists of chunks and of names, and the rules are applied once for each element.
-/

/-- The shards, by induction on the chunks. -/
theorem writeChunks (n : ShardNaming) (dir : Path) (i : Nat) (chunks : List (List Char)) :
    Composed fails (Build.writeChunks n dir i chunks) := by
  induction chunks generalizing i with
  | nil => exact .pure ()
  | cons chunk rest ih =>
      rw [Build.writeChunks]
      exact .bind (.require (fun _ => hfails _ fun h => by cases h) _) fun script =>
        .bind (writeFile hfails _ _) fun _ => .bind (.detail _ rfl) fun _ => ih (i + 1)

/-- The removal of stale files, by induction on the names in the directory. -/
theorem removeStale (n : ShardNaming) (dir : Path) (keep : Nat) (names : List Name) :
    Composed fails (Build.removeStale n dir keep names) := by
  induction names with
  | nil => exact .pure ()
  | cons name rest ih =>
      rw [Build.removeStale]
      refine .bind .store fun s => .bind .read fun cwd => ?_
      split
      · exact .bind (removeFile hfails _) fun _ => .bind (.tell _) fun _ => ih
      · exact ih

theorem writeShards (n : ShardNaming) (dir : Path) (maxChars : Int) (text : List Char) :
    Composed fails (Build.writeShards n dir maxChars text) := by
  rw [writeShards_eq]
  refine .bind (.require (fun _ => hfails _ fun h => by cases h) _) fun chunks =>
    .bind (ensureDirectory hfails _ dir) fun _ => ?_
  rw [fill]
  exact .bind (writeChunks hfails n dir 0 chunks) fun _ => .bind (listDirectory hfails dir) fun names =>
    .bind (removeStale hfails n dir chunks.length names) fun _ => .bind (writeFile hfails _ _) fun _ =>
      .bind (.tell _) fun _ => .pure _

theorem readText (path : Path) : Composed fails (Build.readText path) := by
  rw [Build.readText]
  exact .bind (readFile hfails path) fun content =>
    .bind (.require (fun _ => hfails _ fun h => by cases h) _) fun text => .pure _

theorem finish (c : Config) (bytes chars : Nat) (shards : ShardSet) :
    Composed fails (Build.finish c bytes chars shards) := by
  rw [Build.finish]
  exact .bind .read fun cwd => .bind (.detail _ rfl) fun _ => .bind (readText hfails c.binding) fun source =>
    .bind (.require (fun _ => hfails _ fun h => by cases h) _) fun rewritten =>
      .bind (writeFile hfails c.binding _) fun _ => .bind (.tell _) fun _ => .bind (.tell _) fun _ => .pure _

end Functions

end Composed

/-! ## Building as a whole

`bundle` is the checks with the work behind them (`bundle_eq_checks`). The two parts may fail in different
ways.
-/

/-- What is checked before anything is done. -/
def checks (c : Config) : Build Unit := do
  require .config c.check
  requireInput .payload c.payload
  requireInput .binding c.binding

/-- What is done after the checks. -/
def embed (c : Config) : Build BundleResult := do
  tell (.payload c.payload)
  tell (.binding c.binding)
  tell (.outputDir c.outputDir)
  tell (.settings c.maxShardChars c.compress)
  let payload ← readFile c.payload
  let text := Payload.encode c.compress payload
  tell (.encoded payload.length text.length)
  writeShards c.naming c.outputDir c.maxShardChars text >>= finish c payload.length text.length

/-- A build makes all its checks before it does any work. -/
theorem bundle_eq_checks (c : Config) : bundle c = checks c >>= fun _ => embed c := by
  rw [bundle_eq, checks, embed]
  simp only [bind_assoc]

/-- The work of a build does not refuse. -/
theorem Composed.embed (hfails : ∀ e : Failure, ¬ e.IsRefusal → fails e) (c : Config) :
    Composed fails (Build.embed c) := by
  rw [Build.embed]
  exact .bind (.tell _) fun _ => .bind (.tell _) fun _ => .bind (.tell _) fun _ => .bind (.tell _) fun _ =>
    .bind (readFile hfails c.payload) fun payload => .bind (.tell _) fun _ =>
      .bind (writeShards hfails c.naming c.outputDir c.maxShardChars _) fun shards =>
        finish hfails c _ _ shards

theorem Composed.requireInput (input : Input) (path : Path) (hfails : ∀ e, fails (.input e)) :
    Composed fails (Build.requireInput input path) := by
  rw [Build.requireInput]
  refine .bind .store fun s => .bind .read fun cwd => ?_
  split
  · exact .fail (hfails _)
  · split
    · exact .fail (hfails _)
    · exact .pure _

/-- A build as a whole. -/
theorem Composed.bundle (c : Config) : Composed (fun _ => True) (Build.bundle c) := by
  rw [bundle_eq_checks, checks]
  exact .bind (.bind (.require (fun _ => trivial) _) fun _ =>
    .bind (.requireInput _ _ fun _ => trivial) fun _ =>
    .requireInput _ _ fun _ => trivial) fun _ => .embed (fun _ _ => trivial) c

end Build

end WasmEmbed
