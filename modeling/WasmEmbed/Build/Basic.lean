import WasmEmbed.Binding.Error
import WasmEmbed.Build.Notice
import WasmEmbed.Config
import WasmEmbed.Shard
import WasmEmbed.Store.Basic

/-!
# Steps of a build

A build changes a store and tells about it, as far as it is heard. Its journal lists all that it did in
order, changes and notices alike. A build that fails keeps the journal up to the failure, so what it left
behind is what the journal says.
-/

namespace WasmEmbed

/-! ## Failures -/

/-- A path that does not lead to what was expected. -/
structure PathError where
  fault : PathFault
  path : Path
  deriving Repr, DecidableEq

/-- The text of an error. -/
def PathError.message (e : PathError) : String :=
  s!"{e.fault.message}: {String.ofList (Text.quoted e.path.text)}"

/-- The files that a build starts from. -/
inductive Input where
  | payload
  | binding
  deriving Repr, DecidableEq

/-- What an input is called. -/
def Input.label : Input → String
  | payload => "wasm payload"
  | binding => "JS binding"

/-- Why a build cannot start. -/
inductive InputError where
  | missing (input : Input) (path : Path)
  | notAFile (input : Input) (path : Path)
  deriving Repr, DecidableEq

/-- The text of an error. -/
def InputError.message : InputError → String
  | missing input path => s!"{input.label} does not exist: {Notice.pathText path}"
  | notAFile input path => s!"{input.label} path is not a file: {Notice.pathText path}"

/-- Why a build fails. -/
inductive Failure where
  | config (cause : ConfigError)
  | input (cause : InputError)
  | path (cause : PathError)
  | shard (cause : Shard.Error)
  | text (cause : Text.Utf8.Error)
  | rewrite (cause : Binding.RewriteError)
  deriving Repr, DecidableEq

/-- The text of a failure. -/
def Failure.message : Failure → String
  | config cause => cause.message
  | input cause => cause.message
  | path cause => cause.message
  | shard cause => cause.message
  | text cause => cause.message
  | rewrite cause => cause.message

/-! ## Journals -/

/-- What a build did. -/
inductive Event where
  | change (c : Change)
  | notice (n : Notice)
  deriving Repr, DecidableEq

/-- What a build did, in order. -/
abbrev Journal := List Event

namespace Journal

/-- The changes of a journal. -/
def changes (j : Journal) : List Change :=
  j.filterMap fun
    | .change c => some c
    | .notice _ => none

/-- The notices of a journal. -/
def notices (j : Journal) : List Notice :=
  j.filterMap fun
    | .notice n => some n
    | .change _ => none

/-- The notices that are heard from a level on. -/
def heard (least : Int) (j : Journal) : List Notice := j.notices.filter fun n => n.level.isHeard least

end Journal

/-! ## Builds -/

/-- A store, the journal of what was done to it with the last event first, and the least level that is
heard. -/
structure Progress where
  store : Store
  events : List Event
  least : Int

/-- A build in a directory. It changes a store, and it may fail. -/
abbrev Build (α : Type) := ReaderT Location (ExceptT Failure (StateM Progress)) α

/-- How a build ended: its result or why it failed, its journal, and the store that it left. -/
structure Outcome (α : Type) where
  result : Except Failure α
  journal : Journal
  store : Store

namespace Build

/-- Runs a build in a directory of a store, where `least` is the least level that whoever listens hears in the
end (`Listener.least`). -/
def runAt {α : Type} (least : Int) (b : Build α) (cwd : Location) (s : Store) : Outcome α :=
  let (result, p) := (ReaderT.run b cwd).run.run ⟨s, [], least⟩
  ⟨result, p.events.reverse, p.store⟩

/-- Runs a build in a directory of a store, where every notice is heard. -/
def run {α : Type} (b : Build α) (cwd : Location) (s : Store) : Outcome α :=
  runAt Level.debug.number b cwd s

/-- Fails. -/
def fail {α : Type} (f : Failure) : Build α := throw f

/-- The answer, or the failure that its error is. -/
def require {ε α : Type} (f : ε → Failure) (r : Except ε α) : Build α :=
  match r with
  | .ok a => pure a
  | .error e => fail (f e)

/-- Makes a change. -/
def change (c : Change) : Build Unit :=
  modify fun p => { p with store := c.apply p.store, events := .change c :: p.events }

/-- Whether the notices of a level are heard. -/
def isHeard (l : Level) : Build Bool := return l.isHeard (← get).least

/-- Tells something, if it is heard. -/
def tell (n : Notice) : Build Unit :=
  modify fun p => if n.level.isHeard p.least then { p with events := .notice n :: p.events } else p

/-- Tells a detail. Whether details are heard is asked first. -/
def detail (n : Notice) : Build Unit := do
  if ← isHeard .debug then tell n

/-- The store as it is. -/
def store : Build Store := return (← get).store

/-! ## Files and directories -/

/-- Fails because of a path. -/
def failAt {α : Type} (path : Path) (fault : PathFault) : Build α := fail (.path ⟨fault, path⟩)

/-- Where a path leads. -/
def locate (path : Path) : Build Location := do
  match (← store).locate (← read) path with
  | .ok l => pure l
  | .error fault => failAt path fault

/-- Makes a directory where there is nothing, or says what is in the way. -/
def makeDirectory? (path : Path) : Build (Option PathFault) := do
  let s ← store
  match s.locate (← read) path with
  | .error fault => pure (some fault)
  | .ok l =>
    match s.get? l with
    | some _ => pure (some .occupied)
    | none =>
      change (.makeDirectory l)
      pure none

/-- Accepts what is in the way of a directory if it is a directory. -/
def acceptDirectory (path : Path) (fault : PathFault) : Build Unit := do
  if !(← store).isDirectory (← read) path then failAt path fault

/-- Makes sure that a directory is there, and the directories above it, at most `k` of them. -/
def ensureDirectory : Nat → Path → Build Unit
  | k, path => do
    match ← makeDirectory? path with
    | none => pure ()
    | some .missing =>
      match k with
      | 0 => failAt path .missing
      | k + 1 =>
        ensureDirectory k path.parent
        match ← makeDirectory? path with
        | none => pure ()
        | some .missing => failAt path .missing
        | some fault => acceptDirectory path fault
    | some fault => acceptDirectory path fault

/-- Makes sure that a directory is there, and all directories above it. -/
def makeDirectories (path : Path) : Build Unit := ensureDirectory path.names.length path

/-- Writes a file as a whole. -/
def writeFile (path : Path) (content : List UInt8) : Build Unit := do
  let l ← locate path
  match (← store).get? l with
  | some .directory => failAt path .isDirectory
  | _ => change (.write l content)

/-- The content of a file. -/
def readFile (path : Path) : Build (List UInt8) := do
  let l ← locate path
  match (← store).get? l with
  | some (.file content) => pure content
  | some .directory => failAt path .isDirectory
  | none => failAt path .missing

/-- Removes a file. -/
def removeFile (path : Path) : Build Unit := do
  let l ← locate path
  match (← store).get? l with
  | some (.file _) => change (.remove l)
  | some .directory => failAt path .isDirectory
  | none => failAt path .missing

/-- The names of what stands in a directory, in order. -/
def listDirectory (path : Path) : Build (List Name) := do
  let l ← locate path
  let s ← store
  match s.get? l with
  | some .directory => pure (s.names l)
  | some (.file _) => failAt path .notDirectory
  | none => failAt path .missing

end Build

end WasmEmbed
