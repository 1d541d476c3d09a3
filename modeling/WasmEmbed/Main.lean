import WasmEmbed.CommandLine.Run

/-!
# The program

Reads the arguments, takes a snapshot of the files and directories that the build looks at, runs the
command line on the snapshot, and makes the changes of its journal on the disk. Everything that is
decided is decided by `CommandLine.run`.
-/

namespace WasmEmbed

/-! ## Snapshots -/

/-- The text of the absolute path of a location. -/
def Location.text (l : Location) : String := String.ofList (Path.mk .root l).text

/-- What stands at a location on the disk. The content of a file is read only if it is needed. -/
def lookAt (needed : Bool) (l : Location) : IO (Option Entry) := do
  let path := (← IO.currentDir) / l.text
  if ← path.isDir then pure (some .directory)
  else if ← path.pathExists then
    if needed then
      let content ← IO.FS.readBinFile path
      pure (some (.file content.toList))
    else pure (some (.file []))
  else pure none

/-- Adds what stands at a location on the disk to a snapshot. -/
def addToSnapshot (needed : Bool) (s : Store) (l : Location) : IO Store := do
  if l.isEmpty then pure s
  else
    match ← lookAt needed l with
    | some entry => pure (s.insert l entry)
    | none => pure s

/-- The locations that are passed on the way along names. -/
def passed (l : Location) : List Name → List Location
  | [] => [l]
  | name :: rest => l :: passed (Path.descend l name) rest

/-- Adds what a path leads along and to. -/
def addPath (cwd : Location) (s : Store) (p : Path) : IO Store := do
  let places := passed (if p.isAbsolute then [] else cwd) p.names
  let s ← places.dropLast.foldlM (addToSnapshot false) s
  match places.getLast? with
  | some l => addToSnapshot true s l
  | none => pure s

/-- Adds what stands in a directory. -/
def addChildren (s : Store) (l : Location) : IO Store := do
  if s.get? l = some .directory then
    let entries ← ((← IO.currentDir) / l.text).readDir
    entries.toList.foldlM (fun s e => do
      let place := l ++ [e.fileName.toList]
      if (s.get? place).isSome then pure s else addToSnapshot false s place) s
  else pure s

/-- A snapshot of what a build with a config looks at. -/
def snapshot (cwd : Location) (c : Config) : IO Store := do
  let here : Path := ⟨.here, []⟩
  let s ← (passed [] cwd).foldlM (addToSnapshot false) Store.empty
  let s ← [here, c.outputDir, c.payload, c.binding].foldlM (addPath cwd) s
  match s.locate cwd c.outputDir with
  | .ok l => addChildren s l
  | .error _ => pure s

/-! ## Changes on the disk -/

/-- Makes a change on the disk. -/
def Change.perform : Change → IO Unit
  | makeDirectory place => IO.FS.createDir place.text
  | write place content => IO.FS.writeBinFile place.text ⟨content.toArray⟩
  | remove place => IO.FS.removeFile place.text

/-- A number of milliseconds in seconds, with two decimal places. -/
def seconds (milliseconds : Nat) : String :=
  let hundredths := milliseconds / 10
  let rest := hundredths % 100
  s!"{hundredths / 100}.{rest / 10}{rest % 10}s"

/-- Runs a command line on the disk and answers the exit code. -/
def runOnDisk (words : List (List Char)) : IO UInt32 := do
  let start ← IO.monoMsNow
  let cwd := Path.ofText (toString (← IO.currentDir)).toList
  let store ←
    match CommandLine.parse words with
    | .error _ => pure Store.empty
    | .ok i =>
      match i.request.resolve cwd with
      | .error _ => pure Store.empty
      | .ok config => snapshot cwd.names config
  let reply := CommandLine.run words cwd.names store
  for change in reply.journal.changes do
    change.perform
  let elapsed := seconds ((← IO.monoMsNow) - start)
  IO.print reply.output
  IO.eprint (reply.errorOutput elapsed)
  match reply.ending with
  | .ok code => pure (UInt32.ofNat code)
  | .error failure =>
    IO.eprintln failure.message
    pure 1

end WasmEmbed

/-- Embeds a module as the arguments say. -/
def main (arguments : List String) : IO UInt32 :=
  WasmEmbed.runOnDisk (arguments.map String.toList)
