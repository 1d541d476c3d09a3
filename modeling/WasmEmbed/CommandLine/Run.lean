import WasmEmbed.Build.Bundle
import WasmEmbed.CommandLine.Help

/-!
# Running a command line

A command line is read, its request is resolved from the current directory, and the module is embedded.
The reply holds all that is shown and how the run ended.
-/

namespace WasmEmbed.CommandLine

/-- What comes of a command line. -/
structure Reply where
  /-- What is written to the standard output. -/
  output : String
  /-- What is written to the standard error in front of the notices. -/
  complaint : String
  /-- The notices that are heard. -/
  notices : List Notice
  /-- What was done. -/
  journal : Journal
  /-- The exit code, or why the build failed. -/
  ending : Except Failure Nat
  /-- The store that is left. -/
  store : Store

namespace Reply

/-- What is written to the standard error, if each step took the time `elapsed`. -/
def errorOutput (r : Reply) (elapsed : String) : String :=
  r.complaint ++ String.join (r.notices.map fun n => n.text elapsed ++ "\n")

end Reply

/-- What an invocation does, before it ends with an exit code. -/
def Invocation.build (i : Invocation) : Build BundleResult := do
  let config ← Build.require .config (i.request.resolve ⟨.root, ← read⟩)
  Build.bundle config

/-- The least level that an invocation hears. -/
def Invocation.level (i : Invocation) : Level := .heard i.verbose i.quiet

/-- Runs a command line in a directory of a store. -/
def run (words : List (List Char)) (cwd : Location) (s : Store) : Reply :=
  match parse words with
  | .error (.help scope) => ⟨scope.help, "", [], [], .ok 0, s⟩
  | .error (.usage scope e) => ⟨"", scope.complaint e, [], [], .ok 2, s⟩
  | .ok i =>
    let o := i.build.runAt i.level.number cwd s
    ⟨"", "", o.journal.notices, o.journal, o.result.map fun _ => 0, o.store⟩

end WasmEmbed.CommandLine
