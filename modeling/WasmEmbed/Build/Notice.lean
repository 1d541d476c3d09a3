import WasmEmbed.Path.Basic
import WasmEmbed.Text.Quoted

/-!
# Notices

What a build tells about its progress. Each notice has a level, and whoever listens hears it from some level
on: the one that was set for the listener, or for the nearest listener above (`Listener.least`). The time
that a step took is known only to whoever shows the notice.
-/

namespace WasmEmbed

/-- How much a notice matters. -/
inductive Level where
  | debug
  | info
  | warning
  | error
  deriving Repr, DecidableEq

namespace Level

/-- The number of a level: the more a notice matters, the greater. -/
def number : Level → Nat
  | debug => 10
  | info => 20
  | warning => 30
  | error => 40

/-- The name of a level. -/
def label : Level → String
  | debug => "DEBUG"
  | info => "INFO"
  | warning => "WARNING"
  | error => "ERROR"

/-- Whether what has a level is heard where the least level is `least` in the end, whoever it was set for. -/
def isHeard (least : Int) (l : Level) : Bool := decide (least ≤ l.number)

/-- The least level that is heard after `verbose` wishes for more notices and `quiet` wishes for fewer.
A wish for fewer wins. -/
def heard (verbose quiet : Nat) : Level :=
  if 2 ≤ quiet then error
  else if 1 ≤ quiet then warning
  else if 1 ≤ verbose then debug
  else info

end Level

/-- Who listens: the level that was set for a listener, and those of the listeners above, the nearest first.
Zero says that no level was set. -/
structure Listener where
  own : Int
  above : List Int
  deriving Repr, DecidableEq

/-- The least level that a listener hears: its own, or else that of the nearest listener above for which one
was set. Everything is heard if none was. -/
def Listener.least (l : Listener) : Int := ((l.own :: l.above).find? (· != 0)).getD 0

/-- What a build tells. -/
inductive Notice where
  | payload (path : Path)
  | binding (path : Path)
  | outputDir (path : Path)
  | settings (maxShardChars : Int) (compress : Bool)
  | encoded (bytes chars : Nat)
  | wroteShard (path : Path) (chars : Nat)
  | removedShard (path : Path)
  | wroteShards (count : Nat) (index : Name) (outputDir : Path)
  | specifier (text : List Char)
  | rewrote (path : Path)
  | done
  deriving Repr, DecidableEq

namespace Notice

/-- The level of a notice. -/
def level : Notice → Level
  | wroteShard .. => .debug
  | specifier .. => .debug
  | _ => .info

/-- The quotient of two numbers, rounded to the nearest; a half goes to the even neighbour. -/
def roundedQuotient (a b : Nat) : Nat :=
  let q := a / b
  let r := 2 * (a % b)
  if r < b || (r = b && q % 2 = 0) then q else q + 1

/-- A number of bytes in units of 2 ^ 20, with one decimal place. -/
def mebibytes (bytes : Nat) : String :=
  let tenths := roundedQuotient (bytes * 10) 1048576
  s!"{tenths / 10}.{tenths % 10}"

/-- The text of a path. -/
def pathText (p : Path) : String := String.ofList p.text

/-- The text of a truth value. -/
def truth (b : Bool) : String := if b then "True" else "False"

/-- The text of a notice. A step took the time `elapsed`. -/
def text (elapsed : String) (n : Notice) : String :=
  "wasm-bundler: " ++
  match n with
  | payload path => s!"payload={pathText path}"
  | binding path => s!"binding={pathText path}"
  | outputDir path => s!"output_dir={pathText path}"
  | settings maxShardChars compress =>
    s!"max_shard_chars={maxShardChars} compress={truth compress}"
  | encoded bytes chars =>
    s!"encoded {mebibytes bytes} MiB payload into {chars} chars in {elapsed}"
  | wroteShard path chars => s!"wrote {pathText path} ({chars} chars)"
  | removedShard path => s!"removed stale shard {pathText path}"
  | wroteShards count index dir =>
    s!"wrote {count} shards + {String.ofList index} to {pathText dir} in {elapsed}"
  | specifier named =>
    s!"aggregator import specifier={String.ofList (Text.quoted named)}"
  | rewrote path => s!"rewrote {pathText path} in {elapsed}"
  | done => s!"done in {elapsed}"

end Notice

end WasmEmbed
