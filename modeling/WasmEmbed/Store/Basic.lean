import WasmEmbed.Path.Relative

/-!
# Stores

A `Store` is a tree of directories and files, kept as a list of what stands at each location. A location
is the list of names that lead to it from the root. The root is always a directory.

A store changes by `Change`s alone, and `Store.replay` makes a list of them one after the other.
-/

namespace WasmEmbed

/-- The names that lead from the root to a place in a store. -/
abbrev Location := List Name

/-- What stands at a location. -/
inductive Entry where
  | directory
  | file (content : List UInt8)
  deriving Repr, DecidableEq

/-- A tree of directories and files. -/
structure Store where
  entries : List (Location × Entry)
  deriving Repr

namespace Store

/-- A store with nothing in it. -/
def empty : Store := ⟨[]⟩

/-- What stands at a location. -/
def get? (s : Store) (l : Location) : Option Entry :=
  if l = [] then some .directory else s.entries.lookup l

/-- The store with nothing at a location. -/
def erase (s : Store) (l : Location) : Store := ⟨s.entries.filter fun e => e.1 != l⟩

/-- The store with an entry at a location. -/
def insert (s : Store) (l : Location) (e : Entry) : Store := ⟨(l, e) :: (s.erase l).entries⟩

/-- The names of what stands in a directory, in order. -/
def names (s : Store) (l : Location) : List Name :=
  let found := s.entries.filterMap fun e =>
    if e.1 ≠ [] ∧ e.1.dropLast = l then e.1.getLast? else none
  found.mergeSort fun a b => !List.lex b a fun x y => decide (x < y)

end Store

/-! ## Changes -/

/-- A change of a store. -/
inductive Change where
  | makeDirectory (place : Location)
  | write (place : Location) (content : List UInt8)
  | remove (place : Location)
  deriving Repr, DecidableEq

/-- The store after a change. -/
def Change.apply (s : Store) : Change → Store
  | makeDirectory place => s.insert place .directory
  | write place content => s.insert place (.file content)
  | remove place => s.erase place

/-- The store after a list of changes. -/
def Store.replay (s : Store) (changes : List Change) : Store := changes.foldl Change.apply s

/-! ## Following paths -/

/-- Why a path leads nowhere, or not to what was expected. -/
inductive PathFault where
  | missing
  | occupied
  | notDirectory
  | isDirectory
  deriving Repr, DecidableEq

/-- The number and the text of a fault. -/
def PathFault.message : PathFault → String
  | missing => "[Errno 2] No such file or directory"
  | occupied => "[Errno 17] File exists"
  | notDirectory => "[Errno 20] Not a directory"
  | isDirectory => "[Errno 21] Is a directory"

namespace Store

/-- Where names lead from a location. All but the last of the places on the way have to be
directories. -/
def follow (s : Store) : Location → List Name → Except PathFault Location
  | l, [] => .ok l
  | l, name :: rest =>
    match s.get? l with
    | none => .error .missing
    | some (.file _) => .error .notDirectory
    | some .directory => s.follow (Path.descend l name) rest

/-- Where a path leads from the directory `cwd`. -/
def locate (s : Store) (cwd : Location) (p : Path) : Except PathFault Location :=
  s.follow (if p.isAbsolute then [] else cwd) p.names

/-- What a path leads to, if it leads to anything. -/
def find? (s : Store) (cwd : Location) (p : Path) : Option Entry :=
  match s.locate cwd p with
  | .ok l => s.get? l
  | .error _ => none

/-- Whether a path leads to something. -/
def isThere (s : Store) (cwd : Location) (p : Path) : Bool := (s.find? cwd p).isSome

/-- Whether a path leads to a file. -/
def isFile (s : Store) (cwd : Location) (p : Path) : Bool :=
  match s.find? cwd p with
  | some (.file _) => true
  | _ => false

/-- Whether a path leads to a directory. -/
def isDirectory (s : Store) (cwd : Location) (p : Path) : Bool := s.find? cwd p == some .directory

end Store

end WasmEmbed
