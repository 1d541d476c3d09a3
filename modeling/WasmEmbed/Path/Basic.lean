/-!
# Paths

A path is a list of names that starts at the root, at the root written with two slashes, or nowhere in
particular. Empty names and single points between slashes are no names, so a path has one text. The
name `..` is kept: what it leads to depends on where the path is followed.
-/

namespace WasmEmbed

/-- The name of a file or a directory. -/
abbrev Name := List Char

/-- Where a path starts. -/
inductive Anchor where
  /-- Where the path is used. -/
  | here
  /-- The root. -/
  | root
  /-- The root, written with exactly two slashes. -/
  | doubleRoot
  deriving Repr, DecidableEq, Inhabited

/-- The slashes that stand for an anchor. -/
def Anchor.text : Anchor → List Char
  | here => []
  | root => ['/']
  | doubleRoot => ['/', '/']

/-- The anchor that a number of leading slashes stands for. -/
def Anchor.ofSlashes : Nat → Anchor
  | 0 => here
  | 2 => doubleRoot
  | _ => root

/-- A path. -/
structure Path where
  anchor : Anchor
  names : List Name
  deriving Repr, DecidableEq, Inhabited

namespace Path

/-- The name of the directory itself. -/
def currentName : Name := ['.']

/-- The name of the directory above. -/
def parentName : Name := ['.', '.']

/-- The parts of a text between its slashes. -/
def splitSlashes : List Char → List Name
  | [] => [[]]
  | c :: rest =>
    if c = '/' then [] :: splitSlashes rest
    else
      match splitSlashes rest with
      | [] => [[c]]
      | name :: names => (c :: name) :: names

/-- Whether a part of a text is a name. -/
def isName (part : Name) : Bool := !(part.isEmpty || part == currentName)

/-- The path that a text stands for. -/
def ofText (text : List Char) : Path :=
  ⟨.ofSlashes (text.takeWhile (· == '/')).length, (splitSlashes text).filter isName⟩

/-- Names with slashes between them. -/
def joinSlashes : List Name → List Char
  | [] => []
  | [name] => name
  | name :: names => name ++ '/' :: joinSlashes names

/-- The text of a path. -/
def text (p : Path) : List Char :=
  if p.anchor = .here ∧ p.names = [] then currentName else p.anchor.text ++ joinSlashes p.names

/-- Whether a path starts at the root. -/
def isAbsolute (p : Path) : Bool := p.anchor != .here

/-- The path `q` as it is seen from `p`. -/
def join (p q : Path) : Path := if q.isAbsolute then q else ⟨p.anchor, p.names ++ q.names⟩

/-- The path with a further text behind it. -/
def child (p : Path) (text : List Char) : Path := p.join (ofText text)

/-- The path without its last name. -/
def parent (p : Path) : Path := { p with names := p.names.dropLast }

/-- The last name of a path, or nothing. -/
def name (p : Path) : Name := p.names.getLastD []

end Path

end WasmEmbed
