import WasmEmbed.Path.Basic

/-!
# Paths relative to each other

How one place is reached from another by name alone, without a look at what is there. `specifier` is
the text under which a script names another one.
-/

namespace WasmEmbed.Path

/-- One step down to a name, or up to the directory above; nothing is above the root. -/
def descend (place : List Name) (name : Name) : List Name :=
  if name = parentName then place.dropLast else place ++ [name]

/-- The names that lead from the root to where a path leads from the directory `cwd`. -/
def place (cwd p : Path) : List Name := (cwd.join p).names.foldl descend []

/-- The number of names that two lists have in common at their front. -/
def commonLength : List Name → List Name → Nat
  | a :: as, b :: bs => if a = b then commonLength as bs + 1 else 0
  | _, _ => 0

/-- The names that lead from one place to another: up to the last place in common, then down. -/
def between (start target : List Name) : List Name :=
  let n := commonLength start target
  List.replicate (start.length - n) parentName ++ target.drop n

/-- The text that leads from the directory of the script `source` to the script `target`. It begins
with one point or two and a slash. -/
def specifier (cwd source target : Path) : List Char :=
  let steps := between (place cwd source.parent) (place cwd target)
  let text := (Path.mk .here steps).text
  if ['.', '.', '/'].isPrefixOf text || ['.', '/'].isPrefixOf text then text
  else '.' :: '/' :: text

end WasmEmbed.Path
