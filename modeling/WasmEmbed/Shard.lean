import WasmEmbed.Path.Basic
import WasmEmbed.Payload.Base64
import WasmEmbed.Text.Digit

/-!
# Shards

A long text is kept in several scripts, its shards. Each exports a function that returns one chunk of
the text, and one more script, the aggregator, exports the sum of what these functions return.
-/

namespace WasmEmbed.Shard

/-! ## Errors -/

/-- Why a text cannot be kept in shards. -/
inductive Error where
  | maxChars (n : Int)
  | foreignCharacter
  deriving Repr, DecidableEq

/-- The text of an error. -/
def Error.message : Error → String
  | maxChars n => s!"Invalid max_chars={n}; expected >= 1."
  | foreignCharacter => "Shard text contains characters outside the base64 alphabet."

/-! ## Chunks -/

/-- The chunks of a text, each of `size` characters but for the last, in front of which `done` stands
backwards; at most `k` of them. -/
def chunksFrom (size : Nat) (done : List (List Char)) : Nat → List Char → List (List Char)
  | _, [] => done.reverse
  | 0, _ => done.reverse
  | k + 1, text =>
    let (chunk, rest) := text.splitAt size
    chunksFrom size (chunk :: done) k rest

/-- Splits a text into chunks of at most `maxChars` characters. -/
def split (maxChars : Int) (text : List Char) : Except Error (List (List Char)) :=
  if maxChars < 1 then .error (.maxChars maxChars)
  else .ok (chunksFrom maxChars.toNat [] text.length text)

/-! ## Names -/

/-- The name of a shard, without extension. -/
def stem (start : Name) (index : Nat) : Name := start ++ (toString index).toList

/-- A name with an extension. -/
def withExtension (stem extension : Name) : Name := stem ++ '.' :: extension

/-- The name of the aggregator, without extension. -/
def indexStem : Name := "index".toList

/-- The index of the shard that a file of some name is, if it is one. The digits may be those of any
script. -/
def index? (start extension name : Name) : Option Nat :=
  let ending := '.' :: extension
  let rest := name.drop start.length
  if start.isPrefixOf name && ending.isSuffixOf rest then
    Text.number? (rest.take (rest.length - ending.length))
  else none

/-! ## Scripts -/

/-- The script of a shard. -/
def script (chunk : List Char) : Except Error (List Char) :=
  if chunk.all Payload.Base64.isAllowed then
    .ok ("export default function() \x7b return \"".toList ++ chunk ++ "\"; \x7d".toList)
  else .error .foreignCharacter

/-- The line by which the aggregator imports a shard. -/
def importLine (extension name : Name) : List Char :=
  "import ".toList ++ name ++ " from './".toList ++ withExtension name extension ++ "';\n".toList

/-- The script of the aggregator for shards of these names. -/
def aggregator (names : List Name) (extension : Name) : List Char :=
  names.flatMap (importLine extension) ++ "export default \"\"".toList ++
    names.flatMap (fun name => " + ".toList ++ name ++ "()".toList) ++ ";\n".toList

end WasmEmbed.Shard
