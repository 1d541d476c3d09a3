import WasmEmbed.Build.Basic
import WasmEmbed.Text.Utf8

/-!
# Writing shards

A text is written as shards and their aggregator into a directory. Shards that an earlier build left
there and that do not belong to the text are removed before the aggregator is written.
-/

namespace WasmEmbed

/-- How the files of shards are named. -/
structure ShardNaming where
  start : Name := Config.defaultShardPrefix
  extension : Name := Config.defaultExtension
  deriving Repr, DecidableEq

/-- The files that were written for a text. -/
structure ShardSet where
  shards : List Path
  index : Path
  totalChars : Nat
  deriving Repr, DecidableEq

namespace ShardNaming

/-- The path of a file in a directory. -/
def path (n : ShardNaming) (dir : Path) (stem : Name) : Path :=
  dir.child (Shard.withExtension stem n.extension)

/-- The name of a shard, without extension. -/
def stem (n : ShardNaming) (index : Nat) : Name := Shard.stem n.start index

end ShardNaming

namespace Build

/-- Writes the shards of chunks, the first of which has the number `index`. -/
def writeChunks (n : ShardNaming) (dir : Path) : (index : Nat) → List (List Char) → Build Unit
  | _, [] => pure ()
  | index, chunk :: rest => do
    let path := n.path dir (n.stem index)
    let script ← require .shard (Shard.script chunk)
    writeFile path (Text.Utf8.encode script)
    detail (.wroteShard path chunk.length)
    writeChunks n dir (index + 1) rest

/-- Whether a name is that of a shard with a number of `keep` or more. -/
def isStale (n : ShardNaming) (keep : Nat) (name : Name) : Bool :=
  (Shard.index? n.start n.extension name).any fun i => decide (keep ≤ i)

/-- Removes the files among `names` that are shards with numbers of `keep` or more. -/
def removeStale (n : ShardNaming) (dir : Path) (keep : Nat) : List Name → Build Unit
  | [] => pure ()
  | name :: rest => do
    let path : Path := { dir with names := dir.names ++ [name] }
    if isStale n keep name && (← store).isFile (← read) path then
      removeFile path
      tell (.removedShard path)
    removeStale n dir keep rest

/-- Writes a text as shards and their aggregator into a directory. -/
def writeShards (n : ShardNaming) (dir : Path) (maxChars : Int) (text : List Char) :
    Build ShardSet := do
  let chunks ← require .shard (Shard.split maxChars text)
  makeDirectories dir
  writeChunks n dir 0 chunks
  removeStale n dir chunks.length (← listDirectory dir)
  let stems := (List.range chunks.length).map n.stem
  let index := n.path dir Shard.indexStem
  writeFile index (Text.Utf8.encode (Shard.aggregator stems n.extension))
  tell (.wroteShards chunks.length index.name dir)
  pure ⟨stems.map (n.path dir), index, text.length⟩

end Build

end WasmEmbed
