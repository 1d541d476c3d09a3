import WasmEmbed.Binding.Rewrite
import WasmEmbed.Build.Shards
import WasmEmbed.Payload.Encoding
import WasmEmbed.Text.LineEnd

/-!
# Bundling

`bundle` embeds a module: it checks the config and the two inputs, writes the text of the module as
shards, and rewrites the binding last. A build that fails leaves the binding as it was found by the
last step that came before.
-/

namespace WasmEmbed

/-- What a build has made. -/
structure BundleResult where
  shards : ShardSet
  binding : Path
  payloadBytes : Nat
  encodedChars : Nat
  deriving Repr, DecidableEq

namespace Build

/-- Fails unless an input is a file. -/
def requireInput (input : Input) (path : Path) : Build Unit := do
  let s ← store
  let cwd ← read
  if !s.isThere cwd path then fail (.input (.missing input path))
  else if !s.isFile cwd path then fail (.input (.notAFile input path))

/-- The text of a file, with line feeds for all line ends. -/
def readText (path : Path) : Build (List Char) := do
  let content ← readFile path
  let text ← require .text (Text.Utf8.decode content)
  pure (Text.unifyLineEnds text)

/-- Embeds a module. -/
def bundle (c : Config) : Build BundleResult := do
  require .config c.check
  requireInput .payload c.payload
  requireInput .binding c.binding
  tell (.payload c.payload)
  tell (.binding c.binding)
  tell (.outputDir c.outputDir)
  tell (.settings c.maxShardChars c.compress)
  let payload ← readFile c.payload
  let text := Payload.encode c.compress payload
  tell (.encoded payload.length text.length)
  let shards ← writeShards ⟨c.shardPrefix, c.extension⟩ c.outputDir c.maxShardChars text
  let specifier := Path.specifier ⟨.root, ← read⟩ c.binding shards.index
  detail (.specifier specifier)
  let source ← readText c.binding
  let rewritten ← require .rewrite (Binding.rewrite ⟨c.importName, specifier, c.compress⟩ source)
  writeFile c.binding (Text.Utf8.encode rewritten)
  tell (.rewrote c.binding)
  tell .done
  pure ⟨shards, c.binding, payload.length, text.length⟩

end Build

end WasmEmbed
