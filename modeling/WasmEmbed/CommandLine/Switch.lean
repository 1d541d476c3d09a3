/-!
# Switches

The switches of the command line, how they are spelled, and which of them take a value. A `Table` holds
the spellings that are known at some point of the command line; their order is that of the help text.
-/

namespace WasmEmbed.CommandLine

/-- The switches. -/
inductive Switch where
  | help
  | root
  | crate
  | packageDir
  | payload
  | binding
  | outputDir
  | maxShardChars
  | compress
  | importName
  | verbose
  | quiet
  deriving Repr, DecidableEq

namespace Switch

/-- The spellings of a switch. -/
def spellings : Switch → List (List Char)
  | help => ["-h".toList, "--help".toList]
  | root => ["--root".toList]
  | crate => ["--crate".toList]
  | packageDir => ["--pkg-dir".toList]
  | payload => ["--payload".toList]
  | binding => ["--binding".toList]
  | outputDir => ["-o".toList, "--output-dir".toList]
  | maxShardChars => ["--max-shard-chars".toList]
  | compress => ["--compress".toList]
  | importName => ["--import-name".toList]
  | verbose => ["-v".toList, "--verbose".toList]
  | quiet => ["-q".toList, "--quiet".toList]

/-- Whether a switch takes a value. -/
def takesValue : Switch → Bool
  | help => false
  | compress => false
  | verbose => false
  | quiet => false
  | _ => true

/-- The name of a switch in messages: all its spellings. -/
def label (s : Switch) : List Char := ['/'].intercalate s.spellings

end Switch

/-- The switches that are known, in order. -/
abbrev Table := List Switch

namespace Table

/-- All spellings with their switches. -/
def spellings (t : Table) : List (List Char × Switch) :=
  t.flatMap fun s => s.spellings.map fun spelling => (spelling, s)

/-- The switch of a spelling. -/
def find? (t : Table) (spelling : List Char) : Option Switch := t.spellings.lookup spelling

/-- The switches that are known in front of the command. -/
def top : Table := [.help]

/-- The switches of the command. -/
def bundle : Table :=
  [.help, .root, .crate, .packageDir, .payload, .binding, .outputDir, .maxShardChars, .compress,
    .importName, .verbose, .quiet]

end Table

end WasmEmbed.CommandLine
