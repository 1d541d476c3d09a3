import WasmEmbed.Path.Basic
import WasmEmbed.Text.Quoted

/-!
# The settings of a build

A `Config` says what a build reads and writes. `Request.resolve` makes one out of what a user asked
for: paths that are not given follow the usual layout, and relative paths are seen from a root
directory. `Config.check` is what a build asks of its config before anything else.
-/

namespace WasmEmbed

/-- The settings of a build. -/
structure Config where
  /-- The module that is embedded. -/
  payload : Path
  /-- The script that loads the module. -/
  binding : Path
  /-- The directory of the shards. -/
  outputDir : Path
  /-- The most characters of a shard. -/
  maxShardChars : Int
  /-- Whether the module is compressed. -/
  compress : Bool
  /-- The name under which the binding imports the text of the module. -/
  importName : Name
  /-- What the names of the shards begin with. -/
  shardPrefix : Name
  /-- What the names of the shards end with, behind a point. -/
  extension : Name
  deriving Repr, DecidableEq

namespace Config

/-- 2 ^ 20 characters. -/
def defaultMaxShardChars : Int := 1048576

def defaultImportName : Name := "wasmBase64".toList

def defaultShardPrefix : Name := "shard".toList

def defaultExtension : Name := "js".toList

end Config

/-! ## Names -/

/-- A character that an identifier may begin with. -/
def beginsIdentifier (c : Char) : Bool := c.isAlpha || c == '_' || c == '$'

/-- A character that may occur in an identifier. -/
def isIdentifierPart (c : Char) : Bool := beginsIdentifier c || c.isDigit

/-- Whether a text is an identifier of ASCII characters. -/
def isIdentifier : List Char → Bool
  | [] => false
  | c :: rest => beginsIdentifier c && rest.all isIdentifierPart

/-- Whether a text can be the extension of a file name. -/
def isExtension (text : List Char) : Bool := !text.isEmpty && text.all Char.isAlphanum

/-- Whether a text can be the name of a crate. -/
def isCrateName (text : List Char) : Bool :=
  !text.isEmpty && text.all fun c => c.isAlphanum || c == '_' || c == '-'

/-! ## Errors -/

/-- What is wrong with settings. -/
inductive ConfigError where
  | crateName (name : List Char)
  | maxShardChars (n : Int)
  | importName (name : List Char)
  | shardPrefix (name : List Char)
  | extension (name : List Char)
  deriving Repr, DecidableEq

/-- The text of an error. -/
def ConfigError.message : ConfigError → String
  | crateName name =>
    s!"Invalid crate name {String.ofList (Text.quoted name)}; expected letters, digits, '_' or '-'."
  | maxShardChars n => s!"Invalid max_shard_chars={n}; expected >= 1."
  | importName name =>
    s!"Invalid import name {String.ofList (Text.quoted name)}; expected a JS identifier."
  | shardPrefix name =>
    s!"Invalid shard prefix {String.ofList (Text.quoted name)}; expected a JS identifier."
  | extension name =>
    s!"Invalid extension {String.ofList (Text.quoted name)}; expected e.g. 'js' or 'mjs'."

namespace Config

/-- What is wrong with a config, if anything is. -/
def check (c : Config) : Except ConfigError Unit :=
  if c.maxShardChars < 1 then .error (.maxShardChars c.maxShardChars)
  else if !isIdentifier c.importName then .error (.importName c.importName)
  else if !isIdentifier c.shardPrefix then .error (.shardPrefix c.shardPrefix)
  else if !isExtension c.extension then .error (.extension c.extension)
  else .ok ()

end Config

/-! ## Requests -/

/-- What a user asks for. -/
structure Request where
  /-- The directory that relative paths are seen from. -/
  root : Option Path := none
  /-- The name of the crate that the module was built from. -/
  crate : Name := "rust_rng".toList
  /-- The directory of the module and the binding. -/
  packageDir : Option Path := none
  payload : Option Path := none
  binding : Option Path := none
  outputDir : Option Path := none
  maxShardChars : Int := Config.defaultMaxShardChars
  compress : Bool := false
  importName : Name := Config.defaultImportName
  deriving Repr, DecidableEq

namespace Request

/-- The stem of the files that are built from a crate: they have underscores for hyphens. -/
def stem (r : Request) : Name := r.crate.map fun c => if c = '-' then '_' else c

/-- The config for a request from the directory `cwd`. -/
def resolve (cwd : Path) (r : Request) : Except ConfigError Config :=
  if !isCrateName r.crate then .error (.crateName r.crate)
  else do
    let root := r.root.getD cwd
    let packageDir := root.join (r.packageDir.getD (.ofText "pkg".toList))
    let config : Config :=
      { payload := root.join (r.payload.getD (packageDir.child (r.stem ++ "_bg.wasm".toList)))
        binding := root.join (r.binding.getD (packageDir.child (r.stem ++ ".js".toList)))
        outputDir := root.join (r.outputDir.getD (.ofText "wasm".toList))
        maxShardChars := r.maxShardChars
        compress := r.compress
        importName := r.importName
        shardPrefix := Config.defaultShardPrefix
        extension := Config.defaultExtension }
    config.check
    pure config

end Request

end WasmEmbed
