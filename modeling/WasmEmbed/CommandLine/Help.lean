import WasmEmbed.CommandLine.Invocation

/-!
# Help texts

What is shown for help and in front of a usage error.
-/

namespace WasmEmbed.CommandLine

namespace Scope

/-- The name under which a part of the command line speaks. -/
def program : Scope → String
  | top => "wasm-bundler"
  | bundle => "wasm-bundler bundle"

/-- How a part of the command line is used. -/
def usage : Scope → String
  | top => "usage: wasm-bundler [-h] \x7bbundle\x7d ...\n"
  | bundle =>
    "usage: wasm-bundler bundle [-h] [--root ROOT] [--crate CRATE]\n" ++
    "                           [--pkg-dir PKG_DIR] [--payload PAYLOAD]\n" ++
    "                           [--binding BINDING] [-o OUTPUT_DIR]\n" ++
    "                           [--max-shard-chars MAX_SHARD_CHARS] [--compress]\n" ++
    "                           [--import-name IMPORT_NAME] [-v] [-q]\n"

/-- What is told about a part of the command line behind its usage. -/
def description : Scope → String
  | top =>
    "\n" ++
    "Embed a wasm-pack build as sharded base64 JS modules and rewire its binding to\n" ++
    "load them.\n" ++
    "\n" ++
    "positional arguments:\n" ++
    "  \x7bbundle\x7d\n" ++
    "    bundle    Shard the .wasm payload and rewrite the JS binding in place.\n" ++
    "\n" ++
    "options:\n" ++
    "  -h, --help  show this help message and exit\n"
  | bundle =>
    "\n" ++
    "options:\n" ++
    "  -h, --help            show this help message and exit\n" ++
    "  --root ROOT           Directory the default layout is resolved against\n" ++
    "                        (defaults to the current directory).\n" ++
    "  --crate CRATE         Crate name used by wasm-pack for <crate>_bg.wasm and\n" ++
    "                        <crate>.js.\n" ++
    "  --pkg-dir PKG_DIR     wasm-pack output directory (defaults to <root>/pkg).\n" ++
    "  --payload PAYLOAD     Explicit .wasm path (overrides --crate/--pkg-dir).\n" ++
    "  --binding BINDING     Explicit JS binding path, rewritten in place\n" ++
    "                        (overrides --crate/--pkg-dir).\n" ++
    "  -o OUTPUT_DIR, --output-dir OUTPUT_DIR\n" ++
    "                        Directory for shard modules and index.js (defaults to\n" ++
    "                        <root>/wasm).\n" ++
    "  --max-shard-chars MAX_SHARD_CHARS\n" ++
    "                        Maximum characters per shard module.\n" ++
    "  --compress            Deflate the payload before base64-encoding it\n" ++
    "                        (inflated at load time).\n" ++
    "  --import-name IMPORT_NAME\n" ++
    "                        Local name the binding uses for the aggregated base64\n" ++
    "                        string.\n" ++
    "  -v, --verbose         Enable verbose logging. Pass multiple times for more\n" ++
    "                        detail.\n" ++
    "  -q, --quiet           Reduce logging. Pass multiple times to suppress more\n" ++
    "                        output.\n"

/-- The help text of a part of the command line. -/
def help (s : Scope) : String := s.usage ++ s.description

/-- What is shown for a usage error. -/
def complaint (s : Scope) (e : UsageError) : String :=
  s.usage ++ s.program ++ ": error: " ++ e.message ++ "\n"

end Scope

end WasmEmbed.CommandLine
