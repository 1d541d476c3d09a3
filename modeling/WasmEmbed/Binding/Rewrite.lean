import WasmEmbed.Binding.Edit
import WasmEmbed.Binding.Import

/-!
# Rewriting a binding

A binding fetches its module when it is started. `rewrite` makes it decode the module from the
aggregator instead: the body of the loading function is replaced, the statement of the starting function
that fetches is emptied, and the aggregator is imported. Everything else keeps its bytes.
-/

namespace WasmEmbed.Binding

/-- What a binding is rewritten for. -/
structure Target where
  /-- The name under which the text of the module is imported. -/
  importName : Name := Config.defaultImportName
  /-- The text that names the aggregator. -/
  specifier : List Char := "./wasm/index.js".toList
  /-- Whether the module was compressed. -/
  compressed : Bool := false
  deriving Repr, DecidableEq

/-- The name of the starting function. -/
def initName : Name := "init".toList

/-- The place of the statement of the starting function that fetches the module. -/
def fetchIndex : Nat := 2

/-- The top-level function of a name. -/
def requireFunction (o : Script.Outline) (name : Name) :
    Except RewriteError Script.FunctionDeclaration :=
  match o.function? name with
  | some f => .ok f
  | none => .error (.noFunction name)

/-- The places of a binding that are rewritten. -/
structure Sites where
  loadBody : Script.Span
  fetch : Script.Span
  imports : List Script.Span
  deriving Repr, DecidableEq

/-- Finds the places that are rewritten. Both functions have a body once they are found, so this is not asked
for. -/
def Sites.find (source : List Char) (importName : Name) : Except RewriteError Sites := do
  let o ← match Script.Outline.read? source with
    | some o => pure o
    | none => .error .notAScript
  let load ← requireFunction o loadName
  if !load.isAsync then .error (.notAsync loadName)
  let init ← requireFunction o initName
  let pieces := init.body.pieces
  let some fetch := pieces[fetchIndex]?
    | .error (.tooFewStatements initName (fetchIndex + 1) pieces.length)
  let imports := aggregatorImports o (load.body.span.of source) importName
  pure ⟨load.body.span, fetch.span, imports.map Script.ImportDeclaration.span⟩

/-- The edit that drops an import together with a line feed behind it. -/
def dropImport (data : List UInt8) (span : Script.Span) : Edit :=
  if data[span.stop]? = some 10 then ⟨⟨span.start, span.stop + 1⟩, []⟩ else ⟨span, []⟩

/-- The edits of the imports: the first is replaced, the others are dropped. -/
def importEdits (data statement : List UInt8) : List Script.Span → List Edit
  | [] => []
  | first :: others => ⟨first, statement⟩ :: others.map (dropImport data)

/-- The text of a binding after it is rewritten for a target. -/
def rewrite (t : Target) (source : List Char) : Except RewriteError (List Char) := do
  let statement ← importStatement t.importName t.specifier
  let sites ← Sites.find source t.importName
  let body ← loaderBody t.compressed t.importName
  let data := Text.Utf8.encode source
  let edits :=
    ⟨sites.loadBody, Text.Utf8.encode body⟩ :: ⟨sites.fetch, Text.Utf8.encode [';']⟩ ::
      importEdits data (Text.Utf8.encode statement) sites.imports
  let some edited := Edit.applyAll? data edits | .error .overlap
  let text ← (Text.Utf8.decode edited).mapError .notText
  let rewritten := if sites.imports.isEmpty then statement ++ '\n' :: text else text
  match Script.Outline.read? rewritten with
  | some _ => pure rewritten
  | none => .error .brokenScript

end WasmEmbed.Binding
