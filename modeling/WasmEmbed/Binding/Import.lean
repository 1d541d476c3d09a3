import WasmEmbed.Binding.Loader

/-!
# The import of the aggregator

A binding imports the text of the module from the aggregator, under a name of its own. Imports that
were written for an earlier build are known by their name.
-/

namespace WasmEmbed.Binding

/-- Characters that cannot stand in a specifier. -/
def isUnquotable (c : Char) : Bool := c == '\'' || c == '\\' || c == '\n' || c == '\r'

/-- The statement that imports the default of a script under a name. -/
def importStatement (name specifier : List Char) : Except RewriteError (List Char) :=
  if specifier.any isUnquotable then .error (.specifier specifier)
  else .ok ("import ".toList ++ name ++ " from '".toList ++ specifier ++ "';".toList)

/-- The line that imports the default of a script under a name. -/
def importLine (name specifier : List Char) : Except RewriteError (List Char) :=
  (importStatement name specifier).map (· ++ ['\n'])

/-- The imports under one of the names that stand for the aggregator: the new name, and the one that
the body of the loading function decodes. -/
def aggregatorImports (o : Script.Outline) (loadBody : List Char) (importName : Name) :
    List Script.ImportDeclaration :=
  let names := importName :: (previousName? loadBody).toList
  o.imports.filter fun i => i.defaultName.any names.contains

end WasmEmbed.Binding
