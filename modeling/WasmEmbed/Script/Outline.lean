import WasmEmbed.Script.Cursor

/-!
# The outline of a script

Reading a script keeps its outline and forgets the inside of its expressions. An outline is the list
of top-level statements, each with its kind and its bytes. Of a function declaration it also holds
the name and the statements of the body, and of an import the names that it binds and the module
that it names.

Ordinary comments are no part of an outline. An HTML-like comment that stands where a statement could
stand is listed as a statement of its own kind.
-/

namespace WasmEmbed.Script

/-- The kinds of statement. -/
inductive Kind where
  | blockStatement
  | breakStatement
  | classDeclaration
  | continueStatement
  | debuggerStatement
  | doStatement
  | emptyStatement
  | exportStatement
  | expressionStatement
  | forInStatement
  | forStatement
  | functionDeclaration
  | generatorDeclaration
  | ifStatement
  | importStatement
  | labeledStatement
  | lexicalDeclaration
  | markupComment
  | returnStatement
  | switchStatement
  | throwStatement
  | tryStatement
  | variableDeclaration
  | whileStatement
  | withStatement
  deriving Repr, DecidableEq

namespace Kind

/-- The name under which a kind is reported. -/
def label : Kind → String
  | blockStatement => "statement_block"
  | breakStatement => "break_statement"
  | classDeclaration => "class_declaration"
  | continueStatement => "continue_statement"
  | debuggerStatement => "debugger_statement"
  | doStatement => "do_statement"
  | emptyStatement => "empty_statement"
  | exportStatement => "export_statement"
  | expressionStatement => "expression_statement"
  | forInStatement => "for_in_statement"
  | forStatement => "for_statement"
  | functionDeclaration => "function_declaration"
  | generatorDeclaration => "generator_function_declaration"
  | ifStatement => "if_statement"
  | importStatement => "import_statement"
  | labeledStatement => "labeled_statement"
  | lexicalDeclaration => "lexical_declaration"
  | markupComment => "html_comment"
  | returnStatement => "return_statement"
  | switchStatement => "switch_statement"
  | throwStatement => "throw_statement"
  | tryStatement => "try_statement"
  | variableDeclaration => "variable_declaration"
  | whileStatement => "while_statement"
  | withStatement => "with_statement"

end Kind

/-- A statement as a member of a block: its kind and its bytes. -/
structure Piece where
  kind : Kind
  span : Span
  deriving Repr, DecidableEq

/-- A block in braces. -/
structure Block where
  span : Span
  pieces : List Piece
  deriving Repr, DecidableEq

/-- A function that is declared by a statement. The span begins at `async` or `function`. -/
structure FunctionDeclaration where
  isAsync : Bool
  isGenerator : Bool
  name : List Char
  span : Span
  body : Block
  deriving Repr, DecidableEq

namespace FunctionDeclaration

/-- The kind of statement that a function declaration is. -/
def kind (f : FunctionDeclaration) : Kind :=
  if f.isGenerator then .generatorDeclaration else .functionDeclaration

end FunctionDeclaration

/-- What an import takes from the other module besides its default: all of it, or a named export. -/
inductive Imported where
  | everything
  | named (name : List Char)
  deriving Repr, DecidableEq

/-- A local name and what it stands for. -/
structure ImportBinding where
  imported : Imported
  localName : List Char
  deriving Repr, DecidableEq

/-- An import statement: the local name of the default export, the other names that it binds, and the
text between the quotes of the module it names. -/
structure ImportDeclaration where
  span : Span
  defaultName : Option (List Char)
  bindings : List ImportBinding
  specifier : List Char
  deriving Repr, DecidableEq

/-- What a statement means for the outline. An exported function counts as a function. -/
inductive Role where
  | plain
  | function (declaration : FunctionDeclaration)
  | importing (declaration : ImportDeclaration)
  deriving Repr, DecidableEq

/-- A statement of the outline. -/
structure Statement extends Piece where
  role : Role
  deriving Repr, DecidableEq

/-- The outline of a whole script. -/
structure Outline where
  statements : List Statement
  deriving Repr, DecidableEq

namespace Outline

/-- The functions that the top-level statements declare, in order. -/
def functions (o : Outline) : List FunctionDeclaration :=
  o.statements.filterMap fun s =>
    match s.role with
    | .function f => some f
    | _ => none

/-- The top-level imports, in order. -/
def imports (o : Outline) : List ImportDeclaration :=
  o.statements.filterMap fun s =>
    match s.role with
    | .importing i => some i
    | _ => none

/-- The first top-level function of a name. -/
def function? (o : Outline) (name : List Char) : Option FunctionDeclaration :=
  o.functions.find? fun f => f.name == name

end Outline

end WasmEmbed.Script
