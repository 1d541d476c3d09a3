import WasmEmbed.Text.Quoted
import WasmEmbed.Text.Utf8

/-!
# Why a binding cannot be rewritten

The causes, and the text of each.
-/

namespace WasmEmbed.Binding

/-- Why a binding cannot be rewritten. That a function has no body is not among the causes: a declaration
without a body in braces is a syntax error, so whatever declares one is no script, and what is found in a
script has its body (`Script.FunctionDeclaration.body`). -/
inductive RewriteError where
  /-- A text cannot stand between quotes as it is. -/
  | specifier (text : List Char)
  /-- The text is no script. -/
  | notAScript
  /-- No top-level function has this name. -/
  | noFunction (name : List Char)
  /-- The function of this name is not asynchronous. -/
  | notAsync (name : List Char)
  /-- The function of this name has too few statements. -/
  | tooFewStatements (name : List Char) (needed found : Nat)
  /-- The new text of the loading function does not declare it. -/
  | noLoader
  /-- Two edits overlap. -/
  | overlap
  /-- The new bytes are no text. -/
  | notText (cause : Text.Utf8.Error)
  /-- The new text is no script. -/
  | brokenScript
  deriving Repr, DecidableEq

/-- A name in quotes. -/
def shown (name : List Char) : String := String.ofList (Text.quoted name)

/-- The text of an error. -/
def RewriteError.message : RewriteError → String
  | specifier text => s!"Unsupported characters in import specifier {shown text}."
  | notAScript => "Binding source does not parse as a JavaScript module."
  | noFunction name => s!"Expected a top-level function declaration named {shown name}."
  | notAsync name => s!"Expected {shown name} to be an async function."
  | tooFewStatements name needed found =>
    s!"Expected at least {needed} statements in {shown name}, found {found}."
  | noLoader => "Internal error: load replacement snippet has no load function."
  | overlap => "Internal error: overlapping edits in binding rewrite."
  | notText cause => cause.message
  | brokenScript => "Rewritten binding no longer parses; refusing to write it."

end WasmEmbed.Binding
