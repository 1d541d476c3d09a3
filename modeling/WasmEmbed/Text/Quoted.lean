import WasmEmbed.Text.Escape
import WasmEmbed.Text.Printable

/-!
# Quoted text

How a text is shown inside a message: in quotes, with escapes for the characters that cannot be shown.
Single quotes are used unless the text holds a single quote and no double quote.
-/

namespace WasmEmbed.Text

/-- The quote that a text is put in. -/
def quoteFor (text : List Char) : Char :=
  if text.contains '\'' && !text.contains '"' then '"' else '\''

/-- A character inside quotes. -/
def quotedChar (quote c : Char) : List Char :=
  if c = quote || c = '\\' then ['\\', c]
  else if c = '\n' then ['\\', 'n']
  else if c = '\r' then ['\\', 'r']
  else if c = '\t' then ['\\', 't']
  else if isPrintable c then [c]
  else escape c

/-- A text in quotes. -/
def quoted (text : List Char) : List Char :=
  let quote := quoteFor text
  quote :: (text.flatMap (quotedChar quote) ++ [quote])

end WasmEmbed.Text
