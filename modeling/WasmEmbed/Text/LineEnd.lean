/-!
# Line ends

A text that is read from a file has its lines ended by line feeds alone: a carriage return, with or
without a line feed behind it, counts as a line end.
-/

namespace WasmEmbed.Text

/-- The text in front of which `done` stands backwards, with line feeds for all line ends. -/
def unifyLineEndsFrom (done : List Char) : List Char → List Char
  | [] => done.reverse
  | '\r' :: '\n' :: rest => unifyLineEndsFrom ('\n' :: done) rest
  | c :: rest => unifyLineEndsFrom ((if c = '\r' then '\n' else c) :: done) rest

/-- A text with line feeds for all line ends. -/
def unifyLineEnds (text : List Char) : List Char := unifyLineEndsFrom [] text

end WasmEmbed.Text
