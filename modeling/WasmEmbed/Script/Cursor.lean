/-!
# Cursors: how far a script has been read

A `Cursor` is the text that is still to be read together with the number of UTF-8 bytes that were
read before it. The reading functions look at the remaining text alone; the offset only records
where they are, so that a statement can be located in the bytes of the file.

`Reader α` reads an `α` from the front of the remaining text or refuses. It never goes backwards.
-/

namespace WasmEmbed.Script

/-- The rest of a script and the number of bytes in front of it. -/
structure Cursor where
  offset : Nat
  rest : List Char
  deriving Repr, DecidableEq

/-- A half-open range of bytes. -/
structure Span where
  start : Nat
  stop : Nat
  deriving Repr, DecidableEq, Inhabited

/-- The number of bytes a text takes in UTF-8. -/
def byteCount : List Char → Nat
  | [] => 0
  | c :: text => c.utf8Size + byteCount text

@[simp] theorem byteCount_nil : byteCount [] = 0 := rfl

@[simp] theorem byteCount_cons (c : Char) (text : List Char) :
    byteCount (c :: text) = c.utf8Size + byteCount text := rfl

namespace Cursor

/-- The cursor in front of a whole text. -/
def ofText (text : List Char) : Cursor := ⟨0, text⟩

/-- Moves over one character; stays where it is at the end. -/
def step (c : Cursor) : Cursor :=
  match c.rest with
  | [] => c
  | x :: xs => ⟨c.offset + x.utf8Size, xs⟩

/-- Moves over `n` characters, or to the end if fewer are left. -/
def skip : Nat → Cursor → Cursor
  | 0, c => c
  | n + 1, c => skip n c.step

/-- Moves over the longest run of characters that satisfy `p`. -/
def skipWhile (p : Char → Bool) (c : Cursor) : Cursor :=
  go c.offset c.rest
where
  /-- The run starts `o` bytes into the script. -/
  go (o : Nat) : List Char → Cursor
    | [] => ⟨o, []⟩
    | x :: xs => if p x then go (o + x.utf8Size) xs else ⟨o, x :: xs⟩

/-- Moves over `word` if the text starts with it. -/
def dropWord? : List Char → Cursor → Option Cursor
  | [], c => some c
  | w :: ws, ⟨o, x :: xs⟩ => if w = x then dropWord? ws ⟨o + x.utf8Size, xs⟩ else none
  | _ :: _, ⟨_, []⟩ => none

/-- Whether the next character satisfies `p`; at the end it does not. -/
def nextIs (p : Char → Bool) (c : Cursor) : Bool :=
  match c.rest with
  | [] => false
  | x :: _ => p x

/-- The characters between two cursors on one text. -/
def textUpTo (c d : Cursor) : List Char :=
  go c.offset c.rest
where
  /-- The characters from `o` bytes into the script. -/
  go (o : Nat) : List Char → List Char
    | [] => []
    | x :: xs => if o < d.offset then x :: go (o + x.utf8Size) xs else []

end Cursor

/-- The characters of a text in a range of its bytes. -/
def Span.of (span : Span) (text : List Char) : List Char :=
  go 0 text
where
  /-- The characters of the range from `o` bytes into the text. -/
  go (o : Nat) : List Char → List Char
    | [] => []
    | x :: xs =>
      if span.stop ≤ o then []
      else if span.start ≤ o then x :: go (o + x.utf8Size) xs
      else go (o + x.utf8Size) xs

/-- Reads from the front of a script or refuses. -/
abbrev Reader (α : Type) := StateT Cursor Option α

namespace Reader

/-- Refuses. -/
def refuse {α : Type} : Reader α := fun _ => none

/-- Goes on only if `b` holds. -/
def require (b : Bool) : Reader Unit := if b then pure () else refuse

/-- Runs a step that either moves the cursor or refuses. -/
def move (f : Cursor → Option Cursor) : Reader Unit :=
  fun c => (f c).map fun d => ((), d)

/-- Reads exactly the characters of `text`, with nothing in front. -/
def exactly (text : String) : Reader Unit := move (Cursor.dropWord? text.toList)

end Reader

end WasmEmbed.Script
