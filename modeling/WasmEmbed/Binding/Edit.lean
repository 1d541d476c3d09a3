import WasmEmbed.Script.Cursor

/-!
# Edits

An edit replaces a range of bytes. `Edit.applyAll?` makes a list of edits, in the order of where they
begin, unless one begins before the one in front of it ends.
-/

namespace WasmEmbed.Binding

/-- A replacement for a range of bytes. -/
structure Edit where
  span : Script.Span
  replacement : List UInt8
  deriving Repr, DecidableEq

namespace Edit

/-- Makes one edit. -/
def apply (data : List UInt8) (e : Edit) : List UInt8 :=
  data.take e.span.start ++ e.replacement ++ data.drop e.span.stop

/-- The edits in the order of where they begin; those that begin at one place keep their order. -/
def sorted (edits : List Edit) : List Edit :=
  edits.mergeSort fun a b => decide (a.span.start ≤ b.span.start)

/-- Whether each edit begins at or behind the end of the one in front of it. -/
def areApart : List Edit → Bool
  | a :: b :: rest => decide (a.span.stop ≤ b.span.start) && areApart (b :: rest)
  | _ => true

/-- The bytes after all edits, unless two of them overlap. The last is made first, so the places of the
others stay where they are. -/
def applyAll? (data : List UInt8) (edits : List Edit) : Option (List UInt8) :=
  let ordered := sorted edits
  if areApart ordered then some (ordered.foldr (fun e d => apply d e) data) else none

end Edit

end WasmEmbed.Binding
