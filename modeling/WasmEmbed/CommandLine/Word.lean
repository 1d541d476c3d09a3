import WasmEmbed.CommandLine.Error
import WasmEmbed.Text.Digit

/-!
# Words of the command line

What a word of the command line is, by itself: a switch, perhaps with a value in the same word, or not.
A long spelling may be cut short as long as only one spelling is meant. Behind the separator `--` no
word is a switch.
-/

namespace WasmEmbed.CommandLine

/-- What follows the spelling of a switch in the same word. -/
structure Attached where
  /-- Whether an equals sign stands in between. -/
  byEquals : Bool
  text : List Char
  deriving Repr, DecidableEq

/-- What a word is. -/
inductive Word where
  /-- The separator. -/
  | separator
  /-- A word that begins like a switch and is none. -/
  | unknown
  /-- A word that is no switch. -/
  | plain
  /-- A switch; whether it is spelled with a single dash; and what is attached to it. -/
  | switch (s : Switch) (isShort : Bool) (attached : Option Attached)
  deriving Repr, DecidableEq

namespace Word

/-- A word with an equals sign, as the parts in front of it and behind it. -/
def splitEquals? (text : List Char) : Option (List Char × List Char) :=
  let front := text.takeWhile (· != '=')
  match text.drop front.length with
  | _ :: back => some (front, back)
  | [] => none

/-- The text behind an equals sign, as it is attached to a switch. -/
def Attached.behindEquals (text : List Char) : Attached := ⟨true, text⟩

/-- Whether a word is a negative number. A line end behind it does not count. -/
def isNegativeNumber (text : List Char) : Bool :=
  let digits (cs : List Char) : Bool := cs.all fun c => (Text.digit? c).isSome
  match text with
  | '-' :: rest =>
    let body := if rest.getLast? = some '\n' then rest.dropLast else rest
    let whole := body.takeWhile (· != '.')
    match body.drop whole.length with
    | [] => !whole.isEmpty && digits whole
    | _ :: fraction => digits whole && !fraction.isEmpty && digits fraction
  | _ => false

/-- Whether a spelling has a single dash. -/
def isShort : List Char → Bool
  | '-' :: c :: _ => c != '-'
  | _ => false

/-- What a word is that begins with a dash and is the spelling of no switch. -/
def ofPart (t : Table) (text : List Char) : Except UsageError Word :=
  if isShort text then
    match t.find? (text.take 2) with
    | some s => .ok (.switch s true (some ⟨false, text.drop 2⟩))
    | none => .ok otherwise
  else
    let (start, attached) :=
      match splitEquals? text with
      | some (front, back) => (front, some (Attached.behindEquals back))
      | none => (text, none)
    match t.spellings.filter fun p => start.isPrefixOf p.1 with
    | [] => .ok otherwise
    | [(spelling, s)] => .ok (.switch s (isShort spelling) attached)
    | several => .error (.ambiguous text (several.map Prod.fst))
where
  /-- What the word is if it is no switch. -/
  otherwise : Word := if isNegativeNumber text || text.contains ' ' then plain else unknown

/-- What a word is, in front of any separator. -/
def ofText (t : Table) (text : List Char) : Except UsageError Word :=
  match text with
  | '-' :: _ :: _ =>
    match t.find? text with
    | some s => .ok (.switch s (isShort text) none)
    | none =>
      match splitEquals? text with
      | some (front, back) =>
        match t.find? front with
        | some s => .ok (.switch s (isShort front) (some (Attached.behindEquals back)))
        | none => ofPart t text
      | none => ofPart t text
  | _ => .ok plain

/-- What the words of a command line are. -/
def ofLine (t : Table) : List (List Char) → Except UsageError (List (List Char × Word))
  | [] => .ok []
  | text :: rest =>
    if text = ['-', '-'] then .ok ((text, separator) :: rest.map fun w => (w, plain))
    else do
      let word ← ofText t text
      let words ← ofLine t rest
      pure ((text, word) :: words)

end Word

end WasmEmbed.CommandLine
