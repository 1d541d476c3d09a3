import WasmEmbed.CommandLine.Word
import WasmEmbed.Config

/-!
# Invocations

What a command line asks for. Its words are taken from left to right: a switch changes the invocation,
and what nothing takes is left over. Short switches may share one word. The first word that is no switch
is the command, and all words behind it belong to it.
-/

namespace WasmEmbed.CommandLine

/-- What a command line asks for. -/
structure Invocation where
  request : Request := {}
  /-- How often more notices are wished for. -/
  verbose : Nat := 0
  /-- How often fewer notices are wished for. -/
  quiet : Nat := 0
  deriving Repr, DecidableEq

/-- The part of the command line whose help is shown or whose usage is wrong. -/
inductive Scope where
  | top
  | bundle
  deriving Repr, DecidableEq

/-- Why a command line leads to no build. -/
inductive Stop where
  | help (scope : Scope)
  | usage (scope : Scope) (error : UsageError)
  deriving Repr, DecidableEq

/-! ## Switches that share a word -/

/-- The switches of a word. -/
structure Cluster where
  /-- The switches, each with its value if it has one. -/
  taken : List (Switch × List Char)
  /-- The last switch if its value is the next word. -/
  open? : Option Switch
  /-- The rest of the word, behind a dash, if no switch begins with it. -/
  rest? : Option (List Char)
  deriving Repr, DecidableEq

/-- The switches of a word that begins with the switch `s`, at most `k` of them. -/
def cluster (t : Table) : Nat → Switch → (isShort : Bool) → Option Attached →
    Except UsageError Cluster
  | _, s, _, none => .ok (if s.takesValue then ⟨[], some s, none⟩ else ⟨[(s, [])], none, none⟩)
  | k, s, isShort, some a =>
    if s.takesValue then .ok ⟨[(s, a.text)], none, none⟩
    else
      match k, a.text with
      | k + 1, c :: rest =>
        if !isShort || a.byEquals || c = '-' then .error (.unwantedValue s a.text)
        else
          match t.find? ['-', c] with
          | none => .ok ⟨[(s, [])], none, some ('-' :: c :: rest)⟩
          | some next => do
            let attached : Option Attached :=
              match rest with
              | [] => none
              | '=' :: value => some ⟨true, value⟩
              | _ => some ⟨false, rest⟩
            let others ← cluster t k next true attached
            pure { others with taken := (s, []) :: others.taken }
      | _, _ => .error (.unwantedValue s a.text)

/-! ## Taking switches -/

/-- The invocation after a switch with a value. -/
def Invocation.take (i : Invocation) (s : Switch) (value : List Char) : Except UsageError Invocation :=
  let r := i.request
  let path := Path.ofText value
  match s with
  | .help => .ok i
  | .root => .ok { i with request := { r with root := some path } }
  | .crate => .ok { i with request := { r with crate := value } }
  | .packageDir => .ok { i with request := { r with packageDir := some path } }
  | .payload => .ok { i with request := { r with payload := some path } }
  | .binding => .ok { i with request := { r with binding := some path } }
  | .outputDir => .ok { i with request := { r with outputDir := some path } }
  | .maxShardChars =>
    match Text.integer? value with
    | some n => .ok { i with request := { r with maxShardChars := n } }
    | none => .error (.notAnInteger s value)
  | .compress => .ok { i with request := { r with compress := true } }
  | .importName => .ok { i with request := { r with importName := value } }
  | .verbose => .ok { i with verbose := i.verbose + 1 }
  | .quiet => .ok { i with quiet := i.quiet + 1 }

/-- The invocation after switches, unless help is asked for. -/
def Invocation.takeAll (scope : Scope) (i : Invocation) :
    List (Switch × List Char) → Except Stop Invocation
  | [] => .ok i
  | (s, value) :: rest =>
    if s = .help then .error (.help scope)
    else
      match i.take s value with
      | .ok j => j.takeAll scope rest
      | .error e => .error (.usage scope e)

/-- The switches of a word together with the value that the next word is, and the words behind it. -/
def close (c : Cluster) (words : List (List Char × Word)) :
    Except UsageError (List (Switch × List Char) × List (List Char × Word)) :=
  match c.open?, words with
  | none, rest => .ok (c.taken, rest)
  | some s, (value, .plain) :: rest => .ok (c.taken ++ [(s, value)], rest)
  | some s, _ => .error (.noValue s)

/-! ## The words of the command -/

/-- An invocation, and the words that are left over. -/
structure Parsed where
  invocation : Invocation := {}
  left : List (List Char) := []
  deriving Repr, DecidableEq

/-- The error of a command's words as a reason to stop. -/
def inBundle {α : Type} (r : Except UsageError α) : Except Stop α := r.mapError (.usage .bundle)

/-- Takes the words of the command, at most `k` of them. -/
def takeWords : Nat → Parsed → List (List Char × Word) → Except Stop Parsed
  | _, p, [] => .ok p
  | 0, p, _ => .ok p
  | k + 1, p, (text, word) :: rest =>
    match word with
    | .switch s isShort attached => do
      let c ← inBundle (cluster .bundle text.length s isShort attached)
      let (taken, behind) ← inBundle (close c rest)
      let i ← p.invocation.takeAll .bundle taken
      takeWords k ⟨i, p.left ++ c.rest?.toList⟩ behind
    | _ => takeWords k { p with left := p.left ++ [text] } rest

/-- Takes the words of the command. -/
def parseBundle (words : List (List Char)) : Except Stop Parsed := do
  let line ← inBundle (Word.ofLine .bundle words)
  takeWords line.length {} line

/-! ## The whole command line -/

/-- The name of the command. -/
def commandName : List Char := "bundle".toList

/-- The error of the command line as a reason to stop. -/
def atTop {α : Type} (r : Except UsageError α) : Except Stop α := r.mapError (.usage .top)

/-- The command and its words, behind the words `left` that nothing takes. -/
def parseCommand (left : List (List Char)) (name : List Char) (words : List (List Char)) :
    Except Stop Invocation :=
  if name = commandName then do
    let p ← parseBundle words
    match left ++ p.left with
    | [] => pure p.invocation
    | unrecognized => .error (.usage .top (.unrecognized unrecognized))
  else .error (.usage .top (.unknownCommand name))

/-- Takes the words up to the command; `left` are those that nothing takes. -/
def takeTop (left : List (List Char)) : List (List Char × Word) → Except Stop Invocation
  | [] => .error (.usage .top .noCommand)
  | (text, word) :: rest =>
    match word with
    | .switch s isShort attached => do
      let c ← atTop (cluster .top text.length s isShort attached)
      let _ ← ({} : Invocation).takeAll .top c.taken
      takeTop (left ++ c.rest?.toList) rest
    | .unknown => takeTop (left ++ [text]) rest
    | .separator =>
      if rest.isEmpty then .error (.usage .top .noCommand)
      else parseCommand left text (rest.map Prod.fst)
    | .plain => parseCommand left text (rest.map Prod.fst)

/-- What a command line asks for. -/
def parse (words : List (List Char)) : Except Stop Invocation := do
  let line ← atTop (Word.ofLine .top words)
  takeTop [] line

end WasmEmbed.CommandLine
