import WasmEmbed.Script.Nested

/-!
# Lists of statements and of expressions

`Nested.statements` reads statements up to a place that a caller names, `Nested.block` reads a block in
braces, and `Nested.entries` reads a list in parentheses or brackets.
-/

namespace WasmEmbed.Script.Nested

/-! ## Statements -/

/-- Moves over the blanks and comments in front of a statement. Unless a semicolon was sought and not
found (`unclosed`), the HTML-like comments among them are listed. -/
def toStatement (n : Nested) (unclosed : Bool) : Reader (List Statement) :=
  go n.depth
where
  /-- At most `k` comments. -/
  go : Nat → Reader (List Statement)
    | 0 => pure []
    | k + 1 => do
      let c ← get
      match if unclosed then none else Token.markupComment? c with
      | some (start, stop) =>
        set stop
        let rest ← go k
        pure (⟨⟨.markupComment, ⟨start.offset, stop.offset⟩⟩, .plain⟩ :: rest)
      | none =>
        let d := c.skipWhile isBlank
        match Token.comment? d with
        | some e => set e; go k
        | none => set d; pure []

/-- Statements up to a place that satisfies `stop`; the cursor is left in front of it. The first one is
read by `first`. -/
def statementsFrom (n : Nested) (first : Reader Closing) (stop : Cursor → Bool) :
    Reader (List Statement) :=
  go n.depth first false
where
  /-- At most `k` further statements. -/
  go : Nat → Reader Closing → Bool → Reader (List Statement)
    | 0, _, _ => Reader.refuse
    | k + 1, reader, unclosed => do
      let comments ← n.toStatement unclosed
      let c ← get
      if stop c then pure comments
      else
        let s ← reader
        let rest ← go k n.statement s.unclosed
        pure (comments ++ s.statement :: rest)

/-- Statements up to a place that satisfies `stop`; the cursor is left in front of it. -/
def statements (n : Nested) (stop : Cursor → Bool) : Reader (List Statement) :=
  n.statementsFrom n.statement stop

/-- A block in braces, from the opening one, without a semicolon behind it. The first statement is
read by `first`. -/
def blockFrom (n : Nested) (first : Reader Closing) : Reader Block := do
  let start ← get
  Reader.exactly "\x7b"
  let statements ← n.statementsFrom first fun c => c.nextIs (· == '\x7d')
  Reader.exactly "\x7d"
  let stop ← get
  pure ⟨⟨start.offset, stop.offset⟩, statements.map Statement.toPiece⟩

/-- A block in braces. -/
def block (n : Nested) : Reader Block := n.blockFrom n.statement

/-- Moves over the unwritten semicolon that may be found behind a closing brace. -/
def skipSemicolon (n : Nested) (operator : Bool) : Reader Bool := do
  match ← n.look ⟨true, operator⟩ with
  | .semicolon c => set c; pure true
  | _ => pure false

/-! ## Lists of expressions -/

/-- The places of a list, from behind the opening bracket to behind the closing one. -/
def entries (n : Nested) (close : Char) : Reader (List Entry) :=
  go n.depth
where
  /-- At most `k` further places. -/
  go : Nat → Reader (List Entry)
    | 0 => Reader.refuse
    | k + 1 => do
      n.toPlain
      let c ← get
      if c.nextIs (· == ',') then
        set c.step
        let rest ← go k
        pure (.hole :: rest)
      else if c.nextIs (· == close) then
        set c.step
        pure [.hole]
      else
        let entry ← match c.dropWord? "...".toList with
          | some d => do
            set d
            let s ← n.expression .inner 0
            pure (Entry.spread s)
          | none => do
            let s ← n.expression .inner 0
            pure (Entry.item s)
        n.toToken (.value false)
        let d ← get
        if d.nextIs (· == ',') then
          set d.step
          let rest ← go k
          pure (entry :: rest)
        else
          Reader.require (d.nextIs (· == close))
          set d.step
          pure [entry]

/-- The arguments of a call, from behind the opening parenthesis. -/
def arguments (n : Nested) : Reader Unit := do
  let entries ← n.entries ')'
  Reader.require (Entry.areArguments entries)

/-- The parameters of a function, from the opening parenthesis. -/
def parameters (n : Nested) : Reader Unit := do
  Reader.exactly "("
  let entries ← n.entries ')'
  Reader.require (Entry.areParameters entries)

end WasmEmbed.Script.Nested
