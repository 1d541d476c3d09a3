import WasmEmbed.Proofs.Shard.Script

/-!
# Reading shards back

Whoever loads the aggregator imports the shards that its lines name and adds up what their functions
return. `assembly?` reads what an aggregator imports and what it adds up, and `literal?` reads what the
function of a shard returns. Both read back what was written (`assembly?_aggregator`, `literal?_script`).
-/

namespace WasmEmbed.Shard

open Payload

/-! ## Reading words -/

/-- The text behind a word. -/
def dropWord? (word text : List Char) : Option (List Char) :=
  if word.isPrefixOf text then some (text.drop word.length) else none

theorem dropWord?_append (word rest : List Char) : dropWord? word (word ++ rest) = some rest := by
  rw [dropWord?, if_pos (List.isPrefixOf_iff_prefix.mpr (List.prefix_append word rest)), List.drop_left]

theorem takeWhile_append_cons {p : Char → Bool} {front : List Char} (h : ∀ c ∈ front, p c = true)
    {d : Char} (hd : p d = false) (back : List Char) : (front ++ d :: back).takeWhile p = front := by
  rw [List.takeWhile_append_of_pos h, List.takeWhile_cons_of_neg (by simp [hd]), List.append_nil]

theorem dropWhile_append_cons {p : Char → Bool} {front : List Char} (h : ∀ c ∈ front, p c = true)
    {d : Char} (hd : p d = false) (back : List Char) :
    (front ++ d :: back).dropWhile p = d :: back := by
  rw [List.dropWhile_append_of_pos h, List.dropWhile_cons_of_neg (by simp [hd])]

/-- What a step reads over and over, at most `k` times, and the text behind it. -/
def repeated {α : Type} (step : List Char → Option (α × List Char)) :
    (k : Nat) → List Char → List α × List Char
  | 0, text => ([], text)
  | k + 1, text =>
    match step text with
    | none => ([], text)
    | some (a, rest) => (a :: (repeated step k rest).1, (repeated step k rest).2)

/-- A step that reads each of some pieces, and nothing behind them, reads them all. -/
theorem repeated_flatMap {α β : Type} {step : List Char → Option (α × List Char)} {write : β → List Char}
    {value : β → α} {pieces : List β} {tail : List Char} {k : Nat} (hk : pieces.length ≤ k)
    (hstep : ∀ b ∈ pieces, ∀ rest, step (write b ++ rest) = some (value b, rest))
    (htail : step tail = none) :
    repeated step k (pieces.flatMap write ++ tail) = (pieces.map value, tail) := by
  induction pieces generalizing k with
  | nil =>
      cases k with
      | zero => rfl
      | succ k => simp [repeated, htail]
  | cons b rest ih =>
      cases k with
      | zero => simp at hk
      | succ k =>
          rw [List.flatMap_cons, List.append_assoc, repeated, hstep b (by simp)]
          simp only
          rw [ih (Nat.le_of_succ_le_succ hk) fun b' hb' => hstep b' (by simp [hb'])]
          rfl

/-! ## The aggregator -/

/-- The name and the file that an import line gives to a shard, and the text behind the line. -/
def importedShard? (text : List Char) : Option ((Name × Name) × List Char) := do
  let rest ← dropWord? "import ".toList text
  let name := rest.takeWhile isIdentifierPart
  let rest ← dropWord? " from './".toList (rest.dropWhile isIdentifierPart)
  let file := rest.takeWhile (· != '\'')
  let rest ← dropWord? "';\n".toList (rest.dropWhile (· != '\''))
  pure ((name, file), rest)

/-- The name of the function that a summand calls, and the text behind the summand. -/
def summand? (text : List Char) : Option (Name × List Char) := do
  let rest ← dropWord? " + ".toList text
  let name := rest.takeWhile isIdentifierPart
  let rest ← dropWord? "()".toList (rest.dropWhile isIdentifierPart)
  pure (name, rest)

/-- The shards that an aggregator imports, each a name and a file, and the names of the functions whose
results it adds up. -/
def assembly? (text : List Char) : Option (List (Name × Name) × List Name) := do
  let (shards, rest) := repeated importedShard? text.length text
  let rest ← dropWord? "export default \"\"".toList rest
  let (names, rest) := repeated summand? rest.length rest
  if rest = ";\n".toList then pure (shards, names) else none

theorem bne_quote_of_isIdentifierPart {c : Char} (h : isIdentifierPart c = true) : (c != '\'') = true := by
  have hquote : isIdentifierPart '\'' = false := by decide
  rw [bne_iff_ne]
  rintro rfl
  rw [hquote] at h
  cases h

theorem importedShard?_append {extension name : Name} (hname : ∀ c ∈ name, isIdentifierPart c = true)
    (hextension : ∀ c ∈ extension, isIdentifierPart c = true) (rest : List Char) :
    importedShard? (importLine extension name ++ rest) =
      some ((name, withExtension name extension), rest) := by
  have hfile : ∀ c ∈ withExtension name extension, (c != '\'') = true := by
    intro c hc
    rcases List.mem_append.mp hc with hc | hc
    · exact bne_quote_of_isIdentifierPart (hname c hc)
    · rcases List.mem_cons.mp hc with rfl | hc
      · decide
      · exact bne_quote_of_isIdentifierPart (hextension c hc)
  have hline : importLine extension name ++ rest = "import ".toList ++ (name ++ ' ' ::
      ("from './".toList ++ (withExtension name extension ++ '\'' :: (";\n".toList ++ rest)))) := by
    unfold importLine
    rw [List.append_assoc, List.append_assoc, List.append_assoc, List.append_assoc]
    rfl
  rw [hline, importedShard?, dropWord?_append, Option.bind_eq_bind, Option.bind_some]
  rw [takeWhile_append_cons hname (by decide), dropWhile_append_cons hname (by decide)]
  have hfrom : ∀ text, ' ' :: ("from './".toList ++ text) = " from './".toList ++ text := fun _ => rfl
  rw [hfrom, dropWord?_append, Option.bind_some]
  rw [takeWhile_append_cons hfile (by decide), dropWhile_append_cons hfile (by decide)]
  have hend : '\'' :: (";\n".toList ++ rest) = "';\n".toList ++ rest := rfl
  rw [hend, dropWord?_append, Option.bind_some]
  rfl

theorem summand?_append {name : Name} (hname : ∀ c ∈ name, isIdentifierPart c = true)
    (rest : List Char) :
    summand? (" + ".toList ++ name ++ "()".toList ++ rest) = some (name, rest) := by
  have hline : " + ".toList ++ name ++ "()".toList ++ rest =
      " + ".toList ++ (name ++ '(' :: (")".toList ++ rest)) := by
    rw [List.append_assoc, List.append_assoc]
    rfl
  rw [hline, summand?, dropWord?_append, Option.bind_eq_bind, Option.bind_some]
  rw [takeWhile_append_cons hname (by decide), dropWhile_append_cons hname (by decide)]
  have hcall : '(' :: (")".toList ++ rest) = "()".toList ++ rest := rfl
  rw [hcall, dropWord?_append, Option.bind_some]
  rfl

theorem length_le_length_flatMap {α : Type} {write : α → List Char} (h : ∀ a, write a ≠ [])
    (pieces : List α) (tail : List Char) :
    pieces.length ≤ (pieces.flatMap write ++ tail).length := by
  induction pieces with
  | nil => simp
  | cons a rest ih =>
      have := List.length_pos_iff.mpr (h a)
      rw [List.flatMap_cons, List.append_assoc, List.length_append, List.length_cons]
      omega

/-- What an aggregator imports and adds up is read back. -/
theorem assembly?_aggregator {names : List Name} {extension : Name}
    (hnames : ∀ name ∈ names, ∀ c ∈ name, isIdentifierPart c = true)
    (hextension : ∀ c ∈ extension, isIdentifierPart c = true) :
    assembly? (aggregator names extension) =
      some (names.map fun name => (name, withExtension name extension), names) := by
  have hline : ∀ name, importLine extension name ≠ [] := fun name h => by
    cases h
  have hsum : ∀ name : Name, " + ".toList ++ name ++ "()".toList ≠ [] := fun name h => by
    cases h
  have htext : aggregator names extension = names.flatMap (importLine extension) ++
      ("export default \"\"".toList ++
        (names.flatMap (fun name => " + ".toList ++ name ++ "()".toList) ++ ";\n".toList)) := by
    unfold aggregator
    rw [List.append_assoc, List.append_assoc]
  -- The imports end at the export, and the summands at the end of the statement.
  have himports : ∀ rest, importedShard? ("export default \"\"".toList ++ rest) = none := fun _ => rfl
  have hend : summand? ";\n".toList = none := rfl
  rw [htext, assembly?, repeated_flatMap (length_le_length_flatMap hline names _)
    (fun name hname rest => importedShard?_append (hnames name hname) hextension rest) (himports _)]
  simp only
  rw [dropWord?_append, Option.bind_eq_bind, Option.bind_some,
    repeated_flatMap (length_le_length_flatMap hsum names _)
      (fun name hname rest => summand?_append (hnames name hname) rest) hend]
  simp only [List.map_id', if_true]
  rfl

/-! ## Shards -/

/-- Whether a character stands for itself in a string between double quotes. -/
def isVerbatim (c : Char) : Bool := c != '"' && c != '\\' && c != '\n' && c != '\r'

/-- The string that the function of a shard returns. -/
def literal? (text : List Char) : Option (List Char) := do
  let rest ← dropWord? "export default function() \x7b return \"".toList text
  if rest.dropWhile isVerbatim = "\"; \x7d".toList then pure (rest.takeWhile isVerbatim) else none

theorem isVerbatim_of_isAllowed {c : Char} (h : Base64.isAllowed c = true) : isVerbatim c = true := by
  have hne : ∀ d, Base64.isAllowed d = false → (c != d) = true := by
    intro d hd
    rw [bne_iff_ne]
    rintro rfl
    rw [hd] at h
    cases h
  rw [isVerbatim, hne _ (by decide), hne _ (by decide), hne _ (by decide), hne _ (by decide)]
  rfl

/-- The chunk of a shard is read back. -/
theorem literal?_script {chunk : List Char} (h : ∀ c ∈ chunk, Base64.isAllowed c = true) :
    literal? (scriptText chunk) = some chunk := by
  have hchunk : ∀ c ∈ chunk, isVerbatim c = true := fun c hc => isVerbatim_of_isAllowed (h c hc)
  have htext : scriptText chunk = "export default function() \x7b return \"".toList ++
      (chunk ++ '"' :: "; \x7d".toList) := by
    unfold scriptText
    rw [List.append_assoc]
    rfl
  rw [htext, literal?, dropWord?_append, Option.bind_eq_bind, Option.bind_some]
  rw [takeWhile_append_cons hchunk (by decide), dropWhile_append_cons hchunk (by decide)]
  rfl

end WasmEmbed.Shard
