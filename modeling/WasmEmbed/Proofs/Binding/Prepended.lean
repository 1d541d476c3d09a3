import WasmEmbed.Proofs.Binding.Bindings
import WasmEmbed.Proofs.Binding.ImportLine
import WasmEmbed.Proofs.Script.Kept.Statement
import WasmEmbed.Proofs.Script.Prepended

/-!
# The import in front of a script

The line that imports the aggregator is put in front of a script. If the line is an import that ends with
its semicolon, which it is under every identifier (`isImportLine_of_isIdentifier`), the script behind it is
read as before, moved by the bytes of the line (`read?_importLine_append`). Only what may stand at the
beginning of a script alone is refused behind the line: a line that names an interpreter, and a byte order
mark in front of an HTML-like comment.
-/

namespace WasmEmbed.Binding

open Script Outline

variable {name specifier source line : List Char} {l out : Outline}

/-- A line is an import that ends with the semicolon at its end. -/
def IsImportLine (line : List Char) : Prop := ∃ i : ImportDeclaration, i.Says line [';', '\n']

/-- The line for an identifier is an import if it is a script. -/
theorem isImportLine_of_isIdentifier (hname : isIdentifier name = true)
    (hline : importLine name specifier = .ok line)
    (hl : (read? line).isSome = true) : IsImportLine line := by
  obtain ⟨-, hnull⟩ := (isSome_read?_importLine hname hline).mp hl
  obtain ⟨hany, rfl⟩ := importLine_eq_ok hline
  have hplain : ∀ c ∈ specifier, Token.isPlain '\'' c = true := fun c hc =>
    isPlain_iff.mpr ⟨Bool.eq_false_iff.mpr (List.any_eq_false.mp hany c hc), fun h => hnull (h ▸ hc)⟩
  have hsays : ImportDeclaration.Says ⟨⟨0, 0⟩, some name, [], specifier⟩ _ _ := says_default hname hplain rfl
  have hend : "';".toList = ['\''] ++ [';'] := by decide
  rw [hend, ← List.append_assoc] at hsays ⊢
  rw [List.append_assoc _ [';']]
  exact ⟨_, hsays.change [';', '\n']⟩

/-- A line is an import if the clause that is read behind its first word ends in front of the semicolon. -/
theorem isImportLine_of_importClause {k o b : Nat} {t : List Char} {clause : Clause} (ht : t.length ≤ k)
    (h : (Nested.ofDepth k).importClause ⟨o, t⟩ = some (clause, ⟨b, [';', '\n']⟩)) :
    IsImportLine ("import".toList ++ t) := by
  obtain ⟨-, ts, hts, hsaid⟩ := Nested.parses_importClause (n := .ofDepth k) ⟨o, t⟩ ht (le_refl _) clause _ h
  exact ⟨⟨⟨0, 0⟩, clause.defaultName, clause.bindings, clause.specifier⟩, t, ts, rfl, hts, hsaid⟩

/-- The line begins with the word of an import, and a semicolon ends it. -/
theorem exists_eq_of_importLine (h : importLine name specifier = .ok line) :
    ∃ w t, line = w ++ ['\n'] ∧ ∀ u, w ++ u = "import".toList ++ ' ' :: (t ++ ';' :: u) := by
  obtain ⟨-, rfl⟩ := importLine_eq_ok h
  have hword : "import ".toList = "import".toList ++ [' '] := by decide
  have hend : "';".toList = ['\'', ';'] := by decide
  refine ⟨_, name ++ " from '".toList ++ specifier ++ ['\''], rfl, fun u => ?_⟩
  rw [hword, hend]
  simp only [List.append_assoc, List.cons_append, List.nil_append]

/-- The line is read as one import, and the script behind it as before. -/
theorem exists_importing (hline : importLine name specifier = .ok line) (himport : IsImportLine line)
    (hl : (read? line).isSome = true) :
    ∃ s i, s.role = .importing i ∧ ∀ {source out}, read? source = some out →
      read? (line ++ source) = if HasInterpreter source ∨ MarksMarkup source then none
        else some ⟨s :: (out.moved (byteCount line)).statements⟩ := by
  obtain ⟨w, t, rfl, hw⟩ := exists_eq_of_importLine hline
  obtain ⟨i, hsays⟩ := himport
  have hstarts : ∀ u, ∃ x v, w ++ u = x :: v ∧ isIdentifierPart x = true := fun u =>
    ⟨'i', _, (hw u).trans rfl, by decide⟩
  have hlength : ∀ u, (w ++ u).length = (t ++ ';' :: u).length + 7 := by
    intro u
    have hword : "import".toList.length = 6 := by decide
    rw [hw, List.length_append, List.length_cons, hword]
    omega
  -- The statement is read from the line alone, and what is read does not depend on what follows.
  have hread := isSome_statementAt (hstarts _) hl
  rw [hlength, hw] at hread
  rw [hw] at hsays
  obtain ⟨closing, b, hclosed, ⟨j, hrole⟩, hagain⟩ := Nested.exists_closing hsays (by omega) hread
  refine ⟨closing.statement, j, hrole, fun {source out} ho => ?_⟩
  have hbehind : (Nested.ofDepth (2 * (w ++ '\n' :: source).length + 7)).statementAt
      ⟨0, w ++ '\n' :: source⟩ =
      some (closing, ⟨b, '\n' :: source⟩) := by
    rw [hlength, hw]
    refine hagain ?_
    simp only [List.length_append, List.length_cons, List.length_nil]
    omega
  have hbytes : byteCount (w ++ ['\n']) = byteCount w + 1 := byteCount_append w ['\n']
  rw [hbytes, List.append_assoc]
  exact read?_prepended (hstarts _) hbehind hclosed ho

/-- The import in front of a script moves what is read from it by the bytes of the line, and nothing else. -/
theorem read?_importLine_append (hline : importLine name specifier = .ok line) (himport : IsImportLine line)
    (hl : read? line = some l) (ho : read? source = some out) :
    (HasInterpreter source ∨ MarksMarkup source → read? (line ++ source) = none) ∧
    (¬ (HasInterpreter source ∨ MarksMarkup source) → ∃ i both, l.imports = [i] ∧ l.functions = [] ∧
      read? (line ++ source) = some both ∧
      both.statements = l.statements ++ out.statements.map (Statement.moved (byteCount line)) ∧
      both.imports = i :: out.imports.map (ImportDeclaration.moved (byteCount line)) ∧
      both.functions = out.functions.map (FunctionDeclaration.moved (byteCount line))) := by
  obtain ⟨⟨piece, role⟩, i, rfl, hread⟩ := exists_importing hline himport (Option.isSome_of_eq_some hl)
  have hempty : read? [] = some ⟨[]⟩ := by decide
  have halone := hread hempty
  rw [List.append_nil, hl, if_neg (by decide)] at halone
  obtain rfl := Option.some.inj halone
  rw [hread ho]
  refine ⟨fun h => if_pos h, fun h => ⟨i, _, rfl, rfl, if_neg h, rfl, ?_, ?_⟩⟩
  · rw [← imports_moved]
    rfl
  · rw [← functions_moved]
    rfl

namespace Sample

/-- A name with another one behind it. -/
def names : List Char := "w, \x7bdefault as v\x7d".toList

/-- A script behind a mark, with a comment and an import in front of a function. -/
def marked : List Char :=
  "\ufeff/*é*/import a from 'b';\n/`/;\nexport async function f() \x7b g \x7d\n".toList

/-- A script in which a line feed stands in front of the line that names an interpreter. -/
def lateInterpreter : List Char := "\n#!x\nfunction f() \x7b\x7d\n".toList

/-- A script in which a mark stands in front of an HTML-like comment. -/
def markedMarkup : List Char := "\ufeff<!-- x\nfunction f() \x7b\x7d\n".toList

/-- A script that begins with a regular expression, or goes on with a division. -/
def slashes : List Char := "/x/\nfunction f() \x7b\x7d\n".toList

end Sample

/-- Behind the line, the import and the function of a marked script are found again. -/
theorem read?_importLine_append_marked : ∃ line l out i both,
    importLine Sample.names "./w.js".toList = .ok line ∧
    IsImportLine line ∧ read? line = some l ∧ read? Sample.marked = some out ∧ out.imports.length = 1 ∧
    out.functions.length = 1 ∧ read? (line ++ Sample.marked) = some both ∧
    both.imports = i :: out.imports.map (ImportDeclaration.moved (byteCount line)) ∧
    both.functions = out.functions.map (FunctionDeclaration.moved (byteCount line)) := by
  have hline : importLine Sample.names "./w.js".toList =
      .ok ("import".toList ++ " w, \x7bdefault as v\x7d from './w.js';\n".toList) := by decide +kernel
  have hclause : ((Nested.ofDepth 40).importClause
      ⟨6, " w, \x7bdefault as v\x7d from './w.js';\n".toList⟩).any
      (fun p => p.2.rest == [';', '\n']) = true := by decide +kernel
  obtain ⟨⟨clause, b, rest⟩, hread, hrest⟩ := (Option.any_eq_true _ _).mp hclause
  obtain rfl : rest = [';', '\n'] := eq_of_beq hrest
  have himport := isImportLine_of_importClause (by decide +kernel) hread
  have hl : (read? ("import".toList ++ " w, \x7bdefault as v\x7d from './w.js';\n".toList)).isSome =
      true := by
    decide +kernel
  obtain ⟨l, hl⟩ := Option.isSome_iff_exists.mp hl
  have hmarked : (read? Sample.marked).any (fun o =>
      decide (o.imports.length = 1 ∧ o.functions.length = 1)) = true := by decide +kernel
  obtain ⟨out, ho, hcount⟩ := (Option.any_eq_true _ _).mp hmarked
  obtain ⟨hone, hone'⟩ := of_decide_eq_true hcount
  have hplain : ¬ (HasInterpreter Sample.marked ∨ MarksMarkup Sample.marked) := by decide +kernel
  obtain ⟨i, both, -, -, hboth, -, himports, hfunctions⟩ :=
    (read?_importLine_append hline himport hl ho).2 hplain
  exact ⟨_, l, out, i, both, hline, himport, hl, ho, hone, hone', hboth, himports, hfunctions⟩

/-- Two scripts that do not begin with a line that names an interpreter are refused behind the line. And
behind a line whose name holds a whole import, a script may go on with the expression at the end of the
line. -/
theorem read?_append_refused :
    (∀ source ∈ [Sample.lateInterpreter, Sample.markedMarkup], ¬ "#!".toList <+: source ∧
      (read? source).isSome = true ∧ ∃ line, importLine "w".toList "./w.js".toList = .ok line ∧
        (read? line).isSome = true ∧ read? (line ++ source) = none) ∧
    ∃ line, importLine "a from 'b'\nfoo //".toList "./w.js".toList = .ok line ∧ (read? line).isSome = true ∧
      (read? Sample.slashes).any (fun out => out.functions.length == 1) = true ∧
      (read? (line ++ Sample.slashes)).any (fun both => both.functions.length == 0) = true := by
  have hline : importLine "w".toList "./w.js".toList = .ok "import w from './w.js';\n".toList := by
    decide +kernel
  have hodd : importLine "a from 'b'\nfoo //".toList "./w.js".toList =
      .ok "import a from 'b'\nfoo // from './w.js';\n".toList := by decide +kernel
  refine ⟨List.forall_mem_cons.mpr ⟨?late, List.forall_mem_singleton.mpr ?markup⟩, ?name⟩
  case late => exact ⟨by decide +kernel, by decide +kernel, _, hline, by decide +kernel, by decide +kernel⟩
  case markup => exact ⟨by decide +kernel, by decide +kernel, _, hline, by decide +kernel, by decide +kernel⟩
  case name => exact ⟨_, hodd, by decide +kernel, by decide +kernel, by decide +kernel⟩

end WasmEmbed.Binding
