import WasmEmbed.Proofs.Script.Heading
import WasmEmbed.Proofs.Script.Written.Statement
import WasmEmbed.Proofs.Shard.Script

/-!
# The scripts of shards are scripts

The script of a shard is read as one whatever its chunk holds (`read?_scriptText`), and so is the script of
the aggregator, however many shards it imports and adds up (`read?_aggregator`). What the aggregator imports
are the shards in their order.

The name of a shard ends with a digit. No word with a meaning of its own does, so it may be imported under
its name and called.
-/

namespace WasmEmbed.Shard

open Script Script.Written

variable {chunk : List Char} {name extension : Name} {names : List Name}

/-! ## Shards -/

theorem isPlain_of_isAllowed {c : Char} (h : Payload.Base64.isAllowed c = true) :
    Token.isPlain '"' c = true := by
  have hne : ∀ {y : Char}, Payload.Base64.isAllowed y = false → (c == y) = false :=
    beq_eq_false_of_apply h
  rw [Token.isPlain, hne (y := '"') (by decide), hne (y := '\\') (by decide), hne (y := '\r') (by decide),
    hne (y := '\n') (by decide), hne (y := '\x00') (by decide)]
  rfl

/-- The script of a shard is a script. -/
theorem read?_scriptText (h : ∀ c ∈ chunk, Payload.Base64.isAllowed c = true) :
    ∃ o, Outline.read? (scriptText chunk) = some o := by
  have hblank : ∀ y ∈ [' '], isMargin y = true := List.forall_mem_singleton.mpr (by decide)
  -- The script is put together from the inside: the string, the body, the function, the export.
  have hstring : ∀ u, Expression IsValue 0 ('"' :: (chunk ++ ['"'])) (';' :: u) := fun u =>
    .closed (.string (.inl rfl) fun c hc => isPlain_of_isAllowed (h c hc)) (by decide)
  have hend : Series atBrace (fun _ => True) [' '] ['\x7d'] :=
    .nil (rests_cons (by decide)) (fun _ => rfl) hblank trivial
  have hbody : Series atBrace (fun _ => True)
      ([' '] ++ ("return ".toList ++ '"' :: (chunk ++ ['"']) ++ [';']) ++ [' ']) ['\x7d'] :=
    .cons hblank (.returning (hstring _)) atBrace_word hend fun _ _ _ _ => trivial
  have hscript := Series.cons (t := []) (Q := fun _ => True) (fun _ hy => by cases hy) (.exportFunction hbody)
    atEnd_word (.nil (t := []) (fun _ hy => by cases hy) (fun _ => rfl) (fun _ hy => by cases hy) trivial)
    fun _ _ _ (_ : True) => trivial
  have hfront : "export default function() \x7b return \"".toList =
      "export default ".toList ++
        ("function".toList ++ "() \x7b".toList ++ ([' '] ++ ("return ".toList ++ ['"']))) := by
    decide
  have hback : "\"; \x7d".toList = ['"', ';', ' ', '\x7d'] := by decide
  have htext : scriptText chunk = [] ++ ("export default ".toList ++ ("function".toList ++ "() \x7b".toList ++
      ([' '] ++ ("return ".toList ++ '"' :: (chunk ++ ['"']) ++ [';']) ++ [' ']) ++ ['\x7d'])) ++ [] := by
    refine (congrArg₂ (fun front back => front ++ chunk ++ back) hfront hback).trans ?_
    simp only [List.append_assoc, List.cons_append, List.nil_append, List.append_nil]
  rw [← htext] at hscript
  obtain ⟨o, hread, -⟩ := exists_outline hscript ⟨'e', _, by rw [htext]; rfl, by decide⟩
  exact ⟨o, hread⟩

/-! ## Names of shards -/

/-- A word that ends with a digit has no meaning of its own. -/
theorem ne_stem {word : String} (hword : word ∈ reservedWords ++ openingNames) (start : Name) (i : Nat) :
    String.ofList (stem start i) ≠ word := by
  intro heq
  -- The last letter of a word with a meaning is no digit.
  have hletters : ∀ word ∈ reservedWords ++ openingNames, word.toList.getLast?.any Char.isDigit = false := by
    decide
  have hne : Nat.toDigits 10 i ≠ [] := Nat.toDigits_ne_nil
  have hlast := hletters word hword
  rw [← heq, String.toList_ofList, stem_eq, List.getLast?_append, List.getLast?_eq_some_getLast hne,
    Option.some_or, Option.any_some,
    Nat.isDigit_of_mem_toDigits (by decide) (by decide) (List.getLast_mem hne)] at hlast
  cases hlast

theorem isReserved_stem (start : Name) (i : Nat) : isReserved (stem start i) = false := by
  rw [isReserved, Bool.eq_false_iff]
  intro h
  exact ne_stem (List.mem_append_left _ (List.contains_iff_mem.mp h)) start i rfl

theorem isPlainName_stem (start : Name) (i : Nat) : isPlainName (stem start i) = true := by
  rw [isPlainName, isReserved_stem, Bool.false_or, Bool.not_eq_true', Bool.eq_false_iff]
  intro h
  exact ne_stem (List.mem_append_right _ (List.contains_iff_mem.mp h)) start i rfl

theorem isIdentifier_stem {start : Name} (h : isIdentifier start = true) (i : Nat) :
    isIdentifier (stem start i) = true := by
  obtain ⟨x, rest, rfl, hx, hrest⟩ := exists_cons_of_isIdentifier h
  rw [stem_eq, List.cons_append, isIdentifier, hx, Bool.true_and, List.all_eq_true]
  intro c hc
  rcases List.mem_append.mp hc with hc | hc
  · exact hrest c hc
  · rw [isIdentifierPart, Nat.isDigit_of_mem_toDigits (by decide) (by decide) hc, Bool.or_true]

/-! ## Aggregators -/

/-- A name that may be imported and called. -/
structure IsCallable (name : Name) : Prop where
  identifier : isIdentifier name = true
  plain : isPlainName name = true

theorem IsCallable.isReserved_eq_false (h : IsCallable name) : isReserved name = false := by
  have := h.plain
  rw [isPlainName, Bool.not_eq_true', Bool.or_eq_false_iff] at this
  exact this.1

/-- What the aggregator adds for a shard. -/
def summand (name : Name) : List Char := " + ".toList ++ name ++ "()".toList

/-- Behind a sum stands another summand or the end of the statement. -/
theorem stops_summands (names : List Name) (u : List Char) :
    Stops (Level.sum + 1) (names.flatMap summand ++ ';' :: u) := by
  cases names with
  | nil => exact stops_closer (by decide)
  | cons name names =>
      rw [List.flatMap_cons, summand, List.append_assoc, List.append_assoc, List.append_assoc]
      exact stops_sum (by decide)

/-- The summands are read behind a value. -/
theorem behind_summands (hnames : ∀ name ∈ names, IsCallable name) (u : List Char) :
    Behind 0 (names.flatMap summand) (';' :: u) := by
  induction names with
  | nil => exact .nil (stops_closer (by decide))
  | cons name names ih =>
      have hname := hnames name List.mem_cons_self
      have hoperand : Operand IsValue name (['(', ')'] ++ (names.flatMap summand ++ ';' :: u)) :=
        .nameValue hname.identifier hname.plain (followsName_cons (by decide))
      have hcall : Expression IsValue (Level.sum + 1) (name ++ ['(', ')'])
          (names.flatMap summand ++ ';' :: u) :=
        .of_behind hoperand (.callNothing (.nil (stops_summands names u)))
      have hsum : Behind 0 (" + ".toList ++ (name ++ ['(', ')']) ++ names.flatMap summand) (';' :: u) :=
        Behind.sum (Nat.zero_le _) hcall (ih fun name hmem => hnames name (List.mem_cons_of_mem _ hmem))
      rw [List.flatMap_cons, summand, List.append_assoc " + ".toList]
      exact hsum

theorem isPlain_of_isIdentifierPart {c : Char} (h : isIdentifierPart c = true) :
    Token.isPlain '\'' c = true :=
  forall_isIdentifierPart (by decide +kernel) h

/-- The text between the quotes of an import of a shard. -/
theorem isPlain_of_mem_specifier (hname : IsCallable name) (hextension : isExtension extension = true) :
    ∀ c ∈ "./".toList ++ withExtension name extension, Token.isPlain '\'' c = true := by
  intro c hc
  rcases List.mem_append.mp hc with hc | hc
  · have hlist : "./".toList = ['.', '/'] := by decide
    rw [hlist] at hc
    simp only [List.mem_cons, List.not_mem_nil, or_false] at hc
    rcases hc with rfl | rfl <;> decide
  · rcases List.mem_append.mp hc with hc | hc
    · exact isPlain_of_isIdentifierPart (isIdentifierPart_of_isIdentifier hname.identifier c hc)
    · rcases List.mem_cons.mp hc with rfl | hc
      · decide
      · exact isPlain_of_isIdentifierPart (isIdentifierPart_of_isExtension hextension c hc)

/-- The default names of what is imported. -/
def importedNames (statements : List Script.Statement) : List (Option (List Char)) :=
  (Outline.imports ⟨statements⟩).map ImportDeclaration.defaultName

/-- Imports of shards in front of statements that import nothing import the shards. -/
theorem series_importLines {rest : List Char} (hnames : ∀ name ∈ names, IsCallable name)
    (hextension : isExtension extension = true)
    (hrest : ∀ t, (∀ y ∈ t, isMargin y = true) →
      Series atEnd (fun ss => importedNames ss = []) (t ++ rest) [])
    {t : List Char} (ht : ∀ y ∈ t, isMargin y = true) :
    Series atEnd (fun ss => importedNames ss = names.map some)
      (t ++ (names.flatMap (importLine extension) ++ rest)) [] := by
  induction names generalizing t with
  | nil => exact hrest t ht
  | cons name names ih =>
      have hname := hnames name List.mem_cons_self
      -- The line feed behind an import stands in front of the next statement.
      have hrest' := ih (fun name hmem => hnames name (List.mem_cons_of_mem _ hmem)) (t := ['\n'])
        (List.forall_mem_singleton.mpr (by decide))
      have hcons := Series.cons (Q := fun ss => importedNames ss = (name :: names).map some) ht
        (.importing hname.identifier hname.isReserved_eq_false (isPlain_of_mem_specifier hname hextension))
        atEnd_word hrest' ?_
      · have hfrom : " from './".toList = " from '".toList ++ "./".toList := by decide
        have hend : "';\n".toList = "';".toList ++ ['\n'] := by decide
        have hline : importLine extension name = "import ".toList ++ name ++ " from '".toList ++
            ("./".toList ++ withExtension name extension) ++ "';".toList ++ ['\n'] := by
          refine (congrArg₂ (fun front back => "import ".toList ++ name ++ front ++
            withExtension name extension ++ back) hfrom hend).trans ?_
          simp only [List.append_assoc]
        rw [List.flatMap_cons, hline]
        simp only [List.append_assoc] at hcons ⊢
        exact hcons
      · rintro s ss ⟨span, rfl⟩ hss
        simp only [importedNames, Outline.imports, List.filterMap_cons, List.map_cons] at hss ⊢
        rw [hss]

/-- The script of the aggregator is a script that imports the shards in their order. -/
theorem read?_aggregator (hnames : ∀ name ∈ names, IsCallable name)
    (hextension : isExtension extension = true) :
    ∃ o, Outline.read? (aggregator names extension) = some o ∧
      o.imports.map ImportDeclaration.defaultName = names.map some := by
  have hvalue : Expression IsValue 0 ('"' :: '"' :: names.flatMap summand) (';' :: ['\n']) := by
    refine Expression.of_behind (w := ['"', '"']) ?_ (behind_summands hnames _)
    exact Operand.string (t := []) (.inl rfl) fun _ hy => by cases hy
  have hexport := StatementOf.exportValue hvalue
  -- Behind the imports there is the export alone.
  have hrest : ∀ t, (∀ y ∈ t, isMargin y = true) → Series atEnd (fun ss => importedNames ss = [])
      (t ++ ("export default ".toList ++ ('"' :: ('"' :: names.flatMap summand) ++ [';']) ++ ['\n'])) [] := by
    intro t ht
    have hend : Series atEnd (fun ss => ss = []) ['\n'] [] :=
      .nil (fun _ hy => by cases hy) (fun _ => rfl) (List.forall_mem_singleton.mpr (by decide)) rfl
    rw [← List.append_assoc]
    refine .cons ht hexport atEnd_word hend ?_
    rintro s ss hrole rfl
    simp [importedNames, Outline.imports, hrole]
  have hscript := series_importLines hnames hextension hrest (t := []) (fun _ hy => by cases hy)
  have htext : aggregator names extension = [] ++ (names.flatMap (importLine extension) ++
      ("export default ".toList ++ ('"' :: ('"' :: names.flatMap summand) ++ [';']) ++ ['\n'])) := by
    have hfront : "export default \"\"".toList = "export default ".toList ++ ['"', '"'] := by decide
    have hback : ";\n".toList = [';', '\n'] := by decide
    refine (congrArg₂ (fun front back => names.flatMap (importLine extension) ++ front ++
      names.flatMap summand ++ back) hfront hback).trans ?_
    simp only [List.append_assoc, List.cons_append, List.nil_append]
  rw [← htext] at hscript
  refine exists_outline hscript ?_
  rw [htext]
  cases names with
  | nil => exact ⟨'e', _, rfl, by decide⟩
  | cons name names => exact ⟨'i', _, rfl, by decide⟩

end WasmEmbed.Shard
