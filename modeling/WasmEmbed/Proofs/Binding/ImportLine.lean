import WasmEmbed.Binding.Import
import WasmEmbed.Proofs.Script.Written.Refused
import WasmEmbed.Proofs.Script.Written.Single

/-!
# The line that imports the aggregator

The line is refused exactly if the specifier has a character that would end the string or begin an escape.
Any other character stands for itself between the quotes, except the null character, with which the line is
no script (`isSome_read?_importLine`). A line that is a script is one import and nothing else, of what was
asked for (`importLine_roundTrip`).
-/

namespace WasmEmbed.Binding

open Script Script.Written

variable {name specifier : List Char} {u : List Char}

/-! ## Characters of a specifier -/

/-- A character stands for itself between single quotes if it can be quoted and is not the null character. -/
theorem isPlain_iff {c : Char} : Token.isPlain '\'' c = true ↔ isUnquotable c = false ∧ c ≠ '\x00' := by
  simp only [Token.isPlain, isUnquotable, Bool.not_eq_true', Bool.or_eq_false_iff, beq_eq_false_iff_ne]
  exact and_congr_left fun _ => and_right_comm

/-- In a specifier that can be quoted, all characters stand for themselves up to the first null character. -/
theorem isPlain_or_exists_null (h : specifier.any isUnquotable = false) :
    (∀ c ∈ specifier, Token.isPlain '\'' c = true) ∨
      ∃ front back, specifier = front ++ '\x00' :: back ∧ ∀ c ∈ front, Token.isPlain '\'' c = true := by
  induction specifier with
  | nil => exact Or.inl (by simp)
  | cons c rest ih =>
      rw [List.any_cons, Bool.or_eq_false_iff] at h
      by_cases hnull : c = '\x00'
      · exact Or.inr ⟨[], rest, by rw [hnull, List.nil_append], by simp⟩
      · have hc := isPlain_iff.mpr ⟨h.1, hnull⟩
        rcases ih h.2 with hrest | ⟨front, back, rfl, hfront⟩
        · exact Or.inl (List.forall_mem_cons.mpr ⟨hc, hrest⟩)
        · exact Or.inr ⟨c :: front, back, rfl, List.forall_mem_cons.mpr ⟨hc, hfront⟩⟩

/-- What stands for itself between the quotes of a specifier may stand there. -/
theorem importStatement_of_isPlain (name : List Char) (h : ∀ c ∈ specifier, Token.isPlain '\'' c = true) :
    importStatement name specifier =
      .ok ("import ".toList ++ name ++ " from '".toList ++ specifier ++ "';".toList) := by
  have hany : specifier.any isUnquotable = false :=
    List.any_eq_false.mpr fun c hc => Bool.eq_false_iff.mp (isPlain_iff.mp (h c hc)).1
  rw [importStatement, hany, if_neg Bool.false_ne_true]

theorem importStatement_eq_ok {statement : List Char} (h : importStatement name specifier = .ok statement) :
    specifier.any isUnquotable = false ∧
      statement = "import ".toList ++ name ++ " from '".toList ++ specifier ++ "';".toList := by
  rw [importStatement] at h
  split at h
  · cases h
  · next hany => exact ⟨Bool.eq_false_iff.mpr hany, (Except.ok.inj h).symm⟩

theorem importStatement_ne_nil {statement : List Char} (h : importStatement name specifier = .ok statement) :
    statement ≠ [] := by
  rw [(importStatement_eq_ok h).2]
  simp

/-! ## Lines that are no scripts -/

/-- A text that begins with an import under a reserved name is no script. -/
theorem read?_of_isReserved (hname : isIdentifier name = true) (hreserved : isReserved name = true) :
    Outline.read? ("import ".toList ++ name ++ " from '".toList ++ specifier ++ "';".toList ++ u) = none := by
  have hspace : " from '".toList = ' ' :: "from '".toList := by decide
  have hrefused : NoStatement ("import ".toList ++ name)
      (" from '".toList ++ (specifier ++ ("';".toList ++ u))) := by
    rw [hspace]
    exact .importing hname hreserved (endsName_cons (by decide))
  have hseries : NoSeries atEnd ([] ++ ("import ".toList ++ name)) _ :=
    hrefused.series (fun _ hy => by cases hy) atEnd_word
  have hnone := read?_eq_none hseries ⟨'i', _, rfl, by decide⟩
  simpa only [List.nil_append, List.append_assoc] using hnone

/-- A text that begins with an import of a specifier with a null character is no script. -/
theorem read?_of_null (hname : isIdentifier name = true) (hfree : isReserved name = false)
    {front back : List Char}
    (hfront : ∀ c ∈ front, Token.isPlain '\'' c = true) :
    Outline.read? ("import ".toList ++ name ++ " from '".toList ++ (front ++ '\x00' :: back) ++
      "';".toList ++ u) =
      none := by
  have hrefused : NoStatement ("import ".toList ++ name ++ " from '".toList ++ front ++ ['\x00'])
      (back ++ ("';".toList ++ u)) := .importingNull hname hfree hfront
  have hseries : NoSeries atEnd
      ([] ++ ("import ".toList ++ name ++ " from '".toList ++ front ++ ['\x00'])) _ :=
    hrefused.series (fun _ hy => by cases hy) atEnd_word
  have hnone := read?_eq_none hseries ⟨'i', _, rfl, by decide⟩
  simpa only [List.nil_append, List.append_assoc, List.cons_append] using hnone

/-! ## What the statement says -/

/-- An identifier in front of a space is a token. -/
theorem stands_identifier (hname : isIdentifier name = true) (t : List Char) :
    Lexeme.Stands (.name name) (name ++ ' ' :: t) (' ' :: t) := by
  obtain ⟨x, v, hnx, hx, hv⟩ := exists_cons_of_isIdentifier hname
  have hparts : ∀ y ∈ name, isWordPart y = true := by
    intro y hy
    refine isWordPart_of_isIdentifierPart ?_
    rcases List.mem_cons.mp (hnx ▸ hy) with rfl | hy
    · rw [isIdentifierPart, hx, Bool.true_or]
    · exact hv y hy
  refine .name ⟨rfl, by rw [hnx]; exact List.cons_ne_nil x v, .of_forall hparts⟩
    (haltsName_of_head? fun y hy => ?_)
  obtain rfl := Option.some.inj hy
  decide

/-- The statement for a name, with the words and spaces in it one by one. -/
theorem statement_eq (name u v : List Char) : "import ".toList ++ name ++ " from '".toList ++ u ++ v =
    "import".toList ++ ' ' :: (name ++ ' ' :: ("from".toList ++ ' ' :: '\'' :: (u ++ v))) := by
  have himport : "import ".toList = "import".toList ++ [' '] := by decide
  have hmiddle : " from '".toList = ' ' :: ("from".toList ++ [' ', '\'']) := by decide
  rw [himport, hmiddle]
  simp only [List.append_assoc, List.cons_append, List.nil_append]

theorem over_space (t : List Char) : Over (' ' :: t) t := .single (.blank (by decide))

/-- The import of a default under an identifier says that and nothing else. -/
theorem says_default {i : ImportDeclaration} (hname : isIdentifier name = true)
    (hplain : ∀ c ∈ specifier, Token.isPlain '\'' c = true) (hi : i.clause = ⟨some name, [], specifier⟩) :
    i.Says ("import ".toList ++ name ++ " from '".toList ++ specifier ++ "';".toList) [';'] := by
  have hquoted : Quoted specifier ('\'' :: (specifier ++ ['\'', ';'])) [';'] :=
    ⟨'\'', rfl, rfl, 2, 0, _, stringEnd?_plain hplain (by decide)⟩
  have hend : "';".toList = ['\'', ';'] := by decide
  refine ⟨_, [.name name, .name "from".toList, .text specifier], statement_eq .., ?_, fun us => ?_⟩
  · rw [hend]
    exact .cons (over_space _) (stands_identifier hname _)
      (.cons (over_space _) (stands_identifier (by decide) _) (.last (over_space _) hquoted))
  · rw [hi]
    exact .default

/-- A token that stands at a quote is a string. -/
theorem exists_quoted_of_stands {a : Lexeme} {q : Char} {v : List Char} (h : a.Stands (q :: v) u)
    (hq : isQuote q = true) :
    ∃ s, Quoted s (q :: v) u := by
  obtain ⟨x, v', heq, hx⟩ := h.exists_cons
  obtain ⟨rfl, rfl⟩ := List.cons.inj heq
  cases h with
  | name =>
      -- No name begins with a quote.
      rcases eq_of_isQuote hq with rfl | rfl <;> cases hx
  | text hs => exact ⟨_, hs⟩
  | sign hsign => rcases eq_of_isQuote hq with rfl | rfl <;> exact absurd hsign (by decide)

/-- Of tokens that end with a string, others follow on a name. -/
theorem exists_tail_of_name {as : List Lexeme} {w t t₁ t₂ v : List Char} (h : Lexemes true as t v)
    (hover : Over t t₁)
    (hname : Lexeme.Stands (.name w) t₁ t₂) : ∃ bs, as = .name w :: bs ∧ Lexemes true bs t₂ v := by
  cases h with
  | last hover' hs => cases (Lexemes.Over.stands_unique hover hname hover' (.text hs)).1
  | cons hover' ha has =>
      obtain ⟨rfl, rfl⟩ := Lexemes.Over.stands_unique hover hname hover' ha
      exact ⟨_, rfl, has⟩

/-- Tokens that begin at a quote begin with a string. -/
theorem exists_quoted_of_lexemes {as : List Lexeme} {t v : List Char} {q : Char} (h : Lexemes true as t u)
    (hover : Over t (q :: v)) (hq : isQuote q = true) : ∃ s w, Quoted s (q :: v) w := by
  have hsolid : Over.isSolid q = true := Lexeme.isSolid_of_begins (a := .text []) hq
  cases h with
  | last hover' hs =>
      obtain ⟨x, v', rfl, hx⟩ := hs.exists_cons
      rw [hover.unique hsolid (Lexeme.isSolid_of_begins (a := .text []) hx) hover']
      exact ⟨_, _, hs⟩
  | cons hover' ha _ =>
      obtain ⟨x, v', rfl, hx⟩ := ha.exists_cons
      have heq := hover.unique hsolid (Lexeme.isSolid_of_begins hx) hover'
      rw [← heq] at ha
      obtain ⟨s, hs⟩ := exists_quoted_of_stands ha hq
      exact ⟨s, _, hs⟩

/-- Of a specifier that is read back, each character stands for itself: with a null character the string
would not be read to its end. -/
theorem isPlain_of_clause {i : ImportDeclaration} (hname : isIdentifier name = true)
    (hany : specifier.any isUnquotable = false)
    (h : i.Says ("import ".toList ++ name ++ " from '".toList ++ specifier ++ "';".toList) u) :
    ∀ c ∈ specifier, Token.isPlain '\'' c = true := by
  rcases isPlain_or_exists_null hany with hplain | ⟨front, back, rfl, hfront⟩
  · exact hplain
  obtain ⟨v, ts, heq, hts, -⟩ := h
  rw [statement_eq] at heq
  obtain rfl := List.append_cancel_left heq
  -- Behind the name and the word `from` the tokens go on at the quote.
  obtain ⟨bs, rfl, hbs⟩ := exists_tail_of_name hts (over_space _) (stands_identifier hname _)
  obtain ⟨cs, rfl, hcs⟩ := exists_tail_of_name hbs (over_space _) (stands_identifier (by decide) _)
  obtain ⟨s, w, q, hq, hquoted, k, o, o', hend⟩ := exists_quoted_of_lexemes hcs (over_space _) (by decide)
  obtain ⟨rfl, hbehind⟩ := List.cons.inj hquoted
  rw [← hbehind, List.append_assoc, List.cons_append, stringEnd?_null (by decide) hfront] at hend
  cases hend

/-- An import that reads like the statement for an identifier binds its default to the identifier, and nothing
else. -/
theorem clause_of_importStatement {text : List Char} {o : Outline} (h : Outline.read? text = some o)
    {i : ImportDeclaration} (hi : i ∈ o.imports) (hname : isIdentifier name = true)
    (hstatement : importStatement name specifier = .ok (i.span.of text)) :
    i.clause = ⟨some name, [], specifier⟩ := by
  obtain ⟨front, behind, hfront, hsaid⟩ := Outline.exists_says_of_mem_imports h hi
  have hread := hsaid behind
  obtain ⟨hany, htext⟩ := importStatement_eq_ok hstatement
  rw [← hfront, htext] at hread
  have hwritten : ImportDeclaration.Says ⟨i.span, some name, [], specifier⟩ _ _ :=
    says_default hname (isPlain_of_clause hname hany hread) rfl
  exact hread.unique hwritten

/-! ## The line -/

/-- An import of a default that takes a range of a script. -/
def importing (name specifier : List Char) (span : Span) : Statement :=
  ⟨⟨.importStatement, span⟩, .importing ⟨span, some name, [], specifier⟩⟩

/-- A line for a name that is not reserved is a script of one import, unless its specifier has a null
character. -/
theorem read?_importLine (hname : isIdentifier name = true) (hfree : isReserved name = false)
    (hplain : ∀ c ∈ specifier, Token.isPlain '\'' c = true) :
    Outline.read? ("import ".toList ++ name ++ " from '".toList ++ specifier ++ "';".toList ++ ['\n']) =
      some ⟨[importing name specifier
        ⟨0, byteCount ("import ".toList ++ name ++ " from '".toList ++ specifier ++ "';".toList)⟩]⟩ := by
  obtain ⟨s, hread, ⟨span, rfl⟩, rfl⟩ :=
    read?_statement (t := ['\n']) (.importing hname hfree hplain) (by decide)
  exact hread

theorem importLine_eq_ok {line : List Char} (h : importLine name specifier = .ok line) :
    specifier.any isUnquotable = false ∧
      line = "import ".toList ++ name ++ " from '".toList ++ specifier ++ "';".toList ++ ['\n'] := by
  cases hstatement : importStatement name specifier with
  | error e =>
      rw [importLine, hstatement] at h
      cases h
  | ok statement =>
      rw [importLine, hstatement] at h
      obtain ⟨hany, rfl⟩ := importStatement_eq_ok hstatement
      exact ⟨hany, (Except.ok.inj h).symm⟩

theorem any_isUnquotable_iff : specifier.any isUnquotable = true ↔
    '\'' ∈ specifier ∨ '\\' ∈ specifier ∨ '\n' ∈ specifier ∨ '\r' ∈ specifier := by
  simp only [List.any_eq_true, isUnquotable, Bool.or_eq_true, beq_iff_eq, and_or_left, exists_or,
    exists_eq_right, or_assoc]

/-- The line is refused exactly if a character of the specifier cannot be quoted. -/
theorem importLine_eq_error_iff {e : RewriteError} : importLine name specifier = .error e ↔
    e = .specifier specifier ∧
    ('\'' ∈ specifier ∨ '\\' ∈ specifier ∨ '\n' ∈ specifier ∨ '\r' ∈ specifier) := by
  rw [← any_isUnquotable_iff, importLine, importStatement]
  cases specifier.any isUnquotable with
  | false => simp [Except.map]
  | true => simp [Except.map, eq_comm]

/-- A line is a script exactly if its name is not reserved and its specifier has no null character. -/
theorem isSome_read?_importLine (hname : isIdentifier name = true) {line : List Char}
    (h : importLine name specifier = .ok line) :
    (Outline.read? line).isSome = true ↔ isReserved name = false ∧ '\x00' ∉ specifier := by
  obtain ⟨hany, rfl⟩ := importLine_eq_ok h
  cases hreserved : isReserved name with
  | true =>
      rw [read?_of_isReserved hname hreserved]
      simp
  | false =>
      rcases isPlain_or_exists_null hany with hplain | ⟨front, back, rfl, hfront⟩
      · have hnull : '\x00' ∉ specifier := fun hmem => (isPlain_iff.mp (hplain _ hmem)).2 rfl
        rw [read?_importLine hname hreserved hplain]
        simp [hnull]
      · rw [read?_of_null hname hreserved hfront]
        simp

/-- The line for an identifier is refused exactly if its specifier has a quote, a backslash or a line end.
If it is a script, it is one import that takes the whole line but the line feed, under the name and of the
specifier. -/
theorem importLine_roundTrip (hname : isIdentifier name = true) (specifier : List Char) :
    (∀ e, importLine name specifier = .error e ↔
      e = .specifier specifier ∧
      ('\'' ∈ specifier ∨ '\\' ∈ specifier ∨ '\n' ∈ specifier ∨ '\r' ∈ specifier)) ∧
    ∀ line o, importLine name specifier = .ok line → Outline.read? line = some o →
      ∃ statement, line = statement ++ ['\n'] ∧
        o.statements = [importing name specifier ⟨0, byteCount statement⟩] := by
  refine ⟨fun e => importLine_eq_error_iff, fun line o h ho => ?_⟩
  obtain ⟨hfree, hnull⟩ := (isSome_read?_importLine hname h).mp (Option.isSome_of_eq_some ho)
  obtain ⟨hany, rfl⟩ := importLine_eq_ok h
  have hplain : ∀ c ∈ specifier, Token.isPlain '\'' c = true := fun c hc =>
    isPlain_iff.mpr ⟨Bool.eq_false_iff.mpr (List.any_eq_false.mp hany c hc), fun h => hnull (h ▸ hc)⟩
  obtain rfl := Option.some.inj (ho.symm.trans (read?_importLine hname hfree hplain))
  exact ⟨_, rfl, rfl⟩

namespace Sample

/-- A specifier with the beginnings of other strings, of comments and of a substitution, a line separator
and a character outside the basic plane. -/
def oddSpecifier : List Char := "./\"`/*//<!--$\x7b\u2028😀.js".toList

end Sample

/-- The odd specifier is imported as it is. -/
theorem importLine_roundTrip_odd : ∃ line o, importLine "w".toList Sample.oddSpecifier = .ok line ∧
    Outline.read? line = some o ∧ ∃ statement, line = statement ++ ['\n'] ∧
      o.statements = [importing "w".toList Sample.oddSpecifier ⟨0, byteCount statement⟩] := by
  have hname : isIdentifier "w".toList = true := by decide
  obtain ⟨herror, hread⟩ := importLine_roundTrip hname Sample.oddSpecifier
  cases h : importLine "w".toList Sample.oddSpecifier with
  | error e => exact absurd ((herror e).mp h).2 (by decide +kernel)
  | ok line =>
      have hscript := (isSome_read?_importLine (by decide) h).mpr ⟨by decide, by decide +kernel⟩
      obtain ⟨o, ho⟩ := Option.isSome_iff_exists.mp hscript
      exact ⟨line, o, rfl, ho, hread line o h ho⟩

end WasmEmbed.Binding
