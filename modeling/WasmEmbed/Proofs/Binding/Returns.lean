import WasmEmbed.Proofs.Binding.Frame
import WasmEmbed.Proofs.Binding.Prepended

/-!
# When a rewriting returns

A rewriting asks for a script of a certain shape (`HasShape`), and for a specifier that can stand between
quotes. If it is given them, then all that is left to go wrong are the two texts that it makes itself: the
new loading function, and what comes out.

The name of the import decides about the first one. It is checked to be an identifier, but a word with a
meaning of its own passes this check, and the loading function cannot decode what is no operand
(`rewrite_of_hasShape`). Where a line is put in front of the text, the second one is refused too if the name
is reserved, or if the first line of the text named an interpreter. Under any other name the line does no
harm, but for a mark in front of an HTML-like comment: what is left to be asked is whether the text behind
the line is a script, with another body of the loading function and an empty statement. This depends on the
text as a whole, and does not follow from its shape.
-/

namespace WasmEmbed.Binding

open Script Script.Written Text

variable {t : Target} {source statement body text u behind : List Char} {sites : Sites} {p : Span}

/-- A script with the functions that a rewriting asks for: a loading function that is asynchronous, and a
starting function with a statement that fetches. -/
def HasShape (source : List Char) : Prop :=
  ∃ o load init, Outline.read? source = some o ∧ o.function? loadName = some load ∧ load.isAsync = true ∧
    o.function? initName = some init ∧ fetchIndex < init.body.pieces.length

/-- The shape is what it takes to find the places, whatever the name of the import. -/
theorem hasShape_iff (importName : Name) :
    HasShape source ↔ ∃ sites, Sites.find source importName = .ok sites := by
  simp only [Sites.find_eq_ok_iff]
  constructor
  · rintro ⟨o, load, init, ho, hload, hasync, hinit, hpieces⟩
    exact ⟨_, o, load, init, _, ho, hload, hasync, hinit, List.getElem?_eq_getElem hpieces, rfl⟩
  · rintro ⟨-, o, load, init, fetch, ho, hload, hasync, hinit, hfetch, -⟩
    obtain ⟨hpieces, -⟩ := List.getElem?_eq_some_iff.mp hfetch
    exact ⟨o, load, init, ho, hload, hasync, hinit, hpieces⟩

/-! ## What comes out -/

/-- A rewriting whose edits are known answers what they leave, if that is a script. -/
theorem rewrite_eq_of_applyAll? {out : List Char}
    (hstatement : importStatement t.importName t.specifier = .ok statement)
    (hfind : Sites.find source t.importName = .ok sites)
    (hbody : loaderBody t.compressed t.importName = .ok body)
    (happly : Edit.applyAll? (Utf8.encode source) (sites.edits (Utf8.encode source) (Utf8.encode statement)
      (Utf8.encode body)) = some (Utf8.encode text))
    (hout : out = if sites.imports.isEmpty then statement ++ '\n' :: text else text) :
    rewrite t source = if (Outline.read? out).isSome then .ok out else .error .brokenScript := by
  split
  · next hread =>
      exact rewrite_eq_ok_iff.mpr
        ⟨statement, sites, body, _, text, hstatement, hfind, hbody, happly, Utf8.decode_encode text, hout,
          hread⟩
  · next hread =>
      cases h : rewrite t source with
      | ok out' =>
          -- The answer would be what the edits leave.
          obtain ⟨statement', sites', body', edited, text', hstatement', hfind', hbody', happly', htext',
            rfl, hread'⟩ :=
            rewrite_eq_ok_iff.mp h
          obtain rfl := Except.ok.inj (hstatement.symm.trans hstatement')
          obtain rfl := Except.ok.inj (hfind.symm.trans hfind')
          obtain rfl := Except.ok.inj (hbody.symm.trans hbody')
          obtain rfl := Option.some.inj (happly.symm.trans happly')
          obtain rfl := Except.ok.inj ((Utf8.decode_encode text).symm.trans htext')
          exact absurd (hout ▸ hread') hread
      | error e =>
          rcases rewrite_eq_error h with h | h | h | rfl
          · cases hstatement.symm.trans h
          · cases hfind.symm.trans h
          · cases hbody.symm.trans h
          · rfl

/-- The edits of a rewriting leave a text that keeps everything that is not replaced. -/
theorem exists_keepsTheRest (hstatement : importStatement t.importName t.specifier = .ok statement)
    (hfind : Sites.find source t.importName = .ok sites)
    (hbody : loaderBody t.compressed t.importName = .ok body) :
    ∃ segments behind, source = Segment.before segments behind ∧
      (Segment.edits [] segments).Perm
        (replacements source statement body sites.loadBody sites.fetch sites.imports) ∧
      KeepsTheRest t source
        ((if sites.imports.isEmpty then statement ++ ['\n'] else []) ++ Segment.after segments behind) ∧
      rewrite t source =
        if (Outline.read? ((if sites.imports.isEmpty then statement ++ ['\n'] else []) ++
          Segment.after segments behind)).isSome
        then .ok ((if sites.imports.isEmpty then statement ++ ['\n'] else []) ++
          Segment.after segments behind)
        else .error .brokenScript := by
  obtain ⟨segments, behind, hsource, hperm, happly⟩ := exists_applyAll?_of_find hfind statement body
  rw [Sites.edits_eq] at hperm
  refine ⟨segments, behind, hsource, hperm, ?_, rewrite_eq_of_applyAll? hstatement hfind hbody happly ?_⟩
  · obtain ⟨o, load, init, fetch, ho, hload, -, hinit, hfetch, rfl⟩ := Sites.find_eq_ok_iff.mp hfind
    refine ⟨o, load, init, fetch, statement, body, _, segments, behind, ho, hload, hinit, hfetch,
      hstatement, hbody, rfl, ?_, ?_, hperm⟩
    · rw [← Segment.encode_before, ← hsource]
    · rw [Utf8.encode_append, Segment.encode_after]
  · split
    · rw [List.append_assoc, List.singleton_append]
    · rfl

/-! ## A line in front -/

/-- A text in which an import stands in front of the line that names an interpreter is no script. -/
theorem read?_of_interpreter (hname : isIdentifier t.importName = true)
    (hplain : ∀ c ∈ t.specifier, Token.isPlain '\'' c = true) (hu : "#!".toList <+: u) :
    Outline.read? ("import ".toList ++ t.importName ++ " from '".toList ++ t.specifier ++ "';".toList ++
      ['\n'] ++ u) =
      none := by
  cases hreserved : isReserved t.importName with
  | true =>
      rw [List.append_assoc]
      exact read?_of_isReserved hname hreserved
  | false =>
      obtain ⟨v, rfl⟩ := hu
      have hseries : NoSeries atEnd
          ([] ++ ("import ".toList ++ t.importName ++ " from '".toList ++ t.specifier ++
          "';".toList) ++ "\n#!".toList) v :=
        .cons (fun _ hy => by cases hy) (.importing hname hreserved hplain) atEnd_word noSeries_interpreter
      have hnone := read?_eq_none hseries ⟨'i', _, rfl, by decide⟩
      have hfeed : "\n#!".toList = ['\n'] ++ "#!".toList := by decide
      rw [hfeed] at hnone
      simpa only [List.nil_append, List.append_assoc] using hnone

/-- A script behind an import is a script, but for what may stand at the beginning of a script alone. -/
theorem isSome_read?_behind_import (hname : isIdentifier t.importName = true)
    (hfree : isReserved t.importName = false) (hplain : ∀ c ∈ t.specifier, Token.isPlain '\'' c = true)
    {line : List Char} (hline : importLine t.importName t.specifier = .ok line)
    (htext : (Outline.read? text).isSome = true) :
    (Outline.read? (line ++ text)).isSome = true ↔
      ¬ (Outline.HasInterpreter text ∨ Outline.MarksMarkup text) := by
  have hnull : '\x00' ∉ t.specifier := fun hmem => (isPlain_iff.mp (hplain _ hmem)).2 rfl
  have hread := (isSome_read?_importLine hname hline).mpr ⟨hfree, hnull⟩
  obtain ⟨l, hl⟩ := Option.isSome_iff_exists.mp hread
  obtain ⟨o, ho⟩ := Option.isSome_iff_exists.mp htext
  obtain ⟨hnone, hsome⟩ :=
    read?_importLine_append hline (isImportLine_of_isIdentifier hname hline hread) hl ho
  constructor
  · intro hboth hspecial
    rw [hnone hspecial] at hboth
    cases hboth
  · intro hplainText
    obtain ⟨i, both, -, -, hboth, -⟩ := hsome hplainText
    exact Option.isSome_iff_exists.mpr ⟨both, hboth⟩

/-- A range that begins with a character does not begin in a front part without it. -/
theorem byteCount_le_start {x : Char} (hp : p.IsOn source) (hhead : (p.of source).head? = some x)
    (hu : u <+: source) (hx : x ∉ u) : byteCount u ≤ p.start := by
  obtain ⟨front, v, back, -, rfl, rfl⟩ := hp
  rw [Span.of_append] at hhead
  obtain ⟨rest, htext⟩ := hu
  show byteCount u ≤ byteCount front
  by_contra hlt
  -- Otherwise the front part reaches over the first character of the range.
  obtain ⟨d, rfl⟩ := exists_append_of_byteCount_le ((List.append_assoc _ _ _).symm.trans htext.symm)
    (Nat.le_of_lt (Nat.lt_of_not_le hlt))
  obtain ⟨v, rfl⟩ := List.head?_eq_some_iff.mp hhead
  rw [List.append_assoc, List.append_assoc] at htext
  have hrest := List.append_cancel_left htext
  cases d with
  | nil => simp at hlt
  | cons y d =>
      obtain rfl : y = x := (List.cons.inj hrest).1
      exact hx (List.mem_append_right _ List.mem_cons_self)

/-- Where a binding is rewritten without imports, its first characters stay if no brace is among them. -/
theorem Sites.byteCount_le_of_find (h : Sites.find source t.importName = .ok sites) (hu : u <+: source)
    (hbrace : '\x7b' ∉ u) : byteCount u ≤ sites.loadBody.start ∧ byteCount u ≤ sites.fetch.start := by
  obtain ⟨o, load, init, fetch, ho, hload, -, hinit, hfetch, rfl⟩ := find_eq_ok_iff.mp h
  have hstart : ∀ {name : Name} {f : FunctionDeclaration}, o.function? name = some f →
      byteCount u ≤ f.body.span.start ∧ Outline.IsPlaced source f := by
    intro name f hf
    obtain ⟨_, -, -, -, hplaced⟩ :=
      Outline.isPlaced_of_mem_functions ho (Outline.mem_functions_of_function? hf).1
    exact ⟨byteCount_le_start hplaced.body hplaced.isBraced.opens hu hbrace, hplaced⟩
  obtain ⟨hinitStart, hplaced⟩ := hstart hinit
  exact ⟨(hstart hload).1, Nat.le_trans hinitStart (hplaced.pieces fetch (List.mem_of_getElem? hfetch)).2.1⟩

/-- What stands in front of all edits is kept. -/
theorem Segment.isPrefix_after {segments : List Segment} (hu : u <+: before segments behind)
    (hfrom : ∀ e ∈ edits [] segments, byteCount u ≤ e.span.start) : u <+: after segments behind := by
  cases segments with
  | nil => exact hu
  | cons g rest =>
      obtain ⟨v, hv⟩ := hu
      obtain ⟨kept, hkept⟩ := exists_append_of_byteCount_le hv (hfrom _ List.mem_cons_self)
      refine ⟨kept ++ (g.new ++ after rest behind), ?_⟩
      rw [after, show g.kept = u ++ kept from hkept, List.append_assoc]

/-! ## The shape and the name -/

/-- No text is rewritten under a name that is no operand, whatever its shape. -/
theorem rewrite_of_not_isOperandWord (hshape : HasShape source) (hname : isIdentifier t.importName = true)
    (hplain : ∀ c ∈ t.specifier, Token.isPlain '\'' c = true) (hword : isOperandWord t.importName = false) :
    rewrite t source = .error .notAScript := by
  obtain ⟨sites, hfind⟩ := (hasShape_iff t.importName).mp hshape
  unfold rewrite
  rw [importStatement_of_isPlain t.importName hplain, hfind, loaderBody_of_not t.compressed hname hword]
  rfl

/-- What a rewriting answers for a script of the shape that it asks for. The loading function cannot be
written for a name that is no operand. For every other name the edits are made, and only what they leave may
be no script. That is so where a line is put in front of the text, and the name cannot be imported or the
text begins with the line that names an interpreter. Where a line is put in front under a name that can be
imported, and what stands behind the line is a script by itself, it is so only for what may stand at the
beginning of a script alone. -/
theorem rewrite_of_hasShape (hshape : HasShape source) (hname : isIdentifier t.importName = true)
    (hplain : ∀ c ∈ t.specifier, Token.isPlain '\'' c = true) :
    (isOperandWord t.importName = false → rewrite t source = .error .notAScript) ∧
    (isOperandWord t.importName = true → ∃ text, KeepsTheRest t source text ∧
      rewrite t source = if (Outline.read? text).isSome then .ok text else .error .brokenScript) ∧
    (isOperandWord t.importName = true → (isReserved t.importName = true ∨ "#!".toList <+: source) →
      (∀ sites, Sites.find source t.importName = .ok sites → sites.imports = []) →
        rewrite t source = .error .brokenScript) ∧
    (isOperandWord t.importName = true → isReserved t.importName = false →
      (∀ sites, Sites.find source t.importName = .ok sites → sites.imports = []) →
        ∃ line text, importLine t.importName t.specifier = .ok line ∧ KeepsTheRest t source (line ++ text) ∧
          ((Outline.read? text).isSome = true → rewrite t source =
            if Outline.HasInterpreter text ∨ Outline.MarksMarkup text then .error .brokenScript
            else .ok (line ++ text))) := by
  have hstatement := importStatement_of_isPlain t.importName hplain
  obtain ⟨sites, hfind⟩ := (hasShape_iff t.importName).mp hshape
  refine ⟨fun hword => ?_, fun hword => ?_, fun hword hcause hnone => ?_, fun hword hfree hnone => ?_⟩
  · exact rewrite_of_not_isOperandWord hshape hname hplain hword
  · obtain ⟨body, hbody⟩ := exists_loaderBody t.compressed hname hword
    obtain ⟨segments, behind, -, -, hkeeps, hrewrite⟩ := exists_keepsTheRest hstatement hfind hbody
    exact ⟨_, hkeeps, hrewrite⟩
  · obtain ⟨body, hbody⟩ := exists_loaderBody t.compressed hname hword
    obtain ⟨segments, behind, hsource, hperm, -, hrewrite⟩ := exists_keepsTheRest hstatement hfind hbody
    have himports := hnone sites hfind
    rw [himports, List.isEmpty_nil, if_pos rfl] at hrewrite
    rw [hrewrite]
    suffices hread : Outline.read? _ = none by rw [hread]; rfl
    rcases hcause with hreserved | hinterpreter
    · rw [List.append_assoc]
      exact read?_of_isReserved hname hreserved
    · -- Both bodies begin with a brace, so the edits are made behind the first two characters.
      refine read?_of_interpreter hname hplain
        (Segment.isPrefix_after (hsource ▸ hinterpreter) fun e he => ?_)
      obtain ⟨hloadBody, hfetch⟩ := Sites.byteCount_le_of_find hfind hinterpreter (by decide)
      have hmem := hperm.mem_iff.mp he
      rw [himports] at hmem
      simp only [replacements, List.take_nil, List.drop_nil, List.map_nil, List.append_nil, List.mem_cons,
        List.not_mem_nil, or_false] at hmem
      rcases hmem with rfl | rfl
      · exact hloadBody
      · exact hfetch
  · obtain ⟨body, hbody⟩ := exists_loaderBody t.compressed hname hword
    obtain ⟨segments, behind, -, -, hkeeps, hrewrite⟩ := exists_keepsTheRest hstatement hfind hbody
    have hline : importLine t.importName t.specifier =
        .ok ("import ".toList ++ t.importName ++ " from '".toList ++ t.specifier ++ "';".toList ++
          ['\n']) := by
      rw [importLine, hstatement]
      rfl
    rw [hnone sites hfind, List.isEmpty_nil, if_pos rfl] at hkeeps hrewrite
    refine ⟨_, Segment.after segments behind, hline, hkeeps, fun hread => ?_⟩
    have hiff := isSome_read?_behind_import hname hfree hplain hline hread
    rw [hrewrite]
    split
    · next hboth => rw [if_neg (hiff.mp hboth)]
    · next hnot => rw [if_pos (Classical.not_not.mp (mt hiff.mpr hnot))]

namespace Sample

/-- A target whose name is the word of a value: it is an operand, but nothing can be imported under it. -/
def valueTarget : Target := { target with importName := "null".toList }

/-- A target whose name is the word of a declaration. -/
def wordTarget : Target := { target with importName := "class".toList }

theorem hasShape_source : HasShape (Sample.source "a;b;c;") :=
  (hasShape_iff wordTarget.importName).mpr ⟨_, find_source_ended _⟩

theorem isPlain_of_mem_specifier : ∀ c ∈ target.specifier, Token.isPlain '\'' c = true := by
  unfold target
  rewrite [String.toList_ofList]
  decide

end Sample

/-- A name that is decoded but cannot be imported: the loading function is written, the import is refused. -/
theorem rewrite_of_hasShape_null :
    HasShape (Sample.source "a;b;c;") ∧ isIdentifier Sample.valueTarget.importName = true ∧
      isOperandWord Sample.valueTarget.importName = true ∧
      rewrite Sample.valueTarget (Sample.source "a;b;c;") = .error .brokenScript := by
  refine ⟨Sample.hasShape_source, by decide, by decide, ?_⟩
  obtain ⟨-, -, hbroken, -⟩ :=
    rewrite_of_hasShape (t := Sample.valueTarget) Sample.hasShape_source (by decide)
    Sample.isPlain_of_mem_specifier
  refine hbroken (by decide) (.inl (by decide)) fun sites hfind => ?_
  obtain rfl := Except.ok.inj ((Sample.find_source_ended _).symm.trans hfind)
  rfl

/-- A binding of the right shape that is not rewritten, because the word of a declaration is taken for the
name of an import. -/
theorem rewrite_source_class :
    HasShape (Sample.source "a;b;c;") ∧ isIdentifier Sample.wordTarget.importName = true ∧
      (∀ c ∈ Sample.wordTarget.specifier, Token.isPlain '\'' c = true) ∧
      rewrite Sample.wordTarget (Sample.source "a;b;c;") = .error .notAScript :=
  ⟨Sample.hasShape_source, by decide, Sample.isPlain_of_mem_specifier,
    rewrite_of_not_isOperandWord Sample.hasShape_source (by decide) Sample.isPlain_of_mem_specifier
      (by decide)⟩

end WasmEmbed.Binding
