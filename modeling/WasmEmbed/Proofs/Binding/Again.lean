import WasmEmbed.Proofs.Binding.Decodes
import WasmEmbed.Proofs.Binding.Imports

/-!
# Rewriting a binding again

A binding that was rewritten should stay as it is when it is rewritten for the same target. The second
rewriting reads the text anew, so the question is what it finds there. If the functions and the imports are
found where they were moved to, it finds the new loading function and the new import (`Rewriting.loads`). If
it finds these, nothing changes exactly if the third statement of the starting function reads `;`
(`rewrite_rewrite_iff`). It does not where the semicolon that was written for that statement ends the
statement in front of it instead.
-/

namespace WasmEmbed.Binding

open Script Script.Written Text

/-! ## What the second rewriting finds -/

/-- The new loading function is found, and the new import as the only one under the names that stand for
the aggregator. -/
def Loads (t : Target) (text : List Char) (o : Outline) : Prop :=
  ∃ load ∈ o.function? loadName, load.isAsync = true ∧
    loaderBody t.compressed t.importName = .ok (load.body.span.of text) ∧
    (aggregatorImports o (load.body.span.of text) t.importName).map (fun i => .ok (i.span.of text)) =
      [importStatement t.importName t.specifier]

instance (t : Target) (text : List Char) (o : Outline) : Decidable (Loads t text o) :=
  inferInstanceAs (Decidable (∃ load ∈ o.function? loadName, _))

/-- The third statement of the starting function is an empty one. -/
def FetchesNothing (text : List Char) (o : Outline) : Prop :=
  ∃ init ∈ o.function? initName, ∃ fetch ∈ init.body.pieces[fetchIndex]?, fetch.span.of text = [';']

instance (text : List Char) (o : Outline) : Decidable (FetchesNothing text o) :=
  inferInstanceAs (Decidable (∃ init ∈ o.function? initName, _))

/-! ## Edits on a text -/

/-- The bytes that an edit of a range of characters replaces. -/
theorem old_of_isOn {text : List Char} {span : Span} (h : span.IsOn text) (replacement : List UInt8) :
    Edit.old (Utf8.encode text) ⟨span, replacement⟩ = Utf8.encode (span.of text) := by
  obtain ⟨u, v, w, -, rfl, rfl⟩ := h
  rw [Span.of_append, Edit.old, Edit.between]
  simp only [Utf8.encode_append, List.append_assoc, byteCount_append]
  rw [← Utf8.length_encode u, List.drop_left, Nat.add_sub_cancel_left, ← Utf8.length_encode v,
    List.take_left]

/-- The text with other characters in the place of a range. -/
theorem exists_replaced {text : List Char} {span : Span} (h : span.IsOn text) (new : List Char) :
    ∃ text', Edit.between (Utf8.encode text) 0 span.start ++ Utf8.encode new ++
      (Utf8.encode text).drop span.stop = Utf8.encode text' ∧ (text' = text ↔ span.of text = new) := by
  obtain ⟨u, v, w, -, rfl, rfl⟩ := h
  refine ⟨u ++ new ++ w, ?_, ?_⟩
  · simp only [Edit.between, List.drop_zero, Nat.sub_zero, Utf8.encode_append]
    rw [← Utf8.length_encode u, ← Utf8.length_encode (u ++ v), Utf8.encode_append, List.drop_left,
      List.append_assoc (Utf8.encode u), List.take_left]
  · rw [Span.of_append]
    simp [eq_comm]

/-! ## What the second rewriting does -/

/-- A rewriting that finds the loading function and the import as it would write them changes only the
third statement of the starting function. -/
theorem applyAll?_of_loads {text body statement : List Char} {sites : Sites} {i : Span}
    (hon : ∀ p ∈ sites.spans, p.IsOn text) (hapart : sites.spans.Pairwise Outline.Apart)
    (himports : sites.imports = [i]) (hbody : sites.loadBody.of text = body)
    (hstatement : i.of text = statement) :
    ∃ text', Edit.applyAll? (Utf8.encode text)
        (sites.edits (Utf8.encode text) (Utf8.encode statement) (Utf8.encode body)) =
          some (Utf8.encode text') ∧
      (text' = text ↔ sites.fetch.of text = [';']) := by
  obtain ⟨loadBody, fetch, imports⟩ := sites
  obtain rfl : imports = [i] := himports
  have hspan : ∀ e ∈ Sites.edits ⟨loadBody, fetch, [i]⟩ (Utf8.encode text) (Utf8.encode statement)
      (Utf8.encode body), e.span ∈ Sites.spans ⟨loadBody, fetch, [i]⟩ := by
    simp [Sites.edits, Sites.spans, importEdits]
  obtain ⟨text', htext', hiff⟩ := exists_replaced (hon fetch (by simp [Sites.spans])) [';']
  refine ⟨text', ?_, hiff⟩
  rw [← htext']
  -- All edits but that of the third statement put what is there already.
  refine Edit.applyAll?_of_old_but_one (e := ⟨fetch, Utf8.encode [';']⟩) ?_ ?_ ?_ ?_
  · simp [Sites.edits]
  · intro e he
    have h := hon e.span (hspan e he)
    exact ⟨h.start_lt, by rw [Utf8.length_encode]; exact h.stop_le⟩
  · simpa [Sites.edits, Sites.spans, importEdits, Edit.IsBefore, Outline.Apart] using hapart
  · intro e he hne
    simp only [Sites.edits, importEdits, List.map_nil, List.mem_cons, List.not_mem_nil, or_false] at he
    rcases he with rfl | rfl | rfl
    · rw [old_of_isOn (hon loadBody (by simp [Sites.spans]))]
      exact congrArg Utf8.encode hbody.symm
    · exact absurd rfl hne
    · rw [old_of_isOn (hon i (by simp [Sites.spans])), hstatement]

/-- A text in which the loading function and the import are found as they would be written stays as it is
exactly if the third statement of the starting function reads `;`. -/
theorem rewrite_self_iff {t : Target} {text : List Char} {o : Outline}
    (ho : Outline.read? text = some o) (h : Loads t text o) :
    rewrite t text = .ok text ↔ FetchesNothing text o := by
  obtain ⟨load, hload, hasync, hbody, himport⟩ := h
  obtain ⟨i, himports, hstatement⟩ := List.map_eq_singleton_iff.mp himport
  -- The loading function and its import are given, so the third statement alone is left to be found.
  have hsites : ∀ sites, Sites.find text t.importName = .ok sites ↔
      ∃ init fetch, o.function? initName = some init ∧ init.body.pieces[fetchIndex]? = some fetch ∧
        sites = ⟨load.body.span, fetch.span, [i.span]⟩ := by
    intro sites
    rw [Sites.find_eq_ok_iff_of_load ho hload hasync, himports, List.map_singleton]
  constructor
  · intro hrewrite
    obtain ⟨statement, sites, body, edited, text', hs, hfind, hb, hedited, htext', hout, -⟩ :=
      rewrite_eq_ok_iff.mp hrewrite
    obtain rfl := Except.ok.inj (hstatement.trans hs)
    obtain rfl := Except.ok.inj (hbody.symm.trans hb)
    obtain ⟨init, fetch, hinit, hfetch, hplaces⟩ := (hsites sites).mp hfind
    obtain ⟨hon, hapart⟩ := Sites.places_of_find hfind
    subst hplaces
    obtain ⟨text'', happly, hiff⟩ := applyAll?_of_loads hon hapart rfl rfl rfl
    obtain rfl := Option.some.inj (happly.symm.trans hedited)
    obtain rfl := Except.ok.inj ((Utf8.decode_encode text'').symm.trans htext')
    exact ⟨init, hinit, fetch, hfetch, hiff.mp hout.symm⟩
  · rintro ⟨init, hinit, fetch, hfetch, hempty⟩
    have hfind := (hsites _).mpr ⟨init, fetch, hinit, hfetch, rfl⟩
    obtain ⟨hon, hapart⟩ := Sites.places_of_find hfind
    obtain ⟨text', happly, hiff⟩ := applyAll?_of_loads hon hapart rfl rfl rfl
    obtain rfl := hiff.mpr hempty
    exact rewrite_eq_ok_iff.mpr ⟨_, _, _, _, text', hstatement.symm, hfind, hbody, happly,
      Utf8.decode_encode text', rfl, by rw [ho]; rfl⟩

/-- A rewriting whose functions and imports are found in their places loads what it wrote. -/
theorem Rewriting.loads {t : Target} {source out : List Char} (r : Rewriting t source out)
    (hname : isIdentifier t.importName = true) (hplace : r.StaysInPlace) (himports : r.ImportsStay) :
    Loads t out r.after := by
  obtain ⟨load, hload, hasync, -, hspan⟩ := r.exists_load_of_staysInPlace hplace
  have hbody : load.body.span.of out = r.body := by rw [hspan, r.of_place_loadBody]
  -- The name that the new body decodes is that of the target.
  have hnames : aggregatorImports r.after r.body t.importName =
      importsNamed r.after [t.importName, t.importName] := by
    rw [aggregatorImports_eq, previousName?_of_loaderBody hname r.loaderBody_eq]
    rfl
  have hclaimed : ∀ i ∈ importsNamed r.before [t.importName, t.importName], i ∈ r.claimed :=
    fun i hi => r.mem_claimed (by simp [names]) hi
  obtain ⟨i, hi, -, hstatement⟩ := r.hasOneImport himports hname List.mem_cons_self hclaimed
  refine ⟨load, hload, hasync, ?_, ?_⟩
  · rw [hbody, r.loaderBody_eq]
  · rw [hbody, hnames, hi, List.map_singleton, hstatement]

/-- If the functions and the imports of a rewritten text are found in their places, then its loading
function and its import are found again. If these are found, rewriting the text again answers the same text
exactly if the third statement of its starting function is found to be `;`. -/
theorem rewrite_rewrite_iff {t : Target} {source out : List Char} (h : rewrite t source = .ok out) :
    ∃ r : Rewriting t source out,
      (isIdentifier t.importName = true → r.StaysInPlace → r.ImportsStay → Loads t out r.after) ∧
      (Loads t out r.after → (rewrite t out = .ok out ↔ FetchesNothing out r.after)) := by
  obtain ⟨r⟩ := exists_rewriting h
  exact ⟨r, r.loads, rewrite_self_iff r.read_after⟩

/-- In a text without imports, the places of a rewriting are the same for every name. -/
theorem Sites.find_of_imports_eq_nil {source : List Char} {name : Name} {sites : Sites}
    (hnone : ∀ o ∈ Outline.read? source, o.imports = []) (h : Sites.find source name = .ok sites)
    (name' : Name) :
    Sites.find source name' = .ok sites := by
  obtain ⟨o, load, init, fetch, ho, hload, hasync, hinit, hfetch, hsites⟩ := Sites.find_eq_ok_iff.mp h
  refine Sites.find_eq_ok_iff.mpr ⟨o, load, init, fetch, ho, hload, hasync, hinit, hfetch, ?_⟩
  rw [hsites, aggregatorImports, aggregatorImports, hnone o ho]
  rfl

/-! ## A binding that stays and one that does not

Two bindings that are alike but for the semicolons behind the statements of the starting function. Where
there are none, the semicolon that is written for the third statement ends the second one.
-/

namespace Sample

/-- The target of the samples. -/
def target : Target where
  importName := "w".toList
  specifier := "./w/index.js".toList

/-- The import that is written for a target. -/
def statement (t : Target) : List Char :=
  "import ".toList ++ t.importName ++ " from '".toList ++ t.specifier ++ "';".toList

/-- The body of the loading function that is written for a target. -/
def body (t : Target) : List Char := '\x7b' :: (bodyText t.compressed t.importName ++ ['\x7d'])

/-- A binding with a body of the loading function and the statements of the starting function. -/
def binding (body : List Char) (statements : String) : List Char :=
  "async function load() ".toList ++ body ++ "\nfunction init() \x7b\n".toList ++ statements.toList ++
    "\x7d\n".toList

/-- A binding with these statements of the starting function, before it is rewritten. -/
def source (statements : String) : List Char := binding "\x7b\x7d".toList statements

/-- A binding with these statements of the starting function, after it was rewritten for a target. -/
def rewritten (t : Target) (statements : String) : List Char :=
  statement t ++ '\n' :: binding (body t) statements

set_option maxRecDepth 1000 in
/-- The body that is written for a module that is embedded as it is. -/
theorem body_of_plain {t : Target} (h : t.compressed = false) : body t =
    ("\x7b\n    const bytesFromBase64 = (base64String) => " ++
      "Uint8Array.from(atob(base64String), (c) => c.charCodeAt(0));\n" ++
      "    const wasmBytecode = bytesFromBase64(").toList ++ t.importName ++
    (");\n    const instance = await WebAssembly.instantiate(wasmBytecode, imports);\n" ++
      "    return instance;\n\x7d").toList := by
  unfold body
  rw [h]
  unfold bodyText useText endText constantText decoderText decoderName instanceText bytesName margin
  rw [if_neg (by decide), if_neg (by decide)]
  repeat rewrite [String.toList_append]
  repeat rewrite [String.toList_ofList]
  simp only [List.append_assoc, List.cons_append, List.nil_append]

/-- A target under whose name the module can be imported and decoded. -/
structure IsWritten (t : Target) : Prop where
  name : isIdentifier t.importName = true
  statement : importStatement t.importName t.specifier = .ok (statement t)
  body : loaderBody t.compressed t.importName = .ok (body t)

theorem isWritten {t : Target} (hname : isIdentifier t.importName = true)
    (hword : isOperandWord t.importName = true) (hspecifier : t.specifier.any isUnquotable = false) :
    IsWritten t where
  name := hname
  statement := if_neg (Bool.eq_false_iff.mp hspecifier)
  body := loaderBody_of_isOperandWord t.compressed hname hword

theorem isWritten_target : IsWritten target := isWritten (by decide) (by decide) (by decide)

/-- The parts of a binding around the body of its loading function. -/
theorem exists_around (statements : String) : ∃ front behind, byteCount front = 22 ∧
    ∀ body, binding body statements = front ++ body ++ behind := by
  have hassoc : ∀ u v w x : List Char, u ++ v ++ w ++ x = u ++ (v ++ w ++ x) := by simp
  exact ⟨_, _, by decide, fun body => hassoc _ _ _ _⟩

/-! ### What is read from a rewritten binding -/

/-- What is read from a binding that was rewritten for a target: the body in its place, and the new import
as the only one. -/
def IsRead (t : Target) (o : Outline) : Prop :=
  (∃ load ∈ o.function? loadName, load.isAsync = true ∧
    load.body.span = ⟨byteCount (statement t) + 23, byteCount (statement t) + 23 + byteCount (body t)⟩) ∧
  o.imports.map (fun i => (i.defaultName, i.specifier, i.span)) =
    [(some t.importName, t.specifier, ⟨0, byteCount (statement t)⟩)]

instance (t : Target) (o : Outline) : Decidable (IsRead t o) := inferInstanceAs (Decidable (_ ∧ _))

variable {t : Target} {o : Outline}

/-- The body that is read is the one that was written. -/
theorem IsRead.exists_load (h : IsRead t o) (statements : String) :
    ∃ load ∈ o.function? loadName, load.isAsync = true ∧
      load.body.span.of (rewritten t statements) = body t := by
  obtain ⟨⟨load, hload, hasync, hspan⟩, -⟩ := h
  obtain ⟨front, behind, hfront, hsplit⟩ := exists_around statements
  refine ⟨load, hload, hasync, ?_⟩
  have hstart : byteCount (statement t ++ '\n' :: front) = byteCount (statement t) + 23 := by
    rw [byteCount_append, byteCount_cons, hfront]
    rfl
  rw [hspan, ← hstart, ← byteCount_append]
  refine Span.of_eq (w := behind) ?_
  rw [rewritten, hsplit]
  simp only [List.append_assoc, List.cons_append]

/-- The import that is read is the statement that was written. -/
theorem IsRead.exists_import (h : IsRead t o) (statements : String) :
    ∃ i, o.imports = [i] ∧ i.defaultName = some t.importName ∧ i.span = ⟨0, byteCount (statement t)⟩ ∧
      i.span.of (rewritten t statements) = statement t := by
  obtain ⟨-, himports⟩ := h
  obtain ⟨i, hi, hread⟩ := List.map_eq_singleton_iff.mp himports
  obtain ⟨hdefault, hread⟩ := Prod.mk.inj hread
  obtain ⟨-, hplace⟩ := Prod.mk.inj hread
  refine ⟨i, hi, hdefault, hplace, ?_⟩
  rw [hplace]
  exact Span.of_eq (u := []) (w := '\n' :: binding (body t) statements) rfl

/-- A binding that is read like this loads what was written. -/
theorem IsRead.loads (h : IsRead t o) (hwritten : IsWritten t) (statements : String) :
    Loads t (rewritten t statements) o := by
  obtain ⟨load, hload, hasync, htext⟩ := h.exists_load statements
  obtain ⟨i, hi, hdefault, -, himport⟩ := h.exists_import statements
  refine ⟨load, hload, hasync, by rw [htext, hwritten.body], ?_⟩
  rw [htext, aggregatorImports, hi, hwritten.statement, List.filter_cons_of_pos (by simp [hdefault])]
  simp [himport]

/-! ### Bindings that are rewritten -/

/-- The segments that a rewriting makes of a binding around the third statement of its starting function. -/
def segments (body u third : List Char) : List Segment :=
  [⟨"async function load() ".toList, "\x7b\x7d".toList, body⟩,
    ⟨"\nfunction init() \x7b\n".toList ++ u, third, [';']⟩]

theorem binding_eq {statements : String} {u w v : List Char} (h : statements.toList = u ++ w ++ v)
    (body : List Char) : binding body statements = "async function load() ".toList ++
      (body ++ ("\nfunction init() \x7b\n".toList ++ u ++ (w ++ (v ++ "\x7d\n".toList)))) := by
  unfold binding
  rewrite [h]
  simp only [List.append_assoc]

/-- A binding of this kind is rewritten if its places are where they should be: a semicolon takes the place
of the third statement of its starting function. -/
theorem rewrite_source (hwritten : IsWritten t) {before after : String} (u third v : List Char) {fetch : Span}
    (hthird : third ≠ []) (hbefore : before.toList = u ++ third ++ v)
    (hafter : after.toList = u ++ [';'] ++ v)
    (hfetch : fetch = ⟨43 + byteCount u, 43 + byteCount (u ++ third)⟩)
    (hfind : Sites.find (source before) t.importName = .ok ⟨⟨22, 24⟩, fetch, []⟩)
    (hread : (Outline.read? (rewritten t after)).isSome) :
    rewrite t (source before) = .ok (rewritten t after) := by
  have hsource : source before = Segment.before (segments (body t) u third) (v ++ "\x7d\n".toList) :=
    binding_eq hbefore _
  have hrewritten : rewritten t after =
      statement t ++ '\n' :: Segment.after (segments (body t) u third) (v ++ "\x7d\n".toList) :=
    congrArg (fun text => statement t ++ '\n' :: text) (binding_eq hafter _)
  have hhead : byteCount "async function load() ".toList = 22 := by decide
  have hbraces : byteCount "\x7b\x7d".toList = 2 := by decide
  have hinit : byteCount "\nfunction init() \x7b\n".toList = 19 := by decide
  have hedits : Segment.edits [] (segments (body t) u third) =
      [⟨⟨22, 24⟩, Utf8.encode (body t)⟩, ⟨fetch, Utf8.encode [';']⟩] := by
    simp only [segments, Segment.edits, hfetch, List.nil_append, byteCount_append, hhead, hbraces, hinit,
      List.cons.injEq, Edit.mk.injEq, Span.mk.injEq, true_and, and_true]
    omega
  have happly := Segment.applyAll?_segments (segments (body t) u third) (v ++ "\x7d\n".toList) (.of_eq hedits)
    (by simp [segments, hthird])
  rw [← hsource] at happly
  rw [hrewritten] at hread ⊢
  exact rewrite_eq_ok_iff.mpr ⟨_, _, _, _, _, hwritten.statement, hfind, hwritten.body, happly,
    Utf8.decode_encode _, rfl, hread⟩

/-- The import of a rewritten binding that had none is found in its place. -/
theorem importsStay_of_isRead {before after : String} (r : Rewriting t (source before) (rewritten t after))
    (hwritten : IsWritten t) (hnone : r.before.imports = []) (hread : IsRead t r.after) : r.ImportsStay := by
  have hstatement : r.statement = statement t :=
    Except.ok.inj (r.importStatement_eq.symm.trans hwritten.statement)
  have hclaimed : r.imports = [] := by rw [Rewriting.imports, aggregatorImports, hnone]; rfl
  have hkept : r.kept = [] := by rw [Rewriting.kept, hnone]; rfl
  have hplace : r.importPlace = ⟨0, byteCount (statement t)⟩ := by
    rw [Rewriting.importPlace, hclaimed, hstatement]
  obtain ⟨i, hi, -, hspan, -⟩ := hread.exists_import after
  intro p
  rw [hi, hkept, hplace, List.map_singleton, hspan, List.map_nil, List.mem_singleton]
  exact ⟨Or.inl, fun h => h.resolve_right List.not_mem_nil⟩

/-- What is read from the binding whose statements end in semicolons. -/
theorem read?_source_ended : (Outline.read? (source "a;b;c;")).map (fun o =>
    (o.functions.map FunctionDeclaration.span, o.imports)) = some ([⟨0, 24⟩, ⟨25, 50⟩], []) := by
  decide +kernel

theorem imports_source_ended : ∀ o ∈ Outline.read? (source "a;b;c;"), o.imports = [] := by
  intro o ho
  have hread := read?_source_ended
  rw [Option.mem_def.mp ho] at hread
  exact (Prod.mk.inj (Option.some.inj hread)).2

/-- Where the places of that binding are. -/
theorem find_source_ended (name : Name) :
    Sites.find (source "a;b;c;") name = .ok ⟨⟨22, 24⟩, ⟨47, 49⟩, []⟩ := by
  have hfind : Sites.find (source "a;b;c;") target.importName = .ok ⟨⟨22, 24⟩, ⟨47, 49⟩, []⟩ := by
    decide +kernel
  exact Sites.find_of_imports_eq_nil imports_source_ended hfind name

/-- What a computation finds of a text is read from it. -/
theorem exists_outline_of_any {text : List Char} {P : Outline → Prop} [DecidablePred P]
    (h : (Outline.read? text).any (fun o => decide (P o)) = true) :
    ∃ o, Outline.read? text = some o ∧ P o := by
  obtain ⟨o, ho, hfound⟩ := (Option.any_eq_true _ _).mp h
  exact ⟨o, ho, of_decide_eq_true hfound⟩

/-- What is read from it after it was rewritten. -/
theorem exists_outline_ended : ∃ o, Outline.read? (rewritten target "a;b;;") = some o ∧
    IsRead target o ∧ FetchesNothing (rewritten target "a;b;;") o ∧
    o.functions.map FunctionDeclaration.span = [⟨30, 303⟩, ⟨304, 328⟩] := by
  refine exists_outline_of_any ?_
  unfold rewritten statement binding
  rewrite [body_of_plain (t := target) rfl]
  repeat rewrite [String.toList_append]
  repeat rewrite [String.toList_ofList]
  decide +kernel

theorem rewrite_source_ended :
    rewrite target (source "a;b;c;") = .ok (rewritten target "a;b;;") := by
  obtain ⟨o, ho, -⟩ := exists_outline_ended
  exact rewrite_source isWritten_target "a;b;".toList "c;".toList [] (by decide) (by decide) (by decide)
    (by decide) (find_source_ended _) (Option.isSome_iff_exists.mpr ⟨o, ho⟩)

/-- The functions and the imports of the rewritten binding are found where they were moved to. -/
theorem stays_ended (r : Rewriting target (source "a;b;c;") (rewritten target "a;b;;")) :
    r.StaysInPlace ∧ r.ImportsStay := by
  have hsites : r.sites = ⟨⟨22, 24⟩, ⟨47, 49⟩, []⟩ :=
    Except.ok.inj (r.find_sites.symm.trans (find_source_ended _))
  have hload : r.load.body.span = ⟨22, 24⟩ := congrArg Sites.loadBody hsites
  have hfetch : r.fetch.span = ⟨47, 49⟩ := congrArg Sites.fetch hsites
  have hnone : r.imports = [] := congrArg Sites.imports hsites
  have hstatement : r.statement = statement target :=
    Except.ok.inj (r.importStatement_eq.symm.trans isWritten_target.statement)
  have hbody : r.body = body target := Except.ok.inj (r.loaderBody_eq.symm.trans isWritten_target.body)
  obtain ⟨o, ho, hread, -, hspans⟩ := exists_outline_ended
  obtain rfl : o = r.after := Option.some.inj (ho.symm.trans r.read_after)
  have hbefore := read?_source_ended
  rw [r.read_before] at hbefore
  obtain ⟨hfunctions, himports⟩ := Prod.mk.inj (Option.some.inj hbefore)
  have hplace : ∀ p, r.place p =
      let moved := Edit.movedSpan [⟨⟨22, 24⟩, Utf8.encode (body target)⟩, ⟨⟨47, 49⟩, Utf8.encode [';']⟩] p
      ⟨byteCount (statement target ++ ['\n']) + moved.start,
        byteCount (statement target ++ ['\n']) + moved.stop⟩ := by
    intro p
    rw [Rewriting.place, Rewriting.edits, Rewriting.line, hload, hfetch, hnone, hbody, hstatement]
    rfl
  refine ⟨⟨?_, ?_⟩, importsStay_of_isRead r isWritten_target himports hread⟩
  · rw [← Function.comp_def r.place, ← List.map_map, hfunctions, hspans, List.map_cons, List.map_singleton,
      hplace, hplace]
    decide +kernel
  · obtain ⟨⟨load, hfound, -, hspan⟩, -⟩ := hread
    rw [Rewriting.LoaderStays, hfound, Option.map_some, hspan, hload, hplace]
    decide +kernel

end Sample

theorem rewrite_rewrite_ended :
    ∃ r : Rewriting Sample.target (Sample.source "a;b;c;") (Sample.rewritten Sample.target "a;b;;"),
      r.StaysInPlace ∧ r.ImportsStay ∧
      rewrite Sample.target (Sample.rewritten Sample.target "a;b;;") =
        .ok (Sample.rewritten Sample.target "a;b;;") := by
  obtain ⟨r, hloads, hiff⟩ := rewrite_rewrite_iff Sample.rewrite_source_ended
  obtain ⟨hplace, himports⟩ := Sample.stays_ended r
  obtain ⟨o, ho, -, hempty, -⟩ := Sample.exists_outline_ended
  obtain rfl : o = r.after := Option.some.inj (ho.symm.trans r.read_after)
  exact ⟨r, hplace, himports, (hiff (hloads (by decide) hplace himports)).mpr hempty⟩

theorem rewrite_rewrite_unended :
    rewrite Sample.target (Sample.source "a\nb\nc\n") = .ok (Sample.rewritten Sample.target "a\nb\n;\n") ∧
      rewrite Sample.target (Sample.rewritten Sample.target "a\nb\n;\n") ≠
        .ok (Sample.rewritten Sample.target "a\nb\n;\n") := by
  have hread : ∃ o, Outline.read? (Sample.rewritten Sample.target "a\nb\n;\n") = some o ∧
      ∀ init ∈ o.function? initName, init.body.pieces.length = 2 := by
    refine Sample.exists_outline_of_any ?_
    unfold Sample.rewritten Sample.statement Sample.binding
    rewrite [Sample.body_of_plain (t := Sample.target) rfl]
    repeat rewrite [String.toList_append]
    repeat rewrite [String.toList_ofList]
    decide +kernel
  obtain ⟨o, ho, hshort⟩ := hread
  constructor
  · have hfind : Sites.find (Sample.source "a\nb\nc\n") Sample.target.importName =
        .ok ⟨⟨22, 24⟩, ⟨47, 48⟩, []⟩ := by
      decide +kernel
    exact Sample.rewrite_source Sample.isWritten_target "a\nb\n".toList ['c'] ['\n'] (by decide) (by decide)
      (by decide) (by decide) hfind (Option.isSome_iff_exists.mpr ⟨o, ho⟩)
  · intro h
    -- Rewriting asks for a third statement, but the semicolon belongs to the second one.
    obtain ⟨init, hinit, hlong⟩ := exists_fetch_of_rewrite ho h
    rw [hshort init hinit] at hlong
    exact absurd hlong (by decide)

end WasmEmbed.Binding
