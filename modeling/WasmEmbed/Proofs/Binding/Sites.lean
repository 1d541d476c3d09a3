import WasmEmbed.Binding.Rewrite
import WasmEmbed.Proofs.Binding.Edit
import WasmEmbed.Proofs.Script.Read
import WasmEmbed.Proofs.Text.Utf8

/-!
# The places of a binding that are rewritten

What `Sites.find` and `rewrite` ask for is said here without their control flow (`Sites.find_eq_ok_iff`,
`rewrite_eq_ok_iff`). The places that are found lie on the text and apart from one another
(`Sites.places_of_find`), so the edits of a rewriting are made at once.

The functions are written with `do` blocks in which each step may fail. A step that succeeds leaves an
equation, and a chain of steps the conjunction of these equations.
-/

namespace WasmEmbed.Binding

open Script Text

/-- A computation that may fail has an answer if each of its parts has one. -/
theorem bind_eq_ok_iff {ε α β : Type} {x : Except ε α} {f : α → Except ε β} {b : β} :
    (x >>= f) = .ok b ↔ ∃ a, x = .ok a ∧ f a = .ok b := by
  cases x with
  | error e => simp [bind, Except.bind]
  | ok a => simp [bind, Except.bind]

/-- A computation fails if one of its parts does. -/
theorem bind_eq_error_iff {ε α β : Type} {x : Except ε α} {f : α → Except ε β} {e : ε} :
    (x >>= f) = .error e ↔ x = .error e ∨ ∃ a, x = .ok a ∧ f a = .error e := by
  cases x with
  | error e => simp [bind, Except.bind]
  | ok a => simp [bind, Except.bind]

/-- The spans of all places. -/
def Sites.spans (s : Sites) : List Span := s.loadBody :: s.fetch :: s.imports

/-- A function is found if the outline has one of the name. -/
theorem requireFunction_eq_ok_iff {o : Outline} {name : Name} {f : FunctionDeclaration} :
    requireFunction o name = .ok f ↔ o.function? name = some f := by
  unfold requireFunction
  cases o.function? name with
  | none => simp
  | some g => simp

/-- The places that are found, without the way in which they are looked for. -/
theorem Sites.find_eq_ok_iff {source : List Char} {importName : Name} {sites : Sites} :
    Sites.find source importName = .ok sites ↔
      ∃ o load init fetch, Outline.read? source = some o ∧ o.function? loadName = some load ∧
        load.isAsync = true ∧ o.function? initName = some init ∧
        init.body.pieces[fetchIndex]? = some fetch ∧
        sites = ⟨load.body.span, fetch.span,
          (aggregatorImports o (load.body.span.of source) importName).map ImportDeclaration.span⟩ := by
  unfold Sites.find
  cases Outline.read? source with
  | none => simp [bind_eq_ok_iff]
  | some o =>
      simp only [pure_bind, bind_eq_ok_iff, requireFunction_eq_ok_iff]
      constructor
      · rintro ⟨load, hload, h⟩
        split at h
        · obtain ⟨u, hu, -⟩ := bind_eq_ok_iff.mp h
          cases hu
        · next hasync =>
            obtain ⟨init, hinit, h⟩ := bind_eq_ok_iff.mp h
            split at h
            · next fetch hfetch =>
                have hsites := Except.ok.inj h
                refine ⟨o, load, init, fetch, rfl, hload, by simpa using hasync, ?_, hfetch, hsites.symm⟩
                exact requireFunction_eq_ok_iff.mp hinit
            · cases h
      · rintro ⟨o', load, init, fetch, ho, hload, hasync, hinit, hfetch, rfl⟩
        cases ho
        refine ⟨load, hload, ?_⟩
        simp only [hasync, Bool.not_true, Bool.false_eq_true, if_false, bind_eq_ok_iff]
        refine ⟨init, requireFunction_eq_ok_iff.mpr hinit, ?_⟩
        simp only [hfetch]
        rfl

/-- The places that are found in a text whose outline and loading function are known. -/
theorem Sites.find_eq_ok_iff_of_load {source : List Char} {importName : Name} {sites : Sites} {o : Outline}
    (ho : Outline.read? source = some o) {load : FunctionDeclaration}
    (hload : o.function? loadName = some load) (hasync : load.isAsync = true) :
    Sites.find source importName = .ok sites ↔
      ∃ init fetch, o.function? initName = some init ∧ init.body.pieces[fetchIndex]? = some fetch ∧
        sites = ⟨load.body.span, fetch.span,
          (aggregatorImports o (load.body.span.of source) importName).map ImportDeclaration.span⟩ := by
  rw [find_eq_ok_iff]
  constructor
  · rintro ⟨o', load', init, fetch, ho', hload', -, hinit, hfetch, rfl⟩
    obtain rfl : o = o' := Option.some.inj (ho.symm.trans ho')
    obtain rfl : load = load' := Option.some.inj (hload.symm.trans hload')
    exact ⟨init, fetch, hinit, hfetch, rfl⟩
  · rintro ⟨init, fetch, hinit, hfetch, rfl⟩
    exact ⟨o, load, init, fetch, ho, hload, hasync, hinit, hfetch, rfl⟩

/-- The places of a binding lie on its text, no two of them overlap. -/
theorem Sites.places_of_find {source : List Char} {importName : Name} {sites : Sites}
    (h : Sites.find source importName = .ok sites) :
    (∀ p ∈ sites.spans, p.IsOn source) ∧ sites.spans.Pairwise Outline.Apart := by
  obtain ⟨o, load, init, fetch, ho, hload, -, hinit, hfetch, rfl⟩ := find_eq_ok_iff.mp h
  obtain ⟨hloadMem, hloadName⟩ := Outline.mem_functions_of_function? hload
  obtain ⟨hinitMem, hinitName⟩ := Outline.mem_functions_of_function? hinit
  obtain ⟨s, hs, hrole, hbody, -, -⟩ := Outline.holds_of_mem_functions ho hloadMem
  obtain ⟨s', hs', hrole', -, hpieces, -⟩ := Outline.holds_of_mem_functions ho hinitMem
  have hfetchHolds := hpieces fetch (List.mem_of_getElem? hfetch)
  have himport : ∀ i ∈ aggregatorImports o (load.body.span.of source) importName,
      i.span.IsOn source ∧ Outline.Apart load.body.span i.span ∧ Outline.Apart fetch.span i.span := by
    intro i hi
    obtain ⟨s₁, hs₁, hrole₁, hi⟩ := Outline.holds_of_mem_imports ho (List.mem_of_mem_filter hi)
    refine ⟨hi.isOn, hbody.apart hi (Outline.apart_of_ne ho hs hs₁ ?_),
      hfetchHolds.apart hi (Outline.apart_of_ne ho hs' hs₁ ?_)⟩
    · simp [hrole, hrole₁]
    · simp [hrole', hrole₁]
  -- Functions of different names are different statements, and an import is none of them.
  have hnames : load.name ≠ init.name := by
    rw [hloadName, hinitName]
    decide
  have hbodies : Outline.Apart load.body.span fetch.span :=
    hbody.apart hfetchHolds (Outline.apart_of_name_ne ho hs hs' hrole hrole' hnames)
  constructor
  · intro p hp
    simp only [spans, List.mem_cons, List.mem_map] at hp
    rcases hp with rfl | rfl | ⟨i, hi, rfl⟩
    · exact hbody.isOn
    · exact hfetchHolds.isOn
    · exact (himport i hi).1
  · have hrest : ((aggregatorImports o (load.body.span.of source) importName).map
        ImportDeclaration.span).Pairwise Outline.Apart := by
      refine List.Pairwise.map _ (fun i j hij => Or.inl hij) ?_
      exact (Outline.pairwise_imports ho).filter _
    refine .cons ?_ (.cons ?_ hrest)
    · intro p hp
      simp only [List.mem_cons, List.mem_map] at hp
      rcases hp with rfl | ⟨i, hi, rfl⟩
      · exact hbodies
      · exact (himport i hi).2.1
    · intro p hp
      obtain ⟨i, hi, rfl⟩ := List.mem_map.mp hp
      exact (himport i hi).2.2

/-- A text in which the places are found has two opening braces, one for the body of each function. -/
theorem Sites.two_le_count_of_find {source : List Char} {importName : Name} {sites : Sites}
    (h : Sites.find source importName = .ok sites) : 2 ≤ source.count '\x7b' := by
  obtain ⟨o, load, init, fetch, ho, hload, -, hinit, -, -⟩ := find_eq_ok_iff.mp h
  obtain ⟨hloadMem, hloadName⟩ := Outline.mem_functions_of_function? hload
  obtain ⟨hinitMem, hinitName⟩ := Outline.mem_functions_of_function? hinit
  obtain ⟨s, hs, hrole, hbody, -, hbrace⟩ := Outline.holds_of_mem_functions ho hloadMem
  obtain ⟨s', hs', hrole', hbody', -, hbrace'⟩ := Outline.holds_of_mem_functions ho hinitMem
  have hnames : load.name ≠ init.name := by
    rw [hloadName, hinitName]
    decide
  have hone : ∀ {span : Span}, (span.of source).head? = some '\x7b' →
      1 ≤ (span.of source).count '\x7b' :=
    fun hhead => List.one_le_count_iff.mpr (List.mem_of_head? hhead)
  have := hone hbrace.opens
  have := hone hbrace'.opens
  rcases hbody.apart hbody' (Outline.apart_of_name_ne ho hs hs' hrole hrole' hnames) with hle | hle
  · have := Span.count_add_count_le hbody.isOn hbody'.isOn hle '\x7b'
    omega
  · have := Span.count_add_count_le hbody'.isOn hbody.isOn hle '\x7b'
    omega

/-! ## Rewriting

The edits of a rewriting are listed in one definition, with the import in front if there was none to
replace.
-/

/-- The edits of a rewriting. -/
def Sites.edits (s : Sites) (data statement body : List UInt8) : List Edit :=
  ⟨s.loadBody, body⟩ :: ⟨s.fetch, Utf8.encode [';']⟩ :: importEdits data statement s.imports

/-- What a rewriting answers, without the way in which it is computed. -/
theorem rewrite_eq_ok_iff {t : Target} {source out : List Char} :
    rewrite t source = .ok out ↔
      ∃ statement sites body edited text, importStatement t.importName t.specifier = .ok statement ∧
        Sites.find source t.importName = .ok sites ∧
        loaderBody t.compressed t.importName = .ok body ∧
        Edit.applyAll? (Utf8.encode source) (sites.edits (Utf8.encode source) (Utf8.encode statement)
          (Utf8.encode body)) = some edited ∧
        Utf8.decode edited = .ok text ∧
        out = (if sites.imports.isEmpty then statement ++ '\n' :: text else text) ∧
        (Outline.read? out).isSome = true := by
  unfold rewrite
  simp only [bind_eq_ok_iff]
  constructor
  · rintro ⟨statement, hstatement, sites, hsites, body, hbody, h⟩
    split at h
    · next edited hedited =>
        obtain ⟨text, htext, h⟩ := bind_eq_ok_iff.mp h
        split at h
        · next o ho =>
            cases h
            refine ⟨statement, sites, body, edited, text, hstatement, hsites, hbody, hedited, ?_, rfl, ?_⟩
            · cases hdecode : Utf8.decode edited with
              | error e => simp [hdecode, Except.mapError] at htext
              | ok text' => simpa [hdecode, Except.mapError] using htext
            · exact Option.isSome_iff_exists.mpr ⟨o, ho⟩
        · cases h
    · cases h
  · rintro ⟨statement, sites, body, edited, text, hstatement, hsites, hbody, hedited, htext, rfl, hread⟩
    obtain ⟨o, ho⟩ := Option.isSome_iff_exists.mp hread
    refine ⟨statement, hstatement, sites, hsites, body, hbody, ?_⟩
    rw [Sites.edits] at hedited
    simp only [hedited, htext, Except.mapError, bind_eq_ok_iff]
    refine ⟨text, rfl, ?_⟩
    simp only [ho]
    rfl

/-- A text that is rewritten has a statement that fetches in its starting function. -/
theorem exists_fetch_of_rewrite {t : Target} {source out : List Char} {o : Outline}
    (ho : Outline.read? source = some o) (h : rewrite t source = .ok out) :
    ∃ init ∈ o.function? initName, fetchIndex < init.body.pieces.length := by
  obtain ⟨-, sites, -, -, -, -, hfind, -⟩ := rewrite_eq_ok_iff.mp h
  obtain ⟨o', load, init, fetch, ho', -, -, hinit, hfetch, -⟩ := Sites.find_eq_ok_iff.mp hfind
  obtain rfl : o = o' := Option.some.inj (ho.symm.trans ho')
  exact ⟨init, hinit, (List.getElem?_eq_some_iff.mp hfetch).1⟩

/-- A rewriting whose edits are known in the order of their places. -/
theorem rewrite_of_ordered {t : Target} {source statement body text : List Char} {sites : Sites}
    (ordered : List Edit) (hstatement : importStatement t.importName t.specifier = .ok statement)
    (hfind : Sites.find source t.importName = .ok sites)
    (hbody : loaderBody t.compressed t.importName = .ok body)
    (hperm : ordered.Perm
      (sites.edits (Utf8.encode source) (Utf8.encode statement) (Utf8.encode body)))
    (hin : ∀ e ∈ ordered, e.span.start < e.span.stop ∧ e.span.stop ≤ (Utf8.encode source).length)
    (hbefore : ordered.Pairwise Edit.IsBefore)
    (htext : Edit.splice (Utf8.encode source) 0 ordered = Utf8.encode text)
    (hread : (Outline.read? (if sites.imports.isEmpty then statement ++ '\n' :: text else text)).isSome) :
    rewrite t source = .ok (if sites.imports.isEmpty then statement ++ '\n' :: text else text) := by
  refine rewrite_eq_ok_iff.mpr ⟨statement, sites, body, _, text, hstatement, hfind, hbody, ?_,
    Utf8.decode_encode text, rfl, hread⟩
  rw [Edit.applyAll?_of_perm hperm hin hbefore, htext]

/-- A rewriting of a text in which two imports, each on a line of its own, stand for the aggregator, in
front of the functions. -/
theorem rewrite_of_doubled {t : Target} {source statement body text : List Char}
    {first second loadBody fetch : Span}
    (hstatement : importStatement t.importName t.specifier = .ok statement)
    (hfind : Sites.find source t.importName = .ok ⟨loadBody, fetch, [first, second]⟩)
    (hbody : loaderBody t.compressed t.importName = .ok body)
    (hfeed : (Utf8.encode source)[second.stop]? = some 10)
    (himports : first.start < first.stop ∧ first.stop ≤ second.start ∧ second.start < second.stop)
    (hfunctions : second.stop < loadBody.start ∧ loadBody.start < loadBody.stop ∧
      loadBody.stop ≤ fetch.start ∧ fetch.start < fetch.stop ∧ fetch.stop ≤ (Utf8.encode source).length)
    (htext : Edit.splice (Utf8.encode source) 0
      [⟨first, Utf8.encode statement⟩, ⟨⟨second.start, second.stop + 1⟩, []⟩, ⟨loadBody, Utf8.encode body⟩,
        ⟨fetch, Utf8.encode [';']⟩] = Utf8.encode text)
    (hread : (Outline.read? text).isSome) : rewrite t source = .ok text := by
  have hdrop : dropImport (Utf8.encode source) second = ⟨⟨second.start, second.stop + 1⟩, []⟩ := if_pos hfeed
  refine rewrite_of_ordered ([⟨first, Utf8.encode statement⟩, ⟨⟨second.start, second.stop + 1⟩, []⟩] ++
    [⟨loadBody, Utf8.encode body⟩, ⟨fetch, Utf8.encode [';']⟩]) hstatement hfind hbody ?_ ?_ ?_ htext hread
  · rw [Sites.edits, importEdits, List.map_singleton, hdrop]
    exact List.perm_append_comm
  · simp only [List.cons_append, List.nil_append, List.mem_cons, List.not_mem_nil, or_false, forall_eq_or_imp,
      forall_eq]
    omega
  · simp only [List.cons_append, List.nil_append, List.pairwise_cons, List.mem_cons, List.not_mem_nil,
      or_false, forall_eq_or_imp, forall_eq, Edit.IsBefore, IsEmpty.forall_iff, implies_true,
      List.Pairwise.nil, and_true]
    omega

end WasmEmbed.Binding
