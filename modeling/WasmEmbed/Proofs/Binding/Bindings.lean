import WasmEmbed.Proofs.Binding.Functions

/-!
# The bindings of a rewritten text

The imports of the aggregator are known by the names of their defaults, but an import is replaced or dropped
as a whole, with everything else that it binds. All other imports keep their texts
(`Rewriting.of_place_of_mem_kept`), and imports of the same text bind the same names. So if the parser finds
the imports of the rewritten text where they were moved to, a name is lost exactly if an import of the
aggregator binds it besides its default (`bindings_of_rewrite`).
-/

namespace WasmEmbed.Script

/-! ## What an import binds -/

namespace ImportDeclaration

variable {i j : ImportDeclaration}

/-- An import binds a name to something of a module, either to its default or otherwise. -/
def Binds (i : ImportDeclaration) (specifier name : List Char) : Prop :=
  i.specifier = specifier ∧ (i.defaultName = some name ∨ name ∈ i.bindings.map ImportBinding.localName)

/-- An import binds a name in another way than as its default under one of `names`. -/
def BindsBeside (i : ImportDeclaration) (names : List (List Char)) (name : List Char) : Prop :=
  i.defaultName = some name ∧ name ∉ names ∨ name ∈ i.bindings.map ImportBinding.localName

theorem BindsBeside.binds {names : List (List Char)} {name : List Char} (h : i.BindsBeside names name) :
    i.Binds i.specifier name :=
  ⟨rfl, h.imp_left And.left⟩

/-- What an import binds is said by its clause. -/
theorem Binds.congr {specifier name : List Char} (h : i.Binds specifier name) (heq : i.clause = j.clause) :
    j.Binds specifier name := by
  obtain ⟨hdefault, hbindings, hspecifier⟩ := Clause.mk.inj heq
  rwa [Binds, hdefault, hbindings, hspecifier] at h

end ImportDeclaration

end WasmEmbed.Script

namespace WasmEmbed.Binding

open Script Text

namespace Rewriting

variable {t : Target} {source out : List Char} (r : Rewriting t source out)

/-! ## What is bound -/

/-- Whatever the imports of the source bind, apart from the defaults that stand for the aggregator, is still
bound from the same module by an import of the rewritten text. -/
def KeepsBindings : Prop := ∀ i ∈ r.before.imports, ∀ name, i.BindsBeside r.names name →
  ∃ j ∈ r.after.imports, j.Binds i.specifier name

/-- If the imports are found in their places, the new one and the kept ones bind what the rewritten text
binds. -/
theorem exists_binds_iff (h : r.ImportsStay) {new : ImportDeclaration} (hnew : new ∈ r.after.imports)
    (hplace : new.span = r.importPlace) (specifier name : List Char) :
    (∃ j ∈ r.after.imports, j.Binds specifier name) ↔ ∃ j ∈ new :: r.kept, j.Binds specifier name := by
  constructor
  · rintro ⟨j, hj, hbinds⟩
    rcases (h j.span).mp (List.mem_map_of_mem hj) with hspan | hspan
    · have hclause := Outline.clause_eq_of_of_eq r.read_after r.read_after hj hnew (by rw [hspan, hplace])
      exact ⟨new, List.mem_cons_self, hbinds.congr hclause⟩
    · obtain ⟨i, hi, hmoved⟩ := List.mem_map.mp hspan
      have hclause := r.clause_eq_of_mem_kept hi hj hmoved.symm
      exact ⟨i, List.mem_cons_of_mem new hi, hbinds.congr hclause.symm⟩
  · rintro ⟨j, hj, hbinds⟩
    rcases List.mem_cons.mp hj with rfl | hj
    · exact ⟨j, hnew, hbinds⟩
    · obtain ⟨i, hi, hspan⟩ := List.mem_map.mp ((h _).mpr (Or.inr (List.mem_map_of_mem hj)))
      exact ⟨i, hi, hbinds.congr (r.clause_eq_of_mem_kept hj hi hspan)⟩

/-- If the imports are found in their places, what may be lost is what the imports of the aggregator bind
besides their defaults. -/
theorem keepsBindings_iff (h : r.ImportsStay) {new : ImportDeclaration} (hnew : new ∈ r.after.imports)
    (hplace : new.span = r.importPlace) :
    r.KeepsBindings ↔
      ∀ i ∈ r.claimed, ∀ b ∈ i.bindings, ∃ j ∈ new :: r.kept, j.Binds i.specifier b.localName := by
  constructor
  · intro hkeeps i hi b hb
    refine (r.exists_binds_iff h hnew hplace _ _).mp (hkeeps i (List.mem_of_mem_filter hi) _ ?_)
    exact Or.inr (List.mem_map_of_mem hb)
  · intro hclaimed i hi name hname
    refine (r.exists_binds_iff h hnew hplace _ _).mpr ?_
    rcases r.mem_claimed_or_mem_kept hi with hi | hi
    · rcases hname with ⟨hdefault, hnot⟩ | hname
      · -- The default of an import of the aggregator is one of its names.
        obtain ⟨-, name', hmem, hdefault'⟩ := mem_importsNamed.mp hi
        obtain rfl := Option.some.inj (hdefault.symm.trans hdefault')
        exact absurd hmem hnot
      · obtain ⟨b, hb, rfl⟩ := List.mem_map.mp hname
        exact hclaimed i hi b hb
    · exact ⟨i, List.mem_cons_of_mem new hi, hname.binds⟩

end Rewriting

/-- A rewriting keeps the texts of all imports but those of the aggregator, and writes the new import. If
the imports of the rewritten text are found in their places, then nothing that was bound by an import is
lost, apart from the defaults that stand for the aggregator, exactly if the new import or a kept one binds
again what the imports of the aggregator bind besides their defaults. The new import under an identifier
binds nothing else. -/
theorem bindings_of_rewrite {t : Target} {source out : List Char} (h : rewrite t source = .ok out) :
    ∃ r : Rewriting t source out, (∀ i ∈ r.kept, (r.place i.span).of out = i.span.of source) ∧
      r.importPlace.of out = r.statement ∧
      (r.ImportsStay → ∃ new ∈ r.after.imports, new.span = r.importPlace ∧
        (isIdentifier t.importName = true → new.clause = ⟨some t.importName, [], t.specifier⟩) ∧
        (r.KeepsBindings ↔
          ∀ i ∈ r.claimed, ∀ b ∈ i.bindings, ∃ j ∈ new :: r.kept, j.Binds i.specifier b.localName)) := by
  obtain ⟨r⟩ := exists_rewriting h
  refine ⟨r, fun i hi => r.of_place_of_mem_kept hi, r.of_importPlace, fun hstay => ?_⟩
  obtain ⟨new, hnew, hplace⟩ := List.mem_map.mp ((hstay r.importPlace).mpr (Or.inl rfl))
  refine ⟨new, hnew, hplace, fun hname => ?_, r.keepsBindings_iff hstay hnew hplace⟩
  refine clause_of_importStatement r.read_after hnew hname ?_
  rw [hplace, r.of_importPlace, r.importStatement_eq]

namespace Sample

/-- A binding with lines in front of it. -/
def behind (lines : String) (binding : List Char) : List Char := lines.toList ++ '\n' :: binding

/-- A binding that imports a name, and the aggregator of an earlier build. -/
def importing : List Char := behind "import \x7ba\x7d from 'x';\nimport w from 'v';" (source "a;b;c;")

/-- The same binding, after it was rewritten. -/
def imported : List Char := behind "import \x7ba\x7d from 'x';" (rewritten target "a;b;;")

/-- A binding that imports a name together with the default that stands for the aggregator. -/
def mixed : List Char := behind "import w, \x7ba\x7d from 'x';" (source "a;b;c;")

/-- A rewriting of a text in which one import in front of the functions stands for the aggregator. -/
theorem rewrite_of_imported {source text : List Char} {first loadBody fetch : Span}
    (hfind : Sites.find source target.importName = .ok ⟨loadBody, fetch, [first]⟩)
    (hfirst : first.start < first.stop ∧ first.stop ≤ loadBody.start)
    (hfunctions : loadBody.start < loadBody.stop ∧ loadBody.stop ≤ fetch.start ∧ fetch.start < fetch.stop ∧
      fetch.stop ≤ (Utf8.encode source).length)
    (htext : Edit.splice (Utf8.encode source) 0
      [⟨first, Utf8.encode (statement target)⟩, ⟨loadBody, Utf8.encode (body target)⟩,
        ⟨fetch, Utf8.encode [';']⟩] = Utf8.encode text)
    (hread : (Outline.read? text).isSome) : rewrite target source = .ok text := by
  refine rewrite_of_ordered ([⟨first, Utf8.encode (statement target)⟩] ++
    [⟨loadBody, Utf8.encode (body target)⟩, ⟨fetch, Utf8.encode [';']⟩]) isWritten_target.statement hfind
    isWritten_target.body List.perm_append_comm ?_ ?_ htext hread
  · simp only [List.cons_append, List.nil_append, List.mem_cons, List.not_mem_nil, or_false, forall_eq_or_imp,
      forall_eq]
    omega
  · simp only [List.cons_append, List.nil_append, List.pairwise_cons, List.mem_cons, List.not_mem_nil,
      or_false, forall_eq_or_imp, forall_eq, Edit.IsBefore, IsEmpty.forall_iff, implies_true,
      List.Pairwise.nil, and_true]
    omega

theorem find_importing : Sites.find importing target.importName = .ok ⟨⟨62, 64⟩, ⟨87, 89⟩, [⟨21, 39⟩]⟩ := by
  decide +kernel

/-- The imports that are read from the rewritten binding. -/
theorem spans_imported : (Outline.read? imported).map (fun o => o.imports.map ImportDeclaration.span) =
    some [⟨0, 20⟩, ⟨21, 50⟩] := by
  unfold imported behind rewritten statement binding
  rewrite [body_of_plain (t := target) rfl]
  repeat rewrite [String.toList_append]
  repeat rewrite [String.toList_ofList]
  decide +kernel

theorem rewrite_importing : rewrite target importing = .ok imported := by
  refine rewrite_of_imported find_importing (by decide) (by decide +kernel) (by decide +kernel) ?_
  rw [← Option.isSome_map, spans_imported]
  rfl

/-- What stands for the aggregator in the binding binds nothing else, and the other import is kept. -/
theorem imports_importing (r : Rewriting target importing imported) :
    r.kept.map ImportDeclaration.span = [⟨0, 20⟩] ∧ r.claimed.map ImportDeclaration.bindings = [[]] := by
  have hnames : r.names = [target.importName] := by
    have hload : r.load.body.span = ⟨62, 64⟩ :=
      congrArg Sites.loadBody (Except.ok.inj (r.find_sites.symm.trans find_importing))
    rw [Rewriting.names, hload]
    decide +kernel
  have hread : (Outline.read? importing).map (fun o =>
      ((o.imports.filter fun i => !i.defaultName.any [target.importName].contains).map ImportDeclaration.span,
        (importsNamed o [target.importName]).map ImportDeclaration.bindings)) = some ([⟨0, 20⟩], [[]]) := by
    decide +kernel
  rw [r.read_before] at hread
  rw [Rewriting.kept, Rewriting.claimed, hnames]
  exact Prod.mk.inj (Option.some.inj hread)

/-- The imports of the rewritten binding are found in their places. -/
theorem importsStay_importing (r : Rewriting target importing imported) : r.ImportsStay := by
  have hsites : r.sites = ⟨⟨62, 64⟩, ⟨87, 89⟩, [⟨21, 39⟩]⟩ :=
    Except.ok.inj (r.find_sites.symm.trans find_importing)
  have hload : r.load.body.span = ⟨62, 64⟩ := congrArg Sites.loadBody hsites
  have hfetch : r.fetch.span = ⟨87, 89⟩ := congrArg Sites.fetch hsites
  have himports : r.imports = [⟨21, 39⟩] := congrArg Sites.imports hsites
  have hstatement : r.statement = statement target :=
    Except.ok.inj (r.importStatement_eq.symm.trans isWritten_target.statement)
  -- Of all edits only the one of the import stands in front of the end of an import.
  have hplace : r.place ⟨0, 20⟩ = ⟨0, 20⟩ ∧ r.place ⟨21, 39⟩ = ⟨21, 50⟩ := by
    rw [Rewriting.place, Rewriting.place, Rewriting.edits, Rewriting.line, hload, hfetch, himports,
      hstatement]
    exact ⟨rfl, rfl⟩
  have hnew : r.importPlace = ⟨21, 50⟩ := by
    rw [Rewriting.importPlace, himports]
    exact hplace.2
  have hkept : r.kept.map (fun i => r.place i.span) = [⟨0, 20⟩] := by
    have hmap : r.kept.map (fun i => r.place i.span) = (r.kept.map ImportDeclaration.span).map r.place := by
      rw [List.map_map]
      rfl
    rw [hmap, (imports_importing r).1, List.map_singleton, hplace.1]
  have hafter : r.after.imports.map ImportDeclaration.span = [⟨0, 20⟩, ⟨21, 50⟩] := by
    have hspans := spans_imported
    rw [r.read_after] at hspans
    exact Option.some.inj hspans
  intro p
  rw [hafter, hnew, hkept, List.mem_cons, List.mem_singleton, List.mem_singleton]
  exact Or.comm

end Sample

/-- The default of the aggregator is imported anew, and the other name is still imported. -/
theorem bindings_of_rewrite_importing :
    ∃ r : Rewriting Sample.target Sample.importing Sample.imported, r.ImportsStay ∧ r.KeepsBindings := by
  obtain ⟨r, -, -, hbindings⟩ := bindings_of_rewrite Sample.rewrite_importing
  have hstay := Sample.importsStay_importing r
  obtain ⟨new, -, -, -, hiff⟩ := hbindings hstay
  refine ⟨r, hstay, hiff.mpr fun i hi b hb => ?_⟩
  have hnone : i.bindings ∈ r.claimed.map ImportDeclaration.bindings := List.mem_map_of_mem hi
  rw [(Sample.imports_importing r).2, List.mem_singleton] at hnone
  rw [hnone] at hb
  cases hb

/-- The name that an import binds besides the default of the aggregator is lost. -/
theorem rewrite_mixed :
    rewrite Sample.target Sample.mixed = .ok (Sample.rewritten Sample.target "a;b;;") ∧
      ∀ r : Rewriting Sample.target Sample.mixed (Sample.rewritten Sample.target "a;b;;"),
        ¬ r.KeepsBindings := by
  obtain ⟨o, ho, hread, -⟩ := Sample.exists_outline_ended
  constructor
  · have hfind : Sites.find Sample.mixed Sample.target.importName =
        .ok ⟨⟨46, 48⟩, ⟨71, 73⟩, [⟨0, 23⟩]⟩ := by
      decide +kernel
    exact Sample.rewrite_of_imported hfind (by decide) (by decide +kernel) (by decide +kernel)
      (Option.isSome_iff_exists.mpr ⟨o, ho⟩)
  · intro r hkeeps
    obtain rfl := Option.some.inj (ho.symm.trans r.read_after)
    have hbound : (Outline.read? Sample.mixed).any (fun o => o.imports.any fun i =>
        decide (i.specifier = ['x'] ∧ i.bindings.map ImportBinding.localName = [['a']])) = true := by
      decide +kernel
    rw [r.read_before] at hbound
    obtain ⟨i, hi, hbinds⟩ := List.any_eq_true.mp hbound
    obtain ⟨hspecifier, hnames⟩ := of_decide_eq_true hbinds
    obtain ⟨j, hj, hfrom, -⟩ := hkeeps i hi ['a'] (Or.inr (by rw [hnames]; exact List.mem_singleton.mpr rfl))
    -- The only import of the rewritten binding names another module.
    have hother : (j.defaultName, j.specifier, j.span) ∈ [(_, Sample.target.specifier, _)] :=
      hread.2 ▸ List.mem_map_of_mem hj
    obtain ⟨-, hother⟩ := Prod.mk.inj (List.mem_singleton.mp hother)
    have hsame : ['x'] = Sample.target.specifier :=
      hspecifier.symm.trans (hfrom.symm.trans (Prod.mk.inj hother).1)
    exact absurd hsame (by decide)

end WasmEmbed.Binding
