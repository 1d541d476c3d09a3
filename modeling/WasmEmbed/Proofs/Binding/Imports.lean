import WasmEmbed.Proofs.Binding.ImportLine
import WasmEmbed.Proofs.Binding.Rewriting

/-!
# The imports of a rewritten text

The imports of the aggregator are known by the names of their defaults (`importsNamed`). The first one is
replaced and the others are dropped, and all other imports keep their texts
(`Rewriting.of_place_of_mem_kept`). An import is said by its text. So if the parser finds the imports in the
places where they were written and to which they were moved (`Rewriting.ImportsStay`), the new import is the
only one under any names that only imports of the aggregator had (`Rewriting.hasOneImport`).
-/

namespace WasmEmbed.Binding

open Script Text

/-! ## Imports under some names -/

/-- The top-level imports that bind their default to one of these names. -/
def importsNamed (o : Outline) (names : List Name) : List ImportDeclaration :=
  o.imports.filter fun i => i.defaultName.any names.contains

theorem mem_importsNamed {o : Outline} {names : List Name} {i : ImportDeclaration} :
    i ∈ importsNamed o names ↔ i ∈ o.imports ∧ ∃ name ∈ names, i.defaultName = some name := by
  rw [importsNamed, List.mem_filter, Option.any_eq_true]
  refine and_congr_right fun _ => ⟨?_, ?_⟩
  · rintro ⟨name, hname, hmem⟩
    exact ⟨name, List.contains_iff_mem.mp hmem, hname⟩
  · rintro ⟨name, hmem, hname⟩
    exact ⟨name, hname, List.contains_iff_mem.mpr hmem⟩

/-- The imports that stand for the aggregator are those under the new name and under the one that was
decoded. -/
theorem aggregatorImports_eq (o : Outline) (loadBody : List Char) (importName : Name) :
    aggregatorImports o loadBody importName =
      importsNamed o (importName :: (previousName? loadBody).toList) := rfl

/-- The only import under these names is the one that is written for a target. -/
def HasOneImport (names : List Name) (t : Target) (text : List Char) (o : Outline) : Prop :=
  ∃ i, importsNamed o names = [i] ∧ i.defaultName = some t.importName ∧
    importStatement t.importName t.specifier = .ok (i.span.of text)

namespace Rewriting

variable {t : Target} {source out : List Char} (r : Rewriting t source out)

/-! ## The imports of the source -/

/-- The names by which the imports of the aggregator are known. -/
def names : List Name := t.importName :: (previousName? (r.load.body.span.of source)).toList

/-- The imports that are replaced or dropped. -/
def claimed : List ImportDeclaration := importsNamed r.before r.names

/-- The imports that are kept. -/
def kept : List ImportDeclaration := r.before.imports.filter fun i => !i.defaultName.any r.names.contains

theorem imports_eq_map_claimed : r.imports = r.claimed.map ImportDeclaration.span := rfl

/-- Where the import of the aggregator is written. -/
def importPlace : Span :=
  match r.imports with
  | [] => ⟨0, byteCount r.statement⟩
  | first :: _ => r.place first

theorem mem_claimed_or_mem_kept {i : ImportDeclaration} (hi : i ∈ r.before.imports) :
    i ∈ r.claimed ∨ i ∈ r.kept := by
  simp only [claimed, importsNamed, kept, List.mem_filter, hi, true_and, Bool.not_eq_true']
  exact (Bool.eq_false_or_eq_true _)

theorem mem_of_mem_kept {i : ImportDeclaration} (hi : i ∈ r.kept) : i ∈ r.before.imports :=
  List.mem_of_mem_filter hi

/-- The imports of the aggregator are those under its names. -/
theorem mem_claimed {names : List Name} (hnames : ∀ name ∈ names, name ∈ r.names) {i : ImportDeclaration}
    (hi : i ∈ importsNamed r.before names) : i ∈ r.claimed := by
  obtain ⟨himport, name, hmem, hdefault⟩ := mem_importsNamed.mp hi
  exact mem_importsNamed.mpr ⟨himport, name, hnames name hmem, hdefault⟩

/-- A kept import is none of the aggregator. -/
theorem ne_of_mem_kept {i j : ImportDeclaration} (hi : i ∈ r.kept) (hj : j ∈ r.claimed) : j ≠ i := by
  rintro rfl
  have hclaimed := (List.mem_filter.mp hj).2
  have hkept := (List.mem_filter.mp hi).2
  rw [hclaimed] at hkept
  cases hkept

/-- An edit replaces a part of one of the two functions, or an import of the aggregator. -/
theorem cases_of_mem_edits {e : Edit} (he : e ∈ r.edits) :
    (∃ f ∈ r.before.functions, f.span.start ≤ e.span.start ∧ e.span.stop ≤ f.span.stop) ∨
      ∃ i ∈ r.claimed, e.span = i.span ∨ e.span = withFeed source i.span := by
  rcases List.mem_append.mp he with he | he
  · rcases List.mem_append.mp he with he | he
    · refine Or.inl ?_
      rcases List.mem_cons.mp he with rfl | he
      · have hload := r.isPlaced r.load_mem
        exact ⟨r.load, r.load_mem, hload.start, hload.stop⟩
      · obtain rfl := List.mem_singleton.mp he
        obtain ⟨hle, hstart, hstop⟩ := r.fetch_span
        exact ⟨r.init, r.init_mem, Nat.le_trans hle hstart, hstop⟩
    · obtain ⟨p, hp, rfl⟩ := List.mem_map.mp he
      obtain ⟨i, hi, rfl⟩ := List.mem_map.mp (List.mem_of_mem_take hp)
      exact Or.inr ⟨i, hi, Or.inl rfl⟩
  · obtain ⟨p, hp, rfl⟩ := List.mem_map.mp he
    obtain ⟨i, hi, rfl⟩ := List.mem_map.mp (List.mem_of_mem_drop hp)
    exact Or.inr ⟨i, hi, Or.inr rfl⟩

/-- No edit reaches a kept import. -/
theorem apart_of_mem_kept {i : ImportDeclaration} (hi : i ∈ r.kept) {e : Edit} (he : e ∈ r.edits) :
    Outline.Apart e.span i.span := by
  have himport := r.mem_of_mem_kept hi
  obtain ⟨s, hs, hrole, hholds, hhead⟩ := Outline.opens_of_mem_imports r.read_before himport
  rcases r.cases_of_mem_edits he with ⟨f, hf, hstart, hstop⟩ | ⟨j, hj, hspan⟩
  · have hapart := Outline.apart_of_mem_imports r.read_before himport hf
    exact hapart.symm.mono hstart hstop (Nat.le_refl _) (Nat.le_refl _)
  · obtain ⟨s', hs', hrole', hholds'⟩ :=
      Outline.holds_of_mem_imports r.read_before (List.mem_of_mem_filter hj)
    have hapart : Outline.Apart j.span i.span := by
      refine hholds'.apart hholds (Outline.apart_of_ne r.read_before hs' hs ?_)
      rw [hrole, hrole']
      exact fun heq => r.ne_of_mem_kept hi hj (Role.importing.inj heq)
    rcases hspan with hspan | hspan
    · rw [hspan]
      exact hapart
    · rw [hspan]
      -- The line feed behind the other import is not the first character of this one.
      refine apart_withFeed hholds'.isOn hholds.isOn ?_ hapart
      rw [hhead]
      decide

/-- Where a kept import was moved stands its text. -/
theorem of_place_of_mem_kept {i : ImportDeclaration} (hi : i ∈ r.kept) :
    (r.place i.span).of out = i.span.of source := by
  obtain ⟨_, -, -, hholds⟩ := Outline.holds_of_mem_imports r.read_before (r.mem_of_mem_kept hi)
  refine r.of_place_of_nil hholds.isOn (fun e he => ?_) (List.filter_eq_nil_iff.mpr fun e he => ?_)
  · exact Edit.spares_of_apart (Nat.le_of_lt hholds.isOn.start_lt) (r.apart_of_mem_kept hi he)
  · rw [Edit.isInside_eq_false (r.lt_of_mem_edits he) (r.apart_of_mem_kept hi he)]
    exact Bool.false_ne_true

/-- Where the import of the aggregator was written stands its statement. -/
theorem of_importPlace : r.importPlace.of out = r.statement := by
  rw [importPlace]
  split
  · next hnone =>
      obtain ⟨segments, behind, -, hout, -⟩ := r.exists_segments
      have hline : r.line = r.statement ++ ['\n'] := if_pos (by rw [hnone]; rfl)
      rw [hline, List.append_assoc] at hout
      exact Span.of_eq (u := []) hout
  · next first others himports =>
      refine r.of_place_of_mem_edits ?_
      rw [edits, replacements, himports]
      exact List.mem_append_left _ (List.mem_append_right _ List.mem_cons_self)

/-! ## The imports of the rewritten text -/

/-- The imports of the rewritten text are found in the place of the new import and where the kept ones were
moved to, and nowhere else. -/
def ImportsStay : Prop := ∀ p, p ∈ r.after.imports.map ImportDeclaration.span ↔
  p = r.importPlace ∨ p ∈ r.kept.map fun i => r.place i.span

/-- An import that is found where a kept one was moved to binds what that one binds. -/
theorem clause_eq_of_mem_kept {i j : ImportDeclaration} (hi : i ∈ r.kept) (hj : j ∈ r.after.imports)
    (hspan : j.span = r.place i.span) : i.clause = j.clause := by
  refine Outline.clause_eq_of_of_eq r.read_before r.read_after (r.mem_of_mem_kept hi) hj ?_
  rw [hspan, r.of_place_of_mem_kept hi]

/-- If the imports are found in their places, the new one is found, and binds its default to the name that
was asked for and nothing else. -/
theorem exists_new (h : r.ImportsStay) (hname : isIdentifier t.importName = true) : ∃ new ∈ r.after.imports,
    new.span = r.importPlace ∧ new.clause = ⟨some t.importName, [], t.specifier⟩ := by
  obtain ⟨new, hnew, hplace⟩ := List.mem_map.mp ((h r.importPlace).mpr (Or.inl rfl))
  refine ⟨new, hnew, hplace, clause_of_importStatement r.read_after hnew hname ?_⟩
  rw [hplace, r.of_importPlace]
  exact r.importStatement_eq

/-- If the imports are found in their places, and none but imports of the aggregator had any of these names,
then the new import is the only one under these names. -/
theorem exists_importsNamed (h : r.ImportsStay) (hname : isIdentifier t.importName = true) {names : List Name}
    (hmem : t.importName ∈ names) (hclaimed : ∀ i ∈ importsNamed r.before names, i ∈ r.claimed) :
    ∃ new, importsNamed r.after names = [new] ∧ new.span = r.importPlace ∧
      new.clause = ⟨some t.importName, [], t.specifier⟩ := by
  obtain ⟨new, hnew, hplace, hclause⟩ := r.exists_new h hname
  have hdefault : new.defaultName = some t.importName := congrArg Clause.defaultName hclause
  refine ⟨new, ?_, hplace, hclause⟩
  have hnamed : new ∈ importsNamed r.after names := mem_importsNamed.mpr ⟨hnew, _, hmem, hdefault⟩
  have hall : ∀ j ∈ importsNamed r.after names, j = new := by
    intro j hj
    obtain ⟨hjAfter, name, hjName, hjDefault⟩ := mem_importsNamed.mp hj
    rcases (h j.span).mp (List.mem_map_of_mem hjAfter) with hspan | hspan
    · exact Outline.eq_of_span_eq r.read_after hjAfter hnew (hspan.trans hplace.symm)
    · -- A kept import has none of the names.
      obtain ⟨i, hi, hmoved⟩ := List.mem_map.mp hspan
      have hiDefault : i.defaultName = some name :=
        (congrArg Clause.defaultName (r.clause_eq_of_mem_kept hi hjAfter hmoved.symm)).trans hjDefault
      have hiNamed : i ∈ importsNamed r.before names :=
        mem_importsNamed.mpr ⟨r.mem_of_mem_kept hi, name, hjName, hiDefault⟩
      exact absurd rfl (r.ne_of_mem_kept hi (hclaimed i hiNamed))
  have hnodup : (importsNamed r.after names).Nodup := (Outline.nodup_imports r.read_after).filter _
  rw [List.eq_replicate_of_mem hall] at hnodup hnamed ⊢
  have hlength := List.nodup_replicate.mp hnodup
  have hpos := (List.mem_replicate.mp hnamed).1
  rw [Nat.le_antisymm hlength (Nat.pos_of_ne_zero hpos)]
  rfl

/-- Then it reads as it was written. -/
theorem hasOneImport (h : r.ImportsStay) (hname : isIdentifier t.importName = true) {names : List Name}
    (hmem : t.importName ∈ names) (hclaimed : ∀ i ∈ importsNamed r.before names, i ∈ r.claimed) :
    HasOneImport names t out r.after := by
  obtain ⟨new, hnew, hplace, hclause⟩ := r.exists_importsNamed h hname hmem hclaimed
  refine ⟨new, hnew, congrArg Clause.defaultName hclause, ?_⟩
  rw [hplace, r.of_importPlace]
  exact r.importStatement_eq

end Rewriting

end WasmEmbed.Binding
