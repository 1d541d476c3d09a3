import WasmEmbed.Proofs.Binding.BoundNames
import WasmEmbed.Proofs.Binding.Functions

/-!
# What the decoded name means

The loading function decodes what is imported under the name of the target, unless that name means something
else where it is decoded: a constant of the body, a parameter of the function, or a function of the script
(`MeansImport`). The name is written into the body as it is, and nothing asks what else has it. So it means
the import exactly if the source and the template leave it free (`meansImport_iff`): the template takes its
constants (`constants_of_loaderBody`), and the source has the same parameters and the same functions as the
rewritten text.
-/

namespace WasmEmbed.Binding

open Script Text

/-- The loading function of a script decodes a name, and neither its constants nor its parameters nor the
functions of the script have that name. -/
structure MeansImport (text : List Char) (o : Outline) (name : Name) : Prop where
  load : ∃ load ∈ o.function? loadName, previousName? (load.body.span.of text) = some name ∧
    name ∉ constants (load.body.span.of text) ∧ name ∉ parameters text load
  functions : ∀ f ∈ o.functions, f.name ≠ name

namespace Rewriting

variable {t : Target} {source out : List Char} (r : Rewriting t source out)

/-- Where the heading of the loading function was moved stands that heading. -/
theorem of_place_heading :
    Span.of ⟨(r.place r.load.span).start, (r.place r.load.body.span).start⟩ out = heading source r.load := by
  obtain ⟨others, hedits, hothers⟩ := r.exists_edits
  have hload := r.isPlaced r.load_mem
  rcases Nat.eq_or_lt_of_le hload.start with heq | hlt
  · -- A heading without characters.
    show Span.of (r.place ⟨r.load.span.start, r.load.body.span.start⟩) out = _
    rw [heading, ← heq]
    exact (Span.of_self _ _).trans (Span.of_self _ _).symm
  · have hon : Span.IsOn source ⟨r.load.span.start, r.load.body.span.start⟩ := by
      obtain ⟨u, front, behind, htext, hstart, hbody, -⟩ :=
        Outline.exists_heads_of_mem_functions r.read_before r.load_mem
      rw [hstart, hbody] at hlt ⊢
      refine ⟨u, front, behind, ?_, htext, rfl⟩
      rintro rfl
      simp at hlt
    have hapart : ∀ e ∈ r.edits, Outline.Apart e.span ⟨r.load.span.start, r.load.body.span.start⟩ := by
      have hfront : ∀ {p : Span}, Outline.Apart p r.load.span →
          Outline.Apart p ⟨r.load.span.start, r.load.body.span.start⟩ := fun h =>
        h.mono (Nat.le_refl _) (Nat.le_refl _) (Nat.le_refl _)
          (Nat.le_trans (Nat.le_of_lt hload.body.start_lt) hload.stop)
      obtain ⟨hle, hstart, hstop⟩ := r.fetch_span
      intro e he
      rw [hedits] at he
      rcases List.mem_cons.mp he with rfl | he
      · -- The new body begins where the heading ends.
        exact Or.inr (Nat.le_refl _)
      rcases List.mem_cons.mp he with rfl | he
      · exact hfront ((Outline.apart_of_mem_functions r.read_before r.init_mem r.load_mem r.init_ne_load).mono
          (Nat.le_trans hle hstart) hstop (Nat.le_refl _) (Nat.le_refl _))
      · exact hfront (hothers e he _ r.load_mem)
    refine r.of_place_of_nil hon (fun e he => Edit.spares_of_apart (Nat.le_of_lt hlt) (hapart e he)) ?_
    refine List.filter_eq_nil_iff.mpr fun e he => ?_
    rw [Edit.isInside_eq_false (r.lt_of_mem_edits he) (hapart e he)]
    exact Bool.false_ne_true

end Rewriting

/-- Where the body of the loading function was moved, the constants of the template are declared. If the
functions of the rewritten text are found in their places, the decoded name means the import exactly if it
is none of these constants, and the source gives it neither to a parameter of its loading function nor to a
function. -/
theorem meansImport_iff {t : Target} {source out : List Char} (hname : isIdentifier t.importName = true)
    (h : rewrite t source = .ok out) :
    ∃ r : Rewriting t source out,
      constants ((r.place r.load.body.span).of out) = loaderConstants t.compressed ∧
      (r.StaysInPlace → (MeansImport out r.after t.importName ↔
        t.importName ∉ loaderConstants t.compressed ∧ t.importName ∉ parameters source r.load ∧
          ∀ f ∈ r.before.functions, f.name ≠ t.importName)) := by
  obtain ⟨r⟩ := exists_rewriting h
  refine ⟨r, by rw [r.of_place_loadBody, constants_of_loaderBody hname r.loaderBody_eq], fun hplace => ?_⟩
  obtain ⟨load, hload, -, hspan, hbodySpan⟩ := r.exists_load_of_staysInPlace hplace
  have hbody : load.body.span.of out = r.body := by rw [hbodySpan, r.of_place_loadBody]
  have hparameters : parameters out load = parameters source r.load := by
    rw [parameters, heading, hspan, hbodySpan, r.of_place_heading]
    rfl
  have hconstants : constants r.body = loaderConstants t.compressed :=
    constants_of_loaderBody hname r.loaderBody_eq
  have hnames : (∀ f ∈ r.after.functions, f.name ≠ t.importName) ↔
      ∀ f ∈ r.before.functions, f.name ≠ t.importName := by
    have hmap := r.names_of_staysInPlace hplace
    rw [← List.forall_mem_map (P := (· ≠ t.importName)), hmap, List.forall_mem_map]
  constructor
  · rintro ⟨⟨load', hload', -, hfree, hparameter⟩, hfunctions⟩
    obtain rfl := Option.some.inj (hload.symm.trans hload')
    rw [hbody, hconstants] at hfree
    exact ⟨hfree, hparameters ▸ hparameter, hnames.mp hfunctions⟩
  · rintro ⟨hfree, hparameter, hfunctions⟩
    refine ⟨⟨load, hload, ?_, ?_, hparameters ▸ hparameter⟩, hnames.mpr hfunctions⟩
    · rw [hbody]
      exact previousName?_of_loaderBody hname r.loaderBody_eq
    · rw [hbody, hconstants]
      exact hfree

theorem meansImport_iff_ended :
    ∃ r : Rewriting Sample.target (Sample.source "a;b;c;") (Sample.rewritten Sample.target "a;b;;"),
      r.StaysInPlace ∧
        MeansImport (Sample.rewritten Sample.target "a;b;;") r.after Sample.target.importName := by
  obtain ⟨r, -, hiff⟩ := meansImport_iff (by decide) Sample.rewrite_source_ended
  obtain ⟨hplace, -⟩ := Sample.stays_ended r
  refine ⟨r, hplace, (hiff hplace).mpr ⟨by decide, ?_⟩⟩
  have hfree : (Outline.read? (Sample.source "a;b;c;")).all (fun o =>
      (o.function? loadName).all (fun f =>
        decide (Sample.target.importName ∉ parameters (Sample.source "a;b;c;") f)) &&
      o.functions.all fun f => decide (f.name ≠ Sample.target.importName)) = true := by
    decide +kernel
  rw [r.read_before, Option.all_some, r.function_load, Option.all_some, Bool.and_eq_true, List.all_eq_true]
    at hfree
  exact ⟨of_decide_eq_true hfree.1, fun f hf => of_decide_eq_true (hfree.2 f hf)⟩

namespace Sample

/-- A target whose name is that of a constant of the loading function. -/
def hiddenTarget : Target := { target with importName := "instance".toList }

theorem isWritten_hiddenTarget : IsWritten hiddenTarget := isWritten (by decide) (by decide) (by decide)

end Sample

/-- The import is hidden by the last constant of the loading function. -/
theorem rewrite_source_instance :
    isIdentifier Sample.hiddenTarget.importName = true ∧
      rewrite Sample.hiddenTarget (Sample.source "a;b;c;") =
        .ok (Sample.rewritten Sample.hiddenTarget "a;b;;") ∧
      ∃ o, Outline.read? (Sample.rewritten Sample.hiddenTarget "a;b;;") = some o ∧
        ¬ MeansImport (Sample.rewritten Sample.hiddenTarget "a;b;;") o Sample.hiddenTarget.importName := by
  have hread : (Outline.read? (Sample.rewritten Sample.hiddenTarget "a;b;;")).any (fun o =>
      (o.function? loadName).all fun f => decide (Sample.hiddenTarget.importName ∈
        constants (f.body.span.of (Sample.rewritten Sample.hiddenTarget "a;b;;")))) = true := by
    unfold Sample.rewritten Sample.statement Sample.binding
    rewrite [Sample.body_of_plain (t := Sample.hiddenTarget) rfl]
    repeat rewrite [String.toList_append]
    repeat rewrite [String.toList_ofList]
    decide +kernel
  obtain ⟨o, ho, hhidden⟩ := (Option.any_eq_true _ _).mp hread
  refine ⟨by decide, ?_, o, ho, ?_⟩
  · exact Sample.rewrite_source Sample.isWritten_hiddenTarget "a;b;".toList "c;".toList [] (by decide)
      (by decide)
      (by decide) (by decide) (Sample.find_source_ended _) (Option.isSome_iff_exists.mpr ⟨o, ho⟩)
  · rintro ⟨⟨load, hload, -, hfree, -⟩, -⟩
    rw [Option.mem_def.mp hload, Option.all_some] at hhidden
    exact hfree (of_decide_eq_true hhidden)

end WasmEmbed.Binding
