import WasmEmbed.Proofs.Binding.Retarget

/-!
# Chains of rewritings

A binding is rewritten for each build, and each build may import its aggregator under another name. A
rewriting knows two names only: its own, and the one that the loading function decodes. This is enough to
keep the imports of all builds down to one. If after each rewriting of a chain the parser finds the imports
in the places where they were written or to which they were moved, and the body that was written in its
place, then under all the names of the chain the binding has the last import alone
(`importsNamed_of_rewriteAll`). A rewriting of the chain replaces or drops what had the names before it
(`Rewriting.hasOneImport_concat`). The condition is needed: where a rewriting drops an import between two
lines, the lines may be read differently together, and an import may be found in what was a template before.
-/

namespace WasmEmbed.Binding

open Script Text

/-! ## One rewriting after the other -/

/-- The text of a binding after it was rewritten for some targets, one after the other. -/
def rewriteAll (targets : List Target) (source : List Char) : Except RewriteError (List Char) :=
  targets.foldlM (fun text t => rewrite t text) source

theorem rewriteAll_nil (source : List Char) : rewriteAll [] source = .ok source := rfl

theorem rewriteAll_singleton (t : Target) (source : List Char) :
    rewriteAll [t] source = rewrite t source := by
  rw [rewriteAll, List.foldlM_cons]
  exact bind_pure _

theorem rewriteAll_concat_eq_ok_iff {targets : List Target} {t : Target} {source out : List Char} :
    rewriteAll (targets ++ [t]) source = .ok out ↔
      ∃ text, rewriteAll targets source = .ok text ∧ rewrite t text = .ok out := by
  rw [rewriteAll, List.foldlM_append, bind_eq_ok_iff]
  simp only [List.foldlM_cons, List.foldlM_nil, bind_pure, rewriteAll]

/-! ## One import under many names -/

/-- Along a chain of rewritings, the imports are found in their places, and but for the last rewriting also
the body of the loading function. -/
def StaysAlong (targets : List Target) (source : List Char) : Prop :=
  ∀ front t back, targets = front ++ t :: back → ∀ text out, rewriteAll front source = .ok text →
    ∀ r : Rewriting t text out, r.ImportsStay ∧ (back ≠ [] → r.LoaderStays)

theorem StaysAlong.front {targets : List Target} {t : Target} {source : List Char}
    (h : StaysAlong (targets ++ [t]) source) : StaysAlong targets source := by
  intro front t' back htargets text out htext r
  have hsplit : targets ++ [t] = front ++ t' :: (back ++ [t]) := by
    rw [htargets, List.append_assoc, List.cons_append]
  obtain ⟨himports, hloader⟩ := h front t' (back ++ [t]) hsplit text out htext r
  exact ⟨himports, fun _ => hloader (by simp)⟩

/-- If the body that a rewriting wrote is found in its place, the next rewriting knows the aggregator by the
name of that rewriting and by its own. -/
theorem Rewriting.names_of_loaderStays {t t' : Target} {source text out : List Char}
    (r : Rewriting t source text) (r' : Rewriting t' text out) (hname : isIdentifier t.importName = true)
    (h : r.LoaderStays) : r'.names = [t'.importName, t.importName] := by
  obtain ⟨load, hload, hbody⟩ := r.exists_load_of_loaderStays h
  rw [Option.some.inj (r.read_after.symm.trans r'.read_before)] at hload
  obtain rfl : load = r'.load := Option.some.inj (hload.symm.trans r'.function_load)
  rw [Rewriting.names, hbody, previousName?_of_loaderBody hname r.loaderBody_eq]
  rfl

/-- A rewriting that finds the import and the body of the one before leaves one import under all names so
far. -/
theorem Rewriting.hasOneImport_concat {t t' : Target} {source text out : List Char} {names : List Name}
    (r : Rewriting t source text) (r' : Rewriting t' text out) (hname : isIdentifier t.importName = true)
    (hname' : isIdentifier t'.importName = true) (hloader : r.LoaderStays) (himports : r'.ImportsStay)
    (hone : HasOneImport names t text r.after) :
    HasOneImport (names ++ [t'.importName]) t' out r'.after := by
  refine r'.hasOneImport himports hname' (by simp) fun i hi => ?_
  rw [Rewriting.claimed, r.names_of_loaderStays r' hname hloader]
  obtain ⟨himport, name, hmem, hdefault⟩ := mem_importsNamed.mp hi
  rcases List.mem_append.mp hmem with hold | hnew
  · -- An import under an earlier name is the one of the rewriting before.
    obtain ⟨j, hj, hjDefault, -⟩ := hone
    rw [Option.some.inj (r.read_after.symm.trans r'.read_before)] at hj
    have hij : i ∈ importsNamed r'.before names := mem_importsNamed.mpr ⟨himport, name, hold, hdefault⟩
    rw [hj, List.mem_singleton] at hij
    subst hij
    exact mem_importsNamed.mpr ⟨himport, t.importName, by simp, hjDefault⟩
  · obtain rfl := List.mem_singleton.mp hnew
    exact mem_importsNamed.mpr ⟨himport, t'.importName, by simp, hdefault⟩

/-- The first rewriting replaces or drops all imports under its name. -/
theorem Rewriting.hasOneImport_first {t : Target} {source out : List Char} (r : Rewriting t source out)
    (hname : isIdentifier t.importName = true) (himports : r.ImportsStay) :
    HasOneImport [t.importName] t out r.after :=
  r.hasOneImport himports hname List.mem_cons_self fun i hi => r.mem_claimed (by simp [names]) hi

/-- If along a chain of rewritings the imports and the loading functions are found in their places, then the
last import is the only one under all names of the chain. -/
theorem importsNamed_of_rewriteAll {targets : List Target} {t : Target} {source out : List Char}
    (hnames : ∀ t' ∈ targets ++ [t], isIdentifier t'.importName = true)
    (hrewrite : rewriteAll (targets ++ [t]) source = .ok out)
    (hstay : StaysAlong (targets ++ [t]) source) :
    ∃ o, Outline.read? out = some o ∧ HasOneImport ((targets ++ [t]).map Target.importName) t out o := by
  induction targets using List.reverseRecOn generalizing t out with
  | nil =>
      obtain ⟨text, htext, hout⟩ := rewriteAll_concat_eq_ok_iff.mp hrewrite
      obtain ⟨r⟩ := exists_rewriting hout
      obtain ⟨himports, -⟩ := hstay [] t [] rfl text out htext r
      exact ⟨r.after, r.read_after, r.hasOneImport_first (hnames t (by simp)) himports⟩
  | append_singleton targets t₀ ih =>
      obtain ⟨text, htext, hout⟩ := rewriteAll_concat_eq_ok_iff.mp hrewrite
      obtain ⟨before, hbefore, htext'⟩ := rewriteAll_concat_eq_ok_iff.mp htext
      obtain ⟨r⟩ := exists_rewriting htext'
      obtain ⟨r'⟩ := exists_rewriting hout
      obtain ⟨o, ho, hone⟩ := ih (fun t' ht' => hnames t' (List.mem_append_left _ ht')) htext hstay.front
      obtain rfl : o = r.after := Option.some.inj (ho.symm.trans r.read_after)
      have hsplit : targets ++ [t₀] ++ [t] = targets ++ t₀ :: [t] := by
        rw [List.append_assoc, List.singleton_append]
      have hloader : r.LoaderStays := (hstay targets t₀ [t] hsplit before text hbefore r).2 (by simp)
      obtain ⟨himports, -⟩ := hstay (targets ++ [t₀]) t [] rfl text out htext r'
      have hlast := r.hasOneImport_concat r' (hnames t₀ (by simp)) (hnames t (by simp)) hloader himports hone
      rw [List.map_append, List.map_singleton]
      exact ⟨r'.after, r'.read_after, hlast⟩

/-! ## A chain that stays and one that does not -/

/-- An import of the aggregator at the beginning of a text keeps its place. -/
theorem Rewriting.place_first {t : Target} {source out : List Char} (r : Rewriting t source out) {stop : Nat}
    (himports : r.imports = [⟨0, stop⟩]) : r.place ⟨0, stop⟩ = ⟨0, byteCount r.statement⟩ := by
  obtain ⟨hon, hapart⟩ := Sites.places_of_find r.find_sites
  have hspans : r.sites.spans = [r.load.body.span, r.fetch.span, ⟨0, stop⟩] := by
    rw [Sites.spans, sites, himports]
  rw [hspans] at hon hapart
  obtain ⟨hload, hfetch⟩ := List.pairwise_cons.mp hapart
  -- What is apart from the beginning of a text ends behind it.
  have hbehind : ∀ p : Span, p.IsOn source → Outline.Apart p ⟨0, stop⟩ → ¬ p.stop ≤ stop ∧ ¬ p.stop ≤ 0 := by
    intro p hp hpart
    have hlt := hp.start_lt
    rcases hpart with h | h
    · exact absurd hlt (Nat.not_lt_of_le (Nat.le_trans h (Nat.zero_le _)))
    · exact ⟨Nat.not_le_of_lt (Nat.lt_of_le_of_lt h hlt), Nat.not_le_of_lt (Nat.zero_lt_of_lt hlt)⟩
  obtain ⟨hloadStop, hloadPos⟩ := hbehind r.load.body.span (hon _ (by simp)) (hload _ (by simp))
  obtain ⟨hfetchStop, hfetchPos⟩ :=
    hbehind r.fetch.span (hon _ (by simp)) ((List.pairwise_cons.mp hfetch).1 _ (by simp))
  have hpos : ¬ stop ≤ 0 := Nat.not_le_of_lt (hon ⟨0, stop⟩ (by simp)).start_lt
  have hedits : r.edits = [r.loadEdit, r.fetchEdit, ⟨⟨0, stop⟩, Utf8.encode r.statement⟩] := by
    rw [edits, replacements, himports]
    rfl
  have hline : r.line = [] := by
    rw [line, himports]
    rfl
  rw [place, hedits, hline]
  simp only [Edit.movedSpan, Edit.moved, loadEdit, fetchEdit, List.filter_cons, List.filter_nil,
    decide_eq_true_eq, hloadStop, hloadPos, hfetchStop, hfetchPos, hpos, Nat.le_refl, if_true, if_false,
    List.map_nil, List.map_singleton, List.sum_nil, List.sum_singleton, byteCount_nil, Utf8.length_encode,
    Span.mk.injEq]
  omega

namespace Sample

variable {t t' : Target} {before after : String}

/-- The body of a rewritten binding that had no import is found in its place. -/
theorem loaderStays_of_isRead (r : Rewriting t (source before) (rewritten t after)) (hwritten : IsWritten t)
    (hnone : r.imports = []) (hstart : r.sites.bodyStart = 22) (hread : IsRead t r.after) :
    r.LoaderStays := by
  have hstatement : r.statement = statement t :=
    Except.ok.inj (r.importStatement_eq.symm.trans hwritten.statement)
  have hbody : r.body = body t := Except.ok.inj (r.loaderBody_eq.symm.trans hwritten.body)
  obtain ⟨⟨load, hload, -, hspan⟩, -⟩ := hread
  rw [Rewriting.LoaderStays, Option.mem_def.mp hload, Option.map_some, r.place_loadBody hnone, hspan,
    Sites.bodyAfter, hstart, hstatement, hbody]

/-- The import of a binding that is rewritten again is found in its place. -/
theorem importsStay_rewritten (r : Rewriting t' (rewritten t before) (rewritten t' after))
    (hwritten : IsWritten t) (hwritten' : IsWritten t') (hread : IsRead t r.before)
    (hread' : IsRead t' r.after) : r.ImportsStay := by
  have hstatement : r.statement = statement t' :=
    Except.ok.inj (r.importStatement_eq.symm.trans hwritten'.statement)
  obtain ⟨i, hi, hdefault, hspan, -⟩ := hread.exists_import before
  obtain ⟨j, hj, -, hspan', -⟩ := hread'.exists_import after
  obtain ⟨load, hload, -, hbody⟩ := hread.exists_load before
  obtain rfl : load = r.load := Option.some.inj (hload.symm.trans r.function_load)
  -- The only import has the name that the body decodes.
  have hmem : i.defaultName.any r.names.contains = true := by
    rw [Rewriting.names, hbody, previousName?_of_loaderBody hwritten.name hwritten.body, hdefault]
    simp
  have hclaimed : r.claimed = [i] := by
    rw [Rewriting.claimed, importsNamed, hi]
    exact List.filter_cons_of_pos hmem
  have himports : r.imports = [⟨0, byteCount (statement t)⟩] := by
    rw [r.imports_eq_map_claimed, hclaimed, List.map_singleton, hspan]
  have hkept : r.kept = [] := by
    rw [Rewriting.kept, hi, List.filter_cons_of_neg (by simp [hmem]), List.filter_nil]
  have hplace : r.importPlace = ⟨0, byteCount (statement t')⟩ := by
    rw [Rewriting.importPlace, himports, ← hstatement]
    exact r.place_first himports
  intro p
  rw [hj, hkept, hplace, List.map_singleton, hspan', List.map_nil, List.mem_singleton]
  exact ⟨Or.inl, fun h => h.resolve_right List.not_mem_nil⟩

/-- A binding that was rewritten for a target is rewritten for another one. -/
theorem rewrite_rewritten {statements : String} {o : Outline} (hread : IsRead t o)
    (ho : Outline.read? (rewritten t statements) = some o)
    (hempty : FetchesNothing (rewritten t statements) o) (hwritten : IsWritten t) (hwritten' : IsWritten t')
    (hread' : (Outline.read? (rewritten t' statements)).isSome = true) :
    rewrite t' (rewritten t statements) = .ok (rewritten t' statements) := by
  obtain ⟨i, hi, hdefault, hplace, -⟩ := hread.exists_import statements
  obtain ⟨⟨load, hload, hasync, hspan⟩, -⟩ := hread
  obtain ⟨front, behind, hfront, hsplit⟩ := exists_around statements
  -- What stands around the statement and the body does not depend on the target.
  have htext : ∀ t, rewritten t statements = statement t ++ ('\n' :: front) ++ body t ++ behind := by
    intro t
    rw [rewritten, hsplit]
    simp only [List.append_assoc, List.cons_append]
  rw [htext] at ho hempty hread' ⊢
  rw [htext]
  refine (rewrite_retarget_eq_ok_iff ho hload hasync ?_ ?_ (importStatement_ne_nil hwritten.statement)
    (List.cons_ne_nil _ _) hwritten'.statement hwritten'.body hread').mpr hempty
  · have hfeed : Char.utf8Size '\n' = 1 := by decide
    simp only [hspan, byteCount_append, byteCount_cons, hfeed, hfront, Nat.add_assoc, Nat.reduceAdd]
  · rw [aggregatorImports_eq, previousName?_of_loaderBody hwritten.name hwritten.body, importsNamed, hi,
      List.filter_cons_of_pos (by simp [hdefault]), List.filter_nil, List.map_singleton, hplace]

/-- The second of two rewritings replaces the import of the first one. -/
theorem rewriteAll_ended :
    rewriteAll [other] (source "a;b;c;") = .ok (rewritten other "a;b;;") ∧
      rewrite target (rewritten other "a;b;;") = .ok (rewritten target "a;b;;") := by
  obtain ⟨o, ho, hread, hempty⟩ := exists_outline_retargeted
  obtain ⟨o', ho', -⟩ := exists_outline_ended
  exact ⟨(rewriteAll_singleton _ _).trans rewrite_other_ended,
    rewrite_rewritten hread ho hempty isWritten_other isWritten_target
      (Option.isSome_iff_exists.mpr ⟨o', ho'⟩)⟩

/-- The imports and the loading functions of these two rewritings are found in their places. -/
theorem staysAlong_ended : StaysAlong [other, target] (source "a;b;c;") := by
  obtain ⟨hfirst, hsecond⟩ := rewriteAll_ended
  obtain ⟨o, ho, hread, -⟩ := exists_outline_retargeted
  obtain ⟨o', ho', hread', -⟩ := exists_outline_ended
  intro front t back htargets text out htext r
  rcases front with _ | ⟨t₁, _ | ⟨t₂, front⟩⟩
  · -- The first rewriting finds no import.
    obtain ⟨rfl, -⟩ := List.cons.inj htargets
    obtain rfl := Except.ok.inj ((rewriteAll_nil _).symm.trans htext)
    obtain rfl := Except.ok.inj (rewrite_other_ended.symm.trans r.rewritten)
    obtain rfl : o = r.after := Option.some.inj (ho.symm.trans r.read_after)
    have hsites := Except.ok.inj (r.find_sites.symm.trans (find_source_ended _))
    have hnone : r.imports = [] := congrArg Sites.imports hsites
    have hbefore := read?_source_ended
    rw [r.read_before] at hbefore
    refine ⟨importsStay_of_isRead r isWritten_other (Prod.mk.inj (Option.some.inj hbefore)).2 hread,
      fun _ => ?_⟩
    exact loaderStays_of_isRead r isWritten_other hnone (by rw [hsites]; rfl) hread
  · obtain ⟨rfl, hrest⟩ := List.cons.inj htargets
    obtain ⟨rfl, rfl⟩ := List.cons.inj hrest
    obtain rfl := Except.ok.inj (hfirst.symm.trans htext)
    obtain rfl := Except.ok.inj (hsecond.symm.trans r.rewritten)
    obtain rfl : o = r.before := Option.some.inj (ho.symm.trans r.read_before)
    obtain rfl : o' = r.after := Option.some.inj (ho'.symm.trans r.read_after)
    exact ⟨importsStay_rewritten r isWritten_other isWritten_target hread hread', fun h => absurd rfl h⟩
  · exact absurd (congrArg List.length htargets) (by simp)

end Sample

/-- A chain of two rewritings, of which the second one replaces the import of the first. -/
theorem importsNamed_of_rewriteAll_ended :
    rewriteAll [Sample.other, Sample.target] (Sample.source "a;b;c;") =
      .ok (Sample.rewritten Sample.target "a;b;;") ∧
    StaysAlong [Sample.other, Sample.target] (Sample.source "a;b;c;") ∧
    ∃ o, Outline.read? (Sample.rewritten Sample.target "a;b;;") = some o ∧
      HasOneImport [Sample.other.importName, Sample.target.importName] Sample.target
        (Sample.rewritten Sample.target "a;b;;") o := by
  obtain ⟨hfirst, hsecond⟩ := Sample.rewriteAll_ended
  have hboth : rewriteAll ([Sample.other] ++ [Sample.target]) (Sample.source "a;b;c;") =
      .ok (Sample.rewritten Sample.target "a;b;;") := rewriteAll_concat_eq_ok_iff.mpr ⟨_, hfirst, hsecond⟩
  exact ⟨hboth, Sample.staysAlong_ended,
    importsNamed_of_rewriteAll (by decide) hboth Sample.staysAlong_ended⟩

namespace Sample

/-- A binding with some lines in front of a division or a regular expression, and with the text of an import
in a template. -/
def framed (importLines body : List Char) (statements : String) : List Char :=
  importLines ++ "/`/;\n".toList ++ binding body statements ++ "`\nimport w from 'z';\n` // `\n".toList

/-- The text of an import that stands in a template. -/
def veiled : List Char :=
  framed "import w from 'x';\nconst q = a\nimport w from 'y';\n".toList "\x7b\x7d".toList "a;b;c;"

/-- The same text, after it was rewritten: the template has ended. -/
def unveiled : List Char := framed (statement target ++ "\nconst q = a\n".toList) (body target) "a;b;;"

theorem exists_outline_unveiled : ∃ o, Outline.read? unveiled = some o ∧
    (importsNamed o [target.importName]).length = 2 ∧ o.function? loadName = none := by
  refine exists_outline_of_any ?_
  unfold unveiled framed statement binding
  rewrite [body_of_plain (t := target) rfl]
  repeat rewrite [String.toList_append]
  repeat rewrite [String.toList_ofList]
  decide +kernel

theorem rewrite_veiled : rewrite target veiled = .ok unveiled := by
  obtain ⟨o, ho, -⟩ := exists_outline_unveiled
  have hfind : Sites.find veiled target.importName =
      .ok ⟨⟨77, 79⟩, ⟨102, 104⟩, [⟨0, 18⟩, ⟨31, 49⟩]⟩ := by
    decide +kernel
  exact rewrite_of_doubled isWritten_target.statement hfind isWritten_target.body (by decide +kernel)
    (by decide) (by decide +kernel) (by decide +kernel) (Option.isSome_iff_exists.mpr ⟨o, ho⟩)

end Sample

/-- One import is dropped, and another one comes to light in what was a template. -/
theorem importsNamed_of_rewriteAll_unveiled :
    rewriteAll [Sample.target] Sample.veiled = .ok Sample.unveiled ∧
    ∃ o, Outline.read? Sample.unveiled = some o ∧
      (importsNamed o [Sample.target.importName]).length = 2 := by
  obtain ⟨o, ho, htwo, -⟩ := Sample.exists_outline_unveiled
  exact ⟨(rewriteAll_singleton _ _).trans Sample.rewrite_veiled, o, ho, htwo⟩

end WasmEmbed.Binding
