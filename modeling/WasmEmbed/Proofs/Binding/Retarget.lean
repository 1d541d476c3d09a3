import WasmEmbed.Proofs.Binding.Again

/-!
# Rewriting a binding for another target

A binding that was rewritten for one target and then for another should read as if it had been rewritten for
the other target alone. The first rewriting has no earlier import to replace and puts its own in front, the
second one finds that import and replaces it. If the second rewriting finds what the first one wrote in its
places (`FindsWritten`), the two ways lead to the same text exactly if the third statement of the starting
function reads `;` in between (`rewrite_retarget_iff`). It does find that where the parser reads the
functions and the imports in the places to which they were moved. A semicolon at the end of the second
statement does not make sure that the third one reads `;`: it may belong to a comment.
-/

namespace WasmEmbed.Binding

open Script Text

/-! ## The first rewriting -/

/-- No top-level import of a text binds its default to one of these names, or to the name that the body of
the loading function decodes. -/
def IsUnclaimed (source : List Char) (names : List Name) : Prop :=
  ∀ o ∈ Outline.read? source, ∀ load ∈ o.function? loadName, ∀ i ∈ o.imports,
    ∀ name ∈ names ++ (previousName? (load.body.span.of source)).toList, i.defaultName ≠ some name

theorem aggregatorImports_of_isUnclaimed {source : List Char} {names : List Name}
    (h : IsUnclaimed source names) {o : Outline} (ho : Outline.read? source = some o)
    {load : FunctionDeclaration} (hload : o.function? loadName = some load) {name : Name}
    (hname : name ∈ names) :
    aggregatorImports o (load.body.span.of source) name = [] := by
  refine List.eq_nil_iff_forall_not_mem.mpr fun i hi => ?_
  obtain ⟨himport, name', hname', hdefault⟩ := mem_importsNamed.mp hi
  refine h o ho load hload i himport name' (List.mem_append.mpr ?_) hdefault
  rcases List.mem_cons.mp hname' with rfl | hprevious
  · exact Or.inl hname
  · exact Or.inr hprevious

/-- How many bytes of the old text stand in front of the body of the loading function after the statement that
fetches was replaced by `;`. -/
def Sites.bodyStart (s : Sites) : Nat :=
  if s.fetch.start < s.loadBody.start then s.loadBody.start + 1 - (s.fetch.stop - s.fetch.start)
  else s.loadBody.start

/-- A rewriting that drops no import keeps all but the body of the loading function and the statement that
fetches. -/
theorem Sites.exists_around_body {source : List Char} {name : Name} {sites : Sites}
    (hfind : Sites.find source name = .ok sites) (himports : sites.imports = []) :
    ∃ front behind, byteCount front = sites.bodyStart ∧ ∀ statement body,
      Edit.applyAll? (Utf8.encode source) (sites.edits (Utf8.encode source) statement (Utf8.encode body)) =
        some (Utf8.encode (front ++ body ++ behind)) := by
  obtain ⟨hon, hapart⟩ := Sites.places_of_find hfind
  obtain ⟨loadBody, fetch, imports⟩ := sites
  obtain rfl : imports = [] := himports
  have hbody := hon loadBody (by simp [Sites.spans])
  have hfetch := hon fetch (by simp [Sites.spans])
  have hbetween : Outline.Apart loadBody fetch := (List.pairwise_cons.mp hapart).1 fetch (by simp)
  -- The statement that fetches stands behind the body, or in front of it and shifts it.
  rcases hbetween with hle | hle
  · obtain ⟨u, v, t, v', w, hv, hv', rfl, rfl, rfl⟩ := hbody.exists_parts hfetch hle
    refine ⟨u, t ++ [';'] ++ w, ?_, fun statement body => ?_⟩
    · rw [Sites.bodyStart, if_neg]
      simp only [byteCount_append]
      omega
    · have hbefore : u ++ v ++ t ++ v' ++ w = Segment.before [⟨u, v, body⟩, ⟨t, v', [';']⟩] w := by
        simp only [Segment.before, List.append_assoc]
      have hafter : u ++ body ++ (t ++ [';'] ++ w) = Segment.after [⟨u, v, body⟩, ⟨t, v', [';']⟩] w := by
        simp only [Segment.after, List.append_assoc]
      rw [hbefore, hafter]
      exact Segment.applyAll?_segments _ w (List.Perm.refl _) (by simp [hv, hv'])
  · obtain ⟨u, v, t, v', w, hv, hv', rfl, rfl, rfl⟩ := hfetch.exists_parts hbody hle
    refine ⟨u ++ [';'] ++ t, w, ?_, fun statement body => ?_⟩
    · have hpos : byteCount v ≠ 0 := fun h => hv (byteCount_eq_zero.mp h)
      have hsemicolon : byteCount [';'] = 1 := by decide
      rw [Sites.bodyStart]
      simp only [byteCount_append, hsemicolon]
      split <;> omega
    · have hbefore : u ++ v ++ t ++ v' ++ w = Segment.before [⟨u, v, [';']⟩, ⟨t, v', body⟩] w := by
        simp only [Segment.before, List.append_assoc]
      have hafter : u ++ [';'] ++ t ++ body ++ w = Segment.after [⟨u, v, [';']⟩, ⟨t, v', body⟩] w := by
        simp only [Segment.after, List.append_assoc]
      rw [hbefore, hafter]
      exact Segment.applyAll?_segments _ w (List.Perm.swap _ _ []) (by simp [hv, hv'])

/-! ## The second rewriting -/

/-- A rewriting that replaces an import at the beginning of a text and the body of the loading function
changes nothing else exactly if the statement that fetches reads `;`. -/
theorem exists_applyAll?_retarget {statement front body behind : List Char} (hstatement : statement ≠ [])
    (hbody : body ≠ []) {name : Name} {fetch : Span}
    (hfind : Sites.find (statement ++ front ++ body ++ behind) name = .ok
      ⟨⟨byteCount (statement ++ front), byteCount (statement ++ front ++ body)⟩, fetch,
        [⟨0, byteCount statement⟩]⟩) (data : List UInt8) (statement' body' : List Char) :
    ∃ text, Edit.applyAll? (Utf8.encode (statement ++ front ++ body ++ behind))
        (Sites.edits ⟨⟨byteCount (statement ++ front), byteCount (statement ++ front ++ body)⟩, fetch,
          [⟨0, byteCount statement⟩]⟩ data (Utf8.encode statement') (Utf8.encode body')) =
            some (Utf8.encode text) ∧
      (text = statement' ++ front ++ body' ++ behind ↔
        fetch.of (statement ++ front ++ body ++ behind) = [';']) := by
  obtain ⟨hon, hapart⟩ := Sites.places_of_find hfind
  obtain ⟨hbodyApart, hrest⟩ := List.pairwise_cons.mp hapart
  have himport : Outline.Apart fetch ⟨0, byteCount statement⟩ := (List.pairwise_cons.mp hrest).1 _ (by simp)
  have hfetch := hon fetch (by simp [Sites.spans])
  have hplace : Span.IsOn (statement ++ front ++ body ++ behind)
      ⟨byteCount (statement ++ front), byteCount (statement ++ front ++ body)⟩ :=
    ⟨statement ++ front, body, behind, hbody, rfl, rfl⟩
  have hbetween : Outline.Apart ⟨byteCount (statement ++ front), byteCount (statement ++ front ++ body)⟩
      fetch :=
    hbodyApart fetch (by simp)
  have hlt := hfetch.start_lt
  rcases hbetween with hle | hle
  · -- The statement that fetches stands behind the body.
    obtain ⟨u, v, t, v', w, -, hv', htext, hspan, rfl⟩ := hplace.exists_parts hfetch hle
    obtain ⟨hstart, hstop⟩ := Span.mk.inj hspan
    rw [List.append_assoc (u ++ v ++ t), List.append_assoc (u ++ v)] at htext
    obtain ⟨hfront, rfl⟩ := append_inj_of_byteCount htext hstop
    obtain ⟨rfl, rfl⟩ := append_inj_of_byteCount hfront hstart
    have hbefore : statement ++ front ++ body ++ (t ++ (v' ++ w)) = Segment.before
        [⟨[], statement, statement'⟩, ⟨front, body, body'⟩, ⟨t, v', [';']⟩] w := by
      simp only [Segment.before, List.append_assoc, List.nil_append]
    refine ⟨Segment.after [⟨[], statement, statement'⟩, ⟨front, body, body'⟩, ⟨t, v', [';']⟩] w, ?_, ?_⟩
    · rw [hbefore]
      exact Segment.applyAll?_segments _ w (List.perm_append_singleton _ _).symm
        (by simp [hstatement, hbody, hv'])
    · rw [Span.of_eq (w := w) (by simp only [List.append_assoc])]
      simp only [Segment.after, List.append_assoc, List.nil_append, List.append_cancel_left_eq]
      exact ⟨fun h => (List.append_cancel_right h).symm, fun h => by rw [h]⟩
  · -- The statement that fetches stands between the import and the body.
    obtain ⟨u, v, t, v', w, hv, -, htext, rfl, hspan⟩ := hfetch.exists_parts hplace hle
    obtain ⟨hstart, hstop⟩ := Span.mk.inj hspan
    obtain ⟨hplaced, rfl⟩ := append_inj_of_byteCount htext hstop
    obtain ⟨hfront, rfl⟩ := append_inj_of_byteCount hplaced hstart
    have hbehind : byteCount statement ≤ byteCount u := by
      rcases himport with hstop | hstart
      · exact absurd hlt (Nat.not_lt_of_le (Nat.le_trans hstop (Nat.zero_le _)))
      · exact hstart
    obtain ⟨a, rfl⟩ := exists_append_of_byteCount_le (hfront.trans (List.append_assoc u v t)) hbehind
    have hpart : front = a ++ v ++ t := by
      rw [← List.append_right_inj statement, hfront]
      simp only [List.append_assoc]
    have hbefore : statement ++ a ++ v ++ t ++ body ++ behind = Segment.before
        [⟨[], statement, statement'⟩, ⟨a, v, [';']⟩, ⟨t, body, body'⟩] behind := by
      simp only [Segment.before, List.append_assoc, List.nil_append]
    refine ⟨Segment.after [⟨[], statement, statement'⟩, ⟨a, v, [';']⟩, ⟨t, body, body'⟩] behind, ?_, ?_⟩
    · rw [hfront, hbefore]
      exact Segment.applyAll?_segments _ behind (List.reverse_perm _).symm (by simp [hstatement, hbody, hv])
    · rw [Span.of_eq (w := t ++ body ++ behind) (by rw [hfront]; simp only [List.append_assoc]), hpart]
      simp only [Segment.after, List.append_assoc, List.nil_append, List.append_cancel_left_eq]
      exact ⟨fun h => (List.append_cancel_right h).symm, fun h => by rw [h]⟩

/-- Where the body of the loading function stands after a rewriting that puts a statement in front. -/
def Sites.bodyAfter (s : Sites) (statement body : List Char) : Span :=
  let start := byteCount statement + (1 + s.bodyStart)
  ⟨start, start + byteCount body⟩

/-- What a rewriting wrote is found in its places: the body of the loading function, and at the beginning of
the text the only import under one of these names. -/
def FindsWritten (t : Target) (sites : Sites) (names : List Name) (o : Outline) : Prop :=
  ∃ statement body, importStatement t.importName t.specifier = .ok statement ∧
    loaderBody t.compressed t.importName = .ok body ∧
    (∃ load ∈ o.function? loadName, load.isAsync = true ∧
      load.body.span = sites.bodyAfter statement body) ∧
    (importsNamed o names).map ImportDeclaration.span = [⟨0, byteCount statement⟩]

/-- A text that no import claims is rewritten around the same places for all targets. -/
theorem exists_around_of_isUnclaimed {source : List Char} {names : List Name} {sites : Sites}
    (hunclaimed : IsUnclaimed source names) {name : Name} (hname : name ∈ names)
    (hfind : Sites.find source name = .ok sites) :
    sites.imports = [] ∧ (∀ name' ∈ names, Sites.find source name' = .ok sites) ∧
    ∃ front behind, byteCount front = sites.bodyStart ∧ ∀ t : Target, t.importName ∈ names → ∀ out,
      rewrite t source = .ok out ↔ ∃ statement body,
        importStatement t.importName t.specifier = .ok statement ∧
        loaderBody t.compressed t.importName = .ok body ∧
        out = statement ++ ('\n' :: front) ++ body ++ behind ∧ (Outline.read? out).isSome = true := by
  obtain ⟨o, load, init, fetch, ho, hload, hasync, hinit, hfetch, rfl⟩ := Sites.find_eq_ok_iff.mp hfind
  -- No import stands for the aggregator, so the places are those of the two functions.
  have hnone : ∀ name' ∈ names, aggregatorImports o (load.body.span.of source) name' = [] :=
    fun name' hname' => aggregatorImports_of_isUnclaimed hunclaimed ho hload hname'
  have hsites : ∀ name' ∈ names, Sites.find source name' = .ok ⟨load.body.span, fetch.span, []⟩ := by
    intro name' hname'
    refine Sites.find_eq_ok_iff.mpr ⟨o, load, init, fetch, ho, hload, hasync, hinit, hfetch, ?_⟩
    rw [hnone name' hname', List.map_nil]
  rw [hnone name hname, List.map_nil] at hfind ⊢
  obtain ⟨front, behind, hfront, happly⟩ := Sites.exists_around_body hfind rfl
  refine ⟨rfl, hsites, front, behind, hfront, fun t ht out => ?_⟩
  rw [rewrite_eq_ok_iff]
  constructor
  · rintro ⟨statement, sites', body, edited, text, hstatement, hsites', hbody, hedited, htext, rfl, hread⟩
    obtain rfl := Except.ok.inj ((hsites _ ht).symm.trans hsites')
    rw [happly] at hedited
    obtain rfl := Option.some.inj hedited
    obtain rfl := Except.ok.inj ((Utf8.decode_encode _).symm.trans htext)
    exact ⟨statement, body, hstatement, hbody, by simp, hread⟩
  · rintro ⟨statement, body, hstatement, hbody, rfl, hread⟩
    exact ⟨statement, _, body, _, _, hstatement, hsites _ ht, hbody, happly _ _, Utf8.decode_encode _,
      by simp, hread⟩

/-- A text with an import at the beginning, and with a body of the loading function, gets another import and
another body and is not changed otherwise exactly if the third statement of its starting function reads
`;`. -/
theorem rewrite_retarget_eq_ok_iff {t : Target} {statement front body behind : List Char} {o : Outline}
    (ho : Outline.read? (statement ++ front ++ body ++ behind) = some o) {load : FunctionDeclaration}
    (hload : o.function? loadName = some load) (hasync : load.isAsync = true)
    (hplace : load.body.span = ⟨byteCount (statement ++ front), byteCount (statement ++ front ++ body)⟩)
    (himports : (aggregatorImports o body t.importName).map ImportDeclaration.span =
      [⟨0, byteCount statement⟩])
    (hne : statement ≠ []) (hbodyNe : body ≠ []) {statement' body' : List Char}
    (hstatement : importStatement t.importName t.specifier = .ok statement')
    (hbody : loaderBody t.compressed t.importName = .ok body')
    (hread : (Outline.read? (statement' ++ front ++ body' ++ behind)).isSome = true) :
    rewrite t (statement ++ front ++ body ++ behind) = .ok (statement' ++ front ++ body' ++ behind) ↔
      FetchesNothing (statement ++ front ++ body ++ behind) o := by
  -- The import and the body are given, so the third statement alone is left to be found.
  have hsites : ∀ sites, Sites.find (statement ++ front ++ body ++ behind) t.importName = .ok sites ↔
      ∃ init fetch, o.function? initName = some init ∧ init.body.pieces[fetchIndex]? = some fetch ∧
        sites = ⟨⟨byteCount (statement ++ front), byteCount (statement ++ front ++ body)⟩, fetch.span,
          [⟨0, byteCount statement⟩]⟩ := by
    intro sites
    rw [Sites.find_eq_ok_iff_of_load ho hload hasync, hplace, Span.of_append, himports]
  constructor
  · intro hrewrite
    obtain ⟨s, sites, b, edited, text, hs, hfind, hb, hedited, htext, hout, -⟩ :=
      rewrite_eq_ok_iff.mp hrewrite
    obtain rfl := Except.ok.inj (hstatement.symm.trans hs)
    obtain rfl := Except.ok.inj (hbody.symm.trans hb)
    obtain ⟨init, fetch, hinit, hfetch, rfl⟩ := (hsites sites).mp hfind
    obtain ⟨text', happly, hiff⟩ := exists_applyAll?_retarget hne hbodyNe hfind _ statement' body'
    obtain rfl := Option.some.inj (happly.symm.trans hedited)
    obtain rfl := Except.ok.inj ((Utf8.decode_encode text').symm.trans htext)
    exact ⟨init, hinit, fetch, hfetch, hiff.mp hout.symm⟩
  · rintro ⟨init, hinit, fetch, hfetch, hempty⟩
    have hfind := (hsites _).mpr ⟨init, fetch, hinit, hfetch, rfl⟩
    obtain ⟨text', happly, hiff⟩ := exists_applyAll?_retarget hne hbodyNe hfind _ statement' body'
    obtain rfl := hiff.mpr hempty
    exact rewrite_eq_ok_iff.mpr ⟨_, _, _, _, _, hstatement, hfind, hbody, happly,
      Utf8.decode_encode _, rfl, hread⟩

namespace Rewriting

variable {t : Target} {source out : List Char} (r : Rewriting t source out)

/-- Where the new body of the loading function is written if no import stood for the aggregator. -/
theorem place_loadBody (hnone : r.imports = []) :
    r.place r.load.body.span = r.sites.bodyAfter r.statement r.body := by
  obtain ⟨hon, hapart⟩ := Sites.places_of_find r.find_sites
  have hload := (hon r.load.body.span (by simp [sites, Sites.spans])).start_lt
  have hfetch := (hon r.fetch.span (by simp [sites, Sites.spans])).start_lt
  have hbetween : Outline.Apart r.load.body.span r.fetch.span :=
    (List.pairwise_cons.mp hapart).1 _ (by simp [sites])
  have hline : byteCount r.line = byteCount r.statement + 1 := by
    rw [line, hnone]
    exact byteCount_append _ _
  have hedits : r.edits = [r.loadEdit, r.fetchEdit] := by
    rw [edits, replacements, hnone]
    rfl
  have hsemicolon : (Utf8.encode [';']).length = 1 := by decide
  have hnot : ¬ r.load.body.span.stop ≤ r.load.body.span.start := Nat.not_le_of_lt hload
  rw [place, hedits, hline, Sites.bodyAfter, Span.mk.injEq]
  simp only [Edit.movedSpan, Edit.moved, loadEdit, fetchEdit, List.filter_cons, List.filter_nil,
    decide_eq_true_eq, hnot, Nat.le_refl, if_true, if_false]
  -- The statement that fetches stands behind the body, or in front of it and shifts it.
  rcases hbetween with hle | hle
  · have hstart : r.sites.bodyStart = r.load.body.span.start :=
      if_neg (Nat.not_lt_of_le (Nat.le_trans (Nat.le_of_lt hload) hle))
    have hbehind : ¬ r.fetch.span.stop ≤ r.load.body.span.stop := by omega
    have hbehind' : ¬ r.fetch.span.stop ≤ r.load.body.span.start := by omega
    simp only [hstart, hbehind, hbehind', if_false, List.map_nil, List.map_singleton, List.sum_nil,
      List.sum_singleton, Utf8.length_encode]
    omega
  · have hstart : r.sites.bodyStart =
        r.load.body.span.start + 1 - (r.fetch.span.stop - r.fetch.span.start) :=
      if_pos (Nat.lt_of_lt_of_le hfetch hle)
    have hfront : r.fetch.span.stop ≤ r.load.body.span.stop := by omega
    simp only [hstart, hle, hfront, if_true, List.map_nil, List.map_cons, List.sum_nil, List.sum_cons,
      Utf8.length_encode, hsemicolon]
    omega

/-- A rewriting of a text that no import claims puts its import in front. If the functions and the imports are
found in their places, so is what it wrote. -/
theorem findsWritten {name : Name} (hname : isIdentifier t.importName = true)
    (hunclaimed : IsUnclaimed source [t.importName, name]) (hplace : r.StaysInPlace)
    (himports : r.ImportsStay) :
    FindsWritten t r.sites [name, t.importName] r.after := by
  have hnone : r.imports = [] := by
    rw [imports, aggregatorImports_of_isUnclaimed hunclaimed r.read_before r.function_load List.mem_cons_self,
      List.map_nil]
  have hclaimed : ∀ i ∈ importsNamed r.before [name, t.importName], i ∈ r.claimed := by
    intro i hi
    obtain ⟨himport, name', hmem, hdefault⟩ := mem_importsNamed.mp hi
    refine absurd hdefault (hunclaimed _ r.read_before _ r.function_load i himport name' ?_)
    simp only [List.mem_cons, List.not_mem_nil, or_false] at hmem
    exact List.mem_append_left _ (by simpa using hmem.symm)
  obtain ⟨load, hload, hasync, -, hspan⟩ := r.exists_load_of_staysInPlace hplace
  obtain ⟨i, hi, hfirst, -⟩ := r.exists_importsNamed himports hname (by simp) hclaimed
  refine ⟨r.statement, r.body, r.importStatement_eq, r.loaderBody_eq, ⟨load, hload, hasync, ?_⟩, ?_⟩
  · rw [hspan, r.place_loadBody hnone]
  · rw [hi, List.map_singleton, hfirst, importPlace, hnone]

end Rewriting

/-- A binding that no import claims is rewritten for a target and then for another. If the functions and the
imports are found in their places in between, so is what was written. If this is found, the effect is the
same as for the other target alone exactly if the third statement of the starting function reads `;` in
between. -/
theorem rewrite_retarget_iff {t₁ t₂ : Target} {source out₁ out₂ : List Char}
    (hname : isIdentifier t₁.importName = true)
    (hunclaimed : IsUnclaimed source [t₁.importName, t₂.importName])
    (h₁ : rewrite t₁ source = .ok out₁) (h₂ : rewrite t₂ source = .ok out₂) :
    ∃ r : Rewriting t₁ source out₁,
      (r.StaysInPlace → r.ImportsStay →
        FindsWritten t₁ r.sites [t₂.importName, t₁.importName] r.after) ∧
      (FindsWritten t₁ r.sites [t₂.importName, t₁.importName] r.after →
        (rewrite t₂ out₁ = .ok out₂ ↔ FetchesNothing out₁ r.after)) := by
  obtain ⟨r⟩ := exists_rewriting h₁
  refine ⟨r, r.findsWritten hname hunclaimed, ?_⟩
  obtain ⟨-, -, front, behind, hfront, haround⟩ :=
    exists_around_of_isUnclaimed hunclaimed (by simp) r.find_sites
  obtain ⟨statement, body, hstatement, hbody, rfl, -⟩ := (haround t₁ (by simp) out₁).mp h₁
  obtain ⟨statement', body', hstatement', hbody', rfl, hread'⟩ := (haround t₂ (by simp) out₂).mp h₂
  rintro ⟨statement₁, body₁, hs₁, hb₁, ⟨load, hload, hasync, hspan⟩, himports⟩
  obtain rfl := Except.ok.inj (hstatement.symm.trans hs₁)
  obtain rfl := Except.ok.inj (hbody.symm.trans hb₁)
  have hplace : load.body.span =
      ⟨byteCount (statement ++ '\n' :: front), byteCount (statement ++ '\n' :: front ++ body)⟩ := by
    have hfeed : Char.utf8Size '\n' = 1 := by decide
    simp only [hspan, Sites.bodyAfter, byteCount_append, byteCount_cons, hfeed, hfront]
  have hbodyNe : body ≠ [] := by
    obtain ⟨inside, behind', -, -, -, rfl⟩ :=
      exists_behind_of_loaderBody (isBraceFree_of_isIdentifier hname) hbody
    exact List.cons_ne_nil _ _
  refine rewrite_retarget_eq_ok_iff r.read_after hload hasync hplace ?_ (importStatement_ne_nil hstatement)
    hbodyNe hstatement' hbody' hread'
  -- The second rewriting knows the import of the first one by the name in the body.
  rw [aggregatorImports_eq, previousName?_of_loaderBody hname hbody]
  exact himports

/-! ## A binding that can get another target and one that cannot

In the second binding, the semicolon at the end of the second statement belongs to a comment. The semicolon
that is written for the third statement ends the second one.
-/

namespace Sample

/-- Another target, for a compressed module. -/
def other : Target where
  importName := "v".toList
  specifier := "./v/index.js".toList
  compressed := true

set_option maxRecDepth 2000 in
/-- The body that is written for a compressed module. -/
theorem body_of_compressed {t : Target} (h : t.compressed = true) : body t =
    ("\x7b\n    const bytesFromBase64 = (base64String) => " ++
      "Uint8Array.from(atob(base64String), (c) => c.charCodeAt(0));\n" ++
      "    const compressed = bytesFromBase64(").toList ++ t.importName ++
    (");\n    const stream = new Blob([compressed]).stream()" ++
      ".pipeThrough(new DecompressionStream('deflate'));\n" ++
      "    const wasmBytecode = new Uint8Array(await new Response(stream).arrayBuffer());\n" ++
      "    const instance = await WebAssembly.instantiate(wasmBytecode, imports);\n" ++
      "    return instance;\n\x7d").toList := by
  unfold body
  rw [h]
  unfold bodyText useText endText constantText decoderText decoderName streamText inflatedText instanceText
    bytesName margin
  rw [if_pos rfl, if_pos rfl]
  repeat rewrite [String.toList_append]
  repeat rewrite [String.toList_ofList]
  simp only [List.append_assoc, List.cons_append, List.nil_append]

theorem isWritten_other : IsWritten other := isWritten (by decide) (by decide) (by decide)

theorem isUnclaimed_of_imports {source : List Char} {names : List Name}
    (hnone : ∀ o ∈ Outline.read? source, o.imports = []) : IsUnclaimed source names := by
  intro o ho load _ i hi
  rw [hnone o ho] at hi
  exact nomatch hi

/-- What is read from the binding that was rewritten for the other target. -/
theorem exists_outline_retargeted : ∃ o, Outline.read? (rewritten other "a;b;;") = some o ∧
    IsRead other o ∧ FetchesNothing (rewritten other "a;b;;") o := by
  refine exists_outline_of_any ?_
  unfold rewritten statement binding
  rewrite [body_of_compressed (t := other) rfl]
  repeat rewrite [String.toList_append]
  repeat rewrite [String.toList_ofList]
  decide +kernel

theorem rewrite_other_ended : rewrite other (source "a;b;c;") = .ok (rewritten other "a;b;;") := by
  obtain ⟨o, ho, -⟩ := exists_outline_retargeted
  exact rewrite_source isWritten_other "a;b;".toList "c;".toList [] (by decide) (by decide) (by decide)
    (by decide) (find_source_ended _) (Option.isSome_iff_exists.mpr ⟨o, ho⟩)

end Sample

theorem rewrite_retarget_ended :
    ∃ r : Rewriting Sample.target (Sample.source "a;b;c;") (Sample.rewritten Sample.target "a;b;;"),
      r.StaysInPlace ∧ r.ImportsStay ∧
      rewrite Sample.other (Sample.rewritten Sample.target "a;b;;") =
        .ok (Sample.rewritten Sample.other "a;b;;") := by
  have hunclaimed : IsUnclaimed (Sample.source "a;b;c;")
      [Sample.target.importName, Sample.other.importName] :=
    Sample.isUnclaimed_of_imports Sample.imports_source_ended
  obtain ⟨r, hfound, hiff⟩ := rewrite_retarget_iff (by decide) hunclaimed
    Sample.rewrite_source_ended Sample.rewrite_other_ended
  obtain ⟨hplace, himports⟩ := Sample.stays_ended r
  obtain ⟨o, ho, -, hempty, -⟩ := Sample.exists_outline_ended
  obtain rfl : o = r.after := Option.some.inj (ho.symm.trans r.read_after)
  exact ⟨r, hplace, himports, (hiff (hfound hplace himports)).mpr hempty⟩

/-- The second statement of a starting function is an expression with a semicolon at its end. -/
theorem rewrite_retarget_commented :
    ((Outline.read? (Sample.source "a\nb // c;\nc\n")).any (fun o => o.imports.isEmpty &&
      (o.function? initName).any fun init => init.body.pieces[1]?.any fun second =>
        second.kind == .expressionStatement &&
          (second.span.of (Sample.source "a\nb // c;\nc\n")).getLast? == some ';')) = true ∧
    rewrite Sample.target (Sample.source "a\nb // c;\nc\n") =
      .ok (Sample.rewritten Sample.target "a\nb // c;\n;\n") ∧
    rewrite Sample.other (Sample.source "a\nb // c;\nc\n") =
      .ok (Sample.rewritten Sample.other "a\nb // c;\n;\n") ∧
    rewrite Sample.other (Sample.rewritten Sample.target "a\nb // c;\n;\n") ≠
      .ok (Sample.rewritten Sample.other "a\nb // c;\n;\n") := by
  have hread : ∃ o, Outline.read? (Sample.rewritten Sample.target "a\nb // c;\n;\n") = some o ∧
      ∀ init ∈ o.function? initName, init.body.pieces.length = 2 := by
    refine Sample.exists_outline_of_any ?_
    unfold Sample.rewritten Sample.statement Sample.binding
    rewrite [Sample.body_of_plain (t := Sample.target) rfl]
    repeat rewrite [String.toList_append]
    repeat rewrite [String.toList_ofList]
    decide +kernel
  have hother : (Outline.read? (Sample.rewritten Sample.other "a\nb // c;\n;\n")).isSome := by
    unfold Sample.rewritten Sample.statement Sample.binding
    rewrite [Sample.body_of_compressed (t := Sample.other) rfl]
    repeat rewrite [String.toList_append]
    repeat rewrite [String.toList_ofList]
    decide +kernel
  have hfacts : (Outline.read? (Sample.source "a\nb // c;\nc\n")).any (fun o => o.imports.isEmpty &&
      (o.function? initName).any fun init => init.body.pieces[1]?.any fun second =>
        second.kind == .expressionStatement &&
          (second.span.of (Sample.source "a\nb // c;\nc\n")).getLast? == some ';') = true := by
    decide +kernel
  have hfind : Sites.find (Sample.source "a\nb // c;\nc\n") Sample.target.importName =
      .ok ⟨⟨22, 24⟩, ⟨53, 54⟩, []⟩ := by
    decide +kernel
  have hnone : ∀ o ∈ Outline.read? (Sample.source "a\nb // c;\nc\n"), o.imports = [] := by
    intro o ho
    rw [Option.mem_def.mp ho, Option.any_some, Bool.and_eq_true] at hfacts
    exact List.isEmpty_iff.mp hfacts.1
  obtain ⟨o, ho, hshort⟩ := hread
  refine ⟨hfacts, ?_, ?_, ?_⟩
  · exact Sample.rewrite_source Sample.isWritten_target "a\nb // c;\n".toList ['c'] ['\n'] (by decide)
      (by decide) (by decide) (by decide) hfind (Option.isSome_iff_exists.mpr ⟨o, ho⟩)
  · exact Sample.rewrite_source Sample.isWritten_other "a\nb // c;\n".toList ['c'] ['\n'] (by decide)
      (by decide) (by decide) (by decide) (Sites.find_of_imports_eq_nil hnone hfind _) hother
  · intro h
    -- What is written for the third statement becomes a part of the second one, as the first semicolon did.
    obtain ⟨init, hinit, hlong⟩ := exists_fetch_of_rewrite ho h
    rw [hshort init hinit] at hlong
    exact absurd hlong (by decide)

end WasmEmbed.Binding
