import WasmEmbed.Proofs.Binding.Segment
import WasmEmbed.Proofs.Binding.Sites

/-!
# The edits of a rewriting

A rewriting replaces the body of the loading function, a statement of the starting function and the imports
of the aggregator. An import that is dropped takes a line feed behind it along (`withFeed`). That line feed
belongs to no other place, because the body of a function begins at a brace and an import at its word, so
the replaced ranges are still apart (`Sites.edits_of_find`) and the edits are those of segments of the
text (`rewrite_eq_after`).
-/

namespace WasmEmbed.Binding

open Script Text

/-! ## Dropped imports

An import that is dropped leaves an empty line behind unless its line feed goes with it. The range with
the line feed is the range of the import or one byte longer.
-/

/-- The range of an import together with one line feed directly behind it, if there is one. -/
def withFeed (source : List Char) (span : Span) : Span :=
  if (Utf8.encode source)[span.stop]? = some 10 then ⟨span.start, span.stop + 1⟩ else span

/-- A dropped import is replaced by nothing, with its line feed. -/
theorem dropImport_eq (source : List Char) (span : Span) :
    dropImport (Utf8.encode source) span = ⟨withFeed source span, []⟩ := by
  unfold dropImport withFeed
  split
  · rfl
  · rfl

variable {source : List Char} {p q : Span}

theorem start_withFeed : (withFeed source p).start = p.start := by
  unfold withFeed
  split
  · rfl
  · rfl

/-- The range with the line feed is no shorter. -/
theorem stop_le_withFeed : p.stop ≤ (withFeed source p).stop := by
  unfold withFeed
  split
  · exact Nat.le_succ _
  · exact Nat.le_refl _

/-- It lies on the text as well. -/
theorem isOn_withFeed (h : p.IsOn source) : (withFeed source p).IsOn source := by
  unfold withFeed
  split
  · next hfeed =>
      obtain ⟨u, v, w, hv, rfl, rfl⟩ := h
      have hhead := Utf8.head?_of_getElem?_encode hfeed
      obtain ⟨w, rfl⟩ := List.head?_eq_some_iff.mp hhead
      refine ⟨u, v ++ ['\n'], w, by simp, by simp, ?_⟩
      simp only [byteCount_append, byteCount_cons, byteCount_nil, Nat.add_assoc]
      rfl
  · exact h

/-- A range that does not begin with a line feed is not reached by one behind a range in front of it. -/
theorem stop_withFeed_le (hp : p.IsOn source) (hq : q.IsOn source)
    (hhead : (q.of source).head? ≠ some '\n') (h : p.stop ≤ q.start) :
    (withFeed source p).stop ≤ q.start := by
  unfold withFeed
  split
  · next hfeed =>
      show p.stop + 1 ≤ q.start
      refine Nat.lt_of_le_of_ne h fun heq => hhead ?_
      obtain ⟨u, v, t, v', w, -, hv', rfl, rfl, rfl⟩ := hp.exists_parts hq h
      -- Nothing stands between the two ranges, so the line feed is the first character of the second.
      have hnil : t = [] := by
        refine byteCount_eq_zero.mp ?_
        simp only [byteCount_append] at heq
        omega
      subst hnil
      simp only [List.append_nil, List.append_assoc] at hfeed ⊢
      rw [← List.append_assoc u v] at hfeed
      have hfirst := Utf8.head?_of_getElem?_encode hfeed
      rw [← List.append_assoc, ← List.append_assoc, ← List.append_assoc, Span.of_append]
      cases v' with
      | nil => exact absurd rfl hv'
      | cons x v' => exact hfirst
  · exact h

/-- It is apart from a range that does not begin with the line feed. -/
theorem apart_withFeed (hp : p.IsOn source) (hq : q.IsOn source)
    (hhead : (q.of source).head? ≠ some '\n') (h : Outline.Apart p q) :
    Outline.Apart (withFeed source p) q := by
  rcases h with h | h
  · exact Or.inl (stop_withFeed_le hp hq hhead h)
  · refine Or.inr ?_
    rw [start_withFeed]
    exact h

/-! ## The replaced ranges

The ranges lie in the text in some order, which is not the order in which they are listed. Being apart is
symmetric, so the pairs may be taken in any order.
-/

variable {importName : Name} {sites : Sites}

/-- An import of the aggregator that is dropped with the line feed behind it stays apart from the replaced
parts of the functions, and from the imports behind it. -/
theorem Sites.dropped_of_find (h : Sites.find source importName = .ok sites) :
    (∀ p ∈ sites.imports, Outline.Apart (withFeed source p) sites.loadBody ∧
      Outline.Apart (withFeed source p) sites.fetch) ∧
    sites.imports.Pairwise fun p q => (withFeed source p).stop ≤ q.start := by
  obtain ⟨o, load, init, fetch, ho, hload, -, hinit, hfetch, rfl⟩ := find_eq_ok_iff.mp h
  obtain ⟨s, hs, hrole, hbody, -, hbrace⟩ :=
    Outline.holds_of_mem_functions ho (Outline.mem_functions_of_function? hload).1
  obtain ⟨s', hs', hrole', hholds', hplaced⟩ :=
    Outline.isPlaced_of_mem_functions ho (Outline.mem_functions_of_function? hinit).1
  have hbody' := hholds'.mono hplaced.body hplaced.start hplaced.stop
  have hfeed : ∀ {x : Char} {span : Span}, x ≠ '\n' → (span.of source).head? = some x →
      (span.of source).head? ≠ some '\n' :=
    fun hx hhead heq => hx (Option.some.inj (hhead.symm.trans heq))
  have hbraced : ∀ {body : Span}, Outline.IsBraced (body.of source) →
      (body.of source).head? ≠ some '\n' := fun hbrace => hfeed (by decide) hbrace.opens
  constructor
  · intro p hp
    obtain ⟨i, hi, rfl⟩ := List.mem_map.mp hp
    obtain ⟨s₁, hs₁, hrole₁, hi⟩ := Outline.holds_of_mem_imports ho (List.mem_of_mem_filter hi)
    have hne : s₁.role ≠ s.role ∧ s₁.role ≠ s'.role := by simp [hrole, hrole', hrole₁]
    constructor
    · exact apart_withFeed hi.isOn hbody.isOn (hbraced hbrace)
        (hi.apart hbody (Outline.apart_of_ne ho hs₁ hs hne.1))
    · -- The statement stands in a body, and the line feed ends before the brace of that body.
      obtain ⟨-, hstart, hstop⟩ := hplaced.pieces fetch (List.mem_of_getElem? hfetch)
      have hapart := apart_withFeed hi.isOn hbody'.isOn (hbraced hplaced.isBraced)
        (hi.apart hbody' (Outline.apart_of_ne ho hs₁ hs' hne.2))
      exact hapart.mono (Nat.le_refl _) (Nat.le_refl _) hstart hstop
  · have himports : (aggregatorImports o (load.body.span.of source) importName).Pairwise
        fun i j => (withFeed source i.span).stop ≤ j.span.start := by
      refine ((Outline.pairwise_imports ho).filter _).imp_of_mem fun {i j} hi hj hij => ?_
      obtain ⟨_, -, -, hholds⟩ := Outline.holds_of_mem_imports ho (List.mem_of_mem_filter hi)
      obtain ⟨_, -, -, hholds', hhead⟩ := Outline.opens_of_mem_imports ho (List.mem_of_mem_filter hj)
      exact stop_withFeed_le hholds.isOn hholds'.isOn (hfeed (by decide) hhead) hij
    exact List.Pairwise.map _ (fun _ _ h => h) himports

/-- An edit of an import replaces its range, with or without the line feed behind it. -/
theorem exists_of_mem_importEdits {statement : List Char} {imports : List Span} {e : Edit}
    (he : e ∈ importEdits (Utf8.encode source) (Utf8.encode statement) imports) :
    ∃ p ∈ imports, (e.span = p ∨ e.span = withFeed source p) ∧ ∃ new, e.replacement = Utf8.encode new := by
  cases imports with
  | nil => cases he
  | cons first others =>
      rcases List.mem_cons.mp he with rfl | he
      · exact ⟨first, List.mem_cons_self, Or.inl rfl, statement, rfl⟩
      · obtain ⟨p, hp, rfl⟩ := List.mem_map.mp he
        rw [dropImport_eq]
        exact ⟨p, List.mem_cons_of_mem first hp, Or.inr rfl, [], rfl⟩

/-- The edits of imports come one behind the other. -/
theorem pairwise_importEdits {statement : List UInt8} {imports : List Span}
    (h : imports.Pairwise fun p q => (withFeed source p).stop ≤ q.start) :
    (importEdits (Utf8.encode source) statement imports).Pairwise Edit.IsBefore := by
  cases imports with
  | nil => exact .nil
  | cons first others =>
      obtain ⟨hfirst, hothers⟩ := List.pairwise_cons.mp h
      have hdrop : ∀ p q : Span, (withFeed source p).stop ≤ q.start →
          (dropImport (Utf8.encode source) p).IsBefore (dropImport (Utf8.encode source) q) := by
        intro p q hpq
        rw [dropImport_eq, dropImport_eq, Edit.IsBefore, start_withFeed]
        exact hpq
      refine .cons (fun e he => ?_) (List.Pairwise.map _ hdrop hothers)
      obtain ⟨q, hq, rfl⟩ := List.mem_map.mp he
      rw [dropImport_eq, Edit.IsBefore, start_withFeed]
      exact Nat.le_trans stop_le_withFeed (hfirst q hq)

/-- The edits of a rewriting replace whole characters by whole characters, and no two of them overlap. -/
theorem Sites.edits_of_find (h : Sites.find source importName = .ok sites) (statement body : List Char) :
    (∀ e ∈ sites.edits (Utf8.encode source) (Utf8.encode statement) (Utf8.encode body),
      e.span.IsOn source ∧ ∃ new, e.replacement = Utf8.encode new) ∧
    (sites.edits (Utf8.encode source) (Utf8.encode statement) (Utf8.encode body)).Pairwise
      fun a b => a.IsBefore b ∨ b.IsBefore a := by
  obtain ⟨hon, hapart⟩ := places_of_find h
  obtain ⟨hdropped, hordered⟩ := dropped_of_find h
  obtain ⟨hload, -⟩ := List.pairwise_cons.mp hapart
  constructor
  · intro e he
    rcases List.mem_cons.mp he with rfl | he
    · exact ⟨hon _ List.mem_cons_self, body, rfl⟩
    rcases List.mem_cons.mp he with rfl | he
    · exact ⟨hon _ (List.mem_cons_of_mem _ List.mem_cons_self), [';'], rfl⟩
    obtain ⟨p, hp, hspan, hnew⟩ := exists_of_mem_importEdits he
    have hpOn := hon p (List.mem_cons_of_mem _ (List.mem_cons_of_mem _ hp))
    refine ⟨?_, hnew⟩
    rcases hspan with hspan | hspan
    · rw [hspan]
      exact hpOn
    · rw [hspan]
      exact isOn_withFeed hpOn
  · -- An import that is replaced lies inside the range in which it would be dropped.
    have himport : ∀ {e : Edit} {q : Span}, (∀ p ∈ sites.imports, Outline.Apart (withFeed source p) q) →
        e ∈ importEdits (Utf8.encode source) (Utf8.encode statement) sites.imports →
        Outline.Apart q e.span := by
      intro e q hq he
      obtain ⟨p, hp, hspan, -⟩ := exists_of_mem_importEdits he
      have hle : (withFeed source p).start ≤ e.span.start ∧ e.span.stop ≤ (withFeed source p).stop := by
        rcases hspan with hspan | hspan
        · rw [hspan, start_withFeed]
          exact ⟨Nat.le_refl _, stop_le_withFeed⟩
        · rw [hspan]
          exact ⟨Nat.le_refl _, Nat.le_refl _⟩
      exact ((hq p hp).mono hle.1 hle.2 (Nat.le_refl _) (Nat.le_refl _)).symm
    refine .cons (fun e he => ?_) (.cons (fun e he => ?_) ?_)
    · rcases List.mem_cons.mp he with rfl | he
      · exact hload _ List.mem_cons_self
      · exact himport (fun p hp => (hdropped p hp).1) he
    · exact himport (fun p hp => (hdropped p hp).2) he
    · exact (pairwise_importEdits hordered).imp fun h => Or.inl h

/-- The edits of a rewriting are those of segments of the text, in some order. -/
theorem Sites.exists_segments (h : Sites.find source importName = .ok sites)
    (statement body : List Char) :
    ∃ segments behind, source = Segment.before segments behind ∧
      (Segment.edits [] segments).Perm
        (sites.edits (Utf8.encode source) (Utf8.encode statement) (Utf8.encode body)) ∧
      ∀ g ∈ segments, g.old ≠ [] := by
  obtain ⟨hon, hapart⟩ := edits_of_find h statement body
  exact Segment.exists_of_apart hon hapart

/-- The edits of a rewriting are made, and make a text. -/
theorem exists_applyAll?_of_find (h : Sites.find source importName = .ok sites)
    (statement body : List Char) :
    ∃ segments behind, source = Segment.before segments behind ∧
      (Segment.edits [] segments).Perm
        (sites.edits (Utf8.encode source) (Utf8.encode statement) (Utf8.encode body)) ∧
      Edit.applyAll? (Utf8.encode source) (sites.edits (Utf8.encode source) (Utf8.encode statement)
        (Utf8.encode body)) = some (Utf8.encode (Segment.after segments behind)) := by
  obtain ⟨segments, behind, rfl, hperm, hold⟩ := Sites.exists_segments h statement body
  exact ⟨segments, behind, rfl, hperm, Segment.applyAll?_segments segments behind hperm hold⟩

/-! ## The edits of a rewriting

The edits of a rewriting are made on the bytes, and the segments are characters. `rewrite_eq_after` says
that both give the same text.
-/

/-- The replaced ranges of a rewriting and what replaces them. The first import of the aggregator becomes the
new import, every other one is dropped with a line feed behind it. -/
def replacements (source statement body : List Char) (loadBody fetch : Span) (imports : List Span) :
    List Edit :=
  [⟨loadBody, Utf8.encode body⟩, ⟨fetch, Utf8.encode [';']⟩] ++
    ((imports.take 1).map fun p => ⟨p, Utf8.encode statement⟩) ++
    ((imports.drop 1).map fun p => ⟨withFeed source p, []⟩)

/-- The edits of the places, in the order in which they are listed. -/
theorem Sites.edits_eq (sites : Sites) (statement body : List Char) :
    sites.edits (Utf8.encode source) (Utf8.encode statement) (Utf8.encode body) =
      replacements source statement body sites.loadBody sites.fetch sites.imports := by
  obtain ⟨loadBody, fetch, imports⟩ := sites
  cases imports with
  | nil => rfl
  | cons first others =>
      show _ :: _ :: _ :: others.map (dropImport (Utf8.encode source)) = _
      rw [List.map_congr_left fun p _ => dropImport_eq source p]
      rfl

/-- A rewritten text as segments of the text before: each is replaced as it should be, and the import is
written in front of them if there was none. -/
theorem rewrite_eq_after {t : Target} {out : List Char} (h : rewrite t source = .ok out) :
    ∃ statement sites body segments behind, importStatement t.importName t.specifier = .ok statement ∧
      Sites.find source t.importName = .ok sites ∧ loaderBody t.compressed t.importName = .ok body ∧
      source = Segment.before segments behind ∧
      out = (if sites.imports.isEmpty then statement ++ ['\n'] else []) ++ Segment.after segments behind ∧
      (Segment.edits [] segments).Perm
        (replacements source statement body sites.loadBody sites.fetch sites.imports) := by
  obtain ⟨statement, sites, body, edited, text, hstatement, hfind, hbody, hedited, htext, rfl, -⟩ :=
    rewrite_eq_ok_iff.mp h
  obtain ⟨segments, behind, hsource, hperm, happly⟩ := exists_applyAll?_of_find hfind statement body
  obtain rfl := Option.some.inj (hedited.symm.trans happly)
  obtain rfl := Except.ok.inj ((Utf8.decode_encode _).symm.trans htext)
  rw [sites.edits_eq] at hperm
  refine ⟨statement, sites, body, segments, behind, hstatement, hfind, hbody, hsource, ?_, hperm⟩
  split
  · rw [List.append_assoc, List.singleton_append]
  · rfl

end WasmEmbed.Binding
