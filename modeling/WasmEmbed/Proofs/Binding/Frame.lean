import WasmEmbed.Proofs.Binding.Again

/-!
# What a rewriting keeps

Everything between the segments that a rewriting replaces keeps its bytes (`rewrite_keeps_the_rest`), and so
no character comes in that was neither in the text nor is written (`mem_of_rewrite`). The edits themselves
cannot fail (`rewrite_eq_error`).
-/

namespace WasmEmbed.Binding

open Script Text

variable {source : List Char} {importName : Name} {sites : Sites}

/-! ## What is kept

A rewritten binding is cut into the replaced segments and what stands between them. The segments are given
by offsets of the old binding, and so is what stands between.
-/

/-- The bytes of a text and of another one are the same but for the ranges that a rewriting for a target
replaces: the body of the loading function, the statement that fetches, and the imports of the aggregator.
In front of the other text stands the line of the import if there was none. -/
def KeepsTheRest (t : Target) (source out : List Char) : Prop :=
  ∃ o load init fetch statement body imports segments behind,
    Outline.read? source = some o ∧ o.function? loadName = some load ∧
    o.function? initName = some init ∧ init.body.pieces[fetchIndex]? = some fetch ∧
    importStatement t.importName t.specifier = .ok statement ∧
    loaderBody t.compressed t.importName = .ok body ∧
    imports = (aggregatorImports o (load.body.span.of source) t.importName).map ImportDeclaration.span ∧
    Utf8.encode source =
      (segments.flatMap fun g => Utf8.encode g.kept ++ Utf8.encode g.old) ++ Utf8.encode behind ∧
    Utf8.encode out = Utf8.encode (if imports.isEmpty then statement ++ ['\n'] else []) ++
      ((segments.flatMap fun g => Utf8.encode g.kept ++ Utf8.encode g.new) ++ Utf8.encode behind) ∧
    (Segment.edits [] segments).Perm
      (replacements source statement body load.body.span fetch.span imports)

/-- A rewriting keeps the bytes of everything that it does not replace. -/
theorem rewrite_keeps_the_rest {t : Target} {out : List Char} (h : rewrite t source = .ok out) :
    KeepsTheRest t source out := by
  obtain ⟨statement, sites, body, segments, behind, hstatement, hfind, hbody, hsource, hout, hperm⟩ :=
    rewrite_eq_after h
  obtain ⟨o, load, init, fetch, ho, hload, -, hinit, hfetch, rfl⟩ := Sites.find_eq_ok_iff.mp hfind
  refine ⟨o, load, init, fetch, statement, body, _, segments, behind, ho, hload, hinit, hfetch,
    hstatement, hbody, rfl, ?_, ?_, hperm⟩
  · rw [← Segment.encode_before, ← hsource]
  · rw [hout, Utf8.encode_append, Segment.encode_after]

theorem rewrite_keeps_the_rest_ended :
    rewrite Sample.target (Sample.source "a;b;c;") = .ok (Sample.rewritten Sample.target "a;b;;") ∧
      KeepsTheRest Sample.target (Sample.source "a;b;c;") (Sample.rewritten Sample.target "a;b;;") :=
  ⟨Sample.rewrite_source_ended, rewrite_keeps_the_rest Sample.rewrite_source_ended⟩

/-! ## Line ends

Of what is written only the names are not known, and they are identifiers. So no carriage return comes in,
which matters because files are read with universal line ends.
-/

/-- A character of a rewritten text is one of the text before, or of what is written into it. -/
theorem mem_of_rewrite {t : Target} {out : List Char} (h : rewrite t source = .ok out) {x : Char}
    (hx : x ∈ out) : x ∈ source ∨ x = '\n' ∨ x = ';' ∨
      (∃ statement, importStatement t.importName t.specifier = .ok statement ∧ x ∈ statement) ∨
      ∃ body, loaderBody t.compressed t.importName = .ok body ∧ x ∈ body := by
  obtain ⟨statement, sites, body, segments, behind, hstatement, -, hbody, hsource, rfl, hperm⟩ :=
    rewrite_eq_after h
  have hwritten : ∀ e ∈ replacements source statement body sites.loadBody sites.fetch sites.imports,
      e.replacement = Utf8.encode body ∨ e.replacement = Utf8.encode [';'] ∨
        e.replacement = Utf8.encode statement ∨ e.replacement = Utf8.encode [] := by
    intro e he
    simp only [replacements, List.mem_append, List.mem_cons, List.not_mem_nil, or_false, List.mem_map] at he
    rcases he with ((rfl | rfl) | ⟨p, -, rfl⟩) | ⟨p, -, rfl⟩
    · exact Or.inl rfl
    · exact Or.inr (Or.inl rfl)
    · exact Or.inr (Or.inr (Or.inl rfl))
    · exact Or.inr (Or.inr (Or.inr rfl))
  -- A character of the result stands in the import line that is put in front, or behind it.
  rcases List.mem_append.mp hx with hx | hx
  · split at hx
    · rcases List.mem_append.mp hx with hx | hx
      · exact Or.inr (Or.inr (Or.inr (Or.inl ⟨statement, hstatement, hx⟩)))
      · exact Or.inr (Or.inl (List.mem_singleton.mp hx))
    · cases hx
  · rcases Segment.mem_of_mem_after [] hx with hbefore | ⟨e, he, new, hnew, hx⟩
    · rw [hsource]
      exact Or.inl hbefore
    · have hreplacement := hwritten e (hperm.mem_iff.mp he)
      rw [hnew] at hreplacement
      rcases hreplacement with heq | heq | heq | heq
      all_goals rw [Utf8.encode_injective heq] at hx
      · exact Or.inr (Or.inr (Or.inr (Or.inr ⟨body, hbody, hx⟩)))
      · exact Or.inr (Or.inr (Or.inl (List.mem_singleton.mp hx)))
      · exact Or.inr (Or.inr (Or.inr (Or.inl ⟨statement, hstatement, hx⟩)))
      · cases hx

/-- No carriage return stands in an identifier. -/
theorem return_notMem_of_isIdentifier {name : Name} (h : isIdentifier name = true) : '\r' ∉ name := by
  intro hmem
  have hpart := Shard.isIdentifierPart_of_isIdentifier h '\r' hmem
  exact absurd hpart (by decide)

/-- None stands in an import statement that is written. -/
theorem return_notMem_importStatement {name specifier statement : List Char}
    (hname : isIdentifier name = true) (h : importStatement name specifier = .ok statement) :
    '\r' ∉ statement := by
  unfold importStatement at h
  split at h
  · cases h
  · next hquotable =>
      obtain rfl := Except.ok.inj h
      have hspecifier : '\r' ∉ specifier := fun hmem =>
        hquotable (List.any_eq_true.mpr ⟨'\r', hmem, by decide⟩)
      simp only [List.mem_append, not_or]
      exact ⟨⟨⟨⟨by decide, return_notMem_of_isIdentifier hname⟩, by decide⟩, hspecifier⟩, by decide⟩

theorem notMem_append {x : Char} {u v : List Char} (hu : x ∉ u) (hv : x ∉ v) : x ∉ u ++ v :=
  fun h => (List.mem_append.mp h).elim hu hv

theorem notMem_toList_append {x : Char} {u v : String} (hu : x ∉ u.toList) (hv : x ∉ v.toList) :
    x ∉ (u ++ v).toList := by
  rw [String.toList_append]
  exact notMem_append hu hv

/-- None stands in the text of a loading function. -/
theorem return_notMem_loader (compressed : Bool) {name : Name} (hname : isIdentifier name = true) :
    '\r' ∉ loader compressed name := by
  have hname := return_notMem_of_isIdentifier hname
  have hhead : '\r' ∉ loaderHead.toList := by
    unfold loaderHead
    refine notMem_toList_append (notMem_toList_append ?_ ?_) ?_
    all_goals
      rewrite [String.toList_ofList]
      decide
  have htail : '\r' ∉ loaderTail.toList := by
    unfold loaderTail
    refine notMem_toList_append (notMem_toList_append ?_ ?_) ?_
    all_goals
      rewrite [String.toList_ofList]
      decide
  cases compressed with
  | true =>
      show '\r' ∉ inflatingLoader.front ++ name ++ inflatingLoader.back
      dsimp only [inflatingLoader]
      refine notMem_append (notMem_append (notMem_toList_append hhead ?_) hname)
        (notMem_toList_append (notMem_toList_append (notMem_toList_append (notMem_toList_append ?_ ?_) ?_) ?_)
          htail)
      all_goals
        rewrite [String.toList_ofList]
        decide
  | false =>
      show '\r' ∉ plainLoader.front ++ name ++ plainLoader.back
      dsimp only [plainLoader]
      refine notMem_append (notMem_append (notMem_toList_append hhead ?_) hname)
        (notMem_toList_append ?_ htail)
      all_goals
        rewrite [String.toList_ofList]
        decide

/-- None stands in its body. -/
theorem return_notMem_loaderBody {compressed : Bool} {name body : List Char}
    (hname : isIdentifier name = true) (h : loaderBody compressed name = .ok body) : '\r' ∉ body := by
  unfold loaderBody at h
  dsimp only at h
  split at h
  · cases h
  · split at h
    · cases h
    · obtain rfl := Except.ok.inj h
      exact fun hmem => return_notMem_loader compressed hname (Span.mem_of_mem_of hmem)

/-- A rewriting adds no carriage return. -/
theorem return_notMem_of_rewrite {t : Target} {out : List Char} (hname : isIdentifier t.importName = true)
    (hsource : '\r' ∉ source) (h : rewrite t source = .ok out) : '\r' ∉ out := by
  intro hmem
  rcases mem_of_rewrite h hmem with hx | hx | hx | ⟨statement, hstatement, hx⟩ | ⟨body, hbody, hx⟩
  · exact hsource hx
  · cases hx
  · cases hx
  · exact return_notMem_importStatement hname hstatement hx
  · exact return_notMem_loaderBody hname hbody hx

/-! ## What cannot fail

The failures of a rewriting are listed by its definition. Two of them cannot occur: the edits lie on the
bytes and apart, so they are neither refused nor do they cut a character.
-/

/-- Why the places of a rewriting are not found. -/
theorem Sites.find_eq_error {e : RewriteError} (h : Sites.find source importName = .error e) :
    e = .notAScript ∨ (∃ name, e = .noFunction name) ∨ e = .notAsync loadName ∨
      ∃ found, e = .tooFewStatements initName (fetchIndex + 1) found := by
  have hrequire : ∀ {o : Outline} {name : Name}, requireFunction o name = .error e →
      ∃ name, e = .noFunction name := by
    intro o name hrequire
    unfold requireFunction at hrequire
    split at hrequire
    · cases hrequire
    · exact ⟨name, (Except.error.inj hrequire).symm⟩
  unfold Sites.find at h
  cases ho : Outline.read? source with
  | none =>
      rw [ho] at h
      exact Or.inl (Except.error.inj h).symm
  | some o =>
      simp only [ho, pure_bind] at h
      rcases bind_eq_error_iff.mp h with hload | ⟨load, -, h⟩
      · exact Or.inr (Or.inl (hrequire hload))
      split at h
      · exact Or.inr (Or.inr (Or.inl (Except.error.inj h).symm))
      · rcases bind_eq_error_iff.mp h with hinit | ⟨init, -, h⟩
        · exact Or.inr (Or.inl (hrequire hinit))
        split at h
        · cases h
        · exact Or.inr (Or.inr (Or.inr ⟨_, (Except.error.inj h).symm⟩))

/-- Why a text is not rewritten: the specifier, its places or the new body cannot be had, or what comes out
is no script. -/
theorem rewrite_eq_error {t : Target} {e : RewriteError} (h : rewrite t source = .error e) :
    importStatement t.importName t.specifier = .error e ∨ Sites.find source t.importName = .error e ∨
      loaderBody t.compressed t.importName = .error e ∨ e = .brokenScript := by
  unfold rewrite at h
  rcases bind_eq_error_iff.mp h with hstatement | ⟨statement, -, h⟩
  · exact Or.inl hstatement
  rcases bind_eq_error_iff.mp h with hfind | ⟨sites, hfind, h⟩
  · exact Or.inr (Or.inl hfind)
  rcases bind_eq_error_iff.mp h with hbody | ⟨body, -, h⟩
  · exact Or.inr (Or.inr (Or.inl hbody))
  obtain ⟨segments, behind, -, -, happly⟩ := exists_applyAll?_of_find hfind statement body
  rw [Sites.edits] at happly
  simp only [happly, Utf8.decode_encode, Except.mapError] at h
  rcases bind_eq_error_iff.mp h with htext | ⟨text, -, h⟩
  · cases htext
  split at h
  · cases h
  · exact Or.inr (Or.inr (Or.inr (Except.error.inj h).symm))

/-- A statement fails only because of its specifier. -/
theorem importStatement_eq_error {name specifier : List Char} {e : RewriteError}
    (h : importStatement name specifier = .error e) : e = .specifier specifier := by
  unfold importStatement at h
  split at h
  · exact (Except.error.inj h).symm
  · cases h

/-- A body fails only if the text with the name in it is no script or has no loading function. -/
theorem loaderBody_eq_error {compressed : Bool} {name : Name} {e : RewriteError}
    (h : loaderBody compressed name = .error e) : e = .notAScript ∨ e = .noLoader := by
  unfold loaderBody at h
  dsimp only at h
  split at h
  · exact Or.inl (Except.error.inj h).symm
  · split at h
    · exact Or.inr (Except.error.inj h).symm
    · cases h

/-- What is declared in a script stands in its place on the script, each function with a body in braces. So
whatever a text is rewritten for, its edits do not overlap and what they leave is a text. -/
theorem isPlacedOn_and_rewrite_ne (source : List Char) :
    (∀ o, Outline.read? source = some o → o.IsPlacedOn source) ∧
      ∀ t, rewrite t source ≠ .error .overlap ∧ ∀ cause, rewrite t source ≠ .error (.notText cause) := by
  have hcauses : ∀ t e, rewrite t source = .error e → e ≠ .overlap ∧ ∀ cause, e ≠ .notText cause := by
    intro t e h
    rcases rewrite_eq_error h with h | h | h | rfl
    · obtain rfl := importStatement_eq_error h
      simp
    · rcases Sites.find_eq_error h with rfl | ⟨name, rfl⟩ | rfl | ⟨found, rfl⟩
      all_goals simp
    · rcases loaderBody_eq_error h with rfl | rfl
      all_goals simp
    · simp
  refine ⟨fun o ho => Outline.isPlacedOn_of_read? ho, fun t => ⟨fun h => ?_, fun cause h => ?_⟩⟩
  · exact (hcauses t _ h).1 rfl
  · exact (hcauses t _ h).2 cause rfl

theorem isPlacedOn_and_rewrite_ne_ended :
    ∃ o, Outline.read? (Sample.rewritten Sample.target "a;b;;") = some o ∧
      o.IsPlacedOn (Sample.rewritten Sample.target "a;b;;") ∧
      rewrite Sample.target (Sample.rewritten Sample.target "a;b;;") ≠ .error .overlap := by
  obtain ⟨o, ho, -⟩ := Sample.exists_outline_ended
  obtain ⟨hplaced, hne⟩ := isPlacedOn_and_rewrite_ne (Sample.rewritten Sample.target "a;b;;")
  exact ⟨o, ho, hplaced o ho, (hne Sample.target).1⟩

end WasmEmbed.Binding
