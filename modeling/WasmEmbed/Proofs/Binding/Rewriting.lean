import WasmEmbed.Proofs.Binding.Edits
import WasmEmbed.Proofs.Binding.Moved

/-!
# What was moved where

A rewriting moves everything behind its first edit. `Rewriting` holds a text and what it was rewritten to,
with all that was found in both of them, and `Rewriting.place` is where a range of the text is afterwards.
On the characters nothing is left open: where a function was moved, the rewritten text holds what the
function should have become (`Rewriting.of_place`), and where something was written it holds that
(`Rewriting.of_place_of_mem_edits`). What the parser makes of the rewritten text there is another matter: it
depends on what stands around these places. If it finds the functions where they were moved to, they are the
functions of the source, in their order, with their kinds and names (`Rewriting.keepsFunctions`).
-/

namespace WasmEmbed.Binding

open Script Text

/-! ## A text and what it was rewritten to -/

/-- A text and the text that it was rewritten to for a target, with what was found in them and what was
written. -/
structure Rewriting (t : Target) (source out : List Char) where
  before : Outline
  after : Outline
  load : FunctionDeclaration
  init : FunctionDeclaration
  fetch : Piece
  statement : List Char
  body : List Char
  rewritten : rewrite t source = .ok out
  read_before : Outline.read? source = some before
  read_after : Outline.read? out = some after
  function_load : before.function? loadName = some load
  function_init : before.function? initName = some init
  piece_fetch : init.body.pieces[fetchIndex]? = some fetch
  importStatement_eq : importStatement t.importName t.specifier = .ok statement
  loaderBody_eq : loaderBody t.compressed t.importName = .ok body

/-- Whatever is rewritten was found and written. -/
theorem exists_rewriting {t : Target} {source out : List Char} (h : rewrite t source = .ok out) :
    Nonempty (Rewriting t source out) := by
  obtain ⟨statement, sites, body, edited, text, hstatement, hfind, hbody, -, -, -, hread⟩ :=
    rewrite_eq_ok_iff.mp h
  obtain ⟨o, load, init, fetch, ho, hload, -, hinit, hfetch, rfl⟩ := Sites.find_eq_ok_iff.mp hfind
  obtain ⟨o', ho'⟩ := Option.isSome_iff_exists.mp hread
  exact ⟨⟨o, o', load, init, fetch, statement, body, h, ho, ho', hload, hinit, hfetch, hstatement, hbody⟩⟩

/-- Lists that agree under two maps agree under any two maps that depend on them. -/
theorem map_eq_map_of_forall {α β γ δ : Type} {f : α → γ} {g : β → γ} {f' : α → δ} {g' : β → δ}
    {xs : List α} {ys : List β} (h : xs.map f = ys.map g)
    (himp : ∀ x ∈ xs, ∀ y ∈ ys, f x = g y → f' x = g' y) : xs.map f' = ys.map g' := by
  induction xs generalizing ys with
  | nil => rw [List.map_eq_nil_iff.mp h.symm]; rfl
  | cons x xs ih =>
      obtain ⟨y, ys, rfl, hy, hys⟩ := List.map_eq_cons_iff.mp h.symm
      rw [List.map_cons, List.map_cons, himp x List.mem_cons_self y List.mem_cons_self hy.symm,
        ih hys.symm fun a ha b hb => himp a (List.mem_cons_of_mem x ha) b (List.mem_cons_of_mem y hb)]

namespace Rewriting

variable {t : Target} {source out : List Char}

/-- The places of the imports of the aggregator. -/
def imports (r : Rewriting t source out) : List Span :=
  (aggregatorImports r.before (r.load.body.span.of source) t.importName).map ImportDeclaration.span

/-- The places that are rewritten. -/
def sites (r : Rewriting t source out) : Sites := ⟨r.load.body.span, r.fetch.span, r.imports⟩

/-- The edits that are made. -/
def edits (r : Rewriting t source out) : List Edit :=
  replacements source r.statement r.body r.load.body.span r.fetch.span r.imports

/-- The edit of the loading function. -/
def loadEdit (r : Rewriting t source out) : Edit := ⟨r.load.body.span, Utf8.encode r.body⟩

/-- The edit of the starting function. -/
def fetchEdit (r : Rewriting t source out) : Edit := ⟨r.fetch.span, Utf8.encode [';']⟩

/-- The line of the import, if it is written in front of the text. -/
def line (r : Rewriting t source out) : List Char :=
  if r.imports.isEmpty then r.statement ++ ['\n'] else []

/-- The place of a range in the rewritten text. -/
def place (r : Rewriting t source out) (p : Span) : Span :=
  ⟨byteCount r.line + (Edit.movedSpan r.edits p).start, byteCount r.line + (Edit.movedSpan r.edits p).stop⟩

/-- The text of a range with a part of it replaced. -/
def replaced (source : List Char) (p q : Span) (new : List Char) : List Char :=
  Span.of ⟨p.start, q.start⟩ source ++ new ++ Span.of ⟨q.stop, p.stop⟩ source

/-- The text that a function should have become: the loading function has a new body, and of the starting
function one statement is empty. -/
def text (r : Rewriting t source out) (f : FunctionDeclaration) : List Char :=
  if f = r.load then replaced source f.span r.load.body.span r.body
  else if f = r.init then replaced source f.span r.fetch.span [';']
  else f.span.of source

/-- The body of the loading function that was written is found in its place. -/
def LoaderStays (r : Rewriting t source out) : Prop :=
  (r.after.function? loadName).map (fun f => f.body.span) = some (r.place r.load.body.span)

/-- The functions are found in the places to which they were moved, and so is the body that was written. -/
structure StaysInPlace (r : Rewriting t source out) : Prop where
  functions : r.after.functions.map FunctionDeclaration.span =
    r.before.functions.map fun f => r.place f.span
  loadBody : r.LoaderStays

variable (r : Rewriting t source out)

/-- Everything that is rewritten has one meaning only. -/
theorem find_sites : Sites.find source t.importName = .ok r.sites := by
  obtain ⟨_, sites, _, _, _, -, hfind, -⟩ := rewrite_eq_ok_iff.mp r.rewritten
  obtain ⟨o, load, init, fetch, ho, hload, -, hinit, hfetch, rfl⟩ := Sites.find_eq_ok_iff.mp hfind
  obtain rfl := Option.some.inj (ho.symm.trans r.read_before)
  obtain rfl := Option.some.inj (hload.symm.trans r.function_load)
  obtain rfl := Option.some.inj (hinit.symm.trans r.function_init)
  obtain rfl := Option.some.inj (hfetch.symm.trans r.piece_fetch)
  exact hfind

/-- The rewritten text in segments of the source. -/
theorem exists_segments : ∃ segments behind, source = Segment.before segments behind ∧
    out = r.line ++ Segment.after segments behind ∧ (Segment.edits [] segments).Perm r.edits := by
  obtain ⟨statement, sites, body, segments, behind, hstatement, hfind, hbody, hsource, hout, hperm⟩ :=
    rewrite_eq_after r.rewritten
  obtain rfl := Except.ok.inj (hstatement.symm.trans r.importStatement_eq)
  obtain rfl := Except.ok.inj (hbody.symm.trans r.loaderBody_eq)
  obtain rfl := Except.ok.inj (hfind.symm.trans r.find_sites)
  exact ⟨segments, behind, hsource, hout, hperm⟩

theorem load_mem : r.load ∈ r.before.functions := (Outline.mem_functions_of_function? r.function_load).1

theorem init_mem : r.init ∈ r.before.functions := (Outline.mem_functions_of_function? r.function_init).1

theorem init_ne_load : r.init ≠ r.load := by
  intro heq
  have hload := (Outline.mem_functions_of_function? r.function_load).2
  have hinit := (Outline.mem_functions_of_function? r.function_init).2
  rw [heq, hload] at hinit
  exact absurd hinit (by decide)

theorem isPlaced {f : FunctionDeclaration} (hf : f ∈ r.before.functions) : Outline.IsPlaced source f :=
  (Outline.isPlacedOn_of_read? r.read_before).functions f hf

/-- The statement that fetches stands in the starting function. -/
theorem fetch_span : r.init.span.start ≤ r.init.body.span.start ∧
    r.init.body.span.start ≤ r.fetch.span.start ∧ r.fetch.span.stop ≤ r.init.span.stop := by
  have hplaced := r.isPlaced r.init_mem
  obtain ⟨-, hstart, hstop⟩ := hplaced.pieces r.fetch (List.mem_of_getElem? r.piece_fetch)
  exact ⟨hplaced.start, hstart, Nat.le_trans hstop hplaced.stop⟩

/-- Every edit takes at least one byte. -/
theorem lt_of_mem_edits {e : Edit} (he : e ∈ r.edits) : e.span.start < e.span.stop := by
  obtain ⟨hon, -⟩ := Sites.edits_of_find r.find_sites r.statement r.body
  rw [Sites.edits_eq] at hon
  exact (hon e he).1.start_lt

/-- Besides the edits of the two functions there are those of imports, which do not reach a function. -/
theorem exists_edits : ∃ others, r.edits = r.loadEdit :: r.fetchEdit :: others ∧
    ∀ e ∈ others, ∀ f ∈ r.before.functions, Outline.Apart e.span f.span := by
  refine ⟨(r.imports.take 1).map (fun p => ⟨p, Utf8.encode r.statement⟩) ++
    (r.imports.drop 1).map (fun p => ⟨withFeed source p, []⟩), rfl, fun e he f hf => ?_⟩
  have hspan : ∃ p ∈ r.imports, e.span = p ∨ e.span = withFeed source p := by
    simp only [List.mem_append, List.mem_map] at he
    rcases he with ⟨p, hp, rfl⟩ | ⟨p, hp, rfl⟩
    · exact ⟨p, List.mem_of_mem_take hp, Or.inl rfl⟩
    · exact ⟨p, List.mem_of_mem_drop hp, Or.inr rfl⟩
  obtain ⟨p, hp, hspan⟩ := hspan
  obtain ⟨i, hi, rfl⟩ := List.mem_map.mp hp
  have himport := List.mem_of_mem_filter hi
  have hapart := Outline.apart_of_mem_imports r.read_before himport hf
  rcases hspan with hspan | hspan
  · rw [hspan]
    exact hapart
  · obtain ⟨s, -, -, hholds⟩ := Outline.holds_of_mem_imports r.read_before himport
    rw [hspan]
    exact apart_withFeed hholds.isOn (r.isPlaced hf).isOn
      (Outline.head?_ne_of_mem_functions r.read_before hf) hapart

/-- Where no edit crosses its ends, a range is moved to the range of what becomes of it. -/
theorem exists_place {p : Span} (hp : p.IsOn source)
    (hcut : ∀ e ∈ r.edits, e.Spares p.start ∧ e.Spares p.stop) :
    ∃ u middle rest w x z, source = u ++ Segment.before middle rest ++ w ∧
      p = ⟨byteCount u, byteCount (u ++ Segment.before middle rest)⟩ ∧
      out = x ++ Segment.after middle rest ++ z ∧
      r.place p = ⟨byteCount x, byteCount (x ++ Segment.after middle rest)⟩ ∧
      (Segment.edits u middle).Perm (r.edits.filter (Edit.isInside p)) := by
  obtain ⟨segments, behind, hsource, hout, hperm⟩ := r.exists_segments
  rw [hsource] at hp
  obtain ⟨u, middle, rest, w, x, z, htext, hspan, hafter, hmoved, hinside⟩ :=
    Segment.exists_moved hperm (fun e he => r.lt_of_mem_edits he) hp hcut
  refine ⟨u, middle, rest, w, r.line ++ x, z, hsource.trans htext, hspan, ?_, ?_, hinside⟩
  · refine hout.trans ?_
    rw [hafter]
    simp only [List.append_assoc]
  · rw [place, hmoved]
    simp only [byteCount_append, Nat.add_assoc]

/-- A range without edits keeps its text. -/
theorem of_place_of_nil {p : Span} (hp : p.IsOn source)
    (hcut : ∀ e ∈ r.edits, e.Spares p.start ∧ e.Spares p.stop)
    (hnil : r.edits.filter (Edit.isInside p) = []) : (r.place p).of out = p.of source := by
  obtain ⟨u, middle, rest, w, x, z, hsource, hspan, hout, hplace, hinside⟩ := r.exists_place hp hcut
  rw [hnil] at hinside
  have hmiddle : middle = [] := by
    cases middle with
    | nil => rfl
    | cons g middle => exact absurd hinside.eq_nil (by simp [Segment.edits])
  subst hmiddle
  rw [hplace, Span.of_eq hout, hspan, Span.of_eq hsource]
  rfl

/-- A range with one edit keeps its text but for what the edit replaces. -/
theorem of_place_of_singleton {p q : Span} {new : List Char} (hp : p.IsOn source)
    (hcut : ∀ e ∈ r.edits, e.Spares p.start ∧ e.Spares p.stop)
    (hone : r.edits.filter (Edit.isInside p) = [⟨q, Utf8.encode new⟩]) :
    (r.place p).of out = replaced source p q new := by
  obtain ⟨u, middle, rest, w, x, z, hsource, hspan, hout, hplace, hinside⟩ := r.exists_place hp hcut
  rw [hone] at hinside
  have hedits := List.perm_singleton.mp hinside
  -- One edit makes one segment.
  obtain _ | ⟨⟨kept, old, new'⟩, _ | ⟨g, middle⟩⟩ := middle
  · cases hedits
  · obtain ⟨hq, hnew⟩ := Edit.mk.inj (List.cons.inj hedits).1
    obtain rfl : new = new' := (Utf8.encode_injective hnew).symm
    rw [hplace, Span.of_eq hout, replaced, hspan, ← hq]
    have hkept : source = u ++ kept ++ (old ++ rest ++ w) := by
      rw [hsource]
      simp only [Segment.before, List.append_assoc]
    have hrest : source = (u ++ kept ++ old) ++ rest ++ w := by
      rw [hsource]
      simp only [Segment.before, List.append_assoc]
    have hstop : u ++ Segment.before [⟨kept, old, new⟩] rest = u ++ kept ++ old ++ rest := by
      simp only [Segment.before, List.append_assoc]
    rw [hstop, Span.of_eq hkept, Span.of_eq hrest]
    simp only [Segment.after, List.append_assoc]
  · exact absurd (congrArg List.length hedits) (by simp [Segment.edits])

/-- Of the edits inside a range that the imports do not reach, only those of the two functions count. -/
theorem filter_edits {others : List Edit} (hedits : r.edits = r.loadEdit :: r.fetchEdit :: others) {p : Span}
    (hothers : ∀ e ∈ others, Outline.Apart e.span p) :
    r.edits.filter (Edit.isInside p) = [r.loadEdit, r.fetchEdit].filter (Edit.isInside p) := by
  have hnone : others.filter (Edit.isInside p) = [] := by
    refine List.filter_eq_nil_iff.mpr fun e he => ?_
    have hmem : e ∈ r.edits := hedits ▸ List.mem_cons_of_mem _ (List.mem_cons_of_mem _ he)
    rw [Edit.isInside_eq_false (r.lt_of_mem_edits hmem) (hothers e he)]
    exact Bool.false_ne_true
  have hsplit : r.edits = [r.loadEdit, r.fetchEdit] ++ others := hedits
  rw [hsplit, List.filter_append, hnone, List.append_nil]

/-- An edit in a function is inside it, and does not reach any other function. -/
theorem isInside_iff {f g : FunctionDeclaration} (hf : f ∈ r.before.functions)
    (hg : g ∈ r.before.functions) {e : Edit} (he : e ∈ r.edits) (hstart : g.span.start ≤ e.span.start)
    (hstop : e.span.stop ≤ g.span.stop) :
    (e.isInside f.span = true ↔ f = g) ∧ e.Spares f.span.start ∧ e.Spares f.span.stop := by
  by_cases hfg : f = g
  · subst hfg
    have hinside : e.isInside f.span = true := by simp [Edit.isInside, hstart, hstop]
    exact ⟨iff_of_true hinside rfl, Edit.spares_of_isInside hinside⟩
  · have hapart : Outline.Apart e.span f.span :=
      (Outline.apart_of_mem_functions r.read_before hg hf (Ne.symm hfg)).mono hstart hstop
        (Nat.le_refl _) (Nat.le_refl _)
    have houtside := Edit.isInside_eq_false (r.lt_of_mem_edits he) hapart
    refine ⟨iff_of_false (by simp [houtside]) hfg, ?_⟩
    exact Edit.spares_of_apart (Nat.le_of_lt (r.isPlaced hf).isOn.start_lt) hapart

/-- Where a function was moved stands the text that it should have become. -/
theorem of_place {f : FunctionDeclaration} (hf : f ∈ r.before.functions) :
    (r.place f.span).of out = r.text f := by
  obtain ⟨others, hedits, hothers⟩ := r.exists_edits
  have hfilter := r.filter_edits hedits fun e he => hothers e he f hf
  have hloadEdit : r.loadEdit ∈ r.edits := hedits ▸ List.mem_cons_self
  have hfetchEdit : r.fetchEdit ∈ r.edits := hedits ▸ List.mem_cons_of_mem _ List.mem_cons_self
  have hload := r.isPlaced r.load_mem
  obtain ⟨hle, hstart, hstop⟩ := r.fetch_span
  obtain ⟨hinLoad, hsparesLoad⟩ := r.isInside_iff hf r.load_mem hloadEdit hload.start hload.stop
  obtain ⟨hinInit, hsparesInit⟩ :=
    r.isInside_iff hf r.init_mem hfetchEdit (Nat.le_trans hle hstart) hstop
  have hon := (r.isPlaced hf).isOn
  -- The two edits in functions lie in their function, and the others apart from all functions.
  have hcut : ∀ e ∈ r.edits, e.Spares f.span.start ∧ e.Spares f.span.stop := by
    intro e he
    rw [hedits] at he
    rcases List.mem_cons.mp he with rfl | he
    · exact hsparesLoad
    rcases List.mem_cons.mp he with rfl | he
    · exact hsparesInit
    · exact Edit.spares_of_apart (Nat.le_of_lt hon.start_lt) (hothers e he f hf)
  -- One edit is inside if the function is one of the two, and none otherwise.
  rw [text]
  split
  · next heq =>
      have hne : ¬ f = r.init := fun hinit => r.init_ne_load (hinit.symm.trans heq)
      refine r.of_place_of_singleton hon hcut (hfilter.trans ?_)
      rw [List.filter_cons_of_pos (hinLoad.mpr heq), List.filter_cons_of_neg (mt hinInit.mp hne)]
      rfl
  · next hne =>
      rw [List.filter_cons_of_neg (mt hinLoad.mp hne)] at hfilter
      split
      · next heq =>
          refine r.of_place_of_singleton hon hcut (hfilter.trans ?_)
          rw [List.filter_cons_of_pos (hinInit.mpr heq)]
          rfl
      · next hne' =>
          refine r.of_place_of_nil hon hcut (hfilter.trans ?_)
          rw [List.filter_cons_of_neg (mt hinInit.mp hne')]
          rfl

/-- Where a replaced range was moved stands what it was replaced by. -/
theorem of_place_of_mem_edits {p : Span} {new : List Char} (h : ⟨p, Utf8.encode new⟩ ∈ r.edits) :
    (r.place p).of out = new := by
  obtain ⟨hon, hapart⟩ := Sites.edits_of_find r.find_sites r.statement r.body
  rw [Sites.edits_eq] at hon hapart
  obtain ⟨hone, hcut⟩ := Edit.filter_isInside_of_mem (fun e he => r.lt_of_mem_edits he) hapart h
  rw [r.of_place_of_singleton (hon _ h).1 hcut hone, replaced, Span.of_self, Span.of_self, List.nil_append,
    List.append_nil]

/-- Where the body of the loading function was moved stands the body that was written. -/
theorem of_place_loadBody : (r.place r.load.body.span).of out = r.body :=
  r.of_place_of_mem_edits List.mem_cons_self

/-- What a function should have become begins like the function up to its body. -/
theorem isPrefix_text {f : FunctionDeclaration} (hf : f ∈ r.before.functions) :
    Span.of ⟨f.span.start, f.body.span.start⟩ source <+: r.text f := by
  have hplaced := r.isPlaced hf
  rw [text]
  split
  · next heq =>
      rw [replaced, List.append_assoc, heq]
      exact List.prefix_append _ _
  · split
    · next heq =>
        obtain ⟨-, hstart, -⟩ := r.fetch_span
        rw [replaced, List.append_assoc, heq]
        exact (Span.isPrefix_of hstart source).trans (List.prefix_append _ _)
    · exact Span.isPrefix_of (Nat.le_trans (Nat.le_of_lt hplaced.body.start_lt) hplaced.stop) source

/-! ## What is found in its place -/

/-- The functions of the rewritten text are those of the source, in their order, with their kinds and names
and with the texts that they should have become. -/
structure KeepsFunctions (r : Rewriting t source out) : Prop where
  functions : r.after.functions.map (fun f => (f.kind, f.name, f.span.of out)) =
    r.before.functions.map fun f => (f.kind, f.name, r.text f)
  loadBody : (r.after.function? loadName).map (fun f => f.body.span.of out) = some r.body

/-- The body that is found in its place is the one that was written. -/
theorem exists_load_of_loaderStays (h : r.LoaderStays) :
    ∃ load, r.after.function? loadName = some load ∧ load.body.span.of out = r.body := by
  obtain ⟨load, hload, hspan⟩ := Option.map_eq_some_iff.mp h
  exact ⟨load, hload, by rw [hspan, r.of_place_loadBody]⟩

/-- Functions that are found in the places to which they were moved are the functions of the source. -/
theorem keepsFunctions (h : r.StaysInPlace) : r.KeepsFunctions := by
  constructor
  · refine map_eq_map_of_forall h.functions fun f' hf' f hf hspan => ?_
    have htext : f'.span.of out = r.text f := by rw [hspan, r.of_place hf]
    obtain ⟨-, hgenerator, hname⟩ := Outline.heading_eq_of_isPrefix r.read_before r.read_after hf hf'
      (htext ▸ r.isPrefix_text hf)
    rw [FunctionDeclaration.kind, FunctionDeclaration.kind, hgenerator, hname, htext]
  · obtain ⟨load, hload, hbody⟩ := r.exists_load_of_loaderStays h.loadBody
    rw [hload, Option.map_some, hbody]

/-- Functions that are found in their places have the names of those of the source. -/
theorem names_of_staysInPlace (h : r.StaysInPlace) :
    r.after.functions.map FunctionDeclaration.name = r.before.functions.map FunctionDeclaration.name := by
  have hnames :=
    congrArg (List.map fun x : Kind × List Char × List Char => x.2.1) (r.keepsFunctions h).functions
  rw [List.map_map, List.map_map] at hnames
  exact hnames

/-- The loading function that is rewritten is an async one. -/
theorem isAsync_load : r.load.isAsync = true := by
  obtain ⟨o, load, -, -, ho, hload, hasync, -⟩ := Sites.find_eq_ok_iff.mp r.find_sites
  obtain rfl := Option.some.inj (ho.symm.trans r.read_before)
  obtain rfl := Option.some.inj (hload.symm.trans r.function_load)
  exact hasync

/-- The loading function that is found is the one that was moved. -/
theorem exists_load_of_staysInPlace (h : r.StaysInPlace) :
    ∃ load, r.after.function? loadName = some load ∧ load.isAsync = true ∧
      load.span = r.place r.load.span ∧ load.body.span = r.place r.load.body.span := by
  obtain ⟨load, hload, hbody⟩ := Option.map_eq_some_iff.mp h.loadBody
  have hpairs : r.after.functions.map (fun f => (f.name, f.span)) =
      r.before.functions.map fun f => (f.name, r.place f.span) := by
    rw [← List.zip_map', ← List.zip_map', r.names_of_staysInPlace h, h.functions]
  have hfirst := congrArg (List.find? fun x : List Char × Span => x.1 == loadName) hpairs
  rw [List.find?_map, List.find?_map] at hfirst
  have hspan : (r.after.function? loadName).map (fun f => (f.name, f.span)) =
      (r.before.function? loadName).map fun f => (f.name, r.place f.span) := hfirst
  rw [hload, r.function_load] at hspan
  have hplace : load.span = r.place r.load.span := (Prod.mk.inj (Option.some.inj hspan)).2
  -- It begins like the one of the source.
  have hfront : Span.of ⟨r.load.span.start, r.load.body.span.start⟩ source <+: load.span.of out := by
    rw [hplace, r.of_place r.load_mem]
    exact r.isPrefix_text r.load_mem
  obtain ⟨hasync, -⟩ := Outline.heading_eq_of_isPrefix r.read_before r.read_after r.load_mem
    (Outline.mem_functions_of_function? hload).1 hfront
  exact ⟨load, hload, hasync ▸ r.isAsync_load, hplace, hbody⟩

end Rewriting

end WasmEmbed.Binding
