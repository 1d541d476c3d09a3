import WasmEmbed.Proofs.Binding.Again
import WasmEmbed.Proofs.Build.Inputs
import WasmEmbed.Proofs.Path.Relative
import WasmEmbed.Proofs.Shard.Assembly

/-!
# What a build embeds

A build that returns has written its payload: the strings that the aggregator adds up are the chunks of
the text of the payload, and the specifier that was written into the binding leads to the aggregator. What
a reader makes of the binding is another matter. The text is read anew, and where an import was dropped,
the text in front of it and the text behind it may come to mean something else together. So the binding
reaches its payload exactly if its import and its loading function are read back (`bundle_embeds_iff`).
-/

namespace WasmEmbed

/-! ## Reading shards back from a store -/

namespace Store

/-- The text of a file. -/
def text? (s : Store) (l : Location) : Option (List Char) :=
  match s.get? l with
  | some (.file content) => (Text.Utf8.decode content).toOption
  | _ => none

theorem text?_of_get? {s : Store} {l : Location} {text : List Char}
    (h : s.get? l = some (.file (Text.Utf8.encode text))) : s.text? l = some text := by
  simp only [text?, h, Text.Utf8.decode_encode]
  rfl

/-- The string that the function of a shard returns, by the name under which the aggregator imports it. -/
def shardString? (s : Store) (d : Location) (shards : List (Name × Name)) (name : Name) :
    Option (List Char) := do
  Shard.literal? (← s.text? (d ++ [← shards.lookup name]))

/-- The strings that the aggregator in a directory adds up, in order. -/
def summands? (s : Store) (d : Location) (index : Name) : Option (List (List Char)) := do
  let (shards, names) ← Shard.assembly? (← s.text? (d ++ [index]))
  names.mapM (s.shardString? d shards)

end Store

namespace Build

open Store

variable {n : ShardNaming} {cwd : Location} {s : Store} {d : Location} {c : Config}

/-- A list is what a step answers along the numbers of its members if it answers each of them. -/
theorem mapM_range {α : Type} {f : Nat → Option α} {xs : List α}
    (h : ∀ i x, xs[i]? = some x → f i = some x) : (List.range xs.length).mapM f = some xs := by
  induction xs generalizing f with
  | nil => rfl
  | cons x rest ih =>
      have hrest : (List.range rest.length).mapM (f ∘ Nat.succ) = some rest :=
        ih fun i y hy => h (i + 1) y hy
      rw [List.length_cons, List.range_succ_eq_map, List.mapM_cons, h 0 x rfl, List.mapM_map]
      show (do let ys ← (List.range rest.length).mapM (f ∘ Nat.succ); pure (x :: ys)) = _
      rw [hrest]
      rfl

/-- Where the shards of chunks and their aggregator stand, the aggregator adds up the chunks. -/
theorem summands?_of_written (hn : n.IsValid) {chunks : List (List Char)}
    (hchunks : ∀ chunk ∈ chunks, ∀ x ∈ chunk, Payload.Base64.isAllowed x = true)
    (hshards : ∀ i chunk, chunks[i]? = some chunk →
      s.get? (d ++ [n.file i]) = (shardWrite n d i chunk).entry)
    (hindex : s.get? (d ++ [n.index]) = (indexWrite n d chunks.length).entry) :
    s.summands? d n.index = some chunks := by
  let names := (List.range chunks.length).map n.stem
  let shards := names.map fun name => (name, Shard.withExtension name n.extension)
  -- The aggregator is read back, and then the string of each shard that it imports.
  have hassembly : Shard.assembly? (Shard.aggregator names n.extension) = some (shards, names) := by
    refine Shard.assembly?_aggregator ?_ (Shard.isIdentifierPart_of_isExtension hn.extension)
    intro name hname
    obtain ⟨i, -, rfl⟩ := List.mem_map.mp hname
    exact Shard.isIdentifierPart_of_mem_stem hn.start i
  have hstring : ∀ i chunk, chunks[i]? = some chunk →
      s.shardString? d shards (n.stem i) = some chunk := by
    intro i chunk hchunk
    have hmem : n.stem i ∈ names :=
      List.mem_map_of_mem (List.mem_range.mpr (List.getElem?_eq_some_iff.mp hchunk).1)
    have hfile : shards.lookup (n.stem i) = some (n.file i) := List.lookup_graph _ hmem
    rw [Store.shardString?, hfile]
    show ((s.text? (d ++ [n.file i])).bind fun text => Shard.literal? text) = some chunk
    rw [text?_of_get? (hshards i chunk hchunk)]
    exact Shard.literal?_script (hchunks chunk (List.mem_of_getElem? hchunk))
  have hsum : names.mapM (s.shardString? d shards) = some chunks := by
    rw [List.mapM_map]
    exact mapM_range hstring
  rw [Store.summands?, text?_of_get? hindex]
  show ((Shard.assembly? (Shard.aggregator names n.extension)).bind fun
    (shards, names) => names.mapM (s.shardString? d shards)) = some chunks
  rw [hassembly]
  exact hsum

/-! ## What a build that returns has written -/

/-- A build that returns was given a config that passes its check, and two files. -/
theorem inputs_of_bundle_eq_ok {result : BundleResult} (h : (run (bundle c) cwd s).result = .ok result) :
    c.check = .ok () ∧ s.isFile cwd c.payload = true ∧ s.isFile cwd c.binding = true := by
  have hfails : ∀ {e}, ¬ Ends (bundle c) cwd s (.error e) [] := by
    intro e hends
    rw [hends.outcome.1] at h
    cases h
  cases hcheck : c.check with
  | error e =>
      refine absurd ?_ (hfails (e := .config e))
      rw [bundle, hcheck]
      exact (Ends.require_error _ e).bind_error
  | ok u =>
      refine ⟨rfl, ?_⟩
      by_contra hfiles
      obtain ⟨e, hends⟩ := exists_ends_bundle_error hcheck hfiles
      exact hfails hends

/-- The changes of a build that returns: it makes the directory of the shards, follows the plan to its
end, and writes the binding to a place that no change of the plan concerns. -/
theorem exists_ends_of_bundle_eq_ok {result : BundleResult}
    (h : (run (bundle c) cwd s).result = .ok result) :
    ∃ payload chunks made removes source out,
      s.find? cwd c.payload = some (.file payload) ∧
      Shard.split c.maxShardChars (Payload.encode c.compress payload) = .ok chunks ∧
      Ends (makeDirectories c.outputDir) cwd s (.ok ()) made ∧
      IsRemoval c.naming (target cwd c.outputDir) chunks.length (s.replay made) removes ∧
      Binding.rewrite (c.target cwd) (Text.unifyLineEnds source) = .ok out ∧
      result = ⟨shardSet c.naming c.outputDir chunks (Payload.encode c.compress payload), c.binding,
        payload.length, (Payload.encode c.compress payload).length⟩ ∧
      (∀ change ∈ plan c.naming (target cwd c.outputDir) chunks removes,
        change.place ≠ target cwd c.binding) ∧
      Ends (bundle c) cwd s (.ok result)
        (made ++ plan c.naming (target cwd c.outputDir) chunks removes ++
          [.write (target cwd c.binding) (Text.Utf8.encode out)]) := by
  obtain ⟨hcheck, hpayload, hbinding⟩ := inputs_of_bundle_eq_ok h
  obtain ⟨payload, hlocate, hcontent⟩ := isFile_iff_exists.mp hpayload
  obtain ⟨chunks, hsplit, -, -, hchunks⟩ := exists_split_payload hcheck payload
  have hn := Config.isValid_naming hcheck
  -- The build returned, so no stage of it failed.
  have hfails : ∀ {e changes}, ¬ Ends (bundle c) cwd s (.error e) changes := by
    intro e changes hends
    rw [hends.outcome.1] at h
    cases h
  obtain ⟨r, made, hmade, -, hcase⟩ := exists_ends_writeShards hn cwd s c.outputDir hsplit hchunks
  rcases hcase with ⟨e, rfl, hends⟩ | ⟨d, removes, r', rfl, hdir, -, hremoves, hends, hr'⟩
  · obtain ⟨e', hbundle⟩ :=
      (bundle_ends hcheck hlocate hcontent hbinding hends (by simp)).resolve_right (by simp)
    exact absurd hbundle hfails
  · obtain rfl := locate_eq_ok hdir
    have hindex : ∀ shards, r' = .ok shards → shards.index = c.aggregatorPath := by
      intro shards hshards
      rw [((hr' shards).mp hshards).2]
      rfl
    rcases bundle_ends hcheck hlocate hcontent hbinding hends hindex with
      ⟨e, hbundle⟩ | ⟨shards, after, source, out, rfl, hafter, hdecode, hrewrite, hbundle⟩
    · exact absurd hbundle hfails
    · have hall := List.all_eq_true.mp ((hr' shards).mp rfl).1
      have hallows := (allows_append.mp hends.allows).2
      rw [replay_append] at hafter
      -- What was read as the binding could be rewritten, which no file of the plan can be.
      have hapart := place_ne_of_rewrite hn hchunks hremoves hallows hafter hdecode hrewrite
      rw [List.takeWhile_eq_self_iff.mpr hall] at hbundle hapart
      obtain rfl := Except.ok.inj (h.symm.trans hbundle.outcome.1)
      have hfind : s.find? cwd c.payload = some (.file payload) := by
        rw [find?, hlocate]
        exact hcontent
      obtain rfl := ((hr' shards).mp rfl).2
      exact ⟨payload, chunks, made, removes, source, out, hfind, hsplit, hmade, hremoves, hrewrite, rfl,
        hapart, hbundle⟩

/-- Only the last change of a build that returns concerns the binding, so what the plan wrote and removed
stays so. -/
theorem get?_replay_of_mem_plan {l : Location} {content : List UInt8} {chunks : List (List Char)}
    {made removes : List Change}
    (hremoves : IsRemoval n d chunks.length (s.replay made) removes)
    (hallows : s.Allows (made ++ plan n d chunks removes ++ [.write l content]))
    (hapart : ∀ change ∈ plan n d chunks removes, change.place ≠ l) {change : Change}
    (hmem : change ∈ plan n d chunks removes) :
    (s.replay (made ++ plan n d chunks removes ++ [.write l content])).get? change.place = change.entry := by
  obtain ⟨hfront, -⟩ := allows_append.mp hallows
  obtain ⟨-, hplan⟩ := allows_append.mp hfront
  rw [get?_replay_write hallows, if_neg (hapart change hmem), replay_append]
  exact get?_replay_of_mem hplan (pairwise_plan hremoves) hmem

/-- A build that returns has written the chunks of the payload, and a binding that was rewritten. -/
theorem bundle_writes {result : BundleResult} (h : (run (bundle c) cwd s).result = .ok result) :
    ∃ payload source out, s.find? cwd c.payload = some (.file payload) ∧
      Binding.rewrite (c.target cwd) source = .ok out ∧
      (run (bundle c) cwd s).store.text? (target cwd c.binding) = some out ∧
      ∃ chunks,
        (run (bundle c) cwd s).store.summands? (target cwd c.outputDir) c.naming.index = some chunks ∧
        chunks.flatten = Payload.encode c.compress payload ∧
        ∀ chunk ∈ chunks, 1 ≤ chunk.length ∧ (chunk.length : Int) ≤ c.maxShardChars := by
  obtain ⟨payload, chunks, made, removes, source, out, hfind, hsplit, -, hremoves, hrewrite, -, hapart,
    hends⟩ := exists_ends_of_bundle_eq_ok h
  have hcheck := (inputs_of_bundle_eq_ok h).1
  obtain ⟨chunks', hsplit', hflatten, hlengths, hchunks⟩ := exists_split_payload hcheck payload
  obtain rfl : chunks' = chunks := Except.ok.inj (hsplit'.symm.trans hsplit)
  obtain ⟨-, -, hstore⟩ := hends.outcome
  have hwritten : ∀ change ∈ plan c.naming (target cwd c.outputDir) chunks' removes,
      (run (bundle c) cwd s).store.get? change.place = change.entry := by
    intro change hchange
    rw [hstore]
    exact get?_replay_of_mem_plan hremoves hends.allows hapart hchange
  refine ⟨payload, _, out, hfind, hrewrite, text?_of_get? ?_, chunks', ?_, hflatten, hlengths⟩
  · rw [hstore, get?_replay_write hends.allows, if_pos rfl]
  · refine summands?_of_written (Config.isValid_naming hcheck) hchunks (fun i chunk hchunk => ?_) ?_
    · exact hwritten (shardWrite c.naming (target cwd c.outputDir) i chunk)
        ((mem_plan hremoves).mpr (Or.inl ⟨i, chunk, hchunk, rfl⟩))
    · exact hwritten (indexWrite c.naming (target cwd c.outputDir) chunks'.length)
        ((mem_plan hremoves).mpr (Or.inr (Or.inr rfl)))

/-! ## Where the specifier leads -/

theorem place_eq_target (hcwd : ∀ name ∈ cwd, Path.IsPlain name) (p : Path) :
    Path.place ⟨.root, cwd⟩ p = target cwd p := by
  have hhere : cwd.foldl Path.descend [] = cwd :=
    Path.walk_of_forall_ne fun name hname => (hcwd name hname).ne_parent
  rw [Path.place, Path.join, target, walk]
  cases p.isAbsolute with
  | true => rfl
  | false =>
      show (cwd ++ p.names).foldl Path.descend [] = p.names.foldl Path.descend cwd
      rw [List.foldl_append, hhere]

/-- The specifier of a build leads from the directory of its binding to its aggregator. -/
theorem place_specifier_target (hcheck : c.check = .ok ()) (hcwd : ∀ name ∈ cwd, Path.IsPlain name)
    (hdir : c.outputDir.IsProper) :
    Path.place ⟨.root, cwd⟩ (c.binding.parent.join (.ofText (c.target cwd).specifier)) =
      target cwd c.outputDir ++ [c.naming.index] := by
  have hindex : Path.IsPlain c.naming.index := Shard.isPlain_index (Config.isValid_naming hcheck).extension
  have hpath : c.aggregatorPath = c.outputDir.child c.naming.index := rfl
  have hproper : c.aggregatorPath.IsProper := by
    intro name hname
    rw [hpath, Path.names_child hindex] at hname
    rcases List.mem_append.mp hname with hname | hname
    · exact hdir name hname
    · rw [List.mem_singleton.mp hname]
      exact hindex.isReadable
  have hhere : (Path.mk .root cwd).IsProper := fun name hname => (hcwd name hname).isReadable
  show Path.place _ (c.binding.parent.join (.ofText (Path.specifier _ _ c.aggregatorPath))) = _
  rw [Path.place_specifier hhere hproper, hpath, Path.place_child _ _ hindex, place_eq_target hcwd]

/-! ## What the binding reaches -/

/-- The imports of the default of a script under a name. -/
def importsUnder (o : Script.Outline) (name : Name) : List Script.ImportDeclaration :=
  o.imports.filter fun i => i.defaultName == some name

/-- A binding with this outline reaches the aggregator: its only import under the name of the module leads
from its directory to the aggregator, and its loading function is the one that inflates the module
exactly if the module is compressed. -/
structure ReachesAggregator (c : Config) (cwd : Location) (text : List Char) (o : Script.Outline) :
    Prop where
  aggregator : ∃ i, importsUnder o c.importName = [i] ∧
    Path.place ⟨.root, cwd⟩ (c.binding.parent.join (.ofText i.specifier)) =
      target cwd c.outputDir ++ [c.naming.index]
  loading : ∃ load ∈ o.function? Binding.loadName, ∀ compressed,
    Binding.loaderBody compressed c.importName = .ok (load.body.span.of text) ↔ compressed = c.compress

/-- The aggregator of a build adds up the text of a payload, from strings that are not too long. -/
def AddsUp (c : Config) (cwd : Location) (s : Store) (payload : List UInt8) : Prop :=
  ∃ chunks, s.summands? (target cwd c.outputDir) c.naming.index = some chunks ∧
    chunks.flatten = Payload.encode c.compress payload ∧
    ∀ chunk ∈ chunks, 1 ≤ chunk.length ∧ (chunk.length : Int) ≤ c.maxShardChars

/-- In a store, the binding of a build reaches a payload. -/
structure Embeds (c : Config) (cwd : Location) (s : Store) (payload : List UInt8) : Prop where
  binding : ∃ text o, s.text? (target cwd c.binding) = some text ∧
    Script.Outline.read? text = some o ∧ ReachesAggregator c cwd text o
  payload : AddsUp c cwd s payload

/-- In the text of a binding, what was written for a target is read back: its only import under the name
of the module names what the target names, and its loading function is the one that was written. -/
structure ReadsBack (t : Binding.Target) (cwd : Location) (binding : Path) (text : List Char)
    (o : Script.Outline) : Prop where
  aggregator : ∃ i, importsUnder o t.importName = [i] ∧
    Path.place ⟨.root, cwd⟩ (binding.parent.join (.ofText i.specifier)) =
      Path.place ⟨.root, cwd⟩ (binding.parent.join (.ofText t.specifier))
  loading : ∃ load ∈ o.function? Binding.loadName,
    Binding.loaderBody t.compressed t.importName = .ok (load.body.span.of text)

/-- What was written for a build reaches its aggregator exactly if it is read back. -/
theorem reachesAggregator_iff (hcheck : c.check = .ok ()) (hcwd : ∀ name ∈ cwd, Path.IsPlain name)
    (hdir : c.outputDir.IsProper) {text : List Char} {o : Script.Outline} :
    ReachesAggregator c cwd text o ↔ ReadsBack (c.target cwd) cwd c.binding text o := by
  have hplace := place_specifier_target hcheck hcwd hdir
  constructor
  · rintro ⟨⟨i, himport, hleads⟩, load, hload, hbody⟩
    exact ⟨⟨i, himport, hleads.trans hplace.symm⟩, load, hload, (hbody c.compress).mpr rfl⟩
  · rintro ⟨⟨i, himport, hleads⟩, load, hload, hbody⟩
    refine ⟨⟨i, himport, hleads.trans hplace⟩, load, hload, fun compressed => ⟨fun hother => ?_, ?_⟩⟩
    · have hname := Binding.isBraceFree_of_isIdentifier (Config.check_eq_ok_iff.mp hcheck).2.1
      exact Binding.loaderBody_injective hname hother hbody
    · rintro rfl
      exact hbody

/-- What was written into a binding is read back if its imports and the body of its loading function are
found in their places. -/
theorem readsBack_of_stays {t : Binding.Target} {source text : List Char}
    (r : Binding.Rewriting t source text)
    (hname : isIdentifier t.importName = true) (hloader : r.LoaderStays) (himports : r.ImportsStay)
    (binding : Path) : ReadsBack t cwd binding text r.after := by
  obtain ⟨load, hload, hbody⟩ := r.exists_load_of_loaderStays hloader
  have hclaimed : ∀ i ∈ Binding.importsNamed r.before [t.importName], i ∈ r.claimed :=
    fun i hi => r.mem_claimed (by simp [Binding.Rewriting.names]) hi
  obtain ⟨i, hi, -, hclause⟩ := r.exists_importsNamed himports hname List.mem_cons_self hclaimed
  have hunder : importsUnder r.after t.importName = Binding.importsNamed r.after [t.importName] := by
    refine List.filter_congr fun j _ => Bool.eq_iff_iff.mpr ?_
    cases j.defaultName <;> simp
  have hspecifier : i.specifier = t.specifier := congrArg Script.Clause.specifier hclause
  exact ⟨⟨i, hunder.trans hi, by rw [hspecifier]⟩, load, hload, by rw [hbody, r.loaderBody_eq]⟩

/-- A build that returns has written the whole payload, and its binding reaches the payload exactly if
what was written into the binding is read back. It is read back if the imports and the body of the loading
function are found in the places where they were written or to which they were moved. -/
theorem bundle_embeds_iff (hcwd : ∀ name ∈ cwd, Path.IsPlain name) (hdir : c.outputDir.IsProper)
    {result : BundleResult} (h : (run (bundle c) cwd s).result = .ok result) :
    ∃ payload source text, ∃ r : Binding.Rewriting (c.target cwd) source text,
      s.find? cwd c.payload = some (.file payload) ∧
      (run (bundle c) cwd s).store.text? (target cwd c.binding) = some text ∧
      AddsUp c cwd (run (bundle c) cwd s).store payload ∧
      (Embeds c cwd (run (bundle c) cwd s).store payload ↔
        ReadsBack (c.target cwd) cwd c.binding text r.after) ∧
      (r.LoaderStays → r.ImportsStay → ReadsBack (c.target cwd) cwd c.binding text r.after) := by
  obtain ⟨payload, source, text, hfind, hrewrite, htext, hsum⟩ := bundle_writes h
  obtain ⟨r⟩ := Binding.exists_rewriting hrewrite
  have hcheck := (inputs_of_bundle_eq_ok h).1
  have hname := (Config.check_eq_ok_iff.mp hcheck).2.1
  refine ⟨payload, source, text, r, hfind, htext, hsum, ?_, fun hloader himports =>
    readsBack_of_stays r hname hloader himports c.binding⟩
  rw [← reachesAggregator_iff hcheck hcwd hdir]
  constructor
  · rintro ⟨⟨text', o', htext', ho', hreaches⟩, -⟩
    obtain rfl : text = text' := Option.some.inj (htext.symm.trans htext')
    obtain rfl : r.after = o' := Option.some.inj (r.read_after.symm.trans ho')
    exact hreaches
  · exact fun hreaches => ⟨⟨text, r.after, htext, r.read_after, hreaches⟩, hsum⟩

/-! ## A build that embeds its payload and one that does not -/

/-- A build returns if the directory of its shards can be made, nothing is in the way of their files, they
spare the binding, and the binding can be rewritten. -/
theorem bundle_returns (hcheck : c.check = .ok ()) {payload before : List UInt8}
    (hpayload : s.find? cwd c.payload = some (.file payload))
    (hbinding : s.find? cwd c.binding = some (.file before)) {chunks : List (List Char)}
    (hsplit : Shard.split c.maxShardChars (Payload.encode c.compress payload) = .ok chunks) {s₁ : Store}
    (hmade : (run (makeDirectories c.outputDir) cwd s).result = .ok ())
    (hstore : (run (makeDirectories c.outputDir) cwd s).store = s₁)
    (hreach : Reaches c.naming s₁ (target cwd c.outputDir) chunks.length)
    (hindex : s₁.get? (target cwd c.outputDir ++ [c.naming.index]) ≠ some .directory)
    (hspares : Spares c.naming s₁ (target cwd c.outputDir) chunks (target cwd c.binding))
    {source out : List Char} (hdecode : Text.Utf8.decode before = .ok source)
    (hrewrite : Binding.rewrite (c.target cwd) (Text.unifyLineEnds source) = .ok out) :
    ∃ result, (run (bundle c) cwd s).result = .ok result ∧
      (run (bundle c) cwd s).store.text? (target cwd c.binding) = some out := by
  have hfile : ∀ {path content}, s.find? cwd path = some (.file content) → s.isFile cwd path = true ∧
      s.locate cwd path = .ok (target cwd path) ∧ s.get? (target cwd path) = some (.file content) := by
    intro path content hfind
    have hisFile : s.isFile cwd path = true := by rw [isFile, hfind]
    obtain ⟨content', hlocate, hcontent⟩ := isFile_iff_exists.mp hisFile
    rw [find?, hlocate] at hfind
    exact ⟨hisFile, hlocate, hfind⟩
  obtain ⟨-, hlocate, hcontent⟩ := hfile hpayload
  obtain ⟨hisFile, -, hbefore⟩ := hfile hbinding
  have hn := Config.isValid_naming hcheck
  obtain ⟨chunks', hsplit', -, -, hchunks⟩ := exists_split_payload hcheck payload
  obtain rfl : chunks = chunks' := Except.ok.inj (hsplit.symm.trans hsplit')
  obtain ⟨r, made, hmakes, honly, hcase⟩ := exists_ends_writeShards hn cwd s c.outputDir hsplit hchunks
  obtain ⟨hresult, -, hafter⟩ := hmakes.outcome
  obtain rfl := hafter.symm.trans hstore
  rcases hcase with ⟨e, rfl, -⟩ | ⟨d, removes, r', rfl, hdir, -, hremoves, hends, hr'⟩
  · rw [hresult] at hmade
    cases hmade
  · obtain rfl := locate_eq_ok hdir
    -- Nothing is in the way of the plan, so it is followed to its end.
    have hfree : (plan c.naming (target cwd c.outputDir) chunks removes).all
        (isFree (s.replay made)) = true := by
      rw [plan, List.all_append, List.all_append, List.all_eq_true.mpr (isFree_of_mem_removal hremoves),
        (all_shardWrites 0 chunks).mpr fun i hi => by rw [Nat.zero_add]; exact hreach i hi]
      simpa [isFree, indexWrite, Change.place] using hindex
    obtain rfl := (hr' _).mpr ⟨hfree, rfl⟩
    obtain ⟨-, hallows⟩ := allows_append.mp hends.allows
    have hbefore₁ := honly.get?_replay hmakes.allows hbefore
    -- The plan spares the binding, which is therefore read as it was before.
    have hkept := (get?_replay_plan_iff hremoves hallows hbefore₁).mpr hspares
    rw [hbefore₁, ← replay_append] at hkept
    have hbundle := Ends.bundle hcheck hlocate hcontent hisFile hends rfl hkept hdecode hrewrite
    refine ⟨_, hbundle.outcome.1, text?_of_get? ?_⟩
    rw [hbundle.outcome.2.2, replay_append, replay_cons, replay_nil,
      get?_apply (allows_append.mp hbundle.allows).2.1]
    exact if_pos rfl

namespace Sample

/-- A build with a short name for the import. -/
def embedding : Config := { config "p" "b.js" "w" with importName := "w".toList }

/-- A payload of one byte, and a binding. -/
def stored (source : List Char) : Store :=
  ⟨[(["p".toList], .file [104]), (["b.js".toList], .file (Text.Utf8.encode source))]⟩

theorem check_embedding : embedding.check = .ok () := by decide

theorem target_embedding : embedding.target [] = Binding.Sample.target := by decide +kernel

theorem unifyLineEnds_source_ended :
    Text.unifyLineEnds (Binding.Sample.source "a;b;c;") = Binding.Sample.source "a;b;c;" := by
  decide +kernel

/-- The sample build returns if its directory is made and the binding can be rewritten. -/
theorem bundle_embedding {source out : List Char}
    (hrewrite : Binding.rewrite Binding.Sample.target (Text.unifyLineEnds source) = .ok out)
    (hmade : (run (makeDirectories embedding.outputDir) [] (stored source)).result = .ok ())
    (hfree : ∀ name ∈ [embedding.naming.file 0, embedding.naming.index],
      (run (makeDirectories embedding.outputDir) [] (stored source)).store.get? ["w".toList, name] = none) :
    ∃ result, (run (bundle embedding) [] (stored source)).result = .ok result ∧
      (run (bundle embedding) [] (stored source)).store.text? ["b.js".toList] = some out := by
  have hsplit : Shard.split embedding.maxShardChars (Payload.encode embedding.compress [104]) =
      .ok ["aA==".toList] := by decide +kernel
  have hdir : target [] embedding.outputDir = ["w".toList] := by decide
  have hbinding : target [] embedding.binding = ["b.js".toList] := by decide
  rw [← target_embedding] at hrewrite
  rw [← hbinding]
  refine bundle_returns check_embedding rfl rfl hsplit hmade rfl ?_ ?_ ?_ (Text.Utf8.decode_encode source)
    hrewrite
  · intro i hi
    obtain rfl : i = 0 := Nat.lt_one_iff.mp hi
    rw [hdir]
    exact (hfree (embedding.naming.file 0) (by simp)).trans_ne (by simp)
  · rw [hdir]
    exact (hfree embedding.naming.index (by simp)).trans_ne (by simp)
  · refine spares_of_outside (fun name hname => ?_) _
    rw [hdir, hbinding] at hname
    exact absurd (congrArg List.length hname) (by simp)

/-- The build of the binding whose statements end in semicolons returns. -/
theorem exists_result_ended : ∃ result,
    (run (bundle embedding) [] (stored (Binding.Sample.source "a;b;c;"))).result = .ok result ∧
    (run (bundle embedding) [] (stored (Binding.Sample.source "a;b;c;"))).store.text? ["b.js".toList] =
      some (Binding.Sample.rewritten Binding.Sample.target "a;b;;") := by
  have hrewrite := Binding.Sample.rewrite_source_ended
  rw [← unifyLineEnds_source_ended] at hrewrite
  exact bundle_embedding hrewrite (by decide +kernel) (by decide +kernel)

end Sample

/-- The loading function is read back. -/
theorem bundle_embeds_ended : ∃ result,
    (run (bundle Sample.embedding) [] (Sample.stored (Binding.Sample.source "a;b;c;"))).result =
      .ok result ∧
    Embeds Sample.embedding []
      (run (bundle Sample.embedding) [] (Sample.stored (Binding.Sample.source "a;b;c;"))).store [104] := by
  obtain ⟨result, hresult, htext⟩ := Sample.exists_result_ended
  refine ⟨result, hresult, ?_⟩
  obtain ⟨payload, source, text, r, hpayload, htext', -, hiff, -⟩ :=
    bundle_embeds_iff (by simp) (Path.isProper_ofText _) hresult
  obtain rfl : [104] = payload := Entry.file.inj (Option.some.inj hpayload)
  have hbinding : target [] Sample.embedding.binding = ["b.js".toList] := by decide
  rw [hbinding] at htext'
  obtain rfl := Option.some.inj (htext.symm.trans htext')
  obtain ⟨o, ho, hread, -⟩ := Binding.Sample.exists_outline_ended
  obtain rfl : o = r.after := Option.some.inj (ho.symm.trans r.read_after)
  refine hiff.mpr ?_
  generalize r.after = o at hread
  rw [Sample.target_embedding]
  obtain ⟨load, hload, -, hbody, -⟩ := hread.loads Binding.Sample.isWritten_target "a;b;;"
  obtain ⟨i, himport, hnames⟩ := List.map_eq_singleton_iff.mp hread.2
  obtain ⟨hname, hplaced⟩ := Prod.mk.inj hnames
  obtain ⟨hspecifier, -⟩ := Prod.mk.inj hplaced
  refine ⟨⟨i, ?_, by rw [hspecifier]⟩, load, hload, hbody⟩
  rw [importsUnder, himport]
  simp [hname]

namespace Sample

/-- A binding with a division or a regular expression in front of its functions. -/
def divided (importLines body : List Char) (statements : String) : List Char :=
  importLines ++ "/`/;\n".toList ++ Binding.Sample.binding body statements ++ "// `;\n".toList

/-- A binding that was embedded twice: between its two imports stands a constant without semicolon. -/
def twice : List Char :=
  divided "import w from 'x';\nconst q = a\nimport w from 'y';\n".toList "\x7b\x7d".toList "a;b;c;"

/-- The same binding, after it was rewritten: the functions have become a part of a template. -/
def covered : List Char :=
  divided (Binding.Sample.statement Binding.Sample.target ++ "\nconst q = a\n".toList)
    (Binding.Sample.body Binding.Sample.target) "a;b;;"

theorem exists_outline_covered : ∃ o, Script.Outline.read? covered = some o ∧
    o.function? Binding.loadName = none := by
  refine Binding.Sample.exists_outline_of_any ?_
  unfold covered divided Binding.Sample.statement Binding.Sample.binding
  rewrite [Binding.Sample.body_of_plain (t := Binding.Sample.target) rfl]
  repeat rewrite [String.toList_append]
  repeat rewrite [String.toList_ofList]
  decide +kernel

theorem rewrite_twice : Binding.rewrite Binding.Sample.target twice = .ok covered := by
  obtain ⟨o, ho, -⟩ := exists_outline_covered
  have hfind : Binding.Sites.find twice Binding.Sample.target.importName =
      .ok ⟨⟨77, 79⟩, ⟨102, 104⟩, [⟨0, 18⟩, ⟨31, 49⟩]⟩ := by
    decide +kernel
  exact Binding.rewrite_of_doubled Binding.Sample.isWritten_target.statement hfind
    Binding.Sample.isWritten_target.body (by decide +kernel) (by decide) (by decide +kernel)
    (by decide +kernel) (Option.isSome_iff_exists.mpr ⟨o, ho⟩)

end Sample

/-- The loading function is not read back. -/
theorem bundle_embeds_covered : ∃ result,
    (run (bundle Sample.embedding) [] (Sample.stored Sample.twice)).result = .ok result ∧
    ¬ Embeds Sample.embedding []
      (run (bundle Sample.embedding) [] (Sample.stored Sample.twice)).store [104] := by
  have hunify : Text.unifyLineEnds Sample.twice = Sample.twice := by decide +kernel
  have hrewrite := Sample.rewrite_twice
  rw [← hunify] at hrewrite
  obtain ⟨result, hresult, htext⟩ := Sample.bundle_embedding hrewrite (by decide +kernel) (by decide +kernel)
  refine ⟨result, hresult, ?_⟩
  rintro ⟨⟨text, o, htext', ho, -, load, hload, -⟩, -⟩
  have hbinding : target [] Sample.embedding.binding = ["b.js".toList] := by decide
  rw [hbinding] at htext'
  obtain rfl := Option.some.inj (htext.symm.trans htext')
  obtain ⟨o', ho', hnone⟩ := Sample.exists_outline_covered
  obtain rfl : o = o' := Option.some.inj (ho.symm.trans ho')
  rw [hnone] at hload
  cases hload

end Build

end WasmEmbed
