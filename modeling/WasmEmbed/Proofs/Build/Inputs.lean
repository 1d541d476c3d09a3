import WasmEmbed.Proofs.Binding.Sites
import WasmEmbed.Proofs.Build.Bundle
import WasmEmbed.Proofs.Text.LineEnd

/-!
# What becomes of the inputs

A build should leave its payload as it is, and its binding too if it fails. Nothing keeps the shards away
from these two files, though: what is written for a shard may have the place of an input, and an input may
have the name of a stale shard. The inputs survive exactly if the shards spare them
(`bundle_keeps_inputs_iff`). A binding that a shard has taken the place of is no binding any more, so a build
that harms its binding fails.
-/

namespace WasmEmbed

/-! ## Scripts that are no bindings -/

/-- A text with fewer than two opening braces is no binding. -/
theorem Binding.rewrite_ne_ok {t : Target} {source : List Char} (h : source.count '\x7b' < 2)
    (out : List Char) : rewrite t source ≠ .ok out := by
  intro hrewrite
  obtain ⟨-, sites, -, -, -, -, hfind, -⟩ := rewrite_eq_ok_iff.mp hrewrite
  have := Sites.two_le_count_of_find hfind
  omega

namespace Build

open Store

variable {n : ShardNaming} {cwd : Location} {s : Store} {d : Location} {c : Config}

/-- No file that is written for shards is a binding. -/
theorem rewrite_ne_ok_of_mem_plan (hn : n.IsValid) {chunks : List (List Char)} {removes : List Change}
    (hchunks : ∀ chunk ∈ chunks, ∀ c ∈ chunk, Payload.Base64.isAllowed c = true)
    (hremoves : IsRemoval n d chunks.length s removes) {change : Change}
    (hmem : change ∈ plan n d chunks removes) {content : List UInt8}
    (hentry : change.entry = some (.file content)) {source : List Char}
    (hdecode : Text.Utf8.decode content = .ok source) {t : Binding.Target} {out : List Char} :
    Binding.rewrite t (Text.unifyLineEnds source) ≠ .ok out := by
  refine Binding.rewrite_ne_ok ?_ out
  rw [Text.count_unifyLineEnds (by decide) (by decide)]
  have hsource : ∀ text, content = Text.Utf8.encode text → source = text := by
    rintro text rfl
    rw [Text.Utf8.decode_encode] at hdecode
    exact (Except.ok.inj hdecode).symm
  -- A script of a shard has one pair of braces, an aggregator none, and a binding at least two.
  rcases (mem_plan hremoves).mp hmem with ⟨i, chunk, hchunk, rfl⟩ | ⟨name, -, -, rfl⟩ | rfl
  · rw [hsource _ (Entry.file.inj (Option.some.inj hentry)).symm,
      Shard.count_scriptText (hchunks chunk (List.mem_of_getElem? hchunk))]
    decide
  · cases hentry
  · rw [hsource _ (Entry.file.inj (Option.some.inj hentry)).symm, List.count_eq_zero_of_not_mem]
    · decide
    · refine Shard.brace_notMem_aggregator ?_ fun name hname => ?_
      · exact Shard.brace_notMem_of_isIdentifierPart (Shard.isIdentifierPart_of_isExtension hn.extension)
      · obtain ⟨i, -, rfl⟩ := List.mem_map.mp hname
        exact Shard.brace_notMem_of_isIdentifierPart (Shard.isIdentifierPart_of_mem_stem hn.start i)

/-- Where a binding is found after shards were written, none of them has its place. -/
theorem place_ne_of_rewrite (hn : n.IsValid) {chunks : List (List Char)} {removes : List Change}
    (hchunks : ∀ chunk ∈ chunks, ∀ c ∈ chunk, Payload.Base64.isAllowed c = true)
    (hremoves : IsRemoval n d chunks.length s removes)
    (hallows : s.Allows ((plan n d chunks removes).takeWhile (isFree s))) {l : Location}
    {after : List UInt8}
    (hafter : (s.replay ((plan n d chunks removes).takeWhile (isFree s))).get? l = some (.file after))
    {source : List Char} (hdecode : Text.Utf8.decode after = .ok source) {t : Binding.Target}
    {out : List Char} (hrewrite : Binding.rewrite t (Text.unifyLineEnds source) = .ok out) :
    ∀ change ∈ (plan n d chunks removes).takeWhile (isFree s), change.place ≠ l := by
  have hapart := (pairwise_plan hremoves).sublist (List.takeWhile_sublist (isFree s))
  rintro change hchange rfl
  have hentry := (get?_replay_of_mem hallows hapart hchange).symm.trans hafter
  have hmem := (List.takeWhile_sublist (isFree s)).subset hchange
  exact rewrite_ne_ok_of_mem_plan hn hchunks hremoves hmem hentry hdecode hrewrite

/-- Where a binding is found after shards were written, they spared what was there before. -/
theorem spares_of_rewrite (hn : n.IsValid) {chunks : List (List Char)} {removes : List Change}
    (hchunks : ∀ chunk ∈ chunks, ∀ c ∈ chunk, Payload.Base64.isAllowed c = true)
    (hremoves : IsRemoval n d chunks.length s removes)
    (hallows : s.Allows ((plan n d chunks removes).takeWhile (isFree s))) {l : Location}
    {before after : List UInt8} (hbefore : s.get? l = some (.file before))
    (hafter : (s.replay ((plan n d chunks removes).takeWhile (isFree s))).get? l = some (.file after))
    {source : List Char} (hdecode : Text.Utf8.decode after = .ok source) {t : Binding.Target}
    {out : List Char} (hrewrite : Binding.rewrite t (Text.unifyLineEnds source) = .ok out) :
    Spares n s d chunks l := by
  rw [← get?_replay_plan_iff hremoves hallows hbefore]
  apply get?_replay_of_forall_ne hallows
  exact place_ne_of_rewrite hn hchunks hremoves hallows hafter hdecode hrewrite

/-! ## The inputs of a build -/

/-- The payload stays as it is, and if the build fails, so does the binding. -/
structure InputsSurvive (c : Config) (cwd : Location) (s : Store) : Prop where
  payload : (run (bundle c) cwd s).store.get? (target cwd c.payload) = s.get? (target cwd c.payload)
  binding : ∀ e, (run (bundle c) cwd s).result = .error e →
    (run (bundle c) cwd s).store.get? (target cwd c.binding) = s.get? (target cwd c.binding)

/-- If the build gets so far as to write shards, they spare both inputs. -/
def SparesInputs (c : Config) (cwd : Location) (s : Store) : Prop :=
  ∀ payload chunks, s.find? cwd c.payload = some (.file payload) → s.isFile cwd c.binding = true →
    (run (makeDirectories c.outputDir) cwd s).result = .ok () →
    Shard.split c.maxShardChars (Payload.encode c.compress payload) = .ok chunks →
    ∀ input ∈ [c.payload, c.binding],
      Spares c.naming (run (makeDirectories c.outputDir) cwd s).store (target cwd c.outputDir) chunks
        (target cwd input)

/-- The chunks of a payload. -/
theorem exists_split_payload (hcheck : c.check = .ok ()) (payload : List UInt8) :
    ∃ chunks, Shard.split c.maxShardChars (Payload.encode c.compress payload) = .ok chunks ∧
      chunks.flatten = Payload.encode c.compress payload ∧
      (∀ chunk ∈ chunks, 1 ≤ chunk.length ∧ (chunk.length : Int) ≤ c.maxShardChars) ∧
      ∀ chunk ∈ chunks, ∀ x ∈ chunk, Payload.Base64.isAllowed x = true := by
  obtain ⟨chunks, hsplit, hflatten, hlengths⟩ :=
    Shard.exists_split (Config.check_eq_ok_iff.mp hcheck).1 (Payload.encode c.compress payload)
  refine ⟨chunks, hsplit, hflatten, hlengths, fun chunk hchunk x hx => ?_⟩
  have hmem : x ∈ Payload.encode c.compress payload := by
    rw [← hflatten]
    exact List.mem_flatten_of_mem hchunk hx
  exact Payload.isAllowed_of_mem_encode x hmem

/-- A build that changes what the shards change, and then perhaps its binding, leaves its inputs as they are
exactly if the shards spare them. -/
theorem inputsSurvive_iff_spares (hdiffer : target cwd c.payload ≠ target cwd c.binding) {s₁ : Store}
    {made executed : List Change} (hstore : s.replay made = s₁)
    {payload binding : List UInt8} (hpayload : s.get? (target cwd c.payload) = some (.file payload))
    (hbinding : s.get? (target cwd c.binding) = some (.file binding))
    (hpayload₁ : s₁.get? (target cwd c.payload) = some (.file payload))
    (hbinding₁ : s₁.get? (target cwd c.binding) = some (.file binding)) {Spared : Location → Prop}
    (hspared : ∀ {l content}, s₁.get? l = some (.file content) →
      ((s₁.replay executed).get? l = s₁.get? l ↔ Spared l))
    (hends : (∃ e, Ends (bundle c) cwd s (.error e) (made ++ executed)) ∨
      ∃ result content, Ends (bundle c) cwd s (.ok result)
        (made ++ executed ++ [.write (target cwd c.binding) content]) ∧ Spared (target cwd c.binding)) :
    InputsSurvive c cwd s ↔ ∀ input ∈ [c.payload, c.binding], Spared (target cwd input) := by
  simp only [List.mem_cons, List.not_mem_nil, or_false, forall_eq_or_imp, forall_eq]
  have hstays : ∀ {l content}, s.get? l = some (.file content) → s₁.get? l = some (.file content) →
      ((s.replay (made ++ executed)).get? l = s.get? l ↔ Spared l) := by
    intro l content hl hl₁
    rw [← hspared hl₁, replay_append, hstore, hl, hl₁]
  rcases hends with ⟨e, hends⟩ | ⟨result, content, hends, hsparedBinding⟩
  · obtain ⟨hresult, -, hafter⟩ := hends.outcome
    rw [← hstays hpayload hpayload₁, ← hstays hbinding hbinding₁, ← hafter]
    exact ⟨fun h => ⟨h.payload, h.binding e hresult⟩, fun h => ⟨h.1, fun _ _ => h.2⟩⟩
  · obtain ⟨hresult, -, hafter⟩ := hends.outcome
    -- The last change concerns the binding alone.
    have hlast : (run (bundle c) cwd s).store.get? (target cwd c.payload) =
        (s.replay (made ++ executed)).get? (target cwd c.payload) := by
      rw [hafter, replay_append, replay_cons, replay_nil, get?_apply (allows_append.mp hends.allows).2.1]
      exact if_neg hdiffer
    rw [← hstays hpayload hpayload₁, ← hlast]
    refine ⟨fun h => ⟨h.payload, hsparedBinding⟩, fun h => ⟨h.1, fun e he => ?_⟩⟩
    rw [hresult] at he
    cases he

/-- The inputs of a build survive exactly if the shards that it gets to write spare them. -/
theorem inputsSurvive_iff_sparesInputs (hcheck : c.check = .ok ())
    (hdiffer : target cwd c.payload ≠ target cwd c.binding) :
    InputsSurvive c cwd s ↔ SparesInputs c cwd s := by
  by_cases hfiles : s.isFile cwd c.payload = true ∧ s.isFile cwd c.binding = true
  · obtain ⟨hpayload, hbinding⟩ := hfiles
    obtain ⟨payload, hlocate, hcontent⟩ := isFile_iff_exists.mp hpayload
    obtain ⟨before, -, hbefore⟩ := isFile_iff_exists.mp hbinding
    obtain ⟨chunks, hsplit, -, -, hchunks⟩ := exists_split_payload hcheck payload
    have hn := Config.isValid_naming hcheck
    have hspares : SparesInputs c cwd s ↔ ((run (makeDirectories c.outputDir) cwd s).result = .ok () →
        ∀ input ∈ [c.payload, c.binding], Spares c.naming
          (run (makeDirectories c.outputDir) cwd s).store (target cwd c.outputDir) chunks
            (target cwd input)) := by
      have hfind : s.find? cwd c.payload = some (.file payload) := by rw [find?, hlocate]; exact hcontent
      constructor
      · intro h hmade
        exact h payload chunks hfind hbinding hmade hsplit
      · intro h payload' chunks' hfind' _ hmade hsplit'
        obtain rfl : payload = payload' := Entry.file.inj (Option.some.inj (hfind.symm.trans hfind'))
        obtain rfl : chunks = chunks' := Except.ok.inj (hsplit.symm.trans hsplit')
        exact h hmade
    obtain ⟨r, made, hmade, honly, hcase⟩ := exists_ends_writeShards hn cwd s c.outputDir hsplit hchunks
    obtain ⟨hresult, -, hstore⟩ := hmade.outcome
    rw [hspares, hresult, hstore]
    have hcontent₁ := honly.get?_replay hmade.allows hcontent
    have hbefore₁ := honly.get?_replay hmade.allows hbefore
    rcases hcase with ⟨e, rfl, hends⟩ | ⟨d, removes, r', rfl, hdir, -, hremoves, hends, hr'⟩
    · -- The directory of the shards cannot be made.
      obtain ⟨e', hbundle⟩ :=
        (bundle_ends hcheck hlocate hcontent hbinding hends (by simp)).resolve_right (by simp)
      obtain ⟨-, -, hafter⟩ := hbundle.outcome
      refine iff_of_true ⟨?_, fun _ _ => ?_⟩ (fun h => by cases h)
      · rw [hafter, hcontent₁, hcontent]
      · rw [hafter, hbefore₁, hbefore]
    · obtain rfl := locate_eq_ok hdir
      have hallows := (allows_append.mp hends.allows).2
      have hindex : ∀ shards, r' = .ok shards → shards.index = c.aggregatorPath := by
        intro shards hshards
        rw [((hr' shards).mp hshards).2]
        rfl
      have hbundle := bundle_ends hcheck hlocate hcontent hbinding hends hindex
      refine Iff.trans ?_ (forall_prop_of_true rfl).symm
      refine inputsSurvive_iff_spares hdiffer rfl hcontent hbefore hcontent₁ hbefore₁
        (get?_replay_plan_iff hremoves hallows) ?_
      rcases hbundle with hfail | ⟨shards, after, source, out, -, hafter, hdecode, hrewrite, hok⟩
      · exact Or.inl hfail
      · refine Or.inr ⟨_, _, hok, ?_⟩
        rw [replay_append] at hafter
        exact spares_of_rewrite hn hchunks hremoves hallows hbefore₁ hafter hdecode hrewrite
  · obtain ⟨e, hends⟩ := exists_ends_bundle_error hcheck hfiles
    obtain ⟨-, -, hstore⟩ := hends.outcome
    rw [replay_nil] at hstore
    constructor
    · intro _ payload chunks hfind hbinding
      have hpayload : s.isFile cwd c.payload = true := by rw [isFile, hfind]
      exact absurd ⟨hpayload, hbinding⟩ hfiles
    · intro _
      exact ⟨by rw [hstore], fun _ _ => by rw [hstore]⟩

/-- Shards spare what does not stand in their own directory. -/
theorem spares_of_outside {l : Location} (h : ∀ name, l ≠ d ++ [name]) (chunks : List (List Char)) :
    Spares n s d chunks l where
  shard := fun _ _ _ _ hplace => absurd hplace (h _)
  stale := fun _ name _ => h name
  index := fun _ hplace => absurd hplace (h _)

theorem sparesInputs_of_outside
    (h : ∀ input ∈ [c.payload, c.binding], ∀ name, target cwd input ≠ target cwd c.outputDir ++ [name]) :
    SparesInputs c cwd s :=
  fun _ chunks _ _ _ _ input hinput => spares_of_outside (h input hinput) chunks

/-- The inputs of a build that are two files survive exactly if the shards that it gets to write spare
them. They do if neither of them stands in the directory of the shards. -/
theorem bundle_keeps_inputs_iff (hcheck : c.check = .ok ())
    (hdiffer : target cwd c.payload ≠ target cwd c.binding) :
    (InputsSurvive c cwd s ↔ SparesInputs c cwd s) ∧
    ((∀ input ∈ [c.payload, c.binding], ∀ name, target cwd input ≠ target cwd c.outputDir ++ [name]) →
      InputsSurvive c cwd s) :=
  have hiff := inputsSurvive_iff_sparesInputs hcheck hdiffer
  ⟨hiff, fun h => hiff.mpr (sparesInputs_of_outside h)⟩

/-! ## A binding that survives and one that does not -/

namespace Sample

/-- A build with the usual settings. -/
def config (payload binding outputDir : String) : Config where
  payload := .ofText payload.toList
  binding := .ofText binding.toList
  outputDir := .ofText outputDir.toList
  maxShardChars := Config.defaultMaxShardChars
  compress := false
  importName := Config.defaultImportName
  shardPrefix := Config.defaultShardPrefix
  extension := Config.defaultExtension

/-- The text of a binding. -/
def binding : List Char :=
  "async function load() \x7b\x7d\nfunction init() \x7b a; b; c; \x7d\n".toList

/-- An empty payload, and a binding under the name of an aggregator. -/
def store : Store :=
  ⟨[(["p".toList], .file []), (["w".toList], .directory),
    (["w".toList, "index.js".toList], .file (Text.Utf8.encode binding))]⟩

end Sample

/-- The shards get a directory of their own. -/
theorem bundle_keeps_inputs_outside :
    (Sample.config "p" "w/index.js" "v").check = .ok () ∧
      InputsSurvive (Sample.config "p" "w/index.js" "v") [] Sample.store := by
  refine ⟨by decide, (bundle_keeps_inputs_iff (by decide) (by decide)).2 fun input hinput name h => ?_⟩
  have hdir : target [] (Sample.config "p" "w/index.js" "v").outputDir = ["v".toList] := by decide
  have hpayload : target [] (Sample.config "p" "w/index.js" "v").payload = ["p".toList] := by decide
  have hbinding : target [] (Sample.config "p" "w/index.js" "v").binding =
      ["w".toList, "index.js".toList] := by decide
  rw [hdir] at h
  simp only [List.mem_cons, List.not_mem_nil, or_false] at hinput
  rcases hinput with rfl | rfl
  · rw [hpayload] at h
    exact absurd (List.cons.inj h).1 (by decide)
  · rw [hbinding] at h
    exact absurd (List.cons.inj h).1 (by decide)

/-- The aggregator takes the place of the binding, and then the build fails. -/
theorem bundle_loses_binding :
    (Sample.config "p" "w/index.js" "w").check = .ok () ∧
      ¬ InputsSurvive (Sample.config "p" "w/index.js" "w") [] Sample.store := by
  refine ⟨by decide, ?_⟩
  rw [inputsSurvive_iff_sparesInputs (by decide) (by decide)]
  intro h
  have hspares := h [] [] (by decide) (by decide) (by decide +kernel) (by decide)
    (Sample.config "p" "w/index.js" "w").binding (by simp)
  exact absurd (hspares.index (fun i hi => absurd hi (Nat.not_lt_zero i)) (by decide))
    (by decide +kernel)

end Build

end WasmEmbed
