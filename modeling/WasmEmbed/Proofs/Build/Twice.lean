import WasmEmbed.Proofs.Binding.Frame
import WasmEmbed.Proofs.Build.Recovery
import WasmEmbed.Proofs.Text.LineEnd

/-!
# Building twice

A build that has returned is run once more. The directories are there, every file of the plan has the
content that is written once more, and no stale shard is left (`ends_writeShards_done`). The binding is read
as it was written, because a rewriting adds no carriage return. So if rewriting leaves the binding as it is,
the second build answers the same and changes nothing (`bundle_twice`).
-/

namespace WasmEmbed

/-- The file that a change writes or removes. -/
def Change.file? : Change → Option Location
  | .makeDirectory _ => none
  | .write place _ => some place
  | .remove place => some place

namespace Build

open Store

variable {n : ShardNaming} {cwd : Location} {s : Store} {dir : Path} {d : Location} {c : Config}
  {chunks : List (List Char)} {removes : List Change}

/-! ## The shards once more -/

/-- Once a plan is done, no stale shard is left. A file that the plan does not concern has to have been there
before. -/
theorem isRemoval_nil {s' : Store} (hremoves : IsRemoval n d chunks.length s removes)
    (hdone : ∀ change ∈ plan n d chunks removes, s'.get? change.place = change.entry)
    (hkept : ∀ l content, s'.get? l = some (.file content) →
      (∀ change ∈ plan n d chunks removes, change.place ≠ l) →
        ∃ before, s.get? l = some (.file before)) : IsRemoval n d chunks.length s' [] := by
  refine ⟨fun change => iff_of_false List.not_mem_nil ?_, .nil⟩
  rintro ⟨name, hstale, ⟨content, hfile⟩, -⟩
  have hgone : ∀ change ∈ plan n d chunks removes, change.place ≠ d ++ [name] := by
    intro change hmem hplace
    have hentry := hdone change hmem
    rw [remove_of_mem_plan hremoves hmem hstale hplace] at hentry
    cases hfile.symm.trans hentry
  obtain ⟨before, hbefore⟩ := hkept _ content hfile hgone
  have hremove := (hremoves.mem_iff _).mpr ⟨name, hstale, ⟨before, hbefore⟩, rfl⟩
  exact hgone _ (List.mem_append_left _ (List.mem_append_right _ hremove)) rfl

/-- Where nothing is to be removed, nothing is removed. -/
theorem IsRemoval.eq_nil {keep : Nat} (h : IsRemoval n d keep s []) (h' : IsRemoval n d keep s removes) :
    removes = [] :=
  List.eq_nil_iff_forall_not_mem.mpr fun change hmem =>
    List.not_mem_nil ((h.mem_iff change).mpr ((h'.mem_iff change).mp hmem))

/-- Where everything is done, writing shards writes the same files once more. -/
theorem ends_writeShards_done (hn : n.IsValid) {maxChars : Int} {text : List Char}
    (hsplit : Shard.split maxChars text = .ok chunks)
    (hchunks : ∀ chunk ∈ chunks, ∀ c ∈ chunk, Payload.Base64.isAllowed c = true)
    (hway : ∀ l ∈ way cwd dir, s.get? l = some .directory)
    (hnone : IsRemoval n (target cwd dir) chunks.length s [])
    (hdone : ∀ change ∈ plan n (target cwd dir) chunks [], s.get? change.place = change.entry) :
    Ends (writeShards n dir maxChars text) cwd s (.ok (shardSet n dir chunks text))
      (plan n (target cwd dir) chunks []) := by
  have hpave := pave_of_directories hway
  have hmade : s.replay (pave s (way cwd dir)).made = s := by rw [hpave, replay_nil]
  obtain ⟨removes, hremoves, hends⟩ :=
    exists_ends_writeShards_paved hn hsplit hchunks (congrArg Paving.blocked hpave) hmade
  obtain rfl := hnone.eq_nil hremoves
  -- Where the file of a change stands, no directory is in the way of it.
  have hfree : ∀ change ∈ plan n (target cwd dir) chunks [], isFree s change = true := by
    intro change hmem
    rw [isFree, hdone change hmem, bne_iff_ne]
    rcases List.mem_append.mp hmem with hmem | hmem
    · rw [List.append_nil] at hmem
      obtain ⟨i, chunk, -, rfl⟩ := mem_shardWrites.mp hmem
      simp [shardWrite, Change.entry]
    · obtain rfl := List.mem_singleton.mp hmem
      simp [indexWrite, Change.entry]
  rw [hpave, executed, List.takeWhile_eq_self_iff.mpr hfree, List.nil_append,
    (fillEnd_eq_ok_iff hremoves text _).mpr ⟨List.all_eq_true.mpr hfree, rfl⟩] at hends
  exact hends

/-! ## The build once more -/

/-- Nothing stopped the way to a directory that was made. -/
theorem opens_of_ends {made : List Change} (h : Ends (makeDirectories dir) cwd s (.ok ()) made) :
    (pave s (way cwd dir)).blocked = none := by
  obtain ⟨hresult, -⟩ := h.unique (ends_makeDirectories cwd s dir)
  cases hblocked : (pave s (way cwd dir)).blocked with
  | none => rfl
  | some left =>
      rw [Paving.result, hblocked] at hresult
      dsimp only at hresult
      split at hresult
      · cases hresult
      · cases hresult

/-- A build is done: the directories on the way to the shards are there, the files of the plan have their
contents, no stale shard is left, and the payload and the rewritten binding can be read. -/
structure IsDone (c : Config) (cwd : Location) (payload : List UInt8) (chunks : List (List Char))
    (out : List Char) (s : Store) : Prop where
  locate : s.locate cwd c.payload = .ok (target cwd c.payload)
  content : s.get? (target cwd c.payload) = some (.file payload)
  isFile : s.isFile cwd c.binding = true
  binding : s.get? (target cwd c.binding) = some (.file (Text.Utf8.encode out))
  unified : '\r' ∉ out
  split : Shard.split c.maxShardChars (Payload.encode c.compress payload) = .ok chunks
  way : ∀ l ∈ way cwd c.outputDir, s.get? l = some .directory
  clean : IsRemoval c.naming (target cwd c.outputDir) chunks.length s []
  written : ∀ change ∈ plan c.naming (target cwd c.outputDir) chunks [],
    s.get? change.place = change.entry

/-- A build that returned is done, if its payload is none of the files that it wrote or removed. -/
theorem exists_done_of_bundle_eq_ok {result : BundleResult}
    (h : (run (bundle c) cwd s).result = .ok result)
    (hpayload : ∀ change ∈ (run (bundle c) cwd s).journal.changes,
      Change.file? change ≠ some (target cwd c.payload)) :
    ∃ payload chunks out, IsDone c cwd payload chunks out (run (bundle c) cwd s).store ∧
      result = ⟨shardSet c.naming c.outputDir chunks (Payload.encode c.compress payload), c.binding,
        payload.length, (Payload.encode c.compress payload).length⟩ := by
  obtain ⟨hcheck, hfile, hbinding⟩ := inputs_of_bundle_eq_ok h
  obtain ⟨before, hlocate, hbefore⟩ := isFile_iff_exists.mp hfile
  obtain ⟨old, hpath, hold⟩ := isFile_iff_exists.mp hbinding
  obtain ⟨payload, chunks, made, removes, source, out, hfind, hsplit, hmade, hremoves, hrewrite, hresult,
    hapart, hends⟩ := exists_ends_of_bundle_eq_ok h
  obtain ⟨-, hchanges, hstore⟩ := hends.outcome
  obtain rfl : before = payload := by
    rw [find?, hlocate] at hfind
    exact Entry.file.inj (Option.some.inj (hbefore.symm.trans hfind))
  rw [hchanges] at hpayload
  refine ⟨before, chunks, out, ?_, hresult⟩
  rw [hstore]
  obtain ⟨hfront, -⟩ := allows_append.mp hends.allows
  obtain ⟨hmadeAllows, hplan⟩ := allows_append.mp hfront
  have hafter := get?_replay_write hends.allows
  have hlast := hafter (target cwd c.binding)
  rw [if_pos rfl] at hlast
  have hdone : ∀ change ∈ plan c.naming (target cwd c.outputDir) chunks removes,
      (s.replay (made ++ plan c.naming (target cwd c.outputDir) chunks removes ++
        [.write (target cwd c.binding) (Text.Utf8.encode out)])).get? change.place = change.entry :=
    fun _ hmem => get?_replay_of_mem_plan hremoves hends.allows hapart hmem
  obtain ⟨r, made', hmade', honly, -⟩ := exists_ends_makeDirectories cwd c.outputDir s
  obtain ⟨-, rfl⟩ := hmade.unique hmade'
  constructor
  case locate => exact locate_replay hends.allows hlocate
  case content =>
    refine get?_replay_of_makes_or_ne hends.allows (fun change hmem => ?_) hbefore
    have hfile := hpayload change hmem
    cases change with
    | makeDirectory place => exact Or.inl rfl
    | write place content | remove place => exact Or.inr fun hplace => hfile (congrArg some hplace)
  case isFile => exact isFile_iff_exists.mpr ⟨_, locate_replay hends.allows hpath, hlast⟩
  case binding => exact hlast
  case unified =>
    have himport := (Config.check_eq_ok_iff.mp hcheck).2.1
    exact Binding.return_notMem_of_rewrite himport (Text.return_notMem_unifyLineEnds source) hrewrite
  case split => exact hsplit
  case way =>
    intro l hl
    have hopen := opens_of_ends hmade
    obtain ⟨-, rfl⟩ := hmade.unique (ends_makeDirectories cwd s c.outputDir)
    rw [List.append_assoc, replay_append]
    rw [List.append_assoc] at hends
    exact get?_replay_directory (allows_append.mp hends.allows).2 (get?_replay_pave hopen l hl)
  case clean =>
    -- A file that no change of the plan concerns was there before the build, the binding among them.
    refine isRemoval_nil hremoves hdone fun l content hl hne => ?_
    by_cases hplace : l = target cwd c.binding
    · rw [hplace]
      exact ⟨old, honly.get?_replay hmadeAllows hold⟩
    · rw [hafter, if_neg hplace, replay_append, get?_replay_of_forall_ne hplan hne] at hl
      exact ⟨content, hl⟩
  case written =>
    intro change hmem
    have hmem' : change ∈ plan c.naming (target cwd c.outputDir) chunks removes := by
      rcases List.mem_append.mp hmem with hmem | hmem
      · rw [List.append_nil] at hmem
        exact List.mem_append_left _ (List.mem_append_left _ hmem)
      · exact List.mem_append_right _ hmem
    exact hdone change hmem'

/-- A build that is run again on what it left answers the same and leaves every file and directory as it is,
if its payload is none of the files that it wrote or removed and its binding is left as it is by
rewriting. -/
theorem bundle_twice {result : BundleResult} (h : (run (bundle c) cwd s).result = .ok result)
    (hpayload : ∀ change ∈ (run (bundle c) cwd s).journal.changes,
      change.file? ≠ some (target cwd c.payload))
    (hfixed : ∀ out, (run (bundle c) cwd s).store.text? (target cwd c.binding) = some out →
      Binding.rewrite (c.target cwd) out = .ok out)
    {s' : Store} (hs' : s' = (run (bundle c) cwd s).store) :
    (run (bundle c) cwd s').result = .ok result ∧
      ∀ l, (run (bundle c) cwd s').store.get? l = s'.get? l := by
  have hcheck := (inputs_of_bundle_eq_ok h).1
  obtain ⟨payload, chunks, out, hdone, rfl⟩ := exists_done_of_bundle_eq_ok h hpayload
  rw [← hs'] at hdone
  obtain ⟨chunks', hsplit', -, -, hchunks⟩ := exists_split_payload hcheck payload
  obtain rfl : chunks' = chunks := Except.ok.inj (hsplit'.symm.trans hdone.split)
  have hrewrite : Binding.rewrite (c.target cwd) (Text.unifyLineEnds out) = .ok out := by
    rw [Text.unifyLineEnds_of_notMem hdone.unified]
    exact hfixed out (hs' ▸ text?_of_get? hdone.binding)
  have hstage := ends_writeShards_done (Config.isValid_naming hcheck) hdone.split hchunks hdone.way
    hdone.clean hdone.written
  -- Each change puts what is there already.
  have hkept : ∀ l, (s'.replay (plan c.naming (target cwd c.outputDir) chunks' [])).get? l = s'.get? l := by
    intro l
    refine (get?_replay_eq_iff hstage.allows (pairwise_plan hdone.clean) l).mpr ?_
    rintro change hmem rfl
    exact (hdone.written change hmem).symm
  have hends := Ends.bundle hcheck hdone.locate hdone.content hdone.isFile hstage rfl
    ((hkept _).trans hdone.binding) (Text.Utf8.decode_encode out) hrewrite
  obtain ⟨hresult, -, hstore⟩ := hends.outcome
  refine ⟨hresult, fun l => ?_⟩
  rw [hstore, get?_replay_write hends.allows, hkept]
  split
  · next hl => rw [hl, hdone.binding]
  · rfl

/-- A payload that is neither the binding nor in the directory of the shards is not written or removed. -/
theorem file?_ne_of_outside {result : BundleResult} (h : (run (bundle c) cwd s).result = .ok result)
    (hbinding : target cwd c.payload ≠ target cwd c.binding)
    (hdir : ∀ name, target cwd c.payload ≠ target cwd c.outputDir ++ [name]) :
    ∀ change ∈ (run (bundle c) cwd s).journal.changes, change.file? ≠ some (target cwd c.payload) := by
  obtain ⟨payload, chunks, made, removes, source, out, -, -, hmade, hremoves, -, -, -, hends⟩ :=
    exists_ends_of_bundle_eq_ok h
  obtain ⟨r, made', hmade', honly, -⟩ := exists_ends_makeDirectories cwd c.outputDir s
  obtain ⟨-, rfl⟩ := hmade.unique hmade'
  intro change hmem hfile
  rw [hends.outcome.2.1, List.mem_append, List.mem_append, List.mem_singleton, mem_plan hremoves] at hmem
  rcases hmem with (hmem | ⟨i, chunk, -, rfl⟩ | ⟨name, -, -, rfl⟩ | rfl) | rfl
  · obtain ⟨l, rfl⟩ := honly change hmem
    cases hfile
  · exact hdir _ (Option.some.inj hfile).symm
  · exact hdir _ (Option.some.inj hfile).symm
  · exact hdir _ (Option.some.inj hfile).symm
  · exact hbinding (Option.some.inj hfile).symm

/-- A build of a binding whose statements end in semicolons, done twice. -/
theorem bundle_twice_embedding :
    ∃ result s', (run (bundle Sample.embedding) []
        (Sample.stored (Binding.Sample.source "a;b;c;"))).result = .ok result ∧
      s' = (run (bundle Sample.embedding) [] (Sample.stored (Binding.Sample.source "a;b;c;"))).store ∧
      (∀ change ∈ (run (bundle Sample.embedding) []
          (Sample.stored (Binding.Sample.source "a;b;c;"))).journal.changes,
        change.file? ≠ some (target [] Sample.embedding.payload)) ∧
      (∀ out, s'.text? (target [] Sample.embedding.binding) = some out →
        Binding.rewrite (Sample.embedding.target []) out = .ok out) ∧
      (run (bundle Sample.embedding) [] s').result = .ok result ∧
      ∀ l, (run (bundle Sample.embedding) [] s').store.get? l = s'.get? l := by
  obtain ⟨result, hresult, htext⟩ := Sample.exists_result_ended
  have houtside : ∀ name, target [] Sample.embedding.payload ≠
      target [] Sample.embedding.outputDir ++ [name] := by
    have hplaces : target [] Sample.embedding.payload = ["p".toList] ∧
        target [] Sample.embedding.outputDir = ["w".toList] := by decide
    intro name hname
    rw [hplaces.1, hplaces.2] at hname
    exact absurd (congrArg List.length hname) (by simp)
  have hpayload := file?_ne_of_outside hresult (by decide) houtside
  have hbinding : target [] Sample.embedding.binding = ["b.js".toList] := by decide
  have hfixed : ∀ out, (run (bundle Sample.embedding) []
        (Sample.stored (Binding.Sample.source "a;b;c;"))).store.text?
          (target [] Sample.embedding.binding) = some out →
      Binding.rewrite (Sample.embedding.target []) out = .ok out := by
    intro out hout
    rw [hbinding] at hout
    obtain rfl := Option.some.inj (htext.symm.trans hout)
    obtain ⟨o, ho, hread, hempty, -⟩ := Binding.Sample.exists_outline_ended
    rw [Sample.target_embedding]
    exact (Binding.rewrite_self_iff ho (hread.loads Binding.Sample.isWritten_target _)).mpr hempty
  exact ⟨result, _, hresult, rfl, hpayload, hfixed, bundle_twice hresult hpayload hfixed rfl⟩

end Build

end WasmEmbed
