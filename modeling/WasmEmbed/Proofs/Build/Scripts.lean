import WasmEmbed.Proofs.Build.Recovery
import WasmEmbed.Proofs.Shard.Module

/-!
# The files of shards are scripts

Whatever a payload holds and however it is cut up, its text has the characters of shards alone, so writing
shards only ever fails because of a path. If it returns, all files that it wrote are scripts, and the
aggregator imports the shards in their order (`writeShards_scripts`). It does return if the directory was
there and empty.
-/

namespace WasmEmbed.Build

open Store

variable {n : ShardNaming} {cwd : Location} {s : Store} {dir : Path} {d : Location} {maxChars : Int}
  {text : List Char} {chunks : List (List Char)}

/-! ## Failures -/

/-- A build that does not fail, or fails because of a path. -/
def FailsAtPaths {α : Type} (r : Except Failure α) : Prop := ∀ e, r = .error e → ∃ p, e = .path p

theorem failsAtPaths_writeEnd (stems : List Name) : FailsAtPaths (writeEnd n dir s d stems) := by
  intro e h
  rw [writeEnd] at h
  split at h
  · exact ⟨_, (Except.error.inj h).symm⟩
  · cases h

theorem failsAtPaths_fillEnd (chunks : List (List Char)) (text : List Char) :
    FailsAtPaths (fillEnd n dir s d chunks text) := by
  intro e h
  rw [fillEnd] at h
  cases hshards : writeEnd n dir s d (stemsFrom n 0 chunks.length) with
  | error e' =>
      rw [hshards] at h
      obtain rfl : e' = e := Except.error.inj h
      exact failsAtPaths_writeEnd _ _ hshards
  | ok u =>
      rw [hshards] at h
      cases hindex : writeEnd n dir s d [Shard.indexStem] with
      | error e' =>
          rw [hindex] at h
          obtain rfl : e' = e := Except.error.inj h
          exact failsAtPaths_writeEnd _ _ hindex
      | ok u =>
          rw [hindex] at h
          cases h

theorem Paving.failsAtPaths_result (p : Paving) (dir : Path) : FailsAtPaths (p.result dir) := by
  intro e h
  rw [result] at h
  split at h
  · cases h
  · split at h <;> exact ⟨_, (Except.error.inj h).symm⟩

/-- Writing the shards of a payload fails because of paths alone. -/
theorem failsAtPaths_writeShards (hn : n.IsValid) (hsplit : Shard.split maxChars text = .ok chunks)
    (hchunks : ∀ chunk ∈ chunks, ∀ c ∈ chunk, Payload.Base64.isAllowed c = true) (cwd : Location) (s : Store)
    (dir : Path) : FailsAtPaths (run (writeShards n dir maxChars text) cwd s).result := by
  cases hblocked : (pave s (way cwd dir)).blocked with
  | some left =>
      obtain ⟨e, hresult, hends⟩ := exists_ends_writeShards_blocked (n := n) hsplit hblocked
      obtain ⟨p, rfl⟩ := Paving.failsAtPaths_result _ dir e hresult
      rw [hends.outcome.1]
      exact fun e he => ⟨p, (Except.error.inj he).symm⟩
  | none =>
      obtain ⟨removes, -, hends⟩ := exists_ends_writeShards_paved hn hsplit hchunks hblocked rfl
      rw [hends.outcome.1]
      exact failsAtPaths_fillEnd chunks text

/-! ## Files -/

/-- Where a path leads to a file, what is read of it as a script. -/
def script? (s : Store) (cwd : Location) (path : Path) : Option Script.Outline :=
  match s.find? cwd path with
  | some (.file content) => (Text.Utf8.decode content).toOption.bind Script.Outline.read?
  | _ => none

theorem script?_of_get? {path : Path} {l : Location} {script : List Char} (hpath : s.locate cwd path = .ok l)
    (hl : s.get? l = some (.file (Text.Utf8.encode script))) :
    script? s cwd path = Script.Outline.read? script := by
  simp only [script?, find?, hpath, hl, Text.Utf8.decode_encode]
  rfl

/-- The files of shards are scripts, and the aggregator imports the shards in their order. -/
structure HoldsScripts (n : ShardNaming) (cwd : Location) (s : Store) (files : ShardSet) : Prop where
  shards : ∀ path ∈ files.shards, ∃ o, script? s cwd path = some o
  index : ∃ o, script? s cwd files.index = some o ∧
    o.imports.map Script.ImportDeclaration.defaultName =
      (List.range files.shards.length).map fun i => some (n.stem i)

theorem isCallable_stem (hn : n.IsValid) (i : Nat) : Shard.IsCallable (n.stem i) :=
  ⟨Shard.isIdentifier_stem hn.start i, Shard.isPlainName_stem n.start i⟩

/-- Once the plan of the chunks was followed, their files are scripts. -/
theorem holdsScripts_of_plan (hn : n.IsValid)
    (hchunks : ∀ chunk ∈ chunks, ∀ c ∈ chunk, Payload.Base64.isAllowed c = true)
    (hdir : s.locate cwd dir = .ok d) (hd : s.get? d = some .directory) {removes : List Change}
    (hremoves : IsRemoval n d chunks.length s removes) (hallows : s.Allows (plan n d chunks removes)) :
    HoldsScripts n cwd (s.replay (plan n d chunks removes)) (shardSet n dir chunks text) := by
  have hdir' := locate_replay hallows hdir
  have hd' := get?_replay_directory hallows hd
  have hwritten : ∀ change ∈ plan n d chunks removes,
      (s.replay (plan n d chunks removes)).get? change.place = change.entry :=
    fun change hmem => get?_replay_of_mem hallows (pairwise_plan hremoves) hmem
  constructor
  · intro path hpath
    obtain ⟨stem, hstem, rfl⟩ := List.mem_map.mp hpath
    obtain ⟨i, hi, rfl⟩ := List.mem_map.mp hstem
    obtain ⟨chunk, hchunk⟩ : ∃ chunk, chunks[i]? = some chunk :=
      ⟨_, List.getElem?_eq_getElem (List.mem_range.mp hi)⟩
    have hmem : shardWrite n d i chunk ∈ plan n d chunks removes :=
      (mem_plan hremoves).mpr (Or.inl ⟨i, chunk, hchunk, rfl⟩)
    have hplain : Path.IsPlain (Shard.withExtension (n.stem i) n.extension) :=
      Shard.isPlain_file hn.start hn.extension i
    have hshard := script?_of_get? (locate_path hdir' hd' hplain) (hwritten _ hmem)
    rw [hshard]
    exact Shard.read?_scriptText (hchunks chunk (List.mem_of_getElem? hchunk))
  · have hmem : indexWrite n d chunks.length ∈ plan n d chunks removes :=
      (mem_plan hremoves).mpr (Or.inr (Or.inr rfl))
    have hnames : ∀ name ∈ (List.range chunks.length).map n.stem, Shard.IsCallable name := by
      intro name hname
      obtain ⟨i, -, rfl⟩ := List.mem_map.mp hname
      exact isCallable_stem hn i
    obtain ⟨o, hread, himports⟩ := Shard.read?_aggregator hnames hn.extension
    have hindex :=
      script?_of_get? (locate_path hdir' hd' (Shard.isPlain_index hn.extension)) (hwritten _ hmem)
    refine ⟨o, hindex.trans hread, ?_⟩
    rw [himports, List.map_map]
    -- There are as many shards as chunks.
    show _ = (List.range (List.map (n.path dir) ((List.range chunks.length).map n.stem)).length).map _
    rw [List.length_map, List.length_map, List.length_range]
    rfl

/-! ## Writing them -/

/-- The path leads to a directory with nothing in it. -/
def IsEmptyDirectory (s : Store) (cwd : Location) (dir : Path) : Prop :=
  ∃ d, s.locate cwd dir = .ok d ∧ s.get? d = some .directory ∧ ∀ name, s.get? (d ++ [name]) = none

/-- Nothing is made where a directory is there already. -/
theorem ends_makeDirectories_directory (hdir : s.locate cwd dir = .ok d) (hd : s.get? d = some .directory) :
    Ends (makeDirectories dir) cwd s (.ok ()) [] := by
  have haccept : s.isDirectory cwd dir = true := by
    rw [isDirectory_of_locate hdir, hd]
    rfl
  have htry := ends_makeDirectory?_occupied hdir hd
  rw [makeDirectories]
  cases dir.names.length with
  | zero =>
      rw [ensureDirectory]
      exact htry.then (ends_acceptDirectory .occupied haccept)
  | succ k =>
      rw [ensureDirectory]
      exact htry.then (ends_acceptDirectory .occupied haccept)

/-- If writing shards returns, the files that it wrote are scripts. -/
theorem holdsScripts_of_writeShards (hn : n.IsValid) (hsplit : Shard.split maxChars text = .ok chunks)
    (hchunks : ∀ chunk ∈ chunks, ∀ c ∈ chunk, Payload.Base64.isAllowed c = true) {shards : ShardSet}
    (h : (run (writeShards n dir maxChars text) cwd s).result = .ok shards) :
    HoldsScripts n cwd (run (writeShards n dir maxChars text) cwd s).store shards := by
  obtain ⟨r, made, -, -, hcase⟩ := exists_ends_writeShards hn cwd s dir hsplit hchunks
  rcases hcase with ⟨e, -, hends⟩ | ⟨d, removes, r', -, hdir, hd, hremoves, hends, hr'⟩
  · rw [hends.outcome.1] at h
    cases h
  · obtain ⟨hresult, -, hstore⟩ := hends.outcome
    obtain ⟨hfree, rfl⟩ := (hr' shards).mp (hresult.symm.trans h)
    obtain ⟨-, hallows⟩ := allows_append.mp hends.allows
    rw [hstore, replay_append]
    -- Nothing is in the way, so the plan is followed to its end.
    rw [List.takeWhile_eq_self_iff.mpr (List.all_eq_true.mp hfree)] at hallows ⊢
    exact holdsScripts_of_plan hn hchunks hdir hd hremoves hallows

/-- Writing shards into an empty directory returns. -/
theorem writeShards_of_isEmptyDirectory (hn : n.IsValid) (hsplit : Shard.split maxChars text = .ok chunks)
    (hchunks : ∀ chunk ∈ chunks, ∀ c ∈ chunk, Payload.Base64.isAllowed c = true)
    (hempty : IsEmptyDirectory s cwd dir) :
    (run (writeShards n dir maxChars text) cwd s).result = .ok (shardSet n dir chunks text) := by
  obtain ⟨l, hdir, hl, hnothing⟩ := hempty
  obtain ⟨r, made, hmade, -, hcase⟩ := exists_ends_writeShards hn cwd s dir hsplit hchunks
  obtain ⟨rfl, rfl⟩ := hmade.unique (ends_makeDirectories_directory hdir hl)
  rcases hcase with ⟨e, he, -⟩ | ⟨d, removes, r', -, hdir', -, hremoves, hends, hr'⟩
  · cases he
  · rw [replay_nil] at hdir' hremoves hr'
    obtain rfl : l = d := Except.ok.inj (hdir.symm.trans hdir')
    rw [hends.outcome.1]
    refine (hr' _).mpr ⟨List.all_eq_true.mpr fun change hmem => ?_, rfl⟩
    have hplace : ∃ name, change.place = l ++ [name] := by
      rcases (mem_plan hremoves).mp hmem with ⟨i, chunk, -, rfl⟩ | ⟨name, -, -, rfl⟩ | rfl
      · exact ⟨_, rfl⟩
      · exact ⟨name, rfl⟩
      · exact ⟨_, rfl⟩
    obtain ⟨name, hplace⟩ := hplace
    rw [isFree, hplace, hnothing name]
    rfl

/-- Writing the shards of a payload never fails because of a shard. What it writes are scripts, and the
aggregator imports the shards in their order. It returns if the directory is there and empty. -/
theorem writeShards_scripts (hn : n.IsValid) (hmax : 1 ≤ maxChars) (compress : Bool) (payload : List UInt8)
    (cwd : Location) (s : Store) (dir : Path) :
    (∀ e, (run (writeShards n dir maxChars (Payload.encode compress payload)) cwd s).result ≠
      .error (.shard e)) ∧
    (∀ shards, (run (writeShards n dir maxChars (Payload.encode compress payload)) cwd s).result =
      .ok shards →
      HoldsScripts n cwd (run (writeShards n dir maxChars (Payload.encode compress payload)) cwd s).store
        shards) ∧
    (IsEmptyDirectory s cwd dir → ∃ shards,
      (run (writeShards n dir maxChars (Payload.encode compress payload)) cwd s).result = .ok shards) := by
  obtain ⟨chunks, hsplit, hflatten, -⟩ := Shard.exists_split hmax (Payload.encode compress payload)
  have hchunks : ∀ chunk ∈ chunks, ∀ c ∈ chunk, Payload.Base64.isAllowed c = true := by
    intro chunk hchunk c hc
    have hmem : c ∈ Payload.encode compress payload := hflatten ▸ List.mem_flatten_of_mem hchunk hc
    exact Payload.isAllowed_of_mem_encode c hmem
  refine ⟨fun e he => ?_, fun shards h => holdsScripts_of_writeShards hn hsplit hchunks h, fun hempty => ?_⟩
  · obtain ⟨p, hp⟩ := failsAtPaths_writeShards hn hsplit hchunks cwd s dir _ he
    cases hp
  · exact ⟨_, writeShards_of_isEmptyDirectory hn hsplit hchunks hempty⟩

/-- The text of a byte is cut into two shards. -/
theorem writeShards_scripts_halves : ∃ files,
    (run (writeShards {} (.ofText "/".toList) 2 (Payload.encode false [104])) [] Store.empty).result =
      .ok files ∧
    files.shards.length = 2 ∧
    HoldsScripts {} []
      (run (writeShards {} (.ofText "/".toList) 2 (Payload.encode false [104])) [] Store.empty).store
      files := by
  have hn : ShardNaming.IsValid {} := ⟨by decide, by decide⟩
  have hempty : IsEmptyDirectory Store.empty [] (.ofText "/".toList) := ⟨[], by decide, rfl, fun _ => rfl⟩
  obtain ⟨-, hscripts, hreturns⟩ :=
    writeShards_scripts hn (by decide : (1 : Int) ≤ 2) false [104] [] Store.empty (.ofText "/".toList)
  obtain ⟨files, hfiles⟩ := hreturns hempty
  refine ⟨files, hfiles, ?_, hscripts files hfiles⟩
  have hsplit : Shard.split 2 (Payload.encode false [104]) = .ok ["aA".toList, "==".toList] := by
    decide +kernel
  have hshards := writeShards_of_isEmptyDirectory hn hsplit (by decide) hempty
  rw [Except.ok.inj (hfiles.symm.trans hshards)]
  rfl

end WasmEmbed.Build
