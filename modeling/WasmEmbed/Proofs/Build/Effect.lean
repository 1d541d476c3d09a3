import Mathlib.Data.List.Nodup
import WasmEmbed.Proofs.Build.Scripts
import WasmEmbed.Proofs.Shard.Chunk

/-!
# What writing shards leaves behind

If writing shards returns, the store differs from what it was in the directories on the way, the shards, the
aggregator and the leftovers of other builds, which are gone (`Fills`). If it fails because of a character
that is foreign to Base64 text, the directories on the way are there and the shards of the chunks in front
of that character, and nothing else has changed (`Begins`).

Whether it returns is told by the text and by what stands in its way (`writeShards_eq_ok_iff`).
-/

namespace WasmEmbed

/-! ## Names in the directory

What becomes of a file in the directory is told by its name: it is a shard of this build, its aggregator,
a leftover of another build, or none of these.
-/

namespace ShardNaming

/-- The name of a shard with a number of `keep` or more. The digits may be those of any script, and there
may be zeros in front of them. -/
def IsLeftover (n : ShardNaming) (keep : Nat) (name : Name) : Prop :=
  ∃ digits i, name = n.start ++ digits ++ '.' :: n.extension ∧ Text.StandsFor digits i ∧ keep ≤ i

/-- The name of a file that is written for this many chunks. -/
def Uses (n : ShardNaming) (count : Nat) (name : Name) : Prop :=
  name = n.index ∨ ∃ i < count, name = n.file i

end ShardNaming

namespace Build

open Store

variable {n : ShardNaming} {cwd : Location} {s s' : Store} {dir : Path} {maxChars : Int} {size k : Nat}
  {text : List Char}

/-- A stale name is the name of a shard that is not in use, with any digits that spell its number. -/
theorem isStale_iff {name : Name} : isStale n k name = true ↔ n.IsLeftover k name := by
  rw [isStale, Option.any_eq_true]
  constructor
  · rintro ⟨i, hindex, hkeep⟩
    obtain ⟨digits, hname, hdigits⟩ := Shard.index?_eq_some_iff.mp hindex
    exact ⟨digits, i, hname, hdigits, of_decide_eq_true hkeep⟩
  · rintro ⟨digits, i, hname, hdigits, hkeep⟩
    exact ⟨i, Shard.index?_eq_some_iff.mpr ⟨digits, hname, hdigits⟩, decide_eq_true hkeep⟩

/-- A shard with a number that is not in use is a leftover. -/
theorem isLeftover_file {i : Nat} : n.IsLeftover k (n.file i) ↔ k ≤ i := by
  rw [← isStale_iff, isStale_file, decide_eq_true_eq]

/-- The aggregator is no leftover. -/
theorem not_isLeftover_index : ¬ n.IsLeftover k n.index := by
  rw [← isStale_iff, isStale_index]
  exact Bool.false_ne_true

theorem file_ne_index (i : Nat) : n.file i ≠ n.index := fun h =>
  not_isLeftover_index (h ▸ isLeftover_file.mpr (Nat.le_refl i))

/-- No file that is written is a leftover. -/
theorem not_isLeftover_of_uses {name : Name} (h : n.Uses k name) : ¬ n.IsLeftover k name := by
  rcases h with rfl | ⟨i, hi, rfl⟩
  · exact not_isLeftover_index
  · rw [isLeftover_file]
    omega

/-- The paths of the files that are written are different. -/
theorem nodup_shardSet (hn : n.IsValid) (dir : Path) (chunks : List (List Char)) (text : List Char) :
    ((shardSet n dir chunks text).shards ++ [(shardSet n dir chunks text).index]).Nodup := by
  have hstems : ((List.range chunks.length).map n.stem ++ [Shard.indexStem]).Nodup := by
    refine List.nodup_append.mpr ⟨List.nodup_range.map (Shard.stem_injective n.start),
      List.nodup_singleton _, ?_⟩
    intro stem hstem index hindex
    obtain ⟨i, -, rfl⟩ := List.mem_map.mp hstem
    obtain rfl := List.mem_singleton.mp hindex
    exact fun h => file_ne_index (n := n) i (congrArg (Shard.withExtension · n.extension) h)
  have hplain : ∀ stem ∈ (List.range chunks.length).map n.stem ++ [Shard.indexStem],
      Path.IsPlain (Shard.withExtension stem n.extension) := by
    intro stem hstem
    rcases List.mem_append.mp hstem with hstem | hstem
    · obtain ⟨i, -, rfl⟩ := List.mem_map.mp hstem
      exact Shard.isPlain_file hn.start hn.extension i
    · obtain rfl := List.mem_singleton.mp hstem
      exact Shard.isPlain_index hn.extension
  have hpaths : (shardSet n dir chunks text).shards ++ [(shardSet n dir chunks text).index] =
      ((List.range chunks.length).map n.stem ++ [Shard.indexStem]).map (n.path dir) := by
    rw [List.map_append, List.map_singleton]
    rfl
  rw [hpaths]
  -- A plain name is the last one of its path, so the paths differ as the stems do.
  refine List.Nodup.map_on (fun stem hstem stem' hstem' h => ?_) hstems
  have hnames := congrArg Path.names h
  rw [ShardNaming.path, ShardNaming.path, Path.names_child (hplain stem hstem),
    Path.names_child (hplain stem' hstem')] at hnames
  exact List.append_cancel_right (List.cons.inj (List.append_cancel_left hnames)).1

/-! ## The effect

`Fills` speaks of every place of the store, not only of those in the directory. The directories on the way
are made first, so the places on the way are looked up on the store behind that.
-/

/-- The directories on the way to a directory are there, and the first `k` shards of a text are in it. -/
structure HoldsShards (n : ShardNaming) (cwd : Location) (dir : Path) (size : Nat) (text : List Char)
    (k : Nat)
    (s s' : Store) : Prop where
  opens : s'.locate cwd dir = .ok (target cwd dir)
  way : ∀ j, s'.get? (target cwd (dir.up j)) = some .directory ∧
    (s.get? (target cwd (dir.up j)) = none ∨ s.get? (target cwd (dir.up j)) = some .directory)
  shard : ∀ i < k, s'.get? (target cwd dir ++ [n.file i]) =
    some (.file (Text.Utf8.encode (Shard.scriptText (Shard.chunkAt size text i))))

/-- The first `k` shards of a text were written, and nothing else was done in their directory. -/
structure Begins (n : ShardNaming) (cwd : Location) (dir : Path) (size : Nat) (text : List Char) (k : Nat)
    (s s' : Store) : Prop extends HoldsShards n cwd dir size text k s s' where
  kept : ∀ l, (∀ j, l ≠ target cwd (dir.up j)) → (∀ i < k, l ≠ target cwd dir ++ [n.file i]) →
    s'.get? l = s.get? l

/-- All shards of a text were written, and the aggregator, and the leftovers in their directory were
removed. -/
structure Fills (n : ShardNaming) (cwd : Location) (dir : Path) (size : Nat) (text : List Char)
    (s s' : Store) : Prop extends HoldsShards n cwd dir size text (Shard.chunkCount size text) s s' where
  index : s'.get? (target cwd dir ++ [n.index]) = some (.file (Text.Utf8.encode
    (Shard.aggregator ((List.range (Shard.chunkCount size text)).map n.stem) n.extension)))
  removed : ∀ name content, n.IsLeftover (Shard.chunkCount size text) name →
    s.get? (target cwd dir ++ [name]) = some (.file content) → s'.get? (target cwd dir ++ [name]) = none
  kept : ∀ l, (∀ j, l ≠ target cwd (dir.up j)) →
    (∀ name, l = target cwd dir ++ [name] → ¬ n.Uses (Shard.chunkCount size text) name ∧
      (n.IsLeftover (Shard.chunkCount size text) name → ∀ content, s.get? l ≠ some (.file content))) →
    s'.get? l = s.get? l

/-- The changes behind the making of directories decide about a place that is not on the way. -/
theorem get?_replay_made_append {changes : List Change}
    (hallows : s.Allows ((pave s (way cwd dir)).made ++ changes)) {l : Location}
    (hway : ∀ j, l ≠ target cwd (dir.up j)) (hne : ∀ c ∈ changes, c.place ≠ l) :
    (s.replay ((pave s (way cwd dir)).made ++ changes)).get? l = s.get? l := by
  have hout : l ∉ way cwd dir := fun hmem => by
    obtain ⟨j, hj⟩ := mem_way_iff.mp hmem
    exact hway j hj
  rw [replay_append, get?_replay_of_forall_ne (allows_append.mp hallows).2 hne,
    get?_replay_pave_of_notMem hout]

/-- After the way was made, changes put the shards into the directory. -/
theorem holdsShards_of_changes (hopen : (pave s (way cwd dir)).blocked = none) {changes : List Change}
    (hallows : s.Allows ((pave s (way cwd dir)).made ++ changes))
    (hapart : changes.Pairwise fun c c' => c.place ≠ c'.place)
    (hshards : ∀ i < k, shardWrite n (target cwd dir) i (Shard.chunkAt size text i) ∈ changes) :
    HoldsShards n cwd dir size text k s (s.replay ((pave s (way cwd dir)).made ++ changes)) := by
  obtain ⟨-, hrest⟩ := allows_append.mp hallows
  rw [replay_append]
  refine ⟨locate_replay hrest (opens_of_pave hopen).1, ?_, ?_⟩
  · intro j
    have hmem : target cwd (dir.up j) ∈ way cwd dir := mem_way_iff.mpr ⟨j, rfl⟩
    exact ⟨get?_replay_directory hrest (get?_replay_pave hopen _ hmem), get?_of_mem_of_blocked hopen hmem⟩
  · intro i hi
    exact get?_replay_of_mem hrest hapart (hshards i hi)

/-- Each of the first chunks is written. -/
theorem mem_shardWrites_firstChunks {d : Location} {i : Nat} (hi : i < k) :
    shardWrite n d i (Shard.chunkAt size text i) ∈ shardWrites n d 0 (Shard.firstChunks size text k) :=
  mem_shardWrites.mpr ⟨i, _, Shard.getElem?_firstChunks hi, by rw [Nat.zero_add]⟩

/-- A chunk that is there has a number less than the number of chunks. -/
theorem lt_chunkCount_of_getElem? {i : Nat} {chunk : List Char}
    (h : (Shard.chunks size text)[i]? = some chunk) :
    i < Shard.chunkCount size text := by
  have hi := (List.getElem?_eq_some_iff.mp h).1
  rwa [Shard.length_chunks] at hi

/-- The changes that write the first `k` shards concern their places. -/
theorem exists_place_of_mem_shardWrites {d : Location} {c : Change}
    (hc : c ∈ shardWrites n d 0 (Shard.firstChunks size text k)) : ∃ i < k, c.place = d ++ [n.file i] := by
  obtain ⟨i, chunk, hchunk, rfl⟩ := mem_shardWrites.mp hc
  have hi := (List.getElem?_eq_some_iff.mp hchunk).1
  rw [Shard.length_firstChunks] at hi
  exact ⟨0 + i, by omega, rfl⟩

/-- Once the way was made and the plan was followed, the directory is filled. -/
theorem fills_of_plan (hopen : (pave s (way cwd dir)).blocked = none) {removes : List Change}
    (hremoves : IsRemoval n (target cwd dir) (Shard.chunks size text).length
      (s.replay (pave s (way cwd dir)).made)
      removes)
    (hallows : s.Allows ((pave s (way cwd dir)).made ++
      plan n (target cwd dir) (Shard.chunks size text) removes)) :
    Fills n cwd dir size text s
      (s.replay ((pave s (way cwd dir)).made ++
        plan n (target cwd dir) (Shard.chunks size text) removes)) := by
  -- No two changes of the plan concern one place, so what the plan has for a place is there in the end.
  have hapart := pairwise_plan hremoves
  obtain ⟨-, hrest⟩ := allows_append.mp hallows
  refine ⟨holdsShards_of_changes hopen hallows hapart fun i hi => ?_, ?_, ?_, ?_⟩
  · exact List.mem_append_left _ (List.mem_append_left _ (mem_shardWrites_firstChunks hi))
  · have hmem : indexWrite n (target cwd dir) (Shard.chunks size text).length ∈
        plan n (target cwd dir) (Shard.chunks size text) removes :=
      List.mem_append_right _ (List.mem_singleton.mpr rfl)
    rw [replay_append, ← Shard.length_chunks]
    exact get?_replay_of_mem hrest hapart hmem
  · intro name content hleft hfile
    -- A file is not on the way, so it is still there when the leftovers are removed.
    have hout : target cwd dir ++ [name] ∉ way cwd dir := fun hmem =>
      blocked_eq_none_iff.mp hopen _ hmem content hfile
    have hremove : .remove (target cwd dir ++ [name]) ∈ removes := by
      rw [← Shard.length_chunks] at hleft
      refine (hremoves.mem_iff _).mpr ⟨name, isStale_iff.mpr hleft, ⟨content, ?_⟩, rfl⟩
      rw [get?_replay_pave_of_notMem hout, hfile]
    rw [replay_append]
    exact get?_replay_of_mem hrest hapart (List.mem_append_left _ (List.mem_append_right _ hremove))
  · intro l hway hname
    refine get?_replay_made_append hallows hway fun c hc => ?_
    rintro rfl
    rcases (mem_plan hremoves).mp hc
      with ⟨i, chunk, hchunk, rfl⟩ | ⟨name, hstale, ⟨content, hfile⟩, rfl⟩ | rfl
    · exact (hname _ rfl).1 (Or.inr ⟨i, lt_chunkCount_of_getElem? hchunk, rfl⟩)
    · have hout : target cwd dir ++ [name] ∉ way cwd dir := fun hmem => by
        obtain ⟨j, hj⟩ := mem_way_iff.mp hmem
        exact hway j hj
      rw [get?_replay_pave_of_notMem hout] at hfile
      rw [Shard.length_chunks] at hstale
      exact (hname name rfl).2 (isStale_iff.mp hstale) content hfile
    · exact (hname _ rfl).1 (Or.inl rfl)

/-! ## Foreign characters

A chunk is checked when its script is written. So the chunks in front of the first one with a foreign
character are written, and neither the aggregator nor the removals are reached.
-/

/-- Chunks are written one after the other. -/
theorem writeChunks_append (n : ShardNaming) (dir : Path) (i : Nat) (front back : List (List Char)) :
    writeChunks n dir i (front ++ back) =
      writeChunks n dir i front >>= fun _ => writeChunks n dir (i + front.length) back := by
  induction front generalizing i with
  | nil => rw [List.nil_append, writeChunks, pure_bind, List.length_nil, Nat.add_zero]
  | cons chunk front ih =>
      have hnext : i + 1 + front.length = i + (chunk :: front).length := by
        rw [List.length_cons]
        omega
      rw [List.cons_append, writeChunks, writeChunks]
      simp only [ih, hnext, bind_assoc]

/-- In front of a chunk with a foreign character, shards are written; its own shard is not. -/
theorem ends_writeChunks_foreign {d : Location} (hn : n.IsValid) (hdir : s.locate cwd dir = .ok d)
    (hd : s.get? d = some .directory) (i : Nat) {good : List (List Char)} {bad : List Char}
    (hgood : ∀ chunk ∈ good, ∀ c ∈ chunk, Payload.Base64.isAllowed c = true)
    (hbad : ∃ c ∈ bad, Payload.Base64.isAllowed c = false) (rest : List (List Char)) :
    Ends (writeChunks n dir i (good ++ bad :: rest)) cwd s
      (writeEnd n dir s d (stemsFrom n i good.length) >>= fun _ => .error (.shard .foreignCharacter))
      ((shardWrites n d i good).takeWhile (isFree s)) := by
  have hends := ends_writeChunks hn hdir hd i hgood
  rw [writeChunks_append]
  cases hend : writeEnd n dir s d (stemsFrom n i good.length) with
  | error e =>
      rw [hend] at hends
      exact hends.bind_error
  | ok u =>
      rw [hend] at hends
      -- The script is made before its file is opened, so this failure leaves the place of the file alone.
      have hscript : Shard.script bad = .error .foreignCharacter := by
        obtain ⟨c, hc, hforeign⟩ := hbad
        rw [Shard.script, if_neg]
        intro hall
        rw [List.all_eq_true.mp hall c hc] at hforeign
        cases hforeign
      rw [← List.append_nil ((shardWrites n d i good).takeWhile (isFree s))]
      refine hends.bind ?_
      rw [writeChunks, hscript]
      exact (Ends.require_error _ _).bind_error

/-- If the way is open, the shards in front of the first foreign character are written, or a directory takes
the place of one of them. -/
theorem exists_ends_writeShards_foreign (hn : n.IsValid) (hmax : 1 ≤ maxChars) {front back : List Char}
    {c : Char}
    (htext : text = front ++ c :: back) (hfront : ∀ x ∈ front, Payload.Base64.isAllowed x = true)
    (hc : Payload.Base64.isAllowed c = false) (hopen : (pave s (way cwd dir)).blocked = none)
    {writes : List Change} (hwrites : writes = shardWrites n (target cwd dir) 0
      (Shard.firstChunks maxChars.toNat text (front.length / maxChars.toNat))) :
    ∃ e, Ends (writeShards n dir maxChars text) cwd s (.error e)
        ((pave s (way cwd dir)).made ++ writes.takeWhile (isFree (s.replay (pave s (way cwd dir)).made))) ∧
      ((∃ p, e = .path p) ∨
        e = .shard .foreignCharacter ∧ writes.all (isFree (s.replay (pave s (way cwd dir)).made)) =
          true) := by
  subst htext hwrites
  -- The chunk with the foreign character is the first that is refused.
  obtain ⟨hlt, hmem, hgood⟩ := Shard.exists_foreign_chunkAt (show 0 < maxChars.toNat by omega) hfront c back
  generalize front ++ c :: back = text at hlt hmem hgood ⊢
  generalize front.length / maxChars.toNat = k at hlt hmem hgood ⊢
  have hallowed : ∀ chunk ∈ Shard.firstChunks maxChars.toNat text k,
      ∀ x ∈ chunk, Payload.Base64.isAllowed x = true := by
    intro chunk hchunk
    obtain ⟨i, hi, rfl⟩ := List.mem_map.mp hchunk
    exact hgood i (List.mem_range.mp hi)
  obtain ⟨hlocate, hd⟩ := opens_of_pave hopen
  have hmade := ends_makeDirectories cwd s dir
  rw [Paving.result, hopen] at hmade
  have hends := ends_writeChunks_foreign hn hlocate hd 0 hallowed ⟨c, hmem, hc⟩
    ((Shard.chunks maxChars.toNat text).drop (k + 1))
  rw [← Shard.chunks_eq_append hlt] at hends
  rw [writeShards_eq, Shard.split_eq hmax]
  cases hend : writeEnd n dir (s.replay (pave s (way cwd dir)).made) (target cwd dir)
      (stemsFrom n 0 (Shard.firstChunks maxChars.toNat text k).length) with
  | ok u =>
      rw [hend] at hends
      exact ⟨_, (Ends.require_ok _ _).then (hmade.bind hends.bind_error),
        Or.inr ⟨rfl, (writeEnd_eq_ok_iff 0 _).mp hend⟩⟩
  | error e =>
      rw [hend] at hends
      exact ⟨e, (Ends.require_ok _ _).then (hmade.bind hends.bind_error),
        Or.inl (failsAtPaths_writeEnd _ e hend)⟩

/-! ## When it returns

The text must have no foreign character, the bound must be positive, and nothing may stand in the way of a
directory or of a file. Nothing else can go wrong.
-/

/-- Nothing is in the way of the files of a number of chunks. -/
structure HasRoom (n : ShardNaming) (cwd : Location) (dir : Path) (count : Nat) (s : Store) : Prop where
  way : ∀ j content, s.get? (target cwd (dir.up j)) ≠ some (.file content)
  place : ∀ name, n.Uses count name → s.get? (target cwd dir ++ [name]) ≠ some .directory ∧
    ∀ j, target cwd dir ++ [name] ≠ target cwd (dir.up j)

theorem blocked_eq_none_iff_up : (pave s (way cwd dir)).blocked = none ↔
    ∀ j content, s.get? (target cwd (dir.up j)) ≠ some (.file content) := by
  rw [blocked_eq_none_iff]
  constructor
  · exact fun h j => h _ (mem_way_iff.mpr ⟨j, rfl⟩)
  · intro h l hl
    obtain ⟨j, rfl⟩ := mem_way_iff.mp hl
    exact h j

/-- After a way was made, directories are on it and where they were before. -/
theorem get?_replay_pave_eq_directory_iff (hopen : (pave s (way cwd dir)).blocked = none) {l : Location} :
    (s.replay (pave s (way cwd dir)).made).get? l = some .directory ↔
      s.get? l = some .directory ∨ ∃ j, l = target cwd (dir.up j) := by
  rw [← mem_way_iff]
  constructor
  · intro h
    by_cases hl : l ∈ way cwd dir
    · exact Or.inr hl
    · rw [get?_replay_pave_of_notMem hl] at h
      exact Or.inl h
  · rintro (h | h)
    · exact get?_replay_directory (allows_pave s _) h
    · exact get?_replay_pave hopen l h

/-- The plan is followed to its end if there is room for the files. -/
theorem all_plan_iff (hopen : (pave s (way cwd dir)).blocked = none) {removes : List Change}
    (hremoves : IsRemoval n (target cwd dir) (Shard.chunks size text).length
      (s.replay (pave s (way cwd dir)).made)
      removes) :
    (plan n (target cwd dir) (Shard.chunks size text) removes).all
      (isFree (s.replay (pave s (way cwd dir)).made)) =
      true ↔ HasRoom n cwd dir (Shard.chunkCount size text) s := by
  have hfree : ∀ name, (s.replay (pave s (way cwd dir)).made).get? (target cwd dir ++ [name]) ≠
      some .directory ↔
      s.get? (target cwd dir ++ [name]) ≠ some .directory ∧ ∀ j, target cwd dir ++ [name] ≠
        target cwd (dir.up j) := by
    intro name
    rw [ne_eq, get?_replay_pave_eq_directory_iff hopen, not_or, not_exists]
  rw [List.all_eq_true]
  constructor
  · intro h
    refine ⟨blocked_eq_none_iff_up.mp hopen, fun name hname => (hfree name).mp ?_⟩
    rcases hname with rfl | ⟨i, hi, rfl⟩
    · exact bne_iff_ne.mp (h _ (List.mem_append_right _ (List.mem_singleton.mpr rfl)))
    · exact bne_iff_ne.mp
        (h _ (List.mem_append_left _ (List.mem_append_left _ (mem_shardWrites_firstChunks hi))))
  · intro h c hc
    rcases (mem_plan hremoves).mp hc with ⟨i, chunk, hchunk, rfl⟩ | hremove | rfl
    · exact bne_iff_ne.mpr ((hfree _).mpr (h.place _ (Or.inr ⟨i, lt_chunkCount_of_getElem? hchunk, rfl⟩)))
    · exact isFree_of_mem_removal hremoves c ((hremoves.mem_iff c).mpr hremove)
    · exact bne_iff_ne.mpr ((hfree _).mpr (h.place _ (Or.inl rfl)))

/-- A bound that is not positive is refused before anything is changed. -/
theorem ends_writeShards_maxChars (hmax : maxChars < 1) :
    Ends (writeShards n dir maxChars text) cwd s (.error (.shard (.maxChars maxChars))) [] := by
  rw [writeShards_eq, Shard.split, if_pos hmax]
  exact (Ends.require_error _ _).bind_error

/-- Writing shards returns if the text is Base64 text, its chunks are not to be empty, and there is room. -/
theorem writeShards_eq_ok_iff (hn : n.IsValid) {files : ShardSet} :
    (run (writeShards n dir maxChars text) cwd s).result = .ok files ↔
      1 ≤ maxChars ∧ (∀ c ∈ text, Payload.Base64.isAllowed c = true) ∧
        HasRoom n cwd dir (Shard.chunkCount maxChars.toNat text) s ∧
        files = shardSet n dir (Shard.chunks maxChars.toNat text) text := by
  by_cases hmax : maxChars < 1
  · rw [(ends_writeShards_maxChars hmax).outcome.1]
    exact iff_of_false (fun h => nomatch h) fun h => absurd h.1 (by omega)
  · have hsplit := Shard.split_eq (show 1 ≤ maxChars by omega) text
    -- The way comes first, then the text as far as its chunks are written, and the places of the files last.
    cases hopen : (pave s (way cwd dir)).blocked with
    | some left =>
        obtain ⟨e, -, hends⟩ := exists_ends_writeShards_blocked (n := n) hsplit hopen
        have hroom : ¬ HasRoom n cwd dir (Shard.chunkCount maxChars.toNat text) s := fun h => by
          rw [blocked_eq_none_iff_up.mpr h.way] at hopen
          cases hopen
        rw [hends.outcome.1]
        exact iff_of_false (fun h => nomatch h) fun h => hroom h.2.2.1
    | none =>
        rcases Shard.isAllowed_or_exists_foreign text with htext | ⟨front, c, back, htext, hfront, hc⟩
        · obtain ⟨removes, hremoves, hends⟩ :=
            exists_ends_writeShards_paved hn hsplit (Shard.isAllowed_of_mem_chunks htext) hopen rfl
          rw [hends.outcome.1, fillEnd_eq_ok_iff hremoves, all_plan_iff hopen hremoves]
          exact ⟨fun h => ⟨by omega, htext, h⟩, fun h => h.2.2⟩
        · obtain ⟨e, hends, -⟩ :=
            exists_ends_writeShards_foreign hn (show 1 ≤ maxChars by omega) htext hfront hc hopen rfl
          rw [hends.outcome.1]
          refine iff_of_false (fun h => nomatch h) fun h => ?_
          have hgood := h.2.1 c (by simp [htext])
          rw [hc] at hgood
          cases hgood

/-! ## The effect of a run

The effect is told of a run, for which the plan is that of the store behind the directories that were
made.
-/

/-- Writing shards that returns follows the plan to its end. -/
theorem exists_plan_of_writeShards (hn : n.IsValid) {files : ShardSet}
    (h : (run (writeShards n dir maxChars text) cwd s).result = .ok files) :
    (pave s (way cwd dir)).blocked = none ∧ files = shardSet n dir (Shard.chunks maxChars.toNat text) text ∧
      ∃ removes, IsRemoval n (target cwd dir) (Shard.chunks maxChars.toNat text).length
          (s.replay (pave s (way cwd dir)).made) removes ∧
        Ends (writeShards n dir maxChars text) cwd s (.ok files)
          ((pave s (way cwd dir)).made ++ plan n (target cwd dir)
            (Shard.chunks maxChars.toNat text) removes) := by
  obtain ⟨hmax, htext, hroom, hfiles⟩ := (writeShards_eq_ok_iff hn).mp h
  have hopen := blocked_eq_none_iff_up.mpr hroom.way
  obtain ⟨removes, hremoves, hends⟩ :=
    exists_ends_writeShards_paved hn (Shard.split_eq hmax text)
      (Shard.isAllowed_of_mem_chunks htext) hopen rfl
  have hfree := (all_plan_iff hopen hremoves).mpr hroom
  rw [executed, List.takeWhile_eq_self_iff.mpr (List.all_eq_true.mp hfree), ← hends.outcome.1, h] at hends
  exact ⟨hopen, hfiles, removes, hremoves, hends⟩

/-- A run that returns has filled the directory. -/
theorem fills_of_writeShards (hn : n.IsValid) {files : ShardSet}
    (h : (run (writeShards n dir maxChars text) cwd s).result = .ok files) :
    Fills n cwd dir maxChars.toNat text s (run (writeShards n dir maxChars text) cwd s).store := by
  obtain ⟨hopen, -, removes, hremoves, hends⟩ := exists_plan_of_writeShards hn h
  rw [hends.outcome.2.2]
  exact fills_of_plan hopen hremoves hends.allows

/-- Writing shards that returns fills the directory. The paths that it answers are different, and no file
that it wrote is removed again. -/
theorem writeShards_fills (hn : n.IsValid) {files : ShardSet}
    (h : (run (writeShards n dir maxChars text) cwd s).result = .ok files) :
    Fills n cwd dir maxChars.toNat text s (run (writeShards n dir maxChars text) cwd s).store ∧
      files.shards = (List.range (Shard.chunkCount maxChars.toNat text)).map
        (fun i => n.path dir (n.stem i)) ∧
      files.index = n.path dir Shard.indexStem ∧ files.totalChars = text.length ∧
      (files.shards ++ [files.index]).Nodup ∧
      ∀ name, n.Uses (Shard.chunkCount maxChars.toNat text) name →
        .remove (target cwd dir ++ [name]) ∉
          (run (writeShards n dir maxChars text) cwd s).journal.changes := by
  obtain ⟨-, rfl, removes, hremoves, hends⟩ := exists_plan_of_writeShards hn h
  rw [hends.outcome.2.1]
  refine ⟨fills_of_writeShards hn h, ?_, rfl, rfl, nodup_shardSet hn dir _ text, ?_⟩
  · rw [shardSet, Shard.length_chunks, List.map_map]
    rfl
  · intro name hname hmem
    rcases List.mem_append.mp hmem with hmem | hmem
    · obtain ⟨l, -, hmake, -⟩ := exists_of_mem_made hmem
      cases hmake
    · -- In the plan only leftovers are removed.
      have hremove : .remove (target cwd dir ++ [name]) ∈ removes := by
        rcases List.mem_append.mp hmem with hmem | hmem
        · rcases List.mem_append.mp hmem with hmem | hmem
          · obtain ⟨i, chunk, -, hwrite⟩ := mem_shardWrites.mp hmem
            cases hwrite
          · exact hmem
        · cases List.mem_singleton.mp hmem
      obtain ⟨name', hstale, -, hplace⟩ := (hremoves.mem_iff _).mp hremove
      have hsame : name = name' := (List.cons.inj (List.append_cancel_left (Change.remove.inj hplace))).1
      rw [Shard.length_chunks, ← hsame] at hstale
      exact not_isLeftover_of_uses hname (isStale_iff.mp hstale)

namespace Sample

/-- A directory with the first shard of another build, three leftovers, one of which is a directory, and a
file whose name only looks like that of a shard. -/
def littered : Store :=
  ⟨[(["w".toList], .directory), (["w".toList, "shard0.js".toList], .file [104]),
    (["w".toList, "shard007.js".toList], .file []), (["w".toList, "shard\u0667.js".toList], .file []),
    (["w".toList, "shard9.js".toList], .directory), (["w".toList, "shard1x.js".toList], .file [])]⟩

/-- The default names are valid. -/
theorem isValid_naming : ShardNaming.IsValid {} := ⟨by decide, by decide⟩

theorem target_up (j : Nat) : target [] ((Path.ofText "w".toList).up j) = ["w".toList] ∨
    target [] ((Path.ofText "w".toList).up j) = [] := by
  cases j with
  | zero => exact Or.inl rfl
  | succ j =>
      have hnames : ((Path.ofText "w".toList).up (j + 1)).names = [] := by
        rw [Path.up, show (Path.ofText "w".toList).names = ["w".toList] from rfl, List.length_singleton,
          Nat.sub_eq_zero_of_le (Nat.le_add_left 1 j)]
        rfl
      refine Or.inr ?_
      rw [target, hnames]
      rfl

theorem ne_target_up (name : Name) (j : Nat) :
    ["w".toList, name] ≠ target [] ((Path.ofText "w".toList).up j) := by
  intro h
  rcases target_up j with hup | hup
  · rw [hup] at h
    cases h
  · rw [hup] at h
    cases h

/-- Nothing stands in the way of two shards. -/
theorem hasRoom_littered : HasRoom {} [] (.ofText "w".toList) 2 littered := by
  have hdirectory : ∀ j, littered.get? (target [] ((Path.ofText "w".toList).up j)) = some .directory := by
    intro j
    rcases target_up j with h | h
    · rw [h]
      decide
    · rw [h]
      decide
  refine ⟨fun j content h => ?_, fun name hname => ⟨?_, fun j h => ?_⟩⟩
  · rw [hdirectory j] at h
    cases h
  · rcases hname with rfl | ⟨i, hi, rfl⟩
    · decide
    · have hcases : i = 0 ∨ i = 1 := by omega
      rcases hcases with rfl | rfl
      · decide
      · decide
  · exact ne_target_up name j h

end Sample

/-- The files that are leftovers are removed, whatever their digits look like, and all else is left alone. -/
theorem writeShards_fills_littered : ∃ files,
    (run (writeShards {} (.ofText "w".toList) 3 "aA==".toList) [] Sample.littered).result = .ok files ∧
    ∀ s, s = (run (writeShards {} (.ofText "w".toList) 3 "aA==".toList) [] Sample.littered).store →
      s.get? ["w".toList, "shard1.js".toList] = some (.file (Text.Utf8.encode (Shard.scriptText ['=']))) ∧
      s.get? ["w".toList, "shard007.js".toList] = none ∧ s.get? ["w".toList, "shard\u0667.js".toList] = none ∧
      s.get? ["w".toList, "shard9.js".toList] = some .directory ∧
      s.get? ["w".toList, "shard1x.js".toList] = some (.file []) := by
  have hreturns : (run (writeShards {} (.ofText "w".toList) 3 "aA==".toList) [] Sample.littered).result =
      .ok _ :=
    (writeShards_eq_ok_iff Sample.isValid_naming).mpr ⟨by decide, by decide, Sample.hasRoom_littered, rfl⟩
  obtain ⟨hfills, -⟩ := writeShards_fills Sample.isValid_naming hreturns
  refine ⟨_, hreturns, fun s hs => ?_⟩
  rw [← hs] at hfills
  have hkept : ∀ name e, Sample.littered.get? ["w".toList, name] = some e →
      ¬ ShardNaming.Uses {} 2 name → (isStale {} 2 name = true → e = .directory) →
      s.get? ["w".toList, name] = some e := by
    intro name e he huses hstale
    refine (hfills.kept _ (Sample.ne_target_up name) fun name' h => ?_).trans he
    obtain rfl : name = name' := (List.cons.inj (List.cons.inj h).2).1
    refine ⟨huses, fun hleft content hfile => ?_⟩
    rw [he, hstale (isStale_iff.mpr hleft)] at hfile
    cases hfile
  have huses : ∀ name, name ∉ [ShardNaming.index {}, ShardNaming.file {} 0, ShardNaming.file {} 1] →
      ¬ ShardNaming.Uses {} 2 name := by
    rintro name hname (rfl | ⟨i, hi, rfl⟩)
    · simp at hname
    · have hcases : i = 0 ∨ i = 1 := by omega
      rcases hcases with rfl | rfl <;> simp at hname
  refine ⟨hfills.shard 1 (by decide), ?_, ?_, ?_, ?_⟩
  · exact hfills.removed _ [] (isStale_iff.mp (by decide)) (by decide)
  · exact hfills.removed _ [] (isStale_iff.mp (by decide)) (by decide)
  · exact hkept _ _ (by decide) (huses _ (by decide)) fun _ => rfl
  · exact hkept _ _ (by decide) (huses _ (by decide)) (by decide)

/-- Once the way was made and the first shards were written, nothing else has changed. -/
theorem begins_of_shardWrites (hopen : (pave s (way cwd dir)).blocked = none)
    (hallows : s.Allows ((pave s (way cwd dir)).made ++
      shardWrites n (target cwd dir) 0 (Shard.firstChunks size text k))) :
    Begins n cwd dir size text k s (s.replay ((pave s (way cwd dir)).made ++
      shardWrites n (target cwd dir) 0 (Shard.firstChunks size text k))) := by
  refine ⟨holdsShards_of_changes hopen hallows (pairwise_shardWrites 0 _)
    fun i hi => mem_shardWrites_firstChunks hi, fun l hway hshards => ?_⟩
  refine get?_replay_made_append hallows hway fun c hc => ?_
  obtain ⟨i, hi, hplace⟩ := exists_place_of_mem_shardWrites hc
  rw [hplace]
  exact (hshards i hi).symm

/-- Where no path is in the way, writing shards ends at the first foreign character. -/
theorem outcome_writeShards_foreign (hn : n.IsValid)
    (hpaths : ∀ p, (run (writeShards n dir maxChars text) cwd s).result ≠ .error (.path p))
    {front back : List Char}
    {c : Char} (hmax : 1 ≤ maxChars) (htext : text = front ++ c :: back)
    (hfront : ∀ x ∈ front, Payload.Base64.isAllowed x = true) (hc : Payload.Base64.isAllowed c = false) :
    (run (writeShards n dir maxChars text) cwd s).result = .error (.shard .foreignCharacter) ∧
      Begins n cwd dir maxChars.toNat text (front.length / maxChars.toNat) s
        (run (writeShards n dir maxChars text) cwd s).store := by
  cases hopen : (pave s (way cwd dir)).blocked with
  | some left =>
      obtain ⟨e, hresult, hends⟩ := exists_ends_writeShards_blocked (n := n) (Shard.split_eq hmax text) hopen
      obtain ⟨p, rfl⟩ := Paving.failsAtPaths_result _ dir e hresult
      exact absurd hends.outcome.1 (hpaths p)
  | none =>
      obtain ⟨e, hends, hcase⟩ := exists_ends_writeShards_foreign hn hmax htext hfront hc hopen rfl
      rcases hcase with ⟨p, rfl⟩ | ⟨rfl, hfree⟩
      · exact absurd hends.outcome.1 (hpaths p)
      · rw [List.takeWhile_eq_self_iff.mpr (List.all_eq_true.mp hfree)] at hends
        rw [hends.outcome.1, hends.outcome.2.2]
        exact ⟨rfl, begins_of_shardWrites hopen hends.allows⟩

/-- Where no path is in the way, writing shards fails because of a shard exactly if the chunks were to be
empty or the text is no Base64 text. In the first case nothing changes. In the second one the shards are
written that come in front of the first foreign character, and nothing else. -/
theorem writeShards_fails (hn : n.IsValid)
    (hpaths : ∀ p, (run (writeShards n dir maxChars text) cwd s).result ≠ .error (.path p)) :
    ((∃ e, (run (writeShards n dir maxChars text) cwd s).result = .error (.shard e)) ↔
      maxChars < 1 ∨ ∃ c ∈ text, Payload.Base64.isAllowed c = false) ∧
    (maxChars < 1 →
      (run (writeShards n dir maxChars text) cwd s).result = .error (.shard (.maxChars maxChars)) ∧
      (run (writeShards n dir maxChars text) cwd s).journal.changes = [] ∧
      (run (writeShards n dir maxChars text) cwd s).store = s) ∧
    ∀ front c back, 1 ≤ maxChars → text = front ++ c :: back →
      (∀ x ∈ front, Payload.Base64.isAllowed x = true) → Payload.Base64.isAllowed c = false →
      (run (writeShards n dir maxChars text) cwd s).result = .error (.shard .foreignCharacter) ∧
      Begins n cwd dir maxChars.toNat text (front.length / maxChars.toNat) s
        (run (writeShards n dir maxChars text) cwd s).store := by
  refine ⟨⟨fun ⟨e, he⟩ => ?_, ?_⟩, fun hmax => (ends_writeShards_maxChars hmax).outcome,
    fun front c back hmax htext hfront hc => outcome_writeShards_foreign hn hpaths hmax htext hfront hc⟩
  · -- With Base64 text, all that can fail is a path.
    by_contra hgood
    rw [not_or, not_exists] at hgood
    have htext : ∀ c ∈ text, Payload.Base64.isAllowed c = true := by
      intro c hc
      cases hallowed : Payload.Base64.isAllowed c with
      | true => rfl
      | false => exact absurd ⟨hc, hallowed⟩ (hgood.2 c)
    obtain ⟨p, hp⟩ := failsAtPaths_writeShards hn (Shard.split_eq (by omega) text)
      (Shard.isAllowed_of_mem_chunks htext) cwd s dir _ he
    cases hp
  · rintro (hmax | ⟨c, hmem, hc⟩)
    · exact ⟨_, (ends_writeShards_maxChars hmax).outcome.1⟩
    · by_cases hmax : maxChars < 1
      · exact ⟨_, (ends_writeShards_maxChars hmax).outcome.1⟩
      · rcases Shard.isAllowed_or_exists_foreign text with htext | ⟨front, c', back, htext, hfront, hc'⟩
        · rw [htext c hmem] at hc
          cases hc
        · exact ⟨_, (outcome_writeShards_foreign hn hpaths (by omega) htext hfront hc').1⟩

/-- Of two chunks the second one has a foreign character: the first shard is written anew, and the leftovers
stay. -/
theorem writeShards_fails_littered :
    (run (writeShards {} (.ofText "w".toList) 2 "aAB!".toList) [] Sample.littered).result =
      .error (.shard .foreignCharacter) ∧
    Begins {} [] (.ofText "w".toList) 2 "aAB!".toList 1 Sample.littered
      (run (writeShards {} (.ofText "w".toList) 2 "aAB!".toList) [] Sample.littered).store := by
  have hresult : (run (writeShards {} (.ofText "w".toList) 2 "aAB!".toList) [] Sample.littered).result =
      .error (.shard .foreignCharacter) := by decide +kernel
  have hpaths : ∀ p, (run (writeShards {} (.ofText "w".toList) 2 "aAB!".toList) [] Sample.littered).result ≠
      .error (.path p) := by
    intro p h
    rw [hresult] at h
    cases h
  obtain ⟨-, -, hforeign⟩ := writeShards_fails Sample.isValid_naming hpaths
  exact hforeign ['a', 'A', 'B'] '!' [] (by decide) (by decide) (by decide) (by decide)

end Build

end WasmEmbed
