import WasmEmbed.Proofs.Build.Effect

/-!
# Writing shards several times

Texts are written into an empty directory one after the other, and each attempt may fail. What is found
there in between is litter: files named like those of shards, and directories that a path goes through
(`Litters`). One change that writing shards makes leaves nothing but litter (`Litters.apply`), so all
attempts together do.

If the last attempt returns, the litter is gone: the store is as if there had been no other attempt
(`writeShards_afterAll`). Only directories remain that the other attempts went through.
-/

namespace WasmEmbed

namespace Build

open Store

variable {n : ShardNaming} {cwd d : Location} {s s' : Store} {dir : Path} {maxChars : Int} {size count : Nat}
  {text : List Char} {paths : List Path}

/-! ## What writing shards may change -/

/-- The changes that writing shards may make. -/
inductive IsOwn (n : ShardNaming) (cwd : Location) (dir : Path) : Change → Prop
  | makeDirectory (j : Nat) : IsOwn n cwd dir (.makeDirectory (target cwd (dir.up j)))
  | write {count : Nat} {name : Name} (h : n.Uses count name) (content : List UInt8) :
      IsOwn n cwd dir (.write (target cwd dir ++ [name]) content)
  | remove (name : Name) : IsOwn n cwd dir (.remove (target cwd dir ++ [name]))

theorem isOwn_of_mem_made {c : Change} (h : c ∈ (pave s (way cwd dir)).made) : IsOwn n cwd dir c := by
  obtain ⟨l, hl, rfl, -⟩ := exists_of_mem_made h
  obtain ⟨j, rfl⟩ := mem_way_iff.mp hl
  exact .makeDirectory j

theorem isOwn_of_mem_shardWrites {chunks : List (List Char)} {c : Change}
    (h : c ∈ shardWrites n (target cwd dir) 0 chunks) : IsOwn n cwd dir c := by
  obtain ⟨i, chunk, -, rfl⟩ := mem_shardWrites.mp h
  exact .write (Or.inr ⟨0 + i, Nat.lt_succ_self _, rfl⟩) _

theorem isOwn_of_mem_plan {chunks : List (List Char)} {removes : List Change}
    (hremoves : IsRemoval n (target cwd dir) chunks.length s removes) {c : Change}
    (h : c ∈ plan n (target cwd dir) chunks removes) : IsOwn n cwd dir c := by
  rcases (mem_plan hremoves).mp h with ⟨i, chunk, -, rfl⟩ | ⟨name, -, -, rfl⟩ | rfl
  · exact .write (Or.inr ⟨i, Nat.lt_succ_self _, rfl⟩) _
  · exact .remove name
  · exact .write (Or.inl rfl : n.Uses chunks.length n.index) _

/-- Whatever text it is and however it ends, writing shards makes changes of its own only. -/
theorem exists_ends_writeShards_own (hn : n.IsValid) (cwd : Location) (s : Store) (dir : Path)
    (maxChars : Int)
    (text : List Char) :
    ∃ r changes, Ends (writeShards n dir maxChars text) cwd s r changes ∧ ∀ c ∈ changes,
    IsOwn n cwd dir c := by
  -- The cases are those in which writing shards ends: the bound, the way, a foreign character, a directory.
  by_cases hmax : maxChars < 1
  · exact ⟨_, _, ends_writeShards_maxChars hmax, by simp⟩
  · have hsplit := Shard.split_eq (show 1 ≤ maxChars by omega) text
    cases hopen : (pave s (way cwd dir)).blocked with
    | some left =>
        obtain ⟨e, -, hends⟩ := exists_ends_writeShards_blocked (n := n) hsplit hopen
        exact ⟨_, _, hends, fun c hc => isOwn_of_mem_made hc⟩
    | none =>
        rcases Shard.isAllowed_or_exists_foreign text with htext | ⟨front, c, back, htext, hfront, hc⟩
        · obtain ⟨removes, hremoves, hends⟩ :=
            exists_ends_writeShards_paved hn hsplit (Shard.isAllowed_of_mem_chunks htext) hopen rfl
          refine ⟨_, _, hends, fun c hc => ?_⟩
          rcases List.mem_append.mp hc with hc | hc
          · exact isOwn_of_mem_made hc
          · exact isOwn_of_mem_plan hremoves ((List.takeWhile_sublist _).subset hc)
        · obtain ⟨e, hends, -⟩ :=
            exists_ends_writeShards_foreign hn (show 1 ≤ maxChars by omega) htext hfront hc hopen rfl
          refine ⟨_, _, hends, fun c hc => ?_⟩
          rcases List.mem_append.mp hc with hc | hc
          · exact isOwn_of_mem_made hc
          · exact isOwn_of_mem_shardWrites ((List.takeWhile_sublist _).subset hc)

/-! ## Litter -/

/-- In `s'` nothing stands that did not stand in `s`, but for directories that these paths go through, and
files in the directory `d` that are named like those of shards. -/
def Litters (n : ShardNaming) (cwd d : Location) (paths : List Path) (s s' : Store) : Prop :=
  ∀ l, s'.get? l = s.get? l ∨ s.get? l = none ∧
    ((s'.get? l = some .directory ∧ ∃ p ∈ paths, ∃ j, l = target cwd (p.up j)) ∨
      ∃ name count content, n.Uses count name ∧ l = d ++ [name] ∧ s'.get? l = some (.file content))

theorem Litters.refl (s : Store) : Litters n cwd d paths s s := fun _ => Or.inl rfl

/-- One change of a path to an empty directory. -/
theorem Litters.apply (hempty : ∀ name, s.get? (d ++ [name]) = none) (h : Litters n cwd d paths s s')
    {c : Change}
    (hc : c.IsAllowed s') (hdir : dir ∈ paths) (hd : target cwd dir = d) (hown : IsOwn n cwd dir c) :
    Litters n cwd d paths s (c.apply s') := by
  subst hd
  intro l
  rw [get?_apply hc]
  split
  · next hplace =>
      subst hplace
      cases hown with
      | makeDirectory j =>
          -- A directory is made only where nothing stands, so `s` has nothing there either.
          have hnone : s'.get? (target cwd (dir.up j)) = none := hc
          refine Or.inr ⟨?_, Or.inl ⟨rfl, dir, hdir, j, rfl⟩⟩
          rcases h (target cwd (dir.up j)) with hsame | ⟨hfree, -⟩
          · exact hsame.symm.trans hnone
          · exact hfree
      | write huses content => exact Or.inr ⟨hempty _, Or.inr ⟨_, _, content, huses, rfl, rfl⟩⟩
      | remove name => exact Or.inl (hempty name).symm
  · exact h l

theorem Litters.replay (hempty : ∀ name, s.get? (d ++ [name]) = none) (hdir : dir ∈ paths)
    (hd : target cwd dir = d)
    {changes : List Change} (hallows : s'.Allows changes) (hown : ∀ c ∈ changes, IsOwn n cwd dir c)
    (h : Litters n cwd d paths s s') : Litters n cwd d paths s (s'.replay changes) := by
  induction changes generalizing s' with
  | nil => exact h
  | cons c rest ih =>
      exact ih hallows.2 (fun c' hc' => hown c' (List.mem_cons_of_mem c hc'))
        (h.apply hempty hallows.1 hdir hd (hown c List.mem_cons_self))

/-! ## One text after the other -/

/-- A text that is to be written as shards into a directory. -/
structure Writing where
  dir : Path
  maxChars : Int
  text : List Char

/-- Writes the text as shards. -/
def Writing.build (n : ShardNaming) (w : Writing) : Build ShardSet := writeShards n w.dir w.maxChars w.text

/-- The store after texts were written one after the other. An attempt that fails leaves what it did until
then. -/
def afterAll (n : ShardNaming) (cwd : Location) (s : Store) (writings : List Writing) : Store :=
  writings.foldl (fun s w => (run (w.build n) cwd s).store) s

theorem afterAll_cons (w : Writing) (writings : List Writing) :
    afterAll n cwd s (w :: writings) = afterAll n cwd (run (w.build n) cwd s).store writings := rfl

theorem afterAll_concat (writings : List Writing) (w : Writing) :
    afterAll n cwd s (writings ++ [w]) = (run (w.build n) cwd (afterAll n cwd s writings)).store :=
  List.foldl_concat ..

theorem litters_afterAll (hn : n.IsValid) (hempty : ∀ name, s.get? (d ++ [name]) = none)
    {writings : List Writing}
    (hdirs : ∀ w ∈ writings, w.dir ∈ paths ∧ target cwd w.dir = d) (h : Litters n cwd d paths s s') :
    Litters n cwd d paths s (afterAll n cwd s' writings) := by
  induction writings generalizing s' with
  | nil => exact h
  | cons w rest ih =>
      obtain ⟨hdir, hd⟩ := hdirs w List.mem_cons_self
      obtain ⟨r, changes, hends, hown⟩ := exists_ends_writeShards_own hn cwd s' w.dir w.maxChars w.text
      rw [afterAll_cons, Writing.build, hends.outcome.2.2]
      exact ih (fun w' hw' => hdirs w' (List.mem_cons_of_mem w hw'))
        (h.replay hempty hdir hd hends.allows hown)

/-! ## The last text -/

/-- If there is room among the litter, there is room without it. -/
theorem HasRoom.of_litters (hempty : ∀ name, s.get? (target cwd dir ++ [name]) = none)
    (h : Litters n cwd (target cwd dir) paths s s') (hroom : HasRoom n cwd dir count s') :
    HasRoom n cwd dir count s := by
  refine ⟨fun j content hfile => ?_, fun name hname => ⟨by simp [hempty], (hroom.place name hname).2⟩⟩
  rcases h (target cwd (dir.up j)) with hsame | ⟨hfree, -⟩
  · exact hroom.way j content (hsame.trans hfile)
  · rw [hfree] at hfile
    cases hfile

/-- What was in no use and is no leftover file is as it was before the directory was filled. -/
theorem Fills.get?_eq (h : Fills n cwd dir size text s s') {l : Location}
    (hway : ∀ j, l ≠ target cwd (dir.up j))
    (huses : ∀ name, l = target cwd dir ++ [name] → ¬ n.Uses (Shard.chunkCount size text) name)
    (hfile : ∀ name content, l = target cwd dir ++ [name] → n.IsLeftover (Shard.chunkCount size text) name →
      s.get? l ≠ some (.file content)) : s'.get? l = s.get? l :=
  h.kept l hway fun name hl => ⟨huses name hl, fun hleft content => hfile name content hl hleft⟩

/-- What is in an empty directory that was filled. -/
theorem Fills.get?_ne_none_iff (h : Fills n cwd dir size text s s')
    (hempty : ∀ name, s.get? (target cwd dir ++ [name]) = none) {name : Name} :
    s'.get? (target cwd dir ++ [name]) ≠ none ↔ n.Uses (Shard.chunkCount size text) name ∨
      ∃ j, target cwd dir ++ [name] = target cwd (dir.up j) := by
  constructor
  · intro hsome
    by_contra hnot
    rw [not_or, not_exists] at hnot
    refine hsome ((h.get?_eq hnot.2 (fun name' hl => ?_) fun name' content hl _ => ?_).trans (hempty name))
    · rw [← (List.cons.inj (List.append_cancel_left hl)).1]
      exact hnot.1
    · rw [hempty]
      simp
  · rintro ((rfl | ⟨i, hi, rfl⟩) | ⟨j, hj⟩)
    · rw [h.index]
      simp
    · rw [h.shard i hi]
      simp
    · rw [hj, (h.way j).1]
      simp

/-- A directory that is filled among litter is filled as it would be without it. -/
theorem get?_of_fills_litters (hempty : ∀ name, s.get? (target cwd dir ++ [name]) = none)
    (h : Litters n cwd (target cwd dir) paths s s') {t t' : Store} (hlast : Fills n cwd dir size text s' t')
    (halone : Fills n cwd dir size text s t) (l : Location) :
    t'.get? l = t.get? l ∨
      t'.get? l = some .directory ∧ t.get? l = none ∧ ∃ p ∈ paths, ∃ j, l = target cwd (p.up j) := by
  -- The way and the files of the text are the same in both stores, whatever stood there.
  by_cases hway : ∃ j, l = target cwd (dir.up j)
  · obtain ⟨j, rfl⟩ := hway
    exact Or.inl ((hlast.way j).1.trans (halone.way j).1.symm)
  rw [not_exists] at hway
  by_cases huses : ∃ name, l = target cwd dir ++ [name] ∧ n.Uses (Shard.chunkCount size text) name
  · obtain ⟨name, rfl, rfl | ⟨i, hi, rfl⟩⟩ := huses
    · exact Or.inl (hlast.index.trans halone.index.symm)
    · exact Or.inl ((hlast.shard i hi).trans (halone.shard i hi).symm)
  have hunused : ∀ name, l = target cwd dir ++ [name] → ¬ n.Uses (Shard.chunkCount size text) name :=
    fun name hl hname => huses ⟨name, hl, hname⟩
  have hbefore : t.get? l = s.get? l := halone.get?_eq hway hunused fun name content hl _ => by
    rw [hl, hempty]
    simp
  by_cases hfile : ∃ name content, l = target cwd dir ++ [name] ∧
      n.IsLeftover (Shard.chunkCount size text) name ∧ s'.get? l = some (.file content)
  · obtain ⟨name, content, rfl, hleft, hfile⟩ := hfile
    exact Or.inl ((hlast.removed name content hleft hfile).trans (hbefore.trans (hempty name)).symm)
  rw [hlast.get?_eq hway hunused fun name content hl hleft hin => hfile ⟨name, content, hl, hleft, hin⟩,
    hbefore]
  rcases h l with hsame | ⟨hnone, ⟨hdirectory, hpath⟩ | ⟨name, k, content, hname, hl, hin⟩⟩
  · exact Or.inl hsame
  · exact Or.inr ⟨hdirectory, hnone, hpath⟩
  · -- Among the files of the litter those that are not used are leftovers, and they are gone.
    refine absurd ⟨name, content, hl, ?_, hin⟩ hfile
    rcases hname with rfl | ⟨i, -, rfl⟩
    · exact absurd (Or.inl rfl) (hunused _ hl)
    · rw [isLeftover_file]
      by_contra hlt
      exact hunused _ hl (Or.inr ⟨i, by omega, rfl⟩)

/-- If writing the last of some texts returns, the store is as if that text had been written alone, but for
directories that the other paths go through. In the directory there are its shards, their aggregator, and
directories that the paths go through. -/
theorem writeShards_afterAll (hn : n.IsValid) {earlier : List Writing} {w : Writing}
    (hempty : ∀ name, s.get? (target cwd w.dir ++ [name]) = none)
    (hdirs : ∀ w' ∈ earlier, target cwd w'.dir = target cwd w.dir) {files : ShardSet}
    (h : (run (w.build n) cwd (afterAll n cwd s earlier)).result = .ok files) :
    (run (w.build n) cwd s).result = .ok files ∧
      Fills n cwd w.dir w.maxChars.toNat w.text s (afterAll n cwd s [w]) ∧
      (∀ l, (afterAll n cwd s (earlier ++ [w])).get? l = (afterAll n cwd s [w]).get? l ∨
        (afterAll n cwd s (earlier ++ [w])).get? l = some .directory ∧ (afterAll n cwd s [w]).get? l = none ∧
          ∃ w' ∈ earlier, ∃ j, l = target cwd (w'.dir.up j)) ∧
      ((∀ w' ∈ earlier, w'.dir = w.dir) →
        ∀ l, (afterAll n cwd s (earlier ++ [w])).get? l = (afterAll n cwd s [w]).get? l) ∧
      ∀ name, (afterAll n cwd s (earlier ++ [w])).get? (target cwd w.dir ++ [name]) ≠ none ↔
        n.Uses (Shard.chunkCount w.maxChars.toNat w.text) name ∨
          (afterAll n cwd s (earlier ++ [w])).get? (target cwd w.dir ++ [name]) = some .directory ∧
            ∃ w' ∈ earlier ++ [w], ∃ j, target cwd w.dir ++ [name] = target cwd (w'.dir.up j) := by
  -- All that earlier writings leave behind is litter, which the last one removes, overwrites or walks
  -- through.
  have hlitters : Litters n cwd (target cwd w.dir) (earlier.map Writing.dir) s (afterAll n cwd s earlier) :=
    litters_afterAll hn hempty (fun w' hw' => ⟨List.mem_map_of_mem hw', hdirs w' hw'⟩) (.refl s)
  obtain ⟨hmax, htext, hroom, hfiles⟩ := (writeShards_eq_ok_iff hn).mp h
  have hreturns : (run (w.build n) cwd s).result = .ok files :=
    (writeShards_eq_ok_iff hn).mpr ⟨hmax, htext, hroom.of_litters hempty hlitters, hfiles⟩
  have halone : Fills n cwd w.dir w.maxChars.toNat w.text s (afterAll n cwd s [w]) :=
    fills_of_writeShards hn hreturns
  have hlast := fills_of_writeShards hn h
  rw [afterAll_concat]
  have hagree : ∀ l, (run (w.build n) cwd (afterAll n cwd s earlier)).store.get? l =
      (afterAll n cwd s [w]).get? l ∨
      (run (w.build n) cwd (afterAll n cwd s earlier)).store.get? l = some .directory ∧
        (afterAll n cwd s [w]).get? l = none ∧ ∃ w' ∈ earlier, ∃ j, l = target cwd (w'.dir.up j) := by
    intro l
    refine (get?_of_fills_litters hempty hlitters hlast halone l).imp_right ?_
    rintro ⟨hdirectory, hnone, p, hp, hj⟩
    obtain ⟨w', hw', rfl⟩ := List.mem_map.mp hp
    exact ⟨hdirectory, hnone, w', hw', hj⟩
  refine ⟨hreturns, halone, hagree, fun hsame l => ?_, fun name => ⟨fun hsome => ?_, ?_⟩⟩
  · rcases hagree l with hl | ⟨-, hnone, w', hw', j, rfl⟩
    · exact hl
    · rw [hsame w' hw', (halone.way j).1] at hnone
      cases hnone
  · rcases hagree (target cwd w.dir ++ [name]) with hl | ⟨hdirectory, -, w', hw', hj⟩
    · rw [hl] at hsome
      rcases (halone.get?_ne_none_iff hempty).mp hsome with huses | ⟨j, hj⟩
      · exact Or.inl huses
      · refine Or.inr ⟨?_, w, List.mem_append_right _ (List.mem_singleton.mpr rfl), j, hj⟩
        rw [hj]
        exact (hlast.way j).1
    · exact Or.inr ⟨hdirectory, w', List.mem_append_left _ hw', hj⟩
  · rintro (huses | ⟨hdirectory, -⟩)
    · rcases hagree (target cwd w.dir ++ [name]) with hl | ⟨hdirectory, -⟩
      · rw [hl]
        exact (halone.get?_ne_none_iff hempty).mpr (Or.inl huses)
      · rw [hdirectory]
        simp
    · rw [hdirectory]
      simp

namespace Sample

/-- Two texts that are written into one directory: four shards of one character, and then two before a
foreign one. -/
def attempts : List Writing := [⟨.ofText "w".toList, 1, "aA==".toList⟩, ⟨.ofText "w".toList, 1, "aB!".toList⟩]

/-- The text that is written last, as two shards. -/
def lastAttempt : Writing := ⟨.ofText "w".toList, 3, "aA==".toList⟩

/-- A text that is written into the same directory by a path that goes through another one. -/
def detour : Writing := ⟨.ofText "w/x/..".toList, 4, "aA==".toList⟩

theorem get?_empty {l : Location} (h : l ≠ []) : Store.empty.get? l = none := if_neg h

/-- Litter of one path is not in the way of files in the directory. -/
theorem hasRoom_of_litters {s : Store} (h : Litters {} [] ["w".toList] [.ofText "w".toList] .empty s)
    (count : Nat) :
    HasRoom {} [] (.ofText "w".toList) count s := by
  refine ⟨fun j content hfile => ?_, fun name _ => ⟨fun hdirectory => ?_, ne_target_up name⟩⟩
  · rcases h (target [] ((Path.ofText "w".toList).up j))
      with hsame | ⟨-, ⟨hdirectory, -⟩ | ⟨name, k, -, -, hl, -⟩⟩
    · rcases target_up j with hj | hj
      · rw [hj] at hsame hfile
        rw [hfile, get?_empty (by simp)] at hsame
        cases hsame
      · rw [hj, get?_nil] at hfile
        cases hfile
    · rw [hdirectory] at hfile
      cases hfile
    · exact ne_target_up name j hl.symm
  · have hplace : s.get? ["w".toList, name] = some .directory := hdirectory
    rcases h ["w".toList, name] with hsame | ⟨-, ⟨-, p, hp, j, hl⟩ | ⟨_, _, content, -, -, hfile⟩⟩
    · rw [hsame, get?_empty (by simp)] at hplace
      cases hplace
    · obtain rfl := List.mem_singleton.mp hp
      exact ne_target_up name j hl
    · rw [hfile] at hplace
      cases hplace

end Sample

/-- Of four shards, two of which were written anew before a foreign character, those remain that the last
text has. -/
theorem writeShards_afterAll_attempts : ∃ files,
    (run (Sample.lastAttempt.build {}) [] (afterAll {} [] .empty Sample.attempts)).result = .ok files ∧
    ∀ name, (afterAll {} [] .empty (Sample.attempts ++ [Sample.lastAttempt])).get? ["w".toList, name] ≠ none ↔
      name ∈ ["index.js".toList, "shard0.js".toList, "shard1.js".toList] := by
  have hlitters : Litters {} [] ["w".toList] [.ofText "w".toList] .empty
      (afterAll {} [] .empty Sample.attempts) :=
    litters_afterAll Sample.isValid_naming (fun name => Sample.get?_empty (by simp)) (by decide) (.refl _)
  have hreturns : (run (Sample.lastAttempt.build {}) [] (afterAll {} [] .empty Sample.attempts)).result =
      .ok _ :=
    (writeShards_eq_ok_iff Sample.isValid_naming).mpr
      ⟨by decide, by decide, Sample.hasRoom_of_litters hlitters _, rfl⟩
  obtain ⟨-, -, -, -, hentries⟩ := writeShards_afterAll Sample.isValid_naming
    (fun name => Sample.get?_empty (by simp)) (by decide) hreturns
  refine ⟨_, hreturns, fun name => (hentries name).trans ?_⟩
  have hwritings : ∀ w ∈ Sample.attempts ++ [Sample.lastAttempt], w.dir = .ofText "w".toList := by decide
  constructor
  · rintro ((rfl | ⟨i, hi, rfl⟩) | ⟨-, w, hw, j, hj⟩)
    · decide
    · have hcases : i = 0 ∨ i = 1 := by
        have hlt : i < 2 := hi
        omega
      rcases hcases with rfl | rfl <;> decide
    · rw [hwritings w hw] at hj
      exact absurd hj (Sample.ne_target_up name j)
  · intro hname
    simp only [List.mem_cons, List.not_mem_nil, or_false] at hname
    rcases hname with rfl | rfl | rfl
    · exact Or.inl (Or.inl rfl)
    · exact Or.inl (Or.inr ⟨0, by decide, rfl⟩)
    · exact Or.inl (Or.inr ⟨1, by decide, rfl⟩)

/-- In the empty store, writing a text leaves a directory beside the shards and the aggregator, if the path
goes through it. -/
theorem writeShards_leaves_detour :
    ShardNaming.IsValid {} ∧ (∀ name, Store.empty.get? (target [] Sample.detour.dir ++ [name]) = none) ∧
    (∃ files, (run (Sample.detour.build {}) [] .empty).result = .ok files) ∧
    (afterAll {} [] .empty [Sample.detour]).get? (target [] Sample.detour.dir ++ ["x".toList]) =
      some .directory ∧
    ∀ count, ¬ ShardNaming.Uses {} count "x".toList := by
  have hroom : HasRoom {} [] Sample.detour.dir 1 .empty := by
    refine ⟨blocked_eq_none_iff_up.mp (by decide), fun name hname => ?_⟩
    have hcases : name = ShardNaming.index {} ∨ name = ShardNaming.file {} 0 := by
      rcases hname with rfl | ⟨i, hi, rfl⟩
      · exact Or.inl rfl
      · exact Or.inr (by rw [Nat.lt_one_iff.mp hi])
    refine ⟨by rcases hcases with rfl | rfl <;> decide, fun j hj => ?_⟩
    have hway := mem_way_iff.mpr ⟨j, hj⟩
    rcases hcases with rfl | rfl
    · exact absurd hway (by decide)
    · exact absurd hway (by decide)
  have hreturns : (run (Sample.detour.build {}) [] .empty).result = .ok _ :=
    (writeShards_eq_ok_iff Sample.isValid_naming).mpr ⟨by decide, by decide, hroom, rfl⟩
  refine ⟨Sample.isValid_naming, fun name => Sample.get?_empty (by simp), ⟨_, hreturns⟩, ?_, ?_⟩
  · exact ((fills_of_writeShards Sample.isValid_naming hreturns).way 1).1
  · rintro count (h | ⟨i, -, h⟩)
    · exact absurd h (by decide)
    · have hhead : (ShardNaming.file {} i).head? = some 's' := rfl
      rw [← h] at hhead
      exact absurd hhead (by decide)

end Build

end WasmEmbed
