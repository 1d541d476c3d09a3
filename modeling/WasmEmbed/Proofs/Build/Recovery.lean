import WasmEmbed.Proofs.Build.Directories
import WasmEmbed.Proofs.Build.Embed

/-!
# Running an interrupted build again

A build that is cut off anywhere before it rewrites the binding is finished by running it again: what the
second run does leads to the same store as what was left to do (`bundle_again`). Directories that were made
are accepted, files are written once more, and what is left to be removed is found again
(`IsRemoval.resume`). The inputs have to stand apart from the files that are written.

The two runs also end alike, with one exception. If a file stops the way to the directory of the shards, the
whole run may have to make directories before it comes to that file, and then it complains about the place
of the file; once these directories are there, the way is seen to be stopped from the start.
-/

namespace WasmEmbed

namespace Store

/-! ## Going on with changes -/

/-- Stores that agree on all places agree after the same changes. -/
theorem get?_replay_congr {s s' : Store} (hsame : ∀ l, s'.get? l = s.get? l) {changes : List Change}
    (h : s.Allows changes) (h' : s'.Allows changes) (l : Location) :
    (s'.replay changes).get? l = (s.replay changes).get? l := by
  induction changes generalizing s s' with
  | nil => exact hsame l
  | cons c rest ih =>
      refine ih (fun l => ?_) h.2 h'.2
      rw [get?_apply h.1, get?_apply h'.1, hsame]

/-- Changes that make no directory leave the directories as they are. -/
theorem get?_replay_directory_iff {s : Store} {changes : List Change} (h : s.Allows changes)
    (hmakes : ∀ c ∈ changes, c.entry ≠ some .directory) (l : Location) :
    (s.replay changes).get? l = some .directory ↔ s.get? l = some .directory := by
  induction changes generalizing s with
  | nil => exact Iff.rfl
  | cons c rest ih =>
      rw [replay_cons, ih h.2 fun d hd => hmakes d (List.mem_cons_of_mem c hd)]
      refine ⟨fun hl => ?_, get?_apply_directory h.1⟩
      rw [get?_apply h.1] at hl
      split at hl
      · exact absurd hl (hmakes c List.mem_cons_self)
      · exact hl

/-- What stands at a place stays there, if no change concerns it but those that make directories. -/
theorem get?_replay_of_makes_or_ne {s : Store} {changes : List Change} (h : s.Allows changes)
    {l : Location} (hspare : ∀ c ∈ changes, c = .makeDirectory c.place ∨ c.place ≠ l) {e : Entry}
    (he : s.get? l = some e) : (s.replay changes).get? l = some e := by
  induction changes generalizing s with
  | nil => exact he
  | cons c rest ih =>
      refine ih h.2 (fun d hd => hspare d (List.mem_cons_of_mem c hd)) ?_
      rw [get?_apply h.1, if_neg, he]
      intro hplace
      rcases hspare c List.mem_cons_self with hmake | hne
      · -- A directory is made only where nothing stands.
        have hallowed := h.1
        rw [hmake, Change.IsAllowed, ← hplace, he] at hallowed
        exact nomatch hallowed
      · exact hne hplace.symm

/-- Other changes lead to the same store as a list of changes that was begun, if they are some of its
changes, and what they leave out is done. -/
theorem get?_replay_resume {s : Store} {changes changes' : List Change} {k : Nat}
    (h : s.Allows changes) (hapart : changes.Pairwise fun c d => c.place ≠ d.place)
    (h' : (s.replay (changes.take k)).Allows changes')
    (hapart' : changes'.Pairwise fun c d => c.place ≠ d.place)
    (hsub : ∀ c ∈ changes', c ∈ changes)
    (hdone : ∀ c ∈ changes, c ∈ changes' ∨ (s.replay (changes.take k)).get? c.place = c.entry)
    (l : Location) :
    ((s.replay (changes.take k)).replay changes').get? l = (s.replay changes).get? l := by
  -- A place is decided by the one change that concerns it, made before or made now.
  by_cases hplace : ∃ c ∈ changes, c.place = l
  · obtain ⟨c, hc, rfl⟩ := hplace
    have hwhole := get?_replay_of_mem h hapart hc
    rw [hwhole]
    by_cases hagain : ∃ c' ∈ changes', c'.place = c.place
    · obtain ⟨c', hc', hsame⟩ := hagain
      have hentry := get?_replay_of_mem h hapart (hsub c' hc')
      rw [hsame, hwhole] at hentry
      rw [← hsame, get?_replay_of_mem h' hapart' hc', ← hentry]
    · have hnone : ∀ c' ∈ changes', c'.place ≠ c.place := fun c' hc' hsame => hagain ⟨c', hc', hsame⟩
      rw [get?_replay_of_forall_ne h' hnone]
      exact (hdone c hc).resolve_left fun hc' => hnone c hc' rfl
  · have hnone : ∀ c ∈ changes, c.place ≠ l := fun c hc hl => hplace ⟨c, hc, hl⟩
    rw [get?_replay_of_forall_ne h' fun c hc => hnone c (hsub c hc),
      get?_replay_of_forall_ne (allows_take h k) fun c hc => hnone c (List.mem_of_mem_take hc),
      get?_replay_of_forall_ne h hnone]

/-- A change of a list is done already, or what stands at its place is untouched. -/
theorem get?_replay_take {s : Store} {changes : List Change} (h : s.Allows changes)
    (hapart : changes.Pairwise fun c d => c.place ≠ d.place) (k : Nat) {c : Change} (hc : c ∈ changes) :
    (s.replay (changes.take k)).get? c.place = c.entry ∨
      (s.replay (changes.take k)).get? c.place = s.get? c.place := by
  have hsplit := List.take_append_drop k changes
  rw [← hsplit] at hapart hc
  obtain ⟨hfront, -, hacross⟩ := List.pairwise_append.mp hapart
  rcases List.mem_append.mp hc with hc | hc
  · exact Or.inl (get?_replay_of_mem (allows_take h k) hfront hc)
  · exact Or.inr (get?_replay_of_forall_ne (allows_take h k) fun c' hc' => hacross c' hc' c hc)

end Store

namespace Build

open Store

variable {α : Type} {n : ShardNaming} {cwd : Location} {s : Store} {dir : Path} {d : Location} {c : Config}

/-- A build ends in one way. -/
theorem Ends.unique {b : Build α} {r r' : Except Failure α} {changes changes' : List Change}
    (h : Ends b cwd s r changes) (h' : Ends b cwd s r' changes') : r = r' ∧ changes = changes' := by
  obtain ⟨hresult, hchanges, -⟩ := h.outcome
  obtain ⟨hresult', hchanges', -⟩ := h'.outcome
  exact ⟨hresult.symm.trans hresult', hchanges.symm.trans hchanges'⟩

/-! ## Filling a directory again -/

/-- The changes of a plan that are made. -/
def executed (n : ShardNaming) (d : Location) (s : Store) (chunks : List (List Char))
    (removes : List Change) : List Change :=
  (plan n d chunks removes).takeWhile (isFree s)

variable {chunks : List (List Char)} {removes : List Change}

theorem pairwise_executed (hremoves : IsRemoval n d chunks.length s removes) :
    (executed n d s chunks removes).Pairwise fun c c' => c.place ≠ c'.place :=
  (pairwise_plan hremoves).sublist (List.takeWhile_sublist _)

/-- The files that writing shards concerns: shards of any number, and the aggregator. -/
def IsShardFile (n : ShardNaming) (name : Name) : Prop := name = n.index ∨ isStale n 0 name = true

theorem isShardFile_of_isStale {keep : Nat} {name : Name} (h : isStale n keep name = true) :
    IsShardFile n name := by
  refine Or.inr ?_
  rw [isStale, Option.any_eq_true] at h ⊢
  obtain ⟨i, hi, -⟩ := h
  exact ⟨i, hi, decide_eq_true (Nat.zero_le i)⟩

/-- What is executed of a plan writes or removes files of shards. -/
theorem place_of_mem_executed (hremoves : IsRemoval n d chunks.length s removes) {change : Change}
    (h : change ∈ executed n d s chunks removes) : change.entry ≠ some .directory ∧
      ∃ name, IsShardFile n name ∧ change.place = d ++ [name] := by
  rcases (mem_takeWhile_plan hremoves).mp h with ⟨i, chunk, -, rfl, -⟩ | ⟨-, hmem | ⟨rfl, -⟩⟩
  · exact ⟨by simp [shardWrite, Change.entry], n.file i, Or.inr (isStale_file n 0 i), rfl⟩
  · obtain ⟨name, hstale, -, rfl⟩ := (hremoves.mem_iff change).mp hmem
    exact ⟨by simp [Change.entry], name, isShardFile_of_isStale hstale, rfl⟩
  · exact ⟨by simp [indexWrite, Change.entry], n.index, Or.inl rfl, rfl⟩

/-- A directory that was filled in part is filled again to the same effect. -/
theorem get?_replay_executed_again {k : Nat} (hremoves : IsRemoval n d chunks.length s removes)
    (hallows : s.Allows (executed n d s chunks removes)) {removes' : List Change}
    (hremoves' : IsRemoval n d chunks.length (s.replay ((executed n d s chunks removes).take k)) removes')
    (hallows' : (s.replay ((executed n d s chunks removes).take k)).Allows
      (executed n d (s.replay ((executed n d s chunks removes).take k)) chunks removes')) (l : Location) :
    ((s.replay ((executed n d s chunks removes).take k)).replay
      (executed n d (s.replay ((executed n d s chunks removes).take k)) chunks removes')).get? l =
      (s.replay (executed n d s chunks removes)).get? l := by
  have hfront := allows_take hallows k
  -- The directories are the same, so both runs come to the same files.
  have hdirectory := get?_replay_directory_iff hfront fun change hmem =>
    (place_of_mem_executed hremoves (List.mem_of_mem_take hmem)).1
  have hreach : ∀ i, Reaches n (s.replay ((executed n d s chunks removes).take k)) d i ↔
      Reaches n s d i := fun i =>
    forall₂_congr fun j _ => not_congr (hdirectory (d ++ [n.file j]))
  have hindex := not_congr (hdirectory (d ++ [n.index]))
  refine get?_replay_resume hallows (pairwise_executed hremoves) hallows' (pairwise_executed hremoves')
    (fun change hmem => ?_) (fun change hmem => ?_) l
  · -- What is still there to be removed was there from the start.
    refine (mem_takeWhile_plan hremoves).mpr ?_
    rcases (mem_takeWhile_plan hremoves').mp hmem with ⟨i, chunk, hchunk, rfl, hreached⟩ | ⟨hreached, hrest⟩
    · exact Or.inl ⟨i, chunk, hchunk, rfl, (hreach _).mp hreached⟩
    · refine Or.inr ⟨(hreach _).mp hreached, hrest.imp (fun hremove => ?_) fun hwrite => ?_⟩
      · obtain ⟨name, hstale, ⟨content, hfile⟩, rfl⟩ := (hremoves'.mem_iff change).mp hremove
        refine (hremoves.mem_iff _).mpr ⟨name, hstale, ⟨content, ?_⟩, rfl⟩
        rw [← hfile, get?_replay_of_forall_ne hfront]
        intro change' hmem' hplace
        have hplan := (List.takeWhile_sublist _).subset (List.mem_of_mem_take hmem')
        have hremoved := remove_of_mem_plan hremoves hplan hstale hplace
        have hapart := (pairwise_executed hremoves).sublist (List.take_sublist k _)
        have hgone := get?_replay_of_mem hfront hapart hmem'
        rw [hplace, hfile, hremoved] at hgone
        exact nomatch hgone
      · exact ⟨hwrite.1, hindex.mp hwrite.2⟩
  · -- A removal that is left out is done.
    rw [executed, mem_takeWhile_plan hremoves']
    rcases (mem_takeWhile_plan hremoves).mp hmem with ⟨i, chunk, hchunk, rfl, hreached⟩ | ⟨hreached, hrest⟩
    · exact Or.inl (Or.inl ⟨i, chunk, hchunk, rfl, (hreach _).mpr hreached⟩)
    · rcases hrest with hremove | ⟨rfl, hfree⟩
      · rcases get?_replay_take hallows (pairwise_executed hremoves) k hmem with hdone | hsame
        · exact Or.inr hdone
        · obtain ⟨name, hstale, ⟨content, hfile⟩, rfl⟩ := (hremoves.mem_iff change).mp hremove
          have hfile' := hsame.trans hfile
          refine Or.inl (Or.inr ⟨(hreach _).mpr hreached, Or.inl ?_⟩)
          exact (hremoves'.mem_iff _).mpr ⟨name, hstale, ⟨content, hfile'⟩, rfl⟩
      · exact Or.inl (Or.inr ⟨(hreach _).mpr hreached, Or.inr ⟨rfl, hindex.mpr hfree⟩⟩)

/-! ## Writing the shards again -/

variable {maxChars : Int} {text : List Char}

/-- Filling a directory ends the same way where the directories are the same. -/
theorem fillEnd_congr {s' : Store}
    (h : ∀ l, s'.get? l = some .directory ↔ s.get? l = some .directory) (chunks : List (List Char))
    (text : List Char) : fillEnd n dir s' d chunks text = fillEnd n dir s d chunks text := by
  rw [fillEnd, fillEnd, writeEnd_congr h, writeEnd_congr h]

/-- A path leads to a directory once the way to it was paved. -/
theorem opens_of_pave (hopen : (pave s (way cwd dir)).blocked = none) :
    (s.replay (pave s (way cwd dir)).made).locate cwd dir = .ok (target cwd dir) ∧
      (s.replay (pave s (way cwd dir)).made).get? (target cwd dir) = some .directory := by
  obtain ⟨r, made, hends, -, hopens⟩ := exists_ends_makeDirectories cwd dir s
  obtain ⟨rfl, rfl⟩ := hends.unique (ends_makeDirectories cwd s dir)
  have hok : (pave s (way cwd dir)).result dir = .ok () := by rw [Paving.result, hopen]
  obtain ⟨l, hlocate, hl⟩ := hopens hok
  obtain rfl := locate_eq_ok hlocate
  exact ⟨hlocate, hl⟩

/-- After the way was paved and a part of some changes made, or a part of the way was paved, the way is paved
again without undoing anything. -/
theorem exists_pave_again {places : List Location} (hopen : (pave s places).blocked = none)
    {back : List Change} (hallows : (s.replay (pave s places).made).Allows back) (k : Nat) :
    ∃ j, (pave (s.replay (((pave s places).made ++ back).take k)) places).blocked = none ∧
      (s.replay (((pave s places).made ++ back).take k)).replay
        (pave (s.replay (((pave s places).made ++ back).take k)) places).made =
        (s.replay (pave s places).made).replay (back.take j) := by
  rcases Nat.le_total k (pave s places).made.length with hcut | hcut
  · -- The rest of the way is paved, and nothing of the further changes is made yet.
    refine ⟨0, ?_⟩
    rw [List.take_append_of_le_length hcut, pave_replay, List.take_zero, replay_nil, ← replay_append,
      List.take_append_drop]
    exact ⟨hopen, rfl⟩
  · refine ⟨k - (pave s places).made.length, ?_⟩
    have hway := fun l hl => get?_replay_directory (allows_take hallows (k - (pave s places).made.length))
      (get?_replay_pave hopen l hl)
    rw [List.take_append, List.take_of_length_le hcut, replay_append, pave_of_directories hway]
    exact ⟨rfl, rfl⟩

/-- If a file stops the way to the directory, writing shards ends there. -/
theorem exists_ends_writeShards_blocked {n : ShardNaming} (hsplit : Shard.split maxChars text = .ok chunks)
    {left : Nat} (hblocked : (pave s (way cwd dir)).blocked = some left) :
    ∃ e, (pave s (way cwd dir)).result dir = .error e ∧
      Ends (writeShards n dir maxChars text) cwd s (.error e) (pave s (way cwd dir)).made := by
  have hends := ends_makeDirectories cwd s dir
  cases hresult : (pave s (way cwd dir)).result dir with
  | ok u =>
      rw [Paving.result, hblocked] at hresult
      dsimp only at hresult
      split at hresult <;> cases hresult
  | error e =>
      rw [hresult] at hends
      refine ⟨e, rfl, ?_⟩
      rw [writeShards_eq, hsplit]
      exact (Ends.require_ok _ _).then hends.bind_error

/-- If nothing stops the way to the directory, it is filled. -/
theorem exists_ends_writeShards_paved (hn : n.IsValid) (hsplit : Shard.split maxChars text = .ok chunks)
    (hchunks : ∀ chunk ∈ chunks, ∀ c ∈ chunk, Payload.Base64.isAllowed c = true) {s₁ : Store}
    (hopen : (pave s (way cwd dir)).blocked = none)
    (hpaved : s.replay (pave s (way cwd dir)).made = s₁) :
    ∃ removes, IsRemoval n (target cwd dir) chunks.length s₁ removes ∧
      Ends (writeShards n dir maxChars text) cwd s (fillEnd n dir s₁ (target cwd dir) chunks text)
        ((pave s (way cwd dir)).made ++ executed n (target cwd dir) s₁ chunks removes) := by
  obtain ⟨hlocate, hd⟩ := opens_of_pave hopen
  have hmade := ends_makeDirectories cwd s dir
  rw [Paving.result, hopen] at hmade
  subst hpaved
  obtain ⟨removes, hremoves, hfill⟩ := exists_ends_fillEnd hn hlocate hd text hchunks
  refine ⟨removes, hremoves, ?_⟩
  rw [writeShards_eq, hsplit]
  exact (Ends.require_ok _ _).then (hmade.bind hfill)

/-- Instead of complaining about the place of a file that stops the way to a directory, a build complains
about the directory. -/
def StopsSooner {α : Type} (dir : Path) (r r' : Except Failure α) : Prop :=
  ∃ left ≠ 0, r = .error (.path ⟨.occupied, dir.up left⟩) ∧ r' = .error (.path ⟨.notDirectory, dir⟩)

/-- Making the rest of the directories ends the same way, unless the rest is empty. -/
theorem Paving.result_drop_or (p : Paving) (dir : Path) (k : Nat) :
    Paving.result ⟨p.made.drop k, p.blocked⟩ dir = p.result dir ∨
      p.made ≠ [] ∧ p.made.length ≤ k ∧
        StopsSooner dir (p.result dir) (Paving.result ⟨p.made.drop k, p.blocked⟩ dir) := by
  obtain ⟨made, blocked⟩ := p
  -- Only where nothing is left to be made can the failure name another directory.
  by_cases hmore : made.drop k = [] ∧ k ≠ 0
  · obtain ⟨hdone, -⟩ := hmore
    rw [hdone]
    cases blocked with
    | none => exact Or.inl rfl
    | some left =>
        by_cases hleft : left = 0
        · rw [hleft, result_up_zero, result_up_zero]
          exact Or.inl rfl
        · by_cases hmade : made = []
          · rw [hmade]
            exact Or.inl rfl
          · rw [result_made hmade, result_unmade hleft]
            exact Or.inr ⟨hmade, List.drop_eq_nil_iff.mp hdone, left, hleft, rfl, rfl⟩
  · exact Or.inl (result_drop ⟨made, blocked⟩ dir (by tauto))

/-- Writing shards that was cut off is done again to the same effect. -/
theorem exists_ends_writeShards_again (hn : n.IsValid) (hsplit : Shard.split maxChars text = .ok chunks)
    (hchunks : ∀ chunk ∈ chunks, ∀ c ∈ chunk, Payload.Base64.isAllowed c = true)
    {r : Except Failure ShardSet} {stage : List Change}
    (h : Ends (writeShards n dir maxChars text) cwd s r stage) (k : Nat) :
    ∃ r' stage', Ends (writeShards n dir maxChars text) cwd (s.replay (stage.take k)) r' stage' ∧
      (∀ l, ((s.replay (stage.take k)).replay stage').get? l = (s.replay stage).get? l) ∧
      (r' = r ∨ stage ≠ [] ∧ stage.length ≤ k ∧ StopsSooner dir r r') := by
  cases hblocked : (pave s (way cwd dir)).blocked with
  | some left =>
      -- The way is blocked, so directories are all that was made, and the rest of them is made now.
      obtain ⟨e, hresult, hends⟩ := exists_ends_writeShards_blocked (n := n) hsplit hblocked
      obtain ⟨rfl, rfl⟩ := h.unique hends
      have hagain := pave_replay s (way cwd dir) k
      obtain ⟨e', hresult', hends'⟩ :=
        exists_ends_writeShards_blocked (n := n) hsplit ((congrArg Paving.blocked hagain).trans hblocked)
      rw [hagain] at hresult' hends'
      refine ⟨.error e', _, hends', fun l => ?_, ?_⟩
      · rw [← replay_append, List.take_append_drop]
      · have hsame := Paving.result_drop_or (pave s (way cwd dir)) dir k
        rw [hresult, hresult'] at hsame
        rcases hsame with hsame | ⟨hmade, hlength, left, hleft, hoccupied, hstopped⟩
        · exact Or.inl (by rw [Except.error.inj hsame])
        · refine Or.inr ⟨hmade, hlength, left, hleft, ?_, ?_⟩
          · rw [Except.error.inj hoccupied]
          · rw [Except.error.inj hstopped]
  | none =>
      obtain ⟨removes, hremoves, hends⟩ := exists_ends_writeShards_paved hn hsplit hchunks hblocked rfl
      obtain ⟨rfl, rfl⟩ := h.unique hends
      obtain ⟨hmade, hallows⟩ := allows_append.mp hends.allows
      obtain ⟨j, hopen', hpaved'⟩ := exists_pave_again hblocked hallows k
      obtain ⟨removes', hremoves', hends'⟩ :=
        exists_ends_writeShards_paved hn hsplit hchunks hopen' hpaved'
      -- Files alone were written in the directory, so the same directories are in the way.
      have hdirectory := get?_replay_directory_iff (allows_take hallows j) fun change hmem =>
        (place_of_mem_executed hremoves (List.mem_of_mem_take hmem)).1
      obtain ⟨-, hallows'⟩ := allows_append.mp hends'.allows
      rw [hpaved'] at hallows'
      refine ⟨_, _, hends', fun l => ?_, Or.inl (fillEnd_congr hdirectory chunks text)⟩
      rw [replay_append, hpaved', replay_append]
      exact get?_replay_executed_again hremoves hallows hremoves' hallows' l

/-! ## The build again -/

/-- The last step depends on the content of the binding alone. It rewrites the binding or fails. -/
theorem exists_ends_finish_of_content (c : Config) (cwd : Location) (bytes chars : Nat) {shards : ShardSet}
    (hindex : shards.index = c.aggregatorPath) (l : Location) (content : List UInt8) :
    ∃ r last, (∀ s : Store, s.locate cwd c.binding = .ok l → s.get? l = some (.file content) →
        Ends (finish c bytes chars shards) cwd s r last) ∧
      ((∃ e, r = .error e ∧ last = []) ∨ ∃ result x, r = .ok result ∧ last = [.write l x]) := by
  cases hdecode : Text.Utf8.decode content with
  | error e =>
      refine ⟨.error (.text e), [], fun s hlocate hl => ?_, Or.inl ⟨_, rfl, rfl⟩⟩
      rw [finish, readText]
      refine Ends.read.then ((Ends.detail _).then (Ends.bind_error ?_))
      refine (Ends.readFile hlocate hl).then ?_
      rw [hdecode]
      exact (Ends.require_error _ e).bind_error
  | ok source =>
      cases hrewrite : Binding.rewrite (c.target cwd) (Text.unifyLineEnds source) with
      | error e =>
          refine ⟨.error (.rewrite e), [], fun s hlocate hl => ?_, Or.inl ⟨_, rfl, rfl⟩⟩
          have hread : Ends (readText c.binding) cwd s (.ok (Text.unifyLineEnds source)) [] := by
            rw [readText]
            refine (Ends.readFile hlocate hl).then ?_
            rw [hdecode]
            exact (Ends.require_ok _ source).then (Ends.pure _)
          rw [Config.target] at hrewrite
          rw [finish, hindex]
          refine Ends.read.then ((Ends.detail _).then (hread.then ?_))
          rw [hrewrite]
          exact (Ends.require_error _ e).bind_error
      | ok rewritten =>
          exact ⟨_, _, fun s hlocate hl => Ends.finish hlocate bytes chars hindex hl hdecode hrewrite,
            Or.inr ⟨_, _, rfl, rfl⟩⟩

/-- Writing shards makes directories and then concerns files of shards alone. -/
theorem exists_ends_stage (hn : n.IsValid) (hsplit : Shard.split maxChars text = .ok chunks)
    (hchunks : ∀ chunk ∈ chunks, ∀ c ∈ chunk, Payload.Base64.isAllowed c = true) (cwd : Location)
    (s : Store) (dir : Path) :
    ∃ r stage, Ends (writeShards n dir maxChars text) cwd s r stage ∧
      (∀ change ∈ stage, change = .makeDirectory change.place ∨
        ∃ name, IsShardFile n name ∧ change.place = target cwd dir ++ [name]) ∧
      ∀ shards, r = .ok shards → shards.index = n.path dir Shard.indexStem := by
  obtain ⟨r, made, hends, honly, -⟩ := exists_ends_makeDirectories cwd dir s
  obtain ⟨rfl, rfl⟩ := hends.unique (ends_makeDirectories cwd s dir)
  have hmade : ∀ change ∈ (pave s (way cwd dir)).made, change = .makeDirectory change.place := by
    intro change hmem
    obtain ⟨l, rfl⟩ := honly change hmem
    rfl
  cases hblocked : (pave s (way cwd dir)).blocked with
  | some left =>
      obtain ⟨e, -, hends⟩ := exists_ends_writeShards_blocked (n := n) hsplit hblocked
      exact ⟨_, _, hends, fun change hmem => Or.inl (hmade change hmem), fun _ h => nomatch h⟩
  | none =>
      obtain ⟨removes, hremoves, hends⟩ := exists_ends_writeShards_paved hn hsplit hchunks hblocked rfl
      refine ⟨_, _, hends, fun change hmem => ?_, fun shards hshards => ?_⟩
      · rcases List.mem_append.mp hmem with hmem | hmem
        · exact Or.inl (hmade change hmem)
        · exact Or.inr (place_of_mem_executed hremoves hmem).2
      · rw [((fillEnd_eq_ok_iff hremoves text shards).mp hshards).2]
        rfl

/-- No file of a shard has the place of an input. -/
def KeepsApart (c : Config) (cwd : Location) : Prop :=
  ∀ input ∈ [c.payload, c.binding], ∀ name, IsShardFile c.naming name →
    target cwd input ≠ target cwd c.outputDir ++ [name]

/-- A build that was cut off is done again to the same effect. -/
theorem exists_ends_bundle_again (hcheck : c.check = .ok ()) (hapart : KeepsApart c cwd)
    (hpayload : s.isFile cwd c.payload = true) (hbinding : s.isFile cwd c.binding = true) :
    ∃ r changes, Ends (bundle c) cwd s r changes ∧
      ∀ k, (∀ result, r = .ok result → k < changes.length) →
        ∃ r' changes', Ends (bundle c) cwd (s.replay (changes.take k)) r' changes' ∧
          (∀ l, ((s.replay (changes.take k)).replay changes').get? l = (s.replay changes).get? l) ∧
          (r' = r ∨ changes ≠ [] ∧ changes.length ≤ k ∧ StopsSooner c.outputDir r r') := by
  obtain ⟨payload, hlocate, hcontent⟩ := isFile_iff_exists.mp hpayload
  obtain ⟨before, hpath, hbefore⟩ := isFile_iff_exists.mp hbinding
  obtain ⟨chunks, hsplit, -, -, hchunks⟩ := exists_split_payload hcheck payload
  have hn := Config.isValid_naming hcheck
  obtain ⟨r, stage, hstage, hplaces, hindex⟩ := exists_ends_stage hn hsplit hchunks cwd s c.outputDir
  -- The inputs stay as they are, however many of the changes are made.
  have hkept : ∀ input ∈ [c.payload, c.binding], ∀ content,
      s.get? (target cwd input) = some (.file content) → ∀ k,
      (s.replay (stage.take k)).get? (target cwd input) = some (.file content) := by
    intro input hinput content hfile k
    refine get?_replay_of_makes_or_ne (allows_take hstage.allows k) (fun change hmem => ?_) hfile
    refine (hplaces change (List.mem_of_mem_take hmem)).imp_right ?_
    rintro ⟨name, hname, hplace⟩ hsame
    exact hapart input hinput name hname (hsame.symm.trans hplace)
  have hagain : ∀ {k r' changes'}, Ends (writeShards c.naming c.outputDir c.maxShardChars
        (Payload.encode c.compress payload) >>= finish c payload.length
          (Payload.encode c.compress payload).length) cwd (s.replay (stage.take k)) r' changes' →
      Ends (bundle c) cwd (s.replay (stage.take k)) r' changes' := by
    intro k r' changes' hends
    have hfront := allows_take hstage.allows k
    refine ends_bundle_of_writeShards hcheck (locate_replay hfront hlocate)
      (hkept c.payload (by simp) payload hcontent k) (isFile_iff_exists.mpr ⟨before, ?_, ?_⟩) hends
    · exact locate_replay hfront hpath
    · exact hkept c.binding (by simp) before hbefore k
  have hrest := exists_ends_writeShards_again hn hsplit hchunks hstage
  cases r with
  | error e =>
      refine ⟨.error e, stage, ends_bundle_of_writeShards hcheck hlocate hcontent hbinding
        hstage.bind_error, fun k _ => ?_⟩
      obtain ⟨r', stage', hends', hsame, hresult⟩ := hrest k
      rcases hresult with rfl | ⟨hmade, hlength, left, hleft, hoccupied, rfl⟩
      · exact ⟨_, _, hagain hends'.bind_error, hsame, Or.inl rfl⟩
      · obtain rfl := Except.error.inj hoccupied
        exact ⟨_, _, hagain hends'.bind_error, hsame, Or.inr ⟨hmade, hlength, left, hleft, rfl, rfl⟩⟩
  | ok shards =>
      obtain ⟨r, last, hfinish, hlast⟩ := exists_ends_finish_of_content c cwd payload.length
        (Payload.encode c.compress payload).length (hindex shards rfl) (target cwd c.binding) before
      have hafter : (s.replay stage).get? (target cwd c.binding) = some (.file before) := by
        have hwhole := hkept c.binding (by simp) before hbefore stage.length
        rwa [List.take_length] at hwhole
      have hwhole := hfinish _ (locate_replay hstage.allows hpath) hafter
      have hbundle := ends_bundle_of_writeShards hcheck hlocate hcontent hbinding (hstage.bind hwhole)
      refine ⟨r, stage ++ last, hbundle, fun k hcut => ?_⟩
      have htake : (stage ++ last).take k = stage.take k := by
        rcases hlast with ⟨-, -, rfl⟩ | ⟨result, x, hr, rfl⟩
        · rw [List.append_nil]
        · have hlength := hcut result hr
          rw [List.length_append, List.length_singleton] at hlength
          exact List.take_append_of_le_length (Nat.le_of_lt_succ hlength)
      rw [htake]
      obtain ⟨r', stage', hends', hsame, hresult⟩ := hrest k
      have hok : r' = .ok shards :=
        hresult.resolve_right fun ⟨_, _, _, _, hoccupied, _⟩ => nomatch hoccupied
      rw [hok] at hends'
      have hfront := locate_replay (allows_take hstage.allows k) hpath
      have hlater := hfinish _ (locate_replay hends'.allows hfront) ((hsame _).trans hafter)
      refine ⟨r, stage' ++ last, hagain (hends'.bind hlater), fun l => ?_, Or.inl rfl⟩
      rw [replay_append, replay_append]
      exact get?_replay_congr hsame hwhole.allows hlater.allows l

/-- A build that was cut off before its last change to the binding leads to the same store when it is run
again. It also ends the same way, unless a file stops the way to the directory of the shards and all that
could be made of that way was made. -/
theorem bundle_again (hapart : KeepsApart c cwd) {k : Nat}
    (hcut : ∀ result, (run (bundle c) cwd s).result = .ok result →
      k < (run (bundle c) cwd s).journal.changes.length)
    {s' : Store} (hcutoff : s' = s.replay ((run (bundle c) cwd s).journal.changes.take k)) :
    (∀ l, (run (bundle c) cwd s').store.get? l = (run (bundle c) cwd s).store.get? l) ∧
    ((run (bundle c) cwd s').result = (run (bundle c) cwd s).result ∨
      (run (bundle c) cwd s).journal.changes ≠ [] ∧ (run (bundle c) cwd s).journal.changes.length ≤ k ∧
        StopsSooner c.outputDir (run (bundle c) cwd s).result (run (bundle c) cwd s').result) := by
  -- A build that refuses its inputs changes nothing, so there is nothing to cut off.
  have hnothing : (∃ e, Ends (bundle c) cwd s (.error e) []) → s' = s := by
    rintro ⟨e, hends⟩
    obtain ⟨-, hchanges, -⟩ := hends.outcome
    rw [hcutoff, hchanges, List.take_nil, replay_nil]
  cases hcheck : c.check with
  | error e =>
      have hends : Ends (bundle c) cwd s (.error (.config e)) [] := by
        rw [bundle, hcheck]
        exact (Ends.require_error _ e).bind_error
      rw [hnothing ⟨_, hends⟩]
      exact ⟨fun _ => rfl, Or.inl rfl⟩
  | ok u =>
      by_cases hfiles : s.isFile cwd c.payload = true ∧ s.isFile cwd c.binding = true
      · obtain ⟨r, changes, hends, hagain⟩ := exists_ends_bundle_again hcheck hapart hfiles.1 hfiles.2
        obtain ⟨hresult, hchanges, hstore⟩ := hends.outcome
        rw [hchanges] at hcutoff hcut ⊢
        rw [hresult] at hcut ⊢
        subst hcutoff
        obtain ⟨r', changes', hends', hsame, hresults⟩ := hagain k hcut
        obtain ⟨hresult', -, hstore'⟩ := hends'.outcome
        rw [hresult', hstore', hstore]
        exact ⟨hsame, hresults⟩
      · rw [hnothing (exists_ends_bundle_error hcheck hfiles)]
        exact ⟨fun _ => rfl, Or.inl rfl⟩

/-! ## A build that recovers and one that ends differently -/

/-- A build that returns writes the aggregator and the binding at least. -/
theorem two_le_length_changes {result : BundleResult} (h : (run (bundle c) cwd s).result = .ok result) :
    2 ≤ (run (bundle c) cwd s).journal.changes.length := by
  obtain ⟨payload, chunks, made, removes, source, out, -, -, -, -, -, -, -, hends⟩ :=
    exists_ends_of_bundle_eq_ok h
  rw [hends.outcome.2.1, plan]
  simp only [List.length_append, List.length_singleton]
  omega

/-- Inputs that are not as deep down as the files of the shards stand apart from them. -/
theorem keepsApart_of_length (h : ∀ input ∈ [c.payload, c.binding],
    (target cwd input).length ≠ (target cwd c.outputDir).length + 1) : KeepsApart c cwd := by
  intro input hinput name _ hsame
  have hlength := congrArg List.length hsame
  rw [List.length_append, List.length_singleton] at hlength
  exact h input hinput hlength

/-- A build that was cut off right after it made its directory. -/
theorem bundle_again_embedding :
    KeepsApart Sample.embedding [] ∧
    (∃ result, (run (bundle Sample.embedding) []
      (Sample.stored (Binding.Sample.source "a;b;c;"))).result = .ok result) ∧
    ∀ s', s' = (Sample.stored (Binding.Sample.source "a;b;c;")).replay
        ((run (bundle Sample.embedding) []
          (Sample.stored (Binding.Sample.source "a;b;c;"))).journal.changes.take 1) →
      (∀ l, (run (bundle Sample.embedding) [] s').store.get? l =
        (run (bundle Sample.embedding) [] (Sample.stored (Binding.Sample.source "a;b;c;"))).store.get? l) ∧
      (run (bundle Sample.embedding) [] s').result =
        (run (bundle Sample.embedding) [] (Sample.stored (Binding.Sample.source "a;b;c;"))).result := by
  have hapart : KeepsApart Sample.embedding [] := keepsApart_of_length (by decide)
  obtain ⟨result, hresult, -⟩ := Sample.exists_result_ended
  refine ⟨hapart, ⟨result, hresult⟩, fun s' hs' => ?_⟩
  have hlength := two_le_length_changes hresult
  obtain ⟨hstore, hresults⟩ := bundle_again hapart (fun _ _ => hlength) hs'
  refine ⟨hstore, hresults.resolve_right ?_⟩
  rintro ⟨-, -, left, -, hoccupied, -⟩
  rw [hresult] at hoccupied
  exact nomatch hoccupied

namespace Sample

/-- A build into a directory below a file, on a way through another directory. -/
def stopped : Config := config "p" "b.js" "x/../f/w"

/-- A payload, a binding and the file in the way. -/
def stoppedStore : Store :=
  ⟨[(["p".toList], .file []), (["b.js".toList], .file (Text.Utf8.encode binding)),
    (["f".toList], .file [])]⟩

end Sample

/-- Once the other directory is there, the build complains about the directory of its shards. -/
theorem bundle_again_stopped :
    KeepsApart Sample.stopped [] ∧
    (run (bundle Sample.stopped) [] Sample.stoppedStore).result =
      .error (.path ⟨.occupied, .ofText "x/../f".toList⟩) ∧
    (run (bundle Sample.stopped) [] (Sample.stoppedStore.replay
      ((run (bundle Sample.stopped) [] Sample.stoppedStore).journal.changes.take 1))).result =
      .error (.path ⟨.notDirectory, Sample.stopped.outputDir⟩) :=
  ⟨keepsApart_of_length (by decide), by decide +kernel, by decide +kernel⟩

end Build

end WasmEmbed
