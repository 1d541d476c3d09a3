import Mathlib.Data.List.TakeWhile
import WasmEmbed.Build.Shards
import WasmEmbed.Proofs.Build.Run
import WasmEmbed.Proofs.Shard.Script

/-!
# What writing shards changes

Once its directory is there, writing shards follows a plan: the shards in order, then the removals of
stale ones, then the aggregator. It stops in front of the first file whose place a directory takes
(`exists_ends_writeShards`). No two changes of a plan concern one place, so what becomes of a file is told
by the one change that concerns it, if there is one.
-/

namespace WasmEmbed

/-! ## Names of files

The name of a shard is told by its number and the name of the aggregator by none, so no two files of a
build have one name. A stale file is one whose name has a number that is not in use.
-/

namespace ShardNaming

/-- The names of files are made from identifiers, as the check of a config asks. -/
structure IsValid (n : ShardNaming) : Prop where
  start : isIdentifier n.start = true
  extension : isExtension n.extension = true

/-- The name of the file of a shard. -/
def file (n : ShardNaming) (i : Nat) : Name := Shard.withExtension (n.stem i) n.extension

/-- The name of the file of the aggregator. -/
def index (n : ShardNaming) : Name := Shard.withExtension Shard.indexStem n.extension

/-- Shards with different numbers have different names. -/
theorem file_injective (n : ShardNaming) : Function.Injective n.file := fun _ _ h =>
  Shard.stem_injective n.start (List.append_cancel_right h)

end ShardNaming

namespace Build

open Store

variable {n : ShardNaming} {cwd : Location} {s : Store} {dir : Path} {d : Location}

/-- A shard is stale if its number is no less than the number of shards. -/
theorem isStale_file (n : ShardNaming) (keep i : Nat) :
    isStale n keep (n.file i) = decide (keep ≤ i) := by
  rw [isStale, ShardNaming.file, ShardNaming.stem, Shard.index?_file]
  rfl

/-- The aggregator is never stale. -/
theorem isStale_index (n : ShardNaming) (keep : Nat) : isStale n keep n.index = false := by
  rw [isStale, ShardNaming.index, Shard.index?_index]
  rfl

/-- The name of a stale shard leads down. -/
theorem ne_parentName_of_isStale (hn : n.IsValid) {keep : Nat} {name : Name}
    (h : isStale n keep name = true) : name ≠ Path.parentName := by
  rintro rfl
  have hprefix : n.start.isPrefixOf Path.parentName = true := by
    rw [isStale, Shard.index?] at h
    split at h
    · next hname => exact (Bool.and_eq_true_iff.mp hname).1
    · simp at h
  have hstart := hn.start
  cases hcase : n.start with
  | nil => simp [hcase, isIdentifier] at hstart
  | cons c rest =>
      rw [hcase, List.isPrefixOf_iff_prefix] at hprefix
      obtain ⟨back, hback⟩ := hprefix
      obtain rfl : c = '.' := (List.cons.inj hback).1
      rw [hcase, isIdentifier, Bool.and_eq_true] at hstart
      exact absurd hstart.1 (by decide)

/-- A file in a directory that a path leads to. -/
theorem locate_path (hdir : s.locate cwd dir = .ok d) (hd : s.get? d = some .directory) {stem : Name}
    (hplain : Path.IsPlain (Shard.withExtension stem n.extension)) :
    s.locate cwd (n.path dir stem) = .ok (d ++ [Shard.withExtension stem n.extension]) := by
  rw [Store.locate] at hdir ⊢
  rw [ShardNaming.path, Path.isAbsolute_child hplain, Path.names_child hplain,
    follow_append_singleton hdir hd, Path.descend, if_neg hplain.ne_parent]

/-! ## The plan

The plan is a list of changes that depends on the store only through the stale files. What is done of it
is the part in front of the first change whose place a directory takes.
-/

/-- Nothing is in the way of a change. -/
def isFree (s : Store) (c : Change) : Bool := s.get? c.place != some .directory

/-- The change that writes a shard. -/
def shardWrite (n : ShardNaming) (d : Location) (i : Nat) (chunk : List Char) : Change :=
  .write (d ++ [n.file i]) (Text.Utf8.encode (Shard.scriptText chunk))

/-- The changes that write the shards of chunks, the first of which has the number `i`. -/
def shardWrites (n : ShardNaming) (d : Location) : Nat → List (List Char) → List Change
  | _, [] => []
  | i, chunk :: rest => shardWrite n d i chunk :: shardWrites n d (i + 1) rest

/-- The change that writes the aggregator of a number of shards. -/
def indexWrite (n : ShardNaming) (d : Location) (count : Nat) : Change :=
  .write (d ++ [n.index])
    (Text.Utf8.encode (Shard.aggregator ((List.range count).map n.stem) n.extension))

/-- The changes that remove the stale shards of a directory, each of them once. -/
structure IsRemoval (n : ShardNaming) (d : Location) (keep : Nat) (s : Store)
    (removes : List Change) : Prop where
  mem_iff : ∀ c, c ∈ removes ↔ ∃ name, isStale n keep name = true ∧
    (∃ content, s.get? (d ++ [name]) = some (.file content)) ∧ c = .remove (d ++ [name])
  apart : removes.Pairwise fun c c' => c.place ≠ c'.place

/-- All changes that are to be made in the directory of the shards. -/
def plan (n : ShardNaming) (d : Location) (chunks : List (List Char)) (removes : List Change) :
    List Change :=
  shardWrites n d 0 chunks ++ removes ++ [indexWrite n d chunks.length]

/-! ## Writing the shards

The shards are written one after the other, and each file is written or a directory stands in its way.
That is decided on the store behind the shards before, which has the same directories as the store at the
beginning.
-/

/-- A file that is written takes no place from a directory. -/
theorem isFree_apply_write {l : Location} (h : s.get? l ≠ some .directory) (content : List UInt8) :
    isFree ((Change.write l content).apply s) = isFree s := by
  funext c
  have hallowed : (Change.write l content).IsAllowed s := h
  rw [isFree, isFree, get?_apply hallowed]
  split
  · next hplace =>
      have hl : s.get? c.place ≠ some .directory := by
        rw [hplace]
        exact h
      rw [bne_iff_ne.mpr hl]
      rfl
  · rfl

/-- How the writing of files with these stems ends: at the first whose place a directory takes. -/
def writeEnd (n : ShardNaming) (dir : Path) (s : Store) (d : Location) (stems : List Name) :
    Except Failure Unit :=
  match stems.find? fun stem =>
    s.get? (d ++ [Shard.withExtension stem n.extension]) == some .directory with
  | some stem => .error (.path ⟨.isDirectory, n.path dir stem⟩)
  | none => .ok ()

/-- Only where the directories are matters for it. -/
theorem writeEnd_congr {s' : Store} (h : ∀ l, s'.get? l = some .directory ↔ s.get? l = some .directory)
    (stems : List Name) : writeEnd n dir s' d stems = writeEnd n dir s d stems := by
  have hsame : (fun stem => s'.get? (d ++ [Shard.withExtension stem n.extension]) ==
      some Entry.directory) =
      fun stem => s.get? (d ++ [Shard.withExtension stem n.extension]) == some .directory := by
    funext stem
    rw [Bool.eq_iff_iff, beq_iff_eq, beq_iff_eq]
    exact h _
  rw [writeEnd, hsame]
  rfl

/-- Where a directory stands in the way of the first file, writing ends there. -/
theorem writeEnd_cons_taken {stem : Name}
    (h : s.get? (d ++ [Shard.withExtension stem n.extension]) = some .directory) (stems : List Name) :
    writeEnd n dir s d (stem :: stems) = .error (.path ⟨.isDirectory, n.path dir stem⟩) := by
  simp only [writeEnd, List.find?_cons, h, beq_self_eq_true]

/-- Where none does, writing ends as it does for the other files. -/
theorem writeEnd_cons_free {stem : Name}
    (h : s.get? (d ++ [Shard.withExtension stem n.extension]) ≠ some .directory) (stems : List Name) :
    writeEnd n dir s d (stem :: stems) = writeEnd n dir s d stems := by
  simp only [writeEnd, List.find?_cons, beq_eq_false_iff_ne.mpr h]

/-- The stems of shards, the first of which has the number `i`. -/
def stemsFrom (n : ShardNaming) (i count : Nat) : List Name := (List.range' i count).map n.stem

theorem stemsFrom_succ (n : ShardNaming) (i count : Nat) :
    stemsFrom n i (count + 1) = n.stem i :: stemsFrom n (i + 1) count := rfl

/-- Writing the shards succeeds if no directory stands in the way of any of them. -/
theorem writeEnd_eq_ok_iff (i : Nat) (chunks : List (List Char)) :
    writeEnd n dir s d (stemsFrom n i chunks.length) = .ok () ↔
      (shardWrites n d i chunks).all (isFree s) = true := by
  induction chunks generalizing i with
  | nil => exact iff_of_true rfl rfl
  | cons chunk rest ih =>
      rw [List.length_cons, stemsFrom_succ, shardWrites, List.all_cons]
      by_cases hfree : s.get? (d ++ [n.file i]) = some .directory
      · have hblocked : isFree s (shardWrite n d i chunk) = false := by
          simp [isFree, shardWrite, Change.place, hfree]
        rw [writeEnd_cons_taken hfree, hblocked]
        simp
      · have hopen : isFree s (shardWrite n d i chunk) = true := by
          simpa [isFree, shardWrite, Change.place] using hfree
        rw [writeEnd_cons_free hfree, ih, hopen, Bool.true_and]

theorem isFree_eq_iff {s' : Store} (h : isFree s' = isFree s) (l : Location) :
    s'.get? l = some .directory ↔ s.get? l = some .directory := by
  have hl := congrFun h (.remove l)
  rw [isFree, isFree, Bool.eq_iff_iff, bne_iff_ne, bne_iff_ne] at hl
  exact not_iff_not.mp hl

/-- The shards are written in order, up to the first whose place a directory takes. -/
theorem ends_writeChunks (hn : n.IsValid) (hdir : s.locate cwd dir = .ok d)
    (hd : s.get? d = some .directory) (i : Nat) {chunks : List (List Char)}
    (hchunks : ∀ chunk ∈ chunks, ∀ c ∈ chunk, Payload.Base64.isAllowed c = true) :
    Ends (writeChunks n dir i chunks) cwd s (writeEnd n dir s d (stemsFrom n i chunks.length))
      ((shardWrites n d i chunks).takeWhile (isFree s)) := by
  induction chunks generalizing i s with
  | nil =>
      rw [writeChunks]
      exact Ends.pure ()
  | cons chunk rest ih =>
      have hpath := locate_path hdir hd (Shard.isPlain_file hn.start hn.extension i)
      have hscript := Shard.script_of_isAllowed (hchunks chunk (by simp))
      rw [writeChunks, hscript, shardWrites, List.length_cons, stemsFrom_succ]
      by_cases hfree : s.get? (d ++ [n.file i]) = some .directory
      · -- A directory is in the way.
        have hblocked : isFree s (shardWrite n d i chunk) = false := by
          simp [isFree, shardWrite, Change.place, hfree]
        rw [writeEnd_cons_taken hfree, List.takeWhile_cons_of_neg (by simp [hblocked])]
        exact (Ends.require_ok _ _).then (Ends.writeFile_directory hpath hfree _).bind_error
      · have hopen : isFree s (shardWrite n d i chunk) = true := by
          simpa [isFree, shardWrite, Change.place] using hfree
        have hallows : s.Allows [shardWrite n d i chunk] := ⟨hfree, trivial⟩
        have hends := ih (locate_replay hallows hdir) (get?_replay_directory hallows hd) (i + 1)
          fun chunk' hchunk' => hchunks chunk' (by simp [hchunk'])
        have hsame : isFree (s.replay [shardWrite n d i chunk]) = isFree s := isFree_apply_write hfree _
        rw [hsame, writeEnd_congr (isFree_eq_iff hsame)] at hends
        rw [writeEnd_cons_free hfree, List.takeWhile_cons_of_pos hopen]
        exact (Ends.require_ok _ _).then
          ((Ends.writeFile hpath hfree _).bind ((Ends.detail _).then hends))

/-! ## Removing stale shards

The names in the directory are gone through in the order in which they are listed. A stale name is removed
if it is the name of a file, and a directory with such a name stays.
-/

/-- A listed file in the directory. -/
theorem locate_listed (hn : n.IsValid) (hdir : s.locate cwd dir = .ok d)
    (hd : s.get? d = some .directory) {keep : Nat} {name : Name} (hstale : isStale n keep name = true) :
    s.locate cwd { dir with names := dir.names ++ [name] } = .ok (d ++ [name]) := by
  rw [Store.locate] at hdir ⊢
  have hname : Path.descend d name = d ++ [name] := if_neg (ne_parentName_of_isStale hn hstale)
  rw [← hname]
  exact follow_append_singleton hdir hd

/-- A path leads to a file if a file stands at its place. -/
theorem isFile_iff {path : Path} {l : Location} (h : s.locate cwd path = .ok l) :
    s.isFile cwd path = true ↔ ∃ content, s.get? l = some (.file content) := by
  rw [isFile, find?, h]
  cases hl : s.get? l with
  | none => simp [hl]
  | some e => cases e with
    | directory => simp [hl]
    | file content => simp [hl]

/-- Once a file of a directory was removed, the others are files as before. -/
theorem exists_file_replay_remove_iff {name : Name} {content : List UInt8}
    (hfile : s.get? (d ++ [name]) = some (.file content)) (name' : Name) :
    (∃ content, (s.replay [.remove (d ++ [name])]).get? (d ++ [name']) = some (.file content)) ↔
      name' ≠ name ∧ ∃ content, s.get? (d ++ [name']) = some (.file content) := by
  have hallowed : (Change.remove (d ++ [name])).IsAllowed s := ⟨content, hfile⟩
  rw [replay_cons, replay_nil, get?_apply hallowed]
  by_cases hname : name' = name
  · subst hname
    simp [Change.place, Change.entry]
  · simp [Change.place, hname]

/-- A stale shard that is a file is removed before the rest is looked at. -/
theorem Ends.removeStale_cons (hn : n.IsValid) (hdir : s.locate cwd dir = .ok d)
    (hd : s.get? d = some .directory) {keep : Nat} {name : Name} (hstale : isStale n keep name = true)
    {content : List UInt8} (hfile : s.get? (d ++ [name]) = some (.file content)) {names : List Name}
    {r : Except Failure Unit} {changes : List Change}
    (h : Ends (removeStale n dir keep names) cwd (s.replay [.remove (d ++ [name])]) r changes) :
    Ends (removeStale n dir keep (name :: names)) cwd s r (.remove (d ++ [name]) :: changes) := by
  have hpath := locate_listed hn hdir hd hstale
  rw [removeStale]
  refine Ends.store.then (Ends.read.then ?_)
  rw [hstale, (isFile_iff hpath).mpr ⟨content, hfile⟩]
  exact (Ends.removeFile hpath hfile).bind ((Ends.tell _).then h)

/-- What is no stale shard, or no file, stays. -/
theorem Ends.removeStale_cons_of_not (hn : n.IsValid) (hdir : s.locate cwd dir = .ok d)
    (hd : s.get? d = some .directory) {keep : Nat} {name : Name}
    (hnot : ¬ (isStale n keep name = true ∧ ∃ content, s.get? (d ++ [name]) = some (.file content)))
    {names : List Name} {r : Except Failure Unit} {changes : List Change}
    (h : Ends (removeStale n dir keep names) cwd s r changes) :
    Ends (removeStale n dir keep (name :: names)) cwd s r changes := by
  rw [removeStale]
  refine Ends.store.then (Ends.read.then ?_)
  have hskip : (isStale n keep name &&
      s.isFile cwd { dir with names := dir.names ++ [name] }) = false := by
    rw [Bool.eq_false_iff]
    intro h
    obtain ⟨hstale, hfile⟩ := Bool.and_eq_true_iff.mp h
    exact hnot ⟨hstale, (isFile_iff (locate_listed hn hdir hd hstale)).mp hfile⟩
  rw [hskip]
  exact h

/-- Of the names of a list, those of stale shards that are files are removed, each of them once. -/
theorem exists_ends_removeStale (hn : n.IsValid) (hdir : s.locate cwd dir = .ok d)
    (hd : s.get? d = some .directory) (keep : Nat) (names : List Name) :
    ∃ removes, Ends (removeStale n dir keep names) cwd s (.ok ()) removes ∧
      (∀ c, c ∈ removes ↔ ∃ name ∈ names, isStale n keep name = true ∧
        (∃ content, s.get? (d ++ [name]) = some (.file content)) ∧ c = .remove (d ++ [name])) ∧
      removes.Pairwise fun c c' => c.place ≠ c'.place := by
  induction names generalizing s with
  | nil => exact ⟨[], by rw [removeStale]; exact Ends.pure (), by simp, .nil⟩
  | cons name rest ih =>
      by_cases hremove : isStale n keep name = true ∧ ∃ content, s.get? (d ++ [name]) = some (.file content)
      · obtain ⟨hstale, content, hfile⟩ := hremove
        have hallows : s.Allows [.remove (d ++ [name])] := ⟨⟨content, hfile⟩, trivial⟩
        obtain ⟨removes, hends, hmem, hapart⟩ :=
          ih (locate_replay hallows hdir) (get?_replay_directory hallows hd)
        -- Of what is removed later, nothing stands at the place of this file.
        simp only [exists_file_replay_remove_iff hfile] at hmem
        refine ⟨.remove (d ++ [name]) :: removes, hends.removeStale_cons hn hdir hd hstale hfile, ?_, ?_⟩
        · intro c
          rw [List.mem_cons, hmem]
          constructor
          · rintro (rfl | ⟨name', hname', hstale', ⟨-, hfile'⟩, rfl⟩)
            · exact ⟨name, by simp, hstale, ⟨content, hfile⟩, rfl⟩
            · exact ⟨name', by simp [hname'], hstale', hfile', rfl⟩
          · rintro ⟨name', hname', hstale', hfile', rfl⟩
            by_cases heq : name' = name
            · exact Or.inl (by rw [heq])
            · have hin : name' ∈ rest := (List.mem_cons.mp hname').resolve_left heq
              exact Or.inr ⟨name', hin, hstale', ⟨heq, hfile'⟩, rfl⟩
        · refine List.pairwise_cons.mpr ⟨fun c hc => ?_, hapart⟩
          obtain ⟨name', -, -, ⟨hne, -⟩, rfl⟩ := (hmem c).mp hc
          simpa [Change.place] using Ne.symm hne
      · obtain ⟨removes, hends, hmem, hapart⟩ := ih hdir hd
        refine ⟨removes, hends.removeStale_cons_of_not hn hdir hd hremove, fun c => ?_, hapart⟩
        rw [hmem]
        constructor
        · rintro ⟨name', hname', h⟩
          exact ⟨name', by simp [hname'], h⟩
        · rintro ⟨name', hname', hstale, hfile, rfl⟩
          rcases List.mem_cons.mp hname' with rfl | hname'
          · exact absurd ⟨hstale, hfile⟩ hremove
          · exact ⟨name', hname', hstale, hfile, rfl⟩

/-- All stale shards of a directory are removed. -/
theorem exists_ends_removeStale_names (hn : n.IsValid) (hdir : s.locate cwd dir = .ok d)
    (hd : s.get? d = some .directory) (keep : Nat) :
    ∃ removes, Ends (removeStale n dir keep (s.names d)) cwd s (.ok ()) removes ∧
      IsRemoval n d keep s removes := by
  obtain ⟨removes, hends, hmem, hapart⟩ := exists_ends_removeStale hn hdir hd keep (s.names d)
  refine ⟨removes, hends, fun c => (hmem c).trans ?_, hapart⟩
  constructor
  · rintro ⟨name, -, h⟩
    exact ⟨name, h⟩
  · rintro ⟨name, hstale, ⟨content, hfile⟩, rfl⟩
    exact ⟨name, mem_names_of_get? hfile, hstale, ⟨content, hfile⟩, rfl⟩

/-! ## The plan as a whole -/

/-- If not all of the front satisfies the condition, the back is not reached. -/
theorem takeWhile_append_of_not_all {α : Type} {p : α → Bool} {front : List α} (back : List α)
    (h : front.all p = false) : (front ++ back).takeWhile p = front.takeWhile p := by
  rw [List.takeWhile_append, if_neg]
  intro hlength
  have hself := (List.takeWhile_prefix p).eq_of_length hlength
  rw [List.takeWhile_eq_self_iff] at hself
  exact absurd (List.all_eq_true.mpr hself) (by simp [h])

/-- The writes of the shards, told by the number of the chunk. -/
theorem mem_shardWrites {i : Nat} {chunks : List (List Char)} {c : Change} :
    c ∈ shardWrites n d i chunks ↔ ∃ j chunk, chunks[j]? = some chunk ∧ c = shardWrite n d (i + j) chunk := by
  induction chunks generalizing i with
  | nil => simp [shardWrites]
  | cons first rest ih =>
      rw [shardWrites, List.mem_cons, ih]
      constructor
      · rintro (rfl | ⟨j, chunk, hchunk, rfl⟩)
        · exact ⟨0, first, rfl, rfl⟩
        · exact ⟨j + 1, chunk, hchunk, by rw [Nat.add_right_comm, Nat.add_assoc]⟩
      · rintro ⟨j, chunk, hchunk, rfl⟩
        cases j with
        | zero => exact Or.inl (by rw [Option.some.inj hchunk]; rfl)
        | succ j => exact Or.inr ⟨j, chunk, hchunk, by rw [Nat.add_right_comm, Nat.add_assoc]⟩

/-- A change of a plan writes a shard, removes a stale one or writes the aggregator. -/
theorem mem_plan {chunks : List (List Char)} {removes : List Change}
    (hremoves : IsRemoval n d chunks.length s removes) {c : Change} :
    c ∈ plan n d chunks removes ↔
      (∃ i chunk, chunks[i]? = some chunk ∧ c = shardWrite n d i chunk) ∨
      (∃ name, isStale n chunks.length name = true ∧
        (∃ content, s.get? (d ++ [name]) = some (.file content)) ∧ c = .remove (d ++ [name])) ∨
      c = indexWrite n d chunks.length := by
  rw [plan, List.mem_append, List.mem_append, List.mem_singleton, mem_shardWrites, hremoves.mem_iff,
    or_assoc]
  simp only [Nat.zero_add]

/-- No two shards have one place. -/
theorem pairwise_shardWrites (i : Nat) (chunks : List (List Char)) :
    (shardWrites n d i chunks).Pairwise fun c c' => c.place ≠ c'.place := by
  induction chunks generalizing i with
  | nil => exact .nil
  | cons chunk rest ih =>
      refine List.pairwise_cons.mpr ⟨fun c hc => ?_, ih (i + 1)⟩
      obtain ⟨j, chunk', -, rfl⟩ := mem_shardWrites.mp hc
      intro h
      have hfile := n.file_injective (List.cons.inj (List.append_cancel_left h)).1
      omega

/-- No two changes of a plan concern one place. -/
theorem pairwise_plan {chunks : List (List Char)} {removes : List Change}
    (hremoves : IsRemoval n d chunks.length s removes) :
    (plan n d chunks removes).Pairwise fun c c' => c.place ≠ c'.place := by
  -- A number below that of the chunks is not stale, and the name of the aggregator never is.
  refine List.pairwise_append.mpr
    ⟨List.pairwise_append.mpr ⟨pairwise_shardWrites 0 chunks, hremoves.apart, ?_⟩,
      List.pairwise_singleton _ _, ?_⟩
  · intro c hc c' hc'
    obtain ⟨j, chunk, hchunk, rfl⟩ := mem_shardWrites.mp hc
    obtain ⟨name, hstale, -, rfl⟩ := (hremoves.mem_iff c').mp hc'
    intro h
    have hname : n.file (0 + j) = name := (List.cons.inj (List.append_cancel_left h)).1
    have hlt := (List.getElem?_eq_some_iff.mp hchunk).1
    rw [← hname, isStale_file, decide_eq_true_eq] at hstale
    omega
  · intro c hc c' hc' h
    obtain rfl := List.mem_singleton.mp hc'
    rcases List.mem_append.mp hc with hc | hc
    · obtain ⟨j, chunk, -, rfl⟩ := mem_shardWrites.mp hc
      have hname : n.file (0 + j) = n.index := (List.cons.inj (List.append_cancel_left h)).1
      have hstale := isStale_file n 0 (0 + j)
      rw [hname, isStale_index] at hstale
      simp at hstale
    · obtain ⟨name, hstale, -, rfl⟩ := (hremoves.mem_iff c).mp hc
      have hname : name = n.index := (List.cons.inj (List.append_cancel_left h)).1
      rw [hname, isStale_index] at hstale
      cases hstale

/-- A change of a plan at the place of a stale shard removes it. -/
theorem remove_of_mem_plan {chunks : List (List Char)} {removes : List Change}
    (hremoves : IsRemoval n d chunks.length s removes) {change : Change}
    (h : change ∈ plan n d chunks removes) {name : Name} (hstale : isStale n chunks.length name = true)
    (hplace : change.place = d ++ [name]) : change = .remove (d ++ [name]) := by
  rcases (mem_plan hremoves).mp h with ⟨i, chunk, hchunk, rfl⟩ | ⟨name', -, -, rfl⟩ | rfl
  · have hname : n.file i = name := (List.cons.inj (List.append_cancel_left hplace)).1
    have hlt := (List.getElem?_eq_some_iff.mp hchunk).1
    rw [← hname, isStale_file, decide_eq_true_eq] at hstale
    omega
  · exact congrArg Change.remove hplace
  · have hname : n.index = name := (List.cons.inj (List.append_cancel_left hplace)).1
    rw [← hname, isStale_index] at hstale
    cases hstale

/-- The files that are written for chunks. -/
def shardSet (n : ShardNaming) (dir : Path) (chunks : List (List Char)) (text : List Char) : ShardSet :=
  ⟨((List.range chunks.length).map n.stem).map (n.path dir), n.path dir Shard.indexStem, text.length⟩

/-- What is left to do once the directory is there. -/
def fill (n : ShardNaming) (dir : Path) (chunks : List (List Char)) (text : List Char) :
    Build ShardSet := do
  writeChunks n dir 0 chunks
  removeStale n dir chunks.length (← listDirectory dir)
  writeFile (n.path dir Shard.indexStem)
    (Text.Utf8.encode (Shard.aggregator ((List.range chunks.length).map n.stem) n.extension))
  tell (.wroteShards chunks.length (n.path dir Shard.indexStem).name dir)
  pure (shardSet n dir chunks text)

/-- Writing shards is splitting the text, making sure of the directory, and filling it. -/
theorem writeShards_eq (n : ShardNaming) (dir : Path) (maxChars : Int) (text : List Char) :
    writeShards n dir maxChars text =
      require .shard (Shard.split maxChars text) >>= fun chunks =>
        makeDirectories dir >>= fun _ => fill n dir chunks text := rfl

/-- Writing the shards makes nothing stale and puts nothing in the place of a stale shard. -/
theorem IsRemoval.of_shardWrites {chunks : List (List Char)} {removes : List Change}
    (hallows : s.Allows (shardWrites n d 0 chunks))
    (h : IsRemoval n d chunks.length (s.replay (shardWrites n d 0 chunks)) removes) :
    IsRemoval n d chunks.length s removes := by
  refine ⟨fun c => (h.mem_iff c).trans (exists_congr fun name => ?_), h.apart⟩
  refine and_congr_right fun hstale => ?_
  rw [get?_replay_of_forall_ne hallows]
  intro c hc hplace
  obtain ⟨j, chunk, hchunk, rfl⟩ := mem_shardWrites.mp hc
  have hname : n.file (0 + j) = name := (List.cons.inj (List.append_cancel_left hplace)).1
  have hlt := (List.getElem?_eq_some_iff.mp hchunk).1
  rw [← hname, isStale_file, decide_eq_true_eq] at hstale
  omega

/-- No directory stands at the place of a removal. -/
theorem isFree_of_mem_removal {keep : Nat} {removes : List Change} (h : IsRemoval n d keep s removes) :
    ∀ c ∈ removes, isFree s c = true := by
  intro c hc
  obtain ⟨name, -, ⟨content, hfile⟩, rfl⟩ := (h.mem_iff c).mp hc
  simp [isFree, Change.place, hfile]

/-- How filling a directory ends: at the first shard whose place a directory takes, or else at the aggregator
if a directory takes its place. -/
def fillEnd (n : ShardNaming) (dir : Path) (s : Store) (d : Location) (chunks : List (List Char))
    (text : List Char) : Except Failure ShardSet := do
  writeEnd n dir s d (stemsFrom n 0 chunks.length)
  writeEnd n dir s d [Shard.indexStem]
  pure (shardSet n dir chunks text)

/-- Where all shards can be written, stale ones are removed, and then the aggregator is written unless a
directory is in the way. -/
theorem exists_ends_fillEnd_of_free (hn : n.IsValid) (hdir : s.locate cwd dir = .ok d)
    (hd : s.get? d = some .directory) {chunks : List (List Char)} (text : List Char)
    (hchunks : ∀ chunk ∈ chunks, ∀ c ∈ chunk, Payload.Base64.isAllowed c = true)
    (hfree : (shardWrites n d 0 chunks).all (isFree s) = true) :
    ∃ removes, IsRemoval n d chunks.length s removes ∧
      Ends (fill n dir chunks text) cwd s (fillEnd n dir s d chunks text)
        ((plan n d chunks removes).takeWhile (isFree s)) := by
  have hwrites := ends_writeChunks hn hdir hd 0 hchunks
  rw [writeEnd_eq_ok_iff 0 chunks |>.mpr hfree,
    List.takeWhile_eq_self_iff.mpr (List.all_eq_true.mp hfree)] at hwrites
  have hdir₂ := locate_replay hwrites.allows hdir
  have hd₂ := get?_replay_directory hwrites.allows hd
  obtain ⟨removes, hends, hremoves₂⟩ :=
    exists_ends_removeStale_names hn hdir₂ hd₂ chunks.length
  have hremoves := hremoves₂.of_shardWrites hwrites.allows
  have hallows : s.Allows (shardWrites n d 0 chunks ++ removes) :=
    allows_append.mpr ⟨hwrites.allows, hends.allows⟩
  have hindexPath := locate_path (locate_replay hallows hdir) (get?_replay_directory hallows hd)
    (Shard.isPlain_index hn.extension)
  -- No earlier change concerns the place of the aggregator.
  have hindex : (s.replay (shardWrites n d 0 chunks ++ removes)).get? (d ++ [n.index]) =
      s.get? (d ++ [n.index]) :=
    get?_replay_of_forall_ne hallows fun c hc =>
      (List.pairwise_append.mp (pairwise_plan hremoves)).2.2 c hc _ (List.mem_singleton.mpr rfl)
  have hall : ∀ c ∈ shardWrites n d 0 chunks ++ removes, isFree s c = true := by
    intro c hc
    rcases List.mem_append.mp hc with hc | hc
    · exact List.all_eq_true.mp hfree c hc
    · exact isFree_of_mem_removal hremoves c hc
  refine ⟨removes, hremoves, ?_⟩
  rw [fill, fillEnd, writeEnd_eq_ok_iff 0 chunks |>.mpr hfree, plan, List.takeWhile_append_of_pos hall]
  by_cases hblocked : s.get? (d ++ [n.index]) = some .directory
  · have hnot : isFree s (indexWrite n d chunks.length) = false := by
      simp [isFree, indexWrite, Change.place, hblocked]
    rw [writeEnd_cons_taken hblocked, List.takeWhile_cons_of_neg (by simp [hnot]), List.append_nil]
    refine hwrites.bind ((Ends.listDirectory hdir₂ hd₂).then ?_)
    rw [← List.append_nil removes]
    refine hends.bind ?_
    rw [← replay_append]
    exact (Ends.writeFile_directory hindexPath (hindex.trans hblocked) _).bind_error
  · have hopen : isFree s (indexWrite n d chunks.length) = true := by
      simpa [isFree, indexWrite, Change.place] using hblocked
    rw [writeEnd_cons_free hblocked, List.takeWhile_cons_of_pos hopen, List.takeWhile_nil,
      List.append_assoc]
    refine hwrites.bind ((Ends.listDirectory hdir₂ hd₂).then (hends.bind ?_))
    rw [← replay_append]
    have hwritable : (s.replay (shardWrites n d 0 chunks ++ removes)).get? (d ++ [n.index]) ≠
        some .directory := by
      rw [hindex]
      exact hblocked
    exact (Ends.writeFile hindexPath hwritable _).bind ((Ends.tell _).then (Ends.pure _))

/-- In a directory, the changes of the plan are made that come in front of the first for which a directory
is in the way. -/
theorem exists_ends_fillEnd (hn : n.IsValid) (hdir : s.locate cwd dir = .ok d)
    (hd : s.get? d = some .directory) {chunks : List (List Char)} (text : List Char)
    (hchunks : ∀ chunk ∈ chunks, ∀ c ∈ chunk, Payload.Base64.isAllowed c = true) :
    ∃ removes, IsRemoval n d chunks.length s removes ∧
      Ends (fill n dir chunks text) cwd s (fillEnd n dir s d chunks text)
        ((plan n d chunks removes).takeWhile (isFree s)) := by
  by_cases hfree : (shardWrites n d 0 chunks).all (isFree s) = true
  · exact exists_ends_fillEnd_of_free hn hdir hd text hchunks hfree
  · have hwrites := ends_writeChunks hn hdir hd 0 hchunks
    have hstop : (shardWrites n d 0 chunks).all (isFree s) = false := Bool.eq_false_iff.mpr hfree
    obtain ⟨removes, -, hremoves⟩ := exists_ends_removeStale_names hn hdir hd chunks.length
    have hnot : writeEnd n dir s d (stemsFrom n 0 chunks.length) ≠ .ok () :=
      fun h => hfree ((writeEnd_eq_ok_iff 0 chunks).mp h)
    refine ⟨removes, hremoves, ?_⟩
    rw [fill, fillEnd, plan, List.append_assoc, takeWhile_append_of_not_all _ hstop]
    cases hend : writeEnd n dir s d (stemsFrom n 0 chunks.length) with
    | ok u => exact absurd hend hnot
    | error e =>
        rw [hend] at hwrites
        exact hwrites.bind_error

/-- Filling succeeds if no change of the plan is stopped, and then it tells the files of the plan. -/
theorem fillEnd_eq_ok_iff {chunks : List (List Char)} {removes : List Change}
    (hremoves : IsRemoval n d chunks.length s removes) (text : List Char) (shards : ShardSet) :
    fillEnd n dir s d chunks text = .ok shards ↔
      (plan n d chunks removes).all (isFree s) = true ∧ shards = shardSet n dir chunks text := by
  have hremovable : removes.all (isFree s) = true :=
    List.all_eq_true.mpr (isFree_of_mem_removal hremoves)
  have hshards : writeEnd n dir s d (stemsFrom n 0 chunks.length) = .ok () ↔
      (shardWrites n d 0 chunks).all (isFree s) = true := writeEnd_eq_ok_iff 0 chunks
  rw [fillEnd, plan, List.all_append, List.all_append, hremovable, Bool.and_true, List.all_cons,
    List.all_nil, Bool.and_true, Bool.and_eq_true]
  -- Removing stops nothing, so the shards decide first and then the aggregator.
  cases hend : writeEnd n dir s d (stemsFrom n 0 chunks.length) with
  | error e =>
      rw [hend] at hshards
      have hblocked : ¬ (shardWrites n d 0 chunks).all (isFree s) = true :=
        fun h => nomatch hshards.mpr h
      exact iff_of_false (fun h => nomatch h) fun h => hblocked h.1.1
  | ok u =>
      have hfree := hshards.mp hend
      by_cases hindex : s.get? (d ++ [n.index]) = some .directory
      · have hnot : isFree s (indexWrite n d chunks.length) = false := by
          simp [isFree, indexWrite, Change.place, hindex]
        rw [writeEnd_cons_taken hindex, hnot]
        exact iff_of_false (fun h => nomatch h) fun h => nomatch h.1.2
      · have hopen : isFree s (indexWrite n d chunks.length) = true := by
          simpa [isFree, indexWrite, Change.place] using hindex
        rw [writeEnd_cons_free hindex, hfree, hopen]
        exact ⟨fun h => ⟨⟨rfl, rfl⟩, (Except.ok.inj h).symm⟩, fun h => congrArg Except.ok h.2.symm⟩

/-- How the filling of a directory ends: with which changes, and when it succeeds. -/
theorem exists_ends_fill (hn : n.IsValid) (hdir : s.locate cwd dir = .ok d)
    (hd : s.get? d = some .directory) {chunks : List (List Char)} (text : List Char)
    (hchunks : ∀ chunk ∈ chunks, ∀ c ∈ chunk, Payload.Base64.isAllowed c = true) :
    ∃ removes r, IsRemoval n d chunks.length s removes ∧
      Ends (fill n dir chunks text) cwd s r ((plan n d chunks removes).takeWhile (isFree s)) ∧
      ∀ shards, r = .ok shards ↔
        (plan n d chunks removes).all (isFree s) = true ∧ shards = shardSet n dir chunks text := by
  obtain ⟨removes, hremoves, hends⟩ := exists_ends_fillEnd hn hdir hd text hchunks
  exact ⟨removes, _, hremoves, hends, fillEnd_eq_ok_iff hremoves text⟩

/-- Writing shards makes the directory, and then the changes of the plan in front of the first for which a
directory is in the way. It fails if there is one. -/
theorem exists_ends_writeShards (hn : n.IsValid) (cwd : Location) (s : Store) (dir : Path)
    {maxChars : Int} {text : List Char} {chunks : List (List Char)}
    (hsplit : Shard.split maxChars text = .ok chunks)
    (hchunks : ∀ chunk ∈ chunks, ∀ c ∈ chunk, Payload.Base64.isAllowed c = true) :
    ∃ r made, Ends (makeDirectories dir) cwd s r made ∧ OnlyMakes made ∧
      ((∃ e, r = .error e ∧ Ends (writeShards n dir maxChars text) cwd s (.error e) made) ∨
      ∃ d removes r', r = .ok () ∧ (s.replay made).locate cwd dir = .ok d ∧
        (s.replay made).get? d = some .directory ∧
        IsRemoval n d chunks.length (s.replay made) removes ∧
        Ends (writeShards n dir maxChars text) cwd s r'
          (made ++ (plan n d chunks removes).takeWhile (isFree (s.replay made))) ∧
        ∀ shards, r' = .ok shards ↔ (plan n d chunks removes).all (isFree (s.replay made)) = true ∧
          shards = shardSet n dir chunks text) := by
  obtain ⟨r, made, hmade, honly, hopen⟩ := exists_ends_makeDirectories cwd dir s
  refine ⟨r, made, hmade, honly, ?_⟩
  rw [writeShards_eq, hsplit]
  cases r with
  | error e => exact Or.inl ⟨e, rfl, (Ends.require_ok _ _).then hmade.bind_error⟩
  | ok u =>
      obtain ⟨d, hdir, hd⟩ := hopen rfl
      obtain ⟨removes, r, hremoves, hfill, hr⟩ := exists_ends_fill hn hdir hd text hchunks
      exact Or.inr ⟨d, removes, r, rfl, hdir, hd, hremoves, (Ends.require_ok _ _).then (hmade.bind hfill), hr⟩

/-! ## Files that stay as they are

What stands at a place behind a plan is what the one change that reaches the place has made of it, or what
stood there.
-/

/-- The first `k` shards are reached: no directory takes the place of one of them. -/
def Reaches (n : ShardNaming) (s : Store) (d : Location) (k : Nat) : Prop :=
  ∀ i < k, s.get? (d ++ [n.file i]) ≠ some .directory

/-- Writing the shards of chunks into the directory `d` leaves what stands at `l` as it is. Where a shard
or the aggregator has its place at `l`, it is there already, or it is not reached. -/
structure Spares (n : ShardNaming) (s : Store) (d : Location) (chunks : List (List Char))
    (l : Location) : Prop where
  shard : ∀ i chunk, chunks[i]? = some chunk → Reaches n s d (i + 1) → l = d ++ [n.file i] →
    s.get? l = (shardWrite n d i chunk).entry
  stale : Reaches n s d chunks.length → ∀ name, isStale n chunks.length name = true → l ≠ d ++ [name]
  index : Reaches n s d chunks.length → l = d ++ [n.index] →
    s.get? l = (indexWrite n d chunks.length).entry

/-- No shard is stopped if at the place of none of them stands a directory. -/
theorem all_shardWrites (i : Nat) (chunks : List (List Char)) :
    (shardWrites n d i chunks).all (isFree s) = true ↔
      ∀ k < chunks.length, s.get? (d ++ [n.file (i + k)]) ≠ some .directory := by
  rw [List.all_eq_true]
  constructor
  · intro h k hk
    have hmem : shardWrite n d (i + k) chunks[k] ∈ shardWrites n d i chunks :=
      mem_shardWrites.mpr ⟨k, chunks[k], List.getElem?_eq_getElem hk, rfl⟩
    simpa [isFree, shardWrite, Change.place] using h _ hmem
  · intro h c hc
    obtain ⟨j, chunk, hchunk, rfl⟩ := mem_shardWrites.mp hc
    have hj := h j (List.getElem?_eq_some_iff.mp hchunk).1
    simpa [isFree, shardWrite, Change.place] using hj

/-- The shards that are written are those in front of the first one that is stopped. -/
theorem mem_takeWhile_shardWrites {i : Nat} {chunks : List (List Char)} {c : Change} :
    c ∈ (shardWrites n d i chunks).takeWhile (isFree s) ↔
      ∃ j chunk, chunks[j]? = some chunk ∧ c = shardWrite n d (i + j) chunk ∧
        ∀ k ≤ j, s.get? (d ++ [n.file (i + k)]) ≠ some .directory := by
  induction chunks generalizing i with
  | nil => simp [shardWrites]
  | cons first rest ih =>
      rw [shardWrites]
      -- A directory in the place of the first shard stops all of them.
      by_cases hfree : s.get? (d ++ [n.file i]) = some .directory
      · rw [List.takeWhile_cons_of_neg (by simp [isFree, shardWrite, Change.place, hfree])]
        constructor
        · intro h
          cases h
        · rintro ⟨j, chunk, -, -, hreach⟩
          exact absurd hfree (hreach 0 (Nat.zero_le j))
      · rw [List.takeWhile_cons_of_pos (by simpa [isFree, shardWrite, Change.place] using hfree),
          List.mem_cons, ih]
        constructor
        · rintro (rfl | ⟨j, chunk, hchunk, rfl, hreach⟩)
          · refine ⟨0, first, rfl, rfl, fun k hk => ?_⟩
            rw [Nat.le_zero.mp hk]
            exact hfree
          · refine ⟨j + 1, chunk, hchunk, by rw [Nat.add_right_comm, Nat.add_assoc], fun k hk => ?_⟩
            cases k with
            | zero => exact hfree
            | succ k =>
                have := hreach k (Nat.le_of_succ_le_succ hk)
                rwa [Nat.add_right_comm, Nat.add_assoc] at this
        · rintro ⟨j, chunk, hchunk, rfl, hreach⟩
          cases j with
          | zero => exact Or.inl (by rw [Option.some.inj hchunk]; rfl)
          | succ j =>
              refine Or.inr ⟨j, chunk, hchunk, by rw [Nat.add_right_comm, Nat.add_assoc], fun k hk => ?_⟩
              have := hreach (k + 1) (Nat.succ_le_succ hk)
              rwa [Nat.add_right_comm, Nat.add_assoc]

/-- The changes that are made. -/
theorem mem_takeWhile_plan {chunks : List (List Char)} {removes : List Change}
    (hremoves : IsRemoval n d chunks.length s removes) {c : Change} :
    c ∈ (plan n d chunks removes).takeWhile (isFree s) ↔
      (∃ i chunk, chunks[i]? = some chunk ∧ c = shardWrite n d i chunk ∧ Reaches n s d (i + 1)) ∨
      Reaches n s d chunks.length ∧ (c ∈ removes ∨
        c = indexWrite n d chunks.length ∧ s.get? (d ++ [n.index]) ≠ some .directory) := by
  have hshards : c ∈ (shardWrites n d 0 chunks).takeWhile (isFree s) ↔
      ∃ i chunk, chunks[i]? = some chunk ∧ c = shardWrite n d i chunk ∧ Reaches n s d (i + 1) := by
    simp only [mem_takeWhile_shardWrites, Nat.zero_add, Reaches, Nat.lt_succ_iff]
  have hreach := all_shardWrites (n := n) (s := s) (d := d) 0 chunks
  simp only [Nat.zero_add] at hreach
  rw [plan, List.append_assoc, ← hshards]
  -- What comes behind the shards is reached only if all of them are free.
  by_cases hfree : (shardWrites n d 0 chunks).all (isFree s) = true
  · have hindex : isFree s (indexWrite n d chunks.length) = true ↔
        s.get? (d ++ [n.index]) ≠ some .directory := bne_iff_ne
    rw [List.takeWhile_append_of_pos (List.all_eq_true.mp hfree),
      List.takeWhile_append_of_pos (isFree_of_mem_removal hremoves),
      List.takeWhile_eq_self_iff.mpr (List.all_eq_true.mp hfree), List.mem_append, List.mem_append,
      ← hindex]
    refine or_congr_right (Iff.trans (or_congr_right ?_) (and_iff_right (hreach.mp hfree)).symm)
    by_cases hopen : isFree s (indexWrite n d chunks.length) = true
    · simp [List.takeWhile_cons_of_pos hopen, hopen]
    · simp [List.takeWhile_cons_of_neg hopen, hopen]
  · rw [takeWhile_append_of_not_all _ (Bool.eq_false_iff.mpr hfree)]
    exact (or_iff_left fun h => hfree (hreach.mpr h.1)).symm

/-- A file stays as it is exactly if the changes of the plan spare it. -/
theorem get?_replay_plan_iff {chunks : List (List Char)} {removes : List Change}
    (hremoves : IsRemoval n d chunks.length s removes)
    (hallows : s.Allows ((plan n d chunks removes).takeWhile (isFree s))) {l : Location}
    {content : List UInt8} (hl : s.get? l = some (.file content)) :
    (s.replay ((plan n d chunks removes).takeWhile (isFree s))).get? l = s.get? l ↔
      Spares n s d chunks l := by
  -- No other change of the plan has the place of this one, so each can be taken by itself.
  rw [get?_replay_eq_iff hallows ((pairwise_plan hremoves).sublist (List.takeWhile_sublist _))]
  constructor
  · intro h
    refine ⟨fun i chunk hchunk hreach hplace => ?_, fun hreach name hstale hplace => ?_,
      fun hreach hplace => ?_⟩
    · have hmem := (mem_takeWhile_plan hremoves).mpr (Or.inl ⟨i, chunk, hchunk, rfl, hreach⟩)
      exact (h _ hmem hplace.symm).symm
    · have hremove := (hremoves.mem_iff _).mpr ⟨name, hstale, ⟨content, by rw [← hplace, hl]⟩, rfl⟩
      have hmem := (mem_takeWhile_plan hremoves).mpr (Or.inr ⟨hreach, Or.inl hremove⟩)
      have hgone := h _ hmem hplace.symm
      rw [hl] at hgone
      cases hgone
    · have hfree : s.get? (d ++ [n.index]) ≠ some .directory := by
        rw [← hplace, hl]
        simp
      have hmem := (mem_takeWhile_plan hremoves).mpr (Or.inr ⟨hreach, Or.inr ⟨rfl, hfree⟩⟩)
      exact (h _ hmem hplace.symm).symm
  · intro h c hc hplace
    rcases (mem_takeWhile_plan hremoves).mp hc with ⟨i, chunk, hchunk, rfl, hreach⟩ | ⟨hreach, hc⟩
    · exact (h.shard i chunk hchunk hreach hplace.symm).symm
    · rcases hc with hc | ⟨rfl, -⟩
      · obtain ⟨name, hstale, -, rfl⟩ := (hremoves.mem_iff c).mp hc
        exact absurd hplace.symm (h.stale hreach name hstale)
      · exact (h.index hreach hplace.symm).symm

end Build

end WasmEmbed
