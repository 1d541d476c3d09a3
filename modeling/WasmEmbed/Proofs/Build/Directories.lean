import WasmEmbed.Proofs.Build.Run

/-!
# Making directories, and making the rest of them

The places on the way to a directory are gone through from the first to the last (`pave`): those where
nothing stands are made, and a file stops the way. This is what making sure of a directory comes to
(`ends_makeDirectories`), although it begins at the other end and goes up only as far as it has to.

Paving changes nothing but places of the way where nothing stood (`exists_of_mem_made`,
`get?_replay_pave_of_notMem`), and it is files that stop it (`blocked_eq_none_iff`).

A way that was paved in part is paved further from where it was left (`pave_replay`). So making sure of a
directory once more makes the rest of the directories. The failure is the same unless the rest is empty:
then the way is seen to be stopped from its last place already (`Paving.result_drop`).
-/

namespace WasmEmbed

namespace Path

/-- The path without its last `k` names. -/
def up (p : Path) (k : Nat) : Path := { p with names := p.names.take (p.names.length - k) }

/-- No step up. -/
theorem up_zero (p : Path) : p.up 0 = p := by
  rw [up, Nat.sub_zero, List.take_length]

/-- A step up from the parent is one step more from the path. -/
theorem up_parent {p : Path} (k : Nat) (h : p.names ≠ []) : p.parent.up k = p.up (k + 1) := by
  have hpos := List.length_pos_iff.mpr h
  have hlength : p.names.length - 1 - k = p.names.length - (k + 1) := by omega
  have htake : p.names.dropLast.take (p.names.length - (k + 1)) =
      p.names.take (p.names.length - (k + 1)) := by
    rw [List.dropLast_eq_take, List.take_take, Nat.min_eq_left (by omega)]
  rw [up, up, parent]
  simp only [List.length_dropLast, hlength, htake]

end Path

namespace Build

open Store

variable {cwd : Location} {s : Store} {path : Path} {l : Location}

/-! ## The way to a place

The way is the list of the places that a path goes through, each with the directories above it. Paving
goes along it and stops at the first file.
-/

/-- The places that names lead to from a place, one after the other, beginning with it. -/
def waypoints (start : Location) : List Name → List Location
  | [] => [start]
  | name :: rest => start :: waypoints (Path.descend start name) rest

/-- A path with one more name has one more place, at its end. -/
theorem waypoints_concat (start : Location) (names : List Name) (name : Name) :
    waypoints start (names ++ [name]) = waypoints start names ++ [walk start (names ++ [name])] := by
  induction names generalizing start with
  | nil => rfl
  | cons first rest ih =>
      rw [List.cons_append, waypoints, ih, waypoints]
      rfl

/-- The way to a path. -/
def way (cwd : Location) (path : Path) : List Location :=
  waypoints (if path.isAbsolute then [] else cwd) path.names

/-- The directories that are made on a way, and how many places are left behind the first that a file takes,
if there is one. -/
structure Paving where
  made : List Change
  blocked : Option Nat

/-- Makes all places of a way directories, up to the first that a file takes. -/
def pave (s : Store) : List Location → Paving
  | [] => ⟨[], none⟩
  | l :: rest =>
    match s.get? l with
    | some .directory => pave s rest
    | some (.file _) => ⟨[], some rest.length⟩
    | none =>
      let onward := pave ((Change.makeDirectory l).apply s) rest
      ⟨.makeDirectory l :: onward.made, onward.blocked⟩

/-- A directory on the way is passed. -/
theorem pave_directory {rest : List Location} (h : s.get? l = some .directory) :
    pave s (l :: rest) = pave s rest := by
  rw [pave, h]

/-- A file stops the way. -/
theorem pave_file {rest : List Location} {content : List UInt8} (h : s.get? l = some (.file content)) :
    pave s (l :: rest) = ⟨[], some rest.length⟩ := by
  rw [pave, h]

/-- Where nothing stands a directory is made, and the way goes on behind it. -/
theorem pave_none {rest : List Location} (h : s.get? l = none) :
    pave s (l :: rest) =
      ⟨.makeDirectory l :: (pave ((Change.makeDirectory l).apply s) rest).made,
        (pave ((Change.makeDirectory l).apply s) rest).blocked⟩ := by
  rw [pave, h]

/-- A directory that was made is there. -/
theorem get?_makeDirectory (h : s.get? l = none) :
    ((Change.makeDirectory l).apply s).get? l = some .directory := by
  have hallowed : (Change.makeDirectory l).IsAllowed s := h
  rw [get?_apply hallowed]
  exact if_pos rfl

/-- All changes of a paving are allowed. -/
theorem allows_pave (s : Store) (places : List Location) : s.Allows (pave s places).made := by
  induction places generalizing s with
  | nil => trivial
  | cons l rest ih =>
      cases h : s.get? l with
      | none =>
          rw [pave_none h]
          exact ⟨h, ih _⟩
      | some e => cases e with
        | directory =>
            rw [pave_directory h]
            exact ih s
        | file content =>
            rw [pave_file h]
            trivial

/-- A way that no file stops consists of directories afterwards. -/
theorem get?_replay_pave {places : List Location} (h : (pave s places).blocked = none) :
    ∀ l ∈ places, (s.replay (pave s places).made).get? l = some .directory := by
  induction places generalizing s with
  | nil => exact fun _ hl => nomatch hl
  | cons first rest ih =>
      intro l hl
      cases hfirst : s.get? first with
      | none =>
          rw [pave_none hfirst] at h ⊢
          rcases List.mem_cons.mp hl with rfl | hl
          · exact get?_replay_directory (allows_pave _ rest) (get?_makeDirectory hfirst)
          · exact ih h l hl
      | some e => cases e with
        | directory =>
            rw [pave_directory hfirst] at h ⊢
            rcases List.mem_cons.mp hl with rfl | hl
            · exact get?_replay_directory (allows_pave s rest) hfirst
            · exact ih h l hl
        | file content =>
            rw [pave_file hfirst] at h
            exact nomatch h

/-- A way of directories stays as it is. -/
theorem pave_of_directories {places : List Location}
    (h : ∀ l ∈ places, s.get? l = some .directory) : pave s places = ⟨[], none⟩ := by
  induction places with
  | nil => rfl
  | cons l rest ih =>
      rw [pave_directory (h l List.mem_cons_self)]
      exact ih fun l' hl' => h l' (List.mem_cons_of_mem l hl')

/-- One more place behind a file that stops the way. -/
theorem pave_concat_of_some {places : List Location} {left : Nat}
    (h : (pave s places).blocked = some left) (l : Location) :
    pave s (places ++ [l]) = ⟨(pave s places).made, some (left + 1)⟩ := by
  induction places generalizing s with
  | nil => exact nomatch h
  | cons first rest ih =>
      rw [List.cons_append]
      cases hfirst : s.get? first with
      | none =>
          rw [pave_none hfirst] at h
          rw [pave_none hfirst, pave_none hfirst, ih h]
      | some e => cases e with
        | directory =>
            rw [pave_directory hfirst] at h
            rw [pave_directory hfirst, pave_directory hfirst, ih h]
        | file content =>
            rw [pave_file hfirst] at h
            rw [pave_file hfirst, pave_file hfirst, List.length_append, Option.some.inj h]
            rfl

/-- One more place at the end of a way that no file stops. -/
theorem pave_concat_of_none {places : List Location} (h : (pave s places).blocked = none)
    (l : Location) :
    pave s (places ++ [l]) =
      ⟨(pave s places).made ++ (pave (s.replay (pave s places).made) [l]).made,
        (pave (s.replay (pave s places).made) [l]).blocked⟩ := by
  induction places generalizing s with
  | nil => rfl
  | cons first rest ih =>
      rw [List.cons_append]
      cases hfirst : s.get? first with
      | none =>
          rw [pave_none hfirst] at h
          rw [pave_none hfirst, pave_none hfirst, ih h]
          rfl
      | some e => cases e with
        | directory =>
            rw [pave_directory hfirst] at h
            rw [pave_directory hfirst, pave_directory hfirst, ih h]
        | file content =>
            rw [pave_file hfirst] at h
            exact nomatch h

/-- A path leads somewhere, or not, as the way to the directory above it is paved. -/
theorem follow_concat (s : Store) (start : Location) (names : List Name) (name : Name) :
    s.follow start (names ++ [name]) =
      match (pave s (waypoints start names)).made, (pave s (waypoints start names)).blocked with
      | [], none => .ok (walk start (names ++ [name]))
      | [], some _ => .error .notDirectory
      | _ :: _, _ => .error .missing := by
  -- Along the names, the first place that is missing or a file decides.
  induction names generalizing start with
  | nil =>
      rw [List.nil_append, follow]
      cases h : s.get? start with
      | none => rw [waypoints, pave_none h]
      | some e => cases e with
        | directory =>
            rw [waypoints, pave_directory h]
            rfl
        | file content => rw [waypoints, pave_file h]
  | cons first rest ih =>
      rw [List.cons_append, follow, waypoints]
      cases h : s.get? start with
      | none => rw [pave_none h]
      | some e => cases e with
        | directory =>
            rw [pave_directory h]
            exact ih (Path.descend start first)
        | file content => rw [pave_file h]

/-! ## One directory

A directory is made, or there is a fault. A fault because of a missing directory above is what makes the
function go up, and one because something stands at the place is forgiven if it is a directory.
-/

/-- A path that cannot be followed is a fault, and nothing is made. -/
theorem ends_makeDirectory?_fault {fault : PathFault} (h : s.locate cwd path = .error fault) :
    Ends (makeDirectory? path) cwd s (.ok (some fault)) [] := by
  rw [makeDirectory?]
  refine Ends.store.then (Ends.read.then ?_)
  rw [h]
  exact Ends.pure _

/-- Where something stands nothing is made. -/
theorem ends_makeDirectory?_occupied {e : Entry} (h : s.locate cwd path = .ok l)
    (hl : s.get? l = some e) : Ends (makeDirectory? path) cwd s (.ok (some .occupied)) [] := by
  rw [makeDirectory?]
  refine Ends.store.then (Ends.read.then ?_)
  simp only [h, hl]
  exact Ends.pure _

/-- Where nothing stands the directory is made. -/
theorem ends_makeDirectory?_made (h : s.locate cwd path = .ok l) (hl : s.get? l = none) :
    Ends (makeDirectory? path) cwd s (.ok none) [.makeDirectory l] := by
  have hallowed : (Change.makeDirectory l).IsAllowed s := hl
  rw [makeDirectory?]
  refine Ends.store.then (Ends.read.then ?_)
  simp only [h, hl]
  exact (Ends.change hallowed).bind (Ends.pure _)

/-- A directory that is there is accepted. -/
theorem ends_acceptDirectory (fault : PathFault) (h : s.isDirectory cwd path = true) :
    Ends (acceptDirectory path fault) cwd s (.ok ()) [] := by
  rw [acceptDirectory]
  refine Ends.store.then (Ends.read.then ?_)
  rw [h]
  exact Ends.pure ()

/-- If none is there, the fault remains. -/
theorem ends_acceptDirectory_fault (fault : PathFault) (h : s.isDirectory cwd path = false) :
    Ends (acceptDirectory path fault) cwd s (.error (.path ⟨fault, path⟩)) [] := by
  rw [acceptDirectory]
  refine Ends.store.then (Ends.read.then ?_)
  rw [h]
  exact Ends.fail _

theorem isDirectory_of_locate (h : s.locate cwd path = .ok l) :
    s.isDirectory cwd path = (s.get? l == some .directory) := by
  rw [isDirectory, find?, h]

theorem isDirectory_of_locate_error {fault : PathFault} (h : s.locate cwd path = .error fault) :
    s.isDirectory cwd path = false := by
  rw [isDirectory, find?, h]
  rfl

/-! ## All directories

Going up and coming back down makes the same directories as paving the way from its beginning. The
induction is on the number of names of the path, and the last place is treated apart (`ends_lastPlace`).
-/

/-- How making sure of a directory ends. The failure names the place that a file takes, if a directory had
to be made first, and otherwise the path that was asked for. -/
def Paving.result (p : Paving) (path : Path) : Except Failure Unit :=
  match p.blocked with
  | none => .ok ()
  | some left =>
    if p.made = [] ∧ left ≠ 0 then .error (.path ⟨.notDirectory, path⟩)
    else .error (.path ⟨.occupied, path.up left⟩)

/-- A way that was paved in part is stopped at the file, which is the fault. -/
theorem Paving.result_made {made : List Change} (h : made ≠ []) (left : Nat) (path : Path) :
    Paving.result ⟨made, some left⟩ path = .error (.path ⟨.occupied, path.up left⟩) :=
  if_neg fun hboth => h hboth.1

/-- A way on which nothing could be made is no way for the path as a whole. -/
theorem Paving.result_unmade {left : Nat} (h : left ≠ 0) (path : Path) :
    Paving.result ⟨[], some left⟩ path = .error (.path ⟨.notDirectory, path⟩) := if_pos ⟨rfl, h⟩

theorem Paving.result_up_zero {made : List Change} (path : Path) :
    Paving.result ⟨made, some 0⟩ path = .error (.path ⟨.occupied, path⟩) := by
  rw [result]
  simp only [ne_eq, not_true_eq_false, and_false, if_false, Path.up_zero]

/-- The last place of a way: it is made, or it is a directory, or a file takes it. -/
theorem ends_lastPlace (h : s.locate cwd path = .ok l) (onMissing : Build Unit) :
    Ends (makeDirectory? path >>= fun fault? =>
      match fault? with
      | none => pure ()
      | some .missing => onMissing
      | some fault => acceptDirectory path fault) cwd s
      ((pave s [l]).result path) (pave s [l]).made := by
  cases hl : s.get? l with
  | none =>
      rw [pave_none hl]
      exact (ends_makeDirectory?_made h hl).bind (Ends.pure ())
  | some e => cases e with
    | directory =>
        have haccept : s.isDirectory cwd path = true := by
          rw [isDirectory_of_locate h, hl]
          rfl
        rw [pave_directory hl]
        exact (ends_makeDirectory?_occupied h hl).then (ends_acceptDirectory _ haccept)
    | file content =>
        have hrefuse : s.isDirectory cwd path = false := by
          rw [isDirectory_of_locate h, hl]
          rfl
        rw [pave_file hl, List.length_nil, Paving.result_up_zero]
        exact (ends_makeDirectory?_occupied h hl).then (ends_acceptDirectory_fault _ hrefuse)

/-- Nothing is left behind the only place of a way, so the failure does not depend on what was made. -/
theorem result_lastPlace (made : List Change) (path : Path) :
    (pave s [l]).result path = Paving.result ⟨made, (pave s [l]).blocked⟩ path := by
  cases hl : s.get? l with
  | none =>
      rw [pave_none hl]
      rfl
  | some e => cases e with
    | directory =>
        rw [pave_directory hl]
        rfl
    | file content =>
        rw [pave_file hl, List.length_nil, Paving.result_up_zero, Paving.result_up_zero]

/-- A path with names ends with one behind those of its parent. -/
theorem exists_names_eq_concat (hne : path.names ≠ []) : ∃ name, path.names = path.parent.names ++ [name] :=
  ⟨_, (List.dropLast_concat_getLast hne).symm⟩

/-- The way to a path is the way to its parent with one more place. -/
theorem way_eq_concat (hne : path.names ≠ []) : way cwd path = way cwd path.parent ++ [target cwd path] := by
  obtain ⟨name, hnames⟩ := exists_names_eq_concat hne
  rw [way, hnames, waypoints_concat, ← hnames]
  rfl

/-- A path leads somewhere, or not, as the way to its parent is paved. -/
theorem locate_eq_of_way (cwd : Location) (hne : path.names ≠ []) (s : Store) :
    s.locate cwd path =
      match (pave s (way cwd path.parent)).made, (pave s (way cwd path.parent)).blocked with
      | [], none => .ok (target cwd path)
      | [], some _ => .error .notDirectory
      | _ :: _, _ => .error .missing := by
  obtain ⟨name, hnames⟩ := exists_names_eq_concat hne
  rw [Store.locate, target, hnames]
  exact follow_concat s _ path.parent.names name

/-- Making sure of a directory is paving the way to it. -/
theorem ends_ensureDirectory {k : Nat} (hk : path.names.length = k) (s : Store) :
    Ends (ensureDirectory k path) cwd s ((pave s (way cwd path)).result path)
      (pave s (way cwd path)).made := by
  induction k generalizing path s with
  | zero =>
      have hnames := List.eq_nil_of_length_eq_zero hk
      have hlocate : s.locate cwd path = .ok (if path.isAbsolute then [] else cwd) := by
        rw [Store.locate, hnames, follow]
      rw [ensureDirectory, way, hnames, waypoints]
      exact ends_lastPlace hlocate _
  | succ k ih =>
      have hne : path.names ≠ [] := List.ne_nil_of_length_eq_add_one hk
      have hparent : path.parent.names.length = k := by
        rw [Path.parent, List.length_dropLast, hk, Nat.add_sub_cancel]
      have hstart := locate_eq_of_way cwd hne s
      have hup := ih hparent s
      rw [ensureDirectory, way_eq_concat hne]
      obtain ⟨made, blocked, hpave⟩ : ∃ made blocked, pave s (way cwd path.parent) = ⟨made, blocked⟩ :=
        ⟨_, _, rfl⟩
      cases blocked with
      | some left =>
          rw [hpave] at hstart hup
          rw [pave_concat_of_some (congrArg Paving.blocked hpave), hpave]
          cases made with
          | nil =>
              rw [Paving.result_unmade (Nat.succ_ne_zero left)]
              exact (ends_makeDirectory?_fault hstart).then
                (ends_acceptDirectory_fault _ (isDirectory_of_locate_error hstart))
          | cons c rest =>
              rw [Paving.result_made (List.cons_ne_nil c rest), Path.up_parent left hne] at hup
              rw [Paving.result_made (List.cons_ne_nil c rest)]
              exact (ends_makeDirectory?_fault hstart).then hup.bind_error
      | none =>
          have hopen := congrArg Paving.blocked hpave
          have hready := locate_eq_of_way cwd hne (s.replay (pave s (way cwd path.parent)).made)
          rw [pave_of_directories (get?_replay_pave hopen), hpave] at hready
          rw [hpave] at hstart hup
          rw [pave_concat_of_none hopen, hpave, ← result_lastPlace]
          cases made with
          | nil => exact ends_lastPlace hstart _
          | cons c rest =>
              -- The way to the parent consists of directories once these are made.
              exact (ends_makeDirectory?_fault hstart).then (hup.bind (ends_lastPlace hready _))

/-- Making sure of a directory makes the directories on the way to it. -/
theorem ends_makeDirectories (cwd : Location) (s : Store) (path : Path) :
    Ends (makeDirectories path) cwd s ((pave s (way cwd path)).result path)
      (pave s (way cwd path)).made := ends_ensureDirectory rfl s

/-! ## What paving changes

A place of the way is made if nothing stood there and no file stands further up.
-/

/-- A way goes through the place of its path and those of the paths above. -/
theorem mem_way_iff : l ∈ way cwd path ↔ ∃ k, l = target cwd (path.up k) := by
  -- The places of a way are those that the fronts of its names lead to.
  have hpoints : ∀ (names : List Name) (start : Location),
      l ∈ waypoints start names ↔ ∃ j ≤ names.length, l = walk start (names.take j) := by
    intro names
    induction names with
    | nil =>
        intro start
        rw [waypoints, List.mem_singleton]
        exact ⟨fun h => ⟨0, Nat.le_refl 0, h⟩, fun ⟨_, _, h⟩ => by rw [h, List.take_nil]; rfl⟩
    | cons name rest ih =>
        intro start
        rw [waypoints, List.mem_cons, ih]
        constructor
        · rintro (rfl | ⟨j, hj, rfl⟩)
          · exact ⟨0, Nat.zero_le _, rfl⟩
          · exact ⟨j + 1, Nat.succ_le_succ hj, rfl⟩
        · rintro ⟨j, hj, rfl⟩
          cases j with
          | zero => exact Or.inl rfl
          | succ j => exact Or.inr ⟨j, Nat.le_of_succ_le_succ hj, rfl⟩
  rw [way, hpoints]
  constructor
  · rintro ⟨j, hj, rfl⟩
    refine ⟨path.names.length - j, ?_⟩
    rw [target, Path.up, Nat.sub_sub_self hj]
    rfl
  · rintro ⟨k, rfl⟩
    exact ⟨path.names.length - k, Nat.sub_le _ _, rfl⟩

/-- Only places of the way where nothing stood are made. -/
theorem exists_of_mem_made {places : List Location} {c : Change} (hc : c ∈ (pave s places).made) :
    ∃ l ∈ places, c = .makeDirectory l ∧ s.get? l = none := by
  induction places generalizing s with
  | nil => cases hc
  | cons first rest ih =>
      cases hfirst : s.get? first with
      | none =>
          rw [pave_none hfirst] at hc
          rcases List.mem_cons.mp hc with rfl | hc
          · exact ⟨first, List.mem_cons_self, rfl, hfirst⟩
          -- A place that is free once the first one is made was free before.
          · obtain ⟨l, hl, rfl, hnone⟩ := ih hc
            have hallowed : (Change.makeDirectory first).IsAllowed s := hfirst
            rw [get?_apply hallowed] at hnone
            split at hnone
            · cases hnone
            · exact ⟨l, List.mem_cons_of_mem _ hl, rfl, hnone⟩
      | some e => cases e with
        | directory =>
            rw [pave_directory hfirst] at hc
            obtain ⟨l, hl, h⟩ := ih hc
            exact ⟨l, List.mem_cons_of_mem _ hl, h⟩
        | file content =>
            rw [pave_file hfirst] at hc
            cases hc

/-- What is not on the way stays as it is. -/
theorem get?_replay_pave_of_notMem {places : List Location} (hl : l ∉ places) :
    (s.replay (pave s places).made).get? l = s.get? l := by
  refine get?_replay_of_forall_ne (allows_pave s places) fun c hc => ?_
  obtain ⟨l', hl', rfl, -⟩ := exists_of_mem_made hc
  rintro rfl
  exact hl hl'

/-- Files alone stop a way. -/
theorem blocked_eq_none_iff {places : List Location} :
    (pave s places).blocked = none ↔ ∀ l ∈ places, ∀ content, s.get? l ≠ some (.file content) := by
  induction places generalizing s with
  | nil => exact iff_of_true rfl (by simp)
  | cons first rest ih =>
      rw [List.forall_mem_cons]
      cases hfirst : s.get? first with
      | none =>
          have hallowed : (Change.makeDirectory first).IsAllowed s := hfirst
          -- What is made at the first place is a directory, which stops no way.
          rw [pave_none hfirst, ih]
          refine Iff.trans (forall₂_congr fun l _ => ?_) (and_iff_right (by simp)).symm
          rw [get?_apply hallowed]
          split
          · next hplace =>
              rw [hplace, show s.get? (Change.makeDirectory first).place = none from hfirst]
              exact iff_of_true (fun _ h => nomatch h) (fun _ h => nomatch h)
          · rfl
      | some e => cases e with
        | directory =>
            rw [pave_directory hfirst, ih]
            simp
        | file content =>
            rw [pave_file hfirst]
            refine iff_of_false (fun h => nomatch h) fun h => h.1 content rfl

/-- A place on a way that no file stops is free, or there is a directory already. -/
theorem get?_of_mem_of_blocked {places : List Location} (h : (pave s places).blocked = none)
    (hl : l ∈ places) :
    s.get? l = none ∨ s.get? l = some .directory := by
  have hfile := blocked_eq_none_iff.mp h l hl
  cases hentry : s.get? l with
  | none => exact Or.inl rfl
  | some e => cases e with
    | directory => exact Or.inr rfl
    | file content => exact absurd hentry (hfile content)

/-! ## Going on -/

/-- A way that was paved in part is paved further. -/
theorem pave_replay (s : Store) (places : List Location) (k : Nat) :
    pave (s.replay ((pave s places).made.take k)) places =
      ⟨(pave s places).made.drop k, (pave s places).blocked⟩ := by
  induction places generalizing s k with
  | nil => exact congrArg (Paving.mk · none) List.drop_nil.symm
  | cons l rest ih =>
      cases h : s.get? l with
      | none =>
          rw [pave_none h]
          cases k with
          | zero => exact pave_none h
          | succ k =>
              have hthere := get?_replay_directory (allows_take (allows_pave _ rest) k)
                (get?_makeDirectory h)
              rw [List.take_succ_cons, replay_cons, pave_directory hthere, ih, List.drop_succ_cons]
      | some e => cases e with
        | directory =>
            have hthere := get?_replay_directory (allows_take (allows_pave s rest) k) h
            rw [pave_directory h, pave_directory hthere, ih]
        | file content =>
            rw [pave_file h, List.take_nil, List.drop_nil, replay_nil, pave_file h]

/-- The failure is the same as long as directories are left to be made. -/
theorem Paving.result_drop (p : Paving) (path : Path) {k : Nat} (h : p.made.drop k ≠ [] ∨ k = 0) :
    Paving.result ⟨p.made.drop k, p.blocked⟩ path = p.result path := by
  rcases h with hmore | rfl
  · have hmade : p.made ≠ [] := by
      intro hnil
      rw [hnil, List.drop_nil] at hmore
      exact hmore rfl
    rw [result, result]
    simp only [hmore, hmade, false_and, if_false]
  · rw [List.drop_zero]

end Build

end WasmEmbed
