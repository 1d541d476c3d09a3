import WasmEmbed.Store.Basic

/-!
# What changes do to a store

A change concerns one place (`get?_apply`). The changes that a build makes are allowed: it makes no
directory where something stands, it writes no file over a directory, and it removes nothing but files
(`Change.IsAllowed`). So a directory that was there once stays there (`get?_replay_directory`), and a path
that led somewhere still leads there (`locate_replay`).
-/

namespace WasmEmbed

/-! ## One change

A change is looked up at its own place and leaves every other place as it is. The root is a directory by
itself and is the place of no change.
-/

/-- The place that a change concerns. -/
def Change.place : Change → Location
  | makeDirectory place => place
  | write place _ => place
  | remove place => place

/-- What stands at the place of a change afterwards. -/
def Change.entry : Change → Option Entry
  | makeDirectory _ => some .directory
  | write _ content => some (.file content)
  | remove _ => none

/-- What has to stand at the place of a change before. -/
def Change.IsAllowed (s : Store) : Change → Prop
  | makeDirectory place => s.get? place = none
  | write place _ => s.get? place ≠ some .directory
  | remove place => ∃ content, s.get? place = some (.file content)

namespace Store

/-- The root is a directory. -/
theorem get?_nil (s : Store) : s.get? [] = some .directory := if_pos rfl

theorem lookup_filter_ne (entries : List (Location × Entry)) (l l' : Location) :
    (entries.filter fun e => e.1 != l).lookup l' = if l' = l then none else entries.lookup l' := by
  induction entries with
  | nil => simp
  | cons e rest ih =>
      obtain ⟨place, entry⟩ := e
      by_cases hplace : place = l
      · subst hplace
        rw [List.filter_cons_of_neg (by simp), ih, List.lookup_cons]
        by_cases h : l' = place
        · simp [h]
        · simp [beq_eq_false_iff_ne.mpr h, h]
      · rw [List.filter_cons_of_pos (by simpa using hplace), List.lookup_cons, ih, List.lookup_cons]
        by_cases h : l' = place
        · subst h
          rw [beq_self_eq_true]
          exact (if_neg hplace).symm
        · rw [beq_eq_false_iff_ne.mpr h]

/-- What was erased is gone, and nothing else is. -/
theorem get?_erase {l : Location} (s : Store) (hl : l ≠ []) (l' : Location) :
    (s.erase l).get? l' = if l' = l then none else s.get? l' := by
  by_cases h : l' = []
  · subst h
    simp [get?_nil, Ne.symm hl]
  · simp only [get?, erase, h, if_false]
    exact lookup_filter_ne s.entries l l'

/-- What was inserted is there, and nothing else has changed. -/
theorem get?_insert {l : Location} (s : Store) (hl : l ≠ []) (e : Entry) (l' : Location) :
    (s.insert l e).get? l' = if l' = l then some e else s.get? l' := by
  by_cases h : l' = []
  · subst h
    simp [get?_nil, Ne.symm hl]
  · simp only [get?, insert, erase, h, if_false, List.lookup_cons]
    rw [lookup_filter_ne]
    by_cases h' : l' = l
    · rw [beq_iff_eq.mpr h']
      exact (if_pos h').symm
    · rw [beq_eq_false_iff_ne.mpr h', if_neg h', if_neg h']

/-- The root stays as it is, so no allowed change concerns it. -/
theorem place_ne_nil {s : Store} {c : Change} (h : c.IsAllowed s) : c.place ≠ [] := by
  intro hplace
  cases c with
  | makeDirectory l =>
      obtain rfl : l = [] := hplace
      exact absurd (s.get?_nil.symm.trans h) (by simp)
  | write l content =>
      obtain rfl : l = [] := hplace
      exact h s.get?_nil
  | remove l =>
      obtain rfl : l = [] := hplace
      obtain ⟨content, h⟩ := h
      exact absurd (s.get?_nil.symm.trans h) (by simp)

/-- A change concerns its own place alone. -/
theorem get?_apply {s : Store} {c : Change} (h : c.IsAllowed s) (l : Location) :
    (c.apply s).get? l = if l = c.place then c.entry else s.get? l := by
  have hplace := place_ne_nil h
  cases c with
  | makeDirectory place => exact s.get?_insert hplace _ l
  | write place content => exact s.get?_insert hplace _ l
  | remove place => exact s.get?_erase hplace l

/-! ## Several changes

What stands at a place behind several changes is told by the last of them that concerns it. In a list in
which each place occurs once, that is the only one.
-/

/-- Each change is allowed in the store that those in front of it leave. -/
def Allows : Store → List Change → Prop
  | _, [] => True
  | s, c :: changes => c.IsAllowed s ∧ (c.apply s).Allows changes

theorem replay_nil (s : Store) : s.replay [] = s := rfl

theorem replay_cons (s : Store) (c : Change) (changes : List Change) :
    s.replay (c :: changes) = (c.apply s).replay changes := rfl

theorem replay_append (s : Store) (front back : List Change) :
    s.replay (front ++ back) = (s.replay front).replay back := List.foldl_append

/-- Changes are allowed one after the other, the later ones behind the earlier ones. -/
theorem allows_append {s : Store} {front back : List Change} :
    s.Allows (front ++ back) ↔ s.Allows front ∧ (s.replay front).Allows back := by
  induction front generalizing s with
  | nil => simp [Allows, replay_nil]
  | cons c front ih => simp only [List.cons_append, Allows, replay_cons, ih, and_assoc]

theorem allows_take {s : Store} {changes : List Change} (h : s.Allows changes) (k : Nat) :
    s.Allows (changes.take k) := by
  rw [← List.take_append_drop k changes] at h
  exact (allows_append.mp h).1

/-- What no change concerns stays as it is. -/
theorem get?_replay_of_forall_ne {s : Store} {changes : List Change} (h : s.Allows changes)
    {l : Location} (hne : ∀ c ∈ changes, c.place ≠ l) : (s.replay changes).get? l = s.get? l := by
  induction changes generalizing s with
  | nil => rfl
  | cons c changes ih =>
      obtain ⟨hc, hrest⟩ := h
      rw [replay_cons, ih hrest fun c' hc' => hne c' (by simp [hc']), get?_apply hc,
        if_neg (Ne.symm (hne c (by simp)))]

/-- If only one change concerns a place, what it leaves stays there. -/
theorem get?_replay_of_mem {s : Store} {changes : List Change} (h : s.Allows changes)
    (hapart : changes.Pairwise fun c d => c.place ≠ d.place) {c : Change} (hc : c ∈ changes) :
    (s.replay changes).get? c.place = c.entry := by
  induction changes generalizing s with
  | nil => cases hc
  | cons d changes ih =>
      obtain ⟨hd, hrest⟩ := h
      obtain ⟨hhead, htail⟩ := List.pairwise_cons.mp hapart
      rw [replay_cons]
      rcases List.mem_cons.mp hc with rfl | hc
      · rw [get?_replay_of_forall_ne hrest fun c' hc' => (hhead c' hc').symm, get?_apply hd, if_pos rfl]
      · exact ih hrest htail hc

/-- If at most one change concerns each place, what stands at a place stays as it is exactly if the change
that concerns it puts there what is there. -/
theorem get?_replay_eq_iff {s : Store} {changes : List Change} (h : s.Allows changes)
    (hapart : changes.Pairwise fun c d => c.place ≠ d.place) (l : Location) :
    (s.replay changes).get? l = s.get? l ↔ ∀ c ∈ changes, c.place = l → c.entry = s.get? l := by
  constructor
  · rintro hsame c hc rfl
    rw [← hsame, get?_replay_of_mem h hapart hc]
  · intro hsame
    by_cases hplace : ∃ c ∈ changes, c.place = l
    · obtain ⟨c, hc, rfl⟩ := hplace
      rw [get?_replay_of_mem h hapart hc, hsame c hc rfl]
    · exact get?_replay_of_forall_ne h fun c hc hl => hplace ⟨c, hc, hl⟩

/-- After a file was written last, it has its content, and all else is as the changes before left it. -/
theorem get?_replay_write {s : Store} {changes : List Change} {place : Location} {content : List UInt8}
    (h : s.Allows (changes ++ [.write place content])) (l : Location) :
    (s.replay (changes ++ [.write place content])).get? l =
      if l = place then some (.file content) else (s.replay changes).get? l := by
  obtain ⟨-, hlast, -⟩ := allows_append.mp h
  rw [replay_append, replay_cons, replay_nil, get?_apply hlast]
  rfl


/-- A directory stays a directory. -/
theorem get?_apply_directory {s : Store} {c : Change} (h : c.IsAllowed s) {l : Location}
    (hl : s.get? l = some .directory) : (c.apply s).get? l = some .directory := by
  rw [get?_apply h]
  split
  · next hplace =>
      subst hplace
      cases c with
      | makeDirectory place => rfl
      | write place content => exact absurd hl h
      | remove place =>
          obtain ⟨content, h⟩ := h
          exact absurd (hl.symm.trans h) (by simp)
  · exact hl

/-- Directories stay where they are. -/
theorem get?_replay_directory {s : Store} {changes : List Change} (h : s.Allows changes) {l : Location}
    (hl : s.get? l = some .directory) : (s.replay changes).get? l = some .directory := by
  induction changes generalizing s with
  | nil => exact hl
  | cons c changes ih => exact ih h.2 (get?_apply_directory h.1 hl)

/-! ## Following paths

A path is followed from directory to directory. Where it leads is a matter of the names alone, and only
whether it can be followed depends on the store.
-/

/-- The place that names lead to from a place. -/
def walk (start : Location) (names : List Name) : Location := names.foldl Path.descend start

/-- The place that a path names, seen from the directory `cwd`. -/
def target (cwd : Location) (p : Path) : Location := walk (if p.isAbsolute then [] else cwd) p.names

/-- Where a path leads does not depend on the store. -/
theorem follow_eq_ok {s : Store} {l l' : Location} {names : List Name}
    (h : s.follow l names = .ok l') : l' = walk l names := by
  induction names generalizing l with
  | nil => exact (Except.ok.inj h).symm
  | cons name rest ih =>
      rw [follow] at h
      split at h
      · cases h
      · cases h
      · exact ih h

theorem locate_eq_ok {s : Store} {cwd : Location} {p : Path} {l : Location}
    (h : s.locate cwd p = .ok l) : l = target cwd p := follow_eq_ok h

/-- Names lead to the same place where all directories are still there. -/
theorem follow_mono {s s' : Store} (hdir : ∀ l, s.get? l = some .directory → s'.get? l = some .directory)
    {l l' : Location} {names : List Name} (h : s.follow l names = .ok l') :
    s'.follow l names = .ok l' := by
  induction names generalizing l with
  | nil => exact h
  | cons name rest ih =>
      rw [follow] at h ⊢
      split at h
      · cases h
      · cases h
      · next hl =>
          rw [hdir l hl]
          exact ih h

/-- A path that leads somewhere leads there after changes, too. -/
theorem locate_replay {s : Store} {changes : List Change} (h : s.Allows changes) {cwd : Location}
    {p : Path} {l : Location} (hl : s.locate cwd p = .ok l) : (s.replay changes).locate cwd p = .ok l :=
  follow_mono (fun _ hdir => get?_replay_directory h hdir) hl

/-- One more name leads on from a directory. -/
theorem follow_append_singleton {s : Store} {l d : Location} {names : List Name} {name : Name}
    (h : s.follow l names = .ok d) (hd : s.get? d = some .directory) :
    s.follow l (names ++ [name]) = .ok (Path.descend d name) := by
  induction names generalizing l with
  | nil =>
      obtain rfl := Except.ok.inj h
      rw [List.nil_append, follow, hd]
      rfl
  | cons first rest ih =>
      rw [follow] at h
      rw [List.cons_append, follow]
      split at h
      · cases h
      · cases h
      · exact ih h

/-! ## Listing a directory -/

/-- What is found in a directory is listed there. -/
theorem mem_names_of_get? {s : Store} {l : Location} {name : Name} {e : Entry}
    (h : s.get? (l ++ [name]) = some e) : name ∈ s.names l := by
  have hmem : (l ++ [name], e) ∈ s.entries := by
    rw [get?, if_neg (by simp)] at h
    obtain ⟨front, back, hentries, -⟩ := List.lookup_eq_some_iff.mp h
    rw [hentries]
    simp
  rw [names]
  simp only [List.mem_mergeSort, List.mem_filterMap]
  exact ⟨_, hmem, by simp⟩

end Store

end WasmEmbed
