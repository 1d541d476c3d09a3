import WasmEmbed.Proofs.Path.Relative

/-!
# The steps of a specifier

A specifier climbs from the directory of a script to the deepest place above both scripts, and from there it
only goes down (`specifier_leads`). It always begins with one point or two and a slash, so it
is never taken for the name of a package.

One case has no such form: if the target is the directory above, the only step is `..`, and the text is
`./..`. The condition of the main statement leaves out targets above the directory.
-/

namespace WasmEmbed.Path

/-! ## The deepest place above two places -/

/-- A place above two places or at them, and below every other such place. -/
structure IsDeepestAncestor (ancestor start goal : List Name) : Prop where
  above_start : ancestor <+: start
  above_goal : ancestor <+: goal
  deepest : ∀ other, other <+: start → other <+: goal → other <+: ancestor

theorem commonLength_le (start goal : List Name) : commonLength start goal ≤ start.length := by
  fun_induction commonLength start goal with
  | case1 a as b ih => simpa using ih
  | case2 => exact Nat.zero_le _
  | case3 => exact Nat.zero_le _

/-- A place above two others is no deeper than what their names have in common. -/
theorem length_le_commonLength {other start goal : List Name} (hstart : other <+: start)
    (hgoal : other <+: goal) : other.length ≤ commonLength start goal := by
  induction other generalizing start goal with
  | nil => exact Nat.zero_le _
  | cons name other ih =>
      obtain ⟨as, rfl⟩ := hstart
      obtain ⟨bs, rfl⟩ := hgoal
      have hrest := ih (List.prefix_append other as) (List.prefix_append other bs)
      rw [List.cons_append, List.cons_append, commonLength, if_pos rfl, List.length_cons]
      exact Nat.succ_le_succ hrest

/-- The names in common lead to the deepest place above both. -/
theorem isDeepestAncestor_take (start goal : List Name) :
    IsDeepestAncestor (start.take (commonLength start goal)) start goal where
  above_start := List.take_prefix _ start
  above_goal := by
    rw [take_commonLength]
    exact List.take_prefix _ goal
  deepest := by
    intro other hstart hgoal
    rw [List.prefix_take_iff]
    exact ⟨hstart, length_le_commonLength hstart hgoal⟩

/-! ## The text of steps -/

/-- The text of steps, with a point and a slash in front unless it begins like one that climbs. -/
def stepsText (steps : List Name) : List Char :=
  let text := (Path.mk .here steps).text
  if ['.', '.', '/'].isPrefixOf text || ['.', '/'].isPrefixOf text then text else '.' :: '/' :: text

theorem specifier_eq (cwd source target : Path) :
    specifier cwd source target = stepsText (between (place cwd source.parent) (place cwd target)) :=
  rfl

/-- The text begins with one point or two and a slash. -/
theorem isPrefix_stepsText (steps : List Name) :
    ['.', '/'] <+: stepsText steps ∨ ['.', '.', '/'] <+: stepsText steps := by
  rw [stepsText]
  split
  · next h =>
      rw [Bool.or_eq_true, List.isPrefixOf_iff_prefix, List.isPrefixOf_iff_prefix] at h
      exact h.symm
  · exact Or.inl ⟨_, rfl⟩

theorem splitSlashes_text {steps : List Name} (hne : steps ≠ []) (h : ∀ name ∈ steps, '/' ∉ name) :
    splitSlashes (Path.mk .here steps).text = steps := by
  have htext : (Path.mk .here steps).text = joinSlashes steps := by
    rw [text, if_neg (by simp [hne])]
    rfl
  rw [htext, splitSlashes_join hne h]

/-- Where a step up comes first and is not the only step, the parts of the text are the steps. -/
theorem splitSlashes_stepsText_up {next : Name} {rest : List Name}
    (h : ∀ name ∈ parentName :: next :: rest, '/' ∉ name) :
    splitSlashes (stepsText (parentName :: next :: rest)) = parentName :: next :: rest := by
  have hclimbs : ['.', '.', '/'] <+: (Path.mk .here (parentName :: next :: rest)).text :=
    ⟨joinSlashes (next :: rest), rfl⟩
  rw [← List.isPrefixOf_iff_prefix] at hclimbs
  rw [stepsText]
  simp only [hclimbs, Bool.true_or, if_true]
  exact splitSlashes_text (List.cons_ne_nil _ _) h

/-- Where no step leads up, no part of the text does. -/
theorem parentName_notMem_splitSlashes_stepsText {steps : List Name} (h : ∀ name ∈ steps, '/' ∉ name)
    (hup : parentName ∉ steps) : parentName ∉ splitSlashes (stepsText steps) := by
  have hparts : parentName ∉ splitSlashes (Path.mk .here steps).text := by
    cases steps with
    | nil => decide
    | cons first rest =>
        rw [splitSlashes_text (List.cons_ne_nil _ _) h]
        exact hup
  have hpointed : splitSlashes ('.' :: '/' :: (Path.mk .here steps).text) =
      currentName :: splitSlashes (Path.mk .here steps).text := by
    have hpoint : '/' ∉ currentName := by decide
    exact splitSlashes_append hpoint _
  rw [stepsText]
  split
  · exact hparts
  · rw [hpointed, List.mem_cons, not_or]
    exact ⟨by decide, hparts⟩

/-! ## The parts of a specifier -/

/-- The parts of the text lead up as often as `start` lies below the deepest place above both places,
and no part behind them leads up. -/
def ClimbsOnce (start goal : List Name) (text : List Char) : Prop :=
  ∃ ancestor down, IsDeepestAncestor ancestor start goal ∧
    splitSlashes text = List.replicate (start.length - ancestor.length) parentName ++ down ∧
    parentName ∉ down

/-- There is something to go down to from the deepest place above both, unless the goal is that place. -/
theorem drop_commonLength_ne_nil {start goal : List Name} (h : ¬ (goal <+: start ∧ goal ≠ start))
    (hclimb : commonLength start goal < start.length) : goal.drop (commonLength start goal) ≠ [] := by
  intro hnil
  have hlength := List.drop_eq_nil_iff.mp hnil
  have hgoal : goal <+: start := by
    rw [← List.take_of_length_le hlength, ← take_commonLength]
    exact List.take_prefix _ start
  refine h ⟨hgoal, ?_⟩
  rintro rfl
  omega

/-- The text of the steps between two places climbs once, unless the goal lies above the start. -/
theorem climbsOnce_stepsText {start goal : List Name} (hslash : ∀ name ∈ goal, '/' ∉ name)
    (hup : parentName ∉ goal) (h : ¬ (goal <+: start ∧ goal ≠ start)) :
    ClimbsOnce start goal (stepsText (between start goal)) := by
  have hdown : parentName ∉ goal.drop (commonLength start goal) := fun hmem =>
    hup (List.mem_of_mem_drop hmem)
  have hsteps : ∀ name ∈ between start goal, '/' ∉ name := by
    intro name hname
    rcases List.mem_append.mp hname with hname | hname
    · rw [List.eq_of_mem_replicate hname]
      decide
    · exact hslash name (List.mem_of_mem_drop hname)
  have hle := commonLength_le start goal
  refine ⟨start.take (commonLength start goal), ?_⟩
  rw [List.length_take, Nat.min_eq_left hle]
  rcases Nat.eq_or_lt_of_le hle with hflat | hlt
  · -- Nothing leads up. There may be a point in front, which is no step.
    have hbetween : between start goal = goal.drop (commonLength start goal) := by
      rw [between, hflat, Nat.sub_self]
      rfl
    refine ⟨_, isDeepestAncestor_take start goal, by rw [hflat, Nat.sub_self]; rfl, ?_⟩
    refine parentName_notMem_splitSlashes_stepsText hsteps ?_
    rw [hbetween]
    exact hdown
  · -- A first step leads up, and there is a further one.
    obtain ⟨climb, hclimb⟩ : ∃ climb, start.length - commonLength start goal = climb + 1 :=
      Nat.exists_eq_add_one.mpr (by omega)
    have hne := drop_commonLength_ne_nil h hlt
    obtain ⟨next, rest, hrest⟩ : ∃ next rest,
        List.replicate climb parentName ++ goal.drop (commonLength start goal) = next :: rest :=
      List.exists_cons_of_ne_nil fun hnil => hne (List.append_eq_nil_iff.mp hnil).2
    have hbetween : between start goal = parentName :: next :: rest := by
      rw [between, hclimb, List.replicate_succ, List.cons_append, hrest]
    refine ⟨goal.drop (commonLength start goal), isDeepestAncestor_take start goal, ?_, hdown⟩
    rw [hbetween] at hsteps ⊢
    rw [splitSlashes_stepsText_up hsteps, hclimb, List.replicate_succ, List.cons_append, hrest]

/-- The specifier of any two paths, as they are followed from any directory, begins with `./` or `../`
and leads from the directory of the one to the other. Unless the target lies above that directory, the
steps that lead up come first, and they lead to the deepest place above both. -/
theorem specifier_leads (cwd source target : List Char) :
    let start := place (ofText cwd) (ofText source).parent
    let goal := place (ofText cwd) (ofText target)
    let text := specifier (ofText cwd) (ofText source) (ofText target)
    (['.', '/'] <+: text ∨ ['.', '.', '/'] <+: text) ∧
      place (ofText cwd) ((ofText source).parent.join (ofText text)) = goal ∧
      (¬ (goal <+: start ∧ goal ≠ start) → ClimbsOnce start goal text) := by
  have hcwd := isProper_ofText cwd
  have htarget := isProper_ofText target
  have hgoal : ∀ name ∈ place (ofText cwd) (ofText target), IsReadable name ∧ name ≠ parentName :=
    fun _ hname => isReadable_of_mem_place hcwd htarget hname
  refine ⟨isPrefix_stepsText _, place_specifier hcwd htarget, fun habove => ?_⟩
  rw [specifier_eq]
  apply climbsOnce_stepsText _ _ habove
  · exact fun name hname => (hgoal name hname).1.2
  · exact fun hmem => (hgoal parentName hmem).2 rfl

/-- The steps from `/work/b/pkg` to `/work/b/..foo/index.js`: a name that begins with two points is no
step up. -/
theorem specifier_leads_dotted :
    specifier (ofText "/work".toList) (ofText "b//pkg/./x.js".toList)
        (ofText "../work/b/..foo/index.js".toList) = "../..foo/index.js".toList ∧
      ClimbsOnce ["work".toList, "b".toList, "pkg".toList]
        ["work".toList, "b".toList, "..foo".toList, "index.js".toList] "../..foo/index.js".toList := by
  have htext : specifier (ofText "/work".toList) (ofText "b//pkg/./x.js".toList)
      (ofText "../work/b/..foo/index.js".toList) = "../..foo/index.js".toList := by decide
  have hstart : place (ofText "/work".toList) (ofText "b//pkg/./x.js".toList).parent =
      ["work".toList, "b".toList, "pkg".toList] := by decide
  have hgoal : place (ofText "/work".toList) (ofText "../work/b/..foo/index.js".toList) =
      ["work".toList, "b".toList, "..foo".toList, "index.js".toList] := by decide
  obtain ⟨-, -, hclimbs⟩ := specifier_leads "/work".toList "b//pkg/./x.js".toList
    "../work/b/..foo/index.js".toList
  rw [htext, hstart, hgoal] at hclimbs
  exact ⟨htext, hclimbs (by decide)⟩

end WasmEmbed.Path
