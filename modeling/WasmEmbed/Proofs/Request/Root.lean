import WasmEmbed.Config
import WasmEmbed.Proofs.Path.Place

/-!
# The root of a request

Whether a request is refused does not depend on its root, and neither does any field of the config but
its three paths (`resolve_rootedAt`). A relative root should mean the directory that it names: the paths
of the config, seen from the working directory, should be those for the root seen from there. That holds
of the output directory and of every path that is given. The directory of the package is joined to the
root before the two default paths in it are joined to the root again, so these two are right exactly
where joining the root a second time changes nothing (`resolve_relative_root_iff`).
-/

namespace WasmEmbed

namespace Config

/-- The config with each of its paths replaced. -/
def mapPaths (f : Path → Path) (c : Config) : Config :=
  { c with payload := f c.payload, binding := f c.binding, outputDir := f c.outputDir }

/-- The config with its relative paths seen from a directory. -/
def anchored (cwd : Path) (c : Config) : Config := c.mapPaths cwd.join

/-- The config with the places that its paths lead to from a directory. -/
def placed (cwd : Path) (c : Config) : Config := c.mapPaths fun p => (cwd.join p).normal

end Config

namespace Request

/-- The request with a root. -/
def rootedAt (root : Path) (r : Request) : Request := { r with root := some root }

/-! ## What a request asks for -/

/-- The directory of the package as it was asked for. -/
def package (r : Request) : Path := r.packageDir.getD (.ofText "pkg".toList)

/-- The name of the module in the directory of the package. -/
def moduleName (r : Request) : Name := r.stem ++ "_bg.wasm".toList

/-- The name of the binding in the directory of the package. -/
def bindingName (r : Request) : Name := r.stem ++ ".js".toList

/-- The config that is asked for below a root, before it is checked. -/
def layout (root : Path) (r : Request) : Config where
  payload := root.join (r.payload.getD ((root.join r.package).child r.moduleName))
  binding := root.join (r.binding.getD ((root.join r.package).child r.bindingName))
  outputDir := root.join (r.outputDir.getD (.ofText "wasm".toList))
  maxShardChars := r.maxShardChars
  compress := r.compress
  importName := r.importName
  shardPrefix := Config.defaultShardPrefix
  extension := Config.defaultExtension

/-- What is wrong with a request, if anything is. -/
def verdict (r : Request) : Except ConfigError Unit :=
  if !isCrateName r.crate then .error (.crateName r.crate) else (r.layout default).check

/-- The root has no say in what is wrong with a request. -/
theorem resolve_rootedAt (cwd root : Path) (r : Request) :
    (r.rootedAt root).resolve cwd = r.verdict.map fun _ => r.layout root := by
  have hcheck : (r.layout root).check = (r.layout default).check := rfl
  show (if !isCrateName r.crate then Except.error (ConfigError.crateName r.crate)
    else (r.layout root).check >>= fun _ => pure (r.layout root)) = _
  unfold verdict
  rw [hcheck]
  split
  · rfl
  · cases (r.layout default).check <;> rfl

theorem isCrateName_of_verdict {r : Request} (h : r.verdict = .ok ()) :
    isCrateName r.crate = true := by
  cases hname : isCrateName r.crate with
  | true => rfl
  | false => simp [verdict, hname] at h

/-! ## Default names -/

/-- The stem of a crate has no slash. -/
theorem slash_notMem_stem {r : Request} (h : isCrateName r.crate = true) : '/' ∉ r.stem := by
  intro hmem
  obtain ⟨c, hc, hslash⟩ := List.mem_map.mp hmem
  simp only [isCrateName, Bool.and_eq_true, List.all_eq_true] at h
  have hclass := h.2 c hc
  split at hslash
  · exact absurd hslash (by decide)
  · subst hslash
    exact absurd hclass (by decide)

/-- A stem with an ending of more than two characters that has no slash is a plain name. -/
theorem isPlain_stem_append {r : Request} (h : isCrateName r.crate = true) {ending : List Char}
    (hlong : 2 < ending.length) (hslash : '/' ∉ ending) : Path.IsPlain (r.stem ++ ending) := by
  have hlength : 2 < (r.stem ++ ending).length := by
    rw [List.length_append]
    omega
  refine ⟨?_, ?_, ?_, ?_⟩
  · intro e
    simp [e] at hlength
  · intro e
    simp [e, Path.currentName] at hlength
  · intro e
    simp [e, Path.parentName] at hlength
  · rw [List.mem_append, not_or]
    exact ⟨slash_notMem_stem h, hslash⟩

theorem isPlain_moduleName {r : Request} (h : isCrateName r.crate = true) :
    Path.IsPlain r.moduleName :=
  isPlain_stem_append h (by decide) (by decide)

theorem isPlain_bindingName {r : Request} (h : isCrateName r.crate = true) :
    Path.IsPlain r.bindingName :=
  isPlain_stem_append h (by decide) (by decide)

/-! ## Joining the root -/

/-- Whether joining a root once more to the directory of the package changes nothing: the root or the
directory is absolute, or the root adds no name. -/
def JoinsOnce (root : Path) (r : Request) : Prop :=
  root.isAbsolute = true ∨ r.package.isAbsolute = true ∨ root.names = []

/-- Whether nothing is sought in the directory of the package. -/
def IsExplicit (r : Request) : Prop := r.payload.isSome = true ∧ r.binding.isSome = true

theorem join_join_package_iff {cwd root : Path} (r : Request) :
    cwd.join (root.join (root.join r.package)) = cwd.join (root.join r.package) ↔
      r.JoinsOnce root := by
  unfold JoinsOnce
  cases hp : r.package.isAbsolute with
  | true => simp [Path.join_of_isAbsolute hp]
  | false =>
      cases hr : root.isAbsolute with
      | true =>
          have habs : (root.join r.package).isAbsolute = true := by
            simp [Path.isAbsolute_join, hr]
          simp [Path.join_of_isAbsolute habs]
      | false =>
          have hrel : (root.join r.package).isAbsolute = false := by
            simp [Path.isAbsolute_join, hr, hp]
          have hrel' : (root.join (root.join r.package)).isAbsolute = false := by
            simp [Path.isAbsolute_join, hr, hp]
          rw [Path.join_of_relative hrel', Path.join_of_relative hrel, Path.join_of_relative hrel,
            Path.join_of_relative hp]
          simp

/-- Two layouts below a root and below the same root seen from the working directory, through a view of
paths that tells directories apart by what it makes of a plain name in them. -/
theorem mapPaths_layout_iff {cwd : Path} (hcwd : cwd.isAbsolute = true) (root : Path) {r : Request}
    (hcrate : isCrateName r.crate = true) (view : Path → Path)
    (hview : ∀ {p q : Path} {name : Name}, Path.IsPlain name →
      (view (p.child name) = view (q.child name) ↔ view p = view q)) :
    (r.layout root).mapPaths (fun p => view (cwd.join p)) = (r.layout (cwd.join root)).mapPaths view ↔
      r.IsExplicit ∨
        view (cwd.join (root.join (root.join r.package))) = view (cwd.join (root.join r.package)) := by
  have habs : ((cwd.join root).join r.package).isAbsolute = true := by
    simp [Path.isAbsolute_join, hcwd]
  -- A path that is given is joined to the root once, a default one twice.
  have hpath : ∀ (given : Option Path) {name : Name}, Path.IsPlain name →
      (view (cwd.join (root.join (given.getD ((root.join r.package).child name)))) =
          view ((cwd.join root).join (given.getD (((cwd.join root).join r.package).child name))) ↔
        given.isSome = true ∨
          view (cwd.join (root.join (root.join r.package))) =
            view (cwd.join (root.join r.package))) := by
    intro given name hname
    cases given with
    | some p => simp [Path.join_assoc]
    | none =>
        simp only [Option.getD_none, Path.join_child, Path.join_of_isAbsolute habs, hview hname]
        simp [Path.join_assoc]
  have hpayload := hpath r.payload (isPlain_moduleName hcrate)
  have hbinding := hpath r.binding (isPlain_bindingName hcrate)
  have houtput : view (cwd.join (root.join (r.outputDir.getD (.ofText "wasm".toList)))) =
      view ((cwd.join root).join (r.outputDir.getD (.ofText "wasm".toList))) := by
    rw [Path.join_assoc]
  simp only [Config.mapPaths, layout, Config.mk.injEq, and_true]
  rw [hpayload, hbinding, IsExplicit, and_or_right]
  simp only [houtput, and_true]

/-- The paths of a layout below an absolute root are absolute themselves. -/
theorem placed_layout_join {cwd root : Path} (hcwd : cwd.isAbsolute = true) (r : Request) :
    (r.layout (cwd.join root)).placed cwd = (r.layout (cwd.join root)).mapPaths Path.normal := by
  have habs : ∀ p : Path, cwd.join ((cwd.join root).join p) = (cwd.join root).join p := fun p =>
    Path.join_of_isAbsolute (by simp [Path.isAbsolute_join, hcwd])
  simp only [Config.placed, Config.mapPaths, layout, habs]

/-- A relative root means the directory that it names exactly if the request is refused, or the module
and the binding are given, or joining the root once more to the directory of the package changes nothing.
The first part says so for the paths as they are written, the second for the places that they lead to. -/
theorem resolve_relative_root_iff {cwd : Path} (hcwd : cwd.isAbsolute = true) (root : Path)
    (r : Request) :
    (((r.rootedAt root).resolve cwd).map (Config.anchored cwd) =
        (r.rootedAt (cwd.join root)).resolve cwd ↔
      r.verdict ≠ .ok () ∨ r.IsExplicit ∨ r.JoinsOnce root) ∧
    (((r.rootedAt root).resolve cwd).map (Config.placed cwd) =
        ((r.rootedAt (cwd.join root)).resolve cwd).map (Config.placed cwd) ↔
      r.verdict ≠ .ok () ∨ r.IsExplicit ∨
        Path.place cwd (root.join (root.join r.package)) = Path.place cwd (root.join r.package)) := by
  simp only [resolve_rootedAt]
  cases hverdict : r.verdict with
  | error e => simp [Except.map]
  | ok u =>
      have hcrate := isCrateName_of_verdict hverdict
      simp only [Except.map, Except.ok.injEq, ne_eq, not_true_eq_false, false_or]
      constructor
      · exact (mapPaths_layout_iff hcwd root hcrate id Path.child_inj).trans
          (or_congr_right (join_join_package_iff r))
      · rw [placed_layout_join hcwd]
        have hplaced := mapPaths_layout_iff hcwd root hcrate Path.normal Path.normal_child_inj
        simp only [Path.normal_join, Path.mk.injEq, true_and] at hplaced
        exact hplaced

/-- The directory of the package is given and absolute, so a relative root is joined once. -/
theorem resolve_relative_root_package :
    (Path.ofText "/work".toList).isAbsolute = true ∧
      ((({ packageDir := some (.ofText "/out".toList) } : Request).rootedAt
          (.ofText "r".toList)).resolve (.ofText "/work".toList)).map
            (Config.anchored (.ofText "/work".toList)) =
        (({ packageDir := some (.ofText "/out".toList) } : Request).rootedAt
          ((Path.ofText "/work".toList).join (.ofText "r".toList))).resolve (.ofText "/work".toList) :=
  ⟨by decide, (resolve_relative_root_iff (by decide) (.ofText "r".toList)
    { packageDir := some (.ofText "/out".toList) }).1.mpr (Or.inr (Or.inr (Or.inr (Or.inl (by decide)))))⟩

/-- Nothing is given but the relative root `r`: the two default paths begin with `r/r`. -/
theorem resolve_default_root_twice :
    ((({} : Request).rootedAt (.ofText "r".toList)).resolve (.ofText "/work".toList)).map
        (Config.placed (.ofText "/work".toList)) ≠
      ((({} : Request).rootedAt ((Path.ofText "/work".toList).join (.ofText "r".toList))).resolve
        (.ofText "/work".toList)).map (Config.placed (.ofText "/work".toList)) := by
  intro h
  have hpayload := congrArg (fun c => c.toOption.map Config.payload) h
  exact absurd hpayload (by decide)

end Request

end WasmEmbed
