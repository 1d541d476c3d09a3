import WasmEmbed.Build.Bundle
import WasmEmbed.Proofs.Build.Shards

/-!
# How a bundle ends

If both inputs are files, a build ends as the writing of its shards does, or it fails because of the
binding, or it rewrites the binding last (`bundle_ends`). Otherwise it fails before it changes anything
(`exists_ends_bundle_error`).
-/

namespace WasmEmbed

/-- What the check of a config asks for. -/
theorem Config.check_eq_ok_iff {c : Config} : c.check = .ok () ↔ 1 ≤ c.maxShardChars ∧
    isIdentifier c.importName = true ∧ isIdentifier c.shardPrefix = true ∧
    isExtension c.extension = true := by
  rw [Config.check]
  by_cases hmax : c.maxShardChars < 1
  · rw [if_pos hmax]
    simp only [reduceCtorEq, false_iff, not_and]
    omega
  · rw [if_neg hmax]
    have hle : 1 ≤ c.maxShardChars := by omega
    by_cases himport : isIdentifier c.importName = true
    · by_cases hstart : isIdentifier c.shardPrefix = true
      · by_cases hextension : isExtension c.extension = true
        · simp [hle, himport, hstart, hextension]
        · simp [himport, hstart, hextension]
      · simp [himport, hstart]
    · simp [himport]

/-- How the files of a build are named. -/
def Config.naming (c : Config) : ShardNaming := ⟨c.shardPrefix, c.extension⟩

/-- A config that was checked has valid names. -/
theorem Config.isValid_naming {c : Config} (h : c.check = .ok ()) : c.naming.IsValid :=
  let ⟨_, _, hstart, hextension⟩ := Config.check_eq_ok_iff.mp h
  ⟨hstart, hextension⟩

/-- The aggregator of a build. -/
def Config.aggregatorPath (c : Config) : Path := c.naming.path c.outputDir Shard.indexStem

/-- What the binding of a build is rewritten for. -/
def Config.target (c : Config) (cwd : Location) : Binding.Target :=
  ⟨c.importName, Path.specifier ⟨.root, cwd⟩ c.binding c.aggregatorPath, c.compress⟩

namespace Build

open Store

variable {cwd : Location} {s : Store} {c : Config}

/-! ## The inputs

An input must be a file. If it is none, the failure says whether nothing was found or something else
stands there.
-/

/-- An input that is a file is accepted. -/
theorem ends_requireInput (input : Input) {path : Path} (h : s.isFile cwd path = true) :
    Ends (requireInput input path) cwd s (.ok ()) [] := by
  have hthere : s.isThere cwd path = true := by
    rw [isFile] at h
    split at h
    · next hfind => rw [isThere, hfind]; rfl
    · cases h
  rw [requireInput]
  refine Ends.store.then (Ends.read.then ?_)
  rw [hthere, h]
  exact Ends.pure ()

/-- What is wrong with an input. -/
inductive IsFault (cwd : Location) (s : Store) (input : Input) (path : Path) : InputError → Prop
  | missing (h : s.isThere cwd path = false) : IsFault cwd s input path (.missing input path)
  | notAFile (h : s.isThere cwd path = true) (hfile : s.isFile cwd path = false) :
      IsFault cwd s input path (.notAFile input path)

/-- What is not a file is one fault or the other. -/
theorem exists_isFault (input : Input) {path : Path} (h : s.isFile cwd path = false) :
    ∃ e, IsFault cwd s input path e := by
  cases hthere : s.isThere cwd path with
  | false => exact ⟨_, .missing hthere⟩
  | true => exact ⟨_, .notAFile hthere h⟩

/-- The fault is the failure. -/
theorem IsFault.ends {input : Input} {path : Path} {e : InputError} (h : IsFault cwd s input path e) :
    Ends (requireInput input path) cwd s (.error (.input e)) [] := by
  rw [requireInput]
  refine Ends.store.then (Ends.read.then ?_)
  cases h with
  | missing h =>
      rw [h]
      exact Ends.fail _
  | notAFile h hfile =>
      rw [h, hfile]
      exact Ends.fail _

theorem exists_ends_requireInput (input : Input) {path : Path} (h : s.isFile cwd path ≠ true) :
    ∃ e, Ends (requireInput input path) cwd s (.error e) [] := by
  obtain ⟨e, he⟩ := exists_isFault input (Bool.eq_false_iff.mpr h)
  exact ⟨.input e, he.ends⟩

/-- A path that leads to a file. -/
theorem isFile_iff_exists {path : Path} : s.isFile cwd path = true ↔
    ∃ content, s.locate cwd path = .ok (target cwd path) ∧
      s.get? (target cwd path) = some (.file content) := by
  constructor
  · intro h
    cases hlocate : s.locate cwd path with
    | error fault => simp [isFile, find?, hlocate] at h
    | ok l =>
        obtain ⟨content, hl⟩ := (isFile_iff hlocate).mp h
        obtain rfl := locate_eq_ok hlocate
        exact ⟨content, rfl, hl⟩
  · rintro ⟨content, hlocate, hl⟩
    exact (isFile_iff hlocate).mpr ⟨content, hl⟩

/-- A build without one of its inputs changes nothing. -/
theorem exists_ends_bundle_error (hcheck : c.check = .ok ())
    (h : ¬ (s.isFile cwd c.payload = true ∧ s.isFile cwd c.binding = true)) :
    ∃ e, Ends (bundle c) cwd s (.error e) [] := by
  rw [bundle, hcheck]
  by_cases hpayload : s.isFile cwd c.payload = true
  · obtain ⟨e, he⟩ := exists_ends_requireInput .binding fun hbinding => h ⟨hpayload, hbinding⟩
    exact ⟨e, (Ends.require_ok _ _).then ((ends_requireInput _ hpayload).then he.bind_error)⟩
  · obtain ⟨e, he⟩ := exists_ends_requireInput .payload hpayload
    exact ⟨e, (Ends.require_ok _ _).then he.bind_error⟩

/-! ## The build as a whole

The writing of the shards is a parameter of these lemmas. How it ends is known from elsewhere, and here it
is put between the checks and the rewriting of the binding.
-/

/-- Reading a text answers nothing but the text of a file, with its lines ended by line feeds. -/
theorem exists_ends_readText {path : Path} {l : Location} (h : s.locate cwd path = .ok l) :
    ∃ r, Ends (readText path) cwd s r [] ∧ ∀ text, r = .ok text →
      ∃ content source, s.get? l = some (.file content) ∧ Text.Utf8.decode content = .ok source ∧
        text = Text.unifyLineEnds source := by
  obtain ⟨r, hread, hr⟩ := exists_ends_readFile h
  rw [readText]
  cases r with
  | error e => exact ⟨.error e, hread.bind_error, by simp⟩
  | ok content =>
      cases hdecode : Text.Utf8.decode content with
      | error e =>
          refine ⟨.error (.text e), hread.then ?_, by simp⟩
          rw [hdecode]
          exact (Ends.require_error _ e).bind_error
      | ok source =>
          refine ⟨.ok (Text.unifyLineEnds source), hread.then ?_, ?_⟩
          · rw [hdecode]
            exact (Ends.require_ok _ source).then (Ends.pure _)
          · rintro text ⟨⟩
            exact ⟨content, source, hr content rfl, hdecode, rfl⟩

/-- What is left to do once the shards are written. -/
def finish (c : Config) (bytes chars : Nat) (shards : ShardSet) : Build BundleResult := do
  let specifier := Path.specifier ⟨.root, ← read⟩ c.binding shards.index
  detail (.specifier specifier)
  let source ← readText c.binding
  let rewritten ← require .rewrite (Binding.rewrite ⟨c.importName, specifier, c.compress⟩ source)
  writeFile c.binding (Text.Utf8.encode rewritten)
  tell (.rewrote c.binding)
  tell .done
  pure ⟨shards, c.binding, bytes, chars⟩

/-- The steps of a build in their order. -/
theorem bundle_eq (c : Config) : bundle c = (do
    require .config c.check
    requireInput .payload c.payload
    requireInput .binding c.binding
    tell (.payload c.payload)
    tell (.binding c.binding)
    tell (.outputDir c.outputDir)
    tell (.settings c.maxShardChars c.compress)
    let payload ← readFile c.payload
    let text := Payload.encode c.compress payload
    tell (.encoded payload.length text.length)
    writeShards c.naming c.outputDir c.maxShardChars text >>= finish c payload.length text.length) := rfl

/-- The binding that is there is rewritten. -/
theorem Ends.finish {l : Location} (hbinding : s.locate cwd c.binding = .ok l) (bytes chars : Nat)
    {shards : ShardSet} (hindex : shards.index = c.aggregatorPath) {content : List UInt8}
    (hl : s.get? l = some (.file content)) {source rewritten : List Char}
    (hdecode : Text.Utf8.decode content = .ok source)
    (hrewrite : Binding.rewrite (c.target cwd) (Text.unifyLineEnds source) = .ok rewritten) :
    Ends (finish c bytes chars shards) cwd s (.ok ⟨shards, c.binding, bytes, chars⟩)
      [.write l (Text.Utf8.encode rewritten)] := by
  have hread : Ends (readText c.binding) cwd s (.ok (Text.unifyLineEnds source)) [] := by
    rw [readText]
    refine (Ends.readFile hbinding hl).then ?_
    rw [hdecode]
    exact (Ends.require_ok _ source).then (Ends.pure _)
  have hwritable : s.get? l ≠ some .directory := by simp [hl]
  rw [Config.target] at hrewrite
  rw [Build.finish, hindex]
  refine Ends.read.then ((Ends.detail _).then (hread.then ?_))
  rw [hrewrite]
  exact (Ends.require_ok _ rewritten).then ((Ends.writeFile hbinding hwritable _).bind
    ((Ends.tell _).then ((Ends.tell _).then (Ends.pure _))))

/-- The binding that is there is rewritten, or the build fails without a further change. -/
theorem exists_ends_finish {l : Location} (hbinding : s.locate cwd c.binding = .ok l)
    (bytes chars : Nat) {shards : ShardSet} (hindex : shards.index = c.aggregatorPath) :
    (∃ e, Ends (finish c bytes chars shards) cwd s (.error e) []) ∨
    ∃ content source rewritten, s.get? l = some (.file content) ∧
      Text.Utf8.decode content = .ok source ∧
      Binding.rewrite (c.target cwd) (Text.unifyLineEnds source) = .ok rewritten := by
  obtain ⟨r, hread, hr⟩ := exists_ends_readText hbinding
  cases r with
  | error e =>
      rw [finish]
      exact Or.inl ⟨e, Ends.read.then ((Ends.detail _).then hread.bind_error)⟩
  | ok text =>
      obtain ⟨content, source, hl, hdecode, rfl⟩ := hr text rfl
      cases hrewrite : Binding.rewrite (c.target cwd) (Text.unifyLineEnds source) with
      | error e =>
          rw [finish, hindex]
          refine Or.inl ⟨.rewrite e, Ends.read.then ((Ends.detail _).then (hread.then ?_))⟩
          rw [Config.target] at hrewrite
          rw [hrewrite]
          exact (Ends.require_error _ e).bind_error
      | ok rewritten => exact Or.inr ⟨content, source, rewritten, hl, hdecode, hrewrite⟩

variable {payload : List UInt8} {r : Except Failure ShardSet} {stage : List Change}

/-- With both inputs there, a build changes nothing before it writes the shards. -/
theorem ends_bundle_of_writeShards (hcheck : c.check = .ok ())
    (hpayload : s.locate cwd c.payload = .ok (target cwd c.payload))
    (hcontent : s.get? (target cwd c.payload) = some (.file payload))
    (hbinding : s.isFile cwd c.binding = true) {r : Except Failure BundleResult} {changes : List Change}
    (h : Ends (writeShards c.naming c.outputDir c.maxShardChars (Payload.encode c.compress payload) >>=
      finish c payload.length (Payload.encode c.compress payload).length) cwd s r changes) :
    Ends (bundle c) cwd s r changes := by
  have hisFile := isFile_iff_exists.mpr ⟨payload, hpayload, hcontent⟩
  rw [bundle_eq, hcheck]
  exact (Ends.require_ok _ _).then ((ends_requireInput _ hisFile).then
    ((ends_requireInput _ hbinding).then ((Ends.tell _).then ((Ends.tell _).then ((Ends.tell _).then
      ((Ends.tell _).then ((Ends.readFile hpayload hcontent).then ((Ends.tell _).then h))))))))

/-- A build whose shards are written and whose binding is rewritten. -/
theorem Ends.bundle (hcheck : c.check = .ok ())
    (hpayload : s.locate cwd c.payload = .ok (target cwd c.payload))
    (hcontent : s.get? (target cwd c.payload) = some (.file payload))
    (hbinding : s.isFile cwd c.binding = true) {shards : ShardSet}
    (hstage : Ends (writeShards c.naming c.outputDir c.maxShardChars
      (Payload.encode c.compress payload)) cwd s (.ok shards) stage)
    (hindex : shards.index = c.aggregatorPath) {content : List UInt8}
    (hl : (s.replay stage).get? (target cwd c.binding) = some (.file content))
    {source rewritten : List Char} (hdecode : Text.Utf8.decode content = .ok source)
    (hrewrite : Binding.rewrite (c.target cwd) (Text.unifyLineEnds source) = .ok rewritten) :
    Ends (bundle c) cwd s
      (.ok ⟨shards, c.binding, payload.length, (Payload.encode c.compress payload).length⟩)
      (stage ++ [.write (target cwd c.binding) (Text.Utf8.encode rewritten)]) := by
  obtain ⟨-, hpath, -⟩ := isFile_iff_exists.mp hbinding
  exact ends_bundle_of_writeShards hcheck hpayload hcontent hbinding
    (hstage.bind (Ends.finish (locate_replay hstage.allows hpath) _ _ hindex hl hdecode hrewrite))

/-- A build with both inputs ends as the writing of the shards does if that fails. Otherwise it may fail
because of the binding, without a further change. If it does not, the binding that was there after the
shards were written is rewritten. -/
theorem bundle_ends (hcheck : c.check = .ok ())
    (hpayload : s.locate cwd c.payload = .ok (target cwd c.payload))
    (hcontent : s.get? (target cwd c.payload) = some (.file payload))
    (hbinding : s.isFile cwd c.binding = true)
    (hstage : Ends (writeShards c.naming c.outputDir c.maxShardChars
      (Payload.encode c.compress payload)) cwd s r stage)
    (hindex : ∀ shards, r = .ok shards → shards.index = c.aggregatorPath) :
    (∃ e, Ends (bundle c) cwd s (.error e) stage) ∨
    ∃ shards content source rewritten, r = .ok shards ∧
      (s.replay stage).get? (target cwd c.binding) = some (.file content) ∧
      Text.Utf8.decode content = .ok source ∧
      Binding.rewrite (c.target cwd) (Text.unifyLineEnds source) = .ok rewritten ∧
      Ends (bundle c) cwd s
        (.ok ⟨shards, c.binding, payload.length, (Payload.encode c.compress payload).length⟩)
        (stage ++ [.write (target cwd c.binding) (Text.Utf8.encode rewritten)]) := by
  have hstart : ∀ {r changes}, _ → Ends (Build.bundle c) cwd s r changes :=
    ends_bundle_of_writeShards hcheck hpayload hcontent hbinding
  obtain ⟨-, hpath, -⟩ := isFile_iff_exists.mp hbinding
  -- The binding is read only once the shards are there.
  cases r with
  | error e => exact Or.inl ⟨e, hstart hstage.bind_error⟩
  | ok shards =>
      rcases exists_ends_finish (locate_replay hstage.allows hpath) payload.length
        (Payload.encode c.compress payload).length (hindex shards rfl) with
        ⟨e, he⟩ | ⟨content, source, rewritten, hl, hdecode, hrewrite⟩
      · refine Or.inl ⟨e, hstart ?_⟩
        rw [← List.append_nil stage]
        exact hstage.bind he
      · exact Or.inr ⟨shards, content, source, rewritten, rfl, hl, hdecode, hrewrite,
          Ends.bundle hcheck hpayload hcontent hbinding hstage (hindex shards rfl) hl hdecode hrewrite⟩

end Build

end WasmEmbed
