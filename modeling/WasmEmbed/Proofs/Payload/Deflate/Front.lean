import WasmEmbed.Proofs.Payload.Deflate.Stream

/-!
# Reading a front of a stream

A reader that is given only a front of a string of bits finds that it ends too early, or it answers what
it answers on the whole string, and more is left over (`Foretells`). There is one rule for each way
in which readers are put together. Only two things need care: a reader may ask how much is left, and it
does so to bound the number of its steps, so on the whole string it may make more of them.

A stream is read to its last bit. A proper front of it therefore ends too early, wherever it is cut
(`decompress_of_isPrefix`).
-/

namespace WasmEmbed.Payload.Deflate

variable {α β : Type}

/-- What `r` answers on a front of a string, `s` answers on the whole string, unless the front ends too
early for `r`. -/
def Foretells (r s : BitReader α) : Prop :=
  ∀ count bits more, r ⟨count, bits⟩ = .error .truncated ∨
    s ⟨count, bits ++ more⟩ =
      (r ⟨count, bits⟩).map fun p => (p.1, ⟨p.2.count, p.2.rest ++ more⟩)

namespace Foretells

/-! ## Putting readers together

The two readers of a pair differ only in a bound that is asked of the bits left. The rules take pairs to
pairs.
-/

/-- An answer without a bit read is the same. -/
theorem pure (a : α) : Foretells (Pure.pure a) (Pure.pure a) := fun _ _ _ => Or.inr rfl

theorem fail (fault : Fault) : Foretells (BitReader.fail (α := α) fault) (BitReader.fail fault) :=
  fun _ _ _ => Or.inr rfl

theorem needsDictionary : Foretells (α := α) (fun _ => .error .needsDictionary)
    (fun _ => .error .needsDictionary) :=
  fun _ _ _ => Or.inr rfl

/-- A reader that has made all its steps has not come to an end. -/
theorem truncated (s : BitReader α) : Foretells (fun _ => .error .truncated) s :=
  fun _ _ _ => Or.inl rfl

/-- The rule for two parts one after the other. -/
theorem bind {r s : BitReader α} {f g : α → BitReader β} (h : Foretells r s)
    (hf : ∀ a, Foretells (f a) (g a)) : Foretells (r >>= f) (s >>= g) := by
  intro count bits more
  have hr : (r >>= f) ⟨count, bits⟩ = r ⟨count, bits⟩ >>= fun p => f p.1 p.2 := rfl
  have hs : (s >>= g) ⟨count, bits ++ more⟩ = s ⟨count, bits ++ more⟩ >>= fun p => g p.1 p.2 := rfl
  rw [hr, hs]
  rcases h count bits more with hshort | hsame
  · rw [hshort]
    exact Or.inl rfl
  · rw [hsame]
    cases r ⟨count, bits⟩ with
    | error e => exact Or.inr rfl
    | ok p => exact hf p.1 p.2.count p.2.rest more

/-- A reader may ask how much is left, and then there is more of it. -/
theorem get {f g : Source → BitReader β}
    (h : ∀ count bits more, Foretells (f ⟨count, bits⟩) (g ⟨count, bits ++ more⟩)) :
    Foretells (MonadStateOf.get >>= f) (MonadStateOf.get >>= g) :=
  fun count bits more => h count bits more count bits more

theorem ite {p : Prop} [Decidable p] {r s r' s' : BitReader α} (h : Foretells r s)
    (h' : Foretells r' s') : Foretells (if p then r else r') (if p then s else s') := by
  split
  · exact h
  · exact h'

theorem check (ok : Bool) (fault : Fault) :
    Foretells (BitReader.check ok fault) (BitReader.check ok fault) :=
  ite (pure ()) (fail fault)

/-- The rule for a list of parts, by induction on the list. -/
theorem mapM {ι : Type} {r s : ι → BitReader α} (h : ∀ i, Foretells (r i) (s i)) (items : List ι) :
    Foretells (items.mapM r) (items.mapM s) := by
  induction items with
  | nil => exact pure []
  | cons i items ih =>
      rw [List.mapM_cons, List.mapM_cons]
      exact (h i).bind fun a => ih.bind fun rest => pure (a :: rest)

/-! ## Bits and numbers

A bit that is missing is the only way to find out that the bits end too early.
-/

theorem bit : Foretells BitReader.bit BitReader.bit := by
  intro count bits more
  cases bits with
  | nil => exact Or.inl rfl
  | cons b rest => exact Or.inr rfl

theorem number (k : Nat) : Foretells (BitReader.number k) (BitReader.number k) := by
  induction k with
  | zero => exact pure 0
  | succ k ih => exact bit.bind fun b => ih.bind fun rest => pure _

theorem align : Foretells BitReader.align BitReader.align :=
  get fun _ _ _ => (number _).bind fun _ => pure ()

/-- The walk down a codebook, by induction on the codebook. -/
theorem symbol? (book : Codebook) : Foretells (BitReader.symbol? book) (BitReader.symbol? book) := by
  induction book with
  | vacant => exact pure none
  | symbol s => exact pure (some s)
  | fork zero one ihZero ihOne => exact bit.bind fun b => ite ihOne ihZero

theorem symbol (book : Codebook) (fault : Fault) :
    Foretells (BitReader.symbol book fault) (BitReader.symbol book fault) := by
  refine (symbol? book).bind fun s => ?_
  cases s with
  | none => exact fail fault
  | some s => exact pure s

/-! ## Blocks

The readers of a block do not ask how much is left, except for the bound on the tokens. Each lemma follows
the definition.
-/

/-- Bytes that stand as they are, by induction on their number. -/
theorem readBytes (k : Nat) (out : Array UInt8) :
    Foretells (Deflate.readBytes k out) (Deflate.readBytes k out) := by
  induction k generalizing out with
  | zero => exact pure out
  | succ k ih => exact (number 8).bind fun b => ih _

theorem readStored (out : Array UInt8) : Foretells (Deflate.readStored out) (Deflate.readStored out) :=
  align.bind fun _ => (number 16).bind fun size => (number 16).bind fun _ =>
    (check _ _).bind fun _ => readBytes size out

theorem readPlace (ranges : List Range) (index : Nat) (fault : Fault) :
    Foretells (Deflate.readPlace ranges index fault) (Deflate.readPlace ranges index fault) := by
  rw [Deflate.readPlace]
  split
  · exact fail fault
  · exact (number _).bind fun rest => pure _

theorem readToken (books : Codebooks) (known : Nat) :
    Foretells (Deflate.readToken books known) (Deflate.readToken books known) := by
  refine (symbol _ _).bind fun s => ite (pure _) (ite (pure none) ?_)
  refine (readPlace _ _ _).bind fun length => (symbol _ _).bind fun d => ?_
  exact (readPlace _ _ _).bind fun distance => (check _ _).bind fun _ => pure _

/-- On the whole string a reader of tokens may make more steps. -/
theorem readTokens (books : Codebooks) {k k' : Nat} (h : k ≤ k') (out : Array UInt8) :
    Foretells (Deflate.readTokens books k out) (Deflate.readTokens books k' out) := by
  induction k generalizing k' out with
  | zero => exact truncated _
  | succ k ih =>
      -- There is a step to make on the whole string too, and it is the same step.
      obtain ⟨k', rfl⟩ := Nat.exists_eq_add_one_of_ne_zero (Nat.ne_zero_of_lt h)
      refine (readToken books out.size).bind fun t => ?_
      cases t with
      | none => exact pure out
      | some t => exact ih (Nat.le_of_succ_le_succ h) _

theorem readCoded (books : Codebooks) (out : Array UInt8) :
    Foretells (Deflate.readCoded books out) (Deflate.readCoded books out) := by
  refine get fun count bits more => readTokens books ?_ out
  exact Nat.succ_le_succ (List.prefix_append bits more).length_le

theorem readStepCode (count : Nat) :
    Foretells (Deflate.readStepCode count) (Deflate.readStepCode count) :=
  (mapM (fun _ => number 3) _).bind fun _ => (check _ _).bind fun _ => pure _

theorem readStep (s : Nat) (last? : Option Nat) :
    Foretells (Deflate.readStep s last?) (Deflate.readStep s last?) := by
  refine ite (pure _) (ite ((number 2).bind fun count => ?_) (ite ?_ ?_))
  · cases last? with
    | none => exact fail _
    | some l => exact pure _
  · exact (number 3).bind fun count => pure _
  · exact (number 7).bind fun count => pure _

/-- The lengths of a description, by induction on the bound. -/
theorem readLengths (book : Codebook) (total k : Nat) (lengths : Lengths) :
    Foretells (Deflate.readLengths book total k lengths)
      (Deflate.readLengths book total k lengths) := by
  induction k generalizing lengths with
  | zero => exact pure _
  | succ k ih =>
      refine ite (pure _) ((symbol? book).bind fun s => (readStep _ _).bind fun step => ?_)
      exact (check _ _).bind fun _ => ih _

/-- The description of the codes of a block. -/
theorem readDescription : Foretells Deflate.readDescription Deflate.readDescription := by
  refine (number 5).bind fun symbols => (number 5).bind fun distances => ?_
  refine (number 4).bind fun written => (check _ _).bind fun _ => ?_
  refine (readStepCode _).bind fun stepCode => (readLengths _ _ _ _).bind fun lengths => ?_
  exact (check _ _).bind fun _ => (check _ _).bind fun _ => (check _ _).bind fun _ => pure _

/-- A block of any form. -/
theorem readBlock (out : Array UInt8) : Foretells (Deflate.readBlock out) (Deflate.readBlock out) := by
  refine bit.bind fun isLast => (number 2).bind fun form => ?_
  -- However a block is read, it is given back with the mark of the last one.
  have hend : ∀ {r : BitReader (Array UInt8)}, Foretells r r →
      Foretells (r >>= fun out => Pure.pure (isLast, out)) (r >>= fun out => Pure.pure (isLast, out)) :=
    fun h => h.bind fun out => pure (isLast, out)
  refine ite (hend (readStored out)) (ite (hend (readCoded _ out)) (ite ?_ (hend (fail _))))
  exact readDescription.bind fun codes => hend (readCoded _ out)

/-! ## Streams

The number of blocks is bounded by what is left as well. A block that is read takes at least one bit, so
on the whole string the greater bound is never needed.
-/

/-- On the whole string a reader of blocks may read more of them. -/
theorem readBlocks {k k' : Nat} (h : k ≤ k') (out : Array UInt8) :
    Foretells (Deflate.readBlocks k out) (Deflate.readBlocks k' out) := by
  induction k generalizing k' out with
  | zero => exact truncated _
  | succ k ih =>
      obtain ⟨k', rfl⟩ := Nat.exists_eq_add_one_of_ne_zero (Nat.ne_zero_of_lt h)
      refine (readBlock out).bind fun block => ?_
      obtain ⟨isLast, out⟩ := block
      exact ite (pure out) (ih (Nat.le_of_succ_le_succ h) out)

theorem readHeading : Foretells Deflate.readHeading Deflate.readHeading := by
  refine (number 8).bind fun low => (number 8).bind fun high => ?_
  refine (check _ _).bind fun _ => (check _ _).bind fun _ => (check _ _).bind fun _ => ?_
  exact ite ((number 32).bind fun _ => needsDictionary) (pure ())

/-- The stream with its checksum. -/
theorem readStream : Foretells Deflate.readStream Deflate.readStream := by
  refine readHeading.bind fun _ => get fun count bits more => ?_
  refine (readBlocks ?_ #[]).bind fun out => align.bind fun _ => ?_
  · exact Nat.succ_le_succ (List.prefix_append bits more).length_le
  · exact (mapM (fun _ => number 8) _).bind fun written => (check _ _).bind fun _ => pure _

end Foretells

/-- A proper front of a stream ends too early, wherever the stream is cut. -/
theorem decompress_of_isPrefix {bytes front : List UInt8} (h : front <+: compress bytes)
    (hne : front ≠ compress bytes) : decompress front = .error .truncated := by
  obtain ⟨back, hback⟩ := h
  have hwhole := Reads.stream bytes []
  rw [List.append_nil, ← hback, Bits.ofBytes_append] at hwhole
  rcases Foretells.readStream 0 (Bits.ofBytes front) (Bits.ofBytes back) with hshort | hsame
  · rw [decompress, hshort]
    rfl
  · -- The front would be a stream of its own, with bits left over that are not there.
    rw [hwhole] at hsame
    cases hread : readStream ⟨0, Bits.ofBytes front⟩ with
    | error e =>
        rw [hread] at hsame
        cases hsame
    | ok p =>
        rw [hread] at hsame
        have hrest := congrArg (fun p => p.2.rest) (Except.ok.inj hsame)
        have hnil : Bits.ofBytes back = [] := (List.append_eq_nil_iff.mp hrest.symm).2
        cases back with
        | nil => exact absurd ((List.append_nil front).symm.trans hback) hne
        | cons b back => cases hnil

end WasmEmbed.Payload.Deflate
