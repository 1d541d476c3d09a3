import WasmEmbed.Payload.Deflate.Inflate
import WasmEmbed.Proofs.Payload.Bits

/-!
# Reading what was written

`Reads r count bits a` says that the reader `r`, with `count` bits behind it, takes `bits` from the front
of any string of bits and answers `a`. There is one rule for each way in which readers are put together,
so that a writer and its reader are compared piece by piece, in the order of the pieces.

The number of bits behind a reader matters only where it moves on to the next whole byte.
-/

namespace WasmEmbed.Payload.Deflate

variable {α β : Type}

/-- With `count` bits behind it, the reader takes `bits` and answers `a`, whatever follows them. -/
def Reads (r : BitReader α) (count : Nat) (bits : Bits) (a : α) : Prop :=
  ∀ rest, r ⟨count, bits ++ rest⟩ = .ok (a, ⟨count + bits.length, rest⟩)

namespace Reads

variable {r : BitReader α} {count : Nat} {bits more : Bits} {a : α} {b : β}

/-! ## Putting readers together -/

theorem pure (count : Nat) (a : α) : Reads (Pure.pure a) count [] a := fun _ => rfl

theorem bind {f : α → BitReader β} (h : Reads r count bits a)
    (hf : Reads (f a) (count + bits.length) more b) : Reads (r >>= f) count (bits ++ more) b := by
  intro rest
  show (r ⟨count, bits ++ more ++ rest⟩ >>= fun p => f p.1 p.2) = _
  rw [List.append_assoc, h (more ++ rest)]
  show f a ⟨count + bits.length, more ++ rest⟩ = _
  rw [hf rest, List.length_append, Nat.add_assoc]

/-- A reader that takes nothing. -/
theorem bind_nil {f : α → BitReader β} (h : Reads r count [] a) (hf : Reads (f a) count more b) :
    Reads (r >>= f) count more b :=
  h.bind hf

/-- Nothing is taken behind the last bit. -/
theorem bind_last {f : α → BitReader β} (h : Reads r count bits a)
    (hf : Reads (f a) (count + bits.length) [] b) : Reads (r >>= f) count bits b := by
  have hbind := h.bind hf
  rwa [List.append_nil] at hbind

/-- Only the answer is changed behind the last bit. -/
theorem bind_pure {f : α → β} (h : Reads r count bits a) :
    Reads (r >>= fun x => Pure.pure (f x)) count bits (f a) :=
  h.bind_last (pure _ (f a))

theorem check {ok : Bool} {fault : Fault} (h : ok = true) :
    Reads (BitReader.check ok fault) count [] () := by
  intro rest
  rw [BitReader.check, if_pos h]
  rfl

/-- What a reader does may depend on how much is left. -/
theorem get {f : Source → BitReader β} (h : ∀ rest, Reads (f ⟨count, bits ++ rest⟩) count bits b) :
    Reads (MonadStateOf.get >>= f) count bits b :=
  fun rest => h rest rest

/-! ## Bits and numbers -/

theorem bit (count : Nat) (b : Bool) : Reads BitReader.bit count [b] b := fun _ => rfl

/-- A number is read from as many bits as are asked for. -/
theorem number_bits (count : Nat) (bits : Bits) :
    Reads (BitReader.number bits.length) count bits (Bits.toNat bits) := by
  induction bits generalizing count with
  | nil => exact pure count 0
  | cons b bits ih => exact (bit count b).bind (ih (count + 1)).bind_pure

theorem number {k v : Nat} (count : Nat) (h : v < 2 ^ k) :
    Reads (BitReader.number k) count (Bits.ofNat k v) v := by
  have hread := number_bits count (Bits.ofNat k v)
  rwa [Bits.length_ofNat, Bits.toNat_ofNat_of_lt h] at hread

theorem align (count : Nat) : Reads BitReader.align count (Bits.filling count) () :=
  get fun _ => (number_bits count (Bits.filling count)).bind_pure

/-- As many values are read as there are items. -/
theorem mapM {ι : Type} {write : α → Bits} {values : List α} {items : List ι}
    (hlength : items.length = values.length)
    (h : ∀ v ∈ values, ∀ count, Reads r count (write v) v) (count : Nat) :
    Reads (items.mapM fun _ => r) count (values.flatMap write) values := by
  induction values generalizing items count with
  | nil =>
      obtain rfl := List.eq_nil_of_length_eq_zero hlength
      exact pure count []
  | cons v values ih =>
      obtain ⟨i, items, rfl⟩ := List.exists_cons_of_length_eq_add_one hlength
      rw [List.mapM_cons]
      have hrest := ih (Nat.succ.inj hlength) (fun w hw => h w (List.mem_cons_of_mem v hw))
        (count + (write v).length)
      exact (h v List.mem_cons_self count).bind hrest.bind_pure

/-! ## Bytes -/

theorem byte (count : Nat) (b : UInt8) :
    Reads (BitReader.number 8) count (Bits.ofNat 8 b.toNat) b.toNat :=
  number count b.toNat_lt

/-- Bytes are read as they were stored. -/
theorem readBytes (count : Nat) (bytes : List UInt8) (out : Array UInt8) :
    Reads (Deflate.readBytes bytes.length out) count (Bits.ofBytes bytes) (out ++ bytes.toArray) := by
  induction bytes generalizing count out with
  | nil =>
      have hempty : out ++ ([] : List UInt8).toArray = out := Array.append_empty
      rw [hempty]
      exact pure count out
  | cons b bytes ih =>
      have hpush : out ++ (b :: bytes).toArray = out.push b ++ bytes.toArray := by simp
      have hbyte := ih (count + (Bits.ofNat 8 b.toNat).length) (out.push b)
      rw [hpush]
      refine (byte count b).bind ?_
      rw [UInt8.ofNat_toNat]
      exact hbyte

end Reads

end WasmEmbed.Payload.Deflate
