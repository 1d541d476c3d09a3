import WasmEmbed.Proofs.Payload.Deflate.Token
import WasmEmbed.Proofs.Payload.Deflate.Code

/-!
# Tokens in a code are read back

A block in a code is its tokens and the end symbol. If the code has a codeword for each symbol that they
need (`CodePair.CoversAll`), the reader takes one token after the other and appends what it says, up to
the end symbol (`Reads.coded`). The fixed code has codewords for all symbols.
-/

namespace WasmEmbed.Payload.Deflate

variable {data : Array UInt8} {codes : CodePair} {n m : Nat}

/-! ## What a code needs -/

namespace CodePair

/-- The code has the codewords that a token needs. -/
def Covers (codes : CodePair) : Token → Prop
  | .literal byte => codes.symbols.Covers byte.toNat
  | .copy length distance => codes.symbols.Covers (lengthSymbol (lengthPlace length).index) ∧
      codes.distances.Covers (distancePlace distance).index

/-- The code can be read, and it has all codewords that the tokens of a block need. -/
structure CoversAll (codes : CodePair) (tokens : List Token) : Prop where
  symbols : codes.symbols.IsCode
  distances : codes.distances.IsCode
  endSymbol : codes.symbols.Covers endSymbol
  tokens : ∀ t ∈ tokens, codes.Covers t

theorem CoversAll.tail {t : Token} {rest : List Token} (h : codes.CoversAll (t :: rest)) :
    codes.CoversAll rest :=
  ⟨h.symbols, h.distances, h.endSymbol, fun u hu => h.tokens u (List.mem_cons_of_mem t hu)⟩

end CodePair

/-! ## Reading tokens -/

/-- A token is read back from its codewords. -/
theorem Reads.token {t : Token} (h : t.Says data n) (hsymbols : codes.symbols.IsCode)
    (hdistances : codes.distances.IsCode) (hcovers : codes.Covers t) (count : Nat) :
    Reads (readToken codes.books n) count (codes.codewords.token t) (some t) := by
  cases h with
  | literal hn =>
      have hbyte : (data.getD n 0).toNat < endSymbol := UInt8.toNat_lt _
      refine (symbol hsymbols hcovers count _).bind_last ?_
      rw [if_pos hbyte, UInt8.ofNat_toNat]
      exact pure _ _
  | @copy length distance hmin hmax hpos hback hreach hend hsame =>
      obtain ⟨hlength, hdistance⟩ := hcovers
      have hindex : lengthSymbol (lengthPlace length).index - lengthSymbol 0 =
          (lengthPlace length).index := by
        rw [lengthSymbol, lengthSymbol]
        omega
      -- The symbols of lengths stand behind that of the end of a block.
      have habove : ¬ lengthSymbol (lengthPlace length).index < endSymbol ∧
          ¬ lengthSymbol (lengthPlace length).index = endSymbol := by
        rw [lengthSymbol]
        omega
      rw [readToken, Codewords.token]
      simp only [List.append_assoc]
      refine (symbol hsymbols hlength count _).bind ?_
      rw [if_neg habove.1, if_neg habove.2, hindex]
      refine (place_length hmin hmax _ _).bind ((symbol hdistances hdistance _ _).bind ?_)
      refine (place_distance hpos hreach _ _).bind_last ?_
      exact (check (decide_eq_true hback)).bind_nil (pure _ _)

/-- The end of a block is read back. -/
theorem Reads.blockEnd (hsymbols : codes.symbols.IsCode) (hcovers : codes.symbols.Covers endSymbol)
    (known count : Nat) :
    Reads (readToken codes.books known) count (codes.symbols.codeword endSymbol) none := by
  refine (symbol hsymbols hcovers count _).bind_last ?_
  rw [if_neg (Nat.lt_irrefl _), if_pos rfl]
  exact pure _ _

/-- The tokens of a block are read back one after the other. -/
theorem Reads.tokens {tokens : List Token} (h : Says data n tokens m) (hn : n ≤ data.size)
    (hcodes : codes.CoversAll tokens) {k : Nat} (hk : tokens.length < k) (count : Nat) :
    Reads (readTokens codes.books k (front data n)) count (codes.codewords.tokens tokens)
      (front data m) := by
  induction h generalizing k count with
  | nil n =>
      cases k with
      | zero => exact absurd hk (Nat.not_lt_zero _)
      | succ k =>
          rw [readTokens, size_front hn]
          exact (Reads.blockEnd hcodes.symbols hcodes.endSymbol n count).bind_last (pure _ _)
  | @cons n m t tokens ht hrest ih =>
      cases k with
      | zero => exact absurd hk (Nat.not_lt_zero _)
      | succ k =>
          have hcovers := hcodes.tokens t List.mem_cons_self
          rw [readTokens, size_front hn, Codewords.tokens, List.flatMap_cons, List.append_assoc]
          refine (token ht hcodes.symbols hcodes.distances hcovers count).bind ?_
          have hnext := ih ht.le_size hcodes.tail (Nat.lt_of_succ_lt_succ hk)
          rw [← ht.appendTo_front] at hnext
          exact hnext _

/-! ## Blocks in a code -/

/-- Each token takes at least one bit. -/
theorem length_le_length_tokens {tokens : List Token} (h : ∀ t ∈ tokens, codes.Covers t) :
    tokens.length ≤ (tokens.flatMap codes.codewords.token).length := by
  induction tokens with
  | nil => exact Nat.zero_le _
  | cons t tokens ih =>
      have hone : 0 < (codes.codewords.token t).length := by
        have hcovers := h t List.mem_cons_self
        cases t with
        | literal byte =>
            have hne : codes.symbols.codeword byte.toNat ≠ [] := Lengths.Covers.codeword_ne_nil hcovers
            exact List.length_pos_iff.mpr hne
        | copy length distance =>
            have hpos := List.length_pos_iff.mpr hcovers.1.codeword_ne_nil
            rw [Codewords.token]
            simp only [List.length_append]
            exact Nat.lt_of_lt_of_le hpos (by simp only [Nat.add_assoc]; exact Nat.le_add_right _ _)
      rw [List.flatMap_cons, List.length_append, List.length_cons]
      have hrest := ih fun u hu => h u (List.mem_cons_of_mem t hu)
      omega

/-- The bytes of a block in a code are read back. The end of the block is found before the bits run
out. -/
theorem Reads.coded {tokens : List Token} (h : Says data n tokens m) (hn : n ≤ data.size)
    (hcodes : codes.CoversAll tokens) (count : Nat) :
    Reads (readCoded codes.books (front data n)) count (codes.codewords.tokens tokens)
      (front data m) := by
  refine get fun rest => ?_
  have hlength := length_le_length_tokens hcodes.tokens
  refine Reads.tokens h hn hcodes ?_ count
  rw [List.length_append, Codewords.tokens, List.length_append]
  omega

/-! ## The fixed code -/

theorem isComplete_fixed :
    CodePair.fixed.symbols.isComplete = true ∧ CodePair.fixed.distances.isComplete = true := by
  decide +kernel

theorem covers_fixed {s : Nat} (h : s < 288) : CodePair.fixed.symbols.Covers s := by
  have hall : ∀ l ∈ CodePair.fixed.symbols, l ≠ 0 := by decide +kernel
  have hlength : CodePair.fixed.symbols.length = 288 := by decide +kernel
  have hs : s < CodePair.fixed.symbols.length := hlength ▸ h
  rw [Lengths.Covers, List.getD_eq_getElem?_getD, List.getElem?_eq_getElem hs, Option.getD_some]
  exact hall _ (List.getElem_mem hs)

theorem covers_fixed_distances {s : Nat} (h : s < 32) : CodePair.fixed.distances.Covers s := by
  rw [Lengths.Covers, CodePair.fixed, List.getD_eq_getElem?_getD, List.getElem?_replicate, if_pos h]
  exact Nat.succ_ne_zero 4

/-- The fixed code has codewords for all tokens. -/
theorem coversAll_fixed (tokens : List Token) : CodePair.fixed.CoversAll tokens := by
  refine ⟨Lengths.isCode_of_isComplete isComplete_fixed.1,
    Lengths.isCode_of_isComplete isComplete_fixed.2, covers_fixed (by decide), fun t _ => ?_⟩
  cases t with
  | literal byte => exact covers_fixed (Nat.lt_trans byte.toNat_lt (by decide))
  | copy length distance =>
      have hindex := lengthPlace_index_lt length
      have hdistance := distancePlace_index_lt distance
      refine ⟨covers_fixed ?_, covers_fixed_distances (by omega)⟩
      rw [lengthSymbol]
      show 256 + 1 + _ < 288
      omega

end WasmEmbed.Payload.Deflate
