import Mathlib.Algebra.Ring.Nat
import WasmEmbed.Proofs.Payload.Deflate.Reader

/-!
# Codewords are read back

The numbers of the codewords of one length are counted up, and they begin where the codewords that are
shorter leave off. If the codewords of all lengths fit together (`Lengths.IsCode`), no codeword begins
another one (`apart_word`), so a codebook that got all of them still finds each (`find_insertAll`), and a
symbol is read back from its codeword (`Reads.symbol`).
-/

namespace WasmEmbed.Payload.Deflate

/-! ## Words

Codewords are words of bits, most significant bit first. That neither of two words begins the other is all
that a codebook needs of them.
-/

/-- Neither string of bits begins the other. -/
def Apart (v w : Bits) : Prop := ¬ v <+: w ∧ ¬ w <+: v

/-- Being apart is mutual. -/
theorem Apart.symm {v w : Bits} (h : Apart v w) : Apart w v := ⟨h.2, h.1⟩

theorem Apart.tail {b : Bool} {v w : Bits} (h : Apart (b :: v) (b :: w)) : Apart v w :=
  ⟨fun hp => h.1 (List.cons_prefix_cons.mpr ⟨rfl, hp⟩),
    fun hp => h.2 (List.cons_prefix_cons.mpr ⟨rfl, hp⟩)⟩

theorem Apart.ne_nil {v w : Bits} (h : Apart v w) : v ≠ [] := by
  rintro rfl
  exact h.1 List.nil_prefix

/-- The bits of least weight come first. -/
theorem ofNat_add (k l value : Nat) :
    Bits.ofNat (k + l) value = Bits.ofNat k value ++ Bits.ofNat l (value / 2 ^ k) := by
  induction k generalizing value with
  | zero => simp [Bits.ofNat]
  | succ k ih =>
      rw [Nat.add_right_comm, Bits.ofNat, ih, Bits.ofNat, Nat.div_div_eq_div_mul, Nat.pow_succ,
        Nat.mul_comm 2]
      rfl

namespace Lengths

/-- A word has as many bits as it was asked for. -/
@[simp] theorem length_word (length number : Nat) : (word length number).length = length := by
  rw [word, List.length_reverse, Bits.length_ofNat]

/-- A word is the front of its number, followed by the rest. -/
theorem word_add (l k number : Nat) :
    word (l + k) number = word l (number / 2 ^ k) ++ word k number := by
  rw [word, Nat.add_comm, ofNat_add, List.reverse_append]
  rfl

/-- Numbers that fit are told apart by their words. -/
theorem word_injective {length m n : Nat} (hm : m < 2 ^ length) (hn : n < 2 ^ length)
    (h : word length m = word length n) : m = n :=
  Bits.ofNat_injective hm hn (List.reverse_inj.mp h)

/-- A word begins a longer one only if it is the front of its number. -/
theorem eq_div_of_word_prefix {l k m n : Nat} (hm : m < 2 ^ l) (hn : n < 2 ^ (l + k))
    (h : word l m <+: word (l + k) n) : m = n / 2 ^ k := by
  have hdiv : n / 2 ^ k < 2 ^ l := by
    rw [Nat.div_lt_iff_lt_mul (Nat.two_pow_pos k), ← Nat.pow_add]
    exact hn
  rw [word_add] at h
  have hsame : word l m = word l (n / 2 ^ k) :=
    (List.prefix_of_prefix_length_le h (List.prefix_append _ _) (by simp)).eq_of_length (by simp)
  exact word_injective hm hdiv hsame

/-! ## Numbers of codewords

The number of a codeword is that of the first one of its length and how many of this length come before
it. The first number is the room that shorter codewords take, in words of the length.
-/

/-- The number of the first codeword of some length. -/
def first (all : Lengths) (length : Nat) : Nat := number all [] length

theorem first_nil (length : Nat) : first [] length = 0 := rfl

/-- A codeword that is shorter takes the room of all words of the length that it begins. -/
theorem first_cons (l : Nat) (all : Lengths) (length : Nat) :
    first (l :: all) length =
      (if 0 < l ∧ l < length then 2 ^ (length - l) else 0) + first all length := by
  simp only [first, number, List.foldr_cons, List.count_nil, Nat.one_shiftLeft, Bool.and_eq_true,
    decide_eq_true_eq]

/-- Codewords of one length are counted up. -/
theorem number_eq (all before : Lengths) (length : Nat) :
    number all before length = first all length + before.count length := by
  induction all with
  | nil => exact (Nat.zero_add _).symm
  | cons l all ih =>
      rw [first_cons, Nat.add_assoc, ← ih]
      simp only [number, List.foldr_cons, Nat.one_shiftLeft, Bool.and_eq_true, decide_eq_true_eq]

/-- The codewords of some length leave room for the longer ones. -/
theorem first_add_count_mul_le (all : Lengths) {l k : Nat} (hl : 0 < l) (hk : 0 < k) :
    (first all l + all.count l) * 2 ^ k ≤ first all (l + k) := by
  induction all with
  | nil => simp [first_nil]
  | cons m all ih =>
      -- What one length takes up among the words of `l` bits, it takes up among the longer ones.
      have hone : ((if 0 < m ∧ m < l then 2 ^ (l - m) else 0) + if m = l then 1 else 0) * 2 ^ k ≤
          if 0 < m ∧ m < l + k then 2 ^ (l + k - m) else 0 := by
        by_cases hlt : 0 < m ∧ m < l
        · rw [if_pos hlt, if_neg (by omega), if_pos (by omega), Nat.add_zero, ← Nat.pow_add]
          exact Nat.le_of_eq (congrArg (2 ^ ·) (by omega))
        · by_cases heq : m = l
          · subst heq
            rw [if_neg hlt, if_pos rfl, if_pos (by omega), Nat.zero_add, Nat.one_mul,
              Nat.add_sub_cancel_left]
          · rw [if_neg hlt, if_neg heq]
            simp
      have hcount : (m :: all).count l = all.count l + if m = l then 1 else 0 := by
        rw [List.count_cons]
        simp only [beq_iff_eq]
      rw [first_cons, first_cons, hcount]
      calc _ = ((if 0 < m ∧ m < l then 2 ^ (l - m) else 0) + if m = l then 1 else 0) * 2 ^ k +
            (first all l + all.count l) * 2 ^ k := by rw [← Nat.add_mul]; congr 1; omega
        _ ≤ _ := Nat.add_le_add hone ih

/-! ## Codes

The shares of all codewords add up to the whole room at most. For each length this bounds the numbers of
the codewords, so that they can be written with as many bits.
-/

/-- The codewords are not too long, and they do not take up more than there is. -/
structure IsCode (lengths : Lengths) : Prop where
  le_max : ∀ l ∈ lengths, l ≤ maxCodeLength
  total_le : lengths.total ≤ 2 ^ maxCodeLength

/-- A complete code takes the whole room and no more. -/
theorem isCode_of_isComplete {lengths : Lengths} (h : lengths.isComplete = true) :
    lengths.IsCode := by
  rw [isComplete, Bool.and_eq_true, List.all_eq_true, beq_iff_eq, Nat.one_shiftLeft] at h
  exact ⟨fun l hl => of_decide_eq_true (h.1 l hl), Nat.le_of_eq h.2⟩

theorem total_cons (l : Nat) (lengths : Lengths) :
    total (l :: lengths) = share l + lengths.total := rfl

/-- The total counts words that are one bit longer than the longest codewords, in pairs. -/
theorem first_max {lengths : Lengths} (h : ∀ l ∈ lengths, l ≤ maxCodeLength) :
    first lengths (maxCodeLength + 1) = 2 * lengths.total := by
  induction lengths with
  | nil => rfl
  | cons l lengths ih =>
      have hl : l ≤ maxCodeLength := h l List.mem_cons_self
      rw [first_cons, total_cons, ih fun m hm => h m (List.mem_cons_of_mem l hm), Nat.mul_add, share]
      congr 1
      by_cases hzero : l = 0
      · rw [if_neg (by omega), if_pos hzero]
      · rw [if_pos (by omega), if_neg hzero, Nat.one_shiftLeft, ← Nat.pow_succ',
          Nat.succ_sub hl]

/-- All codewords of some length are that long. -/
theorem IsCode.first_add_count_le {lengths : Lengths} (h : lengths.IsCode) {l : Nat} (hl : 0 < l)
    (hmax : l ≤ maxCodeLength) : first lengths l + lengths.count l ≤ 2 ^ l := by
  obtain ⟨k, hk⟩ : ∃ k, maxCodeLength + 1 = l + (k + 1) := ⟨maxCodeLength - l, by omega⟩
  have hroom := first_add_count_mul_le lengths hl (Nat.succ_pos k)
  rw [← hk, first_max h.le_max] at hroom
  have htotal : 2 * lengths.total ≤ 2 ^ l * 2 ^ (k + 1) := by
    rw [← Nat.pow_add, ← hk, Nat.pow_succ']
    exact Nat.mul_le_mul_left 2 h.total_le
  exact Nat.le_of_mul_le_mul_right (Nat.le_trans hroom htotal) (Nat.two_pow_pos _)

/-- The number of a codeword fits into its bits. -/
theorem IsCode.first_add_lt {lengths : Lengths} (h : lengths.IsCode) {l c : Nat} (hl : 0 < l)
    (hmax : l ≤ maxCodeLength) (hc : c < lengths.count l) : first lengths l + c < 2 ^ l :=
  Nat.lt_of_lt_of_le (Nat.add_lt_add_left hc _) (h.first_add_count_le hl hmax)

/-- The longer codewords have numbers behind all numbers that a shorter codeword begins. -/
theorem IsCode.not_prefix {lengths : Lengths} (h : lengths.IsCode) {l m c d : Nat} (hl : 0 < l)
    (hlt : l < m) (hmax : m ≤ maxCodeLength) (hc : c < lengths.count l) (hd : d < lengths.count m) :
    ¬ word l (first lengths l + c) <+: word m (first lengths m + d) := by
  intro hp
  obtain ⟨k, rfl⟩ := Nat.exists_eq_add_of_lt hlt
  have hdiv := eq_div_of_word_prefix (k := k + 1) (h.first_add_lt hl (by omega) hc)
    (h.first_add_lt (by omega) hmax hd) hp
  have hend : first lengths (l + (k + 1)) + d < (first lengths l + c + 1) * 2 ^ (k + 1) := by
    rw [hdiv, Nat.mul_comm]
    exact Nat.lt_mul_div_succ _ (Nat.two_pow_pos _)
  have hnext : (first lengths l + c + 1) * 2 ^ (k + 1) ≤ first lengths (l + (k + 1)) :=
    Nat.le_trans (Nat.mul_le_mul_right _ (by omega))
      (first_add_count_mul_le lengths hl (Nat.succ_pos k))
  omega

/-- The codewords of two symbols lie apart. -/
theorem IsCode.apart_word {lengths : Lengths} (h : lengths.IsCode) {l m c d : Nat} (hl : 0 < l)
    (hm : 0 < m) (hc : c < lengths.count l) (hd : d < lengths.count m) (hne : l = m → c ≠ d) :
    Apart (word l (first lengths l + c)) (word m (first lengths m + d)) := by
  have hlmax : l ≤ maxCodeLength :=
    h.le_max l (List.count_pos_iff.mp (Nat.lt_of_le_of_lt (Nat.zero_le c) hc))
  have hmmax : m ≤ maxCodeLength :=
    h.le_max m (List.count_pos_iff.mp (Nat.lt_of_le_of_lt (Nat.zero_le d) hd))
  -- A longer word begins no shorter one; between words of one length the numbers decide.
  have hlonger : ∀ {a b u v : Nat}, a < b → ¬ word b u <+: word a v := by
    intro a b u v hab hp
    have hlen := hp.length_le
    rw [length_word, length_word] at hlen
    omega
  rcases Nat.lt_trichotomy l m with hlt | rfl | hgt
  · exact ⟨h.not_prefix hl hlt hmmax hc hd, hlonger hlt⟩
  · have hnum : first lengths l + c ≠ first lengths l + d := fun heq => hne rfl (Nat.add_left_cancel heq)
    have hcl := h.first_add_lt hl hlmax hc
    have hdl := h.first_add_lt hl hlmax hd
    exact ⟨fun hp => hnum (word_injective hcl hdl (hp.eq_of_length (by simp))),
      fun hp => hnum (word_injective hdl hcl (hp.eq_of_length (by simp))).symm⟩
  · exact ⟨hlonger hgt, h.not_prefix hm hgt hlmax hd hc⟩

/-! ## The codewords of a code

The codewords are listed symbol by symbol. Those of two symbols are words of two lengths or two words of
one length, and neither begins the other.
-/

theorem length_codewordsFrom (all before rest : Lengths) :
    (codewordsFrom all before rest).length = rest.length := by
  induction rest generalizing before with
  | nil => rfl
  | cons l rest ih => rw [codewordsFrom, List.length_cons, List.length_cons, ih]

@[simp] theorem length_codewords (lengths : Lengths) : lengths.codewords.length = lengths.length :=
  length_codewordsFrom lengths [] lengths

/-- The codeword of a symbol has the length of the symbol and the number among those before. -/
theorem getElem?_codewordsFrom (all before rest : Lengths) (s : Nat) :
    (codewordsFrom all before rest)[s]? =
      rest[s]?.map fun l => word l (number all (before ++ rest.take s) l) := by
  induction rest generalizing before s with
  | nil => rfl
  | cons l rest ih =>
      rw [codewordsFrom]
      cases s with
      | zero => simp
      | succ s => simp [ih, List.append_assoc]

/-- The codeword of a symbol. -/
theorem getElem?_codewords (lengths : Lengths) (s : Nat) :
    lengths.codewords[s]? = lengths[s]?.map fun l => word l (number lengths (lengths.take s) l) := by
  rw [codewords, getElem?_codewordsFrom, List.nil_append]

/-- Only symbols of length zero have no codeword, and all others have codewords that lie apart. -/
theorem IsCode.pairwise_codewords {lengths : Lengths} (h : lengths.IsCode) :
    lengths.codewords.Pairwise fun v w => v ≠ [] → w ≠ [] → Apart v w := by
  rw [List.pairwise_iff_getElem]
  intro i j hi hj hij
  have hword : ∀ s (hs : s < lengths.length) (hw : s < lengths.codewords.length),
      lengths.codewords[s] =
        word lengths[s] (first lengths lengths[s] + (lengths.take s).count lengths[s]) := by
    intro s hs hw
    have hget := getElem?_codewords lengths s
    rw [List.getElem?_eq_getElem hs, List.getElem?_eq_getElem hw, Option.map_some, number_eq] at hget
    exact Option.some.inj hget
  -- Symbols of one length are numbered in their order, so their numbers differ.
  have hcount : ∀ s (hs : s < lengths.length),
      (lengths.take s).count lengths[s] < (lengths.take (s + 1)).count lengths[s] := by
    intro s hs
    rw [List.take_succ_eq_append_getElem hs, List.count_append, List.count_singleton_self]
    omega
  have hbelow : ∀ s (hs : s < lengths.length),
      (lengths.take s).count lengths[s] < lengths.count lengths[s] := fun s hs =>
    Nat.lt_of_lt_of_le (hcount s hs) ((List.take_sublist _ _).count_le _)
  intro hvi hwj
  have hi' : i < lengths.length := by rwa [length_codewords] at hi
  have hj' : j < lengths.length := by rwa [length_codewords] at hj
  rw [hword i hi' hi] at hvi ⊢
  rw [hword j hj' hj] at hwj ⊢
  refine h.apart_word (Nat.pos_of_ne_zero fun hz => hvi ?_) (Nat.pos_of_ne_zero fun hz => hwj ?_)
    (hbelow i hi') (hbelow j hj') fun heq => ?_
  · rw [hz]; rfl
  · rw [hz]; rfl
  · have hmono : (lengths.take (i + 1)).count lengths[i] ≤ (lengths.take j).count lengths[i] :=
      (List.take_sublist_take_left hij).count_le _
    rw [← heq]
    exact Nat.ne_of_lt (Nat.lt_of_lt_of_le (hcount i hi') hmono)

end Lengths

/-! ## Codebooks

A codebook is a tree, and inserting a word changes it only below the word. A word that is apart from those
inserted later is still found.
-/

namespace Codebook

/-- The symbol that a codebook finds for a whole codeword. -/
def find : Codebook → Bits → Option Nat
  | symbol s, [] => some s
  | fork zero one, b :: bits => find (if b then one else zero) bits
  | _, _ => none

/-- In an empty codebook nothing is found. -/
theorem find_vacant (bits : Bits) : find vacant bits = none := by cases bits <;> rfl

/-- A codeword that was added is found. -/
theorem find_insert_self (s : Nat) (w : Bits) (book : Codebook) : find (book.insert s w) w = some s := by
  induction w generalizing book with
  | nil => rw [insert, find]
  | cons b w ih => cases book <;> cases b <;> simp [insert, find, ih]

/-- A codeword that lies apart from it is found or not as before. -/
theorem find_insert_of_apart {s : Nat} {w v : Bits} (h : Apart w v) (book : Codebook) :
    find (book.insert s w) v = find book v := by
  induction w generalizing v book with
  | nil => exact absurd rfl h.ne_nil
  | cons b w ih =>
      cases v with
      | nil => exact absurd rfl h.symm.ne_nil
      | cons c v =>
          by_cases hbc : b = c
          · subst hbc
            have htail := ih h.tail
            cases book <;> cases b <;> simp [insert, find, htail, find_vacant]
          · cases book <;> cases b <;> cases c <;> simp_all [insert, find, find_vacant]

/-- Words that are apart from a word do not change what is found for it. -/
theorem find_insertAll_of_apart {v : Bits} {words : List Bits}
    (h : ∀ w ∈ words, w ≠ [] → Apart w v) (book : Codebook) (s : Nat) :
    find (book.insertAll s words) v = find book v := by
  induction words generalizing book s with
  | nil => rfl
  | cons w words ih =>
      rw [insertAll, ih fun u hu => h u (List.mem_cons_of_mem w hu)]
      cases w with
      | nil => rfl
      | cons b w =>
          exact find_insert_of_apart (h (b :: w) List.mem_cons_self (List.cons_ne_nil b w)) book

/-- Codewords that lie apart are all found after they were added. -/
theorem find_insertAll {words : List Bits}
    (h : words.Pairwise fun v w => v ≠ [] → w ≠ [] → Apart v w) {i : Nat} {w : Bits}
    (hw : words[i]? = some w) (hne : w ≠ []) (book : Codebook) (s : Nat) :
    find (book.insertAll s words) w = some (s + i) := by
  induction words generalizing book s i with
  | nil => exact nomatch hw
  | cons v words ih =>
      obtain ⟨hfirst, hrest⟩ := List.pairwise_cons.mp h
      rw [insertAll]
      cases i with
      | zero =>
          obtain rfl : v = w := Option.some.inj hw
          rw [find_insertAll_of_apart fun u hu hu' => (hfirst u hu hne hu').symm,
            if_neg (by simpa using hne), find_insert_self, Nat.add_zero]
      | succ i =>
          rw [ih hrest hw, Nat.add_right_comm, Nat.add_assoc]

end Codebook

/-! ## Reading symbols

A symbol is read by a walk down the codebook. The codeword that is written is the path to the symbol.
-/

/-- What is found for a word is read from it, by induction on the codebook. -/
theorem Reads.symbol? {book : Codebook} {bits : Bits} {s : Nat} (count : Nat)
    (h : book.find bits = some s) : Reads (BitReader.symbol? book) count bits (some s) := by
  induction bits generalizing book count with
  | nil =>
      cases book with
      | symbol t =>
          obtain rfl : t = s := Option.some.inj h
          exact pure count (some t)
      | vacant => exact nomatch h
      | fork zero one => exact nomatch h
  | cons b bits ih =>
      cases book with
      | symbol t => exact nomatch h
      | vacant => exact nomatch h
      | fork zero one =>
          rw [BitReader.symbol?]
          refine (bit count b).bind ?_
          cases b
          · exact ih _ h
          · exact ih _ h

/-- The codeword that a code has for a symbol. -/
def Lengths.codeword (lengths : Lengths) (s : Nat) : Bits := lengths.codewords.toArray.getD s []

/-- The code has a codeword for the symbol. -/
def Lengths.Covers (lengths : Lengths) (s : Nat) : Prop := lengths.getD s 0 ≠ 0

/-- A symbol with a codeword is one of the list. -/
theorem Lengths.Covers.lt_length {lengths : Lengths} {s : Nat} (h : lengths.Covers s) :
    s < lengths.length := by
  rcases Nat.lt_or_ge s lengths.length with hlt | hge
  · exact hlt
  · rw [Covers, List.getD_eq_getElem?_getD, List.getElem?_eq_none hge] at h
    exact absurd rfl h

/-- The codeword of a symbol is a word as long as the code says. -/
theorem Lengths.codeword_eq {lengths : Lengths} {s : Nat} (h : s < lengths.length) :
    lengths.codeword s =
      word (lengths.getD s 0) (number lengths (lengths.take s) (lengths.getD s 0)) := by
  rw [codeword, Array.getD_eq_getD_getElem?, List.getElem?_toArray, getElem?_codewords,
    List.getD_eq_getElem?_getD, List.getElem?_eq_getElem h, Option.map_some, Option.getD_some,
    Option.getD_some]

/-- A codeword is not empty. -/
theorem Lengths.Covers.codeword_ne_nil {lengths : Lengths} {s : Nat} (h : lengths.Covers s) :
    lengths.codeword s ≠ [] := by
  refine List.ne_nil_of_length_pos ?_
  rw [codeword_eq h.lt_length, length_word]
  exact Nat.pos_of_ne_zero h

/-- A symbol is found under its codeword. -/
theorem Lengths.IsCode.find_codeword {lengths : Lengths} (h : lengths.IsCode) {s : Nat}
    (hs : lengths.Covers s) : (Codebook.ofLengths lengths).find (lengths.codeword s) = some s := by
  have hget : lengths.codewords[s]? = some (lengths.codeword s) := by
    have hlt : s < lengths.codewords.length := by
      rw [length_codewords]
      exact hs.lt_length
    rw [codeword, Array.getD_eq_getD_getElem?, List.getElem?_toArray,
      List.getElem?_eq_getElem hlt, Option.getD_some]
  rw [Codebook.ofLengths, Codebook.find_insertAll h.pairwise_codewords hget hs.codeword_ne_nil,
    Nat.zero_add]

/-- A symbol is read back from its codeword. -/
theorem Reads.symbol {lengths : Lengths} (h : lengths.IsCode) {s : Nat} (hs : lengths.Covers s)
    (count : Nat) (fault : Fault) :
    Reads (BitReader.symbol (.ofLengths lengths) fault) count (lengths.codeword s) s := by
  rw [BitReader.symbol]
  exact (Reads.symbol? count (h.find_codeword hs)).bind_last (pure _ s)

end WasmEmbed.Payload.Deflate
