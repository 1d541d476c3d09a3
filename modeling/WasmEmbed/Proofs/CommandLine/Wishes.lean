import WasmEmbed.CommandLine.Invocation

/-!
# Wishes for more or fewer notices

A command line may hold any number of switches that wish for more or for fewer notices, in words of their own
or together with other short switches. Lines that differ in their wishes alone (`AlikeButWishes`) ask for the
same: they stop for the same reason, or they have the same request (`AlikeButWishes.parse`).

A wish must not stand between a switch and its value, since it would be taken for a missing value there.
Behind the separator no word is a wish.
-/

namespace WasmEmbed.CommandLine

variable {α β ε : Type}

/-! ## Answers that correspond

Two answers correspond if both are the same error or both are values in a relation. The parsers are put
together from parts that answer so, and the rules follow them.
-/

/-- Two answers are the same error, or they are related. -/
inductive Corresponds (r : α → α → Prop) : Except ε α → Except ε α → Prop
  | error (e : ε) : Corresponds r (.error e) (.error e)
  | ok {a b : α} (h : r a b) : Corresponds r (.ok a) (.ok b)

namespace Corresponds

variable {r : α → α → Prop} {q : β → β → Prop} {x y z : Except ε α}

/-- The rule for two parts one after the other. -/
theorem bind {f g : α → Except ε β} (h : Corresponds r x y) (hf : ∀ a b, r a b → Corresponds q (f a) (g b)) :
    Corresponds q (x >>= f) (y >>= g) := by
  cases h with
  | error e => exact .error e
  | ok h => exact hf _ _ h

/-- The rule for an answer that is changed on both sides. -/
theorem map {f g : α → β} (h : Corresponds r x y)
    (hf : ∀ a b, x = .ok a → y = .ok b → r a b → q (f a) (g b)) :
    Corresponds q (x.map f) (y.map g) := by
  cases h with
  | error e => exact .error e
  | ok h => exact .ok (hf _ _ rfl rfl h)

theorem map_left {f : α → α} (h : Corresponds r x y) (hf : ∀ a b, r a b → r (f a) b) :
    Corresponds r (x.map f) y := by
  cases h with
  | error e => exact .error e
  | ok h => exact .ok (hf _ _ h)

/-- The rule for errors that are changed in the same way. -/
theorem mapError {δ : Type} (f : ε → δ) (h : Corresponds r x y) :
    Corresponds r (x.mapError f) (y.mapError f) := by
  cases h with
  | error e => exact .error (f e)
  | ok h => exact .ok h

theorem cases (h : Corresponds r x y) :
    (∃ e, x = .error e ∧ y = .error e) ∨ ∃ a b, x = .ok a ∧ y = .ok b ∧ r a b := by
  cases h with
  | error e => exact Or.inl ⟨e, rfl, rfl⟩
  | ok h => exact Or.inr ⟨_, _, rfl, rfl, h⟩

theorem symm (hr : ∀ a b, r a b → r b a) (h : Corresponds r x y) : Corresponds r y x := by
  cases h with
  | error e => exact .error e
  | ok h => exact .ok (hr _ _ h)

/-- Answers that correspond to a third one correspond. -/
theorem trans (hr : ∀ a b c, r a b → r b c → r a c) (h : Corresponds r x y) (h' : Corresponds r y z) :
    Corresponds r x z := by
  cases h with
  | error e => exact h'
  | ok h => cases h' with
    | ok h' => exact .ok (hr _ _ _ h h')

end Corresponds

/-! ## Switches that wish

A cluster of short switches may hold wishes among other switches. Without its wishes it takes the same
switches and leaves the same open.
-/

/-- Whether a switch does no more than to wish for more or fewer notices. -/
def Switch.isWish : Switch → Bool
  | verbose => true
  | quiet => true
  | _ => false

/-- The switches of a word that ask for something. -/
def Cluster.asked (c : Cluster) : List (Switch × List Char) := c.taken.filter fun p => !p.1.isWish

/-- Two invocations ask for the same. -/
def Invocation.Alike (i j : Invocation) : Prop := i.request = j.request

/-- A switch does the same to requests that are alike. -/
theorem Invocation.Alike.take {i j : Invocation} (h : i.Alike j) (s : Switch) (value : List Char) :
    Corresponds Alike (i.take s value) (j.take s value) := by
  obtain ⟨request, verbose, quiet⟩ := i
  obtain ⟨request', verbose', quiet'⟩ := j
  obtain rfl : request = request' := h
  cases s with
  | maxShardChars =>
      simp only [Invocation.take]
      cases Text.integer? value with
      | none => exact .error _
      | some n => exact .ok rfl
  | _ => exact .ok rfl

/-- Wishes make no difference to what is asked for. -/
theorem Invocation.Alike.takeAll_filter (scope : Scope) {i j : Invocation} (h : i.Alike j)
    (taken : List (Switch × List Char)) :
    Corresponds Alike (i.takeAll scope taken) (j.takeAll scope (taken.filter fun p => !p.1.isWish)) := by
  induction taken generalizing i j with
  | nil => exact .ok h
  | cons p rest ih =>
      obtain ⟨s, value⟩ := p
      -- A wish changes only what is not compared.
      cases hwish : s.isWish with
      | true =>
          rw [List.filter_cons_of_neg (by simp [hwish])]
          cases s with
          | verbose => exact ih h
          | quiet => exact ih h
          | _ => cases hwish
      | false =>
          rw [List.filter_cons_of_pos (by simp [hwish]), Invocation.takeAll, Invocation.takeAll]
          split
          · exact .error _
          · generalize i.take s value = x, j.take s value = y, h.take s value = hxy
            cases hxy with
            | error e => exact .error _
            | ok h => exact ih h

/-- Switches do the same to requests that are alike, if without the wishes they are the same switches. -/
theorem Invocation.Alike.takeAll (scope : Scope) {i j : Invocation} (h : i.Alike j)
    {taken taken' : List (Switch × List Char)}
    (htaken : (taken.filter fun p => !p.1.isWish) = taken'.filter fun p => !p.1.isWish) :
    Corresponds Alike (i.takeAll scope taken) (j.takeAll scope taken') := by
  have hsame : j.Alike j := rfl
  have hback := hsame.takeAll_filter scope taken'
  rw [← htaken] at hback
  exact (h.takeAll_filter scope taken).trans (fun _ _ _ => Eq.trans) (hback.symm fun _ _ => Eq.symm)

/-! ## Lines that are alike

The relation is inductive, with one rule for each way in which a word is read. Its induction principle is
what the lemmas about the parsers go by.
-/

/-- A word is read as these switches. -/
def Reads (text : List Char) (c : Cluster) : Prop :=
  ∃ s isShort attached, Word.ofText .bundle text = .ok (.switch s isShort attached) ∧
    cluster .bundle text.length s isShort attached = .ok c

/-- No value stands in front of these words. -/
def NoValue (words : List (List Char)) : Prop :=
  ∀ text rest, words = text :: rest → Word.ofText .bundle text ≠ .ok .plain

/-- Two lines of words are alike but for wishes. -/
inductive AlikeButWishes : List (List Char) → List (List Char) → Prop
  | nil : AlikeButWishes [] []
  /-- Nothing behind the separator is a wish. -/
  | separator (rest : List (List Char)) : AlikeButWishes (['-', '-'] :: rest) (['-', '-'] :: rest)
  /-- A word that holds no switches is the same in both. -/
  | other {text : List Char} {ws ws' : List (List Char)} (htext : text ≠ ['-', '-'])
    (hreads : ∀ c, ¬ Reads text c)
      (h : AlikeButWishes ws ws') : AlikeButWishes (text :: ws) (text :: ws')
  /-- Words of switches may differ in wishes. -/
  | switches {text text' : List Char} {c c' : Cluster} {ws ws' : List (List Char)} (hreads : Reads text c)
      (hreads' : Reads text' c') (hopen : c.open? = none) (hopen' : c'.open? = none)
        (hrest : c.rest? = c'.rest?)
      (hasked : c.asked = c'.asked) (h : AlikeButWishes ws ws') : AlikeButWishes (text :: ws) (text' :: ws')
  /-- So may words of switches the last of which takes the next word for its value. -/
  | value {text text' value : List Char} {c c' : Cluster} {s : Switch} {ws ws' : List (List Char)}
      (hreads : Reads text c) (hreads' : Reads text' c') (hopen : c.open? = some s)
        (hopen' : c'.open? = some s)
      (hrest : c.rest? = c'.rest?) (hasked : c.asked = c'.asked)
      (hvalue : Word.ofText .bundle value = .ok .plain) (h : AlikeButWishes ws ws') :
      AlikeButWishes (text :: value :: ws) (text' :: value :: ws')
  /-- The value may be missing in both. -/
  | missing {text text' : List Char} {c c' : Cluster} {s : Switch} {ws ws' : List (List Char)}
      (hreads : Reads text c) (hreads' : Reads text' c') (hopen : c.open? = some s)
        (hopen' : c'.open? = some s)
      (hnone : NoValue ws) (hnone' : NoValue ws') (h : AlikeButWishes ws ws') :
      AlikeButWishes (text :: ws) (text' :: ws')
  /-- The first line may have another word of wishes. -/
  | left {text : List Char} {c : Cluster} {ws ws' : List (List Char)} (hreads : Reads text c)
    (hopen : c.open? = none)
      (hrest : c.rest? = none) (hasked : c.asked = []) (h : AlikeButWishes ws ws') : AlikeButWishes
        (text :: ws) ws'
  /-- The second line may have another word of wishes. -/
  | right {text : List Char} {c : Cluster} {ws ws' : List (List Char)} (hreads : Reads text c)
      (hopen : c.open? = none) (hrest : c.rest? = none) (hasked : c.asked = []) (h : AlikeButWishes ws ws') :
      AlikeButWishes ws (text :: ws')

namespace AlikeButWishes

/-- A line is like itself, and so is the line behind its first word, which may be a value. -/
theorem refl_and_tail (ws : List (List Char)) : AlikeButWishes ws ws ∧ AlikeButWishes ws.tail ws.tail := by
  -- A switch may take the next word for its value, so the line behind that word is carried along.
  induction ws with
  | nil => exact ⟨.nil, .nil⟩
  | cons text rest ih =>
      obtain ⟨hrest, hbehind⟩ := ih
      refine ⟨?_, hrest⟩
      by_cases htext : text = ['-', '-']
      · subst htext
        exact .separator rest
      by_cases hreads : ∃ c, Reads text c
      · obtain ⟨c, hreads⟩ := hreads
        cases hopen : c.open? with
        | none => exact .switches hreads hreads hopen hopen rfl rfl hrest
        | some s =>
            by_cases hvalue : ∃ value behind, rest = value :: behind ∧ Word.ofText .bundle value = .ok .plain
            · obtain ⟨value, behind, rfl, hvalue⟩ := hvalue
              exact .value hreads hreads hopen hopen rfl rfl hvalue hbehind
            · have hnone : NoValue rest := fun value behind hcons h => hvalue ⟨value, behind, hcons, h⟩
              exact .missing hreads hreads hopen hopen hnone hnone hrest
      · exact .other htext (fun c h => hreads ⟨c, h⟩) hrest

theorem refl (ws : List (List Char)) : AlikeButWishes ws ws := (refl_and_tail ws).1

end AlikeButWishes

/-! ## Taking the words of the command

The parser has a bound on the words. A line and one that is alike may have different numbers of words, so
the bounds are free on both sides.
-/

/-- Two parsed lines ask for the same and leave the same words over. -/
def Parsed.Alike (p q : Parsed) : Prop := p.invocation.Alike q.invocation ∧ p.left = q.left

theorem Parsed.Alike.leave {p q : Parsed} (h : p.Alike q) (words : List (List Char)) :
    Parsed.Alike { p with left := p.left ++ words } { q with left := q.left ++ words } :=
  ⟨h.1, by rw [h.2]⟩

/-- Two lines are taken alike, however much fuel there is beyond one step for each word. -/
def TakenAlike (line line' : List (List Char × Word)) : Prop :=
  ∀ k k' p p', line.length ≤ k → line'.length ≤ k' → p.Alike p' →
    Corresponds Parsed.Alike (takeWords k p line) (takeWords k' p' line')

/-- Fuel for a line is a step for its first word and fuel for the rest. -/
theorem exists_fuel {first : List Char × Word} {line : List (List Char × Word)} {k : Nat}
    (hk : (first :: line).length ≤ k) : ∃ j, k = j + 1 ∧ line.length ≤ j := by
  cases k with
  | zero => simp at hk
  | succ j => exact ⟨j, rfl, by simpa using hk⟩

/-- At the end of a line nothing is taken. -/
theorem takeWords_nil (k : Nat) (p : Parsed) : takeWords k p [] = .ok p := by
  cases k with
  | zero => rfl
  | succ k => rfl

/-- Behind the separator all words are left over. -/
theorem takeWords_plain {k : Nat} (p : Parsed) {words : List (List Char)} (hk : words.length ≤ k) :
    takeWords k p (words.map fun w => (w, .plain)) = .ok { p with left := p.left ++ words } := by
  induction words generalizing k p with
  | nil => rw [List.map_nil, takeWords_nil, List.append_nil]
  | cons w words ih =>
      cases k with
      | zero => simp at hk
      | succ k =>
          rw [List.map_cons, takeWords, ih _ (by simpa using hk)]
          · simp
          · simp

/-- A word with switches takes them, with the value of the last one if it needs one. -/
theorem takeWords_switch {k : Nat} (p : Parsed) {text : List Char} {s : Switch} {isShort : Bool}
    {attached : Option Attached} {c : Cluster} (h : cluster .bundle text.length s isShort attached = .ok c)
    (rest : List (List Char × Word)) :
    takeWords (k + 1) p ((text, .switch s isShort attached) :: rest) = (do
      let (taken, behind) ← inBundle (close c rest)
      let i ← p.invocation.takeAll .bundle taken
      takeWords k ⟨i, p.left ++ c.rest?.toList⟩ behind) := by
  rw [takeWords, h]
  rfl

/-- No switch is open, so no value is taken. -/
theorem close_of_none {c : Cluster} (h : c.open? = none) (rest : List (List Char × Word)) :
    close c rest = .ok (c.taken, rest) := by
  unfold close
  rw [h]

/-- An open switch takes the plain word behind it. -/
theorem close_of_plain {c : Cluster} {s : Switch} (h : c.open? = some s) (value : List Char)
    (rest : List (List Char × Word)) :
    close c ((value, .plain) :: rest) = .ok (c.taken ++ [(s, value)], rest) := by
  unfold close
  rw [h]

/-- An open switch has no value if no plain word stands behind it. -/
theorem close_of_ne_plain {c : Cluster} {s : Switch} (h : c.open? = some s) {rest : List (List Char × Word)}
    (hrest : ∀ text word behind, rest = (text, word) :: behind → word ≠ .plain) :
    close c rest = .error (.noValue s) := by
  unfold close
  rw [h]
  cases rest with
  | nil => rfl
  | cons p behind =>
      obtain ⟨text, word⟩ := p
      cases word with
      | plain => exact absurd rfl (hrest text .plain behind rfl)
      | _ => rfl

namespace TakenAlike

variable {line line' behind behind' : List (List Char × Word)} {text text' : List Char} {s s' : Switch}
  {isShort isShort' : Bool} {attached attached' : Option Attached} {c c' : Cluster}

theorem symm (h : TakenAlike line line') : TakenAlike line' line := fun k k' p p' hk hk' hp =>
  (h k' k p' p hk' hk ⟨hp.1.symm, hp.2.symm⟩).symm fun _ _ hq => ⟨hq.1.symm, hq.2.symm⟩

/-- A word that holds no switches is left over, or it is wrong. -/
theorem other (word : Word) (hword : ∀ s isShort attached, word = .switch s isShort attached →
    ∃ e, cluster .bundle text.length s isShort attached = .error e) (h : TakenAlike line line') :
    TakenAlike ((text, word) :: line) ((text, word) :: line') := by
  intro k k' p p' hk hk' hp
  obtain ⟨k, rfl, hfuel⟩ := exists_fuel hk
  obtain ⟨k', rfl, hfuel'⟩ := exists_fuel hk'
  have hleft := h k k' _ _ hfuel hfuel' (hp.leave [text])
  cases word with
  | switch s isShort attached =>
      obtain ⟨e, he⟩ := hword s isShort attached rfl
      rw [takeWords, takeWords, he]
      exact .error _
  | separator => exact hleft
  | unknown => exact hleft
  | plain => exact hleft

/-- The switches of two words, with their values, ask for the same. -/
theorem switches (hc : cluster .bundle text.length s isShort attached = .ok c)
    (hc' : cluster .bundle text'.length s' isShort' attached' = .ok c') (hrest : c.rest? = c'.rest?)
    {taken taken' : List (Switch × List Char)} (hclose : close c line = .ok (taken, behind))
    (hclose' : close c' line' = .ok (taken', behind'))
    (htaken : (taken.filter fun p => !p.1.isWish) = taken'.filter fun p => !p.1.isWish)
    (hlength : behind.length ≤ line.length) (hlength' : behind'.length ≤ line'.length)
    (h : TakenAlike behind behind') :
    TakenAlike ((text, .switch s isShort attached) :: line)
      ((text', .switch s' isShort' attached') :: line') := by
  intro k k' p p' hk hk' hp
  obtain ⟨k, rfl, hfuel⟩ := exists_fuel hk
  obtain ⟨k', rfl, hfuel'⟩ := exists_fuel hk'
  rw [takeWords_switch p hc, takeWords_switch p' hc', hclose, hclose']
  refine (hp.1.takeAll .bundle htaken).bind fun i j hij => ?_
  exact h k k' _ _ (by omega) (by omega) ⟨hij, by rw [hp.2, hrest]⟩

/-- A missing value is missed in both. -/
theorem missing (hc : cluster .bundle text.length s isShort attached = .ok c)
    (hc' : cluster .bundle text'.length s' isShort' attached' = .ok c') {e : UsageError}
    (hclose : close c line = .error e) (hclose' : close c' line' = .error e) :
    TakenAlike ((text, .switch s isShort attached) :: line)
      ((text', .switch s' isShort' attached') :: line') := by
  intro k k' p p' hk hk' _
  obtain ⟨k, rfl, hfuel⟩ := exists_fuel hk
  obtain ⟨k', rfl, hfuel'⟩ := exists_fuel hk'
  rw [takeWords_switch p hc, takeWords_switch p' hc', hclose, hclose']
  exact .error _

/-- A word of wishes asks for nothing. -/
theorem left (hc : cluster .bundle text.length s isShort attached = .ok c) (hopen : c.open? = none)
    (hrest : c.rest? = none) (hasked : c.asked = []) (h : TakenAlike line line') :
    TakenAlike ((text, .switch s isShort attached) :: line) line' := by
  intro k k' p p' hk hk' hp
  obtain ⟨k, rfl, hfuel⟩ := exists_fuel hk
  rw [takeWords_switch p hc, close_of_none hopen, hrest]
  have hnone : (c.taken.filter fun p => !p.1.isWish) = [].filter fun p : Switch × List Char =>
      !p.1.isWish := hasked
  rcases (hp.1.takeAll .bundle hnone).cases with ⟨e, -, he⟩ | ⟨i, j, hi, hj, hij⟩
  · cases he
  · obtain rfl := Except.ok.inj hj
    have hleft : p.left ++ (none : Option (List Char)).toList = p'.left := by simp [hp.2]
    have htake := h k k' ⟨i, p.left ++ (none : Option (List Char)).toList⟩ p' hfuel hk' ⟨hij, hleft⟩
    change Corresponds Parsed.Alike (p.invocation.takeAll .bundle c.taken >>= _) _
    rw [hi]
    exact htake

end TakenAlike

/-! ## The lines of the command -/

/-- The words of a line are read one after the other up to the separator. -/
theorem Word.ofLine_cons {t : Table} {text : List Char} (h : text ≠ ['-', '-']) (rest : List (List Char)) :
    ofLine t (text :: rest) = (do
      let word ← ofText t text
      let words ← ofLine t rest
      pure ((text, word) :: words)) := by
  rw [ofLine, if_neg h]

/-- The separator by itself might be any long switch. -/
theorem Word.ne_separator {text : List Char} {word : Word} (h : ofText .bundle text = .ok word) :
    text ≠ ['-', '-'] := by
  rintro rfl
  have hnone : (ofText .bundle ['-', '-']).toOption = none := by decide
  rw [h] at hnone
  cases hnone

/-- A word that is no separator comes in front of the line behind it. -/
theorem Word.ofLine_cons_ok {text : List Char} {word : Word} (h : ofText .bundle text = .ok word)
    (rest : List (List Char)) :
    ofLine .bundle (text :: rest) = (ofLine .bundle rest).map ((text, word) :: ·) := by
  rw [ofLine_cons (ne_separator h), h]
  cases ofLine .bundle rest with
  | error e => rfl
  | ok line => rfl

theorem Word.ofLine_cons_value {text value : List Char} {word : Word} (h : ofText .bundle text = .ok word)
    (hvalue : ofText .bundle value = .ok .plain) (rest : List (List Char)) :
    ofLine .bundle (text :: value :: rest) =
      (ofLine .bundle rest).map fun line => (text, word) :: (value, .plain) :: line := by
  rw [ofLine_cons_ok h, ofLine_cons_ok hvalue]
  cases ofLine .bundle rest with
  | error e => rfl
  | ok line => rfl

/-- Words in front of which no value stands begin with none. -/
theorem NoValue.ne_plain {words : List (List Char)} (h : NoValue words) {line : List (List Char × Word)}
    (hline : Word.ofLine .bundle words = .ok line) (text : List Char) (word : Word)
    (behind : List (List Char × Word))
    (hcons : line = (text, word) :: behind) : word ≠ .plain := by
  rintro rfl
  cases words with
  | nil =>
      rw [hcons] at hline
      cases hline
  | cons w words =>
      by_cases hseparator : w = ['-', '-']
      · rw [Word.ofLine, if_pos hseparator, hcons] at hline
        cases hline
      cases hw : Word.ofText .bundle w with
      | error e =>
          rw [Word.ofLine_cons hseparator, hw] at hline
          cases hline
      | ok word =>
          rw [Word.ofLine_cons_ok hw, hcons] at hline
          cases hrest : Word.ofLine .bundle words with
          | error e =>
              rw [hrest] at hline
              cases hline
          | ok rest =>
              rw [hrest] at hline
              cases hline
              exact h _ _ rfl hw

/-- Alike lines are wrong for the same word, or they are taken alike. -/
theorem AlikeButWishes.ofLine {ws ws' : List (List Char)} (h : AlikeButWishes ws ws') :
    Corresponds TakenAlike (Word.ofLine .bundle ws) (Word.ofLine .bundle ws') := by
  -- A word that one line has alone is never wrong, so the first wrong word is the same in both.
  induction h with
  | nil =>
      refine .ok fun k k' p p' _ _ hp => ?_
      rw [takeWords_nil, takeWords_nil]
      exact .ok hp
  | separator rest =>
      rw [Word.ofLine, if_pos rfl]
      refine .ok (.other .separator (by simp) fun k k' p p' hk hk' hp => ?_)
      rw [takeWords_plain p (by simpa using hk), takeWords_plain p' (by simpa using hk')]
      exact .ok (hp.leave rest)
  | other htext hreads h ih =>
      rename_i text ws ws'
      cases hword : Word.ofText .bundle text with
      | error e =>
          rw [Word.ofLine_cons htext, Word.ofLine_cons htext, hword]
          exact .error e
      | ok word =>
          rw [Word.ofLine_cons_ok hword, Word.ofLine_cons_ok hword]
          refine ih.map fun line line' _ _ hline => .other word ?_ hline
          rintro s isShort attached rfl
          cases hc : cluster .bundle text.length s isShort attached with
          | error e => exact ⟨e, rfl⟩
          | ok c => exact absurd ⟨s, isShort, attached, hword, hc⟩ (hreads c)
  | switches hreads hreads' hopen hopen' hrest hasked h ih =>
      obtain ⟨s, isShort, attached, hword, hc⟩ := hreads
      obtain ⟨s', isShort', attached', hword', hc'⟩ := hreads'
      rw [Word.ofLine_cons_ok hword, Word.ofLine_cons_ok hword']
      exact ih.map fun line line' _ _ hline => .switches hc hc' hrest (close_of_none hopen line)
        (close_of_none hopen' line') hasked (Nat.le_refl _) (Nat.le_refl _) hline
  | value hreads hreads' hopen hopen' hrest hasked hvalue h ih =>
      obtain ⟨s, isShort, attached, hword, hc⟩ := hreads
      obtain ⟨s', isShort', attached', hword', hc'⟩ := hreads'
      rw [Word.ofLine_cons_value hword hvalue, Word.ofLine_cons_value hword' hvalue]
      refine ih.map fun line line' _ _ hline => .switches hc hc' hrest (close_of_plain hopen _ line)
        (close_of_plain hopen' _ line') ?_ (Nat.le_succ _) (Nat.le_succ _) hline
      rw [List.filter_append, List.filter_append]
      exact congrArg (· ++ _) hasked
  | missing hreads hreads' hopen hopen' hnone hnone' h ih =>
      obtain ⟨s, isShort, attached, hword, hc⟩ := hreads
      obtain ⟨s', isShort', attached', hword', hc'⟩ := hreads'
      rw [Word.ofLine_cons_ok hword, Word.ofLine_cons_ok hword']
      exact ih.map fun line line' hok hok' _ => .missing hc hc'
        (close_of_ne_plain hopen (hnone.ne_plain hok)) (close_of_ne_plain hopen' (hnone'.ne_plain hok'))
  | left hreads hopen hrest hasked h ih =>
      obtain ⟨s, isShort, attached, hword, hc⟩ := hreads
      rw [Word.ofLine_cons_ok hword]
      exact ih.map_left fun line line' hline => .left hc hopen hrest hasked hline
  | right hreads hopen hrest hasked h ih =>
      obtain ⟨s, isShort, attached, hword, hc⟩ := hreads
      rw [Word.ofLine_cons_ok hword]
      refine .symm (fun _ _ => TakenAlike.symm) ((ih.symm fun _ _ => TakenAlike.symm).map_left ?_)
      exact fun line line' hline => .left hc hopen hrest hasked hline

/-- Alike words of the command are parsed alike. -/
theorem AlikeButWishes.parseBundle {ws ws' : List (List Char)} (h : AlikeButWishes ws ws') :
    Corresponds Parsed.Alike (parseBundle ws) (parseBundle ws') :=
  (h.ofLine.mapError _).bind fun line line' hline =>
    hline line.length line'.length {} {} (Nat.le_refl _) (Nat.le_refl _) ⟨rfl, rfl⟩

/-! ## The whole command line

The parser in front of the command reads a line up to the name of the command and hands on the rest. Both
parsers read the same words with different tables.
-/

/-- Where help is the only switch, at most one spelling begins with two dashes. -/
theorem Word.filter_top (rest : List Char) :
    (Table.top.spellings.filter fun p => ('-' :: '-' :: rest).isPrefixOf p.1) = [] ∨
    (Table.top.spellings.filter fun p => ('-' :: '-' :: rest).isPrefixOf p.1) =
      [("--help".toList, .help)] := by
  have hshort : ('-' :: '-' :: rest).isPrefixOf "-h".toList = false := by
    cases rest with
    | nil => rfl
    | cons _ _ => rfl
  have hspellings : Table.top.spellings = [("-h".toList, .help), ("--help".toList, .help)] := rfl
  rw [hspellings, List.filter_cons_of_neg (by simp only [hshort]; decide), List.filter_cons]
  split
  · exact Or.inr rfl
  · exact Or.inl rfl

/-- In front of the command, no word is ambiguous. -/
theorem Word.exists_ofPart_top (c : Char) (rest : List Char) :
    ∃ word, ofPart .top ('-' :: c :: rest) = .ok word := by
  rw [ofPart]
  split
  · split
    · exact ⟨_, rfl⟩
    · exact ⟨_, rfl⟩
  · next hshort =>
      obtain rfl : c = '-' := by simpa [isShort] using hshort
      cases hsplit : splitEquals? ('-' :: '-' :: rest) with
      | none =>
          rcases filter_top rest with h | h
          · exact ⟨_, by dsimp only; rw [h]⟩
          · exact ⟨_, by dsimp only; rw [h]⟩
      | some parts =>
          obtain ⟨front, back⟩ := parts
          rw [splitEquals?] at hsplit
          split at hsplit
          · cases hsplit
            rcases filter_top (rest.takeWhile (· != '=')) with h | h
            · exact ⟨_, by dsimp only; rw [List.takeWhile_cons_of_pos rfl, List.takeWhile_cons_of_pos rfl, h]⟩
            · exact ⟨_, by dsimp only; rw [List.takeWhile_cons_of_pos rfl, List.takeWhile_cons_of_pos rfl, h]⟩
          · cases hsplit

/-- In front of the command every word can be read. -/
theorem Word.exists_ofText_top (text : List Char) : ∃ word, ofText .top text = .ok word := by
  unfold ofText
  split
  · split
    · exact ⟨_, rfl⟩
    · split
      · split
        · exact ⟨_, rfl⟩
        · exact exists_ofPart_top _ _
      · exact exists_ofPart_top _ _
  · exact ⟨_, rfl⟩

theorem Word.exists_ofLine_top (words : List (List Char)) :
    ∃ line, ofLine .top words = .ok line ∧ line.map Prod.fst = words := by
  induction words with
  | nil => exact ⟨[], rfl, rfl⟩
  | cons text rest ih =>
      by_cases htext : text = ['-', '-']
      · refine ⟨_, by rw [ofLine, if_pos htext], ?_⟩
        simp [Function.comp_def]
      · obtain ⟨word, hword⟩ := exists_ofText_top text
        obtain ⟨line, hline, hfst⟩ := ih
        refine ⟨(text, word) :: line, ?_, by rw [List.map_cons, hfst]⟩
        rw [ofLine_cons htext, hword, hline]
        rfl

/-- A word in front of another has its own meaning, whatever comes behind it. -/
theorem Word.exists_ofLine_top_cons {text : List Char} (h : text ≠ ['-', '-']) :
    ∃ word, ∀ words, ∃ line, ofLine .top (text :: words) = .ok ((text, word) :: line) ∧
      ofLine .top words = .ok line ∧ line.map Prod.fst = words := by
  obtain ⟨word, hword⟩ := exists_ofText_top text
  refine ⟨word, fun words => ?_⟩
  obtain ⟨line, hline, hfst⟩ := exists_ofLine_top words
  refine ⟨line, ?_, hline, hfst⟩
  rw [ofLine_cons h, hword, hline]
  rfl

/-- A word that is not the command stops whatever comes behind it, or it lets it come. -/
theorem takeTop_cons {text : List Char} (hname : text ≠ commandName) (word : Word) (left : List (List Char)) :
    (∃ stop, ∀ rest, rest ≠ [] → takeTop left ((text, word) :: rest) = .error stop) ∨
    ∃ left', ∀ rest, takeTop left ((text, word) :: rest) = takeTop left' rest := by
  cases word with
  | separator =>
      refine Or.inl ⟨.usage .top (.unknownCommand text), fun rest hne => ?_⟩
      rw [takeTop, if_neg (by simpa using hne), parseCommand, if_neg hname]
  | plain =>
      refine Or.inl ⟨.usage .top (.unknownCommand text), fun rest _ => ?_⟩
      rw [takeTop, parseCommand, if_neg hname]
  | unknown => exact Or.inr ⟨left ++ [text], fun rest => by rw [takeTop]⟩
  | switch s isShort attached =>
      cases hc : cluster .top text.length s isShort attached with
      | error e => exact Or.inl ⟨.usage .top e, fun rest _ => by rw [takeTop, hc]; rfl⟩
      | ok c =>
          have htake : ∀ rest, takeTop left ((text, .switch s isShort attached) :: rest) =
              (({} : Invocation).takeAll .top c.taken >>= fun _ =>
                takeTop (left ++ c.rest?.toList) rest) := by
            intro rest
            rw [takeTop, hc]
            rfl
          cases htaken : ({} : Invocation).takeAll .top c.taken with
          | error stop => exact Or.inl ⟨stop, fun rest _ => by rw [htake, htaken]; rfl⟩
          | ok i => exact Or.inr ⟨left ++ c.rest?.toList, fun rest => by rw [htake, htaken]; rfl⟩

/-- What becomes of the words of the command: all of them stop for the same reason, or the command takes
them. -/
def IsAnswer (answer : List (List Char) → Except Stop Invocation) : Prop :=
  (∃ stop, answer = fun _ => .error stop) ∨ ∃ left, answer = parseCommand left commandName

/-- The words in front of the command alone decide whether the command comes. -/
theorem takeTop_front {front : List (List Char)} (hfront : commandName ∉ front) (left : List (List Char)) :
    ∃ answer, IsAnswer answer ∧ ∀ ws, ∃ line, Word.ofLine .top (front ++ commandName :: ws) = .ok line ∧
      takeTop left line = answer ws := by
  induction front generalizing left with
  | nil =>
      refine ⟨parseCommand left commandName, Or.inr ⟨left, rfl⟩, fun ws => ?_⟩
      obtain ⟨line, hline, hfst⟩ := Word.exists_ofLine_top ws
      have hname : Word.ofText .top commandName = .ok .plain := rfl
      refine ⟨(commandName, .plain) :: line, ?_, by rw [takeTop, hfst]⟩
      rw [List.nil_append, Word.ofLine_cons (by decide), hname, hline]
      rfl
  | cons text front ih =>
      rw [List.mem_cons, not_or] at hfront
      obtain ⟨hname, hfront⟩ := hfront
      by_cases htext : text = ['-', '-']
      · -- Behind the separator, the separator itself is taken for the command.
        refine ⟨_, Or.inl ⟨.usage .top (.unknownCommand text), rfl⟩, fun ws => ?_⟩
        refine ⟨_, by rw [List.cons_append, Word.ofLine, if_pos htext], ?_⟩
        rw [takeTop, if_neg (by simp), parseCommand, if_neg (Ne.symm hname)]
      · obtain ⟨word, hword⟩ := Word.exists_ofLine_top_cons htext
        rcases takeTop_cons (Ne.symm hname) word left with ⟨stop, hstop⟩ | ⟨left₁, hleft₁⟩
        · refine ⟨_, Or.inl ⟨stop, rfl⟩, fun ws => ?_⟩
          obtain ⟨line, hcons, -, hfst⟩ := hword (front ++ commandName :: ws)
          refine ⟨_, hcons, hstop line ?_⟩
          rintro rfl
          simp at hfst
        · obtain ⟨answer, hanswer, htake⟩ := ih hfront left₁
          refine ⟨answer, hanswer, fun ws => ?_⟩
          obtain ⟨line, hcons, hline, -⟩ := hword (front ++ commandName :: ws)
          obtain ⟨line', hline', htake⟩ := htake ws
          obtain rfl := Except.ok.inj (hline.symm.trans hline')
          exact ⟨_, hcons, (hleft₁ line).trans htake⟩

/-- Command lines that are alike but for wishes stop for the same reason, or they ask for the same. -/
theorem AlikeButWishes.parse {front : List (List Char)} (hfront : commandName ∉ front)
    {ws ws' : List (List Char)}
    (h : AlikeButWishes ws ws') : Corresponds Invocation.Alike (parse (front ++ commandName :: ws))
      (parse (front ++ commandName :: ws')) := by
  obtain ⟨answer, hanswer, htake⟩ := takeTop_front hfront []
  have hparse : ∀ ws, CommandLine.parse (front ++ commandName :: ws) = answer ws := by
    intro ws
    obtain ⟨line, hline, htake⟩ := htake ws
    rw [CommandLine.parse, hline]
    exact htake
  rw [hparse, hparse]
  rcases hanswer with ⟨stop, rfl⟩ | ⟨left, rfl⟩
  · exact .error stop
  · rw [parseCommand, parseCommand, if_pos rfl, if_pos rfl]
    refine h.parseBundle.bind fun p q hpq => ?_
    rw [hpq.2]
    split
    · exact .ok hpq.1
    · exact .error _

end WasmEmbed.CommandLine
