import WasmEmbed.CommandLine.Run
import WasmEmbed.Proofs.CommandLine.Wishes
import WasmEmbed.Proofs.Text.Integer

/-!
# Lines of items

A line may ask for a build item by item, each in a word of its own: a long switch with its value behind an
equals sign, or a switch without a value. Whatever the items are and however they are ordered, the last
value that is given for a switch counts, and wishes are counted (`Invocation.ofItems`). The line does what
the build does that is asked for in this way (`run_items`), unless a number is too long to be read. Such a
line is refused before anything is done.
-/

namespace WasmEmbed.CommandLine

/-! ## Items -/

namespace Switch

/-- Whether any text may be the value of a switch. -/
def takesText : Switch → Bool
  | root | crate | packageDir | payload | binding | outputDir | importName => true
  | _ => false

/-- The last spelling of a switch, which has two dashes. -/
def longSpelling (s : Switch) : List Char := s.spellings.getLast?.getD []

theorem takesValue_of_takesText {s : Switch} (h : s.takesText = true) : s.takesValue = true := by
  cases s with
  | help | compress | verbose | quiet | maxShardChars => cases h
  | _ => rfl

end Switch

/-- One thing that a line may ask for. -/
inductive Item where
  /-- A value for a switch, which may be any text. -/
  | text (s : { s : Switch // s.takesText = true }) (value : List Char)
  | maxShardChars (n : Text.Numeral)
  | compress
  | verbose
  | quiet

namespace Item

/-- The word of an item. -/
def word : Item → List Char
  | text s value => s.1.longSpelling ++ '=' :: value
  | maxShardChars n => Switch.maxShardChars.longSpelling ++ '=' :: n.text
  | compress => "--compress".toList
  | verbose => "-v".toList
  | quiet => "-q".toList

/-- The value that an item gives for a switch. -/
def text? (s : Switch) : Item → Option (List Char)
  | text t value => if t.1 = s then some value else none
  | _ => none

/-- The number that an item gives. -/
def numeral? : Item → Option Text.Numeral
  | maxShardChars n => some n
  | _ => none

def isCompress : Item → Bool
  | compress => true
  | _ => false

def isVerbose : Item → Bool
  | verbose => true
  | _ => false

def isQuiet : Item → Bool
  | quiet => true
  | _ => false

/-- The last value that items give for a switch. -/
def lastText? (s : Switch) (items : List Item) : Option (List Char) := (items.filterMap (text? s)).getLast?

/-- The last number that items give. -/
def lastNumeral? (items : List Item) : Option Text.Numeral := (items.filterMap numeral?).getLast?

/-- The first number among the items that is too long to be read. -/
def overlong? (items : List Item) : Option Text.Numeral :=
  (items.filterMap numeral?).find? fun n => !decide n.IsShort

end Item

/-- What items ask for: the last value for each switch, and what is usual where there is none. -/
def Item.request (items : List Item) : Request :=
  let usual : Request := {}
  { root := (lastText? .root items).map .ofText
    crate := (lastText? .crate items).getD usual.crate
    packageDir := (lastText? .packageDir items).map .ofText
    payload := (lastText? .payload items).map .ofText
    binding := (lastText? .binding items).map .ofText
    outputDir := (lastText? .outputDir items).map .ofText
    maxShardChars := ((lastNumeral? items).map Text.Numeral.value).getD usual.maxShardChars
    compress := items.any isCompress
    importName := (lastText? .importName items).getD usual.importName }

/-- What items ask for, with the wishes among them. -/
def Invocation.ofItems (items : List Item) : Invocation :=
  ⟨Item.request items, items.countP Item.isVerbose, items.countP Item.isQuiet⟩

/-! ## Words of items -/

namespace Item

/-- The switch of an item. -/
def switch : Item → Switch
  | text s _ => s.1
  | maxShardChars _ => .maxShardChars
  | compress => .compress
  | verbose => .verbose
  | quiet => .quiet

/-- The text of the value of an item. -/
def value : Item → List Char
  | text _ value => value
  | maxShardChars n => n.text
  | _ => []

/-- What the word of an item is. -/
def read : Item → Word
  | text s value => .switch s.1 false (some (Word.Attached.behindEquals value))
  | maxShardChars n => .switch .maxShardChars false (some (Word.Attached.behindEquals n.text))
  | compress => .switch .compress false none
  | verbose => .switch .verbose true none
  | quiet => .switch .quiet true none

end Item

theorem Word.splitEquals?_append {front back : List Char} (h : '=' ∉ front) :
    splitEquals? (front ++ '=' :: back) = some (front, back) := by
  have hfront : (front ++ '=' :: back).takeWhile (· != '=') = front := by
    rw [List.takeWhile_append_of_pos, List.takeWhile_cons_of_neg, List.append_nil]
    · simp
    · intro c hc
      simp only [bne_iff_ne, ne_eq]
      rintro rfl
      exact h hc
  rw [splitEquals?, hfront, List.drop_left]

/-- No spelling has an equals sign. -/
theorem Table.find?_bundle_of_mem {text : List Char} (h : '=' ∈ text) : find? .bundle text = none := by
  rw [find?, List.lookup_eq_none_iff]
  intro p hp
  have hspellings : ∀ p ∈ spellings .bundle, '=' ∉ p.1 := by decide
  rw [bne_iff_ne]
  rintro rfl
  exact hspellings p hp h

/-- A long switch that takes a value has it behind an equals sign. -/
theorem Word.ofText_longSpelling {s : Switch} (hs : s.takesValue = true) (value : List Char) :
    ofText .bundle (s.longSpelling ++ '=' :: value) =
      .ok (.switch s false (some (Attached.behindEquals value))) := by
  have hspelling : (∃ x rest, s.longSpelling = '-' :: x :: rest) ∧ '=' ∉ s.longSpelling ∧
      isShort s.longSpelling = false ∧ Table.find? .bundle s.longSpelling = some s := by
    cases s with
    | help | compress | verbose | quiet => cases hs
    | _ => exact ⟨⟨_, _, rfl⟩, by decide, rfl, rfl⟩
  obtain ⟨⟨x, rest, hdash⟩, hequals, hshort, hfind⟩ := hspelling
  have hnone : Table.find? .bundle (s.longSpelling ++ '=' :: value) = none :=
    Table.find?_bundle_of_mem (by simp)
  have hsplit : splitEquals? (s.longSpelling ++ '=' :: value) = some (s.longSpelling, value) :=
    splitEquals?_append hequals
  rw [hdash] at hnone hsplit hfind hshort ⊢
  rw [List.cons_append, List.cons_append] at hnone hsplit ⊢
  rw [ofText, hnone, hsplit]
  dsimp only
  rw [hfind, hshort]

theorem Item.ofText_word (item : Item) : Word.ofText .bundle item.word = .ok item.read := by
  cases item with
  | text s value => exact Word.ofText_longSpelling (Switch.takesValue_of_takesText s.2) value
  | maxShardChars n => exact Word.ofText_longSpelling rfl n.text
  | compress | verbose | quiet => rfl

/-- The words of items are read one by one. -/
theorem Item.ofLine_words (items : List Item) :
    Word.ofLine .bundle (items.map word) = .ok (items.map fun item => (item.word, item.read)) := by
  induction items with
  | nil => rfl
  | cons item rest ih =>
      rw [List.map_cons, Word.ofLine_cons_ok item.ofText_word, ih]
      rfl

/-! ## Taking items -/

/-- The word of an item holds one switch, with its value. -/
theorem Item.takeWords_word (item : Item) (k : Nat) (p : Parsed) (rest : List (List Char × Word)) :
    takeWords (k + 1) p ((item.word, item.read) :: rest) =
      (p.invocation.takeAll .bundle [(item.switch, item.value)] >>= fun i =>
        takeWords k ⟨i, p.left⟩ rest) := by
  -- The word of an item is a cluster of one switch, which leaves nothing over.
  have hone : ∀ {isShort attached}, item.read = .switch item.switch isShort attached →
      cluster .bundle item.word.length item.switch isShort attached =
        .ok ⟨[(item.switch, item.value)], none, none⟩ →
      takeWords (k + 1) p ((item.word, item.read) :: rest) =
        (p.invocation.takeAll .bundle [(item.switch, item.value)] >>= fun i =>
          takeWords k ⟨i, p.left⟩ rest) := by
    intro isShort attached hread hcluster
    rw [hread, takeWords_switch p hcluster, close_of_none rfl]
    show (_ >>= fun i => takeWords k ⟨i, p.left ++ []⟩ rest : Except Stop Parsed) = _
    rw [List.append_nil]
  have hvalued : ∀ {s : Switch} {value : List Char}, s.takesValue = true → item.read = .switch s false
      (some (Word.Attached.behindEquals value)) → item.switch = s → item.value = value →
      takeWords (k + 1) p ((item.word, item.read) :: rest) =
        (p.invocation.takeAll .bundle [(item.switch, item.value)] >>= fun i =>
          takeWords k ⟨i, p.left⟩ rest) := by
    rintro s value hs hread rfl rfl
    refine hone hread ?_
    unfold cluster
    rw [if_pos hs]
    rfl
  cases item with
  | text s value => exact hvalued (Switch.takesValue_of_takesText s.2) rfl rfl rfl
  | maxShardChars n => exact hvalued rfl rfl rfl rfl
  | compress | verbose | quiet => exact hone rfl rfl

/-- One more item is taken as the last one that was given. -/
theorem Invocation.take_ofItems (items : List Item) (item : Item) (h : ∀ n ∈ item.numeral?, n.IsShort) :
    (ofItems items).take item.switch item.value = .ok (ofItems (items ++ [item])) := by
  cases item with
  | text s value =>
      obtain ⟨s, hs⟩ := s
      cases s with
      | help | compress | verbose | quiet | maxShardChars => cases hs
      | _ =>
          simp [take, ofItems, Item.request, Item.switch, Item.value, Item.lastText?, Item.lastNumeral?,
            Item.text?, Item.numeral?, Item.isCompress, Item.isVerbose, Item.isQuiet]
  | maxShardChars n =>
      have hread : Text.integer? n.text = some n.value := by rw [n.integer?_text, if_pos (h n rfl)]
      simp [take, hread, ofItems, Item.switch, Item.value, Item.request, Item.lastText?, Item.lastNumeral?,
        Item.text?, Item.numeral?, Item.isCompress, Item.isVerbose, Item.isQuiet]
  | compress | verbose | quiet =>
      simp [take, ofItems, Item.request, Item.switch, Item.lastText?, Item.lastNumeral?, Item.text?,
        Item.numeral?, Item.isCompress, Item.isVerbose, Item.isQuiet]

/-- A number that is too long to be read is not taken. -/
theorem Invocation.take_overlong (i : Invocation) {n : Text.Numeral} (h : ¬n.IsShort) :
    i.take .maxShardChars n.text = .error (.notAnInteger .maxShardChars n.text) := by
  have hread : Text.integer? n.text = none := by rw [n.integer?_text, if_neg h]
  rw [take, hread]

theorem Item.switch_ne_help (item : Item) : item.switch ≠ .help := by
  cases item with
  | text s value =>
      obtain ⟨s, hs⟩ := s
      rintro rfl
      cases hs
  | _ => exact nofun

/-- One word of a line is one more item, unless its number is too long. -/
theorem Item.takeWords_step (front : List Item) (item : Item) (k : Nat) (rest : List (List Char × Word)) :
    takeWords (k + 1) ⟨.ofItems front, []⟩ ((item.word, item.read) :: rest) =
      match overlong? [item] with
      | none => takeWords k ⟨.ofItems (front ++ [item]), []⟩ rest
      | some n => .error (.usage .bundle (.notAnInteger .maxShardChars n.text)) := by
  rw [takeWords_word, Invocation.takeAll, if_neg item.switch_ne_help]
  cases hlong : overlong? [item] with
  | none =>
      have hshort : ∀ n ∈ item.numeral?, n.IsShort := by
        intro n hn
        simpa [overlong?, List.filterMap_cons, Option.mem_def.mp hn] using hlong
      rw [Invocation.take_ofItems front item hshort]
      rfl
  | some n =>
      -- Only a number is too long, so the item is the number itself.
      have hmem : n ∈ [item].filterMap numeral? := List.mem_of_find?_eq_some hlong
      have hn : ¬n.IsShort := by simpa using List.find?_some hlong
      cases item with
      | maxShardChars m =>
          obtain rfl : n = m := by simpa [numeral?] using hmem
          have htake : (Invocation.ofItems front).take (switch (.maxShardChars n))
              (value (.maxShardChars n)) =
              .error (.notAnInteger .maxShardChars n.text) := Invocation.take_overlong _ hn
          rw [htake]
          rfl
      | _ => cases hmem

/-- The words of items are taken as the items that they are, up to the first number that is too long. -/
theorem Item.takeWords_words (front items : List Item) {k : Nat} (hk : items.length ≤ k) :
    takeWords k ⟨.ofItems front, []⟩ (items.map fun item => (item.word, item.read)) =
      match overlong? items with
      | none => .ok ⟨.ofItems (front ++ items), []⟩
      | some n => .error (.usage .bundle (.notAnInteger .maxShardChars n.text)) := by
  induction items generalizing front k with
  | nil => rw [List.map_nil, takeWords_nil, List.append_nil]; rfl
  | cons item rest ih =>
      obtain ⟨k, rfl⟩ : ∃ k', k = k' + 1 := ⟨k - 1, by simp at hk; omega⟩
      have happend : overlong? (item :: rest) = (overlong? [item]).or (overlong? rest) := by
        rw [overlong?, ← List.singleton_append, List.filterMap_append, List.find?_append]
        rfl
      rw [List.map_cons, takeWords_step, happend]
      cases overlong? [item] with
      | none =>
          dsimp only
          rw [ih (front ++ [item]) (by simpa using hk), List.append_assoc, List.singleton_append,
            Option.none_or]
      | some n => rfl

/-! ## Lines of items -/

/-- The command is taken from the front of a line. -/
theorem parse_commandName (words : List (List Char)) :
    parse (commandName :: words) = parseCommand [] commandName words := by
  obtain ⟨line, hline, hfst⟩ := Word.exists_ofLine_top words
  have hname : Word.ofText .top commandName = .ok .plain := rfl
  rw [parse, Word.ofLine_cons (by decide), hname, hline]
  show takeTop [] ((commandName, .plain) :: line) = _
  rw [takeTop, hfst]

/-- A line of items asks for them, unless a number among them is too long. -/
theorem parse_items (items : List Item) :
    parse (commandName :: items.map Item.word) =
      match Item.overlong? items with
      | none => .ok (.ofItems items)
      | some n => .error (.usage .bundle (.notAnInteger .maxShardChars n.text)) := by
  rw [parse_commandName, parseCommand, if_pos rfl, parseBundle, Item.ofLine_words]
  show (takeWords _ ⟨.ofItems [], []⟩ _ >>= _) = _
  rw [Item.takeWords_words [] items (by simp), List.nil_append]
  cases Item.overlong? items with
  | none => rfl
  | some n => rfl

/-- Values may look like switches, and the last one counts. -/
example : parse [commandName, "--crate=--root=x".toList, "-v".toList, "--max-shard-chars=+07".toList,
    "--crate=".toList, "--payload=a b".toList, "-v".toList] =
    .ok ⟨{ crate := [], payload := some (.ofText "a b".toList), maxShardChars := 7 }, 2, 0⟩ := by
  decide +kernel

/-- The build that a request asks for. -/
def requested (r : Request) : Build BundleResult := do
  let config ← Build.require .config (r.resolve ⟨.root, ← read⟩)
  Build.bundle config

/-- A line of items is the build that asks for the last value of each switch, and nothing is shown but its
notices. The counts of wishes choose what is heard of it. If a number among the items is too long to be
read, then the usage is shown for the first such number, and nothing is done. -/
theorem run_items (items : List Item) (cwd : Location) (s : Store) :
    run (commandName :: items.map Item.word) cwd s =
      match Item.overlong? items with
      | none =>
        let least := Level.heard (items.countP Item.isVerbose) (items.countP Item.isQuiet)
        let o := (requested (Item.request items)).runAt least.number cwd s
        ⟨"", "", o.journal.notices, o.journal, o.result.map fun _ => 0, o.store⟩
      | some n => ⟨"", Scope.bundle.complaint (.notAnInteger .maxShardChars n.text), [], [], .ok 2, s⟩ := by
  rw [run, parse_items]
  cases Item.overlong? items with
  | none => rfl
  | some n => rfl

namespace Sample

/-- The number one, with as many zeros in front of it as a number may have digits. -/
def padded : Text.Numeral where
  sign := none
  digits := List.replicate Text.maxDigits '0' ++ ['1']
  magnitude := 1
  standsFor := by
    refine ⟨by simp, List.replicate Text.maxDigits 0 ++ [1], ?_, ?_⟩
    · rw [List.map_append, List.map_append, List.map_replicate, List.map_replicate]
      rfl
    · rw [List.reverse_append, List.reverse_replicate, Nat.ofDigits_append_replicate_zero]
      rfl

end Sample

/-- A number of one character for a shard is refused if too many zeros stand in front of it, where the build
that asks for as many characters misses its payload. -/
theorem run_items_padded :
    (run [commandName, (Item.maxShardChars Sample.padded).word] [] ⟨[]⟩).ending = .ok 2 ∧
    ((requested (Item.request [.maxShardChars Sample.padded])).runAt (Level.heard 0 0).number []
      ⟨[]⟩).result =
      .error (.input (.missing .payload (.ofText "/pkg/rust_rng_bg.wasm".toList))) := by
  have hlong : Item.overlong? [.maxShardChars Sample.padded] = some Sample.padded := by
    have hdigits : ¬Sample.padded.IsShort := by
      rw [Text.Numeral.IsShort, Sample.padded, List.length_append, List.length_replicate]
      simp
    simp [Item.overlong?, Item.numeral?, hdigits]
  have hparse := parse_items [.maxShardChars Sample.padded]
  rw [hlong] at hparse
  constructor
  · rw [run, ← List.map_singleton, hparse]
  · have hrequest : Item.request [.maxShardChars Sample.padded] = { maxShardChars := 1 } := rfl
    rw [hrequest]
    rfl

end WasmEmbed.CommandLine
