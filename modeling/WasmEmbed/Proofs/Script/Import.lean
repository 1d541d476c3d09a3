import WasmEmbed.Proofs.Script.Lexeme

/-!
# What an import says

What an import binds, and the module that it names, is said by its tokens up to the string behind the word
`from`. `ImportDeclaration.Says` says that a text begins with such tokens. They say one thing only
(`ImportDeclaration.Says.unique`), and it does not matter what comes behind them
(`ImportDeclaration.Says.change`). What is read as the clause of an import is said by its tokens
(`Nested.parses_importClause`).

What tokens say is defined by relations on lists of tokens, one for each part of a clause, and that they
say one thing only is shown part by part. What is read is then compared with these relations and never
with the text.
-/

namespace WasmEmbed.Script

open Reader

/-! ## The tokens of an import -/

/-- Tokens say one of the names that an import takes. -/
inductive ImportBinding.Said : ImportBinding → List Lexeme → List Lexeme → Prop
  | name {w : List Char} {us : List Lexeme} : Said ⟨.named w, w⟩ (.name w :: us) us
  | renamed {w l : List Char} {us : List Lexeme} :
      Said ⟨.named w, l⟩ (.name w :: .name "as".toList :: .name l :: us) us
  | text {s l : List Char} {us : List Lexeme} :
      Said ⟨.named s, l⟩ (.text s :: .name "as".toList :: .name l :: us) us

/-- Tokens behind an opening brace say the names that an import takes, up to the closing brace. -/
inductive SaidInBraces : List ImportBinding → List Lexeme → List Lexeme → Prop
  | close {us : List Lexeme} : SaidInBraces [] (.sign '\x7d' :: us) us
  | last {b : ImportBinding} {ts us : List Lexeme} :
      b.Said ts (.sign '\x7d' :: us) → SaidInBraces [b] ts us
  | cons {b : ImportBinding} {bs : List ImportBinding} {ts us vs : List Lexeme} :
      b.Said ts (.sign ',' :: us) → SaidInBraces bs us vs → SaidInBraces (b :: bs) ts vs

/-- Tokens say all that an import takes besides the default export. -/
inductive SaidBehindDefault : List ImportBinding → List Lexeme → List Lexeme → Prop
  | everything {l : List Char} {us : List Lexeme} :
      SaidBehindDefault [⟨.everything, l⟩] (.sign '*' :: .name "as".toList :: .name l :: us) us
  | nothing {us : List Lexeme} :
      SaidBehindDefault [] (.sign '\x7b' :: .sign ',' :: .sign '\x7d' :: us) us
  | braces {bs : List ImportBinding} {ts us : List Lexeme} :
      SaidInBraces bs ts us → SaidBehindDefault bs (.sign '\x7b' :: ts) us

/-- What an import binds and what it names. -/
structure Clause where
  defaultName : Option (List Char)
  bindings : List ImportBinding
  specifier : List Char

/-- Tokens behind the word `import` say what is bound and what is named. -/
inductive Clause.Said : Clause → List Lexeme → List Lexeme → Prop
  | bare {s : List Char} {us : List Lexeme} : Said ⟨none, [], s⟩ (.text s :: us) us
  | default {w s : List Char} {us : List Lexeme} :
      Said ⟨some w, [], s⟩ (.name w :: .name "from".toList :: .text s :: us) us
  | both {w s : List Char} {bs : List ImportBinding} {ts us : List Lexeme} :
      SaidBehindDefault bs ts (.name "from".toList :: .text s :: us) →
      Said ⟨some w, bs, s⟩ (.name w :: .sign ',' :: ts) us
  | bindings {s : List Char} {bs : List ImportBinding} {ts us : List Lexeme} :
      SaidBehindDefault bs ts (.name "from".toList :: .text s :: us) → Said ⟨none, bs, s⟩ ts us

/-- In front of a sign, tokens say one name only. -/
theorem ImportBinding.Said.unique {b b' : ImportBinding} {ts us us' : List Lexeme} {x x' : Char}
    (h : b.Said ts (.sign x :: us)) (h' : b'.Said ts (.sign x' :: us')) : b = b' ∧ x = x' ∧ us = us' := by
  cases h <;> cases h' <;> exact ⟨rfl, rfl, rfl⟩

/-- No list of names begins with a comma. -/
theorem SaidInBraces.ne_comma {bs : List ImportBinding} {ts us : List Lexeme} (h : SaidInBraces bs ts us) :
    ∀ vs, ts ≠ .sign ',' :: vs := by
  rintro vs rfl
  rcases h with _ | h | h <;> cases h

/-- The bindings in braces, by induction on how the first list of them is said. Whether a further one
follows shows at the comma. -/
theorem SaidInBraces.unique {bs bs' : List ImportBinding} {ts us us' : List Lexeme}
    (h : SaidInBraces bs ts us) (h' : SaidInBraces bs' ts us') : bs = bs' ∧ us = us' := by
  induction h generalizing bs' us' with
  | close =>
      cases h' with
      | close => exact ⟨rfl, rfl⟩
      | last h' | cons h' => cases h'
  | last hb =>
      cases h' with
      | close => cases hb
      | last hb' =>
          obtain ⟨rfl, -, rfl⟩ := hb.unique hb'
          exact ⟨rfl, rfl⟩
      | cons hb' _ => exact absurd (hb.unique hb').2.1 (by decide)
  | cons hb _ ih =>
      cases h' with
      | close => cases hb
      | last hb' => exact absurd (hb.unique hb').2.1 (by decide)
      | cons hb' hrest =>
          obtain ⟨rfl, -, rfl⟩ := hb.unique hb'
          obtain ⟨rfl, rfl⟩ := ih hrest
          exact ⟨rfl, rfl⟩

/-- Behind a default name come braces or a star. -/
theorem SaidBehindDefault.unique {bs bs' : List ImportBinding} {ts us us' : List Lexeme}
    (h : SaidBehindDefault bs ts us) (h' : SaidBehindDefault bs' ts us') : bs = bs' ∧ us = us' := by
  cases h with
  | everything =>
      cases h' with
      | everything => exact ⟨rfl, rfl⟩
  | nothing =>
      cases h' with
      | nothing => exact ⟨rfl, rfl⟩
      | braces h' => exact absurd rfl (h'.ne_comma _)
  | braces h =>
      cases h' with
      | nothing => exact absurd rfl (h.ne_comma _)
      | braces h' => exact h.unique h'

/-- What an import takes begins with a sign. -/
theorem SaidBehindDefault.exists_sign {bs : List ImportBinding} {ts us : List Lexeme}
    (h : SaidBehindDefault bs ts us) : ∃ x vs, ts = .sign x :: vs := by
  cases h with
  | everything | nothing | braces => exact ⟨_, _, rfl⟩

/-- Tokens say one clause only. -/
theorem Clause.Said.unique {i i' : Clause} {ts us us' : List Lexeme} (h : i.Said ts us)
    (h' : i'.Said ts us') :
    i = i' ∧ us = us' := by
  -- Bindings begin with a sign behind a default, and the other clauses with a text or a name.
  have hsign : ∀ {bs : List ImportBinding} {a : Lexeme} {ts us : List Lexeme},
      SaidBehindDefault bs (a :: ts) us → ∃ x, a = .sign x := by
    intro bs a ts us h
    obtain ⟨x, vs, heq⟩ := h.exists_sign
    exact ⟨x, (List.cons.inj heq).1⟩
  cases h with
  | bare =>
      cases h' with
      | bare => exact ⟨rfl, rfl⟩
      | bindings h' => exact absurd (hsign h') (by simp)
  | default =>
      cases h' with
      | default => exact ⟨rfl, rfl⟩
      | bindings h' => exact absurd (hsign h') (by simp)
  | both h =>
      cases h' with
      | both h' =>
          obtain ⟨rfl, heq⟩ := h.unique h'
          cases heq
          exact ⟨rfl, rfl⟩
      | bindings h' => exact absurd (hsign h') (by simp)
  | bindings h =>
      cases h' with
      | bare | default | both => exact absurd (hsign h) (by simp)
      | bindings h' =>
          obtain ⟨rfl, heq⟩ := h.unique h'
          cases heq
          exact ⟨rfl, rfl⟩

/-! ## What is read

One lemma for each reader of a part: what it answers is said by the tokens that it passed.
-/

namespace Nested

variable {n : Nested}

/-- The specifier of a clause is the string behind `from`, with which the tokens end. -/
theorem Parses.fromClause_last {S : List Char → List Lexeme → List Lexeme → Prop}
    (h : ∀ s us, S s (.name "from".toList :: .text s :: us) us) : n.Parses true n.fromClause S := by
  unfold fromClause
  exact .gap (.word (.text_last h))

/-- The name of a binding is a word or a string. -/
theorem parses_exportName : n.Parses false n.exportName fun p ts us =>
    ts = .name p.1 :: us ∨ ts = .text p.1 :: us ∧ p.2 = false := by
  unfold exportName
  refine .gap fun c hc => .get ?_
  split
  · next w d hname =>
      refine .require fun _ => .ahead (lt_of_nameAt? hname).le (.pure fun hle => ⟨hle, [.name w], ?_, ?_⟩)
      · exact .one (.name (names_of_nameAt? hname) (haltsName_of_nameAt? hname hc))
      · exact fun us => Or.inl rfl
  · have htext : n.Parses false (n.stringText >>= fun text => Pure.pure (text, false)) fun p ts us =>
        ts = .name p.1 :: us ∨ ts = .text p.1 :: us ∧ p.2 = false :=
      .text fun s => .pure fun us => Or.inr ⟨rfl, rfl⟩
    exact htext c hc

/-- The name behind `as`, if that word comes. -/
theorem parses_alias : n.Parses false (n.alias? n.freeName) fun target ts us =>
    target.elim (ts = us) fun l => ts = .name "as".toList :: .name l :: us := by
  unfold alias?
  refine .gap (.ifWord (fun _ => .gap (.freeName fun l => .pure fun us => ?_)) (.pure fun us => ?_))
  · rfl
  · rfl

/-- One binding in braces. -/
theorem parses_importBinding : n.Parses false n.importBinding ImportBinding.Said := by
  unfold importBinding
  refine parses_exportName.bind fun p => parses_alias.bind fun target => ?_
  obtain ⟨w, isFree⟩ := p
  obtain _ | l := target
  · refine .require fun hfree => .pure fun us => ?_
    rintro ts rfl ts (rfl | ⟨-, h⟩)
    · exact .name
    · rw [hfree] at h
      cases h
  · refine .pure fun us => ?_
    rintro ts rfl ts (rfl | ⟨rfl, -⟩)
    · exact .renamed
    · exact .text

/-- The bindings in braces, by induction on the bound on their number. -/
theorem parses_braceItems (k : Nat) : n.Parses false (n.braceItems n.importBinding k) SaidInBraces := by
  induction k with
  | zero => exact .refuse
  | succ k ih =>
      unfold braceItems
      refine .gap (.ifNext rfl (.pure fun us => .close) ?_)
      refine parses_importBinding.bind fun b => .gap (.ifNext rfl ?_ ?_)
      · refine ih.bind fun rest => .pure fun us => ?_
        exact fun ts hrest ts' hb => .cons hb hrest
      · exact .exactly rfl rfl (.pure fun us ts hb => .last hb)

/-- The bindings behind a default name or without one. -/
theorem parses_importBindings : n.Parses false n.importBindings SaidBehindDefault := by
  unfold importBindings braceList
  refine .gap (.ifNext rfl ?_ ?_)
  · exact .gap (.word (.gap (.freeName fun l => .pure fun us => .everything)))
  · refine .exactly rfl rfl (.gap (.ifNext rfl ?_ ?_))
    · exact .gap (.exactly rfl rfl (.pure fun us => .nothing))
    · exact (parses_braceItems n.depth).mono fun bs ts us h => .braces h

/-- What an import says, from behind its word up to the string that names the module. -/
def importClause (n : Nested) : Reader Clause := do
  n.toPlain
  let c ← get
  if c.nextIs (fun x => x == '"' || x == '\'') then
    let specifier ← n.stringText
    pure ⟨none, [], specifier⟩
  else if (n.nameAt? c).isSome then
    let name ← n.freeName
    n.toPlain
    let d ← get
    if d.nextIs (· == ',') then
      set d.step
      let bindings ← n.importBindings
      let specifier ← n.fromClause
      pure ⟨some name, bindings, specifier⟩
    else
      let specifier ← n.fromClause
      pure ⟨some name, [], specifier⟩
  else
    let bindings ← n.importBindings
    let specifier ← n.fromClause
    pure ⟨none, bindings, specifier⟩

/-- What is read as the clause of an import is said by its tokens. -/
theorem parses_importClause : n.Parses true n.importClause Clause.Said := by
  unfold importClause
  refine .gap (.get fun c => ?_)
  split
  · exact .map (.text_last fun s us => .bare)
  · split
    · refine .freeName fun w => .gap (.ifNext rfl ?_ ?_)
      · refine parses_importBindings.bind fun bs => .map (.fromClause_last fun s us ts hbs => ?_)
        exact .both hbs
      · exact .map (.fromClause_last fun s us => .default)
    · refine parses_importBindings.bind fun bs => .map (.fromClause_last fun s us ts hbs => ?_)
      exact .bindings hbs

/-- The rest of an import, from behind the string that names the module. -/
def importEnd (n : Nested) (start : Cursor) (clause : Clause) : Reader Closing := do
  n.importAttributes
  n.terminator false
  let stop ← get
  let span : Span := ⟨start.offset, stop.offset⟩
  pure ⟨⟨⟨.importStatement, span⟩,
    .importing ⟨span, clause.defaultName, clause.bindings, clause.specifier⟩⟩, false⟩

/-- An import is its clause and what comes behind it. -/
theorem importStatement_eq (start : Cursor) :
    n.importStatement start = n.importClause >>= n.importEnd start := by
  unfold importStatement importClause
  simp only [bind_assoc]
  refine congrArg _ (funext fun _ => congrArg _ (funext fun c => ?_))
  split
  · simp only [bind_assoc, pure_bind]
    rfl
  · split
    · simp only [bind_assoc]
      refine congrArg _ (funext fun name => congrArg _ (funext fun _ => congrArg _ (funext fun d => ?_)))
      split
      · simp only [bind_assoc, pure_bind]
        rfl
      · simp only [bind_assoc, pure_bind]
        rfl
    · simp only [bind_assoc, pure_bind]
      rfl

end Nested

/-! ## What the text of an import says -/

namespace ImportDeclaration

/-- What an import binds and what it names, without its place. -/
def clause (i : ImportDeclaration) : Clause := ⟨i.defaultName, i.bindings, i.specifier⟩

/-- A text begins with the word `import` and with tokens that say what an import binds and names. -/
def Says (i : ImportDeclaration) (t u : List Char) : Prop :=
  ∃ v ts, t = "import".toList ++ v ∧ Lexemes true ts v u ∧ ∀ us, i.clause.Said (ts ++ us) us

variable {i i' : ImportDeclaration} {t u u' : List Char}

/-- What an import says ends behind it. -/
theorem Says.suffix (h : i.Says t u) : u <:+ t := by
  obtain ⟨v, ts, rfl, hts, -⟩ := h
  obtain ⟨f, q, -, rfl, -⟩ := hts.exists_change
  exact ⟨"import".toList ++ (f ++ [q]), by simp⟩

/-- A text says one thing only. -/
theorem Says.unique (h : i.Says t u) (h' : i'.Says t u') : i.clause = i'.clause := by
  obtain ⟨v, ts, rfl, hts, hsaid⟩ := h
  obtain ⟨v', ts', heq, hts', hsaid'⟩ := h'
  obtain rfl := List.append_cancel_left heq
  rcases hts.prefix_or_prefix hts' with ⟨us, rfl⟩ | ⟨us, rfl⟩
  · exact ((hsaid (us ++ [])).unique (List.append_assoc ts us [] ▸ hsaid' [])).1
  · exact (Clause.Said.unique (List.append_assoc ts' us [] ▸ hsaid []) (hsaid' (us ++ []))).1

/-- What a text says ends at one place only. -/
theorem Says.rest_unique (h : i.Says t u) (h' : i'.Says t u') : u = u' := by
  obtain ⟨v, ts, rfl, hts, hsaid⟩ := h
  obtain ⟨v', ts', heq, hts', hsaid'⟩ := h'
  obtain rfl := List.append_cancel_left heq
  rcases hts.prefix_or_prefix hts' with ⟨us, rfl⟩ | ⟨us, rfl⟩
  · obtain ⟨-, hnil⟩ := (hsaid (us ++ [])).unique (List.append_assoc ts us [] ▸ hsaid' [])
    obtain rfl : us = [] := by simpa using hnil
    rw [List.append_nil] at hts'
    exact hts.rest_unique hts'
  · obtain ⟨-, hnil⟩ := Clause.Said.unique (List.append_assoc ts' us [] ▸ hsaid []) (hsaid' (us ++ []))
    obtain rfl : us = [] := by simpa using hnil
    rw [List.append_nil] at hts
    exact hts.rest_unique hts'

/-- What an import says stays when what comes behind it changes. -/
theorem Says.change {f : List Char} (h : i.Says (f ++ u) u) (w : List Char) : i.Says (f ++ w) w := by
  obtain ⟨v, ts, heq, hts, hsaid⟩ := h
  obtain ⟨f', q, -, rfl, hchange⟩ := hts.exists_change
  have htext : f ++ u = "import".toList ++ (f' ++ [q]) ++ u := by
    rw [heq]
    simp
  obtain rfl : f = "import".toList ++ (f' ++ [q]) := List.append_cancel_right htext
  refine ⟨f' ++ q :: w, ts, by simp, hchange w, hsaid⟩

end ImportDeclaration

end WasmEmbed.Script
