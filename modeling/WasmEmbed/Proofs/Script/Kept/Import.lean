import WasmEmbed.Proofs.Script.Import
import WasmEmbed.Proofs.Script.Kept.Reader

/-!
# Imports in front of any text

What an import says ends behind the quote of the string that names the module. Up to there the import is
read with any text behind it (`Nested.keeps_importClause`).

The parts of the clause are followed in the order in which they are read. Each of them ends in front of
the quote, except the specifier at the end, which is the string that the quote closes.
-/

namespace WasmEmbed.Script.Nested

open Reader

variable {n : Nested} {q : Char} {u v : List Char}

/-- The word `from` and the string behind it. -/
theorem keeps_fromClause (hq : isQuote q = true) (closed : Bool) : Keeps q u v closed n.fromClause := by
  unfold fromClause
  refine (keeps_toPlain hq).bind fun _ => (keeps_word hq "from").bind fun _ => ?_
  exact keeps_stringText hq closed

/-- The name of a binding, which may be a string itself. Then that string ends in front of the quote. -/
theorem keeps_exportName (hq : isQuote q = true) : Keeps q u v false n.exportName := by
  have hname : ∀ w, Keeps q u v false (require (!isReserved w || w == "default".toList) >>= fun _ =>
      pure (w, !isReserved w)) := fun w => .require fun _ => .pure
  have htext : Keeps q u v false (n.stringText >>= fun text => pure (text, false)) :=
    .map (keeps_stringText hq false)
  unfold exportName
  refine (keeps_toPlain hq).bind fun _ => ?_
  refine .of_run (fun c => ?_) (.ite (p := fun c => (n.nameAt? c).isSome)
    (fun hc => hc.isSome_nameAt? (isNameChar_of_isQuote hq)) ((keeps_anyName (n := n) hq).bind hname) htext)
  rw [run_get, run_get]
  cases hread : n.nameAt? c with
  | none => rfl
  | some p =>
      obtain ⟨w, d⟩ := p
      rw [Option.isSome_some, if_pos rfl, run_bind (show n.anyName c = some (w, d) from hread)]
      dsimp only
      cases !isReserved w || w == "default".toList <;> rfl

/-- The name behind `as`, or a look that does not find that word. -/
theorem keeps_alias (hq : isQuote q = true) : Keeps q u v false (n.alias? n.freeName) := by
  unfold alias?
  refine (keeps_toPlain hq).bind fun _ => .ite (fun hc => ?_) ?_ .pure
  · rw [hc.wordAt (isNameChar_of_isQuote hq)]
  · refine (keeps_anyName hq).bind fun _ => (keeps_toPlain hq).bind fun _ => ?_
    exact .map (keeps_freeName hq)

/-- One binding in braces. -/
theorem keeps_importBinding (hq : isQuote q = true) : Keeps q u v false n.importBinding := by
  unfold importBinding
  refine (keeps_exportName hq).bind fun p => (keeps_alias hq).bind fun localName? => ?_
  cases localName? with
  | none => exact .require fun _ => .pure
  | some localName => exact .pure

/-- The bindings in braces, by induction on the bound on their number. -/
theorem keeps_braceItems (hq : isQuote q = true) (k : Nat) :
    Keeps q u v false (n.braceItems n.importBinding k) := by
  induction k with
  | zero => exact .refuse
  | succ k ih =>
      unfold braceItems
      refine (keeps_toPlain hq).bind fun _ => .ifNext rfl hq .pure ?_
      refine (keeps_importBinding hq).bind fun b => (keeps_toPlain hq).bind fun _ => .ifNext rfl hq ?_ ?_
      · exact .map ih
      · exact (keeps_exactly hq rfl rfl).bind fun _ => .pure

/-- The bindings in braces, or a name for all that the module has. -/
theorem keeps_importBindings (hq : isQuote q = true) : Keeps q u v false n.importBindings := by
  unfold importBindings braceList
  refine (keeps_toPlain hq).bind fun _ => .ifNext rfl hq ?_ ?_
  · refine (keeps_toPlain hq).bind fun _ => (keeps_word hq "as").bind fun _ =>
      (keeps_toPlain hq).bind fun _ => ?_
    exact .map (keeps_freeName hq)
  · refine (keeps_exactly hq rfl rfl).bind fun _ => (keeps_toPlain hq).bind fun _ => .ifNext rfl hq ?_ ?_
    · exact (keeps_toPlain hq).bind fun _ => (keeps_exactly hq rfl rfl).bind fun _ => .pure
    · exact keeps_braceItems hq n.depth

/-- An import whose string ends with the quote is read up to there with any text behind it. -/
theorem keeps_importClause (hq : isQuote q = true) : Keeps q u v true n.importClause := by
  have hbindings : ∀ name, Keeps q u v true (n.importBindings >>= fun bindings =>
      n.fromClause >>= fun specifier => pure (⟨name, bindings, specifier⟩ : Clause)) :=
    fun name => (keeps_importBindings hq).bind fun _ => .map (keeps_fromClause hq true)
  unfold importClause
  refine (keeps_toPlain hq).bind fun _ => .ite_ite (fun hc => hc.nextIs)
    (fun hc => hc.isSome_nameAt? (isNameChar_of_isQuote hq)) ?_ ?_ (hbindings none)
  · exact .map (keeps_stringText hq true)
  · refine (keeps_freeName hq).bind fun name => (keeps_toPlain hq).bind fun _ =>
      .ifNext rfl hq (hbindings _) ?_
    exact .map (keeps_fromClause hq true)

end WasmEmbed.Script.Nested
