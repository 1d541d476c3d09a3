import WasmEmbed.Proofs.Binding.Chain

/-!
# The functions of a rewritten text

A rewriting leaves the functions of a text alone, but for the body of the loading function and one statement
of the starting function. On the characters this always holds: where a function was moved, the rewritten
text holds what the function should have become. What the parser makes of them there depends on what stands
around them; if it finds the functions in the places to which they were moved, they are the functions of the
source, in their order, with their kinds and names (`functions_of_rewrite`).
-/

namespace WasmEmbed.Binding

open Script Text

/-- Where a rewriting moved the functions of a text, the rewritten text holds what they should have become. If
they are found there, the functions of the rewritten text are those of the source but for the new body and the
empty statement. -/
theorem functions_of_rewrite {t : Target} {source out : List Char} (h : rewrite t source = .ok out) :
    ∃ r : Rewriting t source out, (∀ f ∈ r.before.functions, (r.place f.span).of out = r.text f) ∧
      (r.place r.load.body.span).of out = r.body ∧ (r.StaysInPlace → r.KeepsFunctions) := by
  obtain ⟨r⟩ := exists_rewriting h
  exact ⟨r, fun f hf => r.of_place hf, r.of_place_loadBody, r.keepsFunctions⟩

theorem functions_of_rewrite_ended :
    ∃ r : Rewriting Sample.target (Sample.source "a;b;c;") (Sample.rewritten Sample.target "a;b;;"),
      r.StaysInPlace ∧ r.KeepsFunctions := by
  obtain ⟨r, -, -, hkeeps⟩ := functions_of_rewrite Sample.rewrite_source_ended
  obtain ⟨hplace, -⟩ := Sample.stays_ended r
  exact ⟨r, hplace, hkeeps hplace⟩

/-- The functions are swallowed by a template. -/
theorem functions_of_rewrite_unveiled :
    ∃ r : Rewriting Sample.target Sample.veiled Sample.unveiled, ¬ r.KeepsFunctions := by
  obtain ⟨r⟩ := exists_rewriting Sample.rewrite_veiled
  refine ⟨r, fun hkeeps => ?_⟩
  obtain ⟨o, ho, -, hnone⟩ := Sample.exists_outline_unveiled
  obtain rfl := Option.some.inj (ho.symm.trans r.read_after)
  have hbody := hkeeps.loadBody
  rw [hnone] at hbody
  cases hbody

end WasmEmbed.Binding
