import WasmEmbed.Text.LineEnd

/-!
# Texts with unified line ends

Unifying line ends leaves all characters but those of line ends. A text whose lines were ended by line feeds
has no carriage return left, and a text without carriage returns stays as it is.
-/

namespace WasmEmbed.Text

/-- Line ends apart, unifying line ends changes nothing. -/
theorem count_unifyLineEnds {c : Char} (hreturn : c ≠ '\r') (hfeed : c ≠ '\n') (text : List Char) :
    (unifyLineEnds text).count c = text.count c := by
  have hfrom : ∀ done, (unifyLineEndsFrom done text).count c = done.count c + text.count c := by
    intro done
    fun_induction unifyLineEndsFrom done text with
    | case1 done => simp
    | case2 done rest ih =>
        rw [ih]
        simp [Ne.symm hreturn, Ne.symm hfeed]
    | case3 done d rest hne ih =>
        rw [ih]
        by_cases hd : d = '\r'
        · simp [hd, Ne.symm hreturn, Ne.symm hfeed]
        · simp [List.count_cons, hd]
          omega
  rw [unifyLineEnds, hfrom []]
  simp

theorem return_notMem_unifyLineEnds (text : List Char) : '\r' ∉ unifyLineEnds text := by
  have hfrom : ∀ done : List Char, '\r' ∉ done → '\r' ∉ unifyLineEndsFrom done text := by
    intro done
    fun_induction unifyLineEndsFrom done text with
    | case1 done => simp
    | case2 done rest ih => exact fun hdone => ih (by simpa using hdone)
    | case3 done c rest hne ih =>
        intro hdone
        refine ih fun hmem => ?_
        rcases List.mem_cons.mp hmem with hc | hmem
        · split at hc
          · cases hc
          · next hreturn => exact hreturn hc.symm
        · exact hdone hmem
  exact hfrom [] (by simp)

theorem unifyLineEnds_of_notMem {text : List Char} (h : '\r' ∉ text) : unifyLineEnds text = text := by
  have hfrom : ∀ done : List Char, unifyLineEndsFrom done text = done.reverse ++ text := by
    intro done
    fun_induction unifyLineEndsFrom done text with
    | case1 done => simp
    | case2 done rest ih => simp at h
    | case3 done c rest hne ih =>
        rw [List.mem_cons, not_or] at h
        obtain ⟨hc, hrest⟩ := h
        rw [ih hrest, if_neg (Ne.symm hc)]
        simp
  exact hfrom []

end WasmEmbed.Text
