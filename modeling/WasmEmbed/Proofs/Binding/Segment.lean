import WasmEmbed.Proofs.Binding.Edit
import WasmEmbed.Proofs.Script.Cursor
import WasmEmbed.Proofs.Text.Utf8

/-!
# Edits of a text in segments

Edits are made on bytes. Where they replace whole characters by whole characters, they can be followed on
the text itself: it is cut into segments, each of which is a part that is kept and a part that is replaced
(`Segment`), and the edits put the new parts in the place of the old ones (`applyAll?_segments`). Edits
that are given are those of segments if no two of them overlap (`exists_of_apart`).
-/

namespace WasmEmbed.Binding

open Script Text

/-- A part of a text that is kept, and the part behind it that is replaced. -/
structure Segment where
  kept : List Char
  old : List Char
  new : List Char

namespace Segment

/-- The text of segments before it is edited, with what stands behind them. -/
def before : List Segment → (behind : List Char) → List Char
  | [], behind => behind
  | g :: rest, behind => g.kept ++ (g.old ++ before rest behind)

/-- The text of segments after it was edited, with what stands behind them. -/
def after : List Segment → (behind : List Char) → List Char
  | [], behind => behind
  | g :: rest, behind => g.kept ++ (g.new ++ after rest behind)

/-- The edits of segments that begin behind the front of a text. -/
def edits : (front : List Char) → List Segment → List Edit
  | _, [] => []
  | front, g :: rest =>
    ⟨⟨byteCount (front ++ g.kept), byteCount (front ++ g.kept ++ g.old)⟩, Utf8.encode g.new⟩ ::
      edits (front ++ g.kept ++ g.old) rest

theorem le_start_of_mem_edits {front : List Char} {segments : List Segment} {e : Edit}
    (h : e ∈ edits front segments) : byteCount front ≤ e.span.start := by
  induction segments generalizing front with
  | nil => exact nomatch h
  | cons g rest ih =>
      rcases List.mem_cons.mp h with rfl | h
      · rw [byteCount_append]
        exact Nat.le_add_right _ _
      · have := ih h
        simp only [byteCount_append] at this
        omega

/-- The edits of segments come one behind the other. -/
theorem pairwise_edits (front : List Char) (segments : List Segment) :
    (edits front segments).Pairwise Edit.IsBefore := by
  induction segments generalizing front with
  | nil => exact .nil
  | cons g rest ih => exact List.pairwise_cons.mpr ⟨fun e he => le_start_of_mem_edits he, ih _⟩

/-- The edits of segments lie in their text, and replace something if the segments have old parts. -/
theorem isIn_of_mem_edits (front behind : List Char) {segments : List Segment}
    (hold : ∀ g ∈ segments, g.old ≠ []) {e : Edit} (he : e ∈ edits front segments) :
    e.span.start < e.span.stop ∧ e.span.stop ≤ (Utf8.encode (front ++ before segments behind)).length := by
  induction segments generalizing front with
  | nil => exact nomatch he
  | cons g rest ih =>
      have htext : front ++ before (g :: rest) behind = front ++ g.kept ++ g.old ++ before rest behind := by
        simp only [before, List.append_assoc]
      have hpos : byteCount g.old ≠ 0 := fun h => hold g List.mem_cons_self (byteCount_eq_zero.mp h)
      rw [htext]
      rcases List.mem_cons.mp he with rfl | he
      · simp only [Utf8.length_encode, byteCount_append]
        omega
      · exact ih _ (fun g' hg' => hold g' (List.mem_cons_of_mem g hg')) he

theorem between_encode (front kept back : List Char) :
    Edit.between (Utf8.encode (front ++ (kept ++ back))) (byteCount front) (byteCount (front ++ kept)) =
      Utf8.encode kept := by
  rw [Edit.between, byteCount_append, Nat.add_sub_cancel_left, Utf8.encode_append, Utf8.encode_append,
    ← Utf8.length_encode front, List.drop_left, ← Utf8.length_encode kept, List.take_left]

/-- Edits that are made at once put the new parts in the place of the old ones. -/
theorem splice_edits (front : List Char) (segments : List Segment) (behind : List Char) :
    Edit.splice (Utf8.encode (front ++ before segments behind)) (byteCount front)
      (edits front segments) = Utf8.encode (after segments behind) := by
  induction segments generalizing front with
  | nil =>
      show (Utf8.encode (front ++ behind)).drop (byteCount front) = Utf8.encode behind
      rw [Utf8.encode_append, ← Utf8.length_encode front, List.drop_left]
  | cons g rest ih =>
      have hrest := ih (front ++ g.kept ++ g.old)
      rw [List.append_assoc, List.append_assoc] at hrest
      rw [edits, Edit.splice, before, hrest, between_encode, after]
      simp only [Utf8.encode_append, List.append_assoc]

/-- Edits of a text are made on its segments, in whatever order they are given. -/
theorem applyAll?_segments (segments : List Segment) (behind : List Char) {given : List Edit}
    (hperm : (edits [] segments).Perm given) (hold : ∀ g ∈ segments, g.old ≠ []) :
    Edit.applyAll? (Utf8.encode (before segments behind)) given =
      some (Utf8.encode (after segments behind)) := by
  rw [← splice_edits [] segments behind]
  exact Edit.applyAll?_of_perm hperm (fun e he => isIn_of_mem_edits [] behind hold he)
    (pairwise_edits [] segments)

/-- A character of the edited text was there before or was put there by an edit. -/
theorem mem_of_mem_after (front : List Char) {segments : List Segment} {behind : List Char} {x : Char}
    (h : x ∈ after segments behind) :
    x ∈ before segments behind ∨
      ∃ e ∈ edits front segments, ∃ new, e.replacement = Utf8.encode new ∧ x ∈ new := by
  induction segments generalizing front with
  | nil => exact Or.inl h
  | cons g rest ih =>
      simp only [after, List.mem_append] at h
      simp only [before, List.mem_append]
      rcases h with hkept | hnew | hrest
      · exact Or.inl (Or.inl hkept)
      · exact Or.inr ⟨_, List.mem_cons_self, g.new, rfl, hnew⟩
      · rcases ih (front ++ g.kept ++ g.old) hrest with hbefore | ⟨e, he, hnew⟩
        · exact Or.inl (Or.inr (Or.inr hbefore))
        · exact Or.inr ⟨e, List.mem_cons_of_mem _ he, hnew⟩

/-! ## Segments of given edits -/

/-- Edits of whole characters, one behind the other from the end of a front on, are edits of segments. -/
theorem exists_of_ordered (front rest : List Char) {given : List Edit}
    (hon : ∀ e ∈ given, e.span.IsOn (front ++ rest) ∧ ∃ new, e.replacement = Utf8.encode new)
    (hfrom : ∀ e ∈ given, byteCount front ≤ e.span.start) (hbefore : given.Pairwise Edit.IsBefore) :
    ∃ segments behind, rest = before segments behind ∧ edits front segments = given ∧
      ∀ g ∈ segments, g.old ≠ [] := by
  induction given generalizing front rest with
  | nil => exact ⟨[], rest, rfl, rfl, by simp⟩
  | cons e given ih =>
      obtain ⟨⟨u, old, w, hold, htext, hspan⟩, new, hnew⟩ := hon e List.mem_cons_self
      obtain ⟨hhead, htail⟩ := List.pairwise_cons.mp hbefore
      have hle : byteCount front ≤ byteCount u := by
        have := hfrom e List.mem_cons_self
        rwa [hspan] at this
      -- The edit begins behind the front, so what it keeps is what stands between.
      obtain ⟨kept, rfl⟩ := exists_append_of_byteCount_le (htext.trans (List.append_assoc u old w)) hle
      have hrest : rest = kept ++ (old ++ w) := by
        simpa only [List.append_assoc, List.append_cancel_left_eq] using htext
      obtain ⟨segments, behind, hw, hedits, hsegments⟩ :=
        ih (front ++ kept ++ old) w
          (fun e' he' => by rw [← htext]; exact hon e' (List.mem_cons_of_mem e he'))
          (fun e' he' => by have := hhead e' he'; rwa [Edit.IsBefore, hspan] at this) htail
      refine ⟨⟨kept, old, new⟩ :: segments, behind, ?_, ?_, ?_⟩
      · rw [before, ← hw]
        exact hrest
      · obtain ⟨span, replacement⟩ := e
        simp only at hspan hnew
        rw [edits, hedits, hspan, hnew]
      · intro g hg
        rcases List.mem_cons.mp hg with rfl | hg
        · exact hold
        · exact hsegments g hg

/-- Edits of whole characters, no two of which overlap, are the edits of segments in some order. -/
theorem exists_of_apart {text : List Char} {given : List Edit}
    (hon : ∀ e ∈ given, e.span.IsOn text ∧ ∃ new, e.replacement = Utf8.encode new)
    (hapart : given.Pairwise fun a b => a.IsBefore b ∨ b.IsBefore a) :
    ∃ segments behind, text = before segments behind ∧ (edits [] segments).Perm given ∧
      ∀ g ∈ segments, g.old ≠ [] := by
  have hsorted := Edit.sorted_perm given
  have hbefore := Edit.pairwise_isBefore_sorted (fun e he => (hon e he).1.start_lt) hapart
  obtain ⟨segments, behind, htext, hedits, hold⟩ := exists_of_ordered [] text
    (fun e he => hon e (hsorted.mem_iff.mp he)) (fun e _ => Nat.zero_le _) hbefore
  exact ⟨segments, behind, htext, hedits ▸ hsorted, hold⟩

/-! ## The bytes of segments -/

theorem encode_before (segments : List Segment) (behind : List Char) :
    Utf8.encode (before segments behind) =
      (segments.flatMap fun g => Utf8.encode g.kept ++ Utf8.encode g.old) ++ Utf8.encode behind := by
  induction segments with
  | nil => rfl
  | cons g rest ih =>
      rw [before, Utf8.encode_append, Utf8.encode_append, ih, List.flatMap_cons]
      simp only [List.append_assoc]

theorem encode_after (segments : List Segment) (behind : List Char) :
    Utf8.encode (after segments behind) =
      (segments.flatMap fun g => Utf8.encode g.kept ++ Utf8.encode g.new) ++ Utf8.encode behind := by
  induction segments with
  | nil => rfl
  | cons g rest ih =>
      rw [after, Utf8.encode_append, Utf8.encode_append, ih, List.flatMap_cons]
      simp only [List.append_assoc]

end Segment

end WasmEmbed.Binding
