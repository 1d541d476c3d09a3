import Mathlib.Algebra.Ring.Nat
import WasmEmbed.Proofs.Binding.Segment
import WasmEmbed.Proofs.Script.Read

/-!
# Where edits move a place

An edit moves what stands behind it. `Edit.moved` is the place of an offset after edits, which is found again
on the edited text (`Segment.exists_moved`): a range that no edit crosses is moved to the range that holds
the edited characters of the range.

Offsets are moved by what the edits in front of them add and take away. The order of the edits plays no
role for that, so the lemmas use the order of the text and the results hold in any.
-/

namespace WasmEmbed.Binding

open Script Text

namespace Edit

/-- The place of an offset after edits were made. An edit that ends at the offset or in front of it moves
it. -/
def moved (edits : List Edit) (o : Nat) : Nat :=
  let front := edits.filter fun e => decide (e.span.stop ≤ o)
  o + (front.map fun e => e.replacement.length).sum - (front.map fun e => e.span.stop - e.span.start).sum

/-- The place of a range after edits were made. -/
def movedSpan (edits : List Edit) (p : Span) : Span := ⟨moved edits p.start, moved edits p.stop⟩

/-- The order of the edits plays no role. -/
theorem moved_perm {edits edits' : List Edit} (h : edits.Perm edits') (o : Nat) :
    moved edits o = moved edits' o := by
  have hfront := h.filter fun e => decide (e.span.stop ≤ o)
  rw [moved, moved, (hfront.map _).sum_nat, (hfront.map _).sum_nat]

/-- Of edits in front of an offset and behind it, those in front of it move it by what they add and what they
remove. -/
theorem moved_eq {front back edits : List Edit} {o n : Nat} (hperm : (front ++ back).Perm edits)
    (hfront : ∀ e ∈ front, e.span.stop ≤ o) (hback : ∀ e ∈ back, o < e.span.stop)
    (hsum : o + (front.map fun e => e.replacement.length).sum =
      n + (front.map fun e => e.span.stop - e.span.start).sum) : moved edits o = n := by
  have hfilter : (front ++ back).filter (fun e => decide (e.span.stop ≤ o)) = front := by
    rw [List.filter_append, List.filter_eq_self.mpr (by simpa using hfront),
      List.filter_eq_nil_iff.mpr (by simpa using hback), List.append_nil]
  rw [← moved_perm hperm, moved, hfilter]
  exact Nat.sub_eq_of_eq_add hsum

/-- Whether an edit replaces a part of a range. -/
def isInside (p : Span) (e : Edit) : Bool := decide (p.start ≤ e.span.start) && decide (e.span.stop ≤ p.stop)

/-- An edit does not cross an offset. -/
def Spares (o : Nat) (e : Edit) : Prop := e.span.stop ≤ o ∨ o ≤ e.span.start

/-- An edit apart from a range crosses neither of its ends. -/
theorem spares_of_apart {e : Edit} {p : Span} (hp : p.start ≤ p.stop) (h : Outline.Apart e.span p) :
    e.Spares p.start ∧ e.Spares p.stop := by
  rcases h with h | h
  · exact ⟨Or.inl h, Or.inl (Nat.le_trans h hp)⟩
  · exact ⟨Or.inr (Nat.le_trans hp h), Or.inr h⟩

/-- An edit inside a range crosses neither of its ends. -/
theorem spares_of_isInside {e : Edit} {p : Span} (h : isInside p e = true) :
    e.Spares p.start ∧ e.Spares p.stop := by
  simp only [isInside, Bool.and_eq_true, decide_eq_true_eq] at h
  exact ⟨Or.inr h.1, Or.inl h.2⟩

/-- An edit apart from a range is not inside it. -/
theorem isInside_eq_false {e : Edit} {p : Span} (he : e.span.start < e.span.stop)
    (h : Outline.Apart e.span p) : isInside p e = false := by
  rw [Bool.eq_false_iff]
  intro hinside
  simp only [isInside, Bool.and_eq_true, decide_eq_true_eq] at hinside
  rcases h with h | h
  · omega
  · omega

/-- Of edits that lie apart from one another, an edit is the only one inside its own range, and none crosses
the ends of that range. -/
theorem filter_isInside_of_mem {edits : List Edit} {e : Edit}
    (hlt : ∀ e' ∈ edits, e'.span.start < e'.span.stop)
    (hapart : edits.Pairwise fun a b => a.IsBefore b ∨ b.IsBefore a) (he : e ∈ edits) :
    edits.filter (isInside e.span) = [e] ∧ ∀ e' ∈ edits, e'.Spares e.span.start ∧ e'.Spares e.span.stop := by
  have hself : isInside e.span e = true := by simp [isInside]
  have hle := Nat.le_of_lt (hlt e he)
  obtain ⟨front, back, rfl⟩ := List.append_of_mem he
  obtain ⟨-, hback, hfront⟩ := List.pairwise_append.mp hapart
  -- An edit that is apart from this one is not inside its range.
  have hothers : ∀ e' ∈ front ++ back, Outline.Apart e'.span e.span := by
    intro e' he'
    rcases List.mem_append.mp he' with he' | he'
    · exact hfront e' he' e List.mem_cons_self
    · exact Outline.Apart.symm ((List.pairwise_cons.mp hback).1 e' he')
  have hnone : ∀ part : List Edit, part ⊆ front ++ back → part.filter (isInside e.span) = [] := by
    intro part hpart
    refine List.filter_eq_nil_iff.mpr fun e' he' => ?_
    have hmem : e' ∈ front ++ e :: back := by
      rcases List.mem_append.mp (hpart he') with h | h
      · exact List.mem_append_left _ h
      · exact List.mem_append_right _ (List.mem_cons_of_mem e h)
    rw [isInside_eq_false (hlt e' hmem) (hothers e' (hpart he'))]
    exact Bool.false_ne_true
  constructor
  · rw [List.filter_append, List.filter_cons_of_pos hself, hnone front (List.subset_append_left _ _),
      hnone back (List.subset_append_right _ _), List.nil_append]
  · intro e' he'
    rcases List.mem_append.mp he' with h | h
    · exact spares_of_apart hle (hothers e' (List.mem_append_left _ h))
    rcases List.mem_cons.mp h with rfl | h
    · exact spares_of_isInside hself
    · exact spares_of_apart hle (hothers e' (List.mem_append_right _ h))

/-- Of edits in front of a range, inside it and behind it, those inside it are inside it. -/
theorem filter_isInside {front inside back : List Edit} {p : Span}
    (hlt : ∀ e ∈ front ++ inside ++ back, e.span.start < e.span.stop)
    (hfront : ∀ e ∈ front, e.span.stop ≤ p.start)
    (hinside : ∀ e ∈ inside, p.start ≤ e.span.start ∧ e.span.stop ≤ p.stop)
    (hback : ∀ e ∈ back, p.stop ≤ e.span.start) :
    (front ++ inside ++ back).filter (isInside p) = inside := by
  have hnone : ∀ edits : List Edit, (∀ e ∈ edits, ¬ (p.start ≤ e.span.start ∧ e.span.stop ≤ p.stop)) →
      edits.filter (isInside p) = [] := fun edits h =>
    List.filter_eq_nil_iff.mpr fun e he => by simpa [isInside] using h e he
  have hall : inside.filter (isInside p) = inside :=
    List.filter_eq_self.mpr fun e he => by simpa [isInside] using hinside e he
  rw [List.filter_append, List.filter_append, hall, hnone front fun e he => ?_, hnone back fun e he => ?_,
    List.nil_append, List.append_nil]
  · have := hlt e (List.mem_append_right _ he)
    have := hback e he
    omega
  · have := hlt e (List.mem_append_left _ (List.mem_append_left _ he))
    have := hfront e he
    omega

end Edit

namespace Segment

/-- Each edit of the segments ends in the text. -/
theorem stop_le_of_mem_edits {front : List Char} {segments : List Segment} (behind : List Char) {e : Edit}
    (h : e ∈ edits front segments) : e.span.stop ≤ byteCount (front ++ before segments behind) := by
  induction segments generalizing front with
  | nil => cases h
  | cons g rest ih =>
      have htext : front ++ before (g :: rest) behind = front ++ g.kept ++ g.old ++ before rest behind := by
        simp only [before, List.append_assoc]
      rw [htext]
      rcases List.mem_cons.mp h with rfl | h
      · rw [byteCount_append (front ++ g.kept ++ g.old)]
        exact Nat.le_add_right _ _
      · exact ih h

/-- What edits add and what they remove is the difference of the two texts. -/
theorem byteCount_after (front : List Char) (segments : List Segment) (behind : List Char) :
    byteCount (before segments behind) + ((edits front segments).map fun e => e.replacement.length).sum =
      byteCount (after segments behind) +
        ((edits front segments).map fun e => e.span.stop - e.span.start).sum := by
  induction segments generalizing front with
  | nil => rfl
  | cons g rest ih =>
      have hrest := ih (front ++ g.kept ++ g.old)
      simp only [before, after, edits, List.map_cons, List.sum_cons, byteCount_append, Utf8.length_encode]
        at hrest ⊢
      omega

/-- Where no edit crosses a place, the segments are cut there. -/
theorem exists_cut (front : List Char) {u w : List Char} {segments : List Segment} {behind : List Char}
    (h : before segments behind = u ++ w)
    (hcut : ∀ e ∈ edits front segments, e.Spares (byteCount (front ++ u))) :
    ∃ first between last rest, u = before first between ∧ w = before last rest ∧
      after segments behind = after first between ++ after last rest ∧
      edits front segments = edits front first ++ edits (front ++ u) last := by
  induction segments generalizing front u with
  | nil => exact ⟨[], u, [], w, rfl, rfl, h, rfl⟩
  | cons g segments ih =>
      have htext : g.kept ++ g.old ++ before segments behind = u ++ w := by
        rw [← h, before, List.append_assoc]
      rcases hcut _ List.mem_cons_self with hfront | hback
      · -- The first segment stands in front of the place.
        have hle : byteCount (g.kept ++ g.old) ≤ byteCount u := by
          simp only [byteCount_append] at hfront ⊢
          omega
        obtain ⟨u, rfl⟩ := exists_append_of_byteCount_le htext hle
        rw [List.append_assoc _ u] at htext
        have hrest : front ++ (g.kept ++ g.old ++ u) = front ++ g.kept ++ g.old ++ u := by
          simp only [List.append_assoc]
        obtain ⟨first, between, last, rest, rfl, rfl, hafter, hedits⟩ :=
          ih (front ++ g.kept ++ g.old) (List.append_cancel_left htext) fun e he =>
          hrest ▸ hcut e (List.mem_cons_of_mem _ he)
        refine ⟨g :: first, between, last, rest, ?_, rfl, ?_, ?_⟩
        · rw [before, List.append_assoc]
        · simp only [after, hafter, List.append_assoc]
        · rw [hrest, edits, edits, hedits, List.cons_append]
      · -- The place is in what the first segment keeps.
        have hle : byteCount u ≤ byteCount g.kept := by
          simp only [byteCount_append] at hback
          omega
        rw [List.append_assoc] at htext
        obtain ⟨kept, hkept⟩ := exists_append_of_byteCount_le htext.symm hle
        rw [hkept, List.append_assoc] at htext
        refine ⟨[], u, ⟨kept, g.old, g.new⟩ :: segments, behind, rfl, ?_, ?_, ?_⟩
        · rw [before]
          exact (List.append_cancel_left htext).symm
        · simp only [after, hkept, List.append_assoc]
        · simp only [edits, hkept, List.append_assoc, List.nil_append]

/-- Where no edit crosses its ends, the segments are cut at both ends of a range. -/
theorem exists_cut_range {u v w : List Char} {segments : List Segment} {behind : List Char}
    (h : before segments behind = u ++ v ++ w)
    (hcut : ∀ e ∈ edits [] segments, e.Spares (byteCount u) ∧ e.Spares (byteCount (u ++ v))) :
    ∃ first between middle rest last rest', u = before first between ∧ v = before middle rest ∧
      w = before last rest' ∧
      after segments behind = after first between ++ after middle rest ++ after last rest' ∧
      edits [] segments = edits [] first ++ edits u middle ++ edits (u ++ v) last := by
  obtain ⟨front, between', last, rest', hfront, hlast, hafter, hedits⟩ :=
    exists_cut [] h fun e he => (hcut e he).2
  -- What is in front of the end of the range is cut at its beginning.
  obtain ⟨first, between, middle, rest, hfirst, hmiddle, hafter', hedits'⟩ :=
    exists_cut [] hfront.symm fun e he => (hcut e (hedits ▸ List.mem_append_left _ he)).1
  refine ⟨first, between, middle, rest, last, rest', hfirst, hmiddle, hlast, ?_, ?_⟩
  · rw [hafter, hafter']
  · rw [hedits, hedits']
    rfl

/-- A range that no edit crosses is moved to the range of the edited text that holds what becomes of it. -/
theorem exists_moved {segments : List Segment} {behind : List Char} {given : List Edit} {p : Span}
    (hperm : (edits [] segments).Perm given) (hold : ∀ e ∈ given, e.span.start < e.span.stop)
    (hp : p.IsOn (before segments behind))
    (hcut : ∀ e ∈ given, e.Spares p.start ∧ e.Spares p.stop) :
    ∃ u middle rest w x z, before segments behind = u ++ before middle rest ++ w ∧
      p = ⟨byteCount u, byteCount (u ++ before middle rest)⟩ ∧
      after segments behind = x ++ after middle rest ++ z ∧
      Edit.movedSpan given p = ⟨byteCount x, byteCount (x ++ after middle rest)⟩ ∧
      (edits u middle).Perm (given.filter (Edit.isInside p)) := by
  obtain ⟨u, v, w, -, htext, rfl⟩ := hp
  have hlt : ∀ e ∈ edits [] segments, e.span.start < e.span.stop := fun e he => hold e (hperm.mem_iff.mp he)
  obtain ⟨first, between, middle, rest, last, rest', hu, rfl, rfl, hafter, hedits⟩ :=
    exists_cut_range htext fun e he => hcut e (hperm.mem_iff.mp he)
  rw [hedits] at hperm hlt
  -- No edit is across an end of the range, so each is in front of it, inside it or behind it.
  have hfirst : ∀ e ∈ edits [] first, e.span.stop ≤ byteCount u :=
    fun e he => hu ▸ stop_le_of_mem_edits between he
  have hmiddle : ∀ e ∈ edits u middle, byteCount u ≤ e.span.start ∧
      e.span.stop ≤ byteCount (u ++ before middle rest) :=
    fun e he => ⟨le_start_of_mem_edits he, stop_le_of_mem_edits rest he⟩
  have hlast : ∀ e ∈ edits (u ++ before middle rest) last,
      byteCount (u ++ before middle rest) ≤ e.span.start := fun e he => le_start_of_mem_edits he
  have hle : byteCount u ≤ byteCount (u ++ before middle rest) := by
    rw [byteCount_append]
    exact Nat.le_add_right _ _
  have haddFirst := byteCount_after [] first between
  have haddMiddle := byteCount_after u middle rest
  rw [← hu] at haddFirst
  refine ⟨u, middle, rest, _, after first between, after last rest', htext, rfl, hafter, ?_, ?_⟩
  · have hstart : Edit.moved given (byteCount u) = byteCount (after first between) := by
      refine Edit.moved_eq (List.append_assoc _ _ _ ▸ hperm) hfirst (fun e he => ?_) haddFirst
      rcases List.mem_append.mp he with hin | hback
      · exact Nat.lt_of_le_of_lt (hmiddle e hin).1
          (hlt e (List.mem_append_left _ (List.mem_append_right _ hin)))
      · exact Nat.lt_of_le_of_lt (Nat.le_trans hle (hlast e hback)) (hlt e (List.mem_append_right _ hback))
    have hstop : Edit.moved given (byteCount (u ++ before middle rest)) =
        byteCount (after first between ++ after middle rest) := by
      refine Edit.moved_eq hperm (fun e he => ?_)
        (fun e he => Nat.lt_of_le_of_lt (hlast e he) (hlt e (List.mem_append_right _ he))) ?_
      · rcases List.mem_append.mp he with hfront | hin
        · exact Nat.le_trans (hfirst e hfront) hle
        · exact (hmiddle e hin).2
      · simp only [List.map_append, List.sum_append, byteCount_append]
        omega
    rw [Edit.movedSpan, hstart, hstop]
  · have hfilter := Edit.filter_isInside (p := ⟨byteCount u, _⟩) hlt hfirst hmiddle hlast
    rw [← hfilter]
    exact hperm.filter _

end Segment

end WasmEmbed.Binding
