import Mathlib.Algebra.Order.BigOperators.Group.List
import Mathlib.Algebra.Order.Group.Nat
import TransitionMatrix.Proofs.Symbolic.Ranks

/-!
# Numbers of choices in a table

In a table, the choices of a state that have a transition are numbered in increasing order of their
encodings: the number of a choice is its place among them.
-/

namespace TransitionMatrix

namespace ChoiceNumbering

open Transition

/-- The choices of a state that have a transition in a table, in increasing order. -/
def used (n numChoices : Nat) (weight? : Nat → Nat → Nat → Option Binary64) (src : Nat) :
    List Nat :=
  (List.range numChoices).filter fun choice =>
    (List.range n).any fun dst => (weight? src choice dst).isSome

variable {n numChoices : Nat} {weight? : Nat → Nat → Nat → Option Binary64} {src choice number : Nat}

theorem pairwise_used (src : Nat) : (used n numChoices weight? src).Pairwise (· < ·) :=
  List.pairwise_lt_range.filter _

theorem nodup_used (src : Nat) : (used n numChoices weight? src).Nodup :=
  List.nodup_range.filter _

theorem mem_used : choice ∈ used n numChoices weight? src ↔
    choice < numChoices ∧ ∃ dst < n, ∃ w, weight? src choice dst = some w := by
  rw [used, List.mem_filter, List.mem_range, List.any_eq_true]
  refine and_congr_right fun _ => ?_
  constructor
  · rintro ⟨dst, hdst, hsome⟩
    exact ⟨dst, List.mem_range.1 hdst, Option.isSome_iff_exists.1 hsome⟩
  · rintro ⟨dst, hdst, hsome⟩
    exact ⟨dst, List.mem_range.2 hdst, Option.isSome_iff_exists.2 hsome⟩

theorem mem_used_iff_mem_table (hsrc : src < n) : choice ∈ used n numChoices weight? src ↔
    ∃ t ∈ table n numChoices weight?, t.src = src ∧ t.choice = choice := by
  rw [mem_used]
  constructor
  · rintro ⟨hchoice, dst, hdst, w, hw⟩
    exact ⟨⟨src, choice, dst, w⟩, mem_table.2 ⟨⟨hsrc, hchoice, hdst⟩, hw⟩, rfl, rfl⟩
  · rintro ⟨t, ht, rfl, rfl⟩
    obtain ⟨⟨_, hchoice, hdst⟩, hw⟩ := mem_table.1 ht
    exact ⟨hchoice, t.dst, hdst, t.weight, hw⟩

/-- There are no more choices than transitions. -/
theorem sum_length_used_le : ((List.range n).map fun src =>
    (used n numChoices weight? src).length).sum ≤ (table n numChoices weight?).length := by
  rw [table, List.length_flatMap]
  refine List.sum_le_sum fun src _ => ?_
  -- each choice is that of some transition, and no two choices are that of the same one
  have hsub : used n numChoices weight? src ⊆ ((List.range numChoices).flatMap fun choice =>
      ofCells src choice (Cell.ofWeights n (weight? src choice))).map Transition.choice := by
    intro choice hchoice
    obtain ⟨hlt, dst, hdst, w, hw⟩ := mem_used.1 hchoice
    have hcell : ⟨dst, w⟩ ∈ Cell.ofWeights n (weight? src choice) := Cell.mem_ofWeights.2 ⟨hdst, hw⟩
    exact List.mem_map.2 ⟨⟨src, choice, dst, w⟩, List.mem_flatMap.2
      ⟨choice, List.mem_range.2 hlt, List.mem_map.2 ⟨_, hcell, rfl⟩⟩, rfl⟩
  have hle := ((nodup_used src).subperm hsub).length_le
  rwa [List.length_map] at hle

theorem sorted_table :
    (table n numChoices weight?).Pairwise fun t u => t.le u = true :=
  pairwise_table.imp fun hlt => le_iff.2 (Or.inl hlt)

theorem choicesAt_table (hsrc : src < n) :
    choicesAt (table n numChoices weight?) src = (used n numChoices weight? src).toFinset := by
  ext choice
  rw [mem_choicesAt, List.mem_toFinset, mem_used_iff_mem_table hsrc]

/-- In an increasing list, those before an element are those that are smaller. -/
theorem filter_lt_eq_take {xs : List Nat} (h : xs.Pairwise (· < ·)) {x k : Nat}
    (hx : xs[k]? = some x) : (xs.filter fun y => y < x) = xs.take k := by
  induction xs generalizing k with
  | nil => cases hx
  | cons a rest ih =>
    obtain ⟨ha, hrest⟩ := List.pairwise_cons.1 h
    cases k with
    | zero =>
      cases hx
      rw [List.take_zero, List.filter_eq_nil_iff]
      intro y hy hlt
      rcases List.mem_cons.1 hy with rfl | hy
      · simp at hlt
      · have hgt := ha y hy
        simp only [decide_eq_true_eq] at hlt
        omega
    | succ k =>
      have hx : rest[k]? = some x := hx
      have hlt := ha x (List.mem_of_getElem? hx)
      rw [List.take_succ_cons, List.filter_cons_of_pos (by simpa using hlt), ih hrest hx]

theorem rank_table (hsrc : src < n) (h : (used n numChoices weight? src)[number]? = some choice) :
    rank (table n numChoices weight?) src choice = number := by
  have hsmaller : ((choicesAt (table n numChoices weight?) src).filter fun c => c < choice)
      = ((used n numChoices weight? src).take number).toFinset := by
    rw [choicesAt_table hsrc, ← filter_lt_eq_take (pairwise_used src) h]
    ext c
    simp
  have hnodup : ((used n numChoices weight? src).take number).Nodup :=
    (nodup_used src).sublist (List.take_sublist _ _)
  have hlt := (List.getElem?_eq_some_iff.1 h).1
  rw [rank, hsmaller, List.toFinset_card_of_nodup hnodup, List.length_take,
    Nat.min_eq_left (Nat.le_of_lt hlt)]

/-- The number of a choice is its place among the choices of its state. -/
theorem number?_table :
    (ofSorted (table n numChoices weight?)).number? src choice = some number ↔
      src < n ∧ (used n numChoices weight? src)[number]? = some choice := by
  rw [number?_eq_some_iff sorted_table]
  constructor
  · rintro ⟨hmem, rfl⟩
    obtain ⟨t, ht, hsrc, _⟩ := mem_choicesAt.1 hmem
    have hsrc : src < n := hsrc ▸ (mem_table.1 ht).1.1
    rw [choicesAt_table hsrc, List.mem_toFinset] at hmem
    obtain ⟨place, hplace⟩ := List.mem_iff_getElem?.1 hmem
    exact ⟨hsrc, by rw [rank_table hsrc hplace, hplace]⟩
  · rintro ⟨hsrc, hplace⟩
    refine ⟨?_, rank_table hsrc hplace⟩
    rw [choicesAt_table hsrc, List.mem_toFinset]
    exact List.mem_of_getElem? hplace

/-- A state has as many choices as it has choices with a transition. -/
theorem counts_table : (ofSorted (table n numChoices weight?)).counts n
    = (List.range n).map fun src => (used n numChoices weight? src).length := by
  rw [counts_ofSorted sorted_table]
  refine List.map_congr_left fun src hsrc => ?_
  rw [choicesAt_table (List.mem_range.1 hsrc), List.toFinset_card_of_nodup (nodup_used src)]

end ChoiceNumbering

end TransitionMatrix
