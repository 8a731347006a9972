import Mathlib.Algebra.Order.BigOperators.Group.List
import Mathlib.Algebra.Order.Group.Nat
import TransitionMatrix.Matrix.Build
import TransitionMatrix.Proofs.Runs
import TransitionMatrix.Symbolic.Build

/-!
# Tables of transitions

A table lists the transitions that have a weight, for every source, choice and destination in
increasing order. Sorted transitions without repetitions are a table: they are determined by the
weight that is found for each source, choice and destination.
-/

namespace TransitionMatrix

/-- The cells of the destinations below `n` that have a weight. -/
def Cell.ofWeights (n : Nat) (weight? : Nat → Option Binary64) : List Cell :=
  (List.range n).filterMap fun dst => (weight? dst).map (Cell.mk dst)

theorem Cell.mem_ofWeights {n : Nat} {weight? : Nat → Option Binary64} {c : Cell} :
    c ∈ Cell.ofWeights n weight? ↔ c.dst < n ∧ weight? c.dst = some c.weight := by
  obtain ⟨dst, w⟩ := c
  simp only [ofWeights, List.mem_filterMap, List.mem_range, Option.map_eq_some_iff]
  constructor
  · rintro ⟨dst', hlt, w', hw, heq⟩
    cases heq
    exact ⟨hlt, hw⟩
  · rintro ⟨hlt, hw⟩
    exact ⟨dst, hlt, w, hw, rfl⟩

theorem Cell.ofWeights_ne_nil {n : Nat} {weight? : Nat → Option Binary64} :
    Cell.ofWeights n weight? ≠ [] ↔ ((List.range n).any fun dst => (weight? dst).isSome) = true := by
  rw [List.any_eq_true]
  constructor
  · intro hne
    obtain ⟨c, hc⟩ := List.exists_mem_of_ne_nil _ hne
    obtain ⟨hdst, hweight⟩ := Cell.mem_ofWeights.1 hc
    exact ⟨c.dst, List.mem_range.2 hdst, by rw [hweight, Option.isSome_some]⟩
  · rintro ⟨dst, hdst, hsome⟩
    obtain ⟨w, hw⟩ := Option.isSome_iff_exists.1 hsome
    have hmem : ⟨dst, w⟩ ∈ Cell.ofWeights n weight? :=
      Cell.mem_ofWeights.2 ⟨List.mem_range.1 hdst, hw⟩
    exact List.ne_nil_of_mem hmem

theorem Cell.length_ofWeights_le (n : Nat) (weight? : Nat → Option Binary64) :
    (Cell.ofWeights n weight?).length ≤ n := by
  have hle := List.length_filterMap_le (fun dst => (weight? dst).map (Cell.mk dst)) (List.range n)
  rwa [List.length_range] at hle

theorem Cell.pairwise_ofWeights (n : Nat) (weight? : Nat → Option Binary64) :
    (Cell.ofWeights n weight?).Pairwise fun a b => a.dst < b.dst := by
  rw [ofWeights, List.pairwise_filterMap]
  refine List.pairwise_lt_range.imp fun {i j} hij a ha b hb => ?_
  obtain ⟨_, _, rfl⟩ := Option.map_eq_some_iff.1 ha
  obtain ⟨_, _, rfl⟩ := Option.map_eq_some_iff.1 hb
  exact hij

/-- The cell of a destination has its weight. -/
theorem Cell.find?_ofWeights {n : Nat} (weight? : Nat → Option Binary64) {dst : Nat} (h : dst < n) :
    ((Cell.ofWeights n weight?).find? fun c => c.dst == dst).map Cell.weight = weight? dst := by
  cases hw : weight? dst with
  | none =>
    rw [Option.map_eq_none_iff, List.find?_eq_none]
    intro c hc hdst
    have hdst : c.dst = dst := by simpa using hdst
    have hsome := (Cell.mem_ofWeights.1 hc).2
    rw [hdst, hw] at hsome
    cases hsome
  | some w =>
    have hmem : ⟨dst, w⟩ ∈ Cell.ofWeights n weight? := Cell.mem_ofWeights.2 ⟨h, hw⟩
    obtain ⟨c, hc⟩ : ∃ c, (Cell.ofWeights n weight?).find? (fun c => c.dst == dst) = some c :=
      Runs.exists_find?_of_mem hmem (by simp)
    have hdst : c.dst = dst := by simpa using List.find?_some hc
    have hcw := (Cell.mem_ofWeights.1 (List.mem_of_find?_eq_some hc)).2
    rw [hdst, hw] at hcw
    rw [hc, Option.map_some, Option.some.inj hcw]

namespace Transition

/-! ## Order -/

/-- Transitions in the order of their sources, then of their choices, then of their destinations. -/
def Lt (a b : Transition) : Prop :=
  a.src < b.src ∨ a.src = b.src ∧ (a.choice < b.choice ∨ a.choice = b.choice ∧ a.dst < b.dst)

theorem le_iff {a b : Transition} : a.le b = true ↔ Lt a b ∨ a.key = b.key := by
  simp only [le, Lt, key, Bool.or_eq_true, Bool.and_eq_true, decide_eq_true_eq, Prod.mk.injEq]
  omega

theorem Lt.trans {a b c : Transition} (hab : Lt a b) (hbc : Lt b c) : Lt a c := by
  unfold Lt at *
  omega

instance : Std.Irrefl Lt := ⟨fun a h => by unfold Lt at h; omega⟩

instance : Std.Antisymm Lt := ⟨fun a b hab hba => by unfold Lt at hab hba; omega⟩

theorem le_trans (a b c : Transition) : a.le b → b.le c → a.le c := by
  simp only [le_iff, Lt, key, Prod.mk.injEq]
  omega

theorem le_total (a b : Transition) : a.le b || b.le a := by
  rw [Bool.or_eq_true, le_iff, le_iff]
  simp only [Lt, key, Prod.mk.injEq]
  omega

/-! ## Distinct transitions -/

/-- The order of the keys, for what is known about runs. -/
def KeyLe (k k' : Nat × Nat × Nat) : Prop :=
  k.1 < k'.1 ∨ k.1 = k'.1 ∧ (k.2.1 < k'.2.1 ∨ k.2.1 = k'.2.1 ∧ k.2.2 ≤ k'.2.2)

theorem pairwise_distinct (ts : List Transition) : (distinct ts).Pairwise Lt := by
  have hsorted : (ts.mergeSort le).Pairwise fun a b => KeyLe a.key b.key := by
    refine (List.pairwise_mergeSort le_trans le_total ts).imp fun {a b} h => ?_
    rcases le_iff.1 h with hlt | heq
    · unfold Lt at hlt
      simp only [KeyLe, key]
      omega
    · rw [heq]
      simp [KeyLe]
  have hantisymm : ∀ {k k' : Nat × Nat × Nat}, KeyLe k k' → KeyLe k' k → k = k' := by
    rintro ⟨i, c, j⟩ ⟨i', c', j'⟩ h h'
    simp only [KeyLe] at h h'
    simp only [Prod.mk.injEq]
    omega
  refine (Runs.pairwise_firsts key hantisymm hsorted).imp fun {a b} h => ?_
  obtain ⟨hle, hne⟩ := h
  simp only [key, KeyLe, ne_eq, Prod.mk.injEq] at hle hne
  unfold Lt
  omega

/-- The first transition with a key is the one that is kept. -/
theorem find?_distinct (k : Nat × Nat × Nat) (ts : List Transition) :
    (distinct ts).find? (fun t => t.key = k) = ts.find? fun t => t.key = k := by
  rw [distinct, Runs.find?_firsts]
  exact Runs.find?_mergeSort key le_trans le_total (fun a b h => le_iff.2 (Or.inr h)) k ts

theorem nodup_keys {ts : List Transition} (h : ts.Pairwise Lt) : (ts.map key).Nodup := by
  rw [List.Nodup, List.pairwise_map]
  refine h.imp fun {a b} hlt heq => ?_
  simp only [key, Prod.mk.injEq] at heq
  unfold Lt at hlt
  omega

/-- In a list without repetitions, a transition is found by its key. -/
theorem find?_eq_some_iff {ts : List Transition} (h : ts.Pairwise Lt) {t : Transition} :
    ts.find? (fun u => u.key = t.key) = some t ↔ t ∈ ts := by
  constructor
  · exact List.mem_of_find?_eq_some
  · intro ht
    obtain ⟨u, hu⟩ : ∃ u, ts.find? (fun u => u.key = t.key) = some u :=
      Runs.exists_find?_of_mem ht (by simp)
    have hkey : u.key = t.key := by simpa using List.find?_some hu
    rw [hu, List.inj_on_of_nodup_map (nodup_keys h) (List.mem_of_find?_eq_some hu) ht hkey]

/-! ## Tables -/

/-- The transitions of one choice with the given cells. -/
def ofCells (src choice : Nat) (cells : List Cell) : List Transition :=
  cells.map fun c => ⟨src, choice, c.dst, c.weight⟩

/-- The transitions between `n` states that have a weight, for choices encoded below `numChoices`. -/
def table (n numChoices : Nat) (weight? : Nat → Nat → Nat → Option Binary64) : List Transition :=
  (List.range n).flatMap fun src => (List.range numChoices).flatMap fun choice =>
    ofCells src choice (Cell.ofWeights n (weight? src choice))

variable {n numChoices : Nat} {weight? : Nat → Nat → Nat → Option Binary64}

theorem mem_table {t : Transition} : t ∈ table n numChoices weight? ↔
    (t.src < n ∧ t.choice < numChoices ∧ t.dst < n) ∧
      weight? t.src t.choice t.dst = some t.weight := by
  obtain ⟨src, choice, dst, weight⟩ := t
  simp only [table, ofCells, List.mem_flatMap, List.mem_map, List.mem_range]
  constructor
  · rintro ⟨src', hsrc, choice', hchoice, c, hc, heq⟩
    obtain ⟨hdst, hweight⟩ := Cell.mem_ofWeights.1 hc
    cases heq
    exact ⟨⟨hsrc, hchoice, hdst⟩, hweight⟩
  · rintro ⟨⟨hsrc, hchoice, hdst⟩, hweight⟩
    exact ⟨src, hsrc, choice, hchoice, ⟨dst, weight⟩, Cell.mem_ofWeights.2 ⟨hdst, hweight⟩, rfl⟩

/-- A table has at most one transition for each source, choice and destination. -/
theorem length_table_le : (table n numChoices weight?).length ≤ n * (numChoices * n) := by
  have hcells : ∀ src choice,
      (ofCells src choice (Cell.ofWeights n (weight? src choice))).length ≤ n := by
    intro src choice
    rw [ofCells, List.length_map]
    exact Cell.length_ofWeights_le _ _
  have hchoices : ∀ src, ((List.range numChoices).flatMap fun choice =>
      ofCells src choice (Cell.ofWeights n (weight? src choice))).length ≤ numChoices * n := by
    intro src
    rw [List.length_flatMap]
    refine (List.sum_le_card_nsmul _ n ?_).trans_eq (by simp)
    simpa using fun choice _ => hcells src choice
  rw [table, List.length_flatMap]
  refine (List.sum_le_card_nsmul _ (numChoices * n) ?_).trans_eq (by simp)
  simpa using fun src _ => hchoices src

theorem pairwise_table : (table n numChoices weight?).Pairwise Lt := by
  rw [table, List.pairwise_flatMap]
  constructor
  · intro src _
    rw [List.pairwise_flatMap]
    constructor
    · intro choice _
      rw [ofCells, List.pairwise_map]
      exact (Cell.pairwise_ofWeights _ _).imp fun hdst => Or.inr ⟨rfl, Or.inr ⟨rfl, hdst⟩⟩
    · refine List.pairwise_lt_range.imp fun {c c'} hlt t ht t' ht' => ?_
      obtain ⟨_, _, rfl⟩ := List.mem_map.1 ht
      obtain ⟨_, _, rfl⟩ := List.mem_map.1 ht'
      exact Or.inr ⟨rfl, Or.inl hlt⟩
  · refine List.pairwise_lt_range.imp fun {i i'} hlt t ht t' ht' => ?_
    obtain ⟨_, _, ht⟩ := List.mem_flatMap.1 ht
    obtain ⟨_, _, ht'⟩ := List.mem_flatMap.1 ht'
    obtain ⟨_, _, rfl⟩ := List.mem_map.1 ht
    obtain ⟨_, _, rfl⟩ := List.mem_map.1 ht'
    exact Or.inl hlt

/-- Transitions in order are the table of the weights that they have. -/
theorem eq_table {ts : List Transition} (hts : ts.Pairwise Lt)
    (h : ∀ t, t ∈ ts ↔ (t.src < n ∧ t.choice < numChoices ∧ t.dst < n) ∧
      weight? t.src t.choice t.dst = some t.weight) : ts = table n numChoices weight? :=
  hts.eq_of_mem_iff pairwise_table fun t => (h t).trans mem_table.symm

/-! ## Rewards -/

/-- A transition is kept, with its reward, if there are a reward and a transition for it. -/
theorem mem_withRewards {ts rewards : List Transition} (hrewards : rewards.Pairwise Lt)
    {t : Transition} :
    t ∈ withRewards ts rewards ↔ t ∈ rewards ∧ ∃ weight, { t with weight } ∈ ts := by
  have hkeys : ((rewards.map fun r => (r.key, r.weight)).map Prod.fst).Nodup := by
    rw [List.map_map]
    exact nodup_keys hrewards
  have hvalue : ∀ {u : Transition} {w : Binary64},
      (Std.HashMap.ofList (rewards.map fun r => (r.key, r.weight)))[u.key]? = some w ↔
        { u with weight := w } ∈ rewards := by
    intro u w
    rw [getElem?_ofList_eq_some_iff hkeys, List.mem_map]
    constructor
    · rintro ⟨⟨src, choice, dst, weight⟩, hr, heq⟩
      cases heq
      exact hr
    · intro hr
      exact ⟨_, hr, rfl⟩
  simp only [withRewards, List.mem_filterMap, Option.map_eq_some_iff, hvalue]
  constructor
  · rintro ⟨u, hu, w, hw, rfl⟩
    exact ⟨hw, u.weight, hu⟩
  · rintro ⟨ht, w, hw⟩
    exact ⟨_, hw, t.weight, ht, rfl⟩

theorem pairwise_withRewards {ts : List Transition} (hts : ts.Pairwise Lt)
    (rewards : List Transition) : (withRewards ts rewards).Pairwise Lt := by
  rw [withRewards, List.pairwise_filterMap]
  refine hts.imp fun {a b} hab a' ha' b' hb' => ?_
  obtain ⟨_, _, rfl⟩ := Option.map_eq_some_iff.1 ha'
  obtain ⟨_, _, rfl⟩ := Option.map_eq_some_iff.1 hb'
  exact hab

theorem withRewards_table (reward? : Nat → Nat → Nat → Option Binary64) :
    withRewards (table n numChoices weight?) (table n numChoices reward?)
      = table n numChoices fun src choice dst =>
          (weight? src choice dst).bind fun _ => reward? src choice dst := by
  refine eq_table (pairwise_withRewards pairwise_table _) fun t => ?_
  rw [mem_withRewards pairwise_table, mem_table]
  simp only [mem_table]
  constructor
  · rintro ⟨⟨hrange, hreward⟩, w, _, hw⟩
    exact ⟨hrange, by rw [hw, Option.bind_some, hreward]⟩
  · rintro ⟨hrange, hreward⟩
    obtain ⟨w, hw, hreward⟩ := Option.bind_eq_some_iff.1 hreward
    exact ⟨⟨hrange, hreward⟩, w, hrange, hw⟩

/-! ## Rows -/

/-- Only one of the lists has anything. -/
theorem flatMap_range_of_unique {α : Type} {n i : Nat} (hi : i < n) {f : Nat → List α}
    (h : ∀ j, j ≠ i → f j = []) : (List.range n).flatMap f = f i := by
  have hnil : ∀ js : List Nat, i ∉ js → js.flatMap f = [] := by
    intro js hjs
    rw [List.flatMap_eq_nil_iff]
    intro j hj
    exact h j fun hji => hjs (hji ▸ hj)
  obtain ⟨before, after, hsplit⟩ := List.mem_iff_append.1 (List.mem_range.2 hi)
  have hnodup := List.nodup_range (n := n)
  rw [hsplit, List.nodup_append, List.nodup_cons] at hnodup
  obtain ⟨_, ⟨hafter, _⟩, hbefore⟩ := hnodup
  rw [hsplit, List.flatMap_append, List.flatMap_cons, hnil after hafter,
    hnil before fun hmem => hbefore i hmem i List.mem_cons_self rfl]
  simp

/-- Of each choice of a table, all cells are taken or none. -/
theorem filterMap_table (p : Nat → Nat → Prop) [∀ src choice, Decidable (p src choice)] :
    ((table n numChoices weight?).filterMap fun t =>
        if p t.src t.choice then some ⟨t.dst, t.weight⟩ else none)
      = (List.range n).flatMap fun src => (List.range numChoices).flatMap fun choice =>
          if p src choice then Cell.ofWeights n (weight? src choice) else [] := by
  simp only [table, ofCells, List.filterMap_flatMap, List.filterMap_map]
  refine List.flatMap_congr fun src _ => List.flatMap_congr fun choice _ => ?_
  by_cases hp : p src choice
  · simp [hp]
  · simp [hp]

/-- A row of a table has the cells of its choices, one choice after the other. -/
theorem rowOf_table {src : Nat} (hsrc : src < n) :
    Entry.rowOf src ((table n numChoices weight?).map toEntry)
      = (List.range numChoices).flatMap fun choice => Cell.ofWeights n (weight? src choice) := by
  rw [Entry.rowOf, List.filterMap_map]
  refine (filterMap_table fun i _ => i = src).trans ?_
  rw [flatMap_range_of_unique hsrc]
  · simp only [if_true]
  · intro i hi
    rw [List.flatMap_eq_nil_iff]
    intro choice _
    rw [if_neg hi]

/-- The cells of a choice of a table. -/
theorem cells_table {src choice : Nat} (hsrc : src < n) (hchoice : choice < numChoices) :
    ((table n numChoices weight?).filterMap fun t =>
        if t.src = src ∧ t.choice = choice then some ⟨t.dst, t.weight⟩ else none)
      = Cell.ofWeights n (weight? src choice) := by
  rw [filterMap_table fun i c => i = src ∧ c = choice]
  rw [flatMap_range_of_unique hsrc]
  · rw [flatMap_range_of_unique hchoice]
    · rw [if_pos ⟨rfl, rfl⟩]
    · intro c hc
      rw [if_neg fun h => hc h.2]
  · intro i hi
    rw [List.flatMap_eq_nil_iff]
    intro c _
    rw [if_neg fun h => hi h.1]

end Transition

end TransitionMatrix
