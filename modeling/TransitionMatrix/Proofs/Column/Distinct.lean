import Mathlib.Data.Finset.Card
import TransitionMatrix.Proofs.Column.Fitting
import TransitionMatrix.Proofs.Column.Soundness

/-!
# How many weights a dictionary has

A dictionary has as many weights as there are distinct ones among those inserted, as long as there are
numbers for them. When the numbers have run out it has too many, but then so many distinct weights have
been inserted that they fit in no entry. Whether a dictionary fits is therefore a matter of the number
of distinct weights alone.
-/

namespace TransitionMatrix

/-- The number of weights that are told apart by their keys. -/
def Binary64.countDistinct (weights : List Binary64) : Nat := (weights.map key).toFinset.card

namespace Dictionary

/-! ## No key is lost -/

/-- Every key that has a number is that of a weight. This holds even when the numbers have run out. -/
def Covered (d : Dictionary) : Prop := ∀ k ∈ d.numbers, k ∈ d.keys

theorem covered_empty : empty.Covered := by
  intro k hk
  exact absurd hk Std.HashMap.not_mem_empty

theorem Covered.mem_keys_insert {d : Dictionary} (hd : d.Covered) (w : Binary64) :
    w.key ∈ (d.insert w).1.keys := by
  by_cases hnumber : (d.insert w).2 = UInt32.ofNat d.values.size
  · have hvalues : (d.insert w).1.values = d.values.push w := if_pos hnumber
    rw [keys, hvalues, Array.toList_push, List.map_append]
    exact List.mem_append_right _ (List.mem_singleton.2 rfl)
  · have hthere : w.key ∈ d.numbers := by
      by_contra hnot
      exact hnumber (Std.HashMap.getD_eq_fallback hnot)
    exact (keys_prefix_insert d w).subset (hd _ hthere)

theorem Covered.insert {d : Dictionary} (hd : d.Covered) (w : Binary64) : (d.insert w).1.Covered := by
  intro k hk
  rcases Std.HashMap.mem_insertIfNew.1 hk with hkey | hold
  · rw [← eq_of_beq hkey]
    exact hd.mem_keys_insert w
  · exact (keys_prefix_insert d w).subset (hd k hold)

theorem Covered.mem_keys_insertAll {d : Dictionary} (hd : d.Covered) {ws : List Binary64}
    {w : Binary64} (hw : w ∈ ws) : w.key ∈ (d.insertAll ws).1.keys := by
  induction ws generalizing d with
  | nil => cases hw
  | cons v rest ih =>
    rcases List.mem_cons.1 hw with rfl | hw
    · exact (keys_prefix_insertAll (d.insert w).1 rest).subset (hd.mem_keys_insert w)
    · exact ih (hd.insert v) hw

/-- There are never fewer weights than distinct ones were inserted. -/
theorem countDistinct_le_size (ws : List Binary64) :
    Binary64.countDistinct ws ≤ (ofValues ws).1.size := by
  have hsubset : (ws.map Binary64.key).toFinset ⊆ (ofValues ws).1.keys.toFinset := by
    intro k hk
    obtain ⟨w, hw, rfl⟩ := List.mem_map.1 (List.mem_toFinset.1 hk)
    exact List.mem_toFinset.2 (covered_empty.mem_keys_insertAll hw)
  calc Binary64.countDistinct ws
      ≤ (ofValues ws).1.keys.toFinset.card := Finset.card_le_card hsubset
    _ ≤ (ofValues ws).1.keys.length := List.toFinset_card_le _
    _ = (ofValues ws).1.size := length_keys _

/-! ## No weight is kept twice -/

theorem Indexed.size_eq_card {d : Dictionary} (hd : d.Indexed) :
    d.values.size = d.keys.toFinset.card := by
  rw [List.toFinset_card_of_nodup hd.nodup, length_keys]

theorem Indexed.size_le_card_union {d : Dictionary} (hd : d.Indexed) (ks : Finset UInt64) :
    d.values.size ≤ (d.keys.toFinset ∪ ks).card := by
  rw [hd.size_eq_card]
  exact Finset.card_le_card Finset.subset_union_left

/-- The numbers do not run out if there are enough for the weights that are there and the distinct
ones that are inserted. -/
theorem size_insertAll_lt {d : Dictionary} (hd : d.Indexed) {ws : List Binary64}
    (h : (d.keys.toFinset ∪ (ws.map Binary64.key).toFinset).card < 2 ^ 32) :
    (d.insertAll ws).1.values.size < 2 ^ 32 := by
  have hsize := Nat.lt_of_le_of_lt (hd.size_le_card_union _) h
  induction ws generalizing d with
  | nil => exact hsize
  | cons w rest ih =>
    -- inserting a weight moves its key from one part of the union to the other
    have hunion : (d.insert w).1.keys.toFinset ∪ (rest.map Binary64.key).toFinset
        = d.keys.toFinset ∪ ((w :: rest).map Binary64.key).toFinset := by
      ext k
      rw [keys_insert hd hsize]
      by_cases hmem : w.key ∈ d.keys
      · rw [if_pos hmem]
        simp only [Finset.mem_union, List.mem_toFinset, List.map_cons, List.mem_cons]
        constructor
        · tauto
        · rintro (hk | rfl | hk)
          · exact Or.inl hk
          · exact Or.inl hmem
          · exact Or.inr hk
      · rw [if_neg hmem]
        simp only [Finset.mem_union, List.mem_toFinset, List.map_cons, List.mem_cons,
          List.mem_append, List.not_mem_nil, or_false, or_assoc]
    have hnext := hd.insert hsize (w := w)
    rw [← hunion] at h
    exact ih hnext h (Nat.lt_of_le_of_lt (hnext.size_le_card_union _) h)

theorem size_ofValues {ws : List Binary64} (h : Binary64.countDistinct ws < 2 ^ 32) :
    (ofValues ws).1.size = Binary64.countDistinct ws := by
  have hsize : (ofValues ws).1.values.size < 2 ^ 32 := by
    refine size_insertAll_lt indexed_empty ?_
    rw [show empty.keys = [] from rfl, List.toFinset_nil, Finset.empty_union]
    exact h
  have hpair : ofValues ws = ((ofValues ws).1, (ofValues ws).2) := rfl
  have hkeys : (ofValues ws).1.keys.toFinset = (ws.map Binary64.key).toFinset := by
    ext k
    rw [keys_ofValues hpair hsize, List.mem_toFinset, mem_firstSeen_id, List.mem_toFinset]
  rw [size, (indexed_ofValues hpair hsize).size_eq_card, hkeys, Binary64.countDistinct]

/-- Weights fit exactly if as many distinct ones do, and then the dictionary has just those. -/
theorem fit_ofValues_eq_fits_iff {ws : List Binary64} {numStates columnBits : Nat} {p : Packing} :
    (ofValues ws).1.fit numStates columnBits = .fits p ↔
      Fit.of numStates (Binary64.countDistinct ws) columnBits = .fits p := by
  rcases Nat.lt_or_ge (Binary64.countDistinct ws) (2 ^ 32) with hlt | hge
  · rw [fit, size_ofValues hlt]
  · -- so many weights do not fit, nor does the dictionary, which has no fewer
    constructor
    · intro hfit
      have := Fit.numValues_lt hfit
      have := countDistinct_le_size ws
      omega
    · intro hfit
      have := Fit.numValues_lt hfit
      omega

theorem size_of_fits {ws : List Binary64} {numStates columnBits : Nat} {p : Packing}
    (h : (ofValues ws).1.fit numStates columnBits = .fits p) :
    (ofValues ws).1.size = Binary64.countDistinct ws :=
  size_ofValues (Fit.numValues_lt (fit_ofValues_eq_fits_iff.1 h))

end Dictionary

end TransitionMatrix
