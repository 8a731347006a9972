import TransitionMatrix.Proofs.Column.Distinct

/-!
# The numbers of weights

The weights of a dictionary and the numbers of their keys are kept apart, and a weight is told to be
new by the number it gets alone. As long as there are numbers left, the two stay inverse to each other:
a weight has a number exactly if there is a weight with the same key at that place. Nothing that is
inserted later changes the number of a weight, or what the number reads back as.
-/

namespace TransitionMatrix

namespace Dictionary

/-! ## Runs of insertions -/

theorem insertAll_append (d : Dictionary) (earlier later : List Binary64) :
    d.insertAll (earlier ++ later) = (((d.insertAll earlier).1.insertAll later).1,
      (d.insertAll earlier).2 ++ ((d.insertAll earlier).1.insertAll later).2) := by
  induction earlier generalizing d with
  | nil => rfl
  | cons w rest ih =>
    show (((d.insert w).1.insertAll (rest ++ later)).1,
      (d.insert w).2 :: ((d.insert w).1.insertAll (rest ++ later)).2) = _
    rw [ih]
    rfl

theorem fst_ofValues_append (earlier later : List Binary64) :
    (ofValues (earlier ++ later)).1 = ((ofValues earlier).1.insertAll later).1 := by
  rw [ofValues, insertAll_append]
  rfl

/-- There have been no more weights at an earlier point. -/
theorem size_ofValues_le (earlier later : List Binary64) :
    (ofValues earlier).1.values.size ≤ (ofValues (earlier ++ later)).1.values.size := by
  rw [fst_ofValues_append]
  exact size_le_insertAll _ later

/-! ## Numbers and places -/

section Indexed

variable {d : Dictionary} (hd : d.Indexed)

include hd

theorem indexOf?_of_mem {w : Binary64} (hw : w.key ∈ d.keys) :
    d.indexOf? w = some (UInt32.ofNat (d.keys.idxOf w.key)) := by
  rw [indexOf?, hd.numbers_eq, if_pos hw]

/-- A weight has a number exactly if there is a weight with the same key at that place. -/
theorem indexOf?_eq_some_iff (hsize : d.values.size < 2 ^ 32) {w : Binary64} {number : UInt32} :
    d.indexOf? w = some number ↔ ∃ v, d.get? number.toNat = some v ∧ v.key = w.key := by
  have hplace : (∃ v, d.get? number.toNat = some v ∧ v.key = w.key)
      ↔ d.keys[number.toNat]? = some w.key := by
    rw [keys, List.getElem?_map, Array.getElem?_toList, Option.map_eq_some_iff]
    rfl
  rw [hplace, List.getElem?_eq_some_iff]
  constructor
  · intro hnumber
    have hmem : w.key ∈ d.keys := by
      by_contra hnot
      rw [indexOf?, hd.numbers_eq, if_neg hnot] at hnumber
      cases hnumber
    rw [indexOf?_of_mem hd hmem, Option.some.injEq] at hnumber
    have hlt := List.idxOf_lt_length_of_mem hmem
    have hnat : number.toNat = d.keys.idxOf w.key := by
      rw [length_keys] at hlt
      rw [← hnumber, UInt32.toNat_ofNat_of_lt' (Nat.lt_trans hlt hsize)]
    simp only [hnat]
    exact ⟨hlt, List.getElem_idxOf hlt⟩
  · rintro ⟨hlt, hkey⟩
    rw [indexOf?_of_mem hd (hkey ▸ List.getElem_mem hlt), ← hkey, hd.nodup.idxOf_getElem,
      UInt32.ofNat_toNat]

/-- A weight that is inserted has the number that is returned. -/
theorem indexOf?_insert (hsize : d.values.size < 2 ^ 32) (w : Binary64) :
    (d.insert w).1.indexOf? w = some (d.insert w).2 := by
  rw [indexOf?_of_mem (hd.insert hsize) (mem_keys_insert hd hsize), number_insert hd hsize]

/-- A weight that has a number keeps it when others are inserted. -/
theorem indexOf?_insertAll {ws : List Binary64}
    (hsize : (d.insertAll ws).1.values.size < 2 ^ 32) {w : Binary64} (hw : w.key ∈ d.keys) :
    (d.insertAll ws).1.indexOf? w = d.indexOf? w := by
  have hkept := keys_prefix_insertAll d ws
  rw [indexOf?_of_mem (hd.insertAll hsize) (hkept.subset hw), indexOf?_of_mem hd hw,
    hkept.idxOf_eq_of_mem hw]

end Indexed

/-! ## What was inserted -/

section OfValues

variable {ws : List Binary64} (hsize : (ofValues ws).1.values.size < 2 ^ 32)

include hsize

theorem mem_keys_ofValues {w : Binary64} (hw : w ∈ ws) : w.key ∈ (ofValues ws).1.keys := by
  rw [keys_ofValues Prod.mk.eta.symm hsize, mem_firstSeen_id]
  exact List.mem_map_of_mem hw

/-- The number of a weight that was inserted reads back as that weight, or as the first zero. -/
theorem get?_of_indexOf? {w : Binary64} (hw : w ∈ ws) {number : UInt32}
    (hnumber : (ofValues ws).1.indexOf? w = some number) :
    (ofValues ws).1.get? number.toNat = if w.isZero then ws.find? Binary64.isZero else some w := by
  rw [indexOf?_of_mem (indexed_ofValues Prod.mk.eta.symm hsize) (mem_keys_ofValues hsize hw),
    Option.some.injEq] at hnumber
  rw [← hnumber, get?, values_ofNat_idxOf hsize hw, find?_key hw]

/-- The numbers that are returned are those that the weights have in the end. -/
theorem map_some_numbers : (ofValues ws).2.map some = ws.map (ofValues ws).1.indexOf? := by
  rw [ofValues, numbers_insertAll indexed_empty hsize, List.map_map]
  refine List.map_congr_left fun w hw => ?_
  exact (indexOf?_of_mem (indexed_ofValues Prod.mk.eta.symm hsize) (mem_keys_ofValues hsize hw)).symm

end OfValues

/-- At every later point of a run a weight has the number that was returned when it was inserted, and
the number reads back as what it read back as then. -/
theorem number_kept {earlier between : List Binary64} {w : Binary64}
    (hsize : (ofValues (earlier ++ w :: between)).1.values.size < 2 ^ 32) :
    (ofValues (earlier ++ w :: between)).1.indexOf? w = some ((ofValues earlier).1.insert w).2 ∧
    (ofValues (earlier ++ w :: between)).1.get? ((ofValues earlier).1.insert w).2.toNat
      = if w.isZero then (earlier ++ [w]).find? Binary64.isZero else some w := by
  have hnow := Nat.lt_of_le_of_lt (size_ofValues_le earlier (w :: between)) hsize
  have hd : (ofValues earlier).1.Indexed := indexed_ofValues Prod.mk.eta.symm hnow
  have hsplit : (ofValues (earlier ++ w :: between)).1
      = (((ofValues earlier).1.insert w).1.insertAll between).1 := fst_ofValues_append _ _
  have hindex : (ofValues (earlier ++ w :: between)).1.indexOf? w
      = some ((ofValues earlier).1.insert w).2 := by
    rw [hsplit] at hsize ⊢
    rw [indexOf?_insertAll (hd.insert hnow) hsize (mem_keys_insert hd hnow),
      indexOf?_insert hd hnow]
  refine ⟨hindex, ?_⟩
  rw [get?_of_indexOf? hsize (by simp) hindex]
  cases hz : w.isZero with
  | false => rfl
  | true =>
    -- the first zero is at the latest the one that was inserted here
    rw [if_pos rfl, if_pos rfl, List.find?_append, List.find?_append,
      List.find?_cons_of_pos hz, List.find?_cons_of_pos hz]

/-- Weights are numbered in the order in which they are first seen, two weights being the same if they
have the same bits or are both zeros. Insertion returns the number that the weight keeps from then on,
and the number reads back as that weight, or as the first zero for a zero. -/
theorem numbering_of_weights {ws : List Binary64} (h : Binary64.countDistinct ws < 2 ^ 32) :
    (∀ v w : Binary64, v.key = w.key ↔ v = w ∨ v.isZero ∧ w.isZero) ∧
    (ofValues ws).1.values.toList = firstSeen Binary64.key ws ∧
    -- insertions one after another
    (∀ earlier w later, ws = earlier ++ w :: later →
      ∃ number, ((ofValues earlier).1.insert w).2 = number ∧
        (ofValues ws).2[earlier.length]? = some number ∧
        ∀ between, between <+: later →
          (ofValues (earlier ++ w :: between)).1.indexOf? w = some number ∧
          (ofValues (earlier ++ w :: between)).1.get? number.toNat
            = if w.isZero then (earlier ++ [w]).find? Binary64.isZero else some w) ∧
    -- the numbers of any weights, inserted or not
    (∀ w number, (ofValues ws).1.indexOf? w = some number ↔
      ∃ v, (ofValues ws).1.get? number.toNat = some v ∧ (v = w ∨ v.isZero ∧ w.isZero)) ∧
    -- all insertions at once
    (ofValues ws).2.map some = ws.map (ofValues ws).1.indexOf? ∧
    (ofValues ws).2.map (fun number => (ofValues ws).1.get? number.toNat)
      = ws.map fun w => if w.isZero then ws.find? Binary64.isZero else some w := by
  have hsize : (ofValues ws).1.values.size < 2 ^ 32 := by
    have := size_ofValues h
    rw [size] at this
    omega
  refine ⟨fun v w => Binary64.key_eq_key_iff, values_ofValues Prod.mk.eta.symm hsize, ?run,
    fun w number => ?index, map_some_numbers hsize, ?all⟩
  case run =>
    rintro earlier w later rfl
    refine ⟨_, rfl, ?_, ?_⟩
    · have hat := congrArg (fun numbers => numbers[earlier.length]?) (map_some_numbers hsize)
      simpa [(number_kept hsize).1] using hat
    · rintro between ⟨rest, rfl⟩
      refine number_kept (Nat.lt_of_le_of_lt ?_ hsize)
      have hle := size_ofValues_le (earlier ++ w :: between) rest
      rwa [List.append_assoc] at hle
  case index =>
    rw [indexOf?_eq_some_iff (indexed_ofValues Prod.mk.eta.symm hsize) hsize]
    simp only [Binary64.key_eq_key_iff]
  case all =>
    have hread := get?_ofValues Prod.mk.eta.symm hsize
    exact hread.trans (List.map_congr_left fun w hw => find?_key hw)

/-- Two NaNs, both zeros, the negative one first, and a one that is there twice. -/
def mixedWeights : List Binary64 :=
  [⟨0x7ff8000000000001⟩, ⟨0x8000000000000000⟩, .one, .zero, .one, ⟨0x7ff8000000000000⟩]

/-- Each NaN has a number of its own, and both zeros read back as the negative one. -/
theorem numbering_of_mixedWeights : Binary64.countDistinct mixedWeights < 2 ^ 32 ∧
    (ofValues mixedWeights).1.values.toList
      = [⟨0x7ff8000000000001⟩, ⟨0x8000000000000000⟩, .one, ⟨0x7ff8000000000000⟩] ∧
    (ofValues mixedWeights).1.indexOf? .zero = some 1 ∧
    (ofValues mixedWeights).2.map (fun number => (ofValues mixedWeights).1.get? number.toNat)
      = [some ⟨0x7ff8000000000001⟩, some ⟨0x8000000000000000⟩, some .one,
        some ⟨0x8000000000000000⟩, some .one, some ⟨0x7ff8000000000000⟩] := by
  have hcount : Binary64.countDistinct mixedWeights < 2 ^ 32 := by decide
  obtain ⟨_, hvalues, _, hindex, _, hread⟩ := numbering_of_weights hcount
  have hlist : (ofValues mixedWeights).1.values.toList
      = [⟨0x7ff8000000000001⟩, ⟨0x8000000000000000⟩, .one, ⟨0x7ff8000000000000⟩] :=
    hvalues.trans (by decide)
  have hzero : (ofValues mixedWeights).1.get? 1 = some ⟨0x8000000000000000⟩ := by
    rw [get?, ← Array.getElem?_toList, hlist]
    rfl
  exact ⟨hcount, hlist, (hindex .zero 1).2 ⟨_, hzero, by decide⟩, hread.trans (by decide)⟩

end Dictionary

end TransitionMatrix
