import Mathlib.Data.List.Nodup
import TransitionMatrix.Column.Dictionary
import TransitionMatrix.Proofs.Runs

/-!
# What a dictionary reads back

The numbers of a dictionary are the places of the keys in the list of its weights. Inserting weights
one after another therefore gives each of them the number of the first one with the same key, and
that first one is what the number reads back as.
-/

namespace TransitionMatrix

namespace Dictionary

/-- The keys of the weights, by number. -/
def keys (d : Dictionary) : List UInt64 := d.values.toList.map Binary64.key

@[simp] theorem length_keys (d : Dictionary) : d.keys.length = d.values.size := by
  rw [keys, List.length_map, Array.length_toList]

/-- The place of a key is that of the first weight that has it. -/
theorem getElem?_idxOf_keys (d : Dictionary) (k : UInt64) :
    d.values[d.keys.idxOf k]? = d.values.toList.find? fun w => w.key == k := by
  rw [← Array.getElem?_toList, keys]
  induction d.values.toList with
  | nil => rfl
  | cons w rest ih =>
    by_cases hw : w.key = k
    · simp [hw]
    · rw [List.map_cons, List.idxOf_cons_ne _ hw, List.getElem?_cons_succ, ih,
        List.find?_cons_of_neg (by simpa using hw)]

/-- No two weights have one key, and each key is numbered by its place. -/
structure Indexed (d : Dictionary) : Prop where
  nodup : d.keys.Nodup
  numbers_eq : ∀ k, d.numbers[k]? =
    if k ∈ d.keys then some (UInt32.ofNat (d.keys.idxOf k)) else none

theorem indexed_empty : empty.Indexed where
  nodup := List.nodup_nil
  numbers_eq := fun k => by simp [empty, keys]

/-! ## Inserting one weight -/

theorem keys_prefix_insert (d : Dictionary) (w : Binary64) : d.keys <+: (d.insert w).1.keys := by
  rw [insert, keys, keys]
  dsimp only
  split
  · rw [Array.toList_push, List.map_append]
    exact List.prefix_append _ _
  · exact List.prefix_refl _

section Insert

variable {d : Dictionary} (hd : d.Indexed) (hsize : d.values.size < 2 ^ 32) {w : Binary64}

include hd

/-- The number of a weight that is there is that of its place. -/
theorem number_insert_of_mem (hmem : w.key ∈ d.keys) :
    (d.insert w).2 = UInt32.ofNat (d.keys.idxOf w.key) := by
  rw [insert, Std.HashMap.getD_eq_getD_getElem?, hd.numbers_eq, if_pos hmem, Option.getD_some]

theorem number_insert_of_notMem (hmem : w.key ∉ d.keys) :
    (d.insert w).2 = UInt32.ofNat d.values.size := by
  rw [insert, Std.HashMap.getD_eq_getD_getElem?, hd.numbers_eq, if_neg hmem, Option.getD_none]

include hsize

/-- As long as there are numbers left, a weight gets the next one exactly if it is new. -/
theorem number_insert_eq_next_iff :
    (d.insert w).2 = UInt32.ofNat d.values.size ↔ w.key ∉ d.keys := by
  refine ⟨fun heq hmem => ?_, number_insert_of_notMem hd⟩
  have hplace := List.idxOf_lt_length_of_mem hmem
  rw [length_keys] at hplace
  rw [number_insert_of_mem hd hmem] at heq
  have hnat := congrArg UInt32.toNat heq
  rw [UInt32.toNat_ofNat_of_lt' (Nat.lt_trans hplace hsize), UInt32.toNat_ofNat_of_lt' hsize] at hnat
  omega

theorem values_insert : (d.insert w).1.values.toList =
    if w.key ∈ d.keys then d.values.toList else d.values.toList ++ [w] := by
  have hvalues : (d.insert w).1.values
      = if (d.insert w).2 = UInt32.ofNat d.values.size then d.values.push w else d.values := rfl
  rw [hvalues]
  by_cases hmem : w.key ∈ d.keys
  · rw [if_neg (fun heq => (number_insert_eq_next_iff hd hsize).1 heq hmem), if_pos hmem]
  · rw [if_pos ((number_insert_eq_next_iff hd hsize).2 hmem), if_neg hmem, Array.toList_push]

/-- Of a weight that is there, nothing but its key matters. -/
theorem insert_congr_of_mem {w' : Binary64} (hkey : w'.key = w.key) (hmem : w.key ∈ d.keys) :
    d.insert w' = d.insert w := by
  have hne : d.numbers.getD w.key (UInt32.ofNat d.values.size) ≠ UInt32.ofNat d.values.size :=
    fun heq => (number_insert_eq_next_iff hd hsize).1 heq hmem
  simp only [insert, hkey, if_neg hne]

theorem keys_insert : (d.insert w).1.keys =
    if w.key ∈ d.keys then d.keys else d.keys ++ [w.key] := by
  rw [keys, values_insert hd hsize]
  split <;> simp [keys]

theorem mem_keys_insert : w.key ∈ (d.insert w).1.keys := by
  rw [keys_insert hd hsize]
  split
  · assumption
  · simp

theorem number_insert : (d.insert w).2 = UInt32.ofNat ((d.insert w).1.keys.idxOf w.key) := by
  rw [keys_insert hd hsize]
  by_cases hmem : w.key ∈ d.keys
  · rw [number_insert_of_mem hd hmem, if_pos hmem]
  · rw [number_insert_of_notMem hd hmem, if_neg hmem, List.idxOf_append_of_notMem hmem]
    simp

theorem Indexed.insert : (d.insert w).1.Indexed := by
  have hnumbers : ∀ k, (d.insert w).1.numbers[k]? = if w.key = k ∧ w.key ∉ d.keys
      then some (UInt32.ofNat d.values.size) else d.numbers[k]? := by
    intro k
    have hkey : w.key ∈ d.numbers ↔ w.key ∈ d.keys := by
      rw [Std.HashMap.mem_iff_isSome_getElem?, hd.numbers_eq]
      split <;> simp_all
    show (d.numbers.insertIfNew w.key (UInt32.ofNat d.values.size))[k]? = _
    rw [Std.HashMap.getElem?_insertIfNew]
    simp only [beq_iff_eq, hkey]
  by_cases hmem : w.key ∈ d.keys
  · have hkeys : (d.insert w).1.keys = d.keys := by rw [keys_insert hd hsize, if_pos hmem]
    refine ⟨by rw [hkeys]; exact hd.nodup, fun k => ?_⟩
    rw [hnumbers, if_neg (fun h => h.2 hmem), hkeys, hd.numbers_eq]
  · have hkeys : (d.insert w).1.keys = d.keys ++ [w.key] := by
      rw [keys_insert hd hsize, if_neg hmem]
    refine ⟨?_, fun k => ?_⟩
    · rw [hkeys, List.nodup_append]
      refine ⟨hd.nodup, List.nodup_singleton _, ?_⟩
      rintro k hk k' hk' rfl
      rw [List.mem_singleton] at hk'
      exact hmem (hk' ▸ hk)
    · rw [hkeys, hnumbers]
      by_cases hk : w.key = k
      · subst hk
        rw [if_pos ⟨rfl, hmem⟩, if_pos (by simp), List.idxOf_append_of_notMem hmem]
        simp
      · rw [if_neg (fun h => hk h.1), hd.numbers_eq k]
        by_cases hold : k ∈ d.keys
        · rw [if_pos hold, if_pos (List.mem_append_left _ hold), List.idxOf_append_of_mem hold]
        · rw [if_neg hold, if_neg (by simpa [hold] using Ne.symm hk)]

end Insert

/-! ## Inserting weights one after another -/

/-- Weights keep their numbers when others are inserted. -/
theorem keys_prefix_insertAll (d : Dictionary) (ws : List Binary64) :
    d.keys <+: (d.insertAll ws).1.keys := by
  induction ws generalizing d with
  | nil => exact List.prefix_refl _
  | cons w rest ih => exact (keys_prefix_insert d w).trans (ih (d.insert w).1)

theorem size_le_insertAll (d : Dictionary) (ws : List Binary64) :
    d.values.size ≤ (d.insertAll ws).1.values.size := by
  simpa using (keys_prefix_insertAll d ws).length_le

section InsertAll

variable {d : Dictionary} (hd : d.Indexed) {ws : List Binary64}
  (hsize : (d.insertAll ws).1.values.size < 2 ^ 32)

include hd hsize

theorem Indexed.insertAll : (d.insertAll ws).1.Indexed := by
  induction ws generalizing d with
  | nil => exact hd
  | cons w rest ih =>
    exact ih (hd.insert (Nat.lt_of_le_of_lt (size_le_insertAll d (w :: rest)) hsize)) hsize

/-- Every weight gets the place that its key has in the end. -/
theorem numbers_insertAll :
    (d.insertAll ws).2 = ws.map fun w => UInt32.ofNat ((d.insertAll ws).1.keys.idxOf w.key) := by
  induction ws generalizing d with
  | nil => rfl
  | cons w rest ih =>
    have hnow := Nat.lt_of_le_of_lt (size_le_insertAll d (w :: rest)) hsize
    have hlast := (keys_prefix_insertAll (d.insert w).1 rest).idxOf_eq_of_mem
      (mem_keys_insert hd hnow)
    rw [List.map_cons]
    show (d.insert w).2 :: ((d.insert w).1.insertAll rest).2 = _
    rw [ih (hd.insert hnow) hsize, number_insert hd hnow, hlast]
    rfl

/-- Of the weights with one key, the dictionary has the first. -/
theorem find?_values_insertAll (k : UInt64) :
    (d.insertAll ws).1.values.toList.find? (fun w => w.key == k)
      = (d.values.toList ++ ws).find? fun w => w.key == k := by
  induction ws generalizing d with
  | nil => simp [Dictionary.insertAll]
  | cons w rest ih =>
    have hnow := Nat.lt_of_le_of_lt (size_le_insertAll d (w :: rest)) hsize
    show ((d.insert w).1.insertAll rest).1.values.toList.find? _ = _
    rw [ih (hd.insert hnow) hsize, values_insert hd hnow]
    split
    · rename_i hmem
      rw [List.find?_append, List.find?_append, List.find?_cons]
      by_cases hw : w.key = k
      · obtain ⟨v, hv, hvw⟩ := List.mem_map.1 hmem
        obtain ⟨u, hu⟩ : ∃ u, d.values.toList.find? (fun u => u.key == k) = some u :=
          Runs.exists_find?_of_mem hv (by simp [hvw, hw])
        rw [hu, Option.some_or, Option.some_or]
      · have hne : (w.key == k) = false := by simpa using hw
        rw [hne]
    · rw [List.append_assoc, List.singleton_append]

end InsertAll

/-- The first weight with the key of one that is there is that one, or the first zero. -/
theorem find?_key {ws : List Binary64} {w : Binary64} (hw : w ∈ ws) :
    ws.find? (fun v => v.key == w.key)
      = if w.isZero then ws.find? Binary64.isZero else some w := by
  cases hz : w.isZero with
  | false =>
    obtain ⟨v, hv⟩ : ∃ v, ws.find? (fun v => v.key == w.key) = some v :=
      Runs.exists_find?_of_mem hw (by simp)
    have hkey : v.key = w.key := by simpa using List.find?_some hv
    rcases Binary64.key_eq_key_iff.1 hkey with rfl | ⟨_, hwz⟩
    · exact hv
    · rw [hz] at hwz
      cases hwz
  | true =>
    have hpred : (fun v : Binary64 => v.key == w.key) = Binary64.isZero := by
      funext v
      rw [Binary64.key_of_isZero hz, Bool.eq_iff_iff, beq_iff_eq]
      exact Binary64.key_eq_zero_iff
    rw [hpred]
    rfl

/-- The place of an inserted weight is a number, and it reads back as the first weight with the same
key, as long as there are fewer weights than 32-bit numbers. -/
theorem values_ofNat_idxOf {ws : List Binary64} (hsize : (ofValues ws).1.values.size < 2 ^ 32)
    {w : Binary64} (hw : w ∈ ws) :
    (ofValues ws).1.values[(UInt32.ofNat ((ofValues ws).1.keys.idxOf w.key)).toNat]?
      = ws.find? fun v => v.key == w.key := by
  have hfind : (ofValues ws).1.values[(ofValues ws).1.keys.idxOf w.key]?
      = ws.find? fun v => v.key == w.key := by
    rw [getElem?_idxOf_keys]
    exact find?_values_insertAll indexed_empty hsize w.key
  obtain ⟨v, hv⟩ : ∃ v, ws.find? (fun v => v.key == w.key) = some v :=
    Runs.exists_find?_of_mem hw (by simp)
  obtain ⟨hplace, _⟩ := Array.getElem?_eq_some_iff.1 (hfind.trans hv)
  rw [UInt32.toNat_ofNat_of_lt' (Nat.lt_trans hplace hsize), hfind]

/-- The numbers given to weights read back as the first weights with their keys. -/
theorem get?_ofValues {ws : List Binary64} {d : Dictionary} {is : List UInt32}
    (h : ofValues ws = (d, is)) (hsize : d.values.size < 2 ^ 32) :
    is.map (fun i => d.values[i.toNat]?) = ws.map fun w => ws.find? fun v => v.key == w.key := by
  have hd : d = (ofValues ws).1 := (congrArg Prod.fst h).symm
  have his : is = (ofValues ws).2 := (congrArg Prod.snd h).symm
  rw [hd] at hsize
  rw [his, hd, ofValues, numbers_insertAll indexed_empty hsize, List.map_map]
  exact List.map_congr_left fun w hw => values_ofNat_idxOf hsize hw

end Dictionary

end TransitionMatrix
