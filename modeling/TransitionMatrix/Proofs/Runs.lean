import Mathlib.Data.List.Sort
import Std.Data.HashMap.Lemmas
import TransitionMatrix.Runs

/-!
# First elements with a key

Sorting is stable and keeping the first element of each run drops later ones only. So the first
element with a given key is the same before and after, whatever the list.
-/

namespace TransitionMatrix

namespace Runs

theorem exists_find?_of_mem {α : Type} {p : α → Bool} {a : α} {xs : List α} (ha : a ∈ xs)
    (hp : p a = true) : ∃ b, xs.find? p = some b := by
  rw [← Option.isSome_iff_exists, List.find?_isSome]
  exact ⟨a, ha, hp⟩

variable {α κ : Type} [DecidableEq κ] (key : α → κ)

theorem head?_keepFirst (a : α) (ys : List α) : (keepFirst key a ys).head? = some a := by
  cases ys with
  | nil => rfl
  | cons b rest =>
    rw [keepFirst]
    split <;> rfl

theorem find?_firsts (k : κ) (xs : List α) :
    (firsts key xs).find? (fun a => key a = k) = xs.find? fun a => key a = k := by
  induction xs with
  | nil => rfl
  | cons a xs ih =>
    rw [firsts_cons]
    by_cases hk : key a = k
    · -- the element in front is kept, and it is the one
      have hhead := head?_keepFirst key a (firsts key xs)
      cases hkeep : keepFirst key a (firsts key xs) with
      | nil =>
        rw [hkeep] at hhead
        cases hhead
      | cons b rest =>
        rw [hkeep] at hhead
        cases hhead
        rw [List.find?_cons_of_pos (by simpa using hk), List.find?_cons_of_pos (by simpa using hk)]
    · rw [List.find?_cons_of_neg (by simpa using hk), ← ih]
      cases firsts key xs with
      | nil => simp [keepFirst, hk]
      | cons b rest =>
        rw [keepFirst]
        split
        · rename_i hab
          rw [List.find?_cons_of_neg (by simpa using hk),
            List.find?_cons_of_neg (by simpa [← hab] using hk)]
        · rw [List.find?_cons_of_neg (by simpa using hk)]

/-- The elements that satisfy a condition keep their order if they are in order. -/
theorem filter_mergeSort {le : α → α → Bool} (trans : ∀ a b c, le a b → le b c → le a c)
    (total : ∀ a b, le a b || le b a) {p : α → Bool} {xs : List α}
    (h : (xs.filter p).Pairwise fun a b => le a b) : (xs.mergeSort le).filter p = xs.filter p := by
  have hsub : (xs.filter p).Sublist (xs.mergeSort le) :=
    List.sublist_mergeSort trans total h List.filter_sublist
  have hsub' := hsub.filter p
  rw [List.filter_filter, show (fun a => p a && p a) = p from funext fun a => Bool.and_self _] at hsub'
  have hlen : (xs.filter p).length = ((xs.mergeSort le).filter p).length :=
    ((List.mergeSort_perm xs le).filter p).length_eq.symm
  exact (hsub'.eq_of_length hlen).symm

/-- The first element with a key stays the first when a list is sorted by keys. -/
theorem find?_mergeSort {le : α → α → Bool} (trans : ∀ a b c, le a b → le b c → le a c)
    (total : ∀ a b, le a b || le b a) (hkey : ∀ a b, key a = key b → le a b) (k : κ) (xs : List α) :
    (xs.mergeSort le).find? (fun a => key a = k) = xs.find? fun a => key a = k := by
  rw [← List.head?_filter, ← List.head?_filter, filter_mergeSort trans total]
  refine List.pairwise_of_forall_mem_list fun a ha b hb => ?_
  have hak : key a = k := by simpa using (List.mem_filter.1 ha).2
  have hbk : key b = k := by simpa using (List.mem_filter.1 hb).2
  exact hkey a b (hak.trans hbk.symm)

end Runs

/-- A map made from a list of different keys has the pairs of the list. -/
theorem getElem?_ofList_eq_some_iff {κ ν : Type} [BEq κ] [Hashable κ] [LawfulBEq κ]
    [LawfulHashable κ] {pairs : List (κ × ν)} (h : (pairs.map Prod.fst).Nodup) {k : κ} {v : ν} :
    (Std.HashMap.ofList pairs)[k]? = some v ↔ (k, v) ∈ pairs := by
  have hdistinct : pairs.Pairwise fun a b => (a.1 == b.1) = false :=
    (List.pairwise_map.1 h).imp fun hne => by simpa using hne
  have hmem : ∀ {v}, (k, v) ∈ pairs → (Std.HashMap.ofList pairs)[k]? = some v :=
    fun hv => Std.HashMap.getElem?_ofList_of_mem BEq.rfl hdistinct hv
  refine ⟨fun hv => ?_, hmem⟩
  by_cases hk : k ∈ pairs.map Prod.fst
  · obtain ⟨⟨_, v'⟩, hv', rfl⟩ := List.mem_map.1 hk
    rw [hmem hv'] at hv
    cases hv
    exact hv'
  · have hnone : (Std.HashMap.ofList pairs)[k]? = none :=
      Std.HashMap.getElem?_ofList_of_contains_eq_false (by simpa using hk)
    rw [hnone] at hv
    cases hv

end TransitionMatrix
