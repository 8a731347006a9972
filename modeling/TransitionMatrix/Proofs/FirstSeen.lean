import Mathlib.Data.List.Nodup

/-!
# First elements seen

Of the elements with one key only the first is kept, wherever the others are. No sorting is needed
to say which one that is.
-/

namespace TransitionMatrix

variable {α β κ κ' : Type} [DecidableEq κ] [DecidableEq κ'] (key : α → κ)

/-- The elements whose key no element before them has. -/
def firstSeen : List α → List α
  | [] => []
  | a :: rest => a :: (firstSeen rest).filter fun b => key b ≠ key a

theorem mem_firstSeen {a : α} {xs : List α} :
    a ∈ firstSeen key xs ↔ xs.find? (fun b => key b = key a) = some a := by
  induction xs with
  | nil => simp [firstSeen]
  | cons b rest ih =>
    rw [firstSeen, List.mem_cons, List.mem_filter, decide_eq_true_eq, ih]
    by_cases hkey : key b = key a
    · rw [List.find?_cons_of_pos (by simpa using hkey), Option.some.injEq]
      constructor
      · rintro (rfl | ⟨_, hne⟩)
        · rfl
        · exact absurd hkey.symm hne
      · intro hba
        exact Or.inl hba.symm
    · rw [List.find?_cons_of_neg (by simpa using hkey)]
      constructor
      · rintro (rfl | ⟨hfind, _⟩)
        · exact absurd rfl hkey
        · exact hfind
      · intro hfind
        exact Or.inr ⟨hfind, fun heq => hkey heq.symm⟩

/-- An element that is its own key is not lost. -/
theorem mem_firstSeen_id {k : κ} {ks : List κ} : k ∈ firstSeen id ks ↔ k ∈ ks := by
  induction ks with
  | nil => rfl
  | cons a rest ih =>
    rw [firstSeen, List.mem_cons, List.mem_cons, List.mem_filter, ih]
    by_cases hk : k = a
    · simp [hk]
    · simp [hk]

theorem nodup_map_firstSeen (xs : List α) : ((firstSeen key xs).map key).Nodup := by
  induction xs with
  | nil => exact List.nodup_nil
  | cons a rest ih =>
    rw [firstSeen, List.map_cons, List.nodup_cons]
    constructor
    · intro hmem
      obtain ⟨b, hb, hkey⟩ := List.mem_map.1 hmem
      have hne := (List.mem_filter.1 hb).2
      exact of_decide_eq_true hne hkey
    · exact ih.sublist (List.filter_sublist.map key)

theorem firstSeen_map (f : β → α) (xs : List β) :
    firstSeen key (xs.map f) = (firstSeen (fun b => key (f b)) xs).map f := by
  induction xs with
  | nil => rfl
  | cons b rest ih =>
    rw [List.map_cons, firstSeen, firstSeen, ih, List.filter_map, List.map_cons]
    rfl

/-- Keys that tell the same elements apart leave the same elements. -/
theorem firstSeen_congr {key : α → κ} {key' : α → κ'} {xs : List α}
    (h : ∀ a ∈ xs, ∀ b ∈ xs, key a = key b ↔ key' a = key' b) :
    firstSeen key xs = firstSeen key' xs := by
  induction xs with
  | nil => rfl
  | cons a rest ih =>
    have hrest : firstSeen key rest = firstSeen key' rest :=
      ih fun b hb c hc => h b (List.mem_cons_of_mem _ hb) c (List.mem_cons_of_mem _ hc)
    rw [firstSeen, firstSeen, ← hrest]
    congr 1
    refine List.filter_congr fun b hb => ?_
    have hmem := List.mem_of_find?_eq_some ((mem_firstSeen key).1 hb)
    have hiff := h b (List.mem_cons_of_mem _ hmem) a List.mem_cons_self
    simp only [ne_eq, hiff]

end TransitionMatrix
