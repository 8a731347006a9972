/-!
# Runs of equal keys

A run is a stretch of neighbouring elements with the same key. Keeping the first element of each run
of a sorted list leaves one element for each key, in strictly increasing order.
-/

namespace TransitionMatrix

namespace Runs

variable {α κ : Type} [DecidableEq κ] (key : α → κ)

/-- Puts an element in front of the firsts of the runs after it. -/
def keepFirst (a : α) : List α → List α
  | [] => [a]
  | b :: rest => if key a = key b then a :: rest else a :: b :: rest

/-- The first element of each run. -/
def firsts (xs : List α) : List α := xs.foldr (keepFirst key) []

@[simp] theorem firsts_nil : firsts key [] = [] := rfl

@[simp] theorem firsts_cons (a : α) (xs : List α) :
    firsts key (a :: xs) = keepFirst key a (firsts key xs) := rfl

theorem keepFirst_sublist (a : α) (ys : List α) : (keepFirst key a ys).Sublist (a :: ys) := by
  cases ys with
  | nil => exact List.Sublist.refl _
  | cons b rest =>
    rw [keepFirst]
    split
    · exact (List.sublist_cons_self b rest).cons_cons a
    · exact List.Sublist.refl _

theorem firsts_sublist (xs : List α) : (firsts key xs).Sublist xs := by
  induction xs with
  | nil => exact List.Sublist.refl _
  | cons a xs ih => exact (keepFirst_sublist key a _).trans (ih.cons_cons a)

/-- No key is lost. -/
theorem mem_map_firsts {k : κ} (xs : List α) : k ∈ (firsts key xs).map key ↔ k ∈ xs.map key := by
  induction xs with
  | nil => simp
  | cons a xs ih =>
    rw [firsts_cons, List.map_cons, List.mem_cons, ← ih]
    cases firsts key xs with
    | nil => simp [keepFirst]
    | cons b rest =>
      rw [keepFirst]
      split
      · rename_i h; simp [h]
      · simp

/-- In a list sorted by a transitive and antisymmetric order of the keys, the firsts of the runs have
different keys. -/
theorem pairwise_firsts {le : κ → κ → Prop}
    (antisymm : ∀ {a b : κ}, le a b → le b a → a = b) {xs : List α}
    (h : xs.Pairwise fun a b => le (key a) (key b)) :
    (firsts key xs).Pairwise fun a b => le (key a) (key b) ∧ key a ≠ key b := by
  induction xs with
  | nil => exact List.Pairwise.nil
  | cons a xs ih =>
    obtain ⟨ha, hxs⟩ := List.pairwise_cons.1 h
    have ha' : ∀ y ∈ firsts key xs, le (key a) (key y) := fun y hy =>
      ha y ((firsts_sublist key xs).subset hy)
    have ih := ih hxs
    rw [firsts_cons]
    cases hf : firsts key xs with
    | nil => simp [keepFirst]
    | cons b rest =>
      rw [hf] at ha' ih
      obtain ⟨hb, hrest⟩ := List.pairwise_cons.1 ih
      rw [keepFirst]
      split
      · rename_i hab
        refine List.pairwise_cons.2 ⟨fun y hy => ⟨ha' y (List.mem_cons_of_mem _ hy), ?_⟩, hrest⟩
        rw [hab]
        exact (hb y hy).2
      · rename_i hab
        refine List.pairwise_cons.2 ⟨fun y hy => ⟨ha' y hy, fun hay => ?_⟩, ih⟩
        rcases List.mem_cons.1 hy with rfl | hy
        · exact hab hay
        · exact hab (antisymm (ha' b List.mem_cons_self) (hay ▸ (hb y hy).1))

end Runs

/-- The distinct numbers of a list in increasing order. -/
def sortedDistinct (xs : List Nat) : List Nat := Runs.firsts id (xs.mergeSort (· ≤ ·))

theorem pairwise_sortedDistinct (xs : List Nat) : (sortedDistinct xs).Pairwise (· < ·) := by
  have hs : (xs.mergeSort (· ≤ ·)).Pairwise fun a b => id a ≤ id b := by
    simpa using @List.pairwise_mergeSort Nat (fun a b => decide (a ≤ b))
      (by intro a b c; simpa using Nat.le_trans) (by intro a b; simpa using Nat.le_total a b) xs
  refine (Runs.pairwise_firsts id Nat.le_antisymm hs).imp ?_
  rintro a b ⟨hle, hne⟩
  exact Nat.lt_of_le_of_ne hle hne

@[simp] theorem mem_sortedDistinct {xs : List Nat} {n : Nat} : n ∈ sortedDistinct xs ↔ n ∈ xs := by
  have h := Runs.mem_map_firsts (k := n) id (xs.mergeSort (· ≤ ·))
  simpa [sortedDistinct] using h

end TransitionMatrix
