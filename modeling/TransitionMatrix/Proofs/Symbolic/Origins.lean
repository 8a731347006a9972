import TransitionMatrix.Proofs.ChoiceMatrix.Calls
import TransitionMatrix.Proofs.ChoiceMatrix.Rows
import TransitionMatrix.Proofs.Symbolic.Rewards

/-!
# Where matrices come from

A matrix is built from entries, or from a relation that is expanded into entries first. Either way it
is one of entries, so that what holds of those holds of all matrices there are. The parts of a matrix
always fit together. That queries find every place that they look at is so for matrices of which the
numbers of choices add up to a word.
-/

namespace TransitionMatrix

namespace Matrix

/-- The matrix was built with the given options, from entries or from a relation. -/
inductive BuiltWith (m : Matrix) (options : Options) : Prop where
  | ofEntries (n : Nat) (entries : List Entry)
      (h : (Matrix.ofEntries n entries options).result = .ok m)
  | ofRelation (e : Encoding) (hoptions : e.options = options) (relation : Relation)
      (h : (e.matrix relation).result = .ok m)
  | ofRewards (e : Encoding) (hoptions : e.options = options) (relation rewards : Relation)
      (h : (e.rewardMatrix relation rewards).result = .ok m)

theorem BuiltWith.exists_ofEntries {m : Matrix} {options : Options} (h : m.BuiltWith options) :
    ∃ n entries, (Matrix.ofEntries n entries options).result = .ok m := by
  cases h with
  | ofEntries n entries h => exact ⟨n, entries, h⟩
  | ofRelation e hoptions relation h =>
    obtain ⟨ts, _, h⟩ := Traced.result_bind_eq_ok_iff.1 h
    subst hoptions
    exact ⟨_, _, Encoding.ofEntries_of_store h⟩
  | ofRewards e hoptions relation rewards h =>
    obtain ⟨ts, _, h⟩ := Traced.result_bind_eq_ok_iff.1 h
    obtain ⟨rewarded, _, h⟩ := Traced.result_bind_eq_ok_iff.1 h
    subst hoptions
    exact ⟨_, _, Encoding.ofEntries_of_store h⟩

end Matrix

namespace ChoiceMatrix

/-- The matrix was built with the given options, from entries or from a relation. Labels come
later. -/
inductive BuiltWith (m : ChoiceMatrix) (options : Options) : Prop where
  | ofGroups (numChoices : List Nat) (hwords : ∀ count ∈ numChoices, count < Word.size)
      (entries : List ChoiceEntry)
      (h : (ChoiceMatrix.ofGroups numChoices entries options).result = .ok m)
  | ofEntries (n : Nat) (entries : List ChoiceEntry)
      (h : (ChoiceMatrix.ofEntries n entries options).result = .ok m)
  | ofRelation (e : Encoding) (hoptions : e.options = options) (relation : Relation)
      (h : (e.choiceMatrix relation).result = .ok m)
  | ofRewards (e : Encoding) (hoptions : e.options = options) (relation rewards : Relation)
      (h : (e.rewardChoiceMatrix relation rewards).result = .ok m)

/-- The numbers of choices are words, whether they are given, counted or worked out. -/
theorem BuiltWith.exists_assembled {m : ChoiceMatrix} {options : Options} (h : m.BuiltWith options) :
    ∃ numChoices entries, m.Assembled numChoices entries options ∧ m.choiceCounts = numChoices := by
  suffices hwords : ∃ numChoices entries, (∀ count ∈ numChoices, count < Word.size) ∧
      (ChoiceMatrix.ofGroups numChoices entries options).result = .ok m by
    obtain ⟨numChoices, entries, hwords, h⟩ := hwords
    have hm := assembled_of_ofGroups h
    exact ⟨numChoices, entries, hm, hm.choiceCounts_eq hwords⟩
  cases h with
  | ofGroups numChoices hwords entries h => exact ⟨numChoices, entries, hwords, h⟩
  | ofEntries n entries h =>
    obtain ⟨hchoice, h⟩ := ofEntries_eq_ok_iff.1 h
    refine ⟨_, entries, fun count hcount => ?_, h⟩
    obtain ⟨state, _, rfl⟩ := List.mem_map.1 hcount
    have hasked : ChoiceEntry.asked entries state ≤ ChoiceEntry.choiceLimit :=
      ChoiceEntry.asked_le_iff.2 fun e he _ => hchoice e he
    exact Nat.lt_of_le_of_lt hasked (by decide)
  | ofRelation e hoptions relation h =>
    have hm := Encoding.built_of_storeChoices (Encoding.table_of_choiceMatrix h)
    subst hoptions
    exact ⟨_, _, Word.lt_of_sum_lt hm.sum_lt, ofGroups_of_built hm⟩
  | ofRewards e hoptions relation rewards h =>
    have hm := Encoding.built_of_storeChoices (Encoding.table_of_rewardChoiceMatrix h)
    subst hoptions
    exact ⟨_, _, Word.lt_of_sum_lt hm.sum_lt, ofGroups_of_built hm⟩

theorem BuiltWith.exists_built {m : ChoiceMatrix} {options : Options} (h : m.BuiltWith options)
    (hfit : m.choiceCounts.sum < Word.size) :
    ∃ numChoices entries, m.Built numChoices entries options := by
  obtain ⟨numChoices, entries, hm, hcounts⟩ := h.exists_assembled
  rw [hcounts] at hfit
  exact ⟨numChoices, entries, hm.built hfit⟩

/-- The states cover the rows exactly if the numbers of choices add up to a word. -/
theorem BuiltWith.covers_afterAll_iff {m : ChoiceMatrix} {options : Options}
    (h : m.BuiltWith options) (calls : List LabelCall) :
    (m.afterAll calls).groupSpans.Covers (m.afterAll calls).numStates (m.afterAll calls).numChoiceRows ↔
      m.choiceCounts.sum < Word.size := by
  obtain ⟨numChoices, entries, hm, hcounts⟩ := h.exists_assembled
  obtain ⟨labels, heq⟩ := m.exists_afterAll calls
  have hwords : ∀ count ∈ numChoices, count < Word.size := by
    rw [← hcounts]
    intro count hcount
    obtain ⟨state, _, rfl⟩ := List.mem_map.1 hcount
    exact Word.sub_lt _ _
  rw [heq, hcounts, ← RowSpans.covers_consecutive_iff hwords, ← hm.groupSpans_eq, ← hm.numStates_eq,
    ← hm.numChoiceRows_eq]
  rfl

end ChoiceMatrix

end TransitionMatrix
