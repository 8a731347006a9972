import Mathlib.Data.List.Induction
import TransitionMatrix.Proofs.ChoiceMatrix.Labels
import TransitionMatrix.Proofs.ChoiceMatrix.Soundness
import TransitionMatrix.Symbolic.Labels

/-!
# Calls that give a matrix labels

Labels come from a list, or from a relation that is expanded into a list first. What a call does is
told by what it writes: if that can be written it becomes the labels of the matrix, and otherwise the
matrix is as before. Earlier labels play no part in what is written, so after calls that were made one
after another the labels are those of the last one that succeeded.
-/

namespace TransitionMatrix

namespace LabelCall

/-- The labels that the call gives, or what goes wrong before there are any. -/
def labels : LabelCall → Except Error (List Label)
  | ofList labels => .ok labels
  | ofRelation e relation actions => (e.labelsFor relation actions).result

/-- What the call writes for a matrix, or what goes wrong before everything is written. -/
def written (call : LabelCall) (m : ChoiceMatrix) : Except Error (Array (Option Nat)) :=
  call.labels >>= m.written

variable {call : LabelCall} {m : ChoiceMatrix} {array : Array (Option Nat)}

theorem written_eq_ok_iff : call.written m = .ok array ↔
    ∃ labels, call.labels = .ok labels ∧ m.written labels = .ok array := by
  unfold written
  cases call.labels with
  | error err => simp [bind, Except.bind]
  | ok labels => simp [bind, Except.bind]

theorem size_written (h : call.written m = .ok array) : array.size = m.numChoiceRows := by
  obtain ⟨labels, _, h⟩ := written_eq_ok_iff.1 h
  exact ChoiceMatrix.size_written h

/-- Earlier labels play no part. -/
theorem written_of_labels (call : LabelCall) (m : ChoiceMatrix)
    (earlier : Option (Array (Option Nat))) :
    call.written { m with labels := earlier } = call.written m := by
  unfold written
  congr 1
  exact funext (m.written_of_labels earlier)

/-! ## One call -/

/-- What is written becomes the labels of the matrix. -/
theorem run_of_ok (h : call.written m = .ok array) : call.run.outcome m = .ok () ∧
    call.run.after m = { m with labels := some array } := by
  obtain ⟨labels, hlabels, hwritten⟩ := written_eq_ok_iff.1 h
  cases call with
  | ofList given =>
    cases hlabels
    exact ChoiceMatrix.setLabels_of_ok hwritten
  | ofRelation e relation actions =>
    have hexpanded : (liftM (e.labelsFor relation actions) : Update ChoiceMatrix _).outcome m
        = .ok labels := hlabels
    rw [run, Encoding.addActions, Update.outcome_bind_ok hexpanded, Update.after_bind_ok hexpanded]
    exact ChoiceMatrix.setLabels_of_ok hwritten

/-- A call that fails, before there are labels or at one of them, leaves the matrix as it is. -/
theorem run_of_error {err : Error} (h : call.written m = .error err) :
    call.run.outcome m = .error err ∧ call.run.after m = m := by
  cases call with
  | ofList given => exact ChoiceMatrix.setLabels_of_error h
  | ofRelation e relation actions =>
    cases hlabels : (e.labelsFor relation actions).result with
    | error found =>
      have hexpanded : (liftM (e.labelsFor relation actions) : Update ChoiceMatrix _).outcome m
          = .error found := hlabels
      have hfound : (.error found : Except Error (Array (Option Nat))) = .error err := by
        rw [← h, written, labels, hlabels]
        rfl
      cases hfound
      exact ⟨Update.outcome_bind_error hexpanded, Update.after_bind_error hexpanded⟩
    | ok labels =>
      have hexpanded : (liftM (e.labelsFor relation actions) : Update ChoiceMatrix _).outcome m
          = .ok labels := hlabels
      have hwritten : m.written labels = .error err := by
        rw [← h, written, LabelCall.labels, hlabels]
        rfl
      rw [run, Encoding.addActions, Update.outcome_bind_ok hexpanded,
        Update.after_bind_ok hexpanded]
      exact ChoiceMatrix.setLabels_of_error hwritten

theorem outcome_run (call : LabelCall) (m : ChoiceMatrix) :
    call.run.outcome m = (call.written m).map fun _ => () := by
  cases h : call.written m with
  | error err => rw [(run_of_error h).1, Except.map]
  | ok array => rw [(run_of_ok h).1, Except.map]

theorem exists_written (h : call.run.outcome m = .ok ()) : ∃ array, call.written m = .ok array := by
  rw [outcome_run] at h
  cases hwritten : call.written m with
  | error err =>
    rw [hwritten] at h
    cases h
  | ok array => exact ⟨array, rfl⟩

theorem outcome_eq_error_iff {err : Error} :
    call.run.outcome m = .error err ↔ call.written m = .error err := by
  rw [outcome_run]
  cases call.written m with
  | error found =>
    show Except.error found = Except.error err ↔ _
    rw [Except.error.injEq, Except.error.injEq]
  | ok array =>
    constructor
    · intro h
      cases h
    · intro h
      cases h

end LabelCall

namespace ChoiceMatrix

/-! ## One call after another -/

/-- The matrix after calls that are made one after another, whether they fail or not. -/
def afterAll (m : ChoiceMatrix) (calls : List LabelCall) : ChoiceMatrix :=
  calls.foldl (fun m call => call.run.after m) m

/-- Whether a call succeeds. -/
def accepts (m : ChoiceMatrix) (call : LabelCall) : Bool := (call.run.outcome m).isOk

/-- The last of the calls that succeed. -/
def lastAccepted (m : ChoiceMatrix) (calls : List LabelCall) : Option LabelCall :=
  calls.reverse.find? m.accepts

theorem afterAll_concat (m : ChoiceMatrix) (calls : List LabelCall) (call : LabelCall) :
    m.afterAll (calls ++ [call]) = call.run.after (m.afterAll calls) := by
  rw [afterAll, List.foldl_append]
  rfl

theorem lastAccepted_concat (m : ChoiceMatrix) (calls : List LabelCall) (call : LabelCall) :
    m.lastAccepted (calls ++ [call])
      = if m.accepts call then some call else m.lastAccepted calls := by
  rw [lastAccepted, List.reverse_append, List.reverse_singleton, List.singleton_append,
    List.find?_cons]
  cases m.accepts call with
  | true => rfl
  | false => rfl

/-- Nothing but the labels changes in a call. -/
theorem exists_after (m : ChoiceMatrix) (call : LabelCall) :
    ∃ labels, call.run.after m = { m with labels } := by
  cases h : call.written m with
  | error err => exact ⟨m.labels, (LabelCall.run_of_error h).2⟩
  | ok array => exact ⟨some array, (LabelCall.run_of_ok h).2⟩

theorem exists_afterAll (m : ChoiceMatrix) (calls : List LabelCall) :
    ∃ labels, m.afterAll calls = { m with labels } := by
  induction calls using List.reverseRecOn with
  | nil => exact ⟨m.labels, rfl⟩
  | append_singleton calls call ih =>
    obtain ⟨earlier, hearlier⟩ := ih
    rw [afterAll_concat, hearlier]
    exact exists_after _ call

/-- What a call writes is not changed by calls before it. -/
theorem written_afterAll (m : ChoiceMatrix) (calls : List LabelCall) (call : LabelCall) :
    call.written (m.afterAll calls) = call.written m := by
  obtain ⟨labels, heq⟩ := m.exists_afterAll calls
  rw [heq, call.written_of_labels]

theorem outcome_run_afterAll (m : ChoiceMatrix) (calls : List LabelCall) (call : LabelCall) :
    call.run.outcome (m.afterAll calls) = call.run.outcome m := by
  rw [LabelCall.outcome_run, written_afterAll, LabelCall.outcome_run]

/-- After calls of which none succeeds the matrix is as it was; otherwise it has what the last one
that succeeds writes. -/
theorem afterAll_cases (m : ChoiceMatrix) (calls : List LabelCall) :
    (m.lastAccepted calls = none ∧ m.afterAll calls = m) ∨
      ∃ call array, m.lastAccepted calls = some call ∧ call.written m = .ok array ∧
        m.afterAll calls = { m with labels := some array } := by
  induction calls using List.reverseRecOn with
  | nil => exact Or.inl ⟨rfl, rfl⟩
  | append_singleton calls call ih =>
    have hrun := m.written_afterAll calls call
    rw [lastAccepted_concat, afterAll_concat]
    cases hcall : call.written m with
    | error err =>
      have hrefused : m.accepts call = false := by
        rw [accepts, (LabelCall.run_of_error hcall).1]
        rfl
      rw [hrefused, (LabelCall.run_of_error (hrun.trans hcall)).2]
      exact ih
    | ok array =>
      have haccepted : m.accepts call = true := by
        rw [accepts, (LabelCall.run_of_ok hcall).1]
        rfl
      obtain ⟨labels, heq⟩ := m.exists_afterAll calls
      rw [haccepted, (LabelCall.run_of_ok (hrun.trans hcall)).2, heq]
      exact Or.inr ⟨call, array, rfl, hcall, rfl⟩

theorem accepts_eq_false_iff {m : ChoiceMatrix} {call : LabelCall} :
    m.accepts call = false ↔ ∃ err, call.run.outcome m = .error err := by
  rw [accepts]
  cases call.run.outcome m with
  | error err => exact ⟨fun _ => ⟨err, rfl⟩, fun _ => rfl⟩
  | ok done =>
    constructor
    · intro h
      cases h
    · rintro ⟨_, h⟩
      cases h

theorem lastAccepted_eq_none_iff {m : ChoiceMatrix} {calls : List LabelCall} :
    m.lastAccepted calls = none ↔ ∀ call ∈ calls, ∃ err, call.run.outcome m = .error err := by
  rw [lastAccepted, List.find?_eq_none]
  refine ⟨fun h call hcall => ?_, fun h call hcall => ?_⟩
  · have hrefused := h call (List.mem_reverse.2 hcall)
    exact accepts_eq_false_iff.1 (by simpa using hrefused)
  · have hrefused := accepts_eq_false_iff.2 (h call (List.mem_reverse.1 hcall))
    simp [hrefused]

/-- There are labels as soon as a call has succeeded. -/
theorem labels_afterAll_eq_none_iff {m : ChoiceMatrix} (hm : m.labels = none)
    (calls : List LabelCall) : (m.afterAll calls).labels = none ↔ m.lastAccepted calls = none := by
  rcases m.afterAll_cases calls with ⟨hnone, heq⟩ | ⟨call, array, hsome, _, heq⟩
  · rw [heq, hm, hnone]
    exact ⟨fun _ => rfl, fun _ => rfl⟩
  · rw [heq, hsome]
    constructor
    · intro h
      cases h
    · intro h
      cases h

/-! ## What holds after all calls -/

/-- One more call leaves a sound matrix sound, whether it fails or not. -/
theorem Sound.after {m : ChoiceMatrix} (h : m.Sound) (call : LabelCall) :
    (call.run.after m).Sound := by
  cases hcall : call.written m with
  | error err =>
    rw [(LabelCall.run_of_error hcall).2]
    exact h
  | ok array =>
    rw [(LabelCall.run_of_ok hcall).2]
    exact h.of_labels (LabelCall.size_written hcall)

theorem Sound.afterAll {m : ChoiceMatrix} (h : m.Sound) (calls : List LabelCall) :
    (m.afterAll calls).Sound := by
  induction calls using List.reverseRecOn with
  | nil => exact h
  | append_singleton calls call ih =>
    rw [afterAll_concat]
    exact ih.after call

theorem Grouped.afterAll {m : ChoiceMatrix} {numChoices : List Nat} (hm : m.Grouped numChoices)
    (calls : List LabelCall) : (m.afterAll calls).Grouped numChoices := by
  obtain ⟨labels, heq⟩ := m.exists_afterAll calls
  rw [heq]
  exact hm.of_labels labels

/-- A choice has the last label for it in the last call that succeeded. -/
theorem Grouped.choiceLabel_afterAll {m : ChoiceMatrix} {numChoices : List Nat}
    (hm : m.Grouped numChoices) {call : LabelCall} {array : Array (Option Nat)}
    (h : call.written m = .ok array) : ∃ labels, call.labels = .ok labels ∧
      ∀ state < m.numStates, ∀ choice < (m.group state).length,
        ({ m with labels := some array } : ChoiceMatrix).choiceLabel state choice
          = .ok (Label.action? labels state choice) := by
  obtain ⟨labels, hlabels, hwritten⟩ := LabelCall.written_eq_ok_iff.1 h
  refine ⟨labels, hlabels, fun state hstate choice hchoice => ?_⟩
  exact hm.choiceLabel_of_written hwritten (choiceRow_of_lt hstate hchoice)

end ChoiceMatrix

end TransitionMatrix
