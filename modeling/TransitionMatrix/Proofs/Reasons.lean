import TransitionMatrix.Traced

/-!
# Reasons for errors

A computation makes its checks one after another, and the first one that is not passed decides the
error. What a check looks for is a reason: the errors that the check gives, each under its condition.
A list of reasons in the order of the checks then says exactly when the computation fails and with
which error, and it succeeds if there is none of them.
-/

namespace TransitionMatrix

namespace Error

/-- The errors that a check can give, each where its condition holds. -/
abbrev Reason := Error → Prop

/-- The error is given for the first of the reasons that there is. -/
def First : List Reason → Error → Prop
  | [], _ => False
  | reason :: rest, err => reason err ∨ (∀ e, ¬ reason e) ∧ First rest err

variable {reason : Reason} {before reasons rest : List Reason} {err : Error}

theorem first_singleton : First [reason] err ↔ reason err := by
  simp [First]

/-- A reason that there is not can be left out. -/
theorem first_cons_of_not (h : ∀ e, ¬ reason e) : First (reason :: rest) err ↔ First rest err := by
  simp [First, h]

/-- The first reason is one of the first part, or of the rest if the first part has none. -/
theorem first_append : First (reasons ++ rest) err ↔
    First reasons err ∨ (∀ e, ¬ First reasons e) ∧ First rest err := by
  induction reasons with
  | nil => simp [First]
  | cons reason reasons ih =>
    rw [List.cons_append, First, First, ih]
    by_cases hreason : ∃ e, reason e
    · obtain ⟨e, he⟩ := hreason
      have hsome : ¬ ∀ e, ¬ reason e := fun hnone => hnone e he
      have hfirst : ¬ ∀ e, ¬ First (reason :: reasons) e := fun hnone => hnone e (Or.inl he)
      simp [hsome, hfirst]
    · have hnone : ∀ e, ¬ reason e := fun e he => hreason ⟨e, he⟩
      simp [hnone, first_cons_of_not hnone]

/-- A reason can be left out if there is none like it unless there is one before it. -/
theorem first_append_cons_of_not (h : (∀ e, ¬ First before e) → ∀ e, ¬ reason e) :
    First (before ++ reason :: rest) err ↔ First (before ++ rest) err := by
  rw [first_append, first_append]
  refine or_congr_right (and_congr_right fun hbefore => ?_)
  exact first_cons_of_not (h hbefore)

theorem First.exists_mem (h : First reasons err) : ∃ reason ∈ reasons, reason err := by
  induction reasons with
  | nil => exact h.elim
  | cons reason reasons ih =>
    rcases h with hreason | ⟨_, hrest⟩
    · exact ⟨reason, List.mem_cons_self, hreason⟩
    · obtain ⟨other, hother, hreason⟩ := ih hrest
      exact ⟨other, List.mem_cons_of_mem _ hother, hreason⟩

/-- There is a first reason if there is any. -/
theorem exists_first_iff : (∃ err, First reasons err) ↔ ∃ reason ∈ reasons, ∃ err, reason err := by
  constructor
  · rintro ⟨err, h⟩
    obtain ⟨reason, hmem, hreason⟩ := h.exists_mem
    exact ⟨reason, hmem, err, hreason⟩
  · induction reasons with
    | nil =>
      rintro ⟨_, hmem, _⟩
      cases hmem
    | cons reason reasons ih =>
      rintro ⟨other, hmem, err, hother⟩
      by_cases hreason : ∃ e, reason e
      · obtain ⟨e, he⟩ := hreason
        exact ⟨e, Or.inl he⟩
      · have hnone : ∀ e, ¬ reason e := fun e he => hreason ⟨e, he⟩
        rcases List.mem_cons.1 hmem with rfl | hmem
        · exact absurd hother (hnone err)
        · obtain ⟨e, he⟩ := ih ⟨other, hmem, err, hother⟩
          exact ⟨e, Or.inr ⟨hnone, he⟩⟩

/-- There is no first reason if there is none at all. -/
theorem not_first_iff : (∀ err, ¬ First reasons err) ↔ ∀ reason ∈ reasons, ∀ err, ¬ reason err := by
  rw [← not_exists, exists_first_iff]
  simp only [not_exists, not_and]

/-- The first of the entries that have a fault gives the error. -/
theorem findSome?_eq_some_iff {α : Type} {fault? : α → Option Error} {fault : α → Reason}
    (h : ∀ a err, fault? a = some err ↔ fault a err) {entries : List α} :
    entries.findSome? fault? = some err ↔ First (entries.map fault) err := by
  induction entries with
  | nil => simp [First]
  | cons a rest ih =>
    rw [List.map_cons, First, ← h]
    cases hfault : fault? a with
    | none =>
      have hnone : ∀ e, ¬ fault a e := fun e he => by simpa [hfault] using (h a e).2 he
      simp [List.findSome?_cons_of_isNone, hfault, hnone, ih]
    | some e =>
      have hsome : ¬ ∀ e, ¬ fault a e := fun hnone => hnone e ((h a e).1 hfault)
      simp [List.findSome?_cons_of_isSome, hfault, hsome]

end Error

/-- The result is an error exactly for the first of the reasons that there is. -/
def FailsFor {α : Type} (result : Except Error α) (reasons : List Error.Reason) : Prop :=
  ∀ err, result = .error err ↔ Error.First reasons err

section FailsFor

variable {α β : Type} {result : Except Error α} {reasons rest : List Error.Reason}

theorem failsFor_ok (a : α) : FailsFor (.ok a : Except Error α) [] := by
  intro err
  simp [Error.First]

/-- A check that looks for the fault of each entry in turn. -/
theorem failsFor_raise_findSome? {fault? : α → Option Error} {fault : α → Error.Reason}
    (h : ∀ a err, fault? a = some err ↔ fault a err) (entries : List α) :
    FailsFor (Error.raise (entries.findSome? fault?)) (entries.map fault) := by
  intro err
  rw [Error.raise_eq_error_iff, Error.findSome?_eq_some_iff h]

/-- The reasons of the rest follow those of the first part. -/
theorem FailsFor.bind {x : Traced α} {f : α → Traced β} (hx : FailsFor x.result reasons)
    (hf : ∀ a, x.result = .ok a → FailsFor (f a).result rest) :
    FailsFor (x >>= f).result (reasons ++ rest) := by
  intro err
  rw [Traced.result_bind_eq_error_iff, Error.first_append, hx err]
  refine or_congr_right ?_
  cases hresult : x.result with
  | error e =>
    have hfirst : ¬ ∀ e, ¬ Error.First reasons e := fun hnone => hnone e ((hx e).1 hresult)
    simp [hfirst]
  | ok a =>
    have hnone : ∀ e, ¬ Error.First reasons e := fun e he => by simpa [hresult] using (hx e).2 he
    simp [hnone, hf a hresult err]

theorem FailsFor.bind_cons {reason : Error.Reason} {x : Traced α} {f : α → Traced β}
    (hx : FailsFor x.result [reason]) (hf : ∀ a, x.result = .ok a → FailsFor (f a).result rest) :
    FailsFor (x >>= f).result (reason :: rest) :=
  hx.bind hf

/-- A part that succeeds has no reason to fail. -/
theorem FailsFor.bind_ok {x : Traced α} {f : α → Traced β} {a : α} (hx : x.result = .ok a)
    (hf : FailsFor (f a).result rest) : FailsFor (x >>= f).result rest := by
  intro err
  rw [Traced.result_bind, hx]
  exact hf err

/-- A rest that succeeds adds no reason to fail. -/
theorem FailsFor.bind_of_ok {x : Traced α} {f : α → Traced β} (hx : FailsFor x.result reasons)
    (hf : ∀ a, ∃ b, (f a).result = .ok b) : FailsFor (x >>= f).result reasons := by
  have hbind : FailsFor (x >>= f).result (reasons ++ []) := by
    refine hx.bind fun a _ => ?_
    obtain ⟨b, hb⟩ := hf a
    rw [hb]
    exact failsFor_ok b
  rwa [List.append_nil] at hbind

/-- What comes after reasons that there are plays no part. -/
theorem FailsFor.append_congr {rest' : List Error.Reason} (h : FailsFor result (reasons ++ rest))
    (heq : (∀ reason ∈ reasons, ∀ err, ¬ reason err) → rest = rest') :
    FailsFor result (reasons ++ rest') := by
  intro err
  rw [h err, Error.first_append, Error.first_append]
  refine or_congr_right (and_congr_right fun hnone => ?_)
  rw [heq (Error.not_first_iff.1 hnone)]

variable (h : FailsFor result reasons)

include h

/-- An error is one that some reason is for. -/
theorem FailsFor.exists_mem {err : Error} (herr : result = .error err) :
    ∃ reason ∈ reasons, reason err :=
  ((h err).1 herr).exists_mem

/-- A computation succeeds exactly if there is no reason for it to fail. -/
theorem FailsFor.exists_ok_iff :
    (∃ a, result = .ok a) ↔ ∀ reason ∈ reasons, ∀ err, ¬ reason err := by
  rw [← Error.not_first_iff]
  cases hresult : result with
  | error e =>
    have hfirst := (h e).1 hresult
    exact iff_of_false (by simp) fun hnone => hnone e hfirst
  | ok a =>
    refine iff_of_true ⟨a, rfl⟩ fun e he => ?_
    cases hresult.symm.trans ((h e).2 he)

end FailsFor

end TransitionMatrix
