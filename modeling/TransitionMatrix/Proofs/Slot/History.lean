import Mathlib.Data.List.Basic
import Mathlib.Data.List.Induction
import TransitionMatrix.Slot

/-!
# Histories of a slot

What a slot holds and reports after any sequence of operations can be read off the sequence. The matrix
is that of the latest operation that replaces it, the last error that of the latest step that failed,
and a matrix that was handed out stays what it was.
-/

namespace TransitionMatrix

namespace Slot

/-! ## Operations -/

/-- What is asked of the matrix in a slot. -/
inductive Query where
  | weight (src dst : Nat)
  | successors (src : Nat)
  | isFinal (src : Nat)

namespace Query

/-- What a query is answered with. -/
def Answer : Query → Type
  | weight _ _ => Option Binary64
  | successors _ => List Nat
  | isFinal _ => Bool

/-- What a matrix answers. -/
def answer : (query : Query) → Matrix → Except Error query.Answer
  | weight src dst, m => m.weight? src dst
  | successors src, m => m.successors src
  | isFinal src, m => m.isFinal src

end Query

/-- An operation on a slot. -/
inductive Step where
  | build (make : Traced Matrix)
  | install (m : Matrix)
  | release
  | current
  | ask (query : Query)

/-- A slot, and the matrices that it handed out. -/
structure Session where
  slot : Slot
  /-- The matrices, in the order in which they were handed out. -/
  handles : List Matrix

namespace Session

/-- The session that nothing has happened in. -/
def new : Session := ⟨.empty, []⟩

/-- The session after one operation. Building, installing and asking for the current matrix hand it
out. -/
def next (s : Session) : Step → Session
  | .build make =>
    let (slot, built) := s.slot.build make
    ⟨slot, s.handles ++ built.result.toOption.toList⟩
  | .install m => ⟨(s.slot.install m).1, s.handles ++ [m]⟩
  | .release => ⟨s.slot.release.1, s.handles⟩
  | .current => ⟨s.slot, s.handles ++ s.slot.current?.toOption.toList⟩
  | .ask query => ⟨(s.slot.ask query.answer).1, s.handles⟩

/-- The session after a sequence of operations. -/
def after (steps : List Step) : Session := steps.foldl next new

/-- What the `n`-th matrix that was handed out answers. -/
def answer? (s : Session) (n : Nat) (query : Query) : Option (Except Error query.Answer) :=
  s.handles[n]?.map query.answer

theorem after_append (steps later : List Step) :
    after (steps ++ later) = later.foldl next (after steps) := List.foldl_append

theorem after_concat (steps : List Step) (step : Step) :
    after (steps ++ [step]) = (after steps).next step := after_append steps [step]

end Session

/-! ## What is read off a sequence of operations -/

/-- The error that a result ends in. -/
def errorOf {α : Type} : Except Error α → Option Error
  | .ok _ => none
  | .error e => some e

namespace Step

/-- Whether an operation replaces the matrix in the slot, by another one or by none. -/
def replaces : Step → Bool
  | build _ => true
  | install _ => true
  | release => true
  | current => false
  | ask _ => false

/-- The matrix that an operation puts into the slot: none if a build fails. -/
def matrix? : Step → Option Matrix
  | build make => make.result.toOption
  | install m => some m
  | release => none
  | current => none
  | ask _ => none

/-- The matrix in the slot after an operation. -/
def leaves (held : Option Matrix) (step : Step) : Option Matrix :=
  if step.replaces then step.matrix? else held

/-- The error that an operation records: that of a build or of a query. -/
def failure? (held : Option Matrix) : Step → Option Error
  | build make => errorOf make.result
  | ask query =>
    match held with
    | none => some .noMatrix
    | some m => errorOf (query.answer m)
  | install _ => none
  | release => none
  | current => none

/-- The matrix that an operation hands out. -/
def handed? (held : Option Matrix) : Step → Option Matrix
  | build make => make.result.toOption
  | install m => some m
  | current => held
  | release => none
  | ask _ => none

end Step

/-- The matrix that the latest operation among those that replace it put into the slot. -/
def held (steps : List Step) : Option Matrix :=
  (steps.filter Step.replaces).getLast?.bind Step.matrix?

/-- The errors of the builds and queries that failed, in order. -/
def failures (steps : List Step) : List Error :=
  (List.range steps.length).filterMap fun n =>
    steps[n]?.bind fun step => step.failure? (held (steps.take n))

theorem held_concat (steps : List Step) (step : Step) :
    held (steps ++ [step]) = step.leaves (held steps) := by
  cases hreplaces : step.replaces with
  | false => simp [held, Step.leaves, hreplaces]
  | true => simp [held, Step.leaves, hreplaces]

theorem failures_concat (steps : List Step) (step : Step) :
    failures (steps ++ [step]) = failures steps ++ (step.failure? (held steps)).toList := by
  have hbefore : (List.range steps.length).filterMap (fun n => (steps ++ [step])[n]?.bind fun step' =>
      step'.failure? (held ((steps ++ [step]).take n))) = failures steps := by
    refine List.filterMap_congr fun n hn => ?_
    have hlt : n < steps.length := List.mem_range.1 hn
    rw [List.getElem?_append_left hlt, List.take_append_of_le_length (Nat.le_of_lt hlt)]
  have hlast : (steps ++ [step])[steps.length]? = some step := List.getElem?_concat_length
  rw [failures, List.length_append, List.length_singleton, List.range_succ, List.filterMap_append,
    hbefore, List.filterMap_cons, hlast, List.take_left, Option.bind_some]
  cases step.failure? (held steps) <;> rfl

/-! ## One operation -/

theorem record_eq {α : Type} (s : Slot) (result : Except Error α) :
    s.record result = ⟨s.current, (errorOf result).or s.lastError⟩ := by
  cases result <;> rfl

theorem build_eq (s : Slot) (make : Traced Matrix) :
    (s.build make).1 = ⟨make.result.toOption, (errorOf make.result).or s.lastError⟩ ∧
      (s.build make).2.result = make.result := by
  cases hmake : make.result with
  | ok m =>
    rw [build, hmake]
    exact ⟨rfl, rfl⟩
  | error e =>
    rw [build, hmake]
    exact ⟨rfl, rfl⟩

theorem ask_eq {α : Type} (s : Slot) (query : Matrix → Except Error α) :
    s.ask query = (⟨s.current, (errorOf (s.current?.bind query)).or s.lastError⟩,
      s.current?.bind query) := by
  rw [ask, record_eq]

section Next

variable (s : Session) (step : Step)

theorem current_next : (s.next step).slot.current = step.leaves s.slot.current := by
  cases step with
  | build make => exact congrArg Slot.current (build_eq s.slot make).1
  | install m => rfl
  | release => rfl
  | current => rfl
  | ask query =>
    rw [Session.next, ask_eq]
    rfl

theorem lastError_next :
    (s.next step).slot.lastError = (step.failure? s.slot.current).or s.slot.lastError := by
  cases step with
  | build make => exact congrArg Slot.lastError (build_eq s.slot make).1
  | install m => rfl
  | release => rfl
  | current => rfl
  | ask query =>
    rw [Session.next, ask_eq]
    cases hcurrent : s.slot.current with
    | none => simp [current?, hcurrent, Step.failure?, Except.bind, errorOf]
    | some m => simp [current?, hcurrent, Step.failure?, Except.bind]

theorem handles_next :
    (s.next step).handles = s.handles ++ (step.handed? s.slot.current).toList := by
  cases step with
  | build make =>
    exact congrArg (fun r => s.handles ++ r.toOption.toList) (build_eq s.slot make).2
  | install m => rfl
  | release => exact (List.append_nil _).symm
  | current =>
    rw [Session.next, current?]
    cases s.slot.current <;> rfl
  | ask query => exact (List.append_nil _).symm

end Next

/-! ## Sequences of operations -/

theorem current_after (steps : List Step) : (Session.after steps).slot.current = held steps := by
  induction steps using List.reverseRecOn with
  | nil => rfl
  | append_singleton steps step ih => rw [Session.after_concat, current_next, ih, held_concat]

theorem lastError_after (steps : List Step) :
    (Session.after steps).slot.lastError = (failures steps).getLast? := by
  induction steps using List.reverseRecOn with
  | nil => rfl
  | append_singleton steps step ih =>
    rw [Session.after_concat, lastError_next, current_after, ih, failures_concat, List.getLast?_append]
    cases step.failure? (held steps) <;> rfl

/-- Matrices are handed out behind the earlier ones, which stay where they are. -/
theorem exists_handles_after (steps later : List Step) :
    ∃ handed, (Session.after (steps ++ later)).handles = (Session.after steps).handles ++ handed := by
  induction later using List.reverseRecOn with
  | nil => exact ⟨[], by simp⟩
  | append_singleton later step ih =>
    obtain ⟨handed, hhanded⟩ := ih
    rw [← List.append_assoc, Session.after_concat, handles_next, hhanded, List.append_assoc]
    exact ⟨_, rfl⟩

theorem handles_of_handed? {steps : List Step} {step : Step} {m : Matrix}
    (h : step.handed? (held steps) = some m) (later : List Step) :
    (Session.after (steps ++ step :: later)).handles[(Session.after steps).handles.length]? = some m := by
  obtain ⟨handed, hhanded⟩ := exists_handles_after (steps ++ [step]) later
  rw [List.append_assoc, List.singleton_append, Session.after_concat, handles_next, current_after, h]
    at hhanded
  simp [hhanded]

/-- After any sequence of operations, the slot holds the matrix of the latest one that replaces it, and
is empty if that was a failed build or a release, or if there was none. A matrix in the slot answers as
it does elsewhere, and nothing is answered without one. The last error is that of the latest build or
query that failed, and no other operation changes it. A matrix that was handed out answers the same
ever after. -/
theorem state_of_history (steps : List Step) :
    (Session.after steps).slot.isBuilt = (held steps).isSome ∧
    (∀ m, held steps = some m →
      (Session.after steps).slot.current? = .ok m ∧
      ∀ query : Query, ((Session.after steps).slot.ask query.answer).2 = query.answer m) ∧
    (held steps = none →
      (Session.after steps).slot.current? = .error .noMatrix ∧
      ∀ query : Query, ((Session.after steps).slot.ask query.answer).2 = .error .noMatrix) ∧
    (Session.after steps).slot.lastError = (failures steps).getLast? ∧
    (∀ step : Step, step.failure? (held steps) = none →
      (Session.after (steps ++ [step])).slot.lastError = (Session.after steps).slot.lastError) ∧
    ∀ (step : Step) m, step.handed? (held steps) = some m → ∀ later query,
      (Session.after (steps ++ step :: later)).answer? (Session.after steps).handles.length query
        = some (query.answer m) := by
  have hcurrent := current_after steps
  refine ⟨?_, fun m hm => ⟨?_, fun query => ?_⟩, fun hnone => ⟨?_, fun query => ?_⟩,
    lastError_after steps, fun step hstep => ?_, fun step m hstep later query => ?_⟩
  · rw [isBuilt, hcurrent]
  · rw [current?, hcurrent, hm]
    rfl
  · rw [ask_eq, current?, hcurrent, hm]
    rfl
  · rw [current?, hcurrent, hnone]
    rfl
  · rw [ask_eq, current?, hcurrent, hnone]
    rfl
  · rw [Session.after_concat, lastError_next, hcurrent, hstep, Option.none_or]
  · rw [Session.answer?, handles_of_handed? hstep later, Option.map_some]

/-- One state without transitions. -/
def single : Matrix := ⟨1, 1, .counts #[0], ⟨#[⟨0, 0⟩]⟩, .plain #[] #[]⟩

/-- A query in vain, a matrix that is installed, a query of it that fails, and a build that fails. -/
theorem state_of_failures :
    (Session.after [.ask (.isFinal 0), .install single]).slot.current? = .ok single ∧
    (Session.after [.ask (.isFinal 0), .install single]).slot.lastError = some .noMatrix ∧
    (Session.after [.ask (.isFinal 0), .install single, .ask (.isFinal 1),
      .build (.fail (.invalidColumnWidth 1))]).slot.current? = .error .noMatrix ∧
    (Session.after [.ask (.isFinal 0), .install single, .ask (.isFinal 1),
      .build (.fail (.invalidColumnWidth 1))]).slot.lastError = some (.invalidColumnWidth 1) ∧
    (Session.after [.ask (.isFinal 0), .install single, .ask (.isFinal 1),
      .build (.fail (.invalidColumnWidth 1))]).answer? 0 (.isFinal 0) = some (.ok true) := by
  obtain ⟨_, hheld, _, herror, _, _⟩ := state_of_history [.ask (.isFinal 0), .install single]
  obtain ⟨_, _, hempty, herror', _, _⟩ := state_of_history [.ask (.isFinal 0), .install single,
    .ask (.isFinal 1), .build (.fail (.invalidColumnWidth 1))]
  obtain ⟨_, _, _, _, _, hhandle⟩ := state_of_history [.ask (.isFinal 0)]
  exact ⟨(hheld single rfl).1, herror, (hempty rfl).1, herror',
    hhandle (.install single) single rfl _ (.isFinal 0)⟩

end Slot

end TransitionMatrix
