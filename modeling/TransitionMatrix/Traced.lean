import TransitionMatrix.Event

/-!
# Results with a log

`Traced α` is the outcome of a computation that may fail, together with the events on the way to it.
The log is kept whether the computation succeeds or fails. Statements about results go through
`Traced.result`, which commutes with `pure`, `>>=` and the primitive steps below; the log never
influences a result.
-/

namespace TransitionMatrix

/-- A result or an error, and the events on the way to it. -/
structure Traced (α : Type) where
  /-- The events, in order. -/
  log : List Event
  /-- The value, or what went wrong. -/
  result : Except Error α

namespace Traced

variable {α β : Type}

/-- Continues with a value that was computed; an error ends the computation. -/
def andThen (x : Traced α) (f : α → Traced β) : Traced β :=
  match x.result with
  | .ok a =>
    let y := f a
    ⟨x.log ++ y.log, y.result⟩
  | .error e => ⟨x.log, .error e⟩

instance : Monad Traced where
  pure a := ⟨[], .ok a⟩
  bind := andThen

/-- Ends the computation with an error. -/
def fail (e : Error) : Traced α := ⟨[], .error e⟩

/-- Adds an event to the log. -/
def emit (e : Event) : Traced Unit := ⟨[e], .ok ()⟩

/-- A result that nothing is logged for. -/
def ofExcept (r : Except Error α) : Traced α := ⟨[], r⟩

instance : MonadLift (Except Error) Traced := ⟨ofExcept⟩

/-! ## Results of the primitive steps -/

@[simp] theorem result_pure (a : α) : (pure a : Traced α).result = .ok a := rfl

@[simp] theorem result_fail (e : Error) : (fail e : Traced α).result = .error e := rfl

@[simp] theorem result_emit (e : Event) : (emit e).result = .ok () := rfl

@[simp] theorem result_ofExcept (r : Except Error α) : (ofExcept r).result = r := rfl

@[simp] theorem result_monadLift (r : Except Error α) : (liftM r : Traced α).result = r := rfl

@[simp] theorem result_bind (x : Traced α) (f : α → Traced β) :
    (x >>= f).result = x.result >>= fun a => (f a).result := by
  cases h : x.result <;> simp [bind, andThen, h, Except.bind]

theorem result_bind_of_ok {x : Traced α} {f : α → Traced β} {a : α} (h : x.result = .ok a) :
    (x >>= f).result = (f a).result := by
  rw [result_bind, h]
  rfl

/-- A computation succeeds exactly when its first part does and the rest does on that value. -/
theorem result_bind_eq_ok_iff {x : Traced α} {f : α → Traced β} {b : β} :
    (x >>= f).result = .ok b ↔ ∃ a, x.result = .ok a ∧ (f a).result = .ok b := by
  rw [result_bind]
  cases h : x.result <;> simp [bind, Except.bind]

/-- A computation fails where its first part fails, or where the rest does on the value of the first
part. -/
theorem result_bind_eq_error_iff {x : Traced α} {f : α → Traced β} {e : Error} :
    (x >>= f).result = .error e ↔
      x.result = .error e ∨ ∃ a, x.result = .ok a ∧ (f a).result = .error e := by
  rw [result_bind]
  cases h : x.result <;> simp [bind, Except.bind]

end Traced

end TransitionMatrix
