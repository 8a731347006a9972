import TransitionMatrix.Traced

/-!
# Changes to a value

A call on a value may change it, report events and fail. A failure ends the call and undoes nothing:
the value stays as it was changed until then. Statements about calls go through `Update.after` and
`Update.outcome`, which commute with the steps that calls are made of.
-/

namespace TransitionMatrix

/-- A call on a value: the value afterwards, and what came of the call. -/
def Update (σ α : Type) : Type := σ → σ × Traced α

namespace Update

variable {σ α β : Type}

/-- The value after a call, failed or not. -/
def after (u : Update σ α) (s : σ) : σ := (u s).1

/-- The value that a call returns, or what went wrong. -/
def outcome (u : Update σ α) (s : σ) : Except Error α := (u s).2.result

/-- Goes on with the value that was returned; an error ends the call. -/
def andThen (u : Update σ α) (f : α → Update σ β) : Update σ β := fun s =>
  let (s, first) := u s
  match first.result with
  | .ok a =>
    let (s, second) := f a s
    (s, ⟨first.log ++ second.log, second.result⟩)
  | .error e => (s, ⟨first.log, .error e⟩)

instance : Monad (Update σ) where
  pure a := fun s => (s, pure a)
  bind := andThen

/-- The value as it is. -/
def get : Update σ σ := fun s => (s, pure s)

/-- Puts another value in its place. -/
def set (s : σ) : Update σ Unit := fun _ => (s, pure ())

/-- A computation that leaves the value alone. -/
def lift (t : Traced α) : Update σ α := fun s => (s, t)

instance : MonadLift Traced (Update σ) := ⟨lift⟩

/-- Does something for each of `count` numbers, from `start` on. -/
def forFrom (f : Nat → Update σ Unit) (start : Nat) : (count : Nat) → Update σ Unit
  | 0 => pure ()
  | count + 1 => do
    f start
    forFrom f (start + 1) count

/-! ## What the steps do -/

variable (s : σ)

@[simp] theorem after_get : (get : Update σ σ).after s = s := rfl

@[simp] theorem outcome_get : (get : Update σ σ).outcome s = .ok s := rfl

variable {s} {u : Update σ α} {f : α → Update σ β}

theorem after_bind_ok {a : α} (h : u.outcome s = .ok a) :
    (u >>= f).after s = (f a).after (u.after s) := by
  have hresult : (u s).2.result = .ok a := h
  simp [bind, andThen, after, hresult]

theorem outcome_bind_ok {a : α} (h : u.outcome s = .ok a) :
    (u >>= f).outcome s = (f a).outcome (u.after s) := by
  have hresult : (u s).2.result = .ok a := h
  simp [bind, andThen, after, outcome, hresult]

/-- An error leaves the value as the first part left it. -/
theorem after_bind_error {e : Error} (h : u.outcome s = .error e) :
    (u >>= f).after s = u.after s := by
  have hresult : (u s).2.result = .error e := h
  simp [bind, andThen, after, hresult]

theorem outcome_bind_error {e : Error} (h : u.outcome s = .error e) :
    (u >>= f).outcome s = .error e := by
  have hresult : (u s).2.result = .error e := h
  simp [bind, andThen, outcome, hresult]

end Update

end TransitionMatrix
