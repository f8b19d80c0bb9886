import Mathlib.Logic.Basic

/-! Sequences of checks that stop at the first refusal.

A check refuses on a condition or on a value that is not there. A sequence of
checks succeeds exactly when none of them refuses, which is how the lemmas read
it back, and fails only with the refusals that stand in it. -/
namespace ControlTower.Go

variable {ε α β : Type}

/-- `if condition { return e }`. -/
def refuse (e : ε) (condition : Bool) : Except ε Unit := if condition then .error e else .ok ()

/-- `if err == sql.ErrNoRows { return e }`. -/
def found (e : ε) : Option α → Except ε α
  | none => .error e
  | some a => .ok a

@[simp] theorem bind_eq_ok {x : Except ε α} {f : α → Except ε β} {b : β} :
    (x >>= f) = .ok b ↔ ∃ a, x = .ok a ∧ f a = .ok b := by
  cases x <;> simp [bind, Except.bind]

@[simp] theorem pure_eq_ok {a b : α} : (pure a : Except ε α) = .ok b ↔ a = b := by
  simp [pure, Except.pure]

@[simp] theorem refuse_eq_ok {e : ε} {condition : Bool} {u : Unit} :
    refuse e condition = .ok u ↔ condition = false := by
  cases condition <;> simp [refuse]

@[simp] theorem found_eq_ok {e : ε} {o : Option α} {a : α} : found e o = .ok a ↔ o = some a := by
  cases o <;> simp [found]

theorem bind_eq_error {x : Except ε α} {f : α → Except ε β} {e : ε} :
    (x >>= f) = .error e ↔ x = .error e ∨ ∃ a, x = .ok a ∧ f a = .error e := by
  cases x <;> simp [bind, Except.bind]

@[simp] theorem refuse_eq_error {e e' : ε} {condition : Bool} :
    refuse e condition = .error e' ↔ condition = true ∧ e = e' := by
  cases condition <;> simp [refuse]

@[simp] theorem found_eq_error {e e' : ε} {o : Option α} : found e o = .error e' ↔ o = none ∧ e = e' := by
  cases o <;> simp [found]

/-- The only way the computation fails is with `e`. -/
def FailsOnly (e : ε) (x : Except ε α) : Prop := ∀ e', x = .error e' → e' = e

namespace FailsOnly
variable {e : ε}

theorem ok (a : α) : FailsOnly e (.ok a) := nofun

theorem pure (a : α) : FailsOnly e (Pure.pure a : Except ε α) := nofun

theorem refuse (condition : Bool) : FailsOnly e (refuse e condition) := by
  intro e' h
  cases condition
  · cases h
  · cases h
    rfl

theorem found (o : Option α) : FailsOnly e (found e o) := by
  intro e' h
  cases o <;> cases h
  rfl

theorem bind {x : Except ε α} {f : α → Except ε β} (hx : FailsOnly e x) (hf : ∀ a, FailsOnly e (f a)) :
    FailsOnly e (x >>= f) := by
  cases x with
  | error e' =>
    intro e'' h
    cases h
    exact hx e' rfl
  | ok a => exact hf a

theorem ite {p : Prop} [Decidable p] {x y : Except ε α} (hx : FailsOnly e x) (hy : FailsOnly e y) :
    FailsOnly e (if p then x else y) := by
  split
  · exact hx
  · exact hy

end FailsOnly

end ControlTower.Go
