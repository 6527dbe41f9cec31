import Mathlib
import TorrentProof.Fallible

/-! # Recursion by fuel

A function that is not structurally recursive takes a number of rounds, its fuel, and stops
when there is none left.  `Below` says that one run is another with less fuel: they agree
unless the first ran out.  A run that does not run out is its result (`result`).
-/
namespace Fuelled
open Fallible

/-- What stops a computation: an error, or the end of the fuel. -/
inductive Stop (ε : Type) where
  | err (e : ε)
  | fuel
  deriving DecidableEq

variable {ε α β : Type}

/-- A computation that needs no fuel. -/
def lift : Except ε α → Except (Stop ε) α
  | .ok a => .ok a
  | .error e => .error (.err e)

@[simp] theorem lift_ok (a : α) : lift (.ok a : Except ε α) = .ok a := rfl

@[simp] theorem lift_error (e : ε) : lift (.error e : Except ε α) = .error (.err e) := rfl

theorem lift_eq_ok {x : Except ε α} {a : α} : lift x = .ok a ↔ x = .ok a := by
  cases x with
  | error e => simp [lift]
  | ok b => simp [lift]

/-- Where errors are allowed that the computation does not end with, it ends as before. -/
theorem ends_lift {allowed : Stop ε → Prop} {x : Except ε α} {P : α → Prop} :
    Ends allowed (lift x) P ↔ Ends (fun e => allowed (.err e)) x P := by
  cases x with
  | error e => simp
  | ok a => simp

/-! ## More fuel -/

/-- `y` is what `x` may become with more fuel. -/
def Below (x y : Except (Stop ε) α) : Prop := x = .error .fuel ∨ x = y

theorem Below.refl (x : Except (Stop ε) α) : Below x x := .inr rfl

theorem below_fuel (y : Except (Stop ε) α) : Below (.error .fuel) y := .inl rfl

/-- A run that has not run out stays as it is. -/
theorem Below.eq {x y : Except (Stop ε) α} (h : Below x y) (hx : x ≠ .error .fuel) : x = y := by
  rcases h with h | h
  · exact absurd h hx
  · exact h

theorem Below.bind {x y : Except (Stop ε) α} {f g : α → Except (Stop ε) β} (h : Below x y)
    (hfg : ∀ a, Below (f a) (g a)) : Below (x >>= f) (y >>= g) := by
  rcases h with rfl | rfl
  · exact .inl rfl
  · cases x with
    | error e => exact .refl _
    | ok a => exact hfg a

/-! ## Runs with enough fuel -/

theorem lift_ne_fuel (x : Except ε α) : lift x ≠ .error .fuel := by
  cases x with
  | error e => simp
  | ok a => simp

/-- Two steps in sequence do not run out if neither does. -/
theorem bind_ne_fuel {x : Except (Stop ε) α} {f : α → Except (Stop ε) β} (hx : x ≠ .error .fuel)
    (hf : ∀ a, x = .ok a → f a ≠ .error .fuel) : (x >>= f) ≠ .error .fuel := by
  cases x with
  | error e =>
    intro h
    exact hx (congrArg _ (Except.error.inj h))
  | ok a => exact hf a rfl

/-- The result of a run that does not run out. -/
def result (x : Except (Stop ε) α) (h : x ≠ .error .fuel) : Except ε α :=
  match x with
  | .ok a => .ok a
  | .error (.err e) => .error e
  | .error .fuel => absurd rfl h

theorem lift_result (x : Except (Stop ε) α) (h : x ≠ .error .fuel) : lift (result x h) = x := by
  match x with
  | .ok a => rfl
  | .error (.err e) => rfl
  | .error .fuel => exact absurd rfl h

theorem result_eq_ok {x : Except (Stop ε) α} {h : x ≠ .error .fuel} {a : α} :
    result x h = .ok a ↔ x = .ok a := by
  rw [← lift_eq_ok, lift_result]

theorem result_eq_error {x : Except (Stop ε) α} {h : x ≠ .error .fuel} {e : ε} :
    result x h = .error e ↔ x = .error (.err e) := by
  match x with
  | .ok a => simp [result]
  | .error (.err e') => simp [result]
  | .error .fuel => exact absurd rfl h

end Fuelled
