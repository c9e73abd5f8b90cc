import Mathlib.Algebra.BigOperators.Group.List.Basic
import Mathlib.Tactic.Abel

/-!
A counter of several digits, the first of which runs fastest, that keeps the sum of the values
at its digits by adding differences: to the next value of a digit, and back to the first
one when a digit has come to its end. From its start it goes through all sums of one value
from each digit.
-/

namespace MdsPlus.Odometer

variable {G : Type*} [AddCommGroup G]

structure Digit (G : Type*) where
  values : List G
  suffix : List G

def advance : G → List (Digit G) → Option (G × List (Digit G))
  | _, [] => none
  | sum, d :: ds =>
      match d.suffix with
      | v :: w :: rest => some (sum + (w - v), ⟨d.values, w :: rest⟩ :: ds)
      | _ =>
          (advance (sum + (d.values.headD 0 - d.suffix.headD 0)) ds).map fun (sum, ds) =>
            (sum, ⟨d.values, d.values⟩ :: ds)

/-- The ways to choose one element from each list, with the first one running fastest. -/
def choices {α : Type*} : List (List α) → List (List α)
  | [] => [[]]
  | l :: ls => (choices ls).flatMap fun t => l.map (· :: t)

/-- The sum of a choice, each element with its own function. -/
def total {α : Type*} (fs : List (α → G)) (t : List α) : G :=
  (List.zipWith (fun f a => f a) fs t).sum

end MdsPlus.Odometer
