import Mathlib.Order.WellFoundedSet

/-!
Cycles of a relation. A relation without cycles is well-founded on a finite set, and a cycle
which is new when edges at one place are added goes through this place.
-/

namespace MdsPlus.Cycles

open Relation

variable {α : Type*} {r r' : α → α → Prop}

theorem wellFoundedOn_of_acyclic (h : ∀ i, ¬ TransGen r i i) {s : Set α} (hs : s.Finite) :
    s.WellFoundedOn fun i j => TransGen r j i := by
  have htrans : IsTrans α fun i j => TransGen r j i := ⟨fun _ _ _ hij hjk => hjk.trans hij⟩
  have hirrefl : Std.Irrefl fun i j => TransGen r j i := ⟨h⟩
  have : IsStrictOrder α fun i j => TransGen r j i := ⟨⟩
  exact hs.wellFoundedOn

theorem transGen_split {i k p : α} (hold : ∀ x y, r' x y → x ≠ p → y ≠ p → r x y)
    (h : TransGen r' i k) : TransGen r i k ∨ (ReflTransGen r' i p ∧ ReflTransGen r' p k) := by
  induction h with
  | single hik =>
    rename_i k
    by_cases hi : i = p
    · subst hi
      exact Or.inr ⟨.refl, .single hik⟩
    · by_cases hk : k = p
      · subst hk
        exact Or.inr ⟨.single hik, .refl⟩
      · exact Or.inl (.single (hold i k hik hi hk))
  | tail hij hjk ih =>
    rename_i j k
    rcases ih with ih | ⟨hip, hpj⟩
    · by_cases hj : j = p
      · subst hj
        exact Or.inr ⟨hij.to_reflTransGen, .single hjk⟩
      · by_cases hk : k = p
        · subst hk
          exact Or.inr ⟨hij.to_reflTransGen.tail hjk, .refl⟩
        · exact Or.inl (ih.tail (hold j k hjk hj hk))
    · exact Or.inr ⟨hip, hpj.tail hjk⟩

theorem cycle_through {i p : α} (hold : ∀ x y, r' x y → x ≠ p → y ≠ p → r x y)
    (hno : ¬ TransGen r i i) (h : TransGen r' i i) : TransGen r' p p := by
  rcases transGen_split hold h with h' | ⟨hip, hpi⟩
  · exact absurd h' hno
  · exact (h.trans_right hpi).trans_left hip

end MdsPlus.Cycles
