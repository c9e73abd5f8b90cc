import MdsPlus.Outcome
import Mathlib.Data.Int.Notation
import Mathlib.Order.Basic

/-!
Binary search with a comparison that may fail. The window is halved until the
comparison gives zero or nothing is left. On a table in strictly ascending order
the search finds the key exactly when the table has it.
-/

namespace MdsPlus.BinarySearch

variable {ε : Type*}

/-- The sign of the comparison says on which side of the element the key lies. -/
def bsearch (cmp : ℕ → Except ε ℤ) : ℕ → ℕ → ℕ → Except ε (Option ℕ)
  | 0, _, _ => .ok none
  | fuel + 1, lo, hi =>
      if lo < hi then do
        let mid := (lo + hi) / 2
        let c ← cmp mid
        if c < 0 then bsearch cmp fuel lo mid
        else if c > 0 then bsearch cmp fuel (mid + 1) hi
        else .ok (some mid)
      else .ok none

/-- The comparison of a key with a table in strictly ascending order. -/
structure Ascending (c : ℕ → ℤ) (n : ℕ) : Prop where
  after : ∀ i j, i < j → j < n → c i ≤ 0 → c j < 0
  before : ∀ i j, i < j → j < n → 0 ≤ c j → 0 < c i

theorem bsearch_window (cmp : ℕ → Except ε ℤ) (c : ℕ → ℤ) (n : ℕ)
    (hcmp : ∀ i, i < n → cmp i = .ok (c i)) (hasc : Ascending c n) (fuel lo hi : ℕ)
    (hfuel : hi ≤ lo + fuel) (hhi : hi ≤ n) (hlow : ∀ i, i < lo → i < n → c i ≠ 0)
    (hhigh : ∀ i, hi ≤ i → i < n → c i ≠ 0) :
    (∃ i, i < n ∧ c i = 0 ∧ bsearch cmp fuel lo hi = .ok (some i)) ∨
      (∀ i, i < n → c i ≠ 0) ∧ bsearch cmp fuel lo hi = .ok none := by
  induction fuel generalizing lo hi with
  | zero =>
    right
    refine ⟨fun i hi' => ?_, rfl⟩
    by_cases hlo : i < lo
    · exact hlow i hlo hi'
    · exact hhigh i (by omega) hi'
  | succ fuel ih =>
    rw [bsearch]
    by_cases hlt : lo < hi
    · have hmid : (lo + hi) / 2 < n := by omega
      rw [if_pos hlt]
      simp only [hcmp _ hmid, bind, Except.bind]
      by_cases hneg : c ((lo + hi) / 2) < 0
      · rw [if_pos hneg]
        apply ih lo _ (by omega) (by omega) hlow
        intro i hi' hin
        by_cases heq : i = (lo + hi) / 2
        · rw [heq]
          omega
        · have := hasc.after _ i (by omega) hin (by omega : c ((lo + hi) / 2) ≤ 0)
          omega
      · rw [if_neg hneg]
        by_cases hpos : c ((lo + hi) / 2) > 0
        · rw [if_pos hpos]
          apply ih _ hi (by omega) hhi _ hhigh
          intro i hi' hin
          by_cases heq : i = (lo + hi) / 2
          · rw [heq]
            omega
          · have := hasc.before i _ (by omega) hmid (by omega : 0 ≤ c ((lo + hi) / 2))
            omega
        · rw [if_neg hpos]
          exact Or.inl ⟨_, hmid, by omega, rfl⟩
    · rw [if_neg hlt]
      right
      refine ⟨fun i hi' => ?_, rfl⟩
      by_cases hlo : i < lo
      · exact hlow i hlo hi'
      · exact hhigh i (by omega) hi'

theorem bsearch_spec (cmp : ℕ → Except ε ℤ) (c : ℕ → ℤ) (n : ℕ)
    (hcmp : ∀ i, i < n → cmp i = .ok (c i)) (hasc : Ascending c n) :
    (∃ i, i < n ∧ c i = 0 ∧ bsearch cmp n 0 n = .ok (some i)) ∨
      (∀ i, i < n → c i ≠ 0) ∧ bsearch cmp n 0 n = .ok none :=
  bsearch_window cmp c n hcmp hasc n 0 n (by omega) (Nat.le_refl n)
    (fun i hi => absurd hi (Nat.not_lt_zero i)) (fun i hi hin => by omega)

end MdsPlus.BinarySearch
