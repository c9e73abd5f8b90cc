import MdsPlus.ArrayDescriptors
import MdsPlus.Odometer
import Mathlib.Data.Int.ModEq
import Mathlib.Tactic.Linarith
import Mathlib.Tactic.Ring

/-!
Where the elements of an array are: the first subscript runs fastest, and the address that a0
holds is that of the element whose subscripts are all zero.
-/

namespace MdsPlus.ArrayLayout

open ArrayDescriptors Odometer

def extent (x : ArrayDesc) (j : ℕ) : ℤ := if x.coeff then x.m j else (x.arsize / x.length : ℕ)

def lower (x : ArrayDesc) (j : ℕ) : ℤ := if x.bounds then x.m (x.dimct + 2 * j) else 0

def upper (x : ArrayDesc) (j : ℕ) : ℤ := lower x j + extent x j - 1

/-- Bytes from an element to its neighbour in a dimension. -/
def weight (x : ArrayDesc) : ℕ → ℤ
  | 0 => x.length
  | j + 1 => weight x j * extent x j

def lowest (x : ArrayDesc) : ℤ := ((List.range x.dimct).map fun j => weight x j * lower x j).sum

def origin (x : ArrayDesc) : ℤ := if x.bounds then x.a0 else x.pointer

def address (x : ArrayDesc) (t : List ℤ) : ℤ :=
  x.pointer + total ((List.range x.dimct).map fun j i => weight x j * (i - lower x j)) t

/-- The words of a descriptor agree on its extents: it has their size, and its bounds span
them. -/
structure Shaped (x : ArrayDesc) : Prop where
  rank_pos : 0 < x.dimct
  rank_le : x.dimct ≤ maxDims
  length_lt : x.length < 65536
  plain : x.coeff = false → x.dimct = 1 ∧ x.bounds = false
  extent_nonneg : ∀ j, j < x.dimct → 0 ≤ extent x j
  extent_lt : ∀ j, j < x.dimct → extent x j < 4294967296
  size : (x.arsize : ℤ) = weight x x.dimct
  bounds_int : x.bounds = true → ∀ j, j < x.dimct → IsInt (lower x j) ∧ IsInt (upper x j)
  span : x.bounds = true → ∀ j, j < x.dimct → x.m (x.dimct + 2 * j + 1) = upper x j

/-- They agree, and a0 is the address of the element whose subscripts are all zero. -/
structure Consistent (x : ArrayDesc) : Prop extends Shaped x where
  a0_eq : x.bounds = true → x.a0 = x.pointer - lowest x

variable {x : ArrayDesc}

theorem lower_isInt (h : Shaped x) {j : ℕ} (hj : j < x.dimct) : IsInt (lower x j) := by
  cases hbounds : x.bounds with
  | true => exact (h.bounds_int hbounds j hj).1
  | false =>
    unfold lower
    rw [hbounds, if_neg Bool.false_ne_true]
    exact ⟨by omega, by omega⟩

theorem upper_isInt (h : Shaped x) {j : ℕ} (hj : j < x.dimct)
    (hupper : upper x j ≤ 2147483647) : IsInt (upper x j) := by
  refine ⟨?_, hupper⟩
  cases hbounds : x.bounds with
  | true => exact (h.bounds_int hbounds j hj).2.1
  | false =>
    have hextent := h.extent_nonneg j hj
    unfold upper lower
    rw [hbounds]
    simp only [Bool.false_eq_true, if_false]
    omega

def InRange (x : ArrayDesc) (t : List ℤ) : Prop :=
  t.length = x.dimct ∧ ∀ j i, t[j]? = some i → lower x j ≤ i ∧ i ≤ upper x j

end MdsPlus.ArrayLayout
