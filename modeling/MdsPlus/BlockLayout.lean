import Mathlib.Algebra.Group.Nat.Defs
import Mathlib.Tactic.ByContra

/-!
Blocks that stand one behind the other in an allocation, and places that are rounded up to an
alignment. Places are counted modulo the size of the counter; as long as every block begins behind
the one before it, nothing is lost by that.
-/

namespace MdsPlus.BlockLayout

def roundUp (n size : ℕ) : ℕ := (n + size - 1) / size * size

section RoundUp

variable {n size : ℕ}

theorem le_roundUp (h : 0 < size) : n ≤ roundUp n size := by
  have hdiv := Nat.div_add_mod (n + size - 1) size
  have hmod := Nat.mod_lt (n + size - 1) h
  rw [Nat.mul_comm] at hdiv
  unfold roundUp
  omega

theorem roundUp_lt (h : 0 < size) : roundUp n size < n + size := by
  have hle := Nat.div_mul_le_self (n + size - 1) size
  unfold roundUp
  omega

theorem roundUp_mod (n size : ℕ) : roundUp n size % size = 0 := Nat.mul_mod_left ..

theorem roundUp_succ (n : ℕ) (h : 0 < size) : roundUp (n * size + 1) size = n * size + size := by
  have hsum : n * size + 1 + size - 1 = size + n * size := by omega
  unfold roundUp
  rw [hsum, Nat.add_mul_div_right _ _ h, Nat.div_self h, Nat.add_mul, Nat.one_mul, Nat.add_comm]

end RoundUp

/-- Blocks, each with its place and its size, stand one behind the other from a place on and end
within the allocation. -/
def LaidOut : ℕ → List (ℕ × ℕ) → ℕ → Prop
  | stop, [], total => stop ≤ total
  | stop, (start, size) :: rest, total => stop ≤ start ∧ LaidOut (start + size) rest total

theorem LaidOut.le {stop : ℕ} {blocks : List (ℕ × ℕ)} {total : ℕ}
    (h : LaidOut stop blocks total) : stop ≤ total := by
  induction blocks generalizing stop with
  | nil => exact h
  | cons b rest ih =>
    have hrest := ih h.2
    have hstart := h.1
    omega

theorem LaidOut.of_le {stop stop' : ℕ} {blocks : List (ℕ × ℕ)} {total : ℕ}
    (h : LaidOut stop blocks total) (hle : stop' ≤ stop) : LaidOut stop' blocks total := by
  cases blocks with
  | nil => exact Nat.le_trans hle h
  | cons b rest => exact ⟨Nat.le_trans hle h.1, h.2⟩

/-! ### Counting the places -/

/-- Where the next block stands: behind this one, rounded up if `pad` is. -/
def next (pad : Bool) (out size : ℕ) : ℕ := if pad then roundUp (out + size) 8 else out + size

theorem next_bounds (pad : Bool) (out size : ℕ) :
    out + size ≤ next pad out size ∧ next pad out size < out + size + 8 := by
  unfold next
  split
  · exact ⟨le_roundUp (by omega), roundUp_lt (by omega)⟩
  · omega

def ends (pad : Bool) : ℕ → List ℕ → ℕ
  | out, [] => out
  | out, size :: sizes => ends pad (next pad out size) sizes

/-- The blocks of these sizes, their places counted modulo `limit`. -/
def places (limit : ℕ) (pad : Bool) : ℕ → List ℕ → List (ℕ × ℕ)
  | _, [] => []
  | out, size :: sizes => (out % limit, size) :: places limit pad (next pad out size) sizes

theorem le_ends (pad : Bool) (out : ℕ) (sizes : List ℕ) : out ≤ ends pad out sizes := by
  induction sizes generalizing out with
  | nil => exact Nat.le_refl out
  | cons size sizes ih =>
    have hnext := (next_bounds pad out size).1
    have hrest := ih (next pad out size)
    rw [ends]
    omega

/-- The blocks stand one behind the other exactly when the counter can count to their end. -/
theorem laidOut_places_iff {limit : ℕ} (hlimit : 0 < limit) (pad : Bool) {stop out : ℕ}
    (sizes : List ℕ) (hlow : stop ≤ out) (hhigh : out < stop + 8) (hstop : 8 ≤ stop) :
    LaidOut stop (places limit pad out sizes) (ends pad out sizes % limit) ↔
      ends pad out sizes < limit := by
  -- a place that wraps stands before the end of what is in front of it
  have hcounted : ∀ {out stop : ℕ}, out < stop + 8 → 8 ≤ stop → stop ≤ out % limit →
      out < limit := by
    intro out stop hhigh hstop hle
    have hmod := Nat.mod_lt out hlimit
    by_contra hge
    have hwrap : out % limit = out - limit := by
      rw [Nat.mod_eq_sub_mod (by omega), Nat.mod_eq_of_lt (by omega)]
    omega
  induction sizes generalizing stop out with
  | nil =>
    refine ⟨hcounted hhigh hstop, fun h => ?_⟩
    rw [ends] at h ⊢
    rw [Nat.mod_eq_of_lt h]
    exact hlow
  | cons size sizes ih =>
    obtain ⟨hnext, hnext'⟩ := next_bounds pad out size
    rw [places, ends, LaidOut]
    constructor
    · intro h
      have hout := hcounted hhigh hstop h.1
      rw [Nat.mod_eq_of_lt hout] at h
      exact (ih hnext (by omega) (by omega)).mp h.2
    · intro h
      have hle := le_ends pad (next pad out size) sizes
      rw [Nat.mod_eq_of_lt (show out < limit by omega)]
      exact ⟨hlow, (ih hnext (by omega) (by omega)).mpr h⟩

end MdsPlus.BlockLayout
