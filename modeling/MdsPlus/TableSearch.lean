import MdsPlus.ArrayDescriptors
import MdsPlus.ElementOrder

/-!
The search for a value in a table. It goes out from the place of the last search in steps that are
doubled, up or down, until the value is between two places, and then halves the distance.
-/

namespace MdsPlus.TableSearch

open ArrayDescriptors (IsInt)
open ElementOrder (Fault)

def int (z : ℤ) : Except Fault ℤ := if IsInt z then .ok z else .error .overflow

section Loops

/- The comparison of an element of the table with the value, and the number of elements. -/
variable (cmp : ℤ → Except Fault ℤ) (nt : ℤ)

/-- Upward, while elements are not greater. -/
def huntUp : ℕ → ℤ → ℤ → Except Fault (ℤ × ℤ)
  | 0, _, _ => .error .endless
  | fuel + 1, lo, inc => do
      let hi ← int (lo + inc)
      if hi < nt then do
        let c ← cmp hi
        if c ≤ 0 then do
          let inc ← int (2 * inc)
          huntUp fuel hi inc
        else .ok (lo, hi)
      else .ok (lo, nt)

/-- Downward, while they are. -/
def huntDown : ℕ → ℤ → ℤ → Except Fault (ℤ × ℤ)
  | 0, _, _ => .error .endless
  | fuel + 1, hi, inc => do
      let lo := hi - inc
      if lo ≥ 0 then do
        let c ← cmp lo
        if c > 0 then do
          let inc ← int (2 * inc)
          huntDown fuel lo inc
        else .ok (lo, hi)
      else .ok (-1, hi)

def hunt (fuel : ℕ) (lo : ℤ) : Except Fault (ℤ × ℤ) :=
  if lo < -1 ∨ lo ≥ nt then .ok (-1, nt)
  else if lo < 0 then huntUp cmp nt fuel lo 1
  else do
    let c ← cmp lo
    if c ≤ 0 then huntUp cmp nt fuel lo 1 else huntDown cmp fuel lo 1

def bisect : ℕ → ℤ → ℤ → Except Fault ℤ
  | 0, _, _ => .error .endless
  | fuel + 1, lo, hi =>
      if hi - lo > 1 then do
        let sum ← int (hi + lo)
        let mid := sum / 2
        let c ← cmp mid
        if c ≤ 0 then bisect fuel mid hi else bisect fuel lo mid
      else .ok lo

/-- The last place whose element is not greater, from where the last search ended. -/
def find (fuel : ℕ) (lo : ℤ) : Except Fault ℤ := do
  let (lo, hi) ← hunt cmp nt fuel lo
  bisect cmp fuel lo hi

end Loops

section Specs

variable {cmp : ℤ → Except Fault ℤ} {nt : ℤ} {κ : Type*} [LinearOrder κ] {key : ℤ → κ} {v : κ}

/-- The comparison tells which elements are greater than a value. -/
def Tells (cmp : ℤ → Except Fault ℤ) (nt : ℤ) (key : ℤ → κ) (v : κ) : Prop :=
  ∀ i, 0 ≤ i → i < nt → ∃ c, cmp i = .ok c ∧ (0 < c ↔ v < key i)

/-- The value is between two places. -/
structure Between (nt : ℤ) (key : ℤ → κ) (v : κ) (lo hi : ℤ) : Prop where
  bottom : -1 ≤ lo
  lt : lo < hi
  top : hi ≤ nt
  low : 0 ≤ lo → key lo ≤ v
  high : hi < nt → v < key hi

theorem int_ok {z : ℤ} (h : IsInt z) : int z = .ok z := if_pos h

theorem two_pow_le {k : ℕ} (h : (2 : ℤ) ^ k ≤ 1073741825) : (2 : ℤ) ^ k ≤ 1073741824 := by
  have hlt : (2 : ℤ) ^ k < 2 ^ 31 := lt_of_le_of_lt h (by norm_num)
  have hk : k < 31 := (pow_lt_pow_iff_right₀ (by norm_num)).1 hlt
  have hle : (2 : ℤ) ^ k ≤ 2 ^ 30 := pow_le_pow_right₀ (by norm_num) (by omega)
  norm_num at hle
  exact hle

theorem huntUp_spec (hcmp : Tells cmp nt key v) (hnt : nt ≤ 1073741824) {fuel k : ℕ} {lo : ℤ}
    (hlo : -1 ≤ lo) (hlt : lo < nt) (hlow : 0 ≤ lo → key lo ≤ v) (hinc : (2 : ℤ) ^ k ≤ lo + 2)
    (hfuel : nt - lo < fuel) :
    ∃ lo' hi', huntUp cmp nt fuel lo (2 ^ k) = .ok (lo', hi') ∧ Between nt key v lo' hi' := by
  induction fuel generalizing lo k with
  | zero =>
    push_cast at hfuel
    omega
  | succ fuel ih =>
    have hone : (1 : ℤ) ≤ 2 ^ k := one_le_pow₀ (by norm_num)
    have hsmall := two_pow_le (k := k) (by omega)
    rw [huntUp, int_ok ⟨by omega, by omega⟩]
    simp only [bind, Except.bind]
    by_cases hend : lo + 2 ^ k < nt
    · rw [if_pos hend]
      obtain ⟨c, hc, hgreater⟩ := hcmp (lo + 2 ^ k) (by omega) hend
      simp only [hc]
      by_cases hneg : c ≤ 0
      · rw [if_pos hneg, int_ok ⟨by omega, by omega⟩]
        have hdouble : 2 * (2 : ℤ) ^ k = 2 ^ (k + 1) := by rw [pow_succ, mul_comm]
        simp only [hdouble]
        refine ih (by omega) hend (fun _ => ?_) (by omega) (by push_cast at hfuel; omega)
        exact not_lt.1 fun hv => absurd (hgreater.2 hv) (not_lt.2 hneg)
      · rw [if_neg hneg]
        exact ⟨_, _, rfl, hlo, by omega, by omega, hlow, fun _ => hgreater.1 (not_le.1 hneg)⟩
    · rw [if_neg hend]
      exact ⟨_, _, rfl, hlo, hlt, le_rfl, hlow, fun h => absurd h (lt_irrefl nt)⟩

theorem huntDown_spec (hcmp : Tells cmp nt key v) (hnt : nt ≤ 1073741824) {fuel k : ℕ} {hi : ℤ}
    (hpos : 0 ≤ hi) (hlt : hi < nt) (hhigh : v < key hi) (hinc : hi + 2 ^ k ≤ nt)
    (hfuel : hi + 1 < fuel) :
    ∃ lo' hi', huntDown cmp fuel hi (2 ^ k) = .ok (lo', hi') ∧ Between nt key v lo' hi' := by
  induction fuel generalizing hi k with
  | zero =>
    push_cast at hfuel
    omega
  | succ fuel ih =>
    have hone : (1 : ℤ) ≤ 2 ^ k := one_le_pow₀ (by norm_num)
    rw [huntDown]
    by_cases hend : hi - 2 ^ k ≥ 0
    · simp only [if_pos hend, bind, Except.bind]
      obtain ⟨c, hc, hgreater⟩ := hcmp (hi - 2 ^ k) hend (by omega)
      simp only [hc]
      by_cases hpos' : c > 0
      · rw [if_pos hpos', int_ok ⟨by omega, by omega⟩]
        have hdouble : 2 * (2 : ℤ) ^ k = 2 ^ (k + 1) := by rw [pow_succ, mul_comm]
        simp only [hdouble]
        exact ih hend (by omega) (hgreater.1 hpos') (by omega) (by push_cast at hfuel; omega)
      · rw [if_neg hpos']
        exact ⟨_, _, rfl, by omega, by omega, by omega,
          fun _ => not_lt.1 fun hv => hpos' (hgreater.2 hv), fun _ => hhigh⟩
    · simp only [if_neg hend]
      exact ⟨_, _, rfl, le_rfl, by omega, by omega, fun h => by omega, fun _ => hhigh⟩

theorem hunt_spec (hcmp : Tells cmp nt key v) (hpos : 0 < nt) (hnt : nt ≤ 1073741824) {fuel : ℕ}
    (lo : ℤ) (hfuel : nt + 1 < fuel) :
    ∃ lo' hi', hunt cmp nt fuel lo = .ok (lo', hi') ∧ Between nt key v lo' hi' := by
  rw [hunt]
  by_cases hout : lo < -1 ∨ lo ≥ nt
  · rw [if_pos hout]
    exact ⟨_, _, rfl, le_rfl, by omega, le_rfl, fun h => by omega, fun h => absurd h (lt_irrefl nt)⟩
  · rw [if_neg hout]
    by_cases hneg : lo < 0
    · rw [if_pos hneg]
      exact huntUp_spec (k := 0) hcmp hnt (by omega) (by omega) (fun h => by omega) (by omega)
        (by omega)
    · obtain ⟨c, hc, hgreater⟩ := hcmp lo (by omega) (by omega)
      rw [if_neg hneg]
      simp only [bind, Except.bind, hc]
      by_cases hle : c ≤ 0
      · rw [if_pos hle]
        refine huntUp_spec (k := 0) hcmp hnt (by omega) (by omega) (fun _ => ?_) (by omega) (by omega)
        exact not_lt.1 fun hv => absurd (hgreater.2 hv) (not_lt.2 hle)
      · rw [if_neg hle]
        exact huntDown_spec (k := 0) hcmp hnt (by omega) (by omega) (hgreater.1 (not_le.1 hle))
          (by omega) (by omega)

theorem bisect_spec (hcmp : Tells cmp nt key v) (hnt : nt ≤ 1073741824) (fuel : ℕ) {lo hi : ℤ}
    (h : Between nt key v lo hi) (hfuel : hi - lo < fuel) :
    ∃ p, bisect cmp fuel lo hi = .ok p ∧ Between nt key v p (p + 1) := by
  have hbottom := h.bottom
  have hlt := h.lt
  have htop := h.top
  induction fuel generalizing lo hi with
  | zero =>
    push_cast at hfuel
    omega
  | succ fuel ih =>
    push_cast at hfuel
    rw [bisect]
    by_cases hwide : hi - lo > 1
    · rw [if_pos hwide, int_ok ⟨by omega, by omega⟩]
      obtain ⟨c, hc, hgreater⟩ := hcmp ((hi + lo) / 2) (by omega) (by omega)
      simp only [bind, Except.bind, hc]
      by_cases hle : c ≤ 0
      · have hbetween : Between nt key v ((hi + lo) / 2) hi :=
          ⟨by omega, by omega, htop, fun _ => not_lt.1 fun hv => absurd (hgreater.2 hv)
            (not_lt.2 hle), h.high⟩
        rw [if_pos hle]
        exact ih hbetween (by omega) hbetween.bottom hbetween.lt htop
      · have hbetween : Between nt key v lo ((hi + lo) / 2) :=
          ⟨hbottom, by omega, by omega, h.low, fun _ => hgreater.1 (not_le.1 hle)⟩
        rw [if_neg hle]
        exact ih hbetween (by omega) hbottom hbetween.lt hbetween.top
    · have hnext : hi = lo + 1 := by omega
      rw [if_neg hwide]
      exact ⟨lo, rfl, hnext ▸ h⟩

theorem find_spec (hcmp : Tells cmp nt key v) (hpos : 0 < nt) (hnt : nt ≤ 1073741824) (fuel : ℕ)
    (lo : ℤ) (hfuel : nt + 1 < fuel) :
    ∃ p, find cmp nt fuel lo = .ok p ∧ Between nt key v p (p + 1) := by
  obtain ⟨lo', hi', hhunt, hbetween⟩ := hunt_spec hcmp hpos hnt lo hfuel
  have hbottom := hbetween.bottom
  have htop := hbetween.top
  obtain ⟨p, hbisect, hp⟩ := bisect_spec hcmp hnt fuel hbetween (by omega)
  refine ⟨p, ?_, hp⟩
  rw [find, hhunt]
  exact hbisect

end Specs

end MdsPlus.TableSearch
