import MdsPlus.ArraySubscriptResult
import MdsPlus.SetRange

/-!
Subscripts of an array that SET_RANGE has made. Only the last lower bound that is not zero goes into
a0, without its stride, and lower bounds of the array are looked for as if it had as many dimensions
as the new one.
-/

namespace MdsPlus.SetRangeRuns

open ArrayDescriptors ArrayLayout ArraySubscript ArraySubscriptRuns ArraySubscriptResult
  SetRange

def ends (low extent : ℤ) : NewRange → ℤ × ℤ
  | .omitted | .range none none => (low, low + extent - 1)
  | .size n => (0, n - 1)
  | .range (some lo) (some hi) => (lo, hi)
  | .range (some lo) none => (lo, lo + extent - 1)
  | .range none (some hi) => (hi + 1 - extent, hi)
  | .triad => (0, -1)

def wanted (x : ArrayDesc) (list : List NewRange) (j : ℕ) : ℤ × ℤ :=
  ends (lower x j) (extent x j) (list.getD j .omitted)

def lowRead (x : ArrayDesc) (dimct j : ℕ) : ℤ :=
  if x.coeff ∧ x.bounds then toInt (x.m (dimct + 2 * j)) else 0

def found (x : ArrayDesc) (list : List NewRange) (j : ℕ) : ℤ × ℤ :=
  ends (lowRead x list.length j) (extent x j) (list.getD j .omitted)

def size (x : ArrayDesc) (list : List NewRange) (j : ℕ) : ℤ :=
  (wanted x list j).2 - (wanted x list j).1 + 1

/-- Elements from an element to its neighbour in a new dimension. -/
def steps (x : ArrayDesc) (list : List NewRange) : ℕ → ℤ
  | 0 => 1
  | j + 1 => steps x list j * size x list j

/-- Some end is missing. -/
def NewRange.open : NewRange → Prop
  | .omitted | .range none _ | .range _ none => True
  | _ => False

structure Accepted (x : ArrayDesc) (list : List NewRange) : Prop where
  rank_pos : 0 < list.length
  rank_le : list.length ≤ maxDims
  no_triad : NewRange.triad ∉ list
  missing : ∀ j, j < list.length → NewRange.open (list.getD j .omitted) → j < x.dimct
  elements : (x.arsize : ℤ) = x.length * steps x list list.length

structure NoOverflow (x : ArrayDesc) (list : List NewRange) : Prop where
  length_pos : 0 < x.length
  arsize_lt : x.arsize < 2147483648
  low : ∀ j, j < list.length → IsInt (found x list j).1
  high : ∀ j, j < list.length → IsInt (found x list j).2
  span : ∀ j, j < list.length → IsInt ((found x list j).2 - (found x list j).1)
  extent : ∀ j, j < list.length → IsInt (size x list j)
  next : ∀ j hi, list.getD j .omitted = .range none (some hi) → IsInt (hi + 1)
  products : ∀ j, j < list.length → ∀ i, (wanted x list j).1 ≤ i → i ≤ (wanted x list j).2 →
    IsInt (x.length * steps x list j * i)

variable {x : ArrayDesc} {list : List NewRange}

theorem ends_span (low low' extent : ℤ) (new : NewRange) :
    (ends low extent new).2 - (ends low extent new).1 =
      (ends low' extent new).2 - (ends low' extent new).1 := by
  unfold ends
  split <;> simp only <;> omega

theorem found_span (x : ArrayDesc) (list : List NewRange) (j : ℕ) :
    (found x list j).2 - (found x list j).1 + 1 = size x list j := by
  unfold found size wanted
  rw [ends_span (lowRead x list.length j) (lower x j)]

theorem plain_extent (harsize : x.arsize < 2147483648) (hcoeff : x.coeff = false) (j : ℕ) :
    Int.tdiv (toInt x.arsize) x.length = extent x j := by
  have hext : extent x j = (x.arsize / x.length : ℕ) := by
    unfold extent
    rw [hcoeff, if_neg Bool.false_ne_true]
  rw [hext, toInt_eq ⟨by omega, by omega⟩, Int.tdiv_eq_ediv_of_nonneg (Int.natCast_nonneg _),
    Int.natCast_ediv]

theorem defaultHigh_eq (h : Shaped x) (hf : NoOverflow x list) {j : ℕ} (hj : j < x.dimct)
    {lo : ℤ} (hhigh : IsInt (lo + extent x j - 1)) :
    defaultHigh x j lo = .ok (lo, lo + extent x j - 1) := by
  have hnonneg := h.extent_nonneg j hj
  have hlength := hf.length_pos
  unfold defaultHigh
  split
  · next hcoeff =>
    have hm : x.m j - 1 + lo = lo + extent x j - 1 := by
      unfold extent
      rw [if_pos hcoeff]
      ring
    rw [hm, toInt_eq hhigh]
  · next hcoeff =>
    have hext : extent x j = (x.arsize / x.length : ℕ) := if_neg hcoeff
    have hle : x.arsize / x.length ≤ x.arsize := Nat.div_le_self ..
    have harsize := hf.arsize_lt
    have hlast : IsInt (extent x j - 1) := ⟨by omega, by omega⟩
    have hsum : extent x j - 1 + lo = lo + extent x j - 1 := by ring
    rw [if_neg (by omega), plain_extent harsize (Bool.eq_false_iff.mpr hcoeff) j, int_eq hlast]
    change (int (extent x j - 1 + lo)).map _ = _
    rw [hsum, int_eq hhigh]
    rfl

theorem defaultEnds_eq (dimct j : ℕ) :
    defaultEnds x dimct j = defaultHigh x j (lowRead x dimct j) := rfl

theorem defaultLow_eq (hf : NoOverflow x list) (j : ℕ) {hi : ℤ}
    (hnext : IsInt (hi + 1)) (hlow : IsInt (hi + 1 - extent x j)) :
    defaultLow x j hi = .ok (hi + 1 - extent x j, hi) := by
  have hlength := hf.length_pos
  unfold defaultLow
  rw [int_eq hnext]
  change (if x.coeff = true then _ else _) = _
  split
  · next hcoeff =>
    have hm : x.m j = extent x j := by
      unfold extent
      rw [if_pos hcoeff]
    rw [hm, toInt_eq hlow]
  · next hcoeff =>
    rw [if_neg (by omega), plain_extent hf.arsize_lt (Bool.eq_false_iff.mpr hcoeff) j, int_eq hlow]
    rfl

theorem newEnds_eq (h : Shaped x) (ha : Accepted x list) (hf : NoOverflow x list) {j : ℕ}
    (hj : j < list.length) :
    newEnds x list.length j (list.getD j .omitted) = .ok (found x list j) := by
  have hlow := hf.low j hj
  have hhigh := hf.high j hj
  have hmissing := ha.missing j hj
  have hnext := hf.next j
  have htriad : list.getD j .omitted ≠ .triad := by
    intro he
    apply ha.no_triad
    rw [List.getD_eq_getElem?_getD, List.getElem?_eq_getElem hj, Option.getD_some] at he
    rw [← he]
    exact List.getElem_mem hj
  have hndim : j < x.dimct → ¬ j ≥ (if x.coeff = true then x.dimct else 1) := by
    intro hlt
    split
    · omega
    · next hcoeff =>
      have := (h.plain (Bool.eq_false_iff.mpr hcoeff)).1
      omega
  have hboth : ∀ {hi : ℤ}, j < x.dimct → hi = lowRead x list.length j + extent x j - 1 →
      IsInt hi → defaultEnds x list.length j = .ok (lowRead x list.length j, hi) := by
    intro hi hlt heq hint
    subst heq
    rw [defaultEnds_eq]
    exact defaultHigh_eq h hf hlt hint
  unfold newEnds
  unfold found at hlow hhigh ⊢
  revert hlow hhigh hmissing hnext htriad
  cases list.getD j .omitted with
  | omitted =>
    intro _ hhigh hmissing _ _
    have hlt := hmissing trivial
    dsimp only
    rw [if_neg (hndim hlt)]
    exact hboth hlt rfl hhigh
  | size n =>
    intro _ hhigh _ _ _
    dsimp only
    rw [int_eq (show IsInt (n - 1) from hhigh)]
    rfl
  | range b e =>
    cases b with
    | none =>
      cases e with
      | none =>
        intro _ hhigh hmissing _ _
        have hlt := hmissing trivial
        dsimp only
        rw [if_neg (hndim hlt)]
        exact hboth hlt rfl hhigh
      | some hi =>
        intro hlow _ hmissing hnext _
        dsimp only
        rw [if_neg (hndim (hmissing trivial))]
        exact defaultLow_eq hf j (hnext hi rfl) hlow
    | some lo =>
      cases e with
      | none =>
        intro _ hhigh hmissing _ _
        have hlt := hmissing trivial
        dsimp only
        rw [if_neg (hndim hlt)]
        exact defaultHigh_eq h hf hlt hhigh
      | some hi => exact fun _ _ _ _ _ => rfl
  | triad => exact fun _ _ _ _ htriad => absurd rfl htriad

/-- The last lower bound that is not zero. -/
def lastLow (x : ArrayDesc) (list : List NewRange) : ℕ → ℤ
  | 0 => 0
  | n + 1 => if (found x list n).1 ≠ 0 then (found x list n).1 else lastLow x list n

/-- The descriptor after some dimensions are set: of its address and a0, only the difference
counts. -/
structure Built (x : ArrayDesc) (list : List NewRange) (n : ℕ) (arr : ArrayDesc) : Prop where
  length : arr.length = 1
  coeff : arr.coeff = false
  dimct : arr.dimct = list.length
  bounds : arr.bounds = decide (lastLow x list n ≠ 0)
  difference : arr.a0 - arr.pointer = -lastLow x list n
  pointer : lastLow x list n = 0 → arr.pointer = 0
  arsize : (arr.arsize : ℤ) = steps x list n % 4294967296
  extent : ∀ i, i < n → arr.m i = size x list i % 4294967296
  low : ∀ i, i < n → arr.m (list.length + 2 * i) = (found x list i).1
  high : ∀ i, i < n → arr.m (list.length + 2 * i + 1) = (found x list i).2

theorem built_zero : Built x list 0 (arr0 list.length) where
  length := rfl
  coeff := rfl
  dimct := rfl
  bounds := rfl
  difference := rfl
  pointer _ := rfl
  arsize := rfl
  extent _ hi := by cases hi
  low _ hi := by cases hi
  high _ hi := by cases hi

theorem setDim_built (h : Shaped x) (ha : Accepted x list) (hf : NoOverflow x list) {n : ℕ}
    (hn : n < list.length) {arr : ArrayDesc} (hb : Built x list n arr) :
    ∃ arr', setDim x n (list.getD n .omitted) arr = .ok arr' ∧ Built x list (n + 1) arr' := by
  have hends : newEnds x arr.dimct n (list.getD n .omitted) = .ok (found x list n) := by
    rw [hb.dimct]
    exact newEnds_eq h ha hf hn
  have hextent : IsInt ((found x list n).2 - (found x list n).1 + 1) := by
    rw [found_span]
    exact hf.extent n hn
  unfold setDim
  rw [hends]
  change ∃ arr', (int ((found x list n).2 - (found x list n).1)).bind _ = _ ∧ _
  rw [int_eq (hf.span n hn)]
  change ∃ arr', (int ((found x list n).2 - (found x list n).1 + 1)).map _ = _ ∧ _
  rw [int_eq hextent, found_span]
  refine ⟨putEnds x n (found x list n).1 (found x list n).2 (size x list n) arr, rfl, ?_⟩
  have hsplit : lastLow x list (n + 1) =
      if (found x list n).1 ≠ 0 then (found x list n).1 else lastLow x list n := rfl
  have hdimct := hb.dimct
  unfold putEnds
  constructor
  · exact hb.length
  · exact hb.coeff
  · exact hb.dimct
  · dsimp only
    rw [hsplit, hb.bounds]
    by_cases hlo : (found x list n).1 ≠ 0
    · rw [if_pos hlo, if_pos hlo, decide_eq_true hlo]
    · rw [if_neg hlo, if_neg hlo]
  · dsimp only
    rw [hsplit]
    by_cases hlo : (found x list n).1 ≠ 0
    · rw [if_pos hlo, if_pos hlo, if_pos hlo]
      ring
    · rw [if_neg hlo, if_neg hlo, if_neg hlo]
      exact hb.difference
  · dsimp only
    rw [hsplit]
    by_cases hlo : (found x list n).1 ≠ 0
    · rw [if_pos hlo]
      exact fun hzero => absurd hzero hlo
    · rw [if_neg hlo, if_neg hlo]
      exact hb.pointer
  · dsimp only
    rw [Int.toNat_of_nonneg (Int.emod_nonneg _ (by decide)), hb.arsize]
    exact (Int.mod_modEq _ _).mul_right _
  · intro i hi
    dsimp only
    obtain rfl | hlt := Nat.eq_or_lt_of_le (Nat.le_of_lt_succ hi)
    · rw [Function.update_self]
    · rw [Function.update_of_ne (by omega), Function.update_of_ne (by omega),
        Function.update_of_ne (by omega)]
      exact hb.extent i hlt
  · intro i hi
    dsimp only
    rw [Function.update_of_ne (by omega), Function.update_of_ne (by omega), hdimct]
    obtain rfl | hlt := Nat.eq_or_lt_of_le (Nat.le_of_lt_succ hi)
    · rw [Function.update_self]
    · rw [Function.update_of_ne (by omega)]
      exact hb.low i hlt
  · intro i hi
    dsimp only
    rw [Function.update_of_ne (by omega), hdimct]
    obtain rfl | hlt := Nat.eq_or_lt_of_le (Nat.le_of_lt_succ hi)
    · rw [Function.update_self]
    · rw [Function.update_of_ne (by omega), Function.update_of_ne (by omega)]
      exact hb.high i hlt

theorem setDims_built (h : Shaped x) (ha : Accepted x list) (hf : NoOverflow x list) {n j : ℕ}
    (hn : j + n = list.length) {arr : ArrayDesc} (hb : Built x list j arr) :
    ∃ arr', setDims x (list.drop j) j arr = .ok arr' ∧ Built x list list.length arr' := by
  induction n generalizing j arr with
  | zero =>
    obtain rfl : j = list.length := hn
    rw [List.drop_length]
    exact ⟨arr, rfl, hb⟩
  | succ n ih =>
    have hj : j < list.length := by omega
    obtain ⟨arr', hset, hb'⟩ := setDim_built h ha hf hj hb
    have hget : list.getD j .omitted = list[j] := by
      rw [List.getD_eq_getElem?_getD, List.getElem?_eq_getElem hj, Option.getD_some]
    rw [List.drop_eq_getElem_cons hj, ← hget]
    unfold setDims
    rw [hset]
    exact ih (by omega) hb'

structure Made (x : ArrayDesc) (list : List NewRange) (r : ArrayDesc) : Prop where
  length : r.length = x.length
  dimct : r.dimct = list.length
  coeff : r.coeff = (decide (list.length > 1) || r.bounds)
  bounds : r.bounds = decide (lastLow x list list.length ≠ 0)
  arsize : r.arsize = x.arsize
  origin : origin r = r.pointer - x.length * lastLow x list list.length
  extent : ∀ i, i < list.length → r.m i = size x list i % 4294967296
  low : ∀ i, i < list.length → r.m (list.length + 2 * i) = (found x list i).1
  high : ∀ i, i < list.length → r.m (list.length + 2 * i + 1) = (found x list i).2

theorem tdi1SetRange_made (h : Shaped x) (ha : Accepted x list) (hf : NoOverflow x list)
    (block : ℤ) : ∃ r, tdi1SetRange x list block = .ok r ∧ Made x list r := by
  obtain ⟨arr, hset, hb⟩ := setDims_built h ha hf (Nat.zero_add _) built_zero
  rw [List.drop_zero] at hset
  have hpos := ha.rank_pos
  have hlength := hf.length_pos
  have harsize : (if arr.length = 0 ∨ x.length = 0 then 0
      else arr.arsize / arr.length * x.length % 4294967296) = x.arsize := by
    have helements := ha.elements
    have hlt := hf.arsize_lt
    rw [if_neg (by rw [hb.length]; omega), hb.length, Nat.div_one]
    have hmod : ((arr.arsize * x.length % 4294967296 : ℕ) : ℤ) = x.arsize := by
      push_cast
      rw [hb.arsize, (Int.mod_modEq _ _).mul_right _, Int.mul_comm, ← helements]
      exact Int.emod_eq_of_lt (by omega) (by omega)
    exact_mod_cast hmod
  unfold tdi1SetRange
  rw [hset]
  refine ⟨_, rfl, ?_⟩
  have hdims : ¬ (x.arsize = 0 ∧ arr.dimct = 0) := by
    intro hzero
    rw [hb.dimct] at hzero
    omega
  have hdifference : Int.tdiv (arr.a0 - arr.pointer) (max arr.length 1) =
      -lastLow x list list.length := by
    rw [hb.length, hb.difference]
    exact Int.tdiv_one _
  have hzero : ¬ arr.bounds = true → lastLow x list list.length = 0 := by
    intro hbounds
    rw [hb.bounds, decide_eq_true_iff] at hbounds
    exact not_not.mp hbounds
  unfold mdsGet1DxA
  dsimp only
  rw [harsize]
  by_cases hcoeff : (decide (list.length > 1) || arr.bounds) = true
  · rw [if_pos (Or.inl hcoeff), if_pos hcoeff, if_neg hdims]
    refine ⟨rfl, hb.dimct, rfl, hb.bounds, rfl, ?_, hb.extent, hb.low, hb.high⟩
    unfold origin
    dsimp only
    rw [hdifference]
    split
    · ring
    · next hbounds =>
      rw [hzero hbounds]
      ring
  · have hbounds : ¬ arr.bounds = true := fun hbounds => hcoeff (by rw [hbounds, Bool.or_true])
    have hplain : ¬ ((decide (list.length > 1) || arr.bounds) = true ∨
        x.arsize = 0 ∧ arr.pointer ≠ 0) := by
      intro hor
      obtain hcoeff' | ⟨-, hpointer⟩ := hor
      · exact hcoeff hcoeff'
      · exact hpointer (hb.pointer (hzero hbounds))
    rw [if_neg hplain]
    refine ⟨rfl, hb.dimct, rfl, hb.bounds, rfl, ?_, hb.extent, hb.low, hb.high⟩
    unfold origin
    rw [if_neg hbounds, hzero hbounds]
    ring

theorem lastLow_eq_zero {n : ℕ} (h : lastLow x list n = 0) {j : ℕ} (hj : j < n) :
    (found x list j).1 = 0 := by
  induction n with
  | zero => cases hj
  | succ n ih =>
    have hsplit : lastLow x list (n + 1) =
      if (found x list n).1 ≠ 0 then (found x list n).1 else lastLow x list n := rfl
    rw [hsplit] at h
    split at h
    · next hlo => exact absurd h hlo
    · next hlo =>
      obtain rfl | hlt := Nat.eq_or_lt_of_le (Nat.le_of_lt_succ hj)
      · exact not_not.mp hlo
      · exact ih h hlt

variable {r : ArrayDesc}

theorem Made.plain (hm : Made x list r) (hcoeff : r.coeff = false) :
    list.length ≤ 1 ∧ r.bounds = false := by
  rw [hm.coeff, Bool.or_eq_false_iff, decide_eq_false_iff_not] at hcoeff
  exact ⟨by omega, hcoeff.2⟩

theorem Made.extent_eq (hm : Made x list r) (ha : Accepted x list) (hf : NoOverflow x list)
    {j : ℕ} (hj : j < list.length) : ArrayLayout.extent r j = size x list j % 4294967296 := by
  unfold ArrayLayout.extent
  split
  · exact hm.extent j hj
  · next hcoeff =>
    obtain ⟨hone, -⟩ := hm.plain (Bool.eq_false_iff.mpr hcoeff)
    have hlength := hf.length_pos
    have harsize := hf.arsize_lt
    have helements := ha.elements
    obtain rfl : j = 0 := by omega
    have hlist : list.length = 0 + 1 := by omega
    rw [hlist] at helements
    unfold steps steps at helements
    rw [Int.one_mul] at helements
    have hquot : ((x.arsize / x.length : ℕ) : ℤ) = size x list 0 := by
      rw [Int.natCast_ediv, helements]
      exact Int.mul_ediv_cancel_left _ (by omega)
    have hnonneg : 0 ≤ size x list 0 := by
      rw [← hquot]
      exact Int.natCast_nonneg _
    have hle : size x list 0 ≤ x.arsize := by
      rw [← hquot]
      exact_mod_cast Nat.div_le_self x.arsize x.length
    rw [hm.arsize, hm.length, hquot, Int.emod_eq_of_lt hnonneg (by omega)]

theorem Made.lower_eq (hm : Made x list r) {j : ℕ} (hj : j < list.length) :
    lower r j = (found x list j).1 := by
  unfold lower
  split
  · rw [hm.dimct]
    exact hm.low j hj
  · next hbounds =>
    rw [hm.bounds, decide_eq_true_iff] at hbounds
    exact (lastLow_eq_zero (not_not.mp hbounds) hj).symm

def Positive (x : ArrayDesc) (list : List NewRange) : Prop :=
  ∀ j, j < list.length → 0 < size x list j

theorem Made.extent_eq_size (hm : Made x list r) (ha : Accepted x list) (hf : NoOverflow x list)
    (hpos : Positive x list) {j : ℕ} (hj : j < list.length) :
    ArrayLayout.extent r j = size x list j := by
  have hsize := hpos j hj
  have hint := (hf.extent j hj).2
  rw [hm.extent_eq ha hf hj, Int.emod_eq_of_lt (by omega) (by omega)]

theorem Made.upper_eq (hm : Made x list r) (ha : Accepted x list) (hf : NoOverflow x list)
    (hpos : Positive x list) {j : ℕ} (hj : j < list.length) :
    upper r j = (found x list j).2 := by
  have hspan := found_span x list j
  unfold upper
  rw [hm.lower_eq hj, hm.extent_eq_size ha hf hpos hj]
  omega

theorem Made.weight_eq (hm : Made x list r) (ha : Accepted x list) (hf : NoOverflow x list)
    (hpos : Positive x list) {j : ℕ} (hj : j ≤ list.length) :
    weight r j = x.length * steps x list j := by
  induction j with
  | zero =>
    unfold weight steps
    rw [hm.length, Int.mul_one]
  | succ j ih =>
    unfold weight steps
    rw [ih (by omega), hm.extent_eq_size ha hf hpos hj, Int.mul_assoc]

theorem Made.shaped (hm : Made x list r) (h : Shaped x) (ha : Accepted x list)
    (hf : NoOverflow x list) (hpos : Positive x list) : Shaped r where
  rank_pos := by
    rw [hm.dimct]
    exact ha.rank_pos
  rank_le := by
    rw [hm.dimct]
    exact ha.rank_le
  length_lt := by
    rw [hm.length]
    exact h.length_lt
  plain hcoeff := by
    obtain ⟨hone, hbounds⟩ := hm.plain hcoeff
    have := ha.rank_pos
    rw [hm.dimct]
    exact ⟨by omega, hbounds⟩
  extent_nonneg j hj := by
    rw [hm.dimct] at hj
    rw [hm.extent_eq ha hf hj]
    exact Int.emod_nonneg _ (by decide)
  extent_lt j hj := by
    rw [hm.dimct] at hj
    rw [hm.extent_eq ha hf hj]
    exact Int.emod_lt_of_pos _ (by decide)
  size := by
    rw [hm.arsize, hm.dimct, hm.weight_eq ha hf hpos (Nat.le_refl _)]
    exact ha.elements
  bounds_int _ j hj := by
    rw [hm.dimct] at hj
    rw [hm.lower_eq hj, hm.upper_eq ha hf hpos hj]
    exact ⟨hf.low j hj, hf.high j hj⟩
  span _ j hj := by
    rw [hm.dimct] at hj
    rw [hm.upper_eq ha hf hpos hj, hm.dimct]
    exact hm.high j hj

theorem steps_pos (hpos : Positive x list) {j : ℕ} (hj : j ≤ list.length) :
    0 < steps x list j := by
  induction j with
  | zero => exact Int.one_pos
  | succ j ih => exact Int.mul_pos (ih (by omega)) (hpos j hj)

theorem steps_le (hpos : Positive x list) {j : ℕ} (hj : j ≤ list.length) :
    steps x list j ≤ steps x list list.length := by
  induction hj using Nat.decreasingInduction with
  | self => exact Int.le_refl _
  | of_succ j hj ih =>
    have hstep : steps x list j * 1 ≤ steps x list j * size x list j := by
      apply Int.mul_le_mul_of_nonneg_left
      · have := hpos j hj
        omega
      · exact Int.le_of_lt (steps_pos hpos (Nat.le_of_lt hj))
    rw [Int.mul_one] at hstep
    exact Int.le_trans hstep ih

theorem isInt_of_mul {w i : ℤ} (hw : 0 < w) (h : IsInt (w * i)) : IsInt i := by
  unfold IsInt at h ⊢
  obtain hi | hi := Int.le_total 0 i
  · have hmul : i ≤ w * i := le_mul_of_one_le_left hi (by omega)
    omega
  · have hmul : -i ≤ w * -i := le_mul_of_one_le_left (by omega) (by omega)
    rw [Int.mul_neg] at hmul
    omega

theorem Made.weight_isInt (hm : Made x list r) (ha : Accepted x list) (hf : NoOverflow x list)
    (hpos : Positive x list) {j : ℕ} (hj : j < list.length) : IsInt (weight r j) := by
  have hle := Int.mul_le_mul_of_nonneg_left (steps_le hpos (Nat.le_of_lt hj))
    (Int.natCast_nonneg x.length)
  have hnonneg := Int.mul_nonneg (Int.natCast_nonneg x.length)
    (Int.le_of_lt (steps_pos hpos (Nat.le_of_lt hj)))
  have harsize := hf.arsize_lt
  rw [← ha.elements] at hle
  rw [hm.weight_eq ha hf hpos (Nat.le_of_lt hj)]
  exact ⟨by omega, by omega⟩

def Inside (x : ArrayDesc) (list : List NewRange) (t : List ℤ) : Prop :=
  t.length = list.length ∧
    ∀ j, j < list.length → (wanted x list j).1 ≤ t.getD j 0 ∧ t.getD j 0 ≤ (wanted x list j).2

theorem getD_scalars {t : List ℤ} {j : ℕ} (hj : j < t.length) :
    (t.map Subscript.scalar).getD j .missing = .scalar (t.getD j 0) := by
  rw [List.getD_eq_getElem?_getD, List.getD_eq_getElem?_getD, List.getElem?_map,
    List.getElem?_eq_getElem hj]
  rfl

theorem selected_scalar {t : List ℤ} {j : ℕ} (hj : j < t.length) :
    selected r (t.map .scalar) j = [t.getD j 0].filter (inRange r j) := by
  unfold selected
  rw [getD_scalars hj]
  rfl

theorem Made.scanFits (hm : Made x list r) (h : Shaped x) (ha : Accepted x list)
    (hf : NoOverflow x list) (hpos : Positive x list) {t : List ℤ} (ht : Inside x list t) :
    ScanFits r (t.map .scalar) where
  plain _ := by
    rw [hm.length, hm.arsize]
    exact ⟨hf.length_pos, hf.arsize_lt⟩
  upper j hj := by
    rw [hm.dimct] at hj
    rw [hm.upper_eq ha hf hpos hj]
    exact (hf.high j hj).2
  strides j hj := by
    rw [hm.dimct] at hj
    exact hm.weight_isInt ha hf hpos hj
  ranges j hj := by
    rw [hm.dimct, ← ht.1] at hj
    rw [getD_scalars hj]
    exact trivial
  products j hj hne := by
    have hshaped := hm.shaped h ha hf hpos
    have hstride := stride_eq_weight hshaped (fun j hj => by
      rw [hm.dimct] at hj
      exact hm.weight_isInt ha hf hpos hj) hj
    have hselected := hne j (Nat.le_refl _)
    rw [hm.dimct] at hj
    have hlt : j < t.length := by rw [ht.1]; exact hj
    rw [hstride, hm.weight_eq ha hf hpos (Nat.le_of_lt hj)]
    rw [selected_scalar hlt] at hselected ⊢
    cases hin : inRange r j (t.getD j 0) with
    | false =>
      rw [List.filter_singleton, hin] at hselected
      exact absurd rfl hselected
    | true =>
      rw [List.filter_singleton, hin]
      exact hf.products j hj _ (ht.2 j hj).1 (ht.2 j hj).2

theorem rankOf_eq_zero {kept : ℕ → Bool} {n : ℕ} (h : ∀ j, j < n → kept j = false) :
    rankOf kept n = 0 := by
  induction n with
  | zero => rfl
  | succ n ih =>
    unfold rankOf
    rw [h n (Nat.lt_succ_self n), if_neg Bool.false_ne_true]
    exact ih fun j hj => h j (Nat.lt_succ_of_lt hj)

theorem isArray_scalar {t : List ℤ} {j : ℕ} (hj : j < t.length) :
    isArray r (t.map .scalar) j = !inRange r j (t.getD j 0) := by
  unfold isArray
  rw [getD_scalars hj]

/-- Scalars are found to be in range. -/
def AllInRange (r : ArrayDesc) (t : List ℤ) : Prop :=
  ∀ j, j < t.length → lower r j ≤ t.getD j 0 ∧ t.getD j 0 ≤ upper r j

theorem rank_scalars {t : List ℤ} (ht : t.length = r.dimct) :
    rank r (t.map .scalar) = 0 ↔ AllInRange r t := by
  constructor
  · intro hrank j hj
    have hle : rankOf (isArray r (t.map .scalar)) r.dimct ≤ j := by
      change rank r (t.map .scalar) ≤ j
      omega
    have hkept := not_kept (by omega) hle
    rw [isArray_scalar hj, Bool.not_eq_false'] at hkept
    exact of_decide_eq_true hkept
  · intro hall
    apply rankOf_eq_zero
    intro j hj
    have hlt : j < t.length := by omega
    rw [isArray_scalar hlt, Bool.not_eq_false']
    exact decide_eq_true (hall j hlt)

theorem arrayPart_ne_scalar (s : Scan) (block pin : ℤ) :
    arrayPart r s block ≠ .ok (.scalar pin) := by
  intro h
  unfold arrayPart at h
  dsimp only at h
  split at h
  · cases h
  · cases hint : int (r.length * (s.px.headD []).headD 0) with
    | error e =>
      rw [hint] at h
      cases h
    | ok first =>
      rw [hint] at h
      change (copies _ _ _ _ _).map _ = _ at h
      generalize copies _ _ _ _ _ = pins at h
      cases pins with
      | error e => cases h
      | ok pins => cases h

/-- The address that a tuple of scalars is added up to. -/
def reached (x : ArrayDesc) (list : List NewRange) (r : ArrayDesc) (t : List ℤ) : ℤ :=
  origin r + ((List.range list.length).map fun j => x.length * steps x list j * t.getD j 0).sum

theorem Made.subscript (hm : Made x list r) (h : Shaped x) (ha : Accepted x list)
    (hf : NoOverflow x list) (hpos : Positive x list) {t : List ℤ} (ht : Inside x list t)
    (block pin : ℤ) :
    tdi1Subscript r (t.map .scalar) block = .ok (.scalar pin) ↔
      AllInRange r t ∧ pin = reached x list r t := by
  have hshaped := hm.shaped h ha hf hpos
  have hfits := hm.scanFits h ha hf hpos ht
  have hlength : t.length = r.dimct := by rw [hm.dimct, ht.1]
  have hwell : ∀ sub ∈ t.map Subscript.scalar, WellFormed sub := by
    intro sub hsub
    obtain ⟨i, hi, rfl⟩ := List.mem_map.mp hsub
    obtain ⟨j, hj, rfl⟩ := List.getElem_of_mem hi
    have hlt : j < list.length := by rw [← ht.1]; exact hj
    obtain ⟨hlow, hhigh⟩ := ht.2 j hlt
    have hproduct := hf.products j hlt _ hlow hhigh
    rw [List.getD_eq_getElem?_getD, List.getElem?_eq_getElem hj, Option.getD_some] at hproduct
    refine isInt_of_mul (Int.mul_pos ?_ (steps_pos hpos (Nat.le_of_lt hlt))) hproduct
    have := hf.length_pos
    omega
  obtain ⟨s, hs, heq⟩ := tdi1Subscript_scanned hshaped (by
    rw [List.length_map, hlength]) hwell hfits block
  rw [heq]
  split
  · next hrank =>
    have hall := (rank_scalars hlength).mp hrank
    have hpin : s.pin = reached x list r t := by
      rw [scalar_pin hrank hs]
      unfold reached firsts
      rw [hm.dimct]
      congr 2
      apply List.map_congr_left
      intro j hj
      have hlt := List.mem_range.mp hj
      have hlt' : j < t.length := by rw [ht.1]; exact hlt
      have hin : inRange r j (t.getD j 0) = true := decide_eq_true (hall j hlt')
      rw [stride_eq_weight hshaped hfits.strides (by rw [hm.dimct]; exact hlt),
        hm.weight_eq ha hf hpos (Nat.le_of_lt hlt), selected_scalar hlt',
        List.filter_singleton, hin]
      rfl
    constructor
    · intro hscalar
      injection hscalar with hscalar
      injection hscalar with hscalar
      exact ⟨hall, by rw [← hscalar, hpin]⟩
    · intro ⟨_, hreached⟩
      rw [hreached, hpin]
  · next hrank =>
    constructor
    · intro hscalar
      exact absurd hscalar (arrayPart_ne_scalar s block pin)
    · intro ⟨hall, _⟩
      exact absurd ((rank_scalars hlength).mpr hall) hrank

def position (x : ArrayDesc) (list : List NewRange) (t : List ℤ) : ℤ :=
  ((List.range list.length).map fun j => steps x list j * (t.getD j 0 - (wanted x list j).1)).sum

/-- The bytes of x, in the extents of the ranges, and subscripts that give the element at their
position. -/
structure Right (x : ArrayDesc) (list : List NewRange) (r : ArrayDesc) : Prop where
  extents : ∀ j, j < list.length → ArrayLayout.extent r j = size x list j % 4294967296
  copied : ∀ (data : ℤ → BitVec 8) (a : ℤ), 0 ≤ a → a < x.arsize →
    tdiConvert data x r (r.pointer + a) = data (x.pointer + a)
  elements : ∀ t, Inside x list t → ∀ block, tdi1Subscript r (t.map .scalar) block =
    .ok (.scalar (r.pointer + x.length * position x list t))

def Filled (x : ArrayDesc) (list : List NewRange) : Prop :=
  ∀ j, j < list.length → found x list j = wanted x list j

/-- Elements of the lower bounds, in all dimensions. -/
def lows (x : ArrayDesc) (list : List NewRange) : ℤ :=
  ((List.range list.length).map fun j => steps x list j * (wanted x list j).1).sum

/-- There are no elements; or the ends are those wanted, and the last lower bound that is not zero
counts as many elements as all lower bounds with their strides. -/
def Places (x : ArrayDesc) (list : List NewRange) : Prop :=
  ¬ Positive x list ∨ Filled x list ∧ lastLow x list list.length = lows x list

theorem Made.copied (hm : Made x list r) (data : ℤ → BitVec 8) {a : ℤ} (ha : 0 ≤ a)
    (hlt : a < x.arsize) : tdiConvert data x r (r.pointer + a) = data (x.pointer + a) := by
  have hin : r.pointer ≤ r.pointer + a ∧
      r.pointer + a < r.pointer + (min x.arsize r.arsize : ℕ) := by
    rw [hm.arsize, Nat.min_self]
    omega
  have hback : x.pointer + (r.pointer + a - r.pointer) = x.pointer + a := by ring
  unfold tdiConvert
  rw [if_pos hin, hback]

theorem reached_eq (r : ArrayDesc) (t : List ℤ) :
    reached x list r t = origin r + x.length * (position x list t + lows x list) := by
  have hsum : ∀ n, ((List.range n).map fun j => x.length * steps x list j * t.getD j 0).sum =
      x.length *
        (((List.range n).map fun j => steps x list j * (t.getD j 0 - (wanted x list j).1)).sum +
          ((List.range n).map fun j => steps x list j * (wanted x list j).1).sum) := by
    intro n
    induction n with
    | zero => rfl
    | succ n ih =>
      simp only [List.range_succ, List.map_append, List.sum_append, List.map_singleton,
        List.sum_singleton]
      rw [ih]
      ring
  unfold reached position lows
  rw [hsum]

theorem Made.reached_iff (hm : Made x list r) (hf : NoOverflow x list) (t : List ℤ) :
    reached x list r t = r.pointer + x.length * position x list t ↔
      lastLow x list list.length = lows x list := by
  have hlength : (x.length : ℤ) ≠ 0 := by
    have := hf.length_pos
    omega
  rw [reached_eq, hm.origin]
  constructor
  · intro heq
    apply Int.eq_of_mul_eq_mul_left hlength
    rw [Int.mul_add] at heq
    omega
  · intro heq
    rw [heq]
    ring

theorem wanted_span (x : ArrayDesc) (list : List NewRange) (j : ℕ) :
    (wanted x list j).2 = (wanted x list j).1 + size x list j - 1 := by
  unfold size
  ring

theorem getD_range_map {n j : ℕ} (f : ℕ → ℤ) (hj : j < n) :
    ((List.range n).map f).getD j 0 = f j := by
  rw [List.getD_eq_getElem?_getD, List.getElem?_map, List.getElem?_range hj]
  rfl

theorem inside_map {f : ℕ → ℤ}
    (hf : ∀ j, j < list.length → (wanted x list j).1 ≤ f j ∧ f j ≤ (wanted x list j).2) :
    Inside x list ((List.range list.length).map f) := by
  refine ⟨by rw [List.length_map, List.length_range], ?_⟩
  intro j hj
  rw [getD_range_map f hj]
  exact hf j hj

theorem Made.filled (hm : Made x list r) (h : Shaped x) (ha : Accepted x list)
    (hf : NoOverflow x list) (hpos : Positive x list) (hright : Right x list r) :
    Filled x list := by
  have hcorner : ∀ f : ℕ → ℤ,
      (∀ j, j < list.length → (wanted x list j).1 ≤ f j ∧ f j ≤ (wanted x list j).2) →
      ∀ j, j < list.length → (found x list j).1 ≤ f j ∧ f j ≤ (found x list j).2 := by
    intro f hfj j hj
    have hinside := inside_map hfj
    have hall := ((hm.subscript h ha hf hpos hinside 0 _).mp (hright.elements _ hinside 0)).1
    have hbounds := hall j (by rw [hinside.1]; exact hj)
    rw [hm.lower_eq hj, hm.upper_eq ha hf hpos hj, getD_range_map f hj] at hbounds
    exact hbounds
  intro j hj
  have hlow := hcorner (fun j => (wanted x list j).1) (fun j hj => by
    have := hpos j hj
    have := wanted_span x list j
    omega) j hj
  have hhigh := hcorner (fun j => (wanted x list j).2) (fun j hj => by
    have := hpos j hj
    have := wanted_span x list j
    omega) j hj
  have hspan := found_span x list j
  have hspan' := wanted_span x list j
  exact Prod.ext (by omega) (by omega)

theorem Made.right_iff (hm : Made x list r) (h : Shaped x) (ha : Accepted x list)
    (hf : NoOverflow x list) : Right x list r ↔ Places x list := by
  constructor
  · intro hright
    by_cases hpos : Positive x list
    · right
      refine ⟨hm.filled h ha hf hpos hright, ?_⟩
      have hinside : Inside x list ((List.range list.length).map fun j => (wanted x list j).1) :=
        inside_map fun j hj => by
          have := hpos j hj
          have := wanted_span x list j
          omega
      have hreached :=
        ((hm.subscript h ha hf hpos hinside 0 _).mp (hright.elements _ hinside 0)).2
      exact (hm.reached_iff hf _).mp hreached.symm
    · exact Or.inl hpos
  · intro hplaces
    refine ⟨fun j hj => hm.extent_eq ha hf hj, fun data a => hm.copied data, ?_⟩
    intro t ht block
    obtain hempty | ⟨hfilled, hlows⟩ := hplaces
    · refine absurd ?_ hempty
      intro j hj
      have := ht.2 j hj
      have := wanted_span x list j
      omega
    · by_cases hpos : Positive x list
      · apply (hm.subscript h ha hf hpos ht block _).mpr
        refine ⟨?_, ((hm.reached_iff hf t).mpr hlows).symm⟩
        intro j hj
        rw [ht.1] at hj
        rw [hm.lower_eq hj, hm.upper_eq ha hf hpos hj, hfilled j hj]
        exact ht.2 j hj
      · refine absurd ?_ hpos
        intro j hj
        have := ht.2 j hj
        have := wanted_span x list j
        omega

/-- The new array has the elements at their positions just if its a0 is right, which counts a
single lower bound, without its stride. -/
theorem tdi1SetRange_iff (h : Shaped x) (ha : Accepted x list) (hf : NoOverflow x list)
    (block : ℤ) : ∃ r, tdi1SetRange x list block = .ok r ∧ (Right x list r ↔ Places x list) ∧
      (origin r = r.pointer - x.length * lows x list ↔
        lastLow x list list.length = lows x list) := by
  obtain ⟨r, hr, hm⟩ := tdi1SetRange_made h ha hf block
  refine ⟨r, hr, hm.right_iff h ha hf, ?_⟩
  have hlength : (x.length : ℤ) ≠ 0 := by
    have := hf.length_pos
    omega
  rw [hm.origin]
  constructor
  · intro heq
    apply Int.eq_of_mul_eq_mul_left hlength
    omega
  · intro heq
    rw [heq]

/-- Three ints from 5 on, with the upper end missing. -/
def fromFive : List NewRange := [.range (some 5) none]

theorem fromFive_accepted : Accepted line fromFive where
  rank_pos := Nat.zero_lt_one
  rank_le := by decide
  no_triad := by decide
  missing j hj _ := hj
  elements := by decide

theorem fromFive_noOverflow : NoOverflow line fromFive where
  length_pos := by decide
  arsize_lt := by decide
  low j hj := by
    obtain rfl := Nat.lt_one_iff.mp hj
    decide
  high j hj := by
    obtain rfl := Nat.lt_one_iff.mp hj
    decide
  span j hj := by
    obtain rfl := Nat.lt_one_iff.mp hj
    decide
  extent j hj := by
    obtain rfl := Nat.lt_one_iff.mp hj
    decide
  next j hi hnew := by
    cases j with
    | zero => cases hnew
    | succ j => cases hnew
  products j hj i hlow hhigh := by
    obtain rfl := Nat.lt_one_iff.mp hj
    have hends : wanted line fromFive 0 = (5, 7) := by decide
    rw [hends] at hlow hhigh
    change IsInt (4 * 1 * i)
    exact ⟨by omega, by omega⟩

theorem tdi1SetRange_iff_line : ∃ r, tdi1SetRange line fromFive 0 = .ok r ∧
    Right line fromFive r := by
  obtain ⟨r, hr, hright, -⟩ :=
    tdi1SetRange_iff line_consistent.toShaped fromFive_accepted fromFive_noOverflow 0
  refine ⟨r, hr, hright.mpr (Or.inr ⟨?_, by decide⟩)⟩
  intro j hj
  obtain rfl := Nat.lt_one_iff.mp hj
  decide

def quad : ArrayDesc := { line with length := 1, arsize := 4 }

/-- Two by two, with a lower bound in the second dimension. -/
def square : List NewRange := [.range (some 0) (some 1), .range (some 1) (some 2)]

theorem quad_shaped : Shaped quad where
  rank_pos := Nat.zero_lt_one
  rank_le := by decide
  length_lt := by decide
  plain _ := ⟨rfl, rfl⟩
  extent_nonneg j _ := Int.natCast_nonneg _
  extent_lt j _ := by
    change ((4 / 1 : ℕ) : ℤ) < _
    decide
  size := by decide
  bounds_int hbounds := by cases hbounds
  span hbounds := by cases hbounds

theorem square_accepted : Accepted quad square where
  rank_pos := Nat.zero_lt_two
  rank_le := by decide
  no_triad := by decide
  missing j hj hopen := by
    match j, hj with
    | 0, _ => exact absurd hopen not_false
    | 1, _ => exact absurd hopen not_false
  elements := by decide

/-- The lower bound of the second dimension counts one element and not two. -/
theorem square_wrong : Shaped quad ∧ Accepted quad square ∧
    ∃ r, tdi1SetRange quad square 0 = .ok r ∧ ¬ Right quad square r := by
  refine ⟨quad_shaped, square_accepted, _, rfl, ?_⟩
  intro hright
  have helement := congrArg (fun result => result.toOption.map Result.pins)
    (hright.elements [0, 1] ⟨rfl, by decide⟩ 0)
  revert helement
  decide

end MdsPlus.SetRangeRuns
