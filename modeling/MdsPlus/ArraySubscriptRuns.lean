import MdsPlus.ArrayLayout
import MdsPlus.ArraySubscript

/-!
Subscripts copy the elements in range, and no others, as long as the products of strides and
subscripts are ints and the sizes are words. The culled lists are chosen from with the first
one running fastest.
-/

namespace MdsPlus.ArraySubscriptRuns

open ArrayDescriptors ArrayLayout ArraySubscript Odometer

theorem int_eq {z : ℤ} (h : IsInt z) : int z = .ok z := if_pos h

theorem toInt_eq {z : ℤ} (h : IsInt z) : toInt z = z := by
  unfold IsInt at h
  unfold toInt
  exact Int.bmod_eq_of_le (by omega) (by omega)

variable {x : ArrayDesc} {list : List Subscript}

theorem lbound_eq (h : Shaped x) {j : ℕ} (hj : j < x.dimct) :
    lbound x j = .ok (lower x j) := by
  unfold lbound lower
  split
  · rw [if_neg (by omega)]
    split <;> rfl
  · next hcoeff =>
    obtain ⟨hdim, hbounds⟩ := h.plain (Bool.eq_false_iff.mpr hcoeff)
    rw [if_neg (by omega), hbounds]
    rfl

/-- An array without extents has elements of some bytes, and a size that is an int. -/
def PlainFits (x : ArrayDesc) : Prop := x.coeff = false → 0 < x.length ∧ x.arsize < 2147483648

theorem ubound_eq (h : Shaped x) (hplain : PlainFits x) {j : ℕ} (hj : j < x.dimct)
    (hupper : upper x j ≤ 2147483647) : ubound x j = .ok (upper x j) := by
  have hextent := h.extent_nonneg j hj
  unfold ubound
  split
  · next hcoeff =>
    rw [if_neg (by omega)]
    split
    · next hbounds => rw [h.span hbounds j hj]
    · next hbounds =>
      have hm : x.m j - 1 = upper x j := by
        unfold upper lower extent
        rw [if_neg hbounds, if_pos hcoeff]
        ring
      have hlow : lower x j = 0 := if_neg hbounds
      have hfits : IsInt (upper x j) := by
        refine ⟨?_, hupper⟩
        unfold upper
        omega
      rw [hm, toInt_eq hfits]
  · next hcoeff =>
    obtain ⟨hdim, hbounds⟩ := h.plain (Bool.eq_false_iff.mpr hcoeff)
    obtain ⟨hlength, hsize⟩ := hplain (Bool.eq_false_iff.mpr hcoeff)
    have hlow : lower x j = 0 := by
      unfold lower
      rw [hbounds]
      rfl
    have hext : extent x j = (x.arsize / x.length : ℕ) := if_neg hcoeff
    have hdiv : (x.arsize / x.length : ℕ) ≤ x.arsize := Nat.div_le_self ..
    have hfits : IsInt x.arsize := ⟨by omega, by omega⟩
    rw [if_neg (by omega), if_neg (by omega), toInt_eq hfits]
    have hquot : Int.tdiv (x.arsize : ℤ) x.length - 1 = upper x j := by
      unfold upper
      rw [hlow, hext, Int.tdiv_eq_ediv_of_nonneg (Int.natCast_nonneg _), Int.natCast_ediv]
      ring
    rw [hquot]
    apply int_eq
    refine ⟨?_, hupper⟩
    unfold upper
    omega

def rangeValues (begin ending : ℤ) (delta : Option ℤ) : List ℤ :=
  (List.range (Int.tdiv (ending - begin) (delta.getD 1) + 1).toNat).map fun (i : ℕ) =>
    begin + i * delta.getD 1

structure RangeFits (begin ending : ℤ) (delta : Option ℤ) : Prop where
  difference : IsInt (ending - begin)
  step : ¬ (ending - begin = -2147483648 ∧ delta.getD 1 = -1)
  size : 4 * (Int.tdiv (ending - begin) (delta.getD 1) + 1) ≤ 2147483647

theorem mul_between {d s i : ℤ} (hi : i ≤ Int.tdiv d s) (hpos : 0 < i) :
    0 ≤ i * s ∧ i * s ≤ d ∨ d ≤ i * s ∧ i * s ≤ 0 := by
  obtain hs | rfl | hs := Int.lt_trichotomy 0 s
  · obtain hd | hd := Int.le_total 0 d
    · left
      rw [Int.tdiv_eq_ediv_of_nonneg hd] at hi
      have hmul := Int.mul_le_mul_of_nonneg_right hi (Int.le_of_lt hs)
      have hdiv := Int.ediv_mul_le d (Int.ne_of_gt hs)
      exact ⟨Int.mul_nonneg (by omega) (by omega), by omega⟩
    · have hneg : 0 ≤ Int.tdiv (-d) s := Int.tdiv_nonneg (by omega) (by omega)
      rw [Int.neg_tdiv] at hneg
      omega
  · rw [Int.tdiv_zero] at hi
    omega
  · obtain hd | hd := Int.le_total 0 d
    · have hneg : 0 ≤ Int.tdiv d (-s) := Int.tdiv_nonneg hd (by omega)
      rw [Int.tdiv_neg] at hneg
      omega
    · right
      have hflip : Int.tdiv d s = Int.tdiv (-d) (-s) := by
        rw [Int.neg_tdiv, Int.tdiv_neg, Int.neg_neg]
      rw [hflip, Int.tdiv_eq_ediv_of_nonneg (by omega)] at hi
      have hmul := Int.mul_le_mul_of_nonneg_right hi (show 0 ≤ -s by omega)
      have hdiv := Int.ediv_mul_le (-d) (show -s ≠ 0 by omega)
      rw [Int.mul_neg] at hmul
      have hprod : i * -s ≥ 0 := Int.mul_nonneg (by omega) (by omega)
      rw [Int.mul_neg] at hprod
      exact ⟨by omega, by omega⟩

theorem rangeValues_eq {b e : ℤ} {delta : Option ℤ} (hb : IsInt b) (he : IsInt e)
    (h : RangeFits b e delta) : dtypeRange b e delta = .ok (rangeValues b e delta) := by
  obtain ⟨hdiff, hstep, hsize⟩ := h
  have habs : -2147483648 ≤ Int.tdiv (e - b) (delta.getD 1) := by
    have hle : (Int.tdiv (e - b) (delta.getD 1)).natAbs ≤ (e - b).natAbs := by
      rw [Int.natAbs_tdiv]
      exact Nat.div_le_self ..
    unfold IsInt at hdiff
    omega
  have hcount : IsInt (Int.tdiv (e - b) (delta.getD 1) + 1) := ⟨by omega, by omega⟩
  unfold dtypeRange
  simp only [toInt_eq hdiff, toInt_eq hcount]
  rw [if_neg hstep, int_eq ⟨by omega, by omega⟩]
  apply congrArg Except.ok
  apply List.map_congr_left
  intro i hi
  apply toInt_eq
  have hlt := List.mem_range.mp hi
  obtain rfl | hpos := Nat.eq_zero_or_pos i
  · simpa using hb
  · have := mul_between (d := e - b) (s := delta.getD 1) (i := i) (by omega) (by omega)
    unfold IsInt at *
    constructor <;> omega

def named (x : ArrayDesc) (j : ℕ) : Subscript → List ℤ
  | .missing => rangeValues (lower x j) (upper x j) none
  | .scalar i => [i]
  | .vector l => l
  | .range b e delta => rangeValues (b.getD (lower x j)) (e.getD (upper x j)) delta

def inRange (x : ArrayDesc) (j : ℕ) (i : ℤ) : Bool := decide (lower x j ≤ i ∧ i ≤ upper x j)

def selected (x : ArrayDesc) (list : List Subscript) (j : ℕ) : List ℤ :=
  (named x j (list.getD j .missing)).filter (inRange x j)

def isArray (x : ArrayDesc) (list : List Subscript) (j : ℕ) : Bool :=
  match list.getD j .missing with
  | .scalar i => !inRange x j i
  | _ => true

def WellFormed : Subscript → Prop
  | .missing => True
  | .scalar i => IsInt i
  | .vector l => 4 * l.length < 4294967296 ∧ ∀ i ∈ l, IsInt i
  | .range b e delta => (∀ i ∈ b, IsInt i) ∧ (∀ i ∈ e, IsInt i) ∧ ∀ i ∈ delta, IsInt i

def RangesFit (x : ArrayDesc) (j : ℕ) : Subscript → Prop
  | .missing => RangeFits (lower x j) (upper x j) none
  | .range b e delta => RangeFits (b.getD (lower x j)) (e.getD (upper x j)) delta
  | _ => True

theorem mem_rangeValues_between {b e i : ℤ} (h : i ∈ rangeValues b e none) : b ≤ i ∧ i ≤ e := by
  unfold rangeValues at h
  obtain ⟨k, hk, rfl⟩ := List.mem_map.mp h
  have hlt := List.mem_range.mp hk
  simp only [Option.getD_none, Int.tdiv_one, Int.mul_one] at hlt ⊢
  omega

theorem icull_scalar (x : ArrayDesc) (j : ℕ) (i : ℤ) :
    icull (lower x j) (upper x j) ⟨false, [i]⟩ = ⟨!inRange x j i, [i].filter (inRange x j)⟩ := by
  have hfilter : [i].filter (fun i => lower x j ≤ i ∧ i ≤ upper x j) =
      [i].filter (inRange x j) := rfl
  unfold icull
  dsimp only
  rw [hfilter]
  cases hi : inRange x j i <;> simp [hi]

theorem icull_array (x : ArrayDesc) (j : ℕ) (l : List ℤ) :
    icull (lower x j) (upper x j) ⟨true, l⟩ = ⟨true, l.filter (inRange x j)⟩ := by
  have hfilter : l.filter (fun i => lower x j ≤ i ∧ i ≤ upper x j) = l.filter (inRange x j) := rfl
  unfold icull
  dsimp only
  rw [hfilter]
  split
  · next hlength =>
    rw [List.filter_eq_self.mpr (List.length_filter_eq_length_iff.mp hlength)]
  · rfl

theorem index_eq (h : Shaped x) (hplain : PlainFits x) {j : ℕ} (hj : j < x.dimct)
    (hupper : upper x j ≤ 2147483647)
    (hsub : WellFormed (list.getD j .missing)) (hfits : RangesFit x j (list.getD j .missing)) :
    index x j (list.getD j .missing) = .ok ⟨isArray x list j, selected x list j⟩ := by
  have hlower := lower_isInt h hj
  have hupper' := upper_isInt h hj hupper
  unfold index isArray selected
  rw [lbound_eq h hj, ubound_eq h hplain hj hupper]
  revert hsub hfits
  cases list.getD j .missing with
  | missing =>
    intro _ hfits
    change (dtypeRange (lower x j) (upper x j) none).map _ = _
    rw [rangeValues_eq hlower hupper' hfits]
    have hall : (rangeValues (lower x j) (upper x j) none).filter (inRange x j) =
        rangeValues (lower x j) (upper x j) none := by
      apply List.filter_eq_self.mpr
      intro i hi
      exact decide_eq_true (mem_rangeValues_between hi)
    change Except.ok _ = Except.ok (⟨true, (rangeValues _ _ none).filter (inRange x j)⟩ : Index)
    rw [hall]
  | scalar i =>
    intro _ _
    exact congrArg Except.ok (icull_scalar x j i)
  | vector l =>
    intro _ _
    exact congrArg Except.ok (icull_array x j l)
  | range b e delta =>
    intro hsub hfits
    have hb : IsInt (b.getD (lower x j)) := by
      cases b with
      | none => exact hlower
      | some b => exact hsub.1 b rfl
    have he : IsInt (e.getD (upper x j)) := by
      cases e with
      | none => exact hupper'
      | some e => exact hsub.2.1 e rfl
    change (dtypeRange (b.getD (lower x j)) (e.getD (upper x j)) delta).map _ = _
    rw [rangeValues_eq hb he hfits]
    exact congrArg Except.ok (icull_array x j _)

theorem stride_eq_weight (h : Shaped x) (hint : ∀ j, j < x.dimct → IsInt (weight x j)) {j : ℕ}
    (hj : j < x.dimct) : stride x j = weight x j := by
  induction j with
  | zero => rfl
  | succ j ih =>
    unfold stride
    split
    · next hcoeff =>
      have hm : x.m j = extent x j := (if_pos hcoeff).symm
      rw [ih (Nat.lt_of_succ_lt hj), hm]
      exact toInt_eq (hint (j + 1) hj)
    · next hcoeff =>
      obtain ⟨hdim, -⟩ := h.plain (Bool.eq_false_iff.mpr hcoeff)
      omega

def rankOf (kept : ℕ → Bool) : ℕ → ℕ
  | 0 => 0
  | n + 1 => if kept n then n + 1 else rankOf kept n

/-- What scanning dimensions needs: the subscripts can be evaluated, and the product of the first one
in range with the stride is an int, if all dimensions so far have one. -/
structure ScanFits (x : ArrayDesc) (list : List Subscript) : Prop where
  plain : PlainFits x
  upper : ∀ j, j < x.dimct → upper x j ≤ 2147483647
  strides : ∀ j, j < x.dimct → IsInt (weight x j)
  ranges : ∀ j, j < x.dimct → RangesFit x j (list.getD j .missing)
  products : ∀ j, j < x.dimct → (∀ i, i ≤ j → selected x list i ≠ []) →
    IsInt (stride x j * (selected x list j).headD 0)

theorem scanDim_eq (h : Shaped x) (hfits : ScanFits x list)
    (hsub : ∀ j, WellFormed (list.getD j .missing)) {j : ℕ} (hj : j < x.dimct) (s : Scan)
    (hprev : s.arsize ≠ 0 → ∀ i, i < j → selected x list i ≠ []) :
    scanDim x list j s = .ok
      { pin := if s.arsize * (selected x list j).length % 4294967296 = 0 then s.pin
          else s.pin + stride x j * (selected x list j).headD 0
        arsize := s.arsize * (selected x list j).length % 4294967296
        highest := if isArray x list j then j + 1 else s.highest
        px := s.px ++ [selected x list j] } := by
  unfold scanDim
  rw [index_eq h hfits.plain hj (hfits.upper j hj) (hsub j) (hfits.ranges j hj)]
  change (if s.arsize * (selected x list j).length % 4294967296 = 0 then _ else _) = _
  split
  · rfl
  · next harsize =>
    have hall : ∀ i, i ≤ j → selected x list i ≠ [] := by
      intro i hi
      obtain rfl | hlt := Nat.eq_or_lt_of_le hi
      · intro hnil
        apply harsize
        rw [hnil, List.length_nil, Nat.mul_zero, Nat.zero_mod]
      · refine hprev ?_ i hlt
        intro hzero
        apply harsize
        rw [hzero, Nat.zero_mul, Nat.zero_mod]
    rw [int_eq (hfits.products j hj hall)]
    rfl

def firsts (x : ArrayDesc) (list : List Subscript) (n : ℕ) : ℤ :=
  ((List.range n).map fun j => stride x j * (selected x list j).headD 0).sum

/-- How many elements the dimensions up to one have. -/
def count (x : ArrayDesc) (list : List Subscript) (n : ℕ) : ℕ :=
  ((List.range n).map fun j => (selected x list j).length).prod

theorem firsts_succ (n : ℕ) : firsts x list (n + 1) =
    firsts x list n + stride x n * (selected x list n).headD 0 := by
  unfold firsts
  rw [List.range_succ, List.map_append, List.sum_append, List.map_singleton, List.sum_singleton]

theorem count_succ (n : ℕ) :
    count x list (n + 1) = count x list n * (selected x list n).length := by
  unfold count
  rw [List.range_succ, List.map_append, List.prod_append, List.map_singleton, List.prod_singleton]

theorem count_ne_zero {n : ℕ} :
    count x list n ≠ 0 ↔ ∀ j, j < n → selected x list j ≠ [] := by
  induction n with
  | zero => simp [count]
  | succ n ih =>
    rw [count_succ, Nat.mul_ne_zero_iff, ih, ne_eq, List.length_eq_zero_iff]
    constructor
    · intro ⟨hall, hn⟩ j hj
      obtain rfl | hlt := Nat.eq_or_lt_of_le (Nat.le_of_lt_succ hj)
      · exact hn
      · exact hall j hlt
    · intro hall
      exact ⟨fun j hj => hall j (Nat.lt_succ_of_lt hj), hall n (Nat.lt_succ_self n)⟩

structure Scanned (x : ArrayDesc) (list : List Subscript) (n : ℕ) (s : Scan) : Prop where
  px : s.px = (List.range n).map (selected x list)
  highest : s.highest = rankOf (isArray x list) n
  arsize : s.arsize = count x list n % 4294967296
  pin : count x list n ≠ 0 → count x list n < 4294967296 →
    s.pin = origin x + firsts x list n

theorem scan_eq (h : Shaped x) (hfits : ScanFits x list)
    (hsub : ∀ j, WellFormed (list.getD j .missing)) {n j : ℕ} (hn : j + n = x.dimct) {s : Scan}
    (hs : Scanned x list j s) : ∃ s', scan x list n j s = .ok s' ∧ Scanned x list x.dimct s' := by
  induction n generalizing j s with
  | zero =>
    obtain rfl : j = x.dimct := hn
    exact ⟨s, rfl, hs⟩
  | succ n ih =>
    have hprev : s.arsize ≠ 0 → ∀ i, i < j → selected x list i ≠ [] := by
      intro harsize
      apply count_ne_zero.mp
      intro hzero
      apply harsize
      rw [hs.arsize, hzero]
    have hstep := scanDim_eq h hfits hsub (show j < x.dimct by omega) s hprev
    unfold scan
    rw [hstep]
    apply ih (by omega)
    have harsize : s.arsize * (selected x list j).length % 4294967296 =
        count x list (j + 1) % 4294967296 := by
      rw [hs.arsize, Nat.mod_mul_mod, count_succ]
    constructor
    · rw [hs.px, List.range_succ, List.map_append, List.map_singleton]
    · unfold rankOf
      rw [hs.highest]
    · exact harsize
    · intro hcount hlt
      have hne : count x list j ≠ 0 := by
        intro hzero
        apply hcount
        rw [count_succ, hzero, Nat.zero_mul]
      have hle : count x list j ≤ count x list (j + 1) := by
        rw [count_succ]
        apply Nat.le_mul_of_pos_right
        apply Nat.pos_of_ne_zero
        intro hzero
        apply hcount
        rw [count_succ, hzero, Nat.mul_zero]
      dsimp only
      rw [harsize, Nat.mod_eq_of_lt hlt, if_neg hcount, hs.pin hne (Nat.lt_of_le_of_lt hle hlt),
        firsts_succ, Int.add_assoc]

/-! The counts of the dimensions above the first. -/

def view (d : ArraySubscript.Digit) : Odometer.Digit ℤ :=
  ⟨d.px.map (d.stride * ·), (d.px.map (d.stride * ·)).drop d.count⟩

/-- The difference from a subscript to the next one, or from the last one back to the first, is an
int, and so is its product with the stride. -/
def MovesFit (stride : ℤ) (px : List ℤ) : Prop :=
  ∀ c, c < px.length → IsInt (px.getD ((c + 1) % px.length) 0 - px.getD c 0) ∧
    IsInt (stride * (px.getD ((c + 1) % px.length) 0 - px.getD c 0))

structure Valid (d : ArraySubscript.Digit) : Prop where
  count_lt : d.count < d.px.length
  length_le : d.px.length ≤ 2147483647
  moves : MovesFit d.stride d.px

end MdsPlus.ArraySubscriptRuns
