import MdsPlus.Mapping
import MdsPlus.Outcome
import MdsPlus.SortLoops
import MdsPlus.TableSearch

/-!
X_TO_I and I_TO_X of a dimension with a list of values, and perhaps a window. Values are taken to
indices by a sort and a search, and then by the indices of the sort.
-/

namespace MdsPlus.AxisIndices

open ElementOrder (Fault)
open Mapping (extend)
open Outcome SortLoops TableSearch

/-- Both ends may be missing; the value is that at index zero. -/
structure Window where
  startidx : Option ℤ
  endingidx : Option ℤ
  valueAtIdx0 : ℤ

/-- Distinct integers. The bytes of the list are told by an int, and there are four or more for each
value where there are many. -/
structure Dimension where
  axis : List ℤ
  window : Option Window
  nodup : axis.Nodup
  length_le : axis.length ≤ 536870912

def huge : ℤ := 268435456

def valueAt (l : List ℤ) (i : ℤ) : ℤ := l.getD i.toNat 0

def gtr (l : List ℤ) (v i : ℤ) : Except Fault ℤ := .ok (if v < valueAt l i then 1 else 0)

/-- Tdi1Sort. -/
def sort (l : List ℤ) : Except Fault (List ℤ) :=
  if l = [] then .ok []
  else do
    let ndx ← sortLoop (fun j k => gtr l (valueAt l k) j) l.length (2 * l.length + 2) 0
      (l.length - 1) [] 0 id
    .ok ((List.range l.length).map fun k : ℕ => ndx k)

/-- Tdi1Bsearch of one value: its place, or that of the next greater one. -/
def bsearch (v : ℤ) (table : List ℤ) : Except Fault ℤ :=
  if table = [] then .error .nullPtr
  else do
    let lo ← find (gtr table v) table.length (table.length + 2) (-2)
    .ok (if 0 ≤ lo ∧ valueAt table lo = v then lo else lo + 1)

/-- Tdi1Map with one subscript. -/
def map (l : List ℤ) (i : ℤ) : Except Fault ℤ :=
  let j := extend 0 (l.length - 1) i
  if 0 ≤ j ∧ j < l.length then .ok (valueAt l j) else .error .outOfRange

/-- The index of the first value, and the first and the last index of the window. The value at index
zero is looked for in the list as it is. -/
def limits (dim : Dimension) : Except Fault (ℤ × ℤ × ℤ) :=
  match dim.window with
  | none => .ok (0, 0, dim.axis.length - 1)
  | some w => do
      let xat0 ← bsearch w.valueAtIdx0 dim.axis
      let left := -xat0
      let right := dim.axis.length + (left - 1)
      .ok (left, max (w.startidx.getD (-huge)) left, min (w.endingidx.getD huge) right)

/-- I_TO_X: straight mapping. -/
def iToX (dim : Dimension) (i : ℤ) : Except Fault ℤ := do
  let (_, k0, _) ← limits dim
  if k0 ≠ 0 ∧ dim.window.isSome then map dim.axis (i - k0) else map dim.axis i

/-- X_TO_I: lookup, offset, unorder. -/
def xToI (dim : Dimension) (x : ℤ) : Except Fault ℤ := do
  let tmp ← sort dim.axis
  let window ← tmp.mapM (map dim.axis)
  let (_, k0, _) ← limits dim
  let out ← bsearch x window
  map tmp (if k0 ≠ 0 then out + k0 else out)

/-! ### What it should give -/

def InWindow (left k0 k1 : ℤ) (p : ℕ) : Prop := k0 ≤ left + p ∧ left + p ≤ k1

/-- Indices in the window and values in it are taken to each other. -/
def Inverse (dim : Dimension) : Prop :=
  ∀ left k0 k1, limits dim = .ok (left, k0, k1) →
    (∀ i, k0 ≤ i → i ≤ k1 → ∃ x, iToX dim i = .ok x ∧ xToI dim x = .ok i) ∧
      ∀ (p : ℕ) (x : ℤ), dim.axis[p]? = some x → InWindow left k0 k1 p →
        ∃ i, xToI dim x = .ok i ∧ iToX dim i = .ok x

def rank (l : List ℤ) (p : ℤ) : ℕ := l.countP fun y => decide (y < valueAt l p)

/-- The value some places further is as many values greater, or the greatest one. -/
def Moves (l : List ℤ) (k : ℤ) (p : ℤ) : Prop :=
  p + k < l.length ∧ (rank l (p + k) : ℤ) = min (rank l p + k) (l.length - 1)

/-- The window is empty or begins at index zero, or all its values move by its first index. -/
def Agrees (dim : Dimension) : Prop :=
  ∀ left k0 k1, limits dim = .ok (left, k0, k1) → k1 < k0 ∨ k0 = 0 ∨ 0 < k0 ∧
    ∀ p : ℕ, p ≤ k1 - k0 ∨ InWindow left k0 k1 p → Moves dim.axis k0 p

/-! ### Places and values -/

section Lists

variable {l : List ℤ} {p : ℕ} {i j v x : ℤ}

theorem valueAt_of_getElem? (h : l[p]? = some x) : valueAt l p = x := by
  rw [valueAt, Int.toNat_natCast, List.getD_eq_getElem?_getD, h]
  rfl

theorem getElem?_valueAt (hp : p < l.length) : l[p]? = some (valueAt l p) := by
  rw [valueAt_of_getElem? (List.getElem?_eq_getElem hp), List.getElem?_eq_getElem hp]

theorem valueAt_inj (hnodup : l.Nodup) (hi : 0 ≤ i) (hil : i < l.length) (hj : 0 ≤ j)
    (hjl : j < l.length) (h : valueAt l i = valueAt l j) : i = j := by
  obtain ⟨a, rfl⟩ := Int.eq_ofNat_of_zero_le hi
  obtain ⟨b, rfl⟩ := Int.eq_ofNat_of_zero_le hj
  have ha : a < l.length := by omega
  have hb : b < l.length := by omega
  have hget : l[a]? = l[b]? := by rw [getElem?_valueAt ha, getElem?_valueAt hb, h]
  rw [List.getElem?_eq_getElem ha, List.getElem?_eq_getElem hb] at hget
  exact congrArg Nat.cast (hnodup.getElem_inj_iff.1 (Option.some.inj hget))

theorem extend_range (hpos : 0 < l.length) (i : ℤ) :
    0 ≤ extend 0 (l.length - 1) i ∧ extend 0 (l.length - 1) i < l.length := by
  rw [extend]
  split
  · omega
  · split <;> omega

theorem map_eq (hpos : 0 < l.length) (i : ℤ) :
    map l i = .ok (valueAt l (extend 0 (l.length - 1) i)) :=
  if_pos (extend_range hpos i)

theorem tells (l : List ℤ) (v : ℤ) : Tells (gtr l v) l.length (valueAt l) v := by
  intro i _ _
  refine ⟨_, rfl, ?_⟩
  split
  · rename_i hlt
    exact iff_of_true one_pos hlt
  · rename_i hle
    exact iff_of_false (lt_irrefl 0) hle

theorem bsearch_spec (hpos : 0 < l.length) (hlen : l.length ≤ 536870912) (v : ℤ) :
    ∃ p, Between l.length (valueAt l) v p (p + 1) ∧
      bsearch v l = .ok (if 0 ≤ p ∧ valueAt l p = v then p else p + 1) := by
  obtain ⟨p, hfind, hp⟩ := find_spec (tells l v) (by omega) (by omega) (l.length + 2) (-2)
    (by omega)
  refine ⟨p, hp, ?_⟩
  rw [bsearch, if_neg (List.ne_nil_of_length_pos hpos), hfind, ok_bind]

theorem sort_spec (hlen : l.length ≤ 536870912) : ∃ tmp, sort l = .ok tmp ∧
    tmp.Perm ((List.range l.length).map Nat.cast) ∧
      tmp.Pairwise fun j k => valueAt l j ≤ valueAt l k := by
  rw [sort]
  by_cases hnil : l = []
  · rw [if_pos hnil, hnil]
    exact ⟨[], rfl, .nil, .nil⟩
  · have hcmp : Compares (fun j k => gtr l (valueAt l k) j) l.length (valueAt l) :=
      fun j k hj _ => tells l (valueAt l k) j hj.1 (by have := hj.2; omega)
    have hstart : ∀ i : ℤ, 0 ≤ i → i < l.length → (id : Indices) i = i := fun _ _ _ => rfl
    obtain ⟨ndx, hloop, hsorted⟩ := sortLoop_sorts hcmp (List.length_pos_iff.2 hnil) (by omega)
      hstart
    rw [if_neg hnil, hloop, ok_bind]
    exact ⟨_, rfl, hsorted⟩

end Lists

/-! ### Ranks -/

section Ranks

variable {l w : List ℤ}

theorem lt_countP_iff (h : w.Pairwise (· < ·)) {t : ℕ} (ht : t < w.length) (v : ℤ) :
    t < w.countP (fun y => decide (y < v)) ↔ valueAt w t < v := by
  induction w generalizing t with
  | nil => exact absurd ht (Nat.not_lt_zero t)
  | cons a w ih =>
    obtain ⟨ha, hw⟩ := List.pairwise_cons.1 h
    rw [List.length_cons] at ht
    by_cases hav : a < v
    · rw [List.countP_cons_of_pos (p := fun y => decide (y < v)) (decide_eq_true hav)]
      cases t with
      | zero => exact iff_of_true (Nat.succ_pos _) hav
      | succ t =>
        rw [Nat.add_lt_add_iff_right, ih hw (by omega)]
        exact Iff.rfl
    · have hnone : (a :: w).countP (fun y => decide (y < v)) = 0 := by
        refine List.countP_eq_zero.2 fun y hy => ?_
        rw [decide_eq_true_eq]
        rcases List.mem_cons.1 hy with rfl | hy
        · exact hav
        · have := ha y hy
          omega
      rw [hnone]
      refine iff_of_false (Nat.not_lt_zero t) ?_
      cases t with
      | zero => exact hav
      | succ t =>
        have hvalue : valueAt (a :: w) (t + 1 : ℕ) = valueAt w t := rfl
        have := ha _ (List.mem_of_getElem? (getElem?_valueAt (l := w) (p := t) (by omega)))
        omega

theorem countP_lt (h : w.Pairwise (· < ·)) {s : ℕ} {v : ℤ} (hs : w[s]? = some v) :
    w.countP (fun y => decide (y < v)) = s := by
  obtain ⟨hlt, -⟩ := List.getElem?_eq_some_iff.1 hs
  have hv := valueAt_of_getElem? hs
  have hat := lt_countP_iff h hlt v
  cases s with
  | zero => omega
  | succ s =>
    have hbefore := lt_countP_iff h (t := s) (by omega) v
    have hget := List.pairwise_iff_getElem.1 h s (s + 1) (by omega) hlt (Nat.lt_succ_self s)
    rw [← valueAt_of_getElem? (List.getElem?_eq_getElem (by omega : s < w.length)),
      ← valueAt_of_getElem? (List.getElem?_eq_getElem hlt)] at hget
    omega

theorem between_countP (h : w.Pairwise (· < ·)) {v p : ℤ}
    (hp : Between w.length (valueAt w) v p (p + 1)) :
    (if 0 ≤ p ∧ valueAt w p = v then p else p + 1) =
      (w.countP fun y => decide (y < v) : ℕ) := by
  have hbottom := hp.bottom
  have htop := hp.top
  have hcount := List.countP_le_length (p := fun y => decide (y < v)) (l := w)
  split
  · rename_i hboth
    obtain ⟨s, rfl⟩ := Int.eq_ofNat_of_zero_le hboth.1
    have hget := getElem?_valueAt (l := w) (p := s) (by omega)
    rw [hboth.2] at hget
    rw [countP_lt h hget]
  · rename_i hnot
    obtain ⟨s, hs⟩ := Int.eq_ofNat_of_zero_le (by omega : 0 ≤ p + 1)
    have hhigh : s < w.length → ¬ s < w.countP fun y => decide (y < v) := by
      intro hlt
      have hnext := hp.high (by omega)
      rw [hs] at hnext
      rw [lt_countP_iff h hlt]
      omega
    have hlow : ∀ t : ℕ, t + 1 = s → t < w.countP fun y => decide (y < v) := by
      intro t ht
      obtain rfl : p = t := by omega
      rw [lt_countP_iff h (by omega)]
      exact lt_of_le_of_ne (hp.low (by omega)) fun heq => hnot ⟨by omega, heq⟩
    cases s with
    | zero => omega
    | succ s =>
      have := hlow s rfl
      omega

theorem bsearch_countP (h : w.Pairwise (· < ·)) (hpos : 0 < w.length)
    (hlen : w.length ≤ 536870912) (v : ℤ) :
    bsearch v w = .ok (w.countP fun y => decide (y < v) : ℕ) := by
  obtain ⟨p, hp, hsearch⟩ := bsearch_spec hpos hlen v
  rw [hsearch, between_countP h hp]

variable {tmp : List ℤ}

structure Sorted (l tmp : List ℤ) : Prop where
  length_eq : tmp.length = l.length
  ascending : (tmp.map (valueAt l)).Pairwise (· < ·)
  placed : ∀ (t : ℕ) (z : ℤ), tmp[t]? = some z → 0 ≤ z ∧ z < l.length ∧ rank l z = t
  all : ∀ q : ℕ, q < l.length → tmp[rank l q]? = some (q : ℤ)
  values : (tmp.map (valueAt l)).Perm l

theorem sorted_of_perm (hnodup : l.Nodup) (hperm : tmp.Perm ((List.range l.length).map Nat.cast))
    (hordered : tmp.Pairwise fun j k => valueAt l j ≤ valueAt l k) : Sorted l tmp := by
  have hlength : tmp.length = l.length := by
    rw [hperm.length_eq, List.length_map, List.length_range]
  have hinside : ∀ z ∈ tmp, 0 ≤ z ∧ z < l.length := by
    intro z hz
    obtain ⟨q, hq, rfl⟩ := List.mem_map.1 (hperm.mem_iff.1 hz)
    have := List.mem_range.1 hq
    omega
  have htmp : tmp.Nodup :=
    hperm.nodup_iff.2 (List.nodup_range.map Nat.cast_injective)
  have hstrict : (tmp.map (valueAt l)).Pairwise (· < ·) := by
    rw [List.pairwise_map]
    refine (hordered.and htmp).imp_of_mem ?_
    intro j k hj hk hjk
    refine lt_of_le_of_ne hjk.1 fun heq => hjk.2 ?_
    exact valueAt_inj hnodup (hinside j hj).1 (hinside j hj).2 (hinside k hk).1 (hinside k hk).2 heq
  -- the values in order are those of the list
  have hvalues : (tmp.map (valueAt l)).Perm l := by
    have hall : ((List.range l.length).map Nat.cast).map (valueAt l) = l := by
      rw [List.map_map]
      refine List.ext_getElem? fun p => ?_
      rw [List.getElem?_map]
      by_cases hp : p < l.length
      · rw [List.getElem?_range hp, getElem?_valueAt hp]
        rfl
      · rw [List.getElem?_eq_none (by rw [List.length_range]; omega),
          List.getElem?_eq_none (by omega)]
        rfl
    have hmap := hperm.map (valueAt l)
    rwa [hall] at hmap
  have hrank : ∀ (t : ℕ) (z : ℤ), tmp[t]? = some z → rank l z = t := by
    intro t z hz
    rw [rank, ← hvalues.countP_eq]
    refine countP_lt hstrict ?_
    rw [List.getElem?_map, hz]
    rfl
  have hall : ∀ q : ℕ, q < l.length → tmp[rank l q]? = some (q : ℤ) := by
    intro q hq
    have hmem : (q : ℤ) ∈ tmp := hperm.mem_iff.2 (List.mem_map_of_mem (List.mem_range.2 hq))
    obtain ⟨t, ht⟩ := List.mem_iff_getElem?.1 hmem
    rw [hrank t q ht, ht]
  refine ⟨hlength, hstrict, ?_, hall, hvalues⟩
  intro t z hz
  obtain ⟨hz0, hzl⟩ := hinside z (List.mem_of_getElem? hz)
  exact ⟨hz0, hzl, hrank t z hz⟩

end Ranks

/-! ### Both ways -/

variable {dim : Dimension} {left k0 k1 i : ℤ}

theorem limits_spec (h : limits dim = .ok (left, k0, k1)) :
    left ≤ 0 ∧ left ≤ k0 ∧ k1 ≤ dim.axis.length - 1 + left ∧ (dim.window.isSome = false → k0 = 0) := by
  rw [limits] at h
  split at h
  · cases h
    exact ⟨le_refl 0, le_refl 0, by omega, fun _ => rfl⟩
  · rename_i w hw
    obtain ⟨xat0, hfound, h⟩ := bind_eq_ok.1 h
    cases h
    have hpos : 0 < dim.axis.length := by
      by_contra hnot
      rw [bsearch, if_pos (List.length_eq_zero_iff.1 (by omega))] at hfound
      cases hfound
    obtain ⟨p, hp, hsearch⟩ := bsearch_spec hpos dim.length_le w.valueAtIdx0
    have hbottom := hp.bottom
    rw [hsearch] at hfound
    have hxat0 : 0 ≤ xat0 := by
      cases hfound
      split
      · rename_i hboth
        exact hboth.1
      · omega
    refine ⟨by omega, le_max_right _ _, ?_, fun hnone => ?_⟩
    · have := min_le_right (w.endingidx.getD huge) (dim.axis.length + (-xat0 - 1))
      omega
    · rw [hw] at hnone
      cases hnone

theorem sorted_axis (dim : Dimension) : ∃ tmp, sort dim.axis = .ok tmp ∧ Sorted dim.axis tmp ∧
    tmp.mapM (map dim.axis) = .ok (tmp.map (valueAt dim.axis)) := by
  obtain ⟨tmp, hsort, hperm, hordered⟩ := sort_spec dim.length_le
  have hsorted := sorted_of_perm dim.nodup hperm hordered
  refine ⟨tmp, hsort, hsorted, (mapM_eq_ok_iff tmp).2 fun z hz => ?_⟩
  obtain ⟨t, ht⟩ := List.mem_iff_getElem?.1 hz
  obtain ⟨hz0, hzl, -⟩ := hsorted.placed t z ht
  rw [map_eq (by omega), extend, if_neg (by omega), if_neg (by omega)]

theorem iToX_eq (h : limits dim = .ok (left, k0, k1)) (hpos : 0 < dim.axis.length) (i : ℤ) :
    iToX dim i = .ok (valueAt dim.axis (extend 0 (dim.axis.length - 1) (i - k0))) := by
  rw [iToX, h, ok_bind]
  simp only
  split
  · exact map_eq hpos _
  · rename_i hnot
    have hzero : k0 = 0 := by
      by_contra hk0
      refine hk0 ((limits_spec h).2.2.2 ?_)
      exact eq_false_of_ne_true fun hsome => hnot ⟨hk0, hsome⟩
    rw [hzero, sub_zero]
    exact map_eq hpos i

theorem bsearch_sorted {tmp : List ℤ} (hsorted : Sorted dim.axis tmp) (hpos : 0 < dim.axis.length)
    (x : ℤ) : bsearch x (tmp.map (valueAt dim.axis)) =
      .ok (dim.axis.countP fun y => decide (y < x) : ℕ) := by
  have hlength := hsorted.values.length_eq
  rw [bsearch_countP hsorted.ascending (hlength ▸ hpos) (hlength ▸ dim.length_le),
    hsorted.values.countP_eq]

/-- The index of a value is the place whose rank is the number of lesser values, moved by the first
index of the window. -/
theorem xToI_spec (h : limits dim = .ok (left, k0, k1)) (hpos : 0 < dim.axis.length) (x : ℤ) :
    ∃ i, xToI dim x = .ok i ∧ 0 ≤ i ∧ i < dim.axis.length ∧ (rank dim.axis i : ℤ) =
      extend 0 (dim.axis.length - 1) ((dim.axis.countP fun y => decide (y < x) : ℕ) + k0) := by
  obtain ⟨tmp, hsort, hsorted, hmapM⟩ := sorted_axis dim
  rw [xToI, hsort, ok_bind, hmapM, ok_bind, h, ok_bind]
  simp only
  rw [bsearch_sorted hsorted hpos, ok_bind, map_eq (by rw [hsorted.length_eq]; exact hpos),
    hsorted.length_eq]
  have hoffset : ∀ s : ℤ, (if k0 ≠ 0 then s + k0 else s) = s + k0 := by
    intro s
    split <;> omega
  rw [hoffset]
  obtain ⟨hlow, hhigh⟩ := extend_range hpos ((dim.axis.countP fun y => decide (y < x) : ℕ) + k0)
  obtain ⟨t, ht⟩ := Int.eq_ofNat_of_zero_le hlow
  rw [ht] at hhigh ⊢
  have hget := getElem?_valueAt (l := tmp) (p := t) (by rw [hsorted.length_eq]; omega)
  obtain ⟨hz0, hzl, hrank⟩ := hsorted.placed t _ hget
  exact ⟨_, rfl, hz0, hzl, congrArg Nat.cast hrank⟩

theorem rank_inj {i j : ℤ} (hi : 0 ≤ i) (hil : i < dim.axis.length) (hj : 0 ≤ j)
    (hjl : j < dim.axis.length) (h : rank dim.axis i = rank dim.axis j) : i = j := by
  obtain ⟨tmp, -, hsorted, -⟩ := sorted_axis dim
  obtain ⟨a, rfl⟩ := Int.eq_ofNat_of_zero_le hi
  obtain ⟨b, rfl⟩ := Int.eq_ofNat_of_zero_le hj
  have ha := hsorted.all a (by omega)
  rw [h, hsorted.all b (by omega)] at ha
  exact (Option.some.inj ha).symm

theorem xToI_iff (h : limits dim = .ok (left, k0, k1)) {q : ℕ} (hq : q < dim.axis.length) :
    xToI dim (valueAt dim.axis q) = .ok i ↔ 0 ≤ i ∧ i < dim.axis.length ∧
      (rank dim.axis i : ℤ) = extend 0 (dim.axis.length - 1) (rank dim.axis q + k0) := by
  obtain ⟨j, hj, hj0, hjl, hrank⟩ := xToI_spec h (by omega) (valueAt dim.axis q)
  constructor
  · intro hi
    obtain rfl := Except.ok.inj (hj.symm.trans hi)
    exact ⟨hj0, hjl, hrank⟩
  · rintro ⟨hi0, hil, hi⟩
    rw [hj, rank_inj hj0 hjl hi0 hil (Int.ofNat_inj.1 (hrank.trans hi.symm))]

theorem inverse_of_zero (h : limits dim = .ok (left, 0, k1)) :
    (∀ i, 0 ≤ i → i ≤ k1 → ∃ x, iToX dim i = .ok x ∧ xToI dim x = .ok i) ∧
      ∀ (p : ℕ) (x : ℤ), dim.axis[p]? = some x →
        ∃ i, xToI dim x = .ok i ∧ iToX dim i = .ok x := by
  obtain ⟨hleft, -, hright, -⟩ := limits_spec h
  have hplace : ∀ p : ℕ, p < dim.axis.length →
      iToX dim p = .ok (valueAt dim.axis p) ∧ xToI dim (valueAt dim.axis p) = .ok p := by
    intro p hp
    obtain ⟨tmp, -, hsorted, -⟩ := sorted_axis dim
    obtain ⟨hrank, -⟩ := List.getElem?_eq_some_iff.1 (hsorted.all p hp)
    rw [hsorted.length_eq] at hrank
    constructor
    · rw [iToX_eq h (by omega), extend, if_neg (by omega), if_neg (by omega), sub_zero]
    · refine (xToI_iff h hp).2 ⟨by omega, by omega, ?_⟩
      rw [extend, if_neg (by omega), if_neg (by omega), add_zero]
  constructor
  · intro i hi hik
    obtain ⟨p, rfl⟩ := Int.eq_ofNat_of_zero_le hi
    exact ⟨_, hplace p (by omega)⟩
  · intro p x hx
    obtain ⟨hp, -⟩ := List.getElem?_eq_some_iff.1 hx
    rw [← valueAt_of_getElem? hx]
    exact ⟨p, (hplace p hp).2, (hplace p hp).1⟩

theorem extend_pos (hpos : 0 < k0) {l : List ℤ} {p : ℕ} :
    extend 0 (l.length - 1) (rank l p + k0) = min (rank l p + k0) (l.length - 1) := by
  rw [extend, if_neg (by omega)]
  split <;> omega

theorem forth_iff (h : limits dim = .ok (left, k0, k1)) (hpos : 0 < k0) {p : ℕ}
    (hp : p ≤ k1 - k0) :
    (∃ x, iToX dim (p + k0) = .ok x ∧ xToI dim x = .ok (p + k0)) ↔ Moves dim.axis k0 p := by
  obtain ⟨hleft, -, hright, -⟩ := limits_spec h
  have hplace : iToX dim (p + k0) = .ok (valueAt dim.axis p) := by
    rw [iToX_eq h (by omega), add_sub_cancel_right, extend, if_neg (by omega), if_neg (by omega)]
  have hiff := xToI_iff (i := p + k0) h (q := p) (by omega)
  rw [extend_pos hpos] at hiff
  constructor
  · rintro ⟨x, hx, hi⟩
    obtain rfl := Except.ok.inj (hplace.symm.trans hx)
    exact (hiff.1 hi).2
  · exact fun hmoves => ⟨_, hplace, hiff.2 ⟨by omega, hmoves⟩⟩

theorem back_iff (h : limits dim = .ok (left, k0, k1)) (hpos : 0 < k0) {p : ℕ}
    (hp : InWindow left k0 k1 p) :
    (∃ i, xToI dim (valueAt dim.axis p) = .ok i ∧ iToX dim i = .ok (valueAt dim.axis p)) ↔
      Moves dim.axis k0 p := by
  obtain ⟨hleft, -, hright, -⟩ := limits_spec h
  obtain ⟨hlow, hhigh⟩ := hp
  have hlt : p < dim.axis.length := by omega
  constructor
  · rintro ⟨i, hi, hx⟩
    obtain ⟨hi0, hil, hrank⟩ := (xToI_iff h hlt).1 hi
    rw [iToX_eq h (by omega)] at hx
    have hclip : 0 < extend 0 (dim.axis.length - 1) (i - k0) →
        extend 0 (dim.axis.length - 1) (i - k0) = i - k0 := by
      rw [extend]
      split
      · omega
      · rw [if_neg (by omega)]
        omega
    obtain ⟨hclip0, hclipl⟩ := extend_range (l := dim.axis) (by omega) (i - k0)
    have hplace := valueAt_inj dim.nodup hclip0 hclipl (Int.natCast_nonneg p) (by omega)
      (Except.ok.inj hx)
    have hi' : i = p + k0 := by
      have := hclip (by omega)
      omega
    rw [hi', extend_pos hpos] at hrank
    exact ⟨by omega, hrank⟩
  · rintro ⟨hmove, hrank⟩
    refine ⟨p + k0, (xToI_iff h hlt).2 ⟨by omega, hmove, ?_⟩, ?_⟩
    · rw [extend_pos hpos, hrank]
    · rw [iToX_eq h (by omega), add_sub_cancel_right, extend, if_neg (by omega), if_neg (by omega)]

/-- Indices and values are taken to each other exactly if the window begins at index zero, or it is
empty, or its values move by its first index. -/
theorem inverse_iff (dim : Dimension) : Inverse dim ↔ Agrees dim := by
  refine forall_congr' fun left => forall_congr' fun k0 => forall_congr' fun k1 => ?_
  refine imp_congr_right fun h => ?_
  obtain ⟨hleft, hle, hright, -⟩ := limits_spec h
  by_cases hempty : k1 < k0
  · refine iff_of_true ⟨fun i hi hik => by omega, fun p x _ hp => ?_⟩ (Or.inl hempty)
    have := hp.1.trans hp.2
    omega
  rw [or_iff_right hempty]
  rcases lt_trichotomy k0 0 with hneg | rfl | hpos
  · -- the indices of the sort are not negative
    refine iff_of_false ?_ (by omega)
    rintro ⟨hforth, -⟩
    obtain ⟨x, hx, hi⟩ := hforth k0 (le_refl k0) (by omega)
    rw [iToX_eq h (by omega), sub_self, extend, if_neg (lt_irrefl 0), if_neg (by omega)] at hx
    cases hx
    have := ((xToI_iff h (q := 0) (by omega)).1 hi).1
    omega
  · obtain ⟨hforth, hback⟩ := inverse_of_zero h
    exact iff_of_true ⟨hforth, fun p x hx _ => hback p x hx⟩ (Or.inl rfl)
  · rw [or_iff_right (by omega), and_iff_right hpos]
    constructor
    · rintro ⟨hforth, hback⟩ p (hp | hp)
      · exact (forth_iff h hpos hp).1 (hforth _ (by omega) (by omega))
      · have hlt : p < dim.axis.length := by
          have := hp.2
          omega
        exact (back_iff h hpos hp).1 (hback p _ (getElem?_valueAt hlt) hp)
    · intro hmoves
      constructor
      · intro i hi hik
        obtain ⟨p, hp⟩ := Int.eq_ofNat_of_zero_le (by omega : 0 ≤ i - k0)
        obtain rfl : i = p + k0 := by omega
        exact (forth_iff h hpos (by omega)).2 (hmoves p (Or.inl (by omega)))
      · intro p x hx hp
        rw [← valueAt_of_getElem? hx]
        exact (back_iff h hpos hp).2 (hmoves p (Or.inr hp))

/-- The second of three values in order is that at index zero. -/
def threeValues : Dimension where
  axis := [10, 20, 30]
  window := some ⟨none, none, 20⟩
  nodup := by decide
  length_le := by decide

theorem threeValues_not_inverse :
    iToX threeValues (-1) = .ok 10 ∧ xToI threeValues 10 = .ok 0 ∧ ¬ Inverse threeValues := by
  have hx : iToX threeValues (-1) = .ok 10 := rfl
  have hi : xToI threeValues 10 = .ok 0 := rfl
  refine ⟨hx, hi, fun h => ?_⟩
  obtain ⟨x, hx', hi'⟩ := (h (-1) (-1) 1 rfl).1 (-1) (le_refl _) (by omega)
  obtain rfl := Except.ok.inj (hx.symm.trans hx')
  cases hi.symm.trans hi'

end MdsPlus.AxisIndices
