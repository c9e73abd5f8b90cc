import MdsPlus.Cmprs
import Mathlib.Tactic.Linarith
import Mathlib.Tactic.Ring

/-!
What the width search of a run guarantees. A histogram bin bounds the magnitude
of its difference, the chosen widths leave no difference without a field, and the
exception count is at least the number of differences outside the normal range.
It can be larger: a difference that wraps has the top bin whatever its value.
-/

namespace MdsPlus.CmprsWidths

open BitMemory Pack Cmprs

theorem signif_bound (q : ℕ) (hq : q ≤ 64) :
    q < 2 ^ signif.getD q 0 ∧ signif.getD q 0 ≤ 7 ∧ (q ≤ 1 → signif.getD q 0 ≤ 1) := by
  have h : ∀ q : Fin 65, (q : ℕ) < 2 ^ signif.getD q 0 ∧ signif.getD (q : ℕ) 0 ≤ 7 ∧
      ((q : ℕ) ≤ 1 → signif.getD (q : ℕ) 0 ≤ 1) := by decide
  exact h ⟨q, by omega⟩

theorem narrow_div (limit k delta n : ℕ) :
    narrow limit k (delta / 2 ^ n, n) =
      if delta / 2 ^ n > limit then (delta / 2 ^ (n + k), n + k) else (delta / 2 ^ n, n) := by
  simp only [narrow, Nat.div_div_eq_div_mul, ← Nat.pow_add]

theorem narrowed (delta : ℕ) (h : delta < 2 ^ 31) :
    ∃ n, narrow 0x40 6 (narrow 0x1000 12 (narrow 0x1000000 24 (delta, 0))) =
        (delta / 2 ^ n, n) ∧ delta / 2 ^ n ≤ 64 ∧
      (n ≤ 24 ∨ n = 30 ∧ delta / 2 ^ n ≤ 1) := by
  have h0 : (delta, 0) = (delta / 2 ^ 0, 0) := by simp
  rw [h0, narrow_div]
  split
  · rw [narrow_div, if_neg (by omega), narrow_div]
    split
    · exact ⟨30, rfl, by omega, Or.inr ⟨rfl, by omega⟩⟩
    · exact ⟨24, rfl, by omega, Or.inl (Nat.le_refl 24)⟩
  · rw [narrow_div]
    split
    · rw [narrow_div]
      split
      · exact ⟨18, rfl, by omega, Or.inl (by omega)⟩
      · exact ⟨12, rfl, by omega, Or.inl (by omega)⟩
    · rw [narrow_div]
      split
      · exact ⟨6, rfl, by omega, Or.inl (by omega)⟩
      · exact ⟨0, rfl, by omega, Or.inl (by omega)⟩

theorem significance_bound (delta : ℕ) (h : delta < 2 ^ 31) :
    delta < 2 ^ significance delta ∧ significance delta ≤ 31 := by
  unfold significance
  split
  · rename_i hsmall
    obtain ⟨hlt, hle, _⟩ := signif_bound delta hsmall
    exact ⟨hlt, by omega⟩
  · obtain ⟨n, hn, hq, hcase⟩ := narrowed delta h
    obtain ⟨hlt, hle, hone⟩ := signif_bound (delta / 2 ^ n) hq
    simp only [hn]
    constructor
    · rw [Nat.pow_add, Nat.mul_comm]
      exact (Nat.div_lt_iff_lt_mul (Nat.two_pow_pos n)).mp hlt
    · rcases hcase with hn24 | ⟨hn30, hq1⟩
      · omega
      · have := hone hq1
        omega

theorem toInt_natAbs_le (d : Word) : d.toInt.natAbs ≤ 2 ^ 31 := by
  have h1 := BitVec.le_toInt d
  have h2 := BitVec.toInt_lt (x := d)
  omega

theorem binOf_bound (old item : Word) :
    (item - old).toInt.natAbs < 2 ^ binOf old item ∧ binOf old item ≤ 32 := by
  have hle := toInt_natAbs_le (item - old)
  unfold binOf
  dsimp only
  by_cases hflag : item - old = 0x80000000 ∨ (if old.toInt < 0
      then (item - old).toInt < item.toInt else (item - old).toInt > item.toInt)
  · rw [if_pos hflag]
    exact ⟨by omega, Nat.le_refl 32⟩
  · rw [if_neg hflag]
    have hne : (item - old).toInt.natAbs ≠ 2 ^ 31 := by
      intro heq
      apply hflag
      left
      apply BitVec.eq_of_toInt_eq
      have h2 := BitVec.toInt_lt (x := item - old)
      have hval : (0x80000000 : Word).toInt = -2 ^ 31 := by decide
      omega
    obtain ⟨hlt, h31⟩ := significance_bound _ (by omega : (item - old).toInt.natAbs < 2 ^ 31)
    exact ⟨hlt, by omega⟩

theorem differences_length (old : Word) (items : List Word) :
    (differences old items).length = items.length := by
  induction items generalizing old with
  | nil => rfl
  | cons item items ih => simp [differences, ih]

theorem bins_length (old : Word) (items : List Word) :
    (bins old items).length = items.length := by
  induction items generalizing old with
  | nil => rfl
  | cons item items ih => simp [bins, ih]

theorem bins_le (old : Word) (items : List Word) : ∀ y ∈ bins old items, y ≤ 32 := by
  induction items generalizing old with
  | nil => simp [bins]
  | cons item items ih =>
    intro y hy
    rcases List.mem_cons.mp hy with rfl | hy
    · exact (binOf_bound old item).2
    · exact ih item y hy

theorem differences_bounded (old : Word) (items : List Word) (n : ℕ)
    (h : ∀ y ∈ bins old items, y ≤ n) :
    ∀ d ∈ differences old items, d.toInt.natAbs < 2 ^ n := by
  induction items generalizing old with
  | nil => simp [differences]
  | cons item items ih =>
    intro d hd
    rcases List.mem_cons.mp hd with rfl | hd
    · have hy := h _ (List.mem_cons_self ..)
      exact Nat.lt_of_lt_of_le (binOf_bound old item).1 (Nat.pow_le_pow_right (by omega) hy)
    · exact ih item (fun y hy => h y (List.mem_cons_of_mem _ hy)) d hd

theorem countP_wide_le (old : Word) (items : List Word) (n : ℕ) :
    (differences old items).countP (fun d => decide (2 ^ n ≤ d.toInt.natAbs)) ≤
      (bins old items).countP (fun y => decide (n < y)) := by
  induction items generalizing old with
  | nil => simp [differences, bins]
  | cons item items ih =>
    have hb := (binOf_bound old item).1
    simp only [differences, bins, List.countP_cons, decide_eq_true_eq]
    have hih := ih item
    by_cases hwide : 2 ^ n ≤ (item - old).toInt.natAbs
    · have hlt : n < binOf old item := by
        by_contra hle
        have := Nat.pow_le_pow_right (show 0 < 2 by omega) (Nat.le_of_not_lt hle)
        omega
      rw [if_pos hwide, if_pos hlt]
      omega
    · rw [if_neg hwide]
      omega

theorem foldl_set_apply (ys : List ℕ) (t : Tally) (y : ℕ) :
    ys.foldl (fun t y => t.set y (t y + 1)) t y = t y + ys.count y := by
  induction ys generalizing t with
  | nil => simp
  | cons x ys ih =>
    rw [List.foldl_cons, ih, List.count_cons]
    by_cases hxy : y = x
    · subst hxy
      simp [Tally.set]
      omega
    · have hyx : ¬ x = y := fun h => hxy h.symm
      simp [Tally.set, hxy, hyx]

theorem tallyOf_apply (ys : List ℕ) (y : ℕ) : tallyOf ys y = ys.count y := by
  simp [tallyOf, foldl_set_apply]

/-- The histogram after the 33-bit bin is folded into the 32-bit bin. -/
def folded (ys : List ℕ) : List ℕ := ys.map (min 31)

theorem folded_le (ys : List ℕ) : ∀ y ∈ folded ys, y ≤ 31 := by
  intro y hy
  obtain ⟨x, _, rfl⟩ := List.mem_map.mp hy
  exact Nat.min_le_left 31 x

theorem folded_apply (ys : List ℕ) (hys : ∀ y ∈ ys, y ≤ 32) (y : ℕ) (hy : y ≤ 31) :
    ((tallyOf ys).set 31 (tallyOf ys 31 + tallyOf ys 32)) y = (folded ys).count y := by
  induction ys with
  | nil => by_cases h : y = 31 <;> simp [Tally.set, tallyOf_apply, folded, h]
  | cons x ys ih =>
    have hx := hys x (List.mem_cons_self ..)
    have ih' := ih (fun z hz => hys z (List.mem_cons_of_mem _ hz))
    simp only [Tally.set, tallyOf_apply, folded, List.map_cons, List.count_cons,
      beq_iff_eq] at ih' ⊢
    by_cases h31 : y = 31
    · simp only [h31, if_true] at ih' ⊢
      have hmin : (min 31 x = 31) ↔ (x = 31 ∨ x = 32) := by omega
      by_cases hx31 : x = 31
      · simp [hx31] at *; omega
      · by_cases hx32 : x = 32
        · simp [hx32] at *; omega
        · have : ¬ min 31 x = 31 := by omega
          simp [hx31, hx32, this] at *; omega
    · simp only [h31, if_false] at ih' ⊢
      have hmin : (min 31 x = y) ↔ (x = y) := by omega
      simp only [hmin]
      omega

theorem countP_le_split (ys : List ℕ) (y : ℕ) :
    ys.countP (fun x => decide (y ≤ x)) = ys.count y + ys.countP (fun x => decide (y < x)) := by
  induction ys with
  | nil => rfl
  | cons x ys ih =>
    simp only [List.countP_cons, List.count_cons, ih, decide_eq_true_eq, beq_iff_eq]
    by_cases h1 : x = y
    · simp [h1]; omega
    · by_cases h2 : y < x
      · simp [h1, h2, Nat.le_of_lt h2]; omega
      · simp [h1, h2, show ¬ y ≤ x by omega]

/-- Draining turns each bin into the number of items above it and stops at the
last bin that has items. The array is not left, since no bin exceeds 31. -/
theorem drain_spec (ys : List ℕ) (hys : ∀ y ∈ ys, y ≤ 31) (fuel : ℕ) (t : Tally) (y : ℕ)
    (hfuel : fuel + y = 32) (hy : y ≤ 31)
    (hrest : ∀ k, y ≤ k → k ≤ 31 → t k = ys.count k)
    (hdone : ∀ k, k < y → t k = ys.countP (fun x => decide (k < x))) :
    (drain fuel t (ys.countP (fun x => decide (y ≤ x))) y).2 ≤ 31 ∧
      (∀ x ∈ ys, x ≤ (drain fuel t (ys.countP (fun x => decide (y ≤ x))) y).2) ∧
      ∀ k, k ≤ (drain fuel t (ys.countP (fun x => decide (y ≤ x))) y).2 →
        (drain fuel t (ys.countP (fun x => decide (y ≤ x))) y).1 k =
          ys.countP (fun x => decide (k < x)) := by
  induction fuel generalizing t y with
  | zero => omega
  | succ fuel ih =>
    have habove : ys.countP (fun x => decide (y ≤ x)) - t y =
        ys.countP (fun x => decide (y < x)) := by
      rw [countP_le_split, hrest y (Nat.le_refl y) hy]
      omega
    have hset : ∀ k, k < y + 1 →
        (t.set y (ys.countP (fun x => decide (y < x)))) k =
          ys.countP (fun x => decide (k < x)) := by
      intro k hk
      by_cases hky : k = y
      · subst hky
        simp [Tally.set]
      · simpa [Tally.set, hky] using hdone k (by omega)
    simp only [drain, habove]
    split
    · rename_i hpos
      obtain ⟨x, hx, hlt⟩ := List.countP_pos_iff.mp hpos
      have hx31 := hys x hx
      have hlt' : y < x := by simpa using hlt
      have hsucc : ys.countP (fun x => decide (y < x)) =
          ys.countP (fun x => decide (y + 1 ≤ x)) := rfl
      rw [hsucc]
      apply ih _ (y + 1) (by omega) (by omega)
      · intro k hk hk31
        simpa [Tally.set, show ¬ k = y by omega] using hrest k (by omega) hk31
      · rw [← hsucc]
        exact hset
    · rename_i hzero
      have hnone : ys.countP (fun x => decide (y < x)) = 0 := by omega
      refine ⟨hy, ?_, fun k hk => hset k (by omega)⟩
      intro x hx
      have := List.countP_eq_zero.mp hnone x hx
      simpa using this

theorem breakpoint_spec (t : Tally) (xn ye : ℕ) (yy best yn : ℕ) (hyy : yy ≤ ye)
    (hbest : best ≤ xn * ye)
    (hyn : yn = ye ∨ 0 < yn ∧ yn < ye ∧ xn * yn + t (yn - 1) * ye < xn * ye) :
    breakpoint t xn ye yy best yn = ye ∨
      0 < breakpoint t xn ye yy best yn ∧ breakpoint t xn ye yy best yn < ye ∧
        xn * breakpoint t xn ye yy best yn +
          t (breakpoint t xn ye yy best yn - 1) * ye < xn * ye := by
  induction yy generalizing best yn with
  | zero => simpa [breakpoint] using hyn
  | succ yy ih =>
    cases yy with
    | zero => simpa [breakpoint] using hyn
    | succ yy =>
      simp only [breakpoint]
      split
      · rename_i htest
        exact ih _ _ (by omega) (by omega)
          (Or.inr ⟨by omega, by omega, by simpa using Nat.lt_of_lt_of_le htest hbest⟩)
      · exact ih best yn (by omega) hbest hyn

/-- What a run needs of its widths, in terms of its histogram bins. -/
structure WidthsOk (ys : List ℕ) (w : Widths) : Prop where
  yn_le : w.yn ≤ w.ye
  ye_le : w.ye ≤ 32
  xe_lt : w.xe = 0 ∨ 0 < w.yn ∧ w.yn < w.ye ∧ w.xe < ys.length
  bins_le : ∀ y ∈ ys, min 31 y ≤ w.ye - 1
  zero : w.ye = 0 → ∀ y ∈ ys, y = 0
  count : 0 < w.yn → w.xe = (folded ys).countP (fun y => decide (w.yn - 1 < y))
  yn_pos : w.yn = 0 → w.ye = 0

theorem chooseWidths_ok (ys : List ℕ) (hys : ∀ y ∈ ys, y ≤ 32) :
    WidthsOk ys (chooseWidths ys.length (tallyOf ys)) := by
  unfold chooseWidths
  split
  · rename_i hzero
    rw [tallyOf_apply] at hzero
    have hall : ∀ y ∈ ys, y = 0 := fun y hy => (List.count_eq_length.mp hzero y hy).symm
    exact {
      yn_le := Nat.le_refl 0
      ye_le := Nat.zero_le 32
      xe_lt := Or.inl rfl
      bins_le := fun y hy => by rw [hall y hy]; omega
      zero := fun _ => hall
      count := fun h => absurd h (Nat.lt_irrefl 0)
      yn_pos := fun _ => rfl }
  · have hsum : ys.length = (folded ys).countP (fun x => decide (0 ≤ x)) := by
      simp [folded, List.countP_eq_length.mpr]
    obtain ⟨hlast, habove, hdrain⟩ :=
      drain_spec (folded ys) (folded_le ys) 32
        ((tallyOf ys).set 31 (tallyOf ys 31 + tallyOf ys 32)) 0 rfl (by omega)
        (fun k _ hk => folded_apply ys hys k hk) (fun k hk => by omega)
    rw [← hsum] at hlast habove hdrain
    generalize drain 32 ((tallyOf ys).set 31 (tallyOf ys 31 + tallyOf ys 32)) ys.length 0 = r
      at hlast habove hdrain ⊢
    obtain ⟨t, last⟩ := r
    dsimp only at hlast habove hdrain ⊢
    have hsearch := breakpoint_spec t ys.length (last + 1) (last + 1) (ys.length * (last + 1))
      (last + 1) (Nat.le_refl _) (Nat.le_refl _) (Or.inl rfl)
    generalize breakpoint t ys.length (last + 1) (last + 1) (ys.length * (last + 1)) (last + 1) = yn
      at hsearch ⊢
    have hcount : t (yn - 1) = (folded ys).countP (fun y => decide (yn - 1 < y)) :=
      hdrain (yn - 1) (by omega)
    refine {
      yn_le := by dsimp only; omega
      ye_le := by dsimp only; omega
      xe_lt := ?_
      bins_le := ?_
      zero := by dsimp only; omega
      count := fun _ => hcount
      yn_pos := by dsimp only; omega }
    · dsimp only
      rcases hsearch with rfl | ⟨hpos, hlt, hcost⟩
      · left
        rw [hcount]
        apply List.countP_eq_zero.mpr
        intro x hx
        have := habove x hx
        simp only [decide_eq_true_eq]
        omega
      · right
        refine ⟨hpos, hlt, ?_⟩
        have hmul : t (yn - 1) * (last + 1) < ys.length * (last + 1) := by omega
        exact Nat.lt_of_mul_lt_mul_right hmul
    · intro y hy
      exact habove _ (List.mem_map_of_mem hy)

theorem signExt_of_lt (n : ℕ) (hpos : 0 < n) (hn : n ≤ 32) (d : Word)
    (hlo : -2 ^ (n - 1) ≤ d.toInt) (hhi : d.toInt < 2 ^ (n - 1)) : signExt n d = d := by
  obtain ⟨k, rfl⟩ : ∃ k, n = k + 1 := ⟨n - 1, by omega⟩
  apply BitVec.eq_of_toInt_eq
  rw [signExt, BitVec.toInt_signExtend_of_le hn, BitVec.toInt_setWidth]
  have hval : d.toInt = d.toNat ∨ d.toInt = (d.toNat : ℤ) - 2 ^ 32 := by
    rw [BitVec.toInt_eq_toNat_cond]
    split
    · exact Or.inl rfl
    · exact Or.inr (by simp)
  have hbmod : (d.toNat : ℤ).bmod (2 ^ (k + 1)) = d.toInt.bmod (2 ^ (k + 1)) := by
    rcases hval with h | h
    · rw [h]
    · have hsplit : (2 : ℤ) ^ 32 = ((2 ^ (k + 1) : ℕ) : ℤ) * 2 ^ (31 - k) := by
        push_cast
        rw [← pow_add, show k + 1 + (31 - k) = 32 by omega]
        rfl
      rw [h, hsplit, Int.sub_mul_bmod_self_left]
  rw [hbmod]
  have hdouble : ((2 ^ (k + 1) : ℕ) : ℤ) = 2 * 2 ^ k := by
    push_cast
    ring
  simp only [Nat.add_sub_cancel] at hlo hhi
  exact Int.bmod_eq_of_le_mul_two (by rw [hdouble]; omega) (by rw [hdouble]; omega)

theorem toInt_markOf (yn : ℕ) (hpos : 0 < yn) (hle : yn ≤ 32) :
    (markOf yn).toInt = -2 ^ (yn - 1) := by
  have h : ∀ k : Fin 32, (markOf (k + 1)).toInt = -2 ^ (k : ℕ) := by decide
  obtain ⟨k, rfl⟩ : ∃ k, yn = k + 1 := ⟨yn - 1, by omega⟩
  exact h ⟨k, by omega⟩

end MdsPlus.CmprsWidths
