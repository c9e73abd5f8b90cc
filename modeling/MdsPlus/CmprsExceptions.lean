import MdsPlus.CmprsRun
import Mathlib.Data.Nat.Size

/-!
When the exception count of a run is the number of its exceptions. The tally counts a difference
that does not fit a longword as the widest there is, and the scan for exceptions looks at what
is left of it in a longword. The two agree as long as that is wide enough for an exception of the
chosen width, which is the cheapest there is.
-/

namespace MdsPlus.CmprsExceptions

open BitMemory Cmprs CmprsWidths CmprsRun

/-- Each item with the one before it; the first one is compared with 0. -/
def neighbours (items : List Word) : List (Word × Word) := (0 :: items).zip items

/-- The difference of two neighbours as a number. -/
def gap (p : Word × Word) : ℕ := (p.2.toInt - p.1.toInt).natAbs

/-- How many bits the difference needs without its sign; 32 is as many as are counted. -/
def bits (p : Word × Word) : ℕ := min 32 (gap p).size

/-- The width in which all differences fit, with the sign and in a longword. -/
def widest (items : List Word) : ℕ :=
  ((neighbours items).map fun p => min 31 (bits p)).foldr max 0 + 1

/-- What a run takes with normal fields of width `v`: the differences that need more bits than
there are beside the sign go to a field of the full width too. -/
def cost (items : List Word) (v : ℕ) : ℕ :=
  items.length * v +
    (neighbours items).countP (fun p => v ≤ min 31 (bits p)) * widest items

structure Cheapest (items : List Word) (w : ℕ) : Prop where
  pos : 0 < w
  le : w ≤ widest items
  least : ∀ v, 0 < v → v ≤ widest items → cost items w ≤ cost items v
  last : ∀ v, w < v → v ≤ widest items → cost items w < cost items v

/-- What is left of a difference in a longword is an exception of the width, if the difference
does not fit a longword. With fields of the full width there are no exceptions. -/
def Held (w : ℕ) (p : Word × Word) : Prop :=
  if w < 32 then 2 ^ 31 ≤ gap p → 2 ^ (w - 1) ≤ (p.2 - p.1).toInt.natAbs
  else p.2 - p.1 ≠ 0x80000000

/-- The exception count of the run is the number of its exceptions, and the scan finds them in the
run. -/
def Counted (items : List Word) : Prop :=
  let w := chooseWidths items.length (tallyOf (bins 0 items))
  w.xe = (exceptions (markOf w.yn) (differences 0 items)).length ∧
    ∃ r, extract (markOf w.yn) w.xe (differences 0 items) = .ok r

/-! ### The bins of the tally -/

theorem signif_eq (q : ℕ) (hq : q ≤ 64) : signif.getD q 0 = q.size := by
  have h : ∀ q : Fin 65, signif.getD (q : ℕ) 0 = (q : ℕ).size := by decide
  exact h ⟨q, by omega⟩

theorem size_div (delta n : ℕ) (h : 0 < delta / 2 ^ n) : n + (delta / 2 ^ n).size = delta.size := by
  have hsize : (delta / 2 ^ n).size = delta.size - n := by
    apply eq_of_forall_lt_iff
    intro m
    rw [Nat.lt_size, Nat.le_div_iff_mul_le (Nat.two_pow_pos n), ← Nat.pow_add, ← Nat.lt_size]
    omega
  have hpos := Nat.size_pos.mpr h
  omega

theorem narrow_size (k : ℕ) (p : ℕ × ℕ) :
    (narrow (2 ^ k) k p).2 + (narrow (2 ^ k) k p).1.size = p.2 + p.1.size := by
  unfold narrow
  split
  · next hlimit =>
    have hpos : 0 < p.1 / 2 ^ k := Nat.div_pos (Nat.le_of_lt hlimit) (Nat.two_pow_pos k)
    have hsize := size_div p.1 k hpos
    simp only
    omega
  · rfl

theorem significance_eq (delta : ℕ) (h : delta < 2 ^ 31) : significance delta = delta.size := by
  unfold significance
  split
  · next hsmall => exact signif_eq delta hsmall
  · obtain ⟨n, hn, hq, -⟩ := narrowed delta h
    have hsize : (narrow 0x40 6 (narrow 0x1000 12 (narrow 0x1000000 24 (delta, 0)))).2 +
        (narrow 0x40 6 (narrow 0x1000 12 (narrow 0x1000000 24 (delta, 0)))).1.size =
          0 + delta.size := by
      have h6 := narrow_size 6 (narrow 0x1000 12 (narrow 0x1000000 24 (delta, 0)))
      have h12 := narrow_size 12 (narrow 0x1000000 24 (delta, 0))
      have h24 := narrow_size 24 (delta, 0)
      exact h6.trans (h12.trans h24)
    simp only [hn] at hsize ⊢
    rw [signif_eq _ hq, hsize, Nat.zero_add]

theorem toInt_sub_cases (old item : Word) :
    -2 ^ 31 ≤ item.toInt - old.toInt ∧ item.toInt - old.toInt < 2 ^ 31 ∧
        (item - old).toInt = item.toInt - old.toInt ∨
      2 ^ 31 ≤ item.toInt - old.toInt ∧
        (item - old).toInt = item.toInt - old.toInt - 2 ^ 32 ∨
      item.toInt - old.toInt < -2 ^ 31 ∧
        (item - old).toInt = item.toInt - old.toInt + 2 ^ 32 := by
  have h1 := BitVec.le_toInt item
  have h2 := BitVec.toInt_lt (x := item)
  have h3 := BitVec.le_toInt old
  have h4 := BitVec.toInt_lt (x := old)
  have hsub : (item - old).toInt = (item.toInt - old.toInt).bmod (2 ^ 32) := BitVec.toInt_sub
  rw [hsub]
  simp only [Int.bmod_def] at *
  omega

theorem toInt_eq_min (d : Word) : d = 0x80000000 ↔ d.toInt = -2 ^ 31 := by
  have hval : (0x80000000 : Word).toInt = -2 ^ 31 := by decide
  rw [← hval]
  exact BitVec.toInt_inj.symm

theorem binOf_eq (p : Word × Word) : binOf p.1 p.2 = bits p := by
  obtain ⟨old, item⟩ := p
  have h1 := BitVec.le_toInt item
  have h2 := BitVec.toInt_lt (x := item)
  have h3 := BitVec.le_toInt old
  have h4 := BitVec.toInt_lt (x := old)
  have hcases := toInt_sub_cases old item
  have hmin := toInt_eq_min (item - old)
  unfold binOf bits gap
  simp only
  by_cases hflag : item - old = 0x80000000 ∨ (if old.toInt < 0
      then (item - old).toInt < item.toInt else (item - old).toInt > item.toInt)
  · rw [if_pos hflag]
    -- a difference that does not fit, or just fits
    have hlarge : 2 ^ 31 ≤ (item.toInt - old.toInt).natAbs := by
      rw [hmin] at hflag
      split at hflag
      · omega
      · omega
    have hsize : 31 < (item.toInt - old.toInt).natAbs.size := Nat.lt_size.mpr hlarge
    omega
  · rw [if_neg hflag]
    rw [hmin] at hflag
    have hfits : (item - old).toInt = item.toInt - old.toInt ∧
        (item.toInt - old.toInt).natAbs < 2 ^ 31 := by
      split at hflag
      · omega
      · omega
    rw [hfits.1, significance_eq _ hfits.2]
    have hsize : (item.toInt - old.toInt).natAbs.size ≤ 31 := Nat.size_le.mpr hfits.2
    omega

/-! ### The run as its pairs of neighbours -/

theorem differences_zip (old : Word) (items : List Word) :
    differences old items = ((old :: items).zip items).map fun p => p.2 - p.1 := by
  induction items generalizing old with
  | nil => rfl
  | cons item items ih =>
    rw [differences, ih]
    rfl

theorem bins_zip (old : Word) (items : List Word) :
    bins old items = ((old :: items).zip items).map bits := by
  induction items generalizing old with
  | nil => rfl
  | cons item items ih =>
    rw [bins, ih, binOf_eq (old, item)]
    rfl

theorem differences_neighbours (items : List Word) :
    differences 0 items = (neighbours items).map fun p => p.2 - p.1 := differences_zip 0 items

theorem bins_neighbours (items : List Word) :
    bins 0 items = (neighbours items).map bits := bins_zip 0 items

/-! ### The cheapest width -/

theorem drain_mem (ys : List ℕ) (hys : ∀ y ∈ ys, y ≤ 31) (fuel : ℕ) (t : Tally) (y : ℕ)
    (hfuel : fuel + y = 32) (hy : ∃ x ∈ ys, y ≤ x)
    (hrest : ∀ k, y ≤ k → k ≤ 31 → t k = ys.count k) :
    (drain fuel t (ys.countP (fun x => decide (y ≤ x))) y).2 ∈ ys := by
  induction fuel generalizing t y with
  | zero =>
    obtain ⟨x, hx, hyx⟩ := hy
    have := hys x hx
    omega
  | succ fuel ih =>
    obtain ⟨x, hx, hyx⟩ := hy
    have hx31 := hys x hx
    have habove : ys.countP (fun x => decide (y ≤ x)) - t y =
        ys.countP (fun x => decide (y < x)) := by
      rw [countP_le_split, hrest y (Nat.le_refl y) (by omega)]
      omega
    simp only [drain, habove]
    split
    · next hpos =>
      obtain ⟨z, hz, hlt⟩ := List.countP_pos_iff.mp hpos
      have hsucc : ys.countP (fun x => decide (y < x)) =
          ys.countP (fun x => decide (y + 1 ≤ x)) := rfl
      rw [hsucc]
      apply ih _ (y + 1) (by omega) ⟨z, hz, of_decide_eq_true hlt⟩
      intro k hk hk31
      have hne : ¬ k = y := by omega
      simp only [Tally.set, if_neg hne]
      exact hrest k (by omega) hk31
    · next hzero =>
      have hnone : ys.countP (fun x => decide (y < x)) = 0 := by omega
      have hle := List.countP_eq_zero.mp hnone x hx
      have hxy : x = y := by
        have hnot : ¬ y < x := fun h => hle (decide_eq_true h)
        omega
      exact hxy ▸ hx

/-- The search goes on from the largest width of least cost among those it has seen. -/
theorem breakpoint_cheapest (t : Tally) (xn ye : ℕ) (yy best yn : ℕ)
    (hyn : yy ≤ yn) (hpos : 0 < yn) (hye : yn ≤ ye)
    (hbest : best = xn * yn + t (yn - 1) * ye)
    (hleast : ∀ v, yy ≤ v → v ≤ ye → best ≤ xn * v + t (v - 1) * ye)
    (hlast : ∀ v, yn < v → v ≤ ye → best < xn * v + t (v - 1) * ye) :
    let w := breakpoint t xn ye yy best yn
    0 < w ∧ w ≤ ye ∧
      (∀ v, 0 < v → v ≤ ye → xn * w + t (w - 1) * ye ≤ xn * v + t (v - 1) * ye) ∧
      ∀ v, w < v → v ≤ ye → xn * w + t (w - 1) * ye < xn * v + t (v - 1) * ye := by
  induction yy generalizing best yn with
  | zero => exact ⟨hpos, hye, fun v _ hv => hbest ▸ hleast v (Nat.zero_le v) hv, hbest ▸ hlast⟩
  | succ yy ih =>
    cases yy with
    | zero => exact ⟨hpos, hye, fun v hv0 hv => hbest ▸ hleast v hv0 hv, hbest ▸ hlast⟩
    | succ yy =>
      simp only [breakpoint]
      split
      · next htest =>
        apply ih _ _ (Nat.le_refl _) (Nat.succ_pos _) (by omega) rfl
        · intro v hv hvye
          obtain rfl | hlt := Nat.eq_or_lt_of_le hv
          · exact Nat.le_refl _
          · exact Nat.le_trans (Nat.le_of_lt htest) (hleast v hlt hvye)
        · intro v hv hvye
          exact Nat.lt_of_lt_of_le htest (hleast v hv hvye)
      · next htest =>
        apply ih best yn (by omega) hpos hye hbest
        · intro v hv hvye
          obtain rfl | hlt := Nat.eq_or_lt_of_le hv
          · exact Nat.le_of_not_lt htest
          · exact hleast v hlt hvye
        · exact hlast

theorem folded_neighbours (items : List Word) :
    folded (bins 0 items) = (neighbours items).map fun p => min 31 (bits p) := by
  rw [bins_neighbours, folded, List.map_map]
  rfl

theorem le_foldr_max (ys : List ℕ) : ∀ y ∈ ys, y ≤ ys.foldr max 0 := by
  induction ys with
  | nil => rintro _ ⟨⟩
  | cons x ys ih =>
    intro y hy
    obtain rfl | hy := List.mem_cons.mp hy
    · exact Nat.le_max_left _ _
    · exact Nat.le_trans (ih y hy) (Nat.le_max_right _ _)

theorem foldr_max_le {ys : List ℕ} {m : ℕ} (h : ∀ y ∈ ys, y ≤ m) : ys.foldr max 0 ≤ m := by
  induction ys with
  | nil => exact Nat.zero_le m
  | cons x ys ih =>
    exact Nat.max_le.mpr ⟨h x List.mem_cons_self, ih fun y hy => h y (List.mem_cons_of_mem _ hy)⟩

theorem foldr_max_eq {ys : List ℕ} {m : ℕ} (hm : m ∈ ys) (h : ∀ y ∈ ys, y ≤ m) :
    ys.foldr max 0 = m :=
  Nat.le_antisymm (foldr_max_le h) (le_foldr_max ys m hm)

theorem cost_eq (items : List Word) (v : ℕ) (hv : 0 < v) :
    cost items v = items.length * v +
      (folded (bins 0 items)).countP (fun y => decide (v - 1 < y)) * widest items := by
  unfold cost
  rw [folded_neighbours, List.countP_map]
  congr 2
  apply List.countP_congr
  intro p _
  simp only [Function.comp_apply, decide_eq_true_eq]
  omega

theorem chooseWidths_cheapest (items : List Word)
    (hzero : tallyOf (bins 0 items) 0 ≠ items.length) :
    let w := chooseWidths items.length (tallyOf (bins 0 items))
    Cheapest items w.yn ∧
      w.xe = (folded (bins 0 items)).countP (fun y => decide (w.yn - 1 < y)) := by
  have hys := bins_le 0 items
  have hlen := bins_length 0 items
  have hfolded : (folded (bins 0 items)).length = items.length := by
    rw [folded, List.length_map, hlen]
  have hsum : items.length = (folded (bins 0 items)).countP (fun x => decide (0 ≤ x)) := by
    rw [← hfolded, eq_comm, List.countP_eq_length]
    exact fun y _ => decide_eq_true (Nat.zero_le y)
  have hrest : ∀ k, 0 ≤ k → k ≤ 31 →
      ((tallyOf (bins 0 items)).set 31 (tallyOf (bins 0 items) 31 + tallyOf (bins 0 items) 32)) k =
        (folded (bins 0 items)).count k := fun k _ hk => folded_apply _ hys k hk
  have hsome : ∃ x ∈ folded (bins 0 items), 0 ≤ x := by
    cases hitems : folded (bins 0 items) with
    | nil =>
      exfalso
      apply hzero
      rw [hitems, List.length_nil] at hfolded
      rw [tallyOf_apply, List.eq_nil_of_length_eq_zero (hlen.trans hfolded.symm), ← hfolded]
      rfl
    | cons x ys => exact ⟨x, List.mem_cons_self, Nat.zero_le x⟩
  obtain ⟨-, habove, hdrain⟩ := drain_spec (folded (bins 0 items)) (folded_le _) 32 _ 0 rfl
    (by omega) hrest (fun k hk => by omega)
  have hmem := drain_mem (folded (bins 0 items)) (folded_le _) 32 _ 0 rfl hsome hrest
  unfold chooseWidths
  rw [if_neg hzero]
  rw [← hsum] at habove hdrain hmem
  generalize drain 32 ((tallyOf (bins 0 items)).set 31
    (tallyOf (bins 0 items) 31 + tallyOf (bins 0 items) 32)) items.length 0 = r
      at habove hdrain hmem ⊢
  obtain ⟨t, last⟩ := r
  simp only at habove hdrain hmem ⊢
  have hwidest : last + 1 = widest items := by
    unfold widest
    rw [← folded_neighbours, foldr_max_eq hmem habove]
  have hnone : t last = 0 := by
    rw [hdrain last (Nat.le_refl _), List.countP_eq_zero]
    intro y hy hlt
    exact Nat.not_lt.mpr (habove y hy) (of_decide_eq_true hlt)
  have hbest : items.length * (last + 1) =
      items.length * (last + 1) + t (last + 1 - 1) * (last + 1) := by
    rw [Nat.add_sub_cancel, hnone, Nat.zero_mul]
    rfl
  have hsearch := breakpoint_cheapest t items.length (last + 1) (last + 1)
    (items.length * (last + 1)) (last + 1) (Nat.le_refl _) (Nat.succ_pos _) (Nat.le_refl _) hbest
    (fun v hv hv' => by rw [Nat.le_antisymm hv' hv]; exact Nat.le_add_right _ _)
    (fun v hv hv' => by omega)
  obtain ⟨hpos, hle, hleast, hlast⟩ := hsearch
  have hcost : ∀ v, 0 < v → v ≤ last + 1 →
      cost items v = items.length * v + t (v - 1) * (last + 1) := by
    intro v hv hv'
    rw [cost_eq items v hv, ← hwidest, hdrain (v - 1) (by omega)]
  refine ⟨⟨hpos, hwidest ▸ hle, fun v hv hv' => ?_, fun v hv hv' => ?_⟩, hdrain _ (by omega)⟩
  · rw [← hwidest] at hv'
    rw [hcost v hv hv', hcost _ hpos hle]
    exact hleast v hv hv'
  · rw [← hwidest] at hv'
    rw [hcost v (Nat.lt_of_lt_of_le hpos (Nat.le_of_lt hv)) hv', hcost _ hpos hle]
    exact hlast v hv hv'

theorem Cheapest.unique {items : List Word} {v w : ℕ} (hv : Cheapest items v)
    (hw : Cheapest items w) : v = w := by
  obtain hlt | heq | hlt := Nat.lt_trichotomy v w
  · have h1 := hv.last w hlt hw.le
    have h2 := hw.least v hv.pos hv.le
    omega
  · exact heq
  · have h1 := hw.last v hlt hv.le
    have h2 := hv.least w hw.pos hw.le
    omega

/-! ### The exceptions of a run -/

theorem countP_eq_iff {α : Type*} {p q : α → Bool} {l : List α}
    (h : ∀ x ∈ l, q x = true → p x = true) :
    l.countP p = l.countP q ↔ ∀ x ∈ l, p x = true → q x = true := by
  induction l with
  | nil => exact ⟨fun _ x hx => absurd hx List.not_mem_nil, fun _ => rfl⟩
  | cons a l ih =>
    have hl : ∀ x ∈ l, q x = true → p x = true := fun x hx => h x (List.mem_cons_of_mem a hx)
    have hle : l.countP q ≤ l.countP p := List.countP_mono_left hl
    have ha := h a List.mem_cons_self
    rw [List.countP_cons, List.countP_cons, List.forall_mem_cons, ← ih hl]
    cases hp : p a with
    | true =>
      cases hq : q a with
      | true =>
        simp only [if_true, true_implies, true_and]
        omega
      | false =>
        simp only [if_true, Bool.false_eq_true, if_false, true_implies, false_and, iff_false]
        omega
    | false =>
      cases hq : q a with
      | true => exact absurd (hp.symm.trans (ha hq)) nofun
      | false =>
        simp only [Bool.false_eq_true, if_false, false_implies, true_and]
        omega

theorem extract_ok (mark : Word) (diff : List Word) :
    ∃ r, extract mark (exceptions mark diff).length diff = .ok r := by
  induction diff with
  | nil => exact ⟨_, rfl⟩
  | cons d diff ih =>
    obtain ⟨r, hr⟩ := ih
    by_cases hin : inRange mark d = true
    · have hexc : exceptions mark (d :: diff) = exceptions mark diff := by
        unfold exceptions
        rw [List.filter_cons, hin]
        rfl
      rw [hexc]
      cases hlen : (exceptions mark diff).length with
      | zero => exact ⟨_, rfl⟩
      | succ n =>
        rw [hlen] at hr
        rw [extract, if_pos hin, hr]
        exact ⟨_, rfl⟩
    · have hexc : exceptions mark (d :: diff) = d :: exceptions mark diff := by
        unfold exceptions
        rw [List.filter_cons, eq_false_of_ne_true hin]
        rfl
      rw [hexc, List.length_cons, extract, if_neg hin, hr]
      exact ⟨_, rfl⟩

theorem exceptions_neighbours (items : List Word) (yn : ℕ) (hpos : 0 < yn) (hle : yn ≤ 32) :
    (exceptions (markOf yn) (differences 0 items)).length =
      (neighbours items).countP fun p => 2 ^ (yn - 1) ≤ (p.2 - p.1).toInt.natAbs := by
  rw [exceptions, ← List.countP_eq_length_filter, differences_neighbours, List.countP_map]
  apply List.countP_congr
  intro p _
  simp only [Function.comp_apply, inRange_markOf yn hpos hle, Bool.not_eq_true',
    decide_eq_false_iff_not, decide_eq_true_eq]
  omega

theorem widest_le (items : List Word) : widest items ≤ 32 := by
  unfold widest
  apply Nat.succ_le_succ
  apply foldr_max_le
  intro y hy
  obtain ⟨p, -, rfl⟩ := List.mem_map.mp hy
  exact Nat.min_le_left 31 _

/-- The count is right exactly when what is left of the differences that do not fit is an exception
too. -/
theorem counted_width_iff (items : List Word) (yn : ℕ) (hpos : 0 < yn) (hle : yn ≤ 32) :
    (folded (bins 0 items)).countP (fun y => decide (yn - 1 < y)) =
        (exceptions (markOf yn) (differences 0 items)).length ↔
      ∀ p ∈ neighbours items, Held yn p := by
  rw [exceptions_neighbours items yn hpos hle, folded_neighbours, List.countP_map]
  by_cases hlt : yn < 32
  · -- what needs the bits is an exception in so far as it fits
    have hbits : ∀ p, yn - 1 < min 31 (bits p) ↔ 2 ^ (yn - 1) ≤ gap p := by
      intro p
      rw [← Nat.lt_size]
      unfold bits
      omega
    have hfits : ∀ p : Word × Word, gap p < 2 ^ 31 → (p.2 - p.1).toInt.natAbs = gap p := by
      intro p hp
      have hcases := toInt_sub_cases p.1 p.2
      unfold gap at hp ⊢
      omega
    have hpow : 2 ^ (yn - 1) ≤ 2 ^ 31 := Nat.pow_le_pow_right (by omega) (by omega)
    rw [countP_eq_iff]
    · apply forall_congr'
      intro p
      apply imp_congr_right
      intro _
      simp only [Function.comp_apply, decide_eq_true_eq, hbits, Held, if_pos hlt]
      constructor
      · exact fun h hwraps => h (Nat.le_trans hpow hwraps)
      · intro h hneeds
        by_cases hp : gap p < 2 ^ 31
        · rw [hfits p hp]
          exact hneeds
        · exact h (Nat.le_of_not_lt hp)
    · intro p _ h
      simp only [Function.comp_apply, decide_eq_true_eq, hbits] at h ⊢
      by_cases hp : gap p < 2 ^ 31
      · rwa [hfits p hp] at h
      · exact Nat.le_trans hpow (Nat.le_of_not_lt hp)
  · obtain rfl : yn = 32 := by omega
    have hnone : (neighbours items).countP
        ((fun y => decide (32 - 1 < y)) ∘ fun p => min 31 (bits p)) = 0 := by
      rw [List.countP_eq_zero]
      intro p _ h
      have hle := Nat.min_le_left 31 (bits p)
      exact absurd (of_decide_eq_true h) (Nat.not_lt.mpr hle)
    rw [hnone, eq_comm, List.countP_eq_zero]
    apply forall_congr'
    intro p
    apply imp_congr_right
    intro _
    have hbound := toInt_natAbs_le (p.2 - p.1)
    have h2 := BitVec.toInt_lt (x := p.2 - p.1)
    simp only [decide_eq_true_eq, Held, if_neg hlt]
    rw [Ne, toInt_eq_min]
    omega

/-- The exception count of a run is the number of its exceptions exactly when every difference
that does not fit a longword leaves an exception of the cheapest width in it. -/
theorem counted_iff (items : List Word) :
    Counted items ↔ ∃ w, Cheapest items w ∧ ∀ p ∈ neighbours items, Held w p := by
  have hfound : Counted items ↔
      (chooseWidths items.length (tallyOf (bins 0 items))).xe =
        (exceptions (markOf (chooseWidths items.length (tallyOf (bins 0 items))).yn)
          (differences 0 items)).length := by
    refine ⟨fun h => h.1, fun h => ⟨h, ?_⟩⟩
    rw [h]
    exact extract_ok _ _
  rw [hfound]
  by_cases hzero : tallyOf (bins 0 items) 0 = items.length
  · -- no field is needed where all items are 0
    have hbins : ∀ p ∈ neighbours items, bits p = 0 := by
      rw [tallyOf_apply, ← bins_length 0 items, List.count_eq_length, bins_neighbours] at hzero
      intro p hp
      exact (hzero _ (List.mem_map_of_mem hp)).symm
    have hgap : ∀ p ∈ neighbours items, gap p = 0 := by
      intro p hp
      have hsize : (gap p).size ≤ 0 := by
        have hp' := hbins p hp
        unfold bits at hp'
        omega
      have hlt := Nat.size_le.mp hsize
      omega
    have hnone : exceptions (markOf 0) (differences 0 items) = [] := by
      unfold exceptions
      rw [differences_neighbours, List.filter_eq_nil_iff]
      intro d hd
      obtain ⟨p, hp, rfl⟩ := List.mem_map.mp hd
      have hd0 : p.2 - p.1 = 0 := by
        have hcases := toInt_sub_cases p.1 p.2
        have hp' := hgap p hp
        unfold gap at hp'
        apply BitVec.eq_of_toInt_eq
        have h0 : (0 : Word).toInt = 0 := by decide
        omega
      rw [hd0]
      decide
    have hwidths : chooseWidths items.length (tallyOf (bins 0 items)) = ⟨0, 0, 0⟩ := by
      unfold chooseWidths
      rw [if_pos hzero]
    have hwidest : widest items = 1 := by
      unfold widest
      have hle : ((neighbours items).map fun p => min 31 (bits p)).foldr max 0 ≤ 0 := by
        apply foldr_max_le
        intro y hy
        obtain ⟨p, hp, rfl⟩ := List.mem_map.mp hy
        rw [hbins p hp]
        exact Nat.zero_le _
      omega
    rw [hwidths]
    simp only [hnone, List.length_nil, true_iff]
    refine ⟨1, ⟨Nat.one_pos, hwidest.ge, fun v hv hv' => ?_, fun v hv hv' => ?_⟩, fun p hp => ?_⟩
    · obtain rfl : v = 1 := by omega
      exact Nat.le_refl _
    · omega
    · unfold Held
      rw [if_pos (by decide), hgap p hp]
      exact fun h => absurd h (by decide)
  · obtain ⟨hcheapest, hxe⟩ := chooseWidths_cheapest items hzero
    rw [hxe, counted_width_iff items _ hcheapest.pos (hcheapest.le.trans (widest_le items))]
    constructor
    · exact fun h => ⟨_, hcheapest, h⟩
    · rintro ⟨w, hw, h⟩
      rwa [hw.unique hcheapest] at h

/-- The last difference is 1 in a longword and is counted as one of 32 bits. -/
def wrapped : List Word := [1, 1, 1, 1, 1, 0x7fffffff, 0x80000000]

theorem wrapped_not_counted :
    ¬ ∀ items : List Word, 0 < items.length → items.length ≤ MAXX → Counted items := by
  intro hall
  have hcount := (hall wrapped (by decide) (by decide)).1
  exact absurd hcount (by decide)

end MdsPlus.CmprsExceptions
