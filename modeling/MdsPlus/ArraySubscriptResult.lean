import MdsPlus.ArraySubscriptRuns

/-!
The result of subscripts: the elements in range, in the order of the subscripts, in an array whose
extents are the numbers of subscripts that are left, up to the last dimension that has not
just one scalar. The conditions are on products that are formed as ints and on sizes that are kept
in words.
-/

namespace MdsPlus.ArraySubscriptResult

open ArrayDescriptors ArrayLayout ArraySubscript ArraySubscriptRuns Odometer

def Result.pins : Result → List ℤ
  | .scalar pin => [pin]
  | .array _ _ pins => pins

def rank (x : ArrayDesc) (list : List Subscript) : ℕ := rankOf (isArray x list) x.dimct

def header (x : ArrayDesc) (list : List Subscript) : ℕ :=
  dscSize (resultDesc (rank x list) 0 []) (count x list x.dimct * x.length) x.length x.text

/-- Nothing overflows: the subscripts can be evaluated, the products of subscripts with strides
that give the first element and those of the first row are ints, and so are those from one row
to another and the size in bytes of the subscripts of a row; the result with its descriptor has
a size of one word; and elements of a single dimension have some bytes. -/
structure Fits (x : ArrayDesc) (list : List Subscript) : Prop extends ScanFits x list where
  row : rank x list ≠ 0 → count x list x.dimct ≠ 0 → 4 * (selected x list 0).length ≤ 2147483647
  row_products : rank x list ≠ 0 → count x list x.dimct ≠ 0 →
    ∀ i ∈ selected x list 0, IsInt (x.length * i)
  moves : count x list x.dimct ≠ 0 → ∀ j, 0 < j → j < rank x list →
    MovesFit (weight x j) (selected x list j)
  result : rank x list ≠ 0 → count x list x.dimct ≠ 0 → count x list x.dimct < 4294967296 ∧
    header x list + count x list x.dimct * x.length < 4294967296
  bytes : rank x list = 1 → count x list x.dimct ≠ 0 → 0 < x.length

/-- The elements selected, one after another, read from the data of the array and written to
memory of the result, which has the extents of the subscripts selected. -/
structure Right (x : ArrayDesc) (list : List Subscript) (block : ℤ) (r : Result) : Prop where
  elements : Result.pins r =
    (choices ((List.range x.dimct).map (selected x list))).map (address x)
  inside : ∀ pin ∈ Result.pins r, x.pointer ≤ pin ∧ pin + x.length ≤ x.pointer + x.arsize
  form : match r with
    | .scalar _ => rank x list = 0
    | .array dsc size pins => rank x list ≠ 0 ∧ dsc.length = x.length ∧
        shape dsc = (List.range (rank x list)).map (fun j => (selected x list j).length) ∧
        dsc.pointer - block + pins.length * x.length ≤ size

variable {x : ArrayDesc} {list : List Subscript}

theorem rankOf_le (kept : ℕ → Bool) (n : ℕ) : rankOf kept n ≤ n := by
  induction n with
  | zero => exact Nat.le_refl _
  | succ n ih =>
    unfold rankOf
    split
    · exact Nat.le_refl _
    · exact Nat.le_succ_of_le ih

theorem not_kept {kept : ℕ → Bool} {n j : ℕ} (hj : j < n) (hrank : rankOf kept n ≤ j) :
    kept j = false := by
  induction n with
  | zero => cases hj
  | succ n ih =>
    unfold rankOf at hrank
    split at hrank
    · omega
    · next hkept =>
      obtain rfl | hlt := Nat.eq_or_lt_of_le (Nat.le_of_lt_succ hj)
      · exact Bool.eq_false_iff.mpr hkept
      · exact ih hlt hrank

theorem selected_singleton {j : ℕ} (h : isArray x list j = false) :
    selected x list j = [(selected x list j).headD 0] := by
  unfold isArray at h
  unfold selected
  revert h
  cases list.getD j .missing with
  | scalar i =>
    intro h
    have hi : inRange x j i = true := by
      cases hr : inRange x j i with
      | true => rfl
      | false =>
        dsimp only at h
        rw [hr] at h
        cases h
    have hfilter : [i].filter (inRange x j) = [i] := by simp [hi]
    change [i].filter (inRange x j) = [([i].filter (inRange x j)).headD 0]
    rw [hfilter]
    rfl
  | _ =>
    intro h
    cases h

theorem dimensions_eq {r : ℕ} (hrank : rank x list = r + 1) (g : List ℤ → ℕ → List ℤ)
    (hg : ∀ i j, g [i] j = [(g [i] j).headD 0]) :
    (List.range x.dimct).map (fun j => g (selected x list j) j) =
      g (selected x list 0) 0 ::
        ((List.range r).map (fun j => g (selected x list (j + 1)) (j + 1)) ++
          ((List.range (x.dimct - (r + 1))).map fun j =>
            (g (selected x list (r + 1 + j)) (r + 1 + j)).headD 0).map fun v => [v]) := by
  have hle : r + 1 ≤ x.dimct := by
    rw [← hrank]
    exact rankOf_le _ _
  have hsplit : x.dimct = (r + 1) + (x.dimct - (r + 1)) := by omega
  conv_lhs => rw [hsplit]
  rw [List.range_add, List.map_append, List.range_succ_eq_map, List.map_cons, List.cons_append,
    List.map_map, List.map_map, List.map_map]
  congr 2
  apply List.map_congr_left
  intro j hj
  have hlt := List.mem_range.mp hj
  have hkept : isArray x list (r + 1 + j) = false := by
    apply not_kept (n := x.dimct) (by omega)
    change rank x list ≤ _
    omega
  simp only [Function.comp]
  rw [selected_singleton hkept]
  exact hg _ _

theorem wellFormed_getD (hsub : ∀ sub ∈ list, WellFormed sub) (j : ℕ) :
    WellFormed (list.getD j .missing) := by
  rw [List.getD_eq_getElem?_getD]
  cases hget : list[j]? with
  | none => exact trivial
  | some sub => exact hsub sub (List.mem_of_getElem? hget)

theorem scanned_zero : Scanned x list 0 ⟨origin x, 1, 0, []⟩ where
  px := rfl
  highest := rfl
  arsize := rfl
  pin _ _ := (Int.add_zero _).symm

def digits (x : ArrayDesc) (list : List Subscript) (r : ℕ) : List ArraySubscript.Digit :=
  (List.range r).map fun j => ⟨weight x (j + 1), selected x list (j + 1), 0⟩

theorem selected_of_rank_zero (hrank : rank x list = 0) {j : ℕ} (hj : j < x.dimct) :
    selected x list j = [(selected x list j).headD 0] := by
  apply selected_singleton
  apply not_kept hj
  change rank x list ≤ j
  omega

theorem count_of_rank_zero (hrank : rank x list = 0) : count x list x.dimct = 1 := by
  unfold count
  apply List.prod_eq_one
  intro k hk
  obtain ⟨j, hj, rfl⟩ := List.mem_map.mp hk
  rw [selected_of_rank_zero hrank (List.mem_range.mp hj)]
  rfl

theorem scalar_pin (hrank : rank x list = 0) {s : Scan} (hs : Scanned x list x.dimct s) :
    s.pin = origin x + firsts x list x.dimct := by
  have hone := count_of_rank_zero hrank
  apply hs.pin
  · rw [hone]
    exact Nat.one_ne_zero
  · rw [hone]
    decide

theorem shape_eq {r : ℕ} (hrank : rank x list = r + 1) {dsc : ArrayDesc}
    {px : List (List ℤ)} (hpx : px = (List.range x.dimct).map (selected x list))
    (hshape : shape dsc = if rank x list > 1 then
        (List.range (rank x list)).map fun j => (px.getD j []).length
      else [count x list x.dimct]) :
    shape dsc = (List.range (rank x list)).map fun j => (selected x list j).length := by
  have hle : r + 1 ≤ x.dimct := by
    rw [← hrank]
    exact rankOf_le _ _
  rw [hshape]
  split
  · apply List.map_congr_left
    intro j hj
    have hlt := List.mem_range.mp hj
    rw [hpx, List.getD_eq_getElem?_getD, List.getElem?_map,
      List.getElem?_range (show j < x.dimct by omega)]
    rfl
  · have hone : r = 0 := by omega
    subst hone
    rw [hrank]
    have hdims := dimensions_eq hrank (fun l _ => l) fun i j => rfl
    have hlength : count x list x.dimct = (selected x list 0).length := by
      have hprod := congrArg (fun ls : List (List ℤ) => (ls.map List.length).prod) hdims
      simp only [List.map_map, List.range_zero, List.map_nil, List.nil_append, List.map_cons,
        List.prod_cons] at hprod
      change count x list x.dimct = _ at hprod
      rw [hprod]
      have hones : (((List.range (x.dimct - (0 + 1))).map
          (List.length ∘ (fun v : ℤ => [v]) ∘ fun j =>
            (selected x list (0 + 1 + j)).headD 0))).prod = 1 := by
        apply List.prod_eq_one
        intro k hk
        obtain ⟨j, -, rfl⟩ := List.mem_map.mp hk
        rfl
      rw [hones, Nat.mul_one]
    rw [hlength]
    rfl

/-- The part of Tdi1Subscript for an array, after the scan of the dimensions. -/
def arrayPart (x : ArrayDesc) (s : Scan) (block : ℤ) : Except Failure Result :=
  let (dsc, size) := mdsGet1DxA (resultDesc s.highest s.arsize s.px) x.length x.text block
  if s.arsize = 0 then .ok (.array dsc size [])
  else
    let px := s.px.headD []
    let ds := (List.range (s.highest - 1)).map fun j =>
      (⟨stride x (j + 1), s.px.getD (j + 1) [], 0⟩ : ArraySubscript.Digit)
    let fuel := (s.px.map List.length).prod
    (int (x.length * px.headD 0)).bind fun first =>
      (copies x.length px fuel (s.pin - first) ds).map fun pins => .array dsc size pins

theorem tdi1Subscript_scanned (h : Shaped x) (hlist : list.length ≤ x.dimct)
    (hsub : ∀ sub ∈ list, WellFormed sub) (hfits : ScanFits x list) (block : ℤ) :
    ∃ s, Scanned x list x.dimct s ∧ tdi1Subscript x list block =
      if rank x list = 0 then .ok (.scalar s.pin) else arrayPart x s block := by
  have hdim : ¬ x.dimct > maxDims := by
    have := h.rank_le
    omega
  obtain ⟨s, hscan, hs⟩ := scan_eq h hfits (wellFormed_getD hsub) (Nat.zero_add _) scanned_zero
  refine ⟨s, hs, ?_⟩
  unfold tdi1Subscript
  rw [if_neg hdim, if_neg (by omega)]
  change (scan x list x.dimct 0 ⟨origin x, 1, 0, []⟩).bind _ = _
  rw [hscan]
  change (if s.highest = 0 then _ else _) = _
  rw [hs.highest]
  unfold arrayPart
  rw [hs.highest]
  rfl

def line : ArrayDesc where
  length := 4
  text := false
  pointer := 1000
  coeff := false
  bounds := false
  dimct := 1
  arsize := 12
  a0 := 0
  m := fun _ => 0

theorem line_consistent : Consistent line where
  rank_pos := Nat.zero_lt_one
  rank_le := by decide
  length_lt := by decide
  plain _ := ⟨rfl, rfl⟩
  extent_nonneg j _ := Int.natCast_nonneg _
  extent_lt j _ := by
    change ((12 / 4 : ℕ) : ℤ) < _
    decide
  size := by decide
  bounds_int hbounds := by cases hbounds
  span hbounds := by cases hbounds
  a0_eq hbounds := by cases hbounds

end MdsPlus.ArraySubscriptResult
