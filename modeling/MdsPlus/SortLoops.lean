import MdsPlus.ElementOrder
import MdsPlus.Rearrangement

/-!
The loops of the sort by indices. Short parts are sorted by insertion. A long part is divided by
one of its elements: its place is a hole that moves between the two sides until they meet. The
larger side waits on a stack.
-/

namespace MdsPlus.SortLoops

open ElementOrder (Fault)
open Rearrangement

abbrev Indices := ℤ → ℤ

section Loops

/- The comparison of the elements with two indices, and the room for indices. -/
variable (gtr : ℤ → ℤ → Except Fault ℤ) (room : ℤ)

def read (ndx : Indices) (i : ℤ) : Except Fault ℤ :=
  if 0 ≤ i ∧ i < room then .ok (ndx i) else .error .outOfRange

def write (ndx : Indices) (i x : ℤ) : Except Fault Indices :=
  if 0 ≤ i ∧ i < room then .ok (Function.update ndx i x) else .error .outOfRange

/-- Greater elements before a place give way to the index that is kept. -/
def insertion (keep l : ℤ) : ℕ → Indices → Except Fault Indices
  | 0, ndx => write room ndx l keep
  | m + 1, ndx => do
      let x ← read room ndx (l + m)
      let c ← gtr x keep
      if c > 0 then do
        let ndx ← write room ndx (l + m + 1) x
        insertion keep l m ndx
      else write room ndx (l + m + 1) keep

def insertionSort (l r : ℤ) (ndx : Indices) : Except Fault Indices :=
  (List.range (r - l).toNat).foldlM (fun ndx (m : ℕ) => do
    let keep ← read room ndx (l + m + 1)
    insertion gtr room keep l (m + 1) ndx) ndx

/-- The two sides of a part. -/
inductive Side
  | high
  | low

/-- From i on there are places that are not on a side yet. Those with greater elements stick at
the high end, those with lower ones at the low end, and misfits go to the other end. -/
def partition (keep : ℤ) : Side → ℕ → ℤ → Indices → Except Fault (ℤ × Indices)
  | _, 0, i, ndx => .ok (i, ndx)
  | .high, d + 1, i, ndx => do
      let x ← read room ndx (i + d + 1)
      let c ← gtr x keep
      if c > 0 then partition keep .high d i ndx
      else do
        let ndx ← write room ndx i x
        partition keep .low d (i + 1) ndx
  | .low, d + 1, i, ndx => do
      let x ← read room ndx i
      let c ← gtr keep x
      if c > 0 then partition keep .low d (i + 1) ndx
      else do
        let ndx ← write room ndx (i + d + 1) x
        partition keep .high d i ndx

def stackSize : ℕ := 64

def push (stack : List (ℤ × ℤ)) (s : ℤ × ℤ) : Except Fault (List (ℤ × ℤ)) :=
  if 2 * stack.length + 2 ≤ stackSize then .ok (s :: stack) else .error .outOfRange

def random (ran : ℕ) : ℕ := (ran * 211 + 1663) % 7875

/-- A part is divided at the place of one of its elements. -/
def divide (l r : ℤ) (ran : ℕ) (ndx : Indices) : Except Fault (ℤ × Indices) := do
  let i := l + (r - l + 1) * ran / 7875
  let keep ← read room ndx i
  let x ← read room ndx l
  let ndx ← write room ndx i x
  let (i, ndx) ← partition gtr room keep .high (r - l).toNat l ndx
  let ndx ← write room ndx i keep
  .ok (i, ndx)

def sortLoop : ℕ → ℤ → ℤ → List (ℤ × ℤ) → ℕ → Indices → Except Fault Indices
  | 0, _, _, _, _, _ => .error .endless
  | fuel + 1, l, r, stack, ran, ndx =>
      if r - l < 11 then do
        let ndx ← insertionSort gtr room l r ndx
        match stack with
        | [] => .ok ndx
        | (l, r) :: stack => sortLoop fuel l r stack ran ndx
      else do
        let ran := random ran
        let (i, ndx) ← divide gtr room l r ran ndx
        if i - l ≤ r - i then do
          let stack ← push stack (i + 1, r)
          sortLoop fuel l (i - 1) stack ran ndx
        else do
          let stack ← push stack (l, i - 1)
          sortLoop fuel (i + 1) r stack ran ndx

end Loops

/-! ### Insertions -/

def Compares {κ : Type*} [LinearOrder κ] (gtr : ℤ → ℤ → Except Fault ℤ) (n : ℤ) (key : ℤ → κ) :
    Prop :=
  ∀ x y, Inside (0, n - 1) x → Inside (0, n - 1) y →
    ∃ c, gtr x y = .ok c ∧ (0 < c ↔ key y < key x)

def Valid (n : ℤ) (ndx : Indices) : Prop := ∀ i, Inside (0, n - 1) i → Inside (0, n - 1) (ndx i)

section Specs

variable {κ : Type*} [LinearOrder κ] {gtr : ℤ → ℤ → Except Fault ℤ} {n : ℤ} {key : ℤ → κ}
  {ndx : Indices} {keep l : ℤ}

theorem read_ok {i : ℤ} (h : Inside (0, n - 1) i) : read n ndx i = .ok (ndx i) :=
  if_pos ⟨h.1, by have := h.2; omega⟩

theorem write_ok {i x : ℤ} (h : Inside (0, n - 1) i) :
    write n ndx i x = .ok (Function.update ndx i x) :=
  if_pos ⟨h.1, by have := h.2; omega⟩

theorem Valid.update (h : Valid n ndx) {i x : ℤ} (hx : Inside (0, n - 1) x) :
    Valid n (Function.update ndx i x) := by
  intro j hj
  rw [Function.update_apply]
  split
  · exact hx
  · exact h j hj

theorem Valid.rearranged {s : ℤ × ℤ} {ndx' : Indices} (h : Valid n ndx)
    (hndx : Rearranged s ndx ndx') (hs : ∀ i, Inside s i → Inside (0, n - 1) i) :
    Valid n ndx' := by
  intro i hi
  by_cases his : Inside s i
  · obtain ⟨j, hj, hval⟩ := hndx.exists_inside his
    rw [hval]
    exact h j (hs j hj)
  · rw [hndx.outside his]
    exact h i hi

theorem insertion_spec (hgtr : Compares gtr n key) (hkeep : Inside (0, n - 1) keep) (hl : 0 ≤ l)
    {m : ℕ} (hm : l + m < n) (hvalid : Valid n ndx) :
    ∃ ndx', insertion gtr n keep l m ndx = .ok ndx' ∧
      Rearranged (l, l + m) (Function.update ndx (l + m) keep) ndx' ∧
      (OrderedBut (l, l + m - 1) [] (key ∘ ndx) → OrderedBut (l, l + m) [] (key ∘ ndx')) := by
  induction m generalizing ndx with
  | zero =>
    rw [Nat.cast_zero, add_zero] at hm ⊢
    refine ⟨_, write_ok (inside_iff.2 ⟨hl, by omega⟩), .refl _ _, fun _ => ?_⟩
    refine orderedBut_nil.2 fun i j hi hj hij => ?_
    rw [inside_iff] at hi hj
    omega
  | succ m ih =>
    have hlast : l + ((m + 1 : ℕ) : ℤ) = l + m + 1 := by omega
    rw [hlast] at hm ⊢
    have hread : Inside (0, n - 1) (l + m) := inside_iff.2 ⟨by omega, by omega⟩
    have hhole : Inside (0, n - 1) (l + m + 1) := inside_iff.2 ⟨by omega, by omega⟩
    have hplace : Inside (l, l + m + 1) (l + m) := inside_iff.2 ⟨by omega, by omega⟩
    have hplace' : Inside (l, l + m + 1) (l + m + 1) := inside_iff.2 ⟨by omega, by omega⟩
    have hbefore : ∀ i, Inside (l, l + m) i → i ≠ l + m + 1 := fun i hi => by
      rw [inside_iff] at hi
      omega
    obtain ⟨c, hc, hgreater⟩ := hgtr (ndx (l + m)) keep (hvalid _ hread) hkeep
    rw [insertion, read_ok hread]
    simp only [bind, Except.bind, hc, add_sub_cancel_right]
    by_cases hpos : c > 0
    · have hmoved : Valid n (Function.update ndx (l + m + 1) (ndx (l + m))) :=
        hvalid.update (hvalid _ hread)
      obtain ⟨ndx', hrun, hre, hsorted⟩ := ih (by omega) hmoved
      rw [if_pos hpos, write_ok hhole]
      refine ⟨ndx', hrun, ?_, fun hold => ?_⟩
      · refine (Rearranged.move hplace' hplace ndx keep).trans (hre.mono fun i hi => ?_)
        rw [inside_iff] at hi ⊢
        omega
      · have hshifted : ndx' (l + m + 1) = ndx (l + m) := by
          have hout : ¬ Inside (l, l + m) (l + m + 1) := fun h => hbefore _ h rfl
          rw [hre.outside hout, Function.update_of_ne (by omega), Function.update_self]
        refine (hsorted ?_).extend fun i hi => ?_
        · refine orderedBut_nil.2 fun i j hi hj hij => ?_
          rw [inside_iff] at hi hj
          simp only [Function.comp_apply, Function.update_of_ne (show i ≠ l + m + 1 by omega),
            Function.update_of_ne (show j ≠ l + m + 1 by omega)]
          exact orderedBut_nil.1 hold i j (inside_iff.2 ⟨hi.1, by omega⟩)
            (inside_iff.2 ⟨hj.1, by omega⟩) hij
        · -- it is the kept one, which is less, or one of those that were in order
          obtain ⟨j, hj, hval⟩ := hre.exists_inside hi
          rw [Function.comp_apply, Function.comp_apply, hval, hshifted]
          by_cases hjm : j = l + m
          · rw [hjm, Function.update_self]
            exact le_of_lt (hgreater.1 hpos)
          · rw [Function.update_of_ne hjm, Function.update_of_ne (hbefore j hj)]
            exact hold.le_last hj
    · rw [if_neg hpos, write_ok hhole]
      refine ⟨_, rfl, .refl _ _, fun hold => OrderedBut.extend (hold.congr fun i hi => ?_)
        fun i hi => ?_⟩
      · rw [Function.comp_apply, Function.comp_apply, Function.update_of_ne (hbefore i hi)]
      · rw [Function.comp_apply, Function.comp_apply, Function.update_of_ne (hbefore i hi),
          Function.update_self]
        exact (hold.le_last hi).trans (not_lt.1 fun hlt => hpos (hgreater.2 hlt))

theorem insertionSort_spec (hgtr : Compares gtr n key) {r : ℤ}
    (hpart : ∀ i, Inside (l, r) i → Inside (0, n - 1) i) (hvalid : Valid n ndx) :
    ∃ ndx', insertionSort gtr n l r ndx = .ok ndx' ∧ Rearranged (l, r) ndx ndx' ∧
      OrderedBut (l, r) [] (key ∘ ndx') := by
  have hrun : ∀ k : ℕ, l + k ≤ max l r → ∃ ndx',
      (List.range k).foldlM (fun ndx (m : ℕ) => do
        let keep ← read n ndx (l + m + 1)
        insertion gtr n keep l (m + 1) ndx) ndx = .ok ndx' ∧
      Rearranged (l, r) ndx ndx' ∧ OrderedBut (l, l + k) [] (key ∘ ndx') := by
    intro k hk
    induction k with
    | zero =>
      refine ⟨ndx, rfl, .refl _ _, orderedBut_nil.2 fun i j hi hj hij => ?_⟩
      rw [inside_iff] at hi hj
      omega
    | succ k ih =>
      obtain ⟨ndx₁, hrun, hre, hsorted⟩ := ih (by omega)
      have hlr : l + k + 1 ≤ r := by omega
      have hfirst := inside_iff.1 (hpart l (inside_iff.2 ⟨le_rfl, by omega⟩))
      have hplace := hpart (l + k + 1) (inside_iff.2 ⟨by omega, hlr⟩)
      have hvalid₁ := hvalid.rearranged hre hpart
      have hlast : l + ((k + 1 : ℕ) : ℤ) = l + k + 1 := by omega
      obtain ⟨ndx₂, hinsert, hre', hsorted'⟩ := insertion_spec (l := l) (m := k + 1) hgtr
        (hvalid₁ _ hplace) hfirst.1 (by rw [hlast]; have := (inside_iff.1 hplace).2; omega) hvalid₁
      rw [hlast] at hre' hsorted' ⊢
      rw [Function.update_eq_self] at hre'
      refine ⟨ndx₂, ?_, hre.trans (hre'.mono fun i hi => ?_), hsorted' ?_⟩
      · rw [List.range_succ, List.foldlM_append, hrun]
        simp only [List.foldlM_cons, List.foldlM_nil, bind, Except.bind, read_ok hplace, hinsert]
        rfl
      · rw [inside_iff] at hi ⊢
        omega
      · rwa [add_sub_cancel_right]
  obtain ⟨ndx', hsort, hre, hsorted⟩ := hrun (r - l).toNat (by omega)
  refine ⟨ndx', hsort, hre, orderedBut_nil.2 fun i j hi hj hij => ?_⟩
  rw [inside_iff] at hi hj
  exact orderedBut_nil.1 hsorted i j (inside_iff.2 ⟨hi.1, by omega⟩)
    (inside_iff.2 ⟨hj.1, by omega⟩) hij

structure Sides (key : ℤ → κ) (keep : ℤ) (s : ℤ × ℤ) (i j : ℤ) (ndx : Indices) : Prop where
  low : ∀ k, s.1 ≤ k → k < i → key (ndx k) ≤ key keep
  high : ∀ k, j < k → k ≤ s.2 → key keep ≤ key (ndx k)

def hole : Side → ℕ → ℤ → ℤ
  | .high, _, i => i
  | .low, d, i => i + d

theorem partition_spec (side : Side) (hgtr : Compares gtr n key) (hkeep : Inside (0, n - 1) keep)
    {s : ℤ × ℤ} (hpart : ∀ i, Inside s i → Inside (0, n - 1) i) {d : ℕ} {i : ℤ}
    (hi : s.1 ≤ i) (hd : i + d ≤ s.2) (hvalid : Valid n ndx)
    (hsides : Sides key keep s i (i + d) ndx) :
    ∃ p ndx', partition gtr n keep side d i ndx = .ok (p, ndx') ∧ Inside s p ∧
      Rearranged s (Function.update ndx (hole side d i) keep) (Function.update ndx' p keep) ∧
      Sides key keep s p p ndx' := by
  induction d generalizing side i ndx with
  | zero =>
    rw [Nat.cast_zero, add_zero] at hd hsides
    have hhole : hole side 0 i = i := by cases side <;> simp [hole]
    refine ⟨i, ndx, by rw [partition], ⟨hi, hd⟩, ?_, hsides⟩
    rw [hhole]
    exact .refl _ _
  | succ d ih =>
    have hlast : i + ((d + 1 : ℕ) : ℤ) = i + d + 1 := by omega
    rw [hlast] at hd hsides
    have hfirst : Inside s i := ⟨hi, by omega⟩
    have hend : Inside s (i + d + 1) := ⟨by omega, hd⟩
    cases side with
    | high =>
      obtain ⟨c, hc, hgreater⟩ := hgtr (ndx (i + d + 1)) keep (hvalid _ (hpart _ hend)) hkeep
      rw [partition, read_ok (hpart _ hend)]
      simp only [bind, Except.bind, hc]
      by_cases hpos : c > 0
      · rw [if_pos hpos]
        refine ih .high hi (by omega) hvalid ⟨hsides.low, fun k hk hkr => ?_⟩
        by_cases hkd : k = i + d + 1
        · rw [hkd]
          exact le_of_lt (hgreater.1 hpos)
        · exact hsides.high k (by omega) hkr
      · rw [if_neg hpos, write_ok (hpart _ hfirst)]
        have hmoved : Sides key keep s (i + 1) (i + 1 + d)
            (Function.update ndx i (ndx (i + d + 1))) := by
          refine ⟨fun k hk hki => ?_, fun k hk hkr => ?_⟩
          · by_cases heq : k = i
            · rw [heq, Function.update_self]
              exact not_lt.1 fun hlt => hpos (hgreater.2 hlt)
            · rw [Function.update_of_ne heq]
              exact hsides.low k hk (by omega)
          · rw [Function.update_of_ne (by omega)]
            exact hsides.high k (by omega) hkr
        obtain ⟨p, ndx', hrun, hp, hre, hsides'⟩ := ih .low (by omega) (by omega)
          (hvalid.update (hvalid _ (hpart _ hend))) hmoved
        rw [hole, show i + 1 + (d : ℤ) = i + d + 1 by omega] at hre
        exact ⟨p, ndx', hrun, hp, (Rearranged.move hfirst hend ndx keep).trans hre, hsides'⟩
    | low =>
      obtain ⟨c, hc, hgreater⟩ := hgtr keep (ndx i) hkeep (hvalid _ (hpart _ hfirst))
      rw [partition, read_ok (hpart _ hfirst)]
      simp only [bind, Except.bind, hc]
      by_cases hpos : c > 0
      · rw [if_pos hpos]
        have hpassed : Sides key keep s (i + 1) (i + 1 + d) ndx := by
          refine ⟨fun k hk hki => ?_, fun k hk hkr => hsides.high k (by omega) hkr⟩
          by_cases heq : k = i
          · rw [heq]
            exact le_of_lt (hgreater.1 hpos)
          · exact hsides.low k hk (by omega)
        obtain ⟨p, ndx', hrun, hp, hre, hsides'⟩ := ih .low (by omega) (by omega) hvalid
          hpassed
        rw [hole, show i + 1 + (d : ℤ) = i + d + 1 by omega] at hre
        refine ⟨p, ndx', hrun, hp, ?_, hsides'⟩
        rwa [hole, hlast]
      · rw [if_neg hpos, write_ok (hpart _ hend)]
        have hmoved : Sides key keep s i (i + d) (Function.update ndx (i + d + 1) (ndx i)) := by
          refine ⟨fun k hk hki => ?_, fun k hk hkr => ?_⟩
          · rw [Function.update_of_ne (by omega)]
            exact hsides.low k hk hki
          · by_cases hkd : k = i + d + 1
            · rw [hkd, Function.update_self]
              exact not_lt.1 fun hlt => hpos (hgreater.2 hlt)
            · rw [Function.update_of_ne hkd]
              exact hsides.high k (by omega) hkr
        obtain ⟨p, ndx', hrun, hp, hre, hsides'⟩ := ih .high hi (by omega)
          (hvalid.update (hvalid _ (hpart _ hfirst))) hmoved
        refine ⟨p, ndx', hrun, hp, ?_, hsides'⟩
        rw [hole, hlast]
        exact (Rearranged.move hend hfirst ndx keep).trans hre

theorem random_lt (ran : ℕ) : random ran < 7875 := Nat.mod_lt _ (by decide)

theorem pivot_inside {r : ℤ} (hlr : l ≤ r) {ran : ℕ} (hran : ran < 7875) :
    Inside (l, r) (l + (r - l + 1) * ran / 7875) := by
  have hnonneg : 0 ≤ (r - l + 1) * (ran : ℤ) := Int.mul_nonneg (by omega) (by omega)
  have hlt : (r - l + 1) * (ran : ℤ) < (r - l + 1) * 7875 :=
    Int.mul_lt_mul_of_pos_left (by omega) (by omega)
  rw [inside_iff]
  omega

theorem divide_spec (hgtr : Compares gtr n key) {r : ℤ} (hlr : l ≤ r) {ran : ℕ}
    (hran : ran < 7875) (hpart : ∀ i, Inside (l, r) i → Inside (0, n - 1) i)
    (hvalid : Valid n ndx) :
    ∃ i ndx', divide gtr n l r ran ndx = .ok (i, ndx') ∧ Inside (l, r) i ∧
      Rearranged (l, r) ndx ndx' ∧
      OrderedBut (l, r) [(l, i - 1), (i + 1, r)] (key ∘ ndx') := by
  have hpivot := pivot_inside hlr hran
  have hfirst : Inside (l, r) l := inside_iff.2 ⟨le_rfl, hlr⟩
  generalize hp : l + (r - l + 1) * (ran : ℤ) / 7875 = p at hpivot
  have hmoved : Valid n (Function.update ndx p (ndx l)) :=
    hvalid.update (hvalid _ (hpart _ hfirst))
  have hsides : Sides key (ndx p) (l, r) l (l + (r - l).toNat)
      (Function.update ndx p (ndx l)) :=
    ⟨fun k hk hkl => absurd hk (by simp only; omega),
      fun k hk hkr => absurd hkr (by simp only; omega)⟩
  obtain ⟨i, ndx', hrun, hi, hre, hsides⟩ := partition_spec .high (s := (l, r))
    (d := (r - l).toNat) (i := l) hgtr (hvalid _ (hpart _ hpivot)) hpart le_rfl
    (by simp only; omega) hmoved hsides
  have hmove := Rearranged.move hpivot hfirst ndx (ndx p)
  rw [Function.update_eq_self] at hmove
  refine ⟨i, Function.update ndx' i (ndx p), ?_, hi, hmove.trans hre, ?_⟩
  · rw [divide, hp]
    simp only [bind, Except.bind, read_ok (hpart _ hpivot), read_ok (hpart _ hfirst),
      write_ok (hpart _ hpivot), hrun, write_ok (hpart _ hi)]
  · have hlow : ∀ k, l ≤ k → k ≤ i → key (Function.update ndx' i (ndx p) k) ≤ key (ndx p) := by
      intro k hk hki
      by_cases heq : k = i
      · rw [heq, Function.update_self]
      · rw [Function.update_of_ne heq]
        exact hsides.low k hk (by omega)
    have hhigh : ∀ k, i ≤ k → k ≤ r → key (ndx p) ≤ key (Function.update ndx' i (ndx p) k) := by
      intro k hk hkr
      by_cases heq : k = i
      · rw [heq, Function.update_self]
      · rw [Function.update_of_ne heq]
        exact hsides.high k (by omega) hkr
    intro a b ha hb hab
    rw [inside_iff] at ha hb
    by_cases hbi : b < i
    · exact Or.inl ⟨(l, i - 1), by simp, inside_iff.2 ⟨ha.1, by omega⟩,
        inside_iff.2 ⟨hb.1, by omega⟩⟩
    · by_cases hai : i < a
      · exact Or.inl ⟨(i + 1, r), by simp, inside_iff.2 ⟨by omega, ha.2⟩,
          inside_iff.2 ⟨by omega, hb.2⟩⟩
      · exact Or.inr ((hlow a ha.1 (not_lt.1 hai)).trans (hhigh b (not_lt.1 hbi) hb.2))

/-! ### The stack -/

def size (s : ℤ × ℤ) : ℕ := (s.2 - s.1 + 1).toNat

/-- Each part is at most half of the one that waits below it. -/
def Halved (n : ℤ) : List (ℤ × ℤ) → Prop
  | [] => True
  | s :: rest => (size s : ℤ) * 2 ^ rest.length ≤ n ∧ Halved n rest

/-- What is left to do: the part at hand comes first. -/
structure Pending (key : ℤ → κ) (n : ℤ) (parts : List (ℤ × ℤ)) (ndx : Indices) : Prop where
  ordered : OrderedBut (0, n - 1) parts (key ∘ ndx)
  apart : Apart parts
  whole : ∀ s ∈ parts, ∀ i, Inside s i → Inside (0, n - 1) i
  halved : Halved n parts
  valid : Valid n ndx

def work (parts : List (ℤ × ℤ)) : ℕ := (parts.map fun s => 2 * size s + 1).sum

variable {parts : List (ℤ × ℤ)} {s t : ℤ × ℤ}

theorem push_ok (hn : n < 2147483648) (hs : Halved n (s :: parts)) (hsize : 12 ≤ size s) :
    push parts t = .ok (t :: parts) := by
  refine if_pos ?_
  have hstack : stackSize = 64 := rfl
  have hlt : (2 : ℤ) ^ parts.length < 2 ^ 28 := by
    have hpos : (0 : ℤ) < 2 ^ parts.length := by positivity
    have hbound := hs.1
    nlinarith
  have hlen : parts.length < 28 := (pow_lt_pow_iff_right₀ (by norm_num)).1 hlt
  omega

theorem Pending.sorted (h : Pending key n (s :: parts) ndx) {ndx' : Indices}
    (hre : Rearranged s ndx ndx') (hsorted : OrderedBut s [] (key ∘ ndx')) :
    Pending key n parts ndx' where
  ordered := h.ordered.split (h.whole s List.mem_cons_self) (List.pairwise_cons.1 h.apart).1
    (hre.comp key) hsorted
  apart := (List.pairwise_cons.1 h.apart).2
  whole t ht := h.whole t (List.mem_cons_of_mem s ht)
  halved := h.halved.2
  valid := h.valid.rearranged hre (h.whole s List.mem_cons_self)

theorem Pending.divided {l r i : ℤ} {small large : ℤ × ℤ} (h : Pending key n ((l, r) :: parts) ndx)
    {ndx' : Indices} (hi : Inside (l, r) i) (hre : Rearranged (l, r) ndx ndx')
    (hordered : OrderedBut (l, r) [small, large] (key ∘ ndx'))
    (hsides : small = (l, i - 1) ∧ large = (i + 1, r) ∨ small = (i + 1, r) ∧ large = (l, i - 1))
    (hsmall : size small ≤ size large) : Pending key n (small :: large :: parts) ndx' := by
  have hbounds := inside_iff.1 hi
  have hsizes : size small + size large + 1 = size (l, r) := by
    rcases hsides with ⟨rfl, rfl⟩ | ⟨rfl, rfl⟩ <;> simp only [size] <;> omega
  have hsub : ∀ k, Inside small k ∨ Inside large k → Inside (l, r) k := by
    intro k hk
    rcases hsides with ⟨rfl, rfl⟩ | ⟨rfl, rfl⟩ <;> simp only [inside_iff] at hk ⊢ <;> omega
  have hdisjoint : ∀ k, Inside small k → ¬ Inside large k := by
    intro k hk hk'
    rcases hsides with ⟨rfl, rfl⟩ | ⟨rfl, rfl⟩ <;> simp only [inside_iff] at hk hk' <;> omega
  obtain ⟨happart, hrest⟩ := List.pairwise_cons.1 h.apart
  have hwhole := h.whole (l, r) List.mem_cons_self
  refine ⟨?_, ?_, ?_, ⟨?_, ?_, h.halved.2⟩, h.valid.rearranged hre hwhole⟩
  · exact h.ordered.split hwhole happart (hre.comp key) hordered
  · refine List.pairwise_cons.2 ⟨fun t ht k hk hkt => ?_, List.pairwise_cons.2 ⟨?_, hrest⟩⟩
    · rcases List.mem_cons.1 ht with rfl | ht
      · exact hdisjoint k hk hkt
      · exact happart t ht k (hsub k (Or.inl hk)) hkt
    · exact fun t ht k hk => happart t ht k (hsub k (Or.inr hk))
  · intro t ht k hk
    rcases List.mem_cons.1 ht with rfl | ht
    · exact hwhole k (hsub k (Or.inl hk))
    · rcases List.mem_cons.1 ht with rfl | ht
      · exact hwhole k (hsub k (Or.inr hk))
      · exact h.whole t (List.mem_cons_of_mem _ ht) k hk
  · have hbound := h.halved.1
    have hpos : (0 : ℤ) < 2 ^ parts.length := by positivity
    rw [List.length_cons, pow_succ]
    have hdouble : (size small : ℤ) * 2 ≤ size (l, r) := by omega
    calc (size small : ℤ) * (2 ^ parts.length * 2)
      _ = size small * 2 * 2 ^ parts.length := by ring
      _ ≤ size (l, r) * 2 ^ parts.length := Int.mul_le_mul_of_nonneg_right hdouble hpos.le
      _ ≤ n := hbound
  · have hpos : (0 : ℤ) < 2 ^ parts.length := by positivity
    have hle : (size large : ℤ) ≤ size (l, r) := by omega
    exact (Int.mul_le_mul_of_nonneg_right hle hpos.le).trans h.halved.1

theorem sortLoop_spec (fuel ran : ℕ) (hgtr : Compares gtr n key) (hn : n < 2147483648) {l r : ℤ}
    {stack : List (ℤ × ℤ)} (h : Pending key n ((l, r) :: stack) ndx)
    (hfuel : work ((l, r) :: stack) < fuel) :
    ∃ ndx', sortLoop gtr n fuel l r stack ran ndx = .ok ndx' ∧ Rearranged (0, n - 1) ndx ndx' ∧
      OrderedBut (0, n - 1) [] (key ∘ ndx') := by
  induction fuel generalizing l r stack ran ndx with
  | zero => exact absurd hfuel (Nat.not_lt_zero _)
  | succ fuel ih =>
    have hpart := h.whole (l, r) List.mem_cons_self
    rw [work, List.map_cons, List.sum_cons] at hfuel
    rw [sortLoop]
    by_cases hshort : r - l < 11
    · obtain ⟨ndx₁, hrun, hre, hsorted⟩ := insertionSort_spec hgtr hpart h.valid
      have hpending := h.sorted hre hsorted
      rw [if_pos hshort]
      simp only [bind, Except.bind, hrun]
      cases stack with
      | nil => exact ⟨ndx₁, rfl, hre.mono hpart, hpending.ordered⟩
      | cons s stack =>
        obtain ⟨l', r'⟩ := s
        obtain ⟨ndx', hrest, hre', hordered⟩ := ih ran hpending (by rw [work]; omega)
        exact ⟨ndx', hrest, (hre.mono hpart).trans hre', hordered⟩
    · have hlong : 12 ≤ size (l, r) := by
        simp only [size]
        omega
      obtain ⟨i, ndx₁, hrun, hi, hre, hordered⟩ := divide_spec hgtr (by omega) (random_lt ran) hpart
        h.valid
      rw [if_neg hshort]
      simp only [bind, Except.bind, hrun]
      by_cases hleft : i - l ≤ r - i
      · have hpending := h.divided hi hre hordered (Or.inl ⟨rfl, rfl⟩) (by simp only [size]; omega)
        obtain ⟨ndx', hrest, hre', hordered'⟩ := ih (random ran) hpending (by
          have hbounds := inside_iff.1 hi
          simp only [work, List.map_cons, List.sum_cons, size] at hfuel ⊢
          omega)
        rw [if_pos hleft, push_ok hn h.halved hlong]
        exact ⟨ndx', hrest, (hre.mono hpart).trans hre', hordered'⟩
      · have hswap : OrderedBut (l, r) [(i + 1, r), (l, i - 1)] (key ∘ ndx₁) := by
          intro a b ha hb hab
          refine (hordered a b ha hb hab).imp_left ?_
          rintro ⟨t, ht, hboth⟩
          exact ⟨t, by simpa [or_comm] using ht, hboth⟩
        have hpending := h.divided hi hre hswap (Or.inr ⟨rfl, rfl⟩) (by simp only [size]; omega)
        obtain ⟨ndx', hrest, hre', hordered'⟩ := ih (random ran) hpending (by
          have hbounds := inside_iff.1 hi
          simp only [work, List.map_cons, List.sum_cons, size] at hfuel ⊢
          omega)
        rw [if_neg hleft, push_ok hn h.halved hlong]
        exact ⟨ndx', hrest, (hre.mono hpart).trans hre', hordered'⟩

/-! ### All indices -/

variable {m : ℕ} {ndx' : Indices}

theorem listing_sorted (hstart : ∀ i : ℤ, 0 ≤ i → i < m → ndx i = i)
    (hre : Rearranged (0, (m : ℤ) - 1) ndx ndx')
    (hordered : OrderedBut (0, (m : ℤ) - 1) [] (key ∘ ndx')) :
    ((List.range m).map fun k : ℕ => ndx' k).Perm ((List.range m).map Nat.cast) ∧
      ((List.range m).map fun k : ℕ => ndx' k).Pairwise fun j k => key j ≤ key k := by
  have hplace : ∀ k : ℕ, k < m ↔ Inside (0, (m : ℤ) - 1) k := fun k => by
    rw [inside_iff]
    omega
  obtain ⟨σ, hσ, rfl⟩ := hre
  have hinside : ∀ i, Inside (0, (m : ℤ) - 1) (σ i) ↔ Inside (0, (m : ℤ) - 1) i := by
    intro i
    constructor
    · intro hi
      by_contra hout
      rw [hσ i hout] at hi
      exact hout hi
    · intro hi
      by_contra hout
      have hfix := σ.injective (hσ (σ i) hout)
      rw [hfix] at hout
      exact hout hi
  have hval : ∀ i, Inside (0, (m : ℤ) - 1) i → (ndx ∘ σ) i = σ i := fun i hi => by
    have hmem := inside_iff.1 ((hinside i).2 hi)
    exact hstart _ hmem.1 (by omega)
  constructor
  · refine (List.perm_ext_iff_of_nodup ?_ (List.nodup_range.map Nat.cast_injective)).2 fun z => ?_
    · refine (List.nodup_map_iff_inj_on List.nodup_range).2 fun j hj k hk hjk => ?_
      have hj' := (hplace j).1 (List.mem_range.1 hj)
      have hk' := (hplace k).1 (List.mem_range.1 hk)
      rw [hval j hj', hval k hk'] at hjk
      exact Nat.cast_injective (σ.injective hjk)
    · simp only [List.mem_map, List.mem_range]
      constructor
      · rintro ⟨k, hk, rfl⟩
        have hmem := inside_iff.1 ((hinside k).2 ((hplace k).1 hk))
        refine ⟨(σ k).toNat, by omega, ?_⟩
        rw [hval k ((hplace k).1 hk)]
        omega
      · rintro ⟨k, hk, rfl⟩
        obtain ⟨i, hi⟩ := σ.surjective k
        have hmem : Inside (0, (m : ℤ) - 1) i := (hinside i).1 (hi ▸ (hplace k).1 hk)
        have hbounds := inside_iff.1 hmem
        have hcast : ((i.toNat : ℕ) : ℤ) = i := by omega
        refine ⟨i.toNat, by omega, ?_⟩
        rw [hcast, hval i hmem, hi]
  · rw [List.pairwise_map]
    refine List.pairwise_lt_range.imp_of_mem fun {j k} hj hk hjk => ?_
    rw [List.mem_range] at hj hk
    exact orderedBut_nil.1 hordered j k ((hplace j).1 hj) ((hplace k).1 hk) (by omega)

theorem sortLoop_sorts (hgtr : Compares gtr m key) (hpos : 0 < m) (hm : m < 2147483648)
    (hstart : ∀ i : ℤ, 0 ≤ i → i < m → ndx i = i) :
    ∃ ndx', sortLoop gtr m (2 * m + 2) 0 (m - 1) [] 0 ndx = .ok ndx' ∧
      ((List.range m).map fun k : ℕ => ndx' k).Perm ((List.range m).map Nat.cast) ∧
      ((List.range m).map fun k : ℕ => ndx' k).Pairwise fun j k => key j ≤ key k := by
  have hpending : Pending key m [(0, (m : ℤ) - 1)] ndx := by
    refine ⟨fun i j hi hj _ => Or.inl ⟨_, List.mem_singleton_self _, hi, hj⟩,
      List.pairwise_singleton _ _, fun s hs => ?_, ⟨?_, trivial⟩, fun i hi => ?_⟩
    · rw [List.mem_singleton.1 hs]
      exact fun i hi => hi
    · simp only [size, List.length_nil, pow_zero]
      omega
    · have hbounds := inside_iff.1 hi
      rw [hstart i hbounds.1 (by omega)]
      exact hi
  have hwork : work [(0, (m : ℤ) - 1)] < 2 * m + 2 := by
    simp only [work, List.map_cons, List.map_nil, List.sum_cons, List.sum_nil, size]
    omega
  obtain ⟨ndx', hloop, hre, hordered⟩ := sortLoop_spec (2 * m + 2) 0 hgtr
    (by omega) hpending hwork
  exact ⟨ndx', hloop, listing_sorted hstart hre hordered⟩

end Specs

end MdsPlus.SortLoops
