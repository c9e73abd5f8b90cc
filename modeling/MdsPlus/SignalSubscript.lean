import MdsPlus.AxisIndices

/-!
Subscripts of a signal. Each dimension culls the values of its subscript, takes them to indices and
these back to values of its axis, which the copied signal gets as its dimension.
-/

namespace MdsPlus.SignalSubscript

open AxisIndices
open ElementOrder (Fault)
open Mapping (extend)
open Outcome TableSearch

structure Signal where
  dims : List (Option Dimension)
  nonempty : ∀ dim, some dim ∈ dims → dim.axis ≠ []

/-- Values that a subscript has been evaluated to, if it is given. -/
abbrev Subscript := Option (List ℤ)

/-! ### One dimension -/

/-- Tdi1Bsearch of several values: each search begins where the last one ended. -/
def searchFrom (table : List ℤ) : ℤ → List ℤ → Except Fault (List ℤ)
  | _, [] => .ok []
  | lo, v :: vs => do
      let lo ← find (gtr table v) table.length (table.length + 2) lo
      let rest ← searchFrom table lo vs
      .ok ((if 0 ≤ lo ∧ valueAt table lo = v then lo else lo + 1) :: rest)

def bsearchList (vs table : List ℤ) : Except Fault (List ℤ) :=
  if vs = [] then .ok []
  else if table = [] then .error .nullPtr
  else searchFrom table (-2) vs

def xToIList (dim : Dimension) (xs : List ℤ) : Except Fault (List ℤ) := do
  let tmp ← sort dim.axis
  let window ← tmp.mapM (map dim.axis)
  let (_, k0, _) ← limits dim
  let out ← bsearchList xs window
  out.mapM fun s => map tmp (if k0 ≠ 0 then s + k0 else s)

def iToXList (dim : Dimension) (is : List ℤ) : Except Fault (List ℤ) := do
  let (_, k0, _) ← limits dim
  is.mapM fun i => if k0 ≠ 0 ∧ dim.window.isSome then map dim.axis (i - k0) else map dim.axis i

def readValue (l : List ℤ) (i : ℤ) : Except Fault ℤ :=
  if 0 ≤ i ∧ i < l.length then .ok (valueAt l i) else .error .outOfRange

/-- I_TO_X of TdiItoXSpecial: the first value in order, and one as far from it as the ends of the
window are from each other. -/
def special (dim : Dimension) : Except Fault (ℤ × ℤ) := do
  let tmp ← sort dim.axis
  let window ← tmp.mapM (map dim.axis)
  let (_, k0, k1) ← limits dim
  let low ← readValue window 0
  let high ← readValue window (k1 - k0)
  .ok (low, high)

def cull (dim : Dimension) : Subscript → Except Fault (List ℤ)
  | none => .ok dim.axis
  | some xs => do
      let (low, high) ← special dim
      .ok (xs.filter fun x => low ≤ x ∧ x ≤ high)

def start (dim : Dimension) : ℤ := (dim.window.bind Window.startidx).getD 0

def selected (dim : Dimension) (sub : Subscript) : Except Fault (List ℤ × List ℤ) := do
  let xs ← cull dim sub
  let is ← xToIList dim xs
  let values ← iToXList dim is
  .ok (is.map fun i => i - start dim, values)

/-! ### The signal -/

def selectedAll : List (Option Dimension) → List Subscript →
    Except Fault (List (Option (List ℤ × List ℤ)))
  | [], _ => .ok []
  | none :: dims, subs => do
      let rest ← selectedAll dims subs.tail
      .ok (none :: rest)
  | some dim :: dims, subs => do
      let part ← selected dim (subs.headD none)
      let rest ← selectedAll dims subs.tail
      .ok (some part :: rest)

def highdim : ℕ → List (Option Dimension) → ℕ → ℕ
  | _, [], h => h
  | dim, none :: dims, h => highdim (dim + 1) dims h
  | dim, some _ :: dims, _ => highdim (dim + 1) dims (dim + 1)

/-- The indices of the data for each dimension that is kept, and the dimensions. -/
structure Result where
  places : List (Option (List ℤ))
  dims : List (Option (List ℤ))

/-- Tdi1Subscript, as far as dimensions are concerned. As many dimensions are stored as the signal
has descriptors, its data and raw data among them. -/
def tdi1Subscript (sig : Signal) (subs : List Subscript) : Except Fault Result := do
  let parts ← selectedAll sig.dims subs
  let h := highdim 0 sig.dims 0
  let ndesc := if sig.dims.length + 2 > h + 2 then h + 2 else sig.dims.length + 2
  if ndesc ≤ sig.dims.length then
    .ok ⟨(parts.take h).map fun p => p.map Prod.fst, (parts.take h).map fun p => p.map Prod.snd⟩
  else .error .outOfRange

/-! ### What it should give -/

def RightPart (dim : Dimension) (places values : List ℤ) : Prop :=
  (∀ p ∈ places, 0 ≤ p ∧ p < dim.axis.length) ∧ values = places.map (valueAt dim.axis)

def Right (sig : Signal) (subs : List Subscript) : Prop :=
  ∃ r, tdi1Subscript sig subs = .ok r ∧ ∀ (d : ℕ) (dim : Dimension), sig.dims[d]? = some (some dim) →
    ∃ places values, r.places[d]? = some (some places) ∧ r.dims[d]? = some (some values) ∧
      RightPart dim places values

def below (l : List ℤ) (x : ℤ) : ℕ := l.countP fun y => decide (y < x)

/-- The values that are left of a subscript: none less than all of the axis, and none with more
values below it than the window is wide. -/
def Kept (dim : Dimension) (width : ℤ) : Subscript → ℤ → Prop
  | none, x => x ∈ dim.axis
  | some xs, x => x ∈ xs ∧ (∃ y ∈ dim.axis, y ≤ x) ∧ below dim.axis x ≤ width

/-- A window with a subscript is not empty. The place of a value, by the number of values below it,
goes to the same place less the first index of the window as less the start index. -/
def Aligned (dim : Dimension) (sub : Subscript) : Prop :=
  ∀ left k0 k1, limits dim = .ok (left, k0, k1) → (sub = none ∨ k0 ≤ k1) ∧
    ∀ x, Kept dim (k1 - k0) sub x → ∀ p : ℕ, p < dim.axis.length →
      (rank dim.axis p : ℤ) = extend 0 (dim.axis.length - 1) (below dim.axis x + k0) →
        extend 0 (dim.axis.length - 1) (p - k0) = p - start dim

/-- The last two dimensions are missing, and the others are aligned. -/
structure Fits (sig : Signal) (subs : List Subscript) : Prop where
  slots : highdim 0 sig.dims 0 + 2 ≤ sig.dims.length
  aligned : ∀ (d : ℕ) (dim : Dimension), sig.dims[d]? = some (some dim) →
    Aligned dim (subs.getD d none)

/-! ### Searches -/

variable {dim : Dimension} {sub : Subscript} {w xs : List ℤ} {left k0 k1 : ℤ}

variable {dims : List (Option Dimension)} {subs : List Subscript}

def pair : Signal where
  dims := [some ⟨[5, 7], none, by decide, by decide⟩]
  nonempty dim h := by
    obtain rfl := Option.some.inj (List.mem_singleton.1 h)
    exact List.cons_ne_nil 5 [7]

end MdsPlus.SignalSubscript
