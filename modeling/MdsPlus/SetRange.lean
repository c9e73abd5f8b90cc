import MdsPlus.ArrayDescriptors

/-!
SET_RANGE. The new extents and bounds are put into a descriptor without data, with a0 and a
pointer whose difference MdsGet1DxA carries over to the array it makes.
-/

namespace MdsPlus.SetRange

open ArrayDescriptors

/-- One of the new ranges: an argument that is omitted, a number of elements, or a range with its
ends, or with a step as well. -/
inductive NewRange
  | omitted
  | size (n : ℤ)
  | range (begin ending : Option ℤ)
  | triad
deriving DecidableEq

def defaultEnds (pa : ArrayDesc) (dimct j : ℕ) : Except Failure (ℤ × ℤ) :=
  let lo := if pa.coeff ∧ pa.bounds then toInt (pa.m (dimct + 2 * j)) else 0
  if pa.coeff then .ok (lo, toInt (pa.m j - 1 + lo))
  else if pa.length = 0 then .error .undefined
  else
    (int (Int.tdiv (toInt pa.arsize) pa.length - 1)).bind fun last =>
      (int (last + lo)).map fun hi => (lo, hi)

def defaultHigh (pa : ArrayDesc) (j : ℕ) (lo : ℤ) : Except Failure (ℤ × ℤ) :=
  if pa.coeff then .ok (lo, toInt (pa.m j - 1 + lo))
  else if pa.length = 0 then .error .undefined
  else
    (int (Int.tdiv (toInt pa.arsize) pa.length - 1)).bind fun last =>
      (int (last + lo)).map fun hi => (lo, hi)

def defaultLow (pa : ArrayDesc) (j : ℕ) (hi : ℤ) : Except Failure (ℤ × ℤ) :=
  (int (hi + 1)).bind fun next =>
    if pa.coeff then .ok (toInt (next - pa.m j), hi)
    else if pa.length = 0 then .error .undefined
    else (int (next - Int.tdiv (toInt pa.arsize) pa.length)).map fun lo => (lo, hi)

def newEnds (pa : ArrayDesc) (dimct j : ℕ) (new : NewRange) : Except Failure (ℤ × ℤ) :=
  let ndim := if pa.coeff then pa.dimct else 1
  match new with
  | .size n => (int (n - 1)).map fun hi => (0, hi)
  | .triad => .error .invDtyDsc
  | .range (some lo) (some hi) => .ok (lo, hi)
  | .omitted | .range none none =>
      if j ≥ ndim then .error .invDtyDsc else defaultEnds pa dimct j
  | .range (some lo) none => if j ≥ ndim then .error .invDtyDsc else defaultHigh pa j lo
  | .range none (some hi) => if j ≥ ndim then .error .invDtyDsc else defaultLow pa j hi

def putEnds (pa : ArrayDesc) (j : ℕ) (lo hi extent : ℤ) (arr : ArrayDesc) : ArrayDesc :=
  { arr with
    bounds := if lo ≠ 0 then true else arr.bounds
    a0 := if lo ≠ 0 then pa.pointer else arr.a0
    pointer := if lo ≠ 0 then pa.pointer + lo else arr.pointer
    m := Function.update (Function.update (Function.update arr.m (arr.dimct + 2 * j) lo)
      (arr.dimct + 2 * j + 1) hi) j (extent % 4294967296)
    arsize := ((arr.arsize : ℤ) * extent % 4294967296).toNat }

def setDim (pa : ArrayDesc) (j : ℕ) (new : NewRange) (arr : ArrayDesc) :
    Except Failure ArrayDesc :=
  (newEnds pa arr.dimct j new).bind fun ends =>
    (int (ends.2 - ends.1)).bind fun span =>
      (int (span + 1)).map fun extent => putEnds pa j ends.1 ends.2 extent arr

def setDims (pa : ArrayDesc) : List NewRange → ℕ → ArrayDesc → Except Failure ArrayDesc
  | [], _, arr => .ok arr
  | new :: list, j, arr => (setDim pa j new arr).bind fun arr => setDims pa list (j + 1) arr

def arr0 (dimct : ℕ) : ArrayDesc where
  length := 1
  text := false
  pointer := 0
  coeff := false
  bounds := false
  dimct := dimct
  arsize := 1
  a0 := 0
  m := fun _ => 0

def tdi1SetRange (pa : ArrayDesc) (list : List NewRange) (block : ℤ) : Except Failure ArrayDesc :=
  (setDims pa list 0 (arr0 list.length)).map fun arr =>
    (mdsGet1DxA { arr with coeff := decide (list.length > 1) || arr.bounds } pa.length pa.text
      block).1

/-- TdiConvert of an array to one of the same type and size copies its bytes. -/
def tdiConvert (data : ℤ → BitVec 8) (pa out : ArrayDesc) : ℤ → BitVec 8 := fun a =>
  if out.pointer ≤ a ∧ a < out.pointer + min pa.arsize out.arsize then
    data (pa.pointer + (a - out.pointer))
  else data a

end MdsPlus.SetRange
