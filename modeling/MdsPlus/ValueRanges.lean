import MdsPlus.ElementOrder
import MdsPlus.NewArrays
import MdsPlus.Outcome
import Mathlib.Algebra.BigOperators.Ring.List

/-!
Ranges of integers from a begin to an end in steps. How many values there are is told by the
difference of the ends, which wraps in their type, divided by the step; then the values are filled
in and counted apart from that.
-/

namespace MdsPlus.ValueRanges

open ArrayDescriptors (ArrayDesc IsInt toInt dscSize)
open ElementOrder NewArrays

def bytesOf (d : Dtype) : ℕ := d.size.getD 0

/-- The numbers that a type of so many bytes tells apart. -/
def modulus (d : Dtype) : ℤ := 256 ^ bytesOf d

/-- A number in a type, as arithmetic in it leaves it. -/
def narrow (d : Dtype) (z : ℤ) : ℤ :=
  if d.signed then Int.bmod z (256 ^ bytesOf d) else z % modulus d

/-- A number in the signed type of at least four bytes that a number of the type is joined in with
a long. -/
def widen (d : Dtype) (z : ℤ) : ℤ := Int.bmod z (256 ^ max (bytesOf d) 4)

/-- TdiDivide: a quotient of ints that is no int is not defined. -/
def divide (d : Dtype) (n s : ℤ) : Except Fault ℤ :=
  if s = 0 then .ok 0
  else if (d = .l ∨ d = .q) ∧ 2 * n = -modulus d ∧ s = -1 then .error .overflow
  else .ok (narrow d (Int.tdiv n s))

/-- The number of values of one range: LONG(DIM((end - begin) / delta, -1)). -/
def nelem (d : Dtype) (begin ending : ℤ) (delta : Option ℤ) : Except Fault ℤ := do
  let n := narrow d (ending - begin)
  let n ← match delta with
    | none => .ok n
    | some s => divide d n s
  .ok (toInt (max (widen d (widen d n + 1)) 0))

inductive Operand
  | scalar (v : ℤ)
  | vector (list : List ℤ)

def Operand.entry : Operand → ℕ → ℤ
  | .scalar v, _ => v
  | .vector list, j => list.getD j 0

def Operand.count : Operand → Option ℕ
  | .scalar _ => none
  | .vector list => some list.length

/-- The number of elements that two arguments have together. -/
def smaller : Option ℕ → Option ℕ → Option ℕ
  | none, n => n
  | m, none => m
  | some m, some n => some (min m n)

def nseg (begin ending : Operand) (delta : Option Operand) : ℕ :=
  (smaller (smaller ending.count begin.count) (delta.bind Operand.count)).getD 1

def addTo (tot n : ℤ) : Except Fault ℤ :=
  if IsInt (tot + n) then .ok (tot + n) else .error .overflow

/-- The values of one range, ramped, multiplied and added to. -/
def valueAt (d : Dtype) (begin : ℤ) (delta : Option ℤ) (k : ℕ) : ℤ :=
  let n := narrow d k
  let n := match delta with
    | none => n
    | some s => narrow d (n * s)
  narrow d (n + begin)

def bytesFor (d : Dtype) (n : ℤ) : ℕ := (n * bytesOf d % 4294967296).toNat

/-- The values that the size is enough for. -/
def filled (d : Dtype) (begin : ℤ) (delta : Option ℤ) (n : ℤ) : List ℤ :=
  (List.range (toInt (bytesFor d n / bytesOf d : ℕ)).toNat).map (valueAt d begin delta)

def fill (d : Dtype) (begin ending : Operand) (delta : Option Operand) (capacity : ℕ)
    (s : ℕ × List (List ℤ)) (j : ℕ) : Except Fault (ℕ × List (List ℤ)) := do
  let delta := delta.map (Operand.entry · j)
  let n ← nelem d (begin.entry j) (ending.entry j) delta
  if ¬ IsInt (n * bytesOf d) then .error .overflow
  else if s.1 + bytesFor d n > capacity then .error .outOfRange
  else .ok (s.1 + bytesFor d n, s.2 ++ [filled d (begin.entry j) delta n])

/-- What is made: the array, the bytes of its block, those that have been written, and the values
range by range. -/
structure Made where
  out : AnyArray
  size : ℕ
  written : ℕ
  ranges : List (List ℤ)

/-- The descriptor that the number of elements is put in. -/
def counted (tot : ℤ) : AnyArray :=
  ⟨⟨1, false, 0, false, false, 1, (tot % 4294967296).toNat, 0, fun _ => 0⟩, false⟩

/-- Tdi1DtypeRange with the type that the arguments have been converted to. -/
def dtypeRange (d : Dtype) (begin ending : Operand) (delta : Option Operand) (block : ℤ) :
    Except Fault Made := do
  let counts ← (List.range (nseg begin ending delta)).mapM fun j =>
    nelem d (begin.entry j) (ending.entry j) (delta.map (Operand.entry · j))
  let tot ← counts.foldlM addTo 0
  match mdsGet1DxA (counted tot) (bytesOf d) false block with
  | .error _ => .error .overflow
  | .ok (out, size) =>
    let capacity := (block + size - out.pointer).toNat
    let s ← (List.range (nseg begin ending delta)).foldlM
      (fill d begin ending delta capacity) (0, [])
    .ok ⟨out, size, s.1, s.2⟩

/-! ### What it should give -/

def NotPast (ending delta v : ℤ) : Prop := if 0 < delta then v ≤ ending else ending ≤ v

def IsRange (begin ending delta : ℤ) (list : List ℤ) : Prop :=
  ∃ n, list = (List.range n).map (fun k : ℕ => begin + k * delta) ∧
    ∀ k : ℕ, k < n ↔ NotPast ending delta (begin + k * delta)

def stepOf (delta : Option Operand) (j : ℕ) : ℤ :=
  (delta.map (Operand.entry · j)).getD 1

/-- The ranges one after the other fill the array. -/
def Ranges (d : Dtype) (begin ending : Operand) (delta : Option Operand) (block : ℤ) : Prop :=
  ∃ r, dtypeRange d begin ending delta block = .ok r ∧ r.out.arsize = r.written ∧
    r.out.pointer + r.written ≤ block + r.size ∧ r.written = bytesOf d * r.ranges.flatten.length ∧
    ∃ range, r.ranges = (List.range (nseg begin ending delta)).map range ∧
      ∀ j < nseg begin ending delta,
        IsRange (begin.entry j) (ending.entry j) (stepOf delta j) (range j)

def InType (d : Dtype) (z : ℤ) : Prop :=
  if d.signed then -modulus d ≤ 2 * z ∧ 2 * z < modulus d else 0 ≤ z ∧ z < modulus d

/-- The arguments are of the type, vectors are of equal length, and no step is zero. -/
structure Given (d : Dtype) (begin ending : Operand) (delta : Option Operand) : Prop where
  integer : d ≠ .t
  begins : ∀ j < nseg begin ending delta, InType d (begin.entry j)
  ends : ∀ j < nseg begin ending delta, InType d (ending.entry j)
  steps : ∀ j < nseg begin ending delta, InType d (stepOf delta j) ∧ stepOf delta j ≠ 0
  equal : ∀ n, n ∈ begin.count ∨ n ∈ ending.count ∨ n ∈ delta.bind Operand.count →
    n = nseg begin ending delta

/-- The end lies in the direction of the step. -/
def Toward (begin ending delta : ℤ) : Prop :=
  if 0 < delta then begin ≤ ending else ending ≤ begin

instance (begin ending delta : ℤ) : Decidable (Toward begin ending delta) :=
  inferInstanceAs (Decidable (if 0 < delta then begin ≤ ending else ending ≤ begin))

def steps (begin ending delta : ℤ) : ℕ :=
  if Toward begin ending delta then (Int.tdiv (ending - begin) delta + 1).toNat else 0

variable {d : Dtype} {b e s z : ℤ}

/-! ### Numbers of a type -/

variable {begin ending : Operand} {delta : Option Operand} {capacity m : ℕ} {block : ℤ}

end MdsPlus.ValueRanges
