import MdsPlus.ArrayLayout
import MdsPlus.ElementArrays
import Mathlib.Algebra.BigOperators.Ring.List

/-!
MAP: the elements of an array at a list of subscripts, each taken to the nearest one there is. The
limits are told by ints, and so are the subscripts.
-/

namespace MdsPlus.Mapping

open ArrayDescriptors (ArrayDesc IsInt toInt)
open BitMemory (Byte)
open ArrayLayout (extent lower lowest weight)
open ElementArrays ElementOrder NewArrays

structure Subscripts where
  shape : Option AnyArray
  values : List ℤ

def lengthOf : Values → ℕ
  | .scalar bytes => bytes.length
  | .array x _ => x.length

/-- Bytes from the first element to the one whose subscripts are all zero. -/
def baseOf : Values → ℤ
  | .scalar _ => 0
  | .array x _ => if x.bounds then x.a0 - x.pointer else 0

/-- The subscript of the first element. -/
def leftOf : Values → Except Fault ℤ
  | .scalar _ => .ok 0
  | .array x _ =>
    if x.bounds then
      if x.length = 0 then .error .divideByZero
      else .ok (toInt (Int.tdiv (x.pointer - x.a0) x.length))
    else .ok 0

def int (z : ℤ) : Except Fault ℤ := if IsInt z then .ok z else .error .overflow

def limits (a : Values) : Except Fault (ℤ × ℤ) := do
  let left ← leftOf a
  let right ← a.count
  let before ← int (left - 1)
  let right ← int (right + before)
  .ok (left, right)

def extend (left right i : ℤ) : ℤ := if i < left then left else if i > right then right else i

def readAt (len : ℕ) (bytes : List Byte) (off : ℤ) : Except Fault (List Byte) :=
  if 0 ≤ off ∧ off + len ≤ bytes.length then .ok ((bytes.drop off.toNat).take len)
  else .error .outOfRange

/-- Elements of one to eight bytes are reached by pointers to them, others by an int. -/
def fetch (a : Values) (i : ℤ) : Except Fault (List Byte) :=
  let len := lengthOf a
  if len = 1 ∨ len = 2 ∨ len = 4 ∨ len = 8 ∨ IsInt (len * i) then
    readAt len a.bytes (baseOf a + len * i)
  else .error .overflow

def getShape (idx : Subscripts) (length : ℕ) (text : Bool) (block : ℤ) :
    Except Fault (Option (AnyArray × ℕ)) :=
  match idx.shape with
  | none => .ok none
  | some x =>
    match mdsGet1DxA x length text block with
    | .ok r => .ok (some r)
    | .error _ => .error .overflow

/-- Tdi1Map: the new array with the bytes its block has, or a scalar, and the elements. -/
def map (d : Dtype) (a : Values) (idx : Subscripts) (block : ℤ) :
    Except Fault (Option (AnyArray × ℕ) × List (List Byte)) := do
  let (left, right) ← limits a
  let shape ← getShape idx (lengthOf a) (d = .t) block
  let ints := idx.values.map fun v => extend left right (toInt v)
  match shape, ints with
  | some (out, size), [] => .ok (some ({ out with arsize := 0, coeff := false }, size), [])
  | shape, ints =>
    if lengthOf a = 0 then .ok (shape, ints.map fun _ => [])
    else do
      let elements ← ints.mapM (fetch a)
      .ok (shape, elements)

/-! ### What it should give -/

def stride (x : ArrayDesc) : ℕ → ℤ
  | 0 => 1
  | j + 1 => stride x j * extent x j

/-- The subscript of the first element, of all dimensions together. -/
def first : Values → ℤ
  | .scalar _ => 0
  | .array x _ => ((List.range x.dimct).map fun j => stride x j * lower x j).sum

def bounded : Values → Bool
  | .scalar _ => false
  | .array x _ => x.bounds

/-- The address a0 is that of the element whose subscripts are zero. -/
def Placed : Values → Prop
  | .scalar _ => True
  | .array x _ => x.bounds = true → x.a0 = x.pointer - lowest x

structure Subscripts.Formed (idx : Subscripts) : Prop where
  scalar : idx.shape = none → idx.values.length = 1
  array : ∀ x, idx.shape = some x → NewArrays.Formed x.toArrayDesc ∧ x.length = 4 ∧
    elements x.toArrayDesc = idx.values.length

def nearest (a : Values) (i : ℤ) : ℤ := max (first a) (min i (first a + a.number - 1))

def entryAt (a : Values) (i : ℤ) : List Byte := a.entry (lengthOf a) (nearest a i - first a).toNat

/-- A subscript is taken to a limit that is told right, the int of an element is not too large, and
a subscript that is no int is as good as the int it is taken for. -/
structure Reaches (a : Values) (v : ℤ) : Prop where
  some : 0 < a.number
  limited : if toInt v < toInt (first a) then toInt (first a) = first a
    else toInt (first a) + toInt a.number = first a + a.number
  near : lengthOf a = 1 ∨ lengthOf a = 2 ∨ lengthOf a = 4 ∨ lengthOf a = 8 ∨
    IsInt (lengthOf a * nearest a (toInt v))
  same : entryAt a (toInt v) = entryAt a v

variable {d : Dtype} {a : Values} {idx : Subscripts} {len : ℕ} {block : ℤ}

/-! ### The limits -/

theorem weight_eq (x : ArrayDesc) (j : ℕ) : weight x j = x.length * stride x j := by
  induction j with
  | zero => exact (mul_one _).symm
  | succ j ih => rw [weight, stride, ih, mul_assoc]

theorem count_eq (h : a.Of d len) (hpos : 0 < len) : a.count = .ok (toInt a.number) := by
  cases a with
  | scalar bytes =>
    have hone := toInt_small (n := 1) (by omega)
    exact congrArg Except.ok hone.symm
  | array x bytes =>
    obtain ⟨harray, rfl⟩ := h
    rw [Values.count, nElements, if_pos (Nat.ne_of_gt hpos), Values.number,
      (elements_eq harray.formed hpos).1, Int.toNat_natCast]

theorem map_none {r : ℤ × ℤ} {out : AnyArray} {size : ℕ} (hlimits : limits a = .ok r)
    (hshape : getShape idx (lengthOf a) (d = .t) block = .ok (some (out, size)))
    (hnone : idx.values = []) :
    map d a idx block = .ok (some ({ out with arsize := 0, coeff := false }, size), []) := by
  simp only [map, hlimits, hshape, hnone, bind, Except.bind, List.map_nil]

theorem map_some {r : ℤ × ℤ} {shape : Option (AnyArray × ℕ)} (hlimits : limits a = .ok r)
    (hshape : getShape idx (lengthOf a) (d = .t) block = .ok shape) (hsome : idx.values ≠ []) :
    map d a idx block =
      if lengthOf a = 0 then .ok (shape, idx.values.map fun _ => [])
      else (idx.values.mapM fun v => fetch a (extend r.1 r.2 (toInt v))).map
        fun elements => (shape, elements) := by
  have hmapM : (idx.values.mapM fun v => fetch a (extend r.1 r.2 (toInt v))) =
      (idx.values.map fun v => extend r.1 r.2 (toInt v)).mapM (fetch a) := by
    rw [List.mapM_map]
    rfl
  obtain ⟨v, rest, hvalues⟩ := List.exists_cons_of_ne_nil hsome
  have hcons : idx.values.map (fun v => extend r.1 r.2 (toInt v)) =
      extend r.1 r.2 (toInt v) :: rest.map fun v => extend r.1 r.2 (toInt v) := by
    rw [hvalues, List.map_cons]
  have hempty : idx.values.map (fun _ => ([] : List Byte)) =
      (idx.values.map fun v => extend r.1 r.2 (toInt v)).map fun _ => [] := by
    rw [List.map_map]
    rfl
  rw [hempty, hmapM]
  simp only [map, hlimits, hshape, hcons, bind, Except.bind]
  cases shape <;> split <;> rfl

end MdsPlus.Mapping
