import Mathlib.Data.Int.Notation
import Mathlib.Tactic.Common

/-!
Array descriptors: their extents and bounds, the arithmetic of ints that is done with them,
and the descriptors and ranges that are made from them.
-/

namespace MdsPlus.ArrayDescriptors

inductive Failure
  /-- Overflow of a signed int, division by zero, or memory written that was not allocated. -/
  | undefined
  | ndimOver
  | invSize
  | badIndex
  | invDtyDsc
deriving DecidableEq

def maxDims : ℕ := 8

def IsInt (z : ℤ) : Prop := -2147483648 ≤ z ∧ z ≤ 2147483647

instance (z : ℤ) : Decidable (IsInt z) := inferInstanceAs (Decidable (_ ∧ _))

/-- Arithmetic on ints: an overflow is undefined. -/
def int (z : ℤ) : Except Failure ℤ := if IsInt z then .ok z else .error .undefined

def toInt (z : ℤ) : ℤ := Int.bmod z 4294967296

/-- Descriptor of an array of class CLASS_A. The extents are the first words of m, and the
bounds the words after them. -/
structure ArrayDesc where
  length : ℕ
  /-- The type is DTYPE_T. -/
  text : Bool
  pointer : ℤ
  coeff : Bool
  bounds : Bool
  dimct : ℕ
  arsize : ℕ
  a0 : ℤ
  m : ℕ → ℤ

/-- Tdi1Bound and Tdi3Lbound. -/
def lbound (pa : ArrayDesc) (dim : ℕ) : Except Failure ℤ :=
  if pa.coeff then
    if dim ≥ pa.dimct then .error .badIndex
    else if pa.bounds then .ok (pa.m (pa.dimct + 2 * dim))
    else .ok 0
  else if dim ≥ 1 then .error .badIndex
  else .ok 0

/-- Tdi1Bound and Tdi3Ubound. -/
def ubound (pa : ArrayDesc) (dim : ℕ) : Except Failure ℤ :=
  if pa.coeff then
    if dim ≥ pa.dimct then .error .badIndex
    else if pa.bounds then .ok (pa.m (pa.dimct + 2 * dim + 1))
    else .ok (toInt (pa.m dim - 1))
  else if dim ≥ 1 then .error .badIndex
  else if pa.length = 0 then .error .undefined
  else int (Int.tdiv (toInt pa.arsize) pa.length - 1)

def align (bytes size : ℕ) : ℕ := if size = 0 then bytes else (bytes + size - 1) / size * size

/-- The size of a descriptor in front of its data. -/
def dscSize (pin : ArrayDesc) (newArsize length : ℕ) (text : Bool) : ℕ :=
  align (24 + (if pin.coeff ∨ newArsize = 0 then 8 + 4 * pin.dimct else 0) +
    if pin.bounds then 8 * pin.dimct else 0) (if text then 1 else length)

/-- MdsGet1DxA: the descriptor it makes at a block, and the bytes it has got for it and its data.
Sizes are words of 32 bits. -/
def mdsGet1DxA (pin : ArrayDesc) (length : ℕ) (text : Bool) (block : ℤ) : ArrayDesc × ℕ :=
  let newArsize :=
    if pin.length = 0 ∨ length = 0 then 0
    else pin.arsize / pin.length * length % 4294967296
  let size := dscSize pin newArsize length text
  let pointer := block + align size (if text then 1 else length)
  let plain := { pin with length, text, pointer, arsize := newArsize }
  let dsc :=
    if pin.coeff ∨ newArsize = 0 ∧ pin.pointer ≠ 0 then
      let dsc :=
        if pin.coeff then
          { plain with a0 := pointer + length * Int.tdiv (pin.a0 - pin.pointer) (max pin.length 1) }
        else { plain with coeff := true, a0 := pointer, dimct := 0 }
      if newArsize = 0 ∧ dsc.dimct = 0 then
        { dsc with dimct := 1, m := fun w => if w = 0 then pin.arsize else pin.m w }
      else dsc
    else plain
  (dsc, (size + newArsize) % 4294967296)

/-- Values of a range of ints, Tdi1DtypeRange. Their number is told from the difference of the
ends, which wraps, divided by the step; the size of a new array for them is an int. -/
def dtypeRange (begin ending : ℤ) (delta : Option ℤ) : Except Failure (List ℤ) :=
  let nelem := toInt (ending - begin)
  let step := delta.getD 1
  if nelem = -2147483648 ∧ step = -1 then .error .undefined
  else
    let n := (toInt (Int.tdiv nelem step + 1)).toNat
    (int (4 * n)).map fun _ => (List.range n).map fun (i : ℕ) => toInt (begin + i * step)

end MdsPlus.ArrayDescriptors
