import MdsPlus.ArrayDescriptors
import Mathlib.Algebra.BigOperators.Group.List.Basic
import Mathlib.Tactic.Ring

/-!
New arrays in the shape of others: a descriptor is made for elements of another length, with its
extents and bounds, and the block for it has room for the data behind the descriptor.
-/

namespace MdsPlus.NewArrays

open ArrayDescriptors hiding mdsGet1DxA

/-- Descriptor of class CLASS_A or CLASS_CA. -/
structure AnyArray extends ArrayDesc where
  compressed : Bool

/-- Arithmetic on words of 64 bits: an overflow is undefined. -/
def IsInt64 (z : ℤ) : Prop := -9223372036854775808 ≤ z ∧ z ≤ 9223372036854775807

instance (z : ℤ) : Decidable (IsInt64 z) := inferInstanceAs (Decidable (_ ∧ _))

def int64 (z : ℤ) : Except Failure ℤ := if IsInt64 z then .ok z else .error .undefined

def newArsize (pin : ArrayDesc) (length : ℕ) : ℕ :=
  if pin.length = 0 ∨ length = 0 then 0 else pin.arsize / pin.length * length % 4294967296

/-- Bytes from the first element to the one whose subscripts are all zero. -/
def offsetOf (x : AnyArray) : ℤ := if x.compressed then x.a0 else x.a0 - x.pointer

/-- The descriptor that is made at a block, and the bytes the block is got for. -/
def mdsGet1DxA (pin : AnyArray) (length : ℕ) (text : Bool) (block : ℤ) :
    Except Failure (AnyArray × ℕ) := do
  let arsize := newArsize pin.toArrayDesc length
  let size := dscSize pin.toArrayDesc arsize length text
  let pointer := block + align size (if text then 1 else length)
  let out : ArrayDesc := { pin.toArrayDesc with length, text, pointer, arsize }
  let out ←
    if pin.coeff ∨ arsize = 0 ∧ pin.pointer ≠ 0 then do
      let out ←
        if pin.coeff then do
          let offset ← int64 (length * Int.tdiv (offsetOf pin) (max pin.length 1))
          .ok { out with a0 := pointer + offset }
        else .ok { out with coeff := true, a0 := pointer, dimct := 0 }
      if arsize = 0 ∧ out.dimct = 0 then
        .ok { out with dimct := 1, m := fun w => if w = 0 then toInt pin.arsize else pin.m w }
      else .ok out
    else .ok out
  .ok (⟨out, false⟩, (size + arsize) % 4294967296)

theorem toInt_small {n : ℕ} (h : n < 2147483648) : toInt n = n := by
  rw [toInt, Int.bmod_eq_of_le] <;> omega

theorem toInt_large {n : ℕ} (h : 2147483648 ≤ n) (hlt : n < 4294967296) :
    toInt n = n - 4294967296 := by
  rw [toInt, Int.bmod_def]
  omega

/-! ### What an array has -/

def dims (x : ArrayDesc) : List ℤ :=
  if x.coeff then (List.range x.dimct).map x.m else [(x.arsize / x.length : ℕ)]

def elements (x : ArrayDesc) : ℤ := (dims x).prod

structure Formed (x : ArrayDesc) : Prop where
  length_lt : x.length < 65536
  dimct_pos : 0 < x.dimct
  dimct_lt : x.dimct < 256
  arsize_lt : x.arsize < 4294967296
  coeff : x.bounds = true → x.coeff = true
  size : (x.arsize : ℤ) = x.length * elements x
  nonneg : 0 ≤ elements x

/-- Elements are not lost with a length of zero, and the sizes are words. -/
structure Fits (x : AnyArray) (length : ℕ) (text : Bool) : Prop where
  kept : x.length = 0 → length = 0 ∨ elements x.toArrayDesc = 0
  counted : length = 0 → x.coeff = false →
    elements x.toArrayDesc = if x.pointer = 0 then 0 else toInt x.arsize
  room : (dscSize x.toArrayDesc (newArsize x.toArrayDesc length) length text : ℤ) +
    length * elements x.toArrayDesc < 4294967296
  offset : x.coeff = true → IsInt64 (length * Int.tdiv (offsetOf x) (max x.length 1))

/-! ### The room for a descriptor -/

variable {x : AnyArray} {length : ℕ} {text : Bool} {block : ℤ}

def blockSize (x : AnyArray) (length : ℕ) (text : Bool) : ℕ :=
  (dscSize x.toArrayDesc (newArsize x.toArrayDesc length) length text +
    newArsize x.toArrayDesc length) % 4294967296

section Plain

variable (h : Formed x.toArrayDesc) (hcoeff : x.coeff = false)

include hcoeff

include h

end Plain

end MdsPlus.NewArrays
