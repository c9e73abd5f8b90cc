import MdsPlus.Outcome
import MdsPlus.SegmentLayout

/-!
How many bytes of the caller's array go into a segment. They are counted by the header of the
node, as whole rows; an array with more bytes is refused, but one with fewer is not, and the bytes
behind it are copied too.
-/

namespace MdsPlus.SegmentCopies

open BitMemory SegmentRecords Segments

/-- What is read where a descriptor of an array has its dimensions. -/
structure Coeff where
  dimct : Byte
  m : ℤ → BitVec 32

structure ArrayArg where
  dtype : Byte
  length : BitVec 16
  arsize : BitVec 32
  coeff : Coeff

/-- Data as it is passed. A wrapper and a scalar have no dimensions; what is read there is whatever
lies in memory. -/
inductive Arg
  | null
  | dsc (memory : Coeff) (target : Arg)
  | scalar (memory : Coeff) (dtype : Byte) (length : BitVec 16)
  | array (a : ArrayArg)
  | other (memory : Coeff)

def unwrap : Arg → Arg
  | .dsc _ target => unwrap target
  | a => a

def arrayOf : Arg → Option ArrayArg
  | .scalar memory dtype length => some ⟨dtype, length, length.setWidth 32, ⟨1, memory.m⟩⟩
  | .array a => some a
  | _ => none

def coeffOf : Arg → Coeff
  | .null => ⟨0, fun _ => 0⟩
  | .dsc memory _ => memory
  | .scalar memory _ _ => memory
  | .array a => a.coeff
  | .other memory => memory

/-- The type, and all dimensions or all but the last. -/
def fits (shead : SegmentHeader) (data : ArrayArg) (coeff : Coeff) : Bool :=
  let dimct := data.coeff.dimct.toNat
  data.dtype = shead.dtype &&
    ((dimct : ℤ) = shead.dimct.toInt || (dimct : ℤ) = shead.dimct.toInt - 1) &&
    (dimct ≤ 1 || (List.range (dimct - 1)).all fun j => dimAt shead j = coeff.m j)

/-- The rows of the data: one without the last dimension, else the last dimension. The program
stops when it divides by a length of zero. -/
def rowsGiven (shead : SegmentHeader) (data : ArrayArg) (coeff : Coeff) : Except Status ℤ :=
  if (data.coeff.dimct.toNat : ℤ) < shead.dimct.toInt then .ok 1
  else if data.coeff.dimct = 1 then
    if data.length = 0 then .error .undefined
    else .ok (BitVec.ofNat 32 (data.arsize.toNat / data.length.toNat)).toInt
  else .ok (coeff.m ((coeff.dimct.toNat : ℤ) - 1)).toInt

def bytesOf (shead : SegmentHeader) (rows : ℤ) : ℕ :=
  (BitVec.ofInt 32 (rows * bytesPerRow shead)).toNat

def bytesToInsert (shead : SegmentHeader) (startIdx : ℤ) (data : ArrayArg) (coeff : Coeff) :
    Except Status ℕ := do
  let rows ← rowsGiven shead data coeff
  let bytes := bytesOf shead (min rows (lastDim shead - startIdx))
  if bytes < data.arsize.toNat then .error .bufferOvf else .ok bytes

/-- `_TreeXNciPutSegment` up to the copy, for what comes of opening the node. The dimensions are
read from the descriptor as it was passed. -/
def putSegmentCopy (node : Except Status SegmentHeader) (startIdx : ℤ) (arg : Arg) :
    Except Status ℕ :=
  match unwrap arg with
  | .null => .error .undefined
  | a =>
      match arrayOf a with
      | none => .error .invDtpUsg
      | some data =>
          if data.coeff.dimct.toNat < 1 ∨ data.coeff.dimct.toNat > 8 then .error .invDtpUsg
          else do
            let shead ← node
            if ¬ fits shead data (coeffOf arg) then .error .failure
            else
              let startIdx := if startIdx = -1 then shead.nextRow.toInt else startIdx
              if startIdx < 0 ∨ startIdx ≥ lastDim shead then .error .bufferOvf
              else bytesToInsert shead startIdx data (coeffOf arg)

/-- `_TreeXNciPutTimestampedSegment` up to the copy. The dimensions are those of the array, and the
row is not compared with the segment. -/
def putTimestampedCopy (node : Except Status SegmentHeader) (arg : Arg) : Except Status ℕ :=
  match arrayOf (unwrap arg) with
  | none => .error .invDtype
  | some data =>
      if data.coeff.dimct.toNat < 1 ∨ data.coeff.dimct.toNat > 8 then .error .invDtype
      else do
        let shead ← node
        if data.dtype ≠ shead.dtype then .error .invDtype
        else if ¬ fits shead data data.coeff then .error .failure
        else bytesToInsert shead shead.nextRow.toInt data data.coeff

inductive Call
  | put (startIdx : ℤ)
  | timestamped

def copied (node : Except Status SegmentHeader) (arg : Arg) : Call → Except Status ℕ
  | .put startIdx => putSegmentCopy node startIdx arg
  | .timestamped => putTimestampedCopy node arg

section Copies

variable {shead : SegmentHeader} {startIdx : ℤ} {data : ArrayArg} {coeff : Coeff} {n : ℕ}

end Copies

/-! ### A shorter string -/

end MdsPlus.SegmentCopies
