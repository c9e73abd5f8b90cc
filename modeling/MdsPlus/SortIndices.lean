import MdsPlus.ElementArrays
import MdsPlus.SortLoops

/-!
SORT: the indices of an array in the order of its elements. They are sorted when the array of
indices has room for them and the bytes of an element are told by an int.
-/

namespace MdsPlus.SortIndices

open ArrayDescriptors (ArrayDesc IsInt toInt dscSize)
open BitMemory (Byte)
open ElementArrays ElementOrder NewArrays Rearrangement SortLoops

def gtrAt (d : Dtype) (len : ℕ) (data : List Byte) (j k : ℤ) : Except Fault ℤ := do
  let a ← elementAt len data j
  let b ← elementAt len data k
  gtr d a b

def room (x : ArrayDesc) : ℕ :=
  (blockSize ⟨x, false⟩ 4 false - dscSize x (newArsize x 4) 4 false) / 4

def listing (x : ArrayDesc) (ndx : Indices) : List ℤ :=
  (List.range (newArsize x 4 / 4)).map fun k : ℕ => ndx k

def initial (x : ArrayDesc) (n : ℤ) (ndx : Indices) : Except Fault Indices :=
  (List.range n.toNat).foldlM (fun ndx (i : ℕ) => write (room x) ndx i i) ndx

/-- Tdi1Sort. The bytes are those of the array, in capitals if that is asked for; what is in the
new array before is given. -/
def sort (d : Dtype) (x : ArrayDesc) (data : List Byte) (ndx : Indices) : Except Fault (List ℤ) := do
  let n ← nElements x
  if n ≤ 0 then .ok (listing x ndx)
  else do
    let ndx ← initial x n ndx
    let ndx ← sortLoop (gtrAt d x.length data) (room x) (2 * n.toNat + 2) 0 (n - 1) [] 0 ndx
    .ok (listing x ndx)

/-! ### What it should give -/

variable {d : Dtype} {x : ArrayDesc} {data : List Byte} {ndx : Indices}

/-! ### The new array -/

section Sorting

variable (h : ArrayOf d x data) (hpos : 0 < x.length)

include h hpos

end Sorting

def threeBytes : ArrayDesc := ⟨1, false, 1000, false, false, 1, 3, 0, fun _ => 0⟩

end MdsPlus.SortIndices
