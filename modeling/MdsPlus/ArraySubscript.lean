import MdsPlus.ArrayDescriptors
import Mathlib.Algebra.Group.Nat.Defs

/-!
Subscripts of an array. Each list of subscripts is culled to the bounds; the address of the
first element is added up from the dimensions, and the others follow by differences of subscripts
from one to the next, with a count for each dimension above the first.
-/

namespace MdsPlus.ArraySubscript

open ArrayDescriptors

inductive Subscript
  | missing
  | scalar (i : ℤ)
  | vector (l : List ℤ)
  | range (begin ending delta : Option ℤ)
deriving DecidableEq

/-- Ints that subscripts have been evaluated to, in an array or in a scalar. -/
structure Index where
  array : Bool
  values : List ℤ
deriving DecidableEq

/-- TdiIcull, with TdiRecull: a culled scalar is a null vector. -/
def icull (left right : ℤ) (px : Index) : Index :=
  let values := px.values.filter fun i => left ≤ i ∧ i ≤ right
  if values.length = px.values.length then px else ⟨true, values⟩

def index (pdat : ArrayDesc) (dim : ℕ) (sub : Subscript) : Except Failure Index :=
  (lbound pdat dim).bind fun left =>
    (ubound pdat dim).bind fun right =>
      match sub with
      | .missing => (dtypeRange left right none).map fun l => ⟨true, l⟩
      | .scalar i => .ok (icull left right ⟨false, [i]⟩)
      | .vector l => .ok (icull left right ⟨true, l⟩)
      | .range b e delta =>
          (dtypeRange (b.getD left) (e.getD right) delta).map fun l => icull left right ⟨true, l⟩

def stride (pdat : ArrayDesc) : ℕ → ℤ
  | 0 => pdat.length
  | j + 1 => if pdat.coeff then toInt (stride pdat j * pdat.m j) else toInt pdat.arsize

/-- What is known of the dimensions so far: the address of the first element, the size, the
number of dimensions of the result, and the subscripts. -/
structure Scan where
  pin : ℤ
  arsize : ℕ
  highest : ℕ
  px : List (List ℤ)

def scanDim (pdat : ArrayDesc) (list : List Subscript) (dim : ℕ) (s : Scan) :
    Except Failure Scan :=
  (index pdat dim (list.getD dim .missing)).bind fun ii =>
    let arsize := s.arsize * ii.values.length % 4294967296
    let highest := if ii.array then dim + 1 else s.highest
    let px := s.px ++ [ii.values]
    if arsize = 0 then .ok ⟨s.pin, arsize, highest, px⟩
    else
      (int (stride pdat dim * ii.values.headD 0)).map fun move =>
        ⟨s.pin + move, arsize, highest, px⟩

/-- The dimensions, from one with a number on. -/
def scan (pdat : ArrayDesc) (list : List Subscript) : ℕ → ℕ → Scan → Except Failure Scan
  | 0, _, s => .ok s
  | n + 1, dim, s => (scanDim pdat list dim s).bind fun s => scan pdat list n (dim + 1) s

structure Digit where
  stride : ℤ
  px : List ℤ
  count : ℕ

/-- What is added to the address when the count of a dimension changes. -/
def move (d : Digit) (count : ℕ) : Except Failure ℤ :=
  (int (d.px.getD count 0 - d.px.getD d.count 0)).bind fun diff => int (d.stride * diff)

/-- Increments the first count that does not overflow, and resets those that do. -/
def increment : ℤ → List Digit → Except Failure (Option (ℤ × List Digit))
  | _, [] => .ok none
  | pin, d :: ds =>
      if (d.count + 1 : ℤ) < toInt d.px.length then
        (move d (d.count + 1)).map fun by' => some (pin + by', { d with count := d.count + 1 } :: ds)
      else
        (move d 0).bind fun by' =>
          (increment (pin + by') ds).map fun r =>
            r.map fun r => (r.1, { d with count := 0 } :: r.2)

/-- The inner loop, over the bytes of the subscripts of the first dimension. -/
def row (len : ℕ) (px : List ℤ) (pin : ℤ) : Except Failure (List ℤ) :=
  (px.take (toInt (4 * px.length) / 4).toNat).mapM fun i => (int (len * i)).map (pin + ·)

/-- Addresses that elements are copied from, one after another to the result. -/
def copies (len : ℕ) (px : List ℤ) : ℕ → ℤ → List Digit → Except Failure (List ℤ)
  | 0, _, _ => .error .undefined
  | n + 1, pin, ds =>
      (row len px pin).bind fun l =>
        (increment pin ds).bind fun
          | none => .ok l
          | some (pin, ds) => (copies len px n pin ds).map (l ++ ·)

/-- A scalar, with the address it is copied from; or an array in a block of so many bytes,
and the addresses that its elements are copied from. -/
inductive Result
  | scalar (pin : ℤ)
  | array (dsc : ArrayDesc) (size : ℕ) (pins : List ℤ)

def resultDesc (highest arsize : ℕ) (px : List (List ℤ)) : ArrayDesc where
  length := 1
  text := false
  pointer := 0
  coeff := decide (highest > 1)
  bounds := false
  dimct := highest
  arsize := arsize
  a0 := 0
  m := fun j => (px.getD j []).length

def tdi1Subscript (pdat : ArrayDesc) (list : List Subscript) (block : ℤ) :
    Except Failure Result :=
  if pdat.dimct > maxDims then .error .ndimOver
  else if list.length > pdat.dimct then .error .invSize
  else
    let pin := if pdat.bounds then pdat.a0 else pdat.pointer
    (scan pdat list pdat.dimct 0 ⟨pin, 1, 0, []⟩).bind fun s =>
      if s.highest = 0 then .ok (.scalar s.pin)
      else
        let (dsc, size) := mdsGet1DxA (resultDesc s.highest s.arsize s.px) pdat.length pdat.text block
        if s.arsize = 0 then .ok (.array dsc size [])
        else
          let px := s.px.headD []
          let ds := (List.range (s.highest - 1)).map fun j =>
            (⟨stride pdat (j + 1), s.px.getD (j + 1) [], 0⟩ : Digit)
          let fuel := (s.px.map List.length).prod
          (int (pdat.length * px.headD 0)).bind fun first =>
            (copies pdat.length px fuel (s.pin - first) ds).map fun pins => .array dsc size pins

/-- Extents of an array: Tdi3Shape where there are no bounds. -/
def shape (dsc : ArrayDesc) : List ℕ :=
  if dsc.coeff then (List.range dsc.dimct).map fun j => (dsc.m j).toNat
  else [dsc.arsize / dsc.length]

end MdsPlus.ArraySubscript
