import MdsPlus.BitMemory
import Mathlib.Data.Int.Notation

/-!
Descriptors with what they point to. A wrapper stands for the descriptor it points to; whether a
string is static or dynamic and where something lies in memory is no part of what a tree says.
-/

namespace MdsPlus.DescriptorTrees

open BitMemory

def dtypeDsc : Byte := 24

abbrev DataType := { t : Byte // t ≠ dtypeDsc }

/-- The multipliers and bounds that follow an array header, if it has them. Bounds come with
multipliers only. -/
inductive Dims
  | plain (dimct : Byte)
  | coeff (a0 : ℤ) (m : List Word)
  | bounds (a0 : ℤ) (m : List (Word × Word × Word))
deriving DecidableEq

structure ArrayHead where
  length : BitVec 16
  scale : Byte
  digits : Byte
  binscale : Bool
  redim : Bool
  column : Bool
  dims : Dims
deriving DecidableEq

/-- A descriptor of each class, and the null pointer. The `a0` of an array counts from its data;
those of the two other classes of arrays are offsets of their own, and `pointer` is where what
they point to lies in memory. -/
inductive Desc
  | null
  | dsc (target : Desc)
  | s (dynamic : Bool) (dtype : DataType) (data : List Byte)
  | xs (dynamic : Bool) (dtype : DataType) (data : List Byte)
  | r (dtype : DataType) (data : List Byte) (dscptrs : List Desc)
  | a (dtype : DataType) (h : ArrayHead) (data : List Byte)
  | apd (dtype : Byte) (h : ArrayHead) (pointer : ℤ) (dscs : List Desc)
  | ca (dtype : DataType) (h : ArrayHead) (arsize : Word) (pointer : ℤ) (target : Desc)
  | other (cls : Byte) (dtype : DataType) (data : List Byte)

mutual

def content : Desc → Desc
  | .null => .null
  | .dsc target => content target
  | .s _ dtype data => .s false dtype data
  | .xs _ dtype data => .xs false dtype data
  | .r dtype data dscptrs => .r dtype data (contentAll dscptrs)
  | .a dtype h data => .a dtype h data
  | .apd dtype h _ dscs => .apd dtype h 0 (contentAll dscs)
  | .ca dtype h arsize _ target => .ca dtype h arsize 0 (content target)
  | .other cls dtype data => .other cls dtype data

def contentAll : List Desc → List Desc
  | [] => []
  | d :: ds => content d :: contentAll ds

end

def Same (d1 d2 : Desc) : Prop := content d1 = content d2

def unwrap : Desc → Desc
  | .dsc target => unwrap target
  | d => d

theorem contentAll_eq_map (ds : List Desc) : contentAll ds = ds.map content := by
  induction ds with
  | nil => rfl
  | cons d ds ih => rw [contentAll, List.map_cons, ih]

theorem content_unwrap (d : Desc) : content (unwrap d) = content d := by
  induction d using unwrap.induct with
  | case1 target ih => exact ih
  | case2 d h => rw [unwrap]; exact h

theorem unwrap_ne_dsc (d target : Desc) : unwrap d ≠ .dsc target := by
  induction d using unwrap.induct with
  | case1 d ih => exact ih
  | case2 d h => rw [unwrap]; exacts [h target, h]

end MdsPlus.DescriptorTrees
