import MdsPlus.SegmentNode
import Mathlib.Algebra.BigOperators.Group.List.Lemmas

/-!
How the contents of a node lie in its datafile: the header, index pages, rows,
timestamps and records are disjoint cells under their own keys, and each slot says
where the cells of its segment are.
-/

namespace MdsPlus.SegmentLayout

open Codec ByteFile Datafile SegmentRecords SegmentNode

variable {V : Type}

theorem toInt_ofNat32 {n : ℕ} (h : n < 2 ^ 31) : (BitVec.ofNat 32 n).toInt = n := by
  rw [BitVec.toInt_eq_toNat_of_lt]
  · rw [BitVec.toNat_ofNat, Nat.mod_eq_of_lt (by omega)]
  · rw [BitVec.toNat_ofNat]
    omega

theorem recordRows_neg (v : BitVec 32) : (v ||| 0x80000000).toInt < 0 := by
  have hmsb : (v ||| 0x80000000).msb = true := by
    rw [BitVec.msb_or, Bool.or_eq_true]
    exact Or.inr (by decide)
  rw [BitVec.msb_eq_toInt, decide_eq_true_eq] at hmsb
  exact hmsb

theorem recordRows_length {n : ℕ} (h : n < 2 ^ 31) :
    ((BitVec.ofNat 32 n ||| 0x80000000) &&& 0x7fffffff).toNat = n := by
  have hmask : (0x7fffffff : BitVec 32).toNat = 2 ^ 31 - 1 := by decide
  have hflag : (0x80000000 : BitVec 32).toNat = 2 ^ 31 := by decide
  rw [BitVec.toNat_and, BitVec.toNat_or, BitVec.toNat_ofNat, Nat.mod_eq_of_lt (by omega), hmask,
    hflag, Nat.and_two_pow_sub_one_eq_mod, Nat.or_mod_two_pow, Nat.mod_self, Nat.or_zero,
    Nat.mod_eq_of_lt h]

/-- The records of a segmented node, and whatever else is in the datafile. -/
inductive Key
  | attributes
  | header
  | page (p : ℕ)
  | data (i : ℕ)
  | dim (i : ℕ)
  | start (i : ℕ)
  | stop (i : ℕ)
  | other (k : ℕ)
  deriving DecidableEq

def RecordAt (S : Records V) (cell : Option Cell) (offset : Offset) (length : BitVec 32)
    (d : Dsc V) : Prop :=
  ∃ off bytes, cell = some ⟨off, bytes⟩ ∧ S.serializeIn bytes = some d ∧
    offset = BitVec.ofNat 64 off ∧ length = BitVec.ofNat 32 bytes.length ∧
    0 < bytes.length ∧ bytes.length < 2 ^ 31

def DataAt (S : Records V) (shape : Shape) (cell : Option Cell) (info : SegmentInfo) (rows : ℕ) :
    Data V → Prop
  | .rows bytes => bytes.length = rows * shape.rowBytes ∧ rows < 2 ^ 31 ∧
      info.rows = BitVec.ofNat 32 rows ∧
      ∃ off, cell = some ⟨off, bytes⟩ ∧ info.dataOffset = BitVec.ofNat 64 off
  | .record d => ∃ length, RecordAt S cell info.dataOffset length d ∧
      info.rows = length ||| 0x80000000

def DimAt (S : Records V) (cell : Option Cell) (info : SegmentInfo) (rows : ℕ) :
    Dimension V → Prop
  | .none => info.dimensionOffset = -1 ∧ info.dimensionLength = -1
  | .stamps l => l.length = rows ∧ info.dimensionLength = 0 ∧
      ∃ off, cell = some ⟨off, stampBytes l⟩ ∧ info.dimensionOffset = BitVec.ofNat 64 off
  | .record d => RecordAt S cell info.dimensionOffset info.dimensionLength d

def LimitAt (S : Records V) (cell : Option Cell) (info : LimitInfo) (limit : Limit V) : Prop :=
  info.value = limit.value ∧
    match limit.record with
    | none => info.offset = -1
    | some d => RecordAt S cell info.offset info.length d

/-- Slot and cells of segment `i` have its contents. -/
structure SegmentAt (S : Records V) (cells : Key → Option Cell) (shape : Shape)
    (info : SegmentInfo) (seg : Segment V) (i : ℕ) : Prop where
  data : DataAt S shape (cells (.data i)) info seg.rows seg.data
  dim : DimAt S (cells (.dim i)) info seg.rows seg.dim
  start : LimitAt S (cells (.start i)) info.start seg.start
  stop : LimitAt S (cells (.stop i)) info.stop seg.stop
  timed : ∀ l, seg.dim = .stamps l → ∃ bytes, seg.data = .rows bytes

theorem SegmentAt.congr {S : Records V} {cells cells' : Key → Option Cell} {shape : Shape}
    {info : SegmentInfo} {seg : Segment V} {i : ℕ} (h : SegmentAt S cells shape info seg i)
    (hdata : cells' (.data i) = cells (.data i)) (hdim : cells' (.dim i) = cells (.dim i))
    (hstart : cells' (.start i) = cells (.start i)) (hstop : cells' (.stop i) = cells (.stop i)) :
    SegmentAt S cells' shape info seg i where
  data := by rw [hdata]; exact h.data
  dim := by rw [hdim]; exact h.dim
  start := by rw [hstart]; exact h.start
  stop := by rw [hstop]; exact h.stop
  timed := h.timed

structure ShapeAt (shead : SegmentHeader) (shape : Shape) : Prop where
  dtype : shead.dtype = shape.dtype
  dimct : shead.dimct = BitVec.ofNat 8 (shape.inner.length + 1)
  length : shead.length = BitVec.ofNat 16 shape.length
  dims : ∀ j (hj : j < shape.inner.length), dimAt shead j = BitVec.ofNat 32 shape.inner[j]

/-- Rows of this shape have a size: at least one byte, below two gigabytes. -/
structure Sized (shape : Shape) : Prop where
  dims_lt : shape.inner.length < MAX_DIMS
  length_lt : shape.length < 2 ^ 16
  pos : 0 < shape.rowBytes
  lt : shape.rowBytes < 2 ^ 31

theorem Sized.inner_lt {shape : Shape} (h : Sized shape) (n : ℕ) (hn : n ∈ shape.inner) :
    n < 2 ^ 31 := by
  have hpos := h.pos
  have hlt := h.lt
  simp only [Shape.rowBytes] at hpos hlt
  have hprod : 0 < shape.inner.prod := Nat.pos_of_mul_pos_left hpos
  have hlength : 0 < shape.length := Nat.pos_of_mul_pos_right hpos
  have hle : n ≤ shape.inner.prod := Nat.le_of_dvd hprod (List.dvd_prod hn)
  have hmul : shape.inner.prod ≤ shape.length * shape.inner.prod :=
    Nat.le_mul_of_pos_left _ hlength
  omega

theorem foldl_mul_range (f : ℕ → ℤ) (l : List ℕ) (a : ℤ)
    (hf : ∀ j (hj : j < l.length), f j = l[j]) :
    (List.range l.length).foldl (fun n j => n * f j) a = a * (l.prod : ℤ) := by
  induction l using List.reverseRecOn with
  | nil => simp
  | append_singleton l x ih =>
    have hl : ∀ j (hj : j < l.length), f j = l[j] := by
      intro j hj
      rw [hf j (by simp; omega), List.getElem_append_left hj]
    have hx : f l.length = x := by
      rw [hf l.length (by simp), List.getElem_concat_length (by rfl)]
    rw [List.length_append, List.length_singleton, List.range_succ, List.foldl_append, ih hl,
      List.foldl_cons, List.foldl_nil, hx, List.prod_append, List.prod_singleton, Nat.cast_mul,
      mul_assoc]

section Shapes

variable {shead : SegmentHeader} {shape : Shape}

theorem dimct_toNat (h : ShapeAt shead shape) (hs : Sized shape) :
    shead.dimct.toNat = shape.inner.length + 1 := by
  have := hs.dims_lt
  simp only [MAX_DIMS] at this
  rw [h.dimct, BitVec.toNat_ofNat, Nat.mod_eq_of_lt (by omega)]

theorem length_toNat (h : ShapeAt shead shape) (hs : Sized shape) :
    shead.length.toNat = shape.length := by
  rw [h.length, BitVec.toNat_ofNat, Nat.mod_eq_of_lt hs.length_lt]

theorem dimAt_toInt (h : ShapeAt shead shape) (hs : Sized shape) (j : ℕ)
    (hj : j < shape.inner.length) : (dimAt shead j).toInt = shape.inner[j] := by
  rw [h.dims j hj, toInt_ofNat32 (hs.inner_lt _ (List.getElem_mem hj))]

theorem bytesPerRow_eq (h : ShapeAt shead shape) (hs : Sized shape) :
    bytesPerRow shead = shape.rowBytes := by
  rw [bytesPerRow, dimct_toNat h hs, length_toNat h hs, Nat.add_sub_cancel,
    foldl_mul_range _ _ _ (dimAt_toInt h hs), Shape.rowBytes, Nat.cast_mul]

end Shapes

theorem length_stampBytes (l : List (BitVec 64)) : (stampBytes l).length = l.length * 8 :=
  length_flatMap_encode int64 l

theorem stampsOf_stampBytes (l : List (BitVec 64)) : stampsOf (stampBytes l) = l := by
  rw [stampsOf, length_stampBytes, Nat.mul_div_cancel _ (by decide)]
  apply List.ext_getElem
  · simp
  · intro i _ hi
    have hpart := take_drop_flatMap int64 l i hi
    rw [List.getElem_map, List.getElem_range]
    change int64.decode ((((l.flatMap int64.encode).drop (i * int64.size)).take int64.size)) = l[i]
    rw [hpart, int64.decode_encode]

end MdsPlus.SegmentLayout
