import MdsPlus.Mapping
import MdsPlus.Packing
import MdsPlus.SortIndices

/-!
UNION: what the arguments have is put into one array by VECTOR and sorted by its values, and then
each element that is equal to the one before it is left out.
-/

namespace MdsPlus.DistinctUnion

open ArrayDescriptors (ArrayDesc IsInt toInt dscSize)
open BitMemory (Byte)
open ElementArrays ElementOrder NewArrays
open Mapping (lengthOf)

/-- The shape that VECTOR finds for its arguments. -/
structure Shape where
  coeff : Bool
  dimct : ℕ
  m : ℕ → ℤ
  dimct_pos : 0 < dimct
  dimct_le : dimct ≤ 8

/-- The descriptor of a number of elements in a shape. -/
def ofShape (s : Shape) (count : ℤ) : AnyArray :=
  ⟨⟨1, false, 0, s.coeff, false, s.dimct, (count % 4294967296).toNat, 0, s.m⟩, false⟩

def pad (len : ℕ) (b : List Byte) : List Byte := (b ++ List.replicate (len - b.length) 32#8).take len

def blank (d : Dtype) : Byte := if d = .t then 32#8 else 0#8

/-- TdiConvert to an array of elements of the type: texts are padded, and the rest is blank. -/
def convert (d : Dtype) (len size : ℕ) (v : Values) : List Byte :=
  let numa := match v with
    | .scalar _ => 1
    | .array y _ => Int.tdiv (toInt y.arsize) (max 1 y.length)
  let numb := Int.tdiv (toInt size) (max len 1)
  if numb ≤ 0 ∨ len = 0 then []
  else if numa ≤ 0 then List.replicate (numb.toNat * len) (blank d)
  else match v with
  | .scalar s => (List.replicate numb.toNat (pad len s)).flatten
  | .array y bytes =>
    ((List.range (min numa numb).toNat).map fun k => pad len (element y.length bytes k)).flatten ++
      List.replicate ((numb - numa).toNat * len) (blank d)

/-- An argument with its number of elements goes behind those before. -/
def join (d : Dtype) (len : ℕ) (s : List Byte × ℕ) (a : Values × ℤ) :
    Except Fault (List Byte × ℕ) :=
  if ¬ IsInt (a.2 * len) then .error .overflow
  else
    let size := (a.2 * len % 4294967296).toNat
    let bytes := convert d len size a.1
    if s.2 + bytes.length > s.1.length then .error .outOfRange
    else .ok (s.1.take s.2 ++ bytes ++ s.1.drop (s.2 + bytes.length), s.2 + size)

/-- The length of the elements that the arguments are converted to. -/
def widest (args : List Values) : ℕ := (args.map lengthOf).foldr max 0

/-- Tdi1Vector: the array and its bytes; what is not written is as it was in the block. -/
def vector (d : Dtype) (s : Shape) (args : List Values) (init : ℕ → Byte) (block : ℤ) :
    Except Fault (ArrayDesc × List Byte) := do
  let len := widest args
  let counts ← args.mapM Values.count
  match mdsGet1DxA (ofShape s counts.sum) len (d = .t) block with
  | .error _ => .error .overflow
  | .ok (out, _) =>
    let r ← (args.zip counts).foldlM (join d len) ((List.range out.arsize).map init, 0)
    let out := out.toArrayDesc
    if len = 0 ∧ d = .t ∧ s.dimct = 1 then
      .ok ({ out with
        coeff := true
        a0 := out.pointer
        m := fun w => if w = 0 then args.length else s.m w }, r.1)
    else .ok (out, r.1)

/-- Tdi1SortVal: MAP at the indices of SORT, which are in an array of their own. -/
def sortVal (d : Dtype) (x : ArrayDesc) (data : List Byte) (ndx : SortLoops.Indices)
    (block next : ℤ) : Except Fault (ArrayDesc × List Byte) := do
  let list ← SortIndices.sort d x data ndx
  match mdsGet1DxA ⟨x, false⟩ 4 false block with
  | .error _ => .error .overflow
  | .ok (index, _) =>
    let (shape, elements) ← Mapping.map d (.array x data) ⟨some index, list⟩ next
    match shape with
    | none => .error .nullPtr
    | some (out, _) => .ok (out.toArrayDesc, elements.flatten)

/-- An element that differs from the last one that is kept is put behind it. -/
def compact (len : ℕ) (s : List Byte × ℕ) (k : ℕ) : List Byte × ℕ :=
  if (s.1.drop (len * (k + 1))).take len ≠ (s.1.drop s.2).take len then
    (Packing.memcpy s.1 (s.2 + len) (len * (k + 1)) len, s.2 + len)
  else s

/-- Equal elements that follow each other are left out. -/
def leaveOut (y : ArrayDesc) (bytes : List Byte) : Except Fault (ArrayDesc × List Byte) :=
  if y.length = 0 then .error .divideByZero
  else do
    let n ← Mapping.int (Int.tdiv (toInt y.arsize) y.length - 1)
    let r := (List.range n.toNat).foldl (compact y.length) (bytes, 0)
    .ok ({ y with arsize := r.2 + y.length, coeff := false, bounds := false, dimct := 1 }, r.1)

def union (d : Dtype) (s : Shape) (args : List Values) (init : ℕ → Byte)
    (ndx : SortLoops.Indices) (blocks : ℕ → ℤ) : Except Fault (ArrayDesc × List Byte) := do
  let (x, data) ← vector d s args init (blocks 0)
  let (y, bytes) ← sortVal d x data ndx (blocks 1) (blocks 2)
  leaveOut y bytes

/-! ### What it should give -/

/-- The elements of an argument as texts of a length. -/
def entries (len : ℕ) (a : Values) : List (List Byte) :=
  (List.range a.number).map fun k => pad len (a.entry (lengthOf a) k)

/-- Every element of the arguments once, in ascending order. -/
structure Unites (d : Dtype) (args : List Values) (out : ArrayDesc) (bytes : List Byte) : Prop where
  length_eq : out.length = widest args
  flat : out.coeff = false ∧ out.bounds = false ∧ out.dimct = 1
  inside : out.arsize ≤ bytes.length
  list : ∃ r : List (List Byte), out.arsize = out.length * r.length ∧
    bytes.take out.arsize = r.flatten ∧ (∀ b ∈ r, b.length = out.length) ∧
    r.Pairwise (fun a b => value d a < value d b) ∧
    ∀ b, b ∈ r ↔ ∃ a ∈ args, b ∈ entries (widest args) a

def Joined (d : Dtype) (s : Shape) (args : List Values) (init : ℕ → Byte)
    (ndx : SortLoops.Indices) (blocks : ℕ → ℤ) : Prop :=
  ∃ out bytes, union d s args init ndx blocks = .ok (out, bytes) ∧ Unites d args out bytes

structure Given (d : Dtype) (args : List Values) : Prop where
  some : args ≠ []
  ofType : ∀ a ∈ args, a.Of d (lengthOf a)
  short : ∀ a ∈ args, lengthOf a < 65536

def total (args : List Values) : ℕ := (args.map Values.number).sum

variable {d : Dtype} {len : ℕ} {args : List Values} {bytes : List Byte}

/-! ### Arrays that are made -/

/-- The elements up to one, each once. -/
structure Kept (d : Dtype) (len : ℕ) (bytes : List Byte) (k : ℕ) (s : List Byte × ℕ)
    (r : List (List Byte)) : Prop where
  place : s.2 + len = len * r.length
  count : r.length ≤ k + 1
  size : s.1.length = bytes.length
  front : s.1.take (len * r.length) = r.flatten
  back : s.1.drop (len * (k + 1)) = bytes.drop (len * (k + 1))
  lengths : ∀ b ∈ r, b.length = len
  ascending : r.Pairwise fun a b => value d a < value d b
  last : r.getLast? = some (element len bytes k)
  mem_iff : ∀ b, b ∈ r ↔ ∃ j ≤ k, element len bytes j = b

variable {n : ℕ}

section Step

variable {k : ℕ} {s : List Byte × ℕ} {r : List (List Byte)} (h : Kept d len bytes k s r)

include h

theorem Kept.same (hsame : element len bytes (k + 1) = element len bytes k) :
    Kept d len bytes (k + 1) s r := by
  have hback := congrArg (List.drop len) h.back
  rw [List.drop_drop, List.drop_drop, ← Nat.mul_succ] at hback
  refine ⟨h.place, by have := h.count; omega, h.size, h.front, hback, h.lengths, h.ascending, ?_,
    fun b => ?_⟩
  · rw [hsame]
    exact h.last
  · rw [h.mem_iff]
    constructor
    · rintro ⟨j, hj, hb⟩
      exact ⟨j, by omega, hb⟩
    · rintro ⟨j, hj, hb⟩
      rcases Nat.lt_or_ge k j with hlt | hle
      · obtain rfl : j = k + 1 := by omega
        exact ⟨k, le_rfl, hsame.symm.trans hb⟩
      · exact ⟨j, hle, hb⟩

theorem Kept.other (hbytes : bytes.length = len * n) (hk : k + 1 < n)
    (hsorted : ∀ i j, i ≤ j → j < n →
      value d (element len bytes i) ≤ value d (element len bytes j))
    (hother : element len bytes (k + 1) ≠ element len bytes k) :
    Kept d len bytes (k + 1) (Packing.memcpy s.1 (s.2 + len) (len * (k + 1)) len, s.2 + len)
      (r ++ [element len bytes (k + 1)]) := by
  have hplace := h.place
  have hle := Nat.mul_le_mul_left len h.count
  have hinside := Nat.mul_le_mul_left len (Nat.succ_le_of_lt hk)
  rw [Nat.mul_succ] at hinside
  have hsize := h.size
  have hmoved : (s.1.drop (len * (k + 1))).take len = element len bytes (k + 1) := by
    rw [h.back, element]
  have hwidth : ∀ j < n, (element len bytes j).length = len := fun j hj =>
    length_element hbytes hj
  have hfront : (s.1.take (s.2 + len)).length = s.2 + len := by
    rw [List.length_take]
    omega
  have hwhole : (s.1.take (s.2 + len) ++ element len bytes (k + 1)).length = s.2 + len + len := by
    rw [List.length_append, hfront, hwidth _ hk]
  have hback := congrArg (List.drop len) h.back
  rw [List.drop_drop, List.drop_drop, ← Nat.mul_succ] at hback
  rw [Packing.memcpy, hmoved]
  refine ⟨?_, ?_, ?_, ?_, ?_, ?_, ?_, List.getLast?_concat, fun b => ?_⟩
  · rw [List.length_append, List.length_singleton, Nat.mul_succ, ← hplace]
  · rw [List.length_append, List.length_singleton]
    exact Nat.succ_le_succ h.count
  · rw [List.length_append, hwhole, List.length_drop]
    omega
  · rw [List.length_append, List.length_singleton, Nat.mul_succ, ← hplace, List.take_left' hwhole,
      List.flatten_append, List.flatten_singleton, hplace, h.front]
  · have hrest : len * (k + 1 + 1) = s.2 + len + len + (len * (k + 1) - (s.2 + len)) := by
      rw [Nat.mul_succ]
      omega
    rw [← hback, hrest, ← List.drop_drop, List.drop_left' hwhole, List.drop_drop]
  · intro b hb
    rcases List.mem_append.1 hb with hb | hb
    · exact h.lengths b hb
    · rw [List.mem_singleton.1 hb]
      exact hwidth _ hk
  · -- the elements before are not above the last one, which is another value
    rw [List.pairwise_append]
    refine ⟨h.ascending, List.pairwise_singleton _ _, fun a ha b hb => ?_⟩
    obtain ⟨j, hj, rfl⟩ := (h.mem_iff a).1 ha
    rw [List.mem_singleton.1 hb]
    have hnext := hsorted k (k + 1) (by omega) hk
    have hne : value d (element len bytes k) ≠ value d (element len bytes (k + 1)) := fun heq =>
      hother (value_injective ((hwidth _ (by omega)).trans (hwidth _ hk).symm) heq).symm
    exact lt_of_le_of_lt (hsorted j k hj (by omega)) (lt_of_le_of_ne hnext hne)
  · rw [List.mem_append, List.mem_singleton, h.mem_iff]
    constructor
    · rintro (⟨j, hj, hb⟩ | rfl)
      · exact ⟨j, by omega, hb⟩
      · exact ⟨k + 1, le_rfl, rfl⟩
    · rintro ⟨j, hj, hb⟩
      rcases Nat.lt_or_ge k j with hlt | hle
      · obtain rfl : j = k + 1 := by omega
        exact Or.inr hb.symm
      · exact Or.inl ⟨j, hle, hb⟩

end Step

/-- What VECTOR makes of some elements of some bytes, or SORT and MAP of it. -/
structure Holds (d : Dtype) (s : Shape) (x : ArrayDesc) (len n : ℕ) : Prop where
  length_eq : x.length = len
  text_iff : x.text = true ↔ d = .t
  arsize_eq : x.arsize = len * n
  coeff_eq : x.coeff = s.coeff
  bounds_eq : x.bounds = false
  dimct_eq : x.dimct = s.dimct
  a0_eq : x.coeff = true → x.a0 = x.pointer

variable {s : Shape} {x : ArrayDesc} {data : List Byte}

/-- Its elements are all there, whatever the extents it has. -/
def counted (x : ArrayDesc) (n : ℕ) : ArrayDesc :=
  { x with m := fun w => if w = 0 then n else 1 }

end MdsPlus.DistinctUnion
