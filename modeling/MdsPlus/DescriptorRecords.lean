import MdsPlus.DescriptorTrees
import MdsPlus.SerializedRecords
import Mathlib.Algebra.Group.Nat.Defs
import Mathlib.Data.List.GetD

/-!
Serializing a descriptor. A first pass counts the bytes of the record, a second one writes them:
the header of each descriptor with its data, and behind it the nested descriptors, each where the
counts of those before it put it.
-/

namespace MdsPlus.DescriptorRecords

open BitMemory DescriptorTrees SerializedRecords

/-! ### Descriptors -/

/-- A type of record: none of those that give a length of zero a meaning of their own. -/
abbrev RecordType := { t : Byte // mdsFixDscLength t 0 = 0 }

/-- A class that is none of those below. -/
abbrev OtherClass := { c : Byte // c ∉ ([1, 2, 4, 192, 193, 194, 195, 196] : List Byte) }

/-- A descriptor of each class, and the null pointer. A string of type DSC is as good as another;
the `a0` of an array counts from what it points to. -/
inductive Tree
  | null
  | s (dynamic : Bool) (dtype : Byte) (data : List Byte)
  | xs (dynamic : Bool) (length : BitVec 16) (dtype : Byte) (data : List Byte)
  | r (dtype : RecordType) (data : List Byte) (dscptrs : List Tree)
  | a (dtype : Byte) (h : ArrayHead) (data : List Byte)
  | apd (dtype : Byte) (h : ArrayHead) (dscs : List Tree)
  | ca (dtype : Byte) (h : ArrayHead) (arsize : Word) (target : Tree)
  | other (cls : OtherClass) (dtype : Byte)

def Tree.isNull : Tree → Bool
  | .null => true
  | _ => false

def nestedIn : Tree → List Tree
  | .r _ _ dscptrs => dscptrs
  | .apd _ _ dscs => dscs
  | .ca _ _ _ target => [target]
  | _ => []

def hasCoeff : Dims → Bool
  | .plain _ => false
  | _ => true

def hasBounds : Dims → Bool
  | .bounds _ _ => true
  | _ => false

def dimct : Dims → ℕ
  | .plain dimct => dimct.toNat
  | .coeff _ m => m.length
  | .bounds _ m => m.length

/-- Numbers that their fields can hold. An array of pointers has room for them. -/
inductive Sized : Tree → Prop
  | null : Sized .null
  | s {dynamic : Bool} {dtype : Byte} {data : List Byte} (h : data.length < 2 ^ 16) :
      Sized (.s dynamic dtype data)
  | xs {dynamic : Bool} {length : BitVec 16} {dtype : Byte} {data : List Byte}
      (h : data.length < 2 ^ 32) : Sized (.xs dynamic length dtype data)
  | r {dtype : RecordType} {data : List Byte} {dscptrs : List Tree} (h : data.length < 2 ^ 16)
      (hndesc : dscptrs.length < 2 ^ 8) (hdscptrs : ∀ t ∈ dscptrs, Sized t) :
      Sized (.r dtype data dscptrs)
  | a {dtype : Byte} {h : ArrayHead} {data : List Byte} (hdimct : dimct h.dims < 2 ^ 8)
      (hdata : data.length < 2 ^ 32) : Sized (.a dtype h data)
  | apd {dtype : Byte} {h : ArrayHead} {dscs : List Tree} (hdimct : dimct h.dims < 2 ^ 8)
      (hlength : h.length = 8) (harsize : 8 * dscs.length < 2 ^ 32) (hdscs : ∀ t ∈ dscs, Sized t) :
      Sized (.apd dtype h dscs)
  | ca {dtype : Byte} {h : ArrayHead} {arsize : Word} {target : Tree}
      (hdimct : dimct h.dims < 2 ^ 8) (htarget : Sized target) : Sized (.ca dtype h arsize target)
  | other {cls : OtherClass} {dtype : Byte} : Sized (.other cls dtype)

/-! ### Bytes of a record -/

def shortBytes (v : BitVec 16) : List Byte := [v.extractLsb' 0 8, v.extractLsb' 8 8]

def wordBytes (v : Word) : List Byte :=
  [v.extractLsb' 0 8, v.extractLsb' 8 8, v.extractLsb' 16 8, v.extractLsb' 24 8]

def wordsBytes (vs : List Word) : List Byte := vs.flatMap wordBytes

/-- `set_aflags` -/
def flagsByte (h : ArrayHead) : Byte :=
  BitVec.ofNat 8 (8 * h.binscale.toNat + 16 * h.redim.toNat + 32 * h.column.toNat +
    64 * (hasCoeff h.dims).toNat + 128 * (hasBounds h.dims).toNat)

def shapeSize (dims : Dims) : ℕ :=
  (if hasCoeff dims then 4 + 4 * dimct dims else 0) +
    if hasBounds dims then 4 * dimct dims * 2 else 0

def shapeBytes (base : Word) : Dims → List Byte
  | .plain _ => []
  | .coeff a0 m => wordBytes (base + BitVec.ofInt 32 a0) ++ wordsBytes m
  | .bounds a0 m =>
      wordBytes (base + BitVec.ofInt 32 a0) ++ wordsBytes (m.map Prod.fst) ++
        wordsBytes (m.flatMap fun b => [b.2.1, b.2.2])

def arrayBytes (cls dtype : Byte) (length : BitVec 16) (h : ArrayHead) (dscsize arsize : Word) :
    List Byte :=
  shortBytes length ++ [dtype, cls] ++ wordBytes dscsize ++
    [h.scale, h.digits, flagsByte h, BitVec.ofNat 8 (dimct h.dims)] ++ wordBytes arsize

def dscsize (h : ArrayHead) : Word := BitVec.ofNat 32 (16 + shapeSize h.dims)

def classS (dynamic : Bool) : Byte := if dynamic then 2 else 1
def classXs (dynamic : Bool) : Byte := if dynamic then 192 else 193

def sBytes (dynamic : Bool) (dtype : Byte) (data : List Byte) : List Byte :=
  shortBytes (BitVec.ofNat 16 data.length) ++ [dtype, classS dynamic] ++ wordBytes 8 ++ data

def xsBytes (dynamic : Bool) (length : BitVec 16) (dtype : Byte) (data : List Byte) : List Byte :=
  shortBytes length ++ [dtype, classXs dynamic] ++ wordBytes 12 ++
    wordBytes (BitVec.ofNat 32 data.length) ++ data

/-- The header of a record with the places of the nested descriptors. Three bytes are left. -/
def rBytes (dtype : Byte) (data : List Byte) (dscptrs : List Word) : List Byte :=
  shortBytes (BitVec.ofNat 16 data.length) ++ [dtype, 194] ++
    wordBytes (if data = [] then 0 else BitVec.ofNat 32 (12 + 4 * dscptrs.length)) ++
    [BitVec.ofNat 8 dscptrs.length, 0, 0, 0] ++ wordsBytes dscptrs ++ data

def aBytes (dtype : Byte) (h : ArrayHead) (data : List Byte) : List Byte :=
  arrayBytes 4 dtype h.length h (dscsize h) (BitVec.ofNat 32 data.length) ++
    shapeBytes (dscsize h) h.dims ++ data

def apdBytes (dtype : Byte) (h : ArrayHead) (dscptr : List Word) : List Byte :=
  arrayBytes 196 dtype 4 h (dscsize h) (BitVec.ofNat 32 (4 * dscptr.length)) ++
    shapeBytes (dscsize h) h.dims ++ wordsBytes dscptr

/-- Without a pointer the header says so. -/
def caBytes (dtype : Byte) (h : ArrayHead) (arsize : Word) (isNull : Bool) : List Byte :=
  arrayBytes 195 dtype h.length h (if isNull then 0 else dscsize h) arsize ++ shapeBytes 0 h.dims

/-! ### The two passes -/

def writeBytes (mem : Memory) (pos : ℕ) (bytes : List Byte) : Memory :=
  fun i => if pos ≤ i ∧ i < pos + bytes.length then bytes.getD (i - pos) 0 else mem i

/-- What comes of a descriptor: the status, the count of either pass, how far the second one goes
on in the output, and what it writes there. -/
structure Passes where
  status : Status
  size : Word
  written : ℕ
  write : ℕ → Memory → Memory

def lastStatus : List (Option Passes) → Status → Status
  | [], status => status
  | none :: slots, status => lastStatus slots status
  | some p :: slots, _ => lastStatus slots p.status

/-- The count of the nested descriptors; a null pointer may be counted, too. -/
def slotsSize (gap : ℕ) : List (Option Passes) → Word
  | [] => 0
  | none :: slots => BitVec.ofNat 32 gap + slotsSize gap slots
  | some p :: slots => p.size + slotsSize gap slots

/-- How far the output goes on over the nested descriptors. -/
def advance (gap : ℕ) : List (Option Passes) → ℕ
  | [] => 0
  | none :: slots => gap + advance gap slots
  | some p :: slots => p.size.toNat + advance gap slots

/-- Where the nested descriptors stand, from the beginning of the one that points to them. -/
def offsets (gap : ℕ) : List (Option Passes) → ℕ → List Word
  | [], _ => []
  | none :: slots, out => 0 :: offsets gap slots (out + gap)
  | some p :: slots, out => BitVec.ofNat 32 out :: offsets gap slots (out + p.size.toNat)

def writeSlots (gap : ℕ) : List (Option Passes) → ℕ → Memory → Memory
  | [], _, mem => mem
  | none :: slots, out, mem => writeSlots gap slots (out + gap) mem
  | some p :: slots, out, mem => writeSlots gap slots (out + p.size.toNat) (p.write out mem)

/-- A descriptor that is counted with `front` bytes before the nested ones, and written with a
header that has their places. -/
def node (gap : ℕ) (front : Word) (header : List Word → List Byte) (slots : List (Option Passes)) :
    Passes :=
  let start := (header (slots.map fun _ => 0)).length
  { status := lastStatus slots .success
    size := front + slotsSize gap slots
    written := start + advance gap slots
    write := fun out mem =>
      writeSlots gap slots (out + start) (writeBytes mem out (header (offsets gap slots start))) }

def shapeCount (dims : Dims) : Word := BitVec.ofNat 32 (shapeSize dims)

def apdCount (dims : Dims) (num : ℕ) : Word :=
  16 + (if hasCoeff dims then BitVec.ofNat 32 (8 + 4 * dimct dims) else 0) +
    if hasBounds dims then BitVec.ofNat 32 (4 * dimct dims * 2) else BitVec.ofNat 32 (num * 4)

def slot (t : Tree) (p : Passes) : Option Passes := if t.isNull then none else some p

mutual

def copyDxRec : Tree → Passes
  | .null => ⟨.success, 0, 0, fun _ mem => mem⟩
  | .s dynamic dtype data =>
      node 0 (8 + BitVec.ofNat 32 data.length) (fun _ => sBytes dynamic dtype data) []
  | .xs dynamic length dtype data =>
      node 0 (12 + BitVec.ofNat 32 data.length) (fun _ => xsBytes dynamic length dtype data) []
  | .r dtype data dscptrs =>
      node 0 (BitVec.ofNat 32 (12 + dscptrs.length * 4) + BitVec.ofNat 32 data.length)
        (rBytes dtype data) (copyAll dscptrs)
  | .a dtype h data =>
      node 0 (16 + shapeCount h.dims + BitVec.ofNat 32 data.length) (fun _ => aBytes dtype h data)
        []
  | .apd dtype h dscs => node 4 (apdCount h.dims dscs.length) (apdBytes dtype h) (copyAll dscs)
  | .ca dtype h arsize target =>
      node 0 (16 + shapeCount h.dims) (fun _ => caBytes dtype h arsize target.isNull)
        [slot target (copyDxRec target)]
  | .other _ _ => ⟨.invStrDes, 0, 0, fun _ mem => mem⟩

def copyAll : List Tree → List (Option Passes)
  | [] => []
  | t :: ts => slot t (copyDxRec t) :: copyAll ts

end

/-! ### Bytes in memory -/

def HoldsBytes (mem : Memory) (pos : ℕ) (bytes : List Byte) : Prop :=
  ∀ i (hi : i < bytes.length), mem (pos + i) = bytes[i]

/-- Memory is zero over so many bytes. -/
def Blank (mem : Memory) (pos len : ℕ) : Prop := ∀ i, pos ≤ i → i < pos + len → mem i = 0

theorem holdsBytes_append (mem : Memory) (pos : ℕ) (xs ys : List Byte) :
    HoldsBytes mem pos (xs ++ ys) ↔
      HoldsBytes mem pos xs ∧ HoldsBytes mem (pos + xs.length) ys := by
  constructor
  · intro h
    constructor
    · intro i hi
      rw [h i (by rw [List.length_append]; omega), List.getElem_append_left hi]
    · intro i hi
      have hsum := h (xs.length + i) (by rw [List.length_append]; omega)
      rw [List.getElem_append_right (by omega)] at hsum
      simpa [Nat.add_assoc] using hsum
  · rintro ⟨hx, hy⟩ i hi
    by_cases hlt : i < xs.length
    · rw [List.getElem_append_left hlt]
      exact hx i hlt
    · rw [List.length_append] at hi
      have hrest := hy (i - xs.length) (by omega)
      rw [List.getElem_append_right (by omega), ← hrest]
      congr 1
      omega

theorem HoldsBytes.congr {mem mem' : Memory} {pos : ℕ} {bytes : List Byte}
    (h : HoldsBytes mem pos bytes)
    (heq : ∀ i, pos ≤ i → i < pos + bytes.length → mem' i = mem i) :
    HoldsBytes mem' pos bytes := by
  intro i hi
  rw [heq (pos + i) (by omega) (by omega)]
  exact h i hi

theorem holdsBytes_replicate {mem : Memory} {pos len : ℕ} (h : Blank mem pos len) :
    HoldsBytes mem pos (List.replicate len 0) := by
  intro i hi
  rw [List.length_replicate] at hi
  rw [List.getElem_replicate]
  exact h _ (by omega) (by omega)

theorem holdsBytes_writeBytes (mem : Memory) (pos : ℕ) (bytes : List Byte) :
    HoldsBytes (writeBytes mem pos bytes) pos bytes := by
  intro i hi
  rw [writeBytes, if_pos (by omega), Nat.add_sub_cancel_left]
  exact List.getD_eq_getElem _ _ hi

theorem writeBytes_of_outside {mem : Memory} {pos : ℕ} {bytes : List Byte} {i : ℕ}
    (h : i < pos ∨ pos + bytes.length ≤ i) : writeBytes mem pos bytes i = mem i :=
  if_neg (by omega)

theorem Blank.of_le {mem : Memory} {pos len : ℕ} (h : Blank mem pos len) {pos' len' : ℕ}
    (hpos : pos ≤ pos') (hend : pos' + len' ≤ pos + len) : Blank mem pos' len' :=
  fun i hlow hhigh => h i (by omega) (by omega)

theorem Blank.congr {mem mem' : Memory} {pos len : ℕ} (h : Blank mem pos len)
    (heq : ∀ i, pos ≤ i → i < pos + len → mem' i = mem i) : Blank mem' pos len := by
  intro i hlow hhigh
  rw [heq i hlow hhigh]
  exact h i hlow hhigh

/-! ### What is written -/

/-- A place in the output is written with these bytes and nothing else is. -/
structure Writes (write : ℕ → Memory → Memory) (bytes : List Byte) : Prop where
  holds : ∀ {out : ℕ} {mem : Memory}, Blank mem out bytes.length →
    HoldsBytes (write out mem) out bytes
  outside : ∀ {out : ℕ} {mem : Memory} {i : ℕ}, i < out ∨ out + bytes.length ≤ i →
    write out mem i = mem i

structure Laid (p : Passes) (bytes : List Byte) : Prop where
  status : p.status = .success
  size : p.size.toNat = bytes.length
  written : p.written = bytes.length
  writes : Writes p.write bytes

/-- What stands for a nested descriptor: nothing but a gap for the null pointer. -/
def LaidSlot (gap : ℕ) : Option Passes → List Byte → Prop
  | none, bytes => bytes = List.replicate gap 0
  | some p, bytes => Laid p bytes

section Slots

variable {gap : ℕ} {slots : List (Option Passes)} {bodies : List (List Byte)}

theorem lastStatus_of_laid (h : List.Forall₂ (LaidSlot gap) slots bodies) (status : Status)
    (hstatus : status = .success) : lastStatus slots status = .success := by
  induction h generalizing status with
  | nil => exact hstatus
  | @cons slot body slots bodies hslot _ ih =>
    cases slot with
    | none => exact ih status hstatus
    | some p => exact ih p.status hslot.status

theorem slotsSize_of_laid (h : List.Forall₂ (LaidSlot gap) slots bodies) :
    slotsSize gap slots = BitVec.ofNat 32 bodies.flatten.length := by
  induction h with
  | nil => rfl
  | @cons slot body slots bodies hslot _ ih =>
    rw [List.flatten_cons, List.length_append, BitVec.ofNat_add]
    cases slot with
    | none =>
      obtain rfl : body = List.replicate gap 0 := hslot
      rw [slotsSize, ih, List.length_replicate]
    | some p =>
      have hsize : p.size = BitVec.ofNat 32 body.length := by
        rw [← hslot.size, BitVec.ofNat_toNat, BitVec.setWidth_eq]
      rw [slotsSize, ih, hsize]

theorem advance_of_laid (h : List.Forall₂ (LaidSlot gap) slots bodies) :
    advance gap slots = bodies.flatten.length := by
  induction h with
  | nil => rfl
  | @cons slot body slots bodies hslot _ ih =>
    rw [List.flatten_cons, List.length_append]
    cases slot with
    | none =>
      obtain rfl : body = List.replicate gap 0 := hslot
      rw [advance, ih, List.length_replicate]
    | some p => rw [advance, ih, hslot.size]

theorem writes_of_laid (h : List.Forall₂ (LaidSlot gap) slots bodies) :
    Writes (writeSlots gap slots) bodies.flatten := by
  induction h with
  | nil => exact ⟨fun _ i hi => absurd hi (Nat.not_lt_zero i), fun _ => rfl⟩
  | @cons slot body slots bodies hslot _ ih =>
    rw [List.flatten_cons]
    cases slot with
    | none =>
      obtain rfl : body = List.replicate gap 0 := hslot
      constructor
      · intro out mem hblank
        rw [List.length_append, List.length_replicate] at hblank
        rw [holdsBytes_append, List.length_replicate, writeSlots]
        have hgap := holdsBytes_replicate (hblank.of_le (Nat.le_refl out) (by omega) :
          Blank mem out gap)
        refine ⟨hgap.congr fun i hlow hhigh => ih.outside (.inl ?_), ih.holds ?_⟩
        · rwa [List.length_replicate] at hhigh
        · exact hblank.of_le (by omega) (by omega)
      · intro out mem i hi
        rw [List.length_append, List.length_replicate] at hi
        exact ih.outside (by omega)
    | some p =>
      have hsize := hslot.size
      constructor
      · intro out mem hblank
        rw [List.length_append] at hblank
        rw [holdsBytes_append, writeSlots, hsize]
        have hbody := hslot.writes.holds (hblank.of_le (Nat.le_refl out) (by omega))
        refine ⟨hbody.congr fun i hlow hhigh => ih.outside (.inl hhigh), ih.holds ?_⟩
        refine (hblank.of_le (by omega) (by omega)).congr fun i hlow hhigh => ?_
        exact hslot.writes.outside (.inr hlow)
      · intro out mem i hi
        rw [List.length_append] at hi
        rw [writeSlots, hsize, ih.outside (by omega)]
        exact hslot.writes.outside (by omega)

theorem offsets_length (gap : ℕ) (slots : List (Option Passes)) (out : ℕ) :
    (offsets gap slots out).length = slots.length := by
  induction slots generalizing out with
  | nil => rfl
  | cons slot slots ih =>
    cases slot with
    | none => rw [offsets, List.length_cons, List.length_cons, ih]
    | some p => rw [offsets, List.length_cons, List.length_cons, ih]

variable {front : Word} {header : List Word → List Byte} {start : ℕ}

theorem node_written (hheader : ∀ table, table.length = slots.length →
    (header table).length = start) :
    (node gap front header slots).written = start + advance gap slots := by
  unfold node
  dsimp only
  rw [hheader _ (List.length_map ..)]

theorem laid_node (hheader : ∀ table, table.length = slots.length →
      (header table).length = start)
    (hfront : front = BitVec.ofNat 32 start) (h : List.Forall₂ (LaidSlot gap) slots bodies)
    (hfits : start + bodies.flatten.length < 2 ^ 32) :
    Laid (node gap front header slots) (header (offsets gap slots start) ++ bodies.flatten) := by
  have htable := hheader _ (offsets_length gap slots start)
  have hlength : (header (offsets gap slots start) ++ bodies.flatten).length =
      start + bodies.flatten.length := by rw [List.length_append, htable]
  have hslots := writes_of_laid h
  constructor
  · exact lastStatus_of_laid h _ rfl
  · show (front + slotsSize gap slots).toNat = _
    rw [hlength, hfront, slotsSize_of_laid h, ← BitVec.ofNat_add, BitVec.toNat_ofNat,
      Nat.mod_eq_of_lt hfits]
  · rw [node_written hheader, advance_of_laid h, hlength]
  · have hwrite : (node gap front header slots).write = fun out mem =>
        writeSlots gap slots (out + start)
          (writeBytes mem out (header (offsets gap slots start))) := by
      unfold node
      dsimp only
      rw [hheader _ (List.length_map ..)]
    rw [hwrite]
    constructor
    · intro out mem hblank
      rw [hlength] at hblank
      rw [holdsBytes_append, htable]
      constructor
      · refine (holdsBytes_writeBytes mem out _).congr fun i hlow hhigh => ?_
        rw [htable] at hhigh
        exact hslots.outside (.inl hhigh)
      · refine hslots.holds ?_
        refine (hblank.of_le (by omega) (by omega)).congr fun i hlow hhigh => ?_
        exact writeBytes_of_outside (.inr (by rw [htable]; exact hlow))
    · intro out mem i hi
      rw [hlength] at hi
      rw [hslots.outside (by omega)]
      exact writeBytes_of_outside (by rw [htable]; omega)

end Slots

end MdsPlus.DescriptorRecords
