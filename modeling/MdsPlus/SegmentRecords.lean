import MdsPlus.Datafile
import MdsPlus.Outcome

/-!
Segmented records as they lie in a datafile: a header for the node, index pages of
128 slots chained from the newest to the oldest, and data and dimensions of the
segments. Sizes are computed in unbounded integers where the source has int.
-/

namespace MdsPlus.SegmentRecords

open BitMemory Codec ByteFile Datafile

abbrev MAX_DIMS : ℕ := 8
abbrev SEGMENTS_PER_INDEX : ℕ := 128

def DTYPE_QU : Byte := 5
def DTYPE_Q : Byte := 9
def DTYPE_OPAQUE : Byte := 217
def CLASS_A : Byte := 4
def CLASS_CA : Byte := 195

structure SegmentHeader where
  dtype : Byte
  dimct : Byte
  dims : Vector (BitVec 32) MAX_DIMS
  length : BitVec 16
  idx : BitVec 32
  nextRow : BitVec 32
  indexOffset : Offset
  dataOffset : Offset
  dimOffset : Offset

/-- The start or the end of a segment: a time, or a record when there is no time. -/
structure LimitInfo where
  value : BitVec 64
  offset : Offset
  length : BitVec 32
  deriving DecidableEq

structure SegmentInfo where
  start : LimitInfo
  stop : LimitInfo
  dimensionOffset : Offset
  dimensionLength : BitVec 32
  dataOffset : Offset
  rows : BitVec 32
  deriving DecidableEq

structure SegmentIndex where
  previousOffset : Offset
  firstIdx : BitVec 32
  segment : Vector SegmentInfo SEGMENTS_PER_INDEX

def segmentHeader : Format SegmentHeader :=
  view (pair int8 (pair int8 (pair (table int32 MAX_DIMS) (pair int16 (pair int32 (pair int32
      (pair int64 (pair int64 int64))))))))
    { toFun := fun h => (h.dtype, h.dimct, h.dims, h.length, h.idx, h.nextRow, h.indexOffset,
        h.dataOffset, h.dimOffset)
      invFun := fun p => ⟨p.1, p.2.1, p.2.2.1, p.2.2.2.1, p.2.2.2.2.1, p.2.2.2.2.2.1,
        p.2.2.2.2.2.2.1, p.2.2.2.2.2.2.2.1, p.2.2.2.2.2.2.2.2⟩
      left_inv := fun _ => rfl
      right_inv := fun _ => rfl }

def segmentInfo : Format SegmentInfo :=
  view (pair int64 (pair int64 (pair int64 (pair int32 (pair int64 (pair int32 (pair int64
      (pair int32 (pair int64 int32)))))))))
    { toFun := fun s => (s.start.value, s.stop.value, s.start.offset, s.start.length,
        s.stop.offset, s.stop.length, s.dimensionOffset, s.dimensionLength, s.dataOffset, s.rows)
      invFun := fun p => ⟨⟨p.1, p.2.2.1, p.2.2.2.1⟩, ⟨p.2.1, p.2.2.2.2.1, p.2.2.2.2.2.1⟩,
        p.2.2.2.2.2.2.1, p.2.2.2.2.2.2.2.1, p.2.2.2.2.2.2.2.2.1, p.2.2.2.2.2.2.2.2.2⟩
      left_inv := fun _ => rfl
      right_inv := fun _ => rfl }

def segmentIndex : Format SegmentIndex :=
  view (pair int64 (pair int32 (table segmentInfo SEGMENTS_PER_INDEX)))
    { toFun := fun i => (i.previousOffset, i.firstIdx, i.segment)
      invFun := fun p => ⟨p.1, p.2.1, p.2.2⟩
      left_inv := fun _ => rfl
      right_inv := fun _ => rfl }

/-- All bits set, as a page is filled before its slots are used. -/
def emptyInfo : SegmentInfo := ⟨⟨-1, -1, -1⟩, ⟨-1, -1, -1⟩, -1, -1, -1, -1⟩

def newIndex (previousOffset : Offset) (firstIdx : BitVec 32) : SegmentIndex :=
  ⟨previousOffset, firstIdx, Vector.replicate _ emptyInfo⟩

/-- An array descriptor; its `arsize` is the number of bytes. -/
structure ArrayDsc where
  dtype : Byte
  length : ℕ
  dims : List ℕ
  bytes : List Byte
  deriving DecidableEq

/-- Descriptors by what the segment routines ask of them: a quadword, an array, a
record of type opaque, anything else. -/
inductive Dsc (V : Type)
  | quadword (q : BitVec 64)
  | array (a : ArrayDsc)
  | opaqueRecord (v : V)
  | other (v : V)

def ArrayDsc.lastDim (a : ArrayDsc) : ℕ :=
  if a.dims.length = 1 then a.bytes.length / a.length else a.dims.getLastD 0

inductive Status
  | failure | noSegments | bufferOvf | invDtpUsg | invDtype | undefined
  deriving DecidableEq, Repr

/-- What the segment routines use of the descriptor library: records, and cutting the
dimension of a partly filled segment, which may fail. -/
structure Records (V : Type) extends Serializer (Dsc V) where
  trimLastSegment : ℤ → Dsc V → Except Status (Dsc V)

variable {V : Type}

def stampBytes (stamps : List (BitVec 64)) : List Byte := stamps.flatMap int64.encode

def stampsOf (bytes : List Byte) : List (BitVec 64) :=
  (List.range (bytes.length / 8)).map fun i => int64.decode ((bytes.drop (i * 8)).take 8)

def stampArray (stamps : List (BitVec 64)) : ArrayDsc :=
  ⟨DTYPE_Q, 8, [stamps.length], stampBytes stamps⟩

def dimAt (shead : SegmentHeader) (j : ℕ) : BitVec 32 := shead.dims.toList.getD j 0

/-- Bytes of a row: the element length times all dimensions but the last. -/
def bytesPerRow (shead : SegmentHeader) : ℤ :=
  (List.range (shead.dimct.toNat - 1)).foldl (fun n j => n * (dimAt shead j).toInt)
    shead.length.toNat

/-- Rows as a serialized array tells them: from the sizes of an array of one
dimension, else its last coefficient. -/
def compressedRows (buffer : List Byte) : Option ℤ :=
  let short (i : ℕ) : ℤ := (int16.decode ((buffer.drop i).take 2)).toInt
  let long (i : ℕ) : ℤ := (int32.decode ((buffer.drop i).take 4)).toInt
  let dimct := (buffer.getD 11 0).toInt
  if buffer.getD 3 0 ≠ CLASS_CA ∧ buffer.getD 3 0 ≠ CLASS_A then none
  else if dimct = 1 then some (long 12 / short 0)
  else some (long (16 + dimct * 4).toNat)

def getCompressedSegmentRows (f : File) (offset : Offset) : Option ℤ :=
  (readPropertySafe f offset 60).bind compressedRows

def treeGetDsc (S : Records V) (f : File) (offset : Offset) (length : ℕ) :
    Except Status (Dsc V) :=
  match (readPropertySafe f offset length).bind S.serializeIn with
  | some d => .ok d
  | none => .error .failure

/-- Cut trailing zeros: the loop over filled rows. -/
def dropZeros (stamps : List (BitVec 64)) : ℕ → ℕ
  | 0 => 0
  | n + 1 => if stamps.getD n 0 = 0 then dropZeros stamps n else n + 1

/-- How far a timestamped segment is filled. Trailing null timestamps are removed
unless the last one continues negative times. -/
def getFilledRowsTs (shead : SegmentHeader) (sinfo : SegmentInfo) (idx : ℤ)
    (stamps : List (BitVec 64)) : ℤ :=
  if shead.idx.toInt = idx then
    if shead.nextRow.toInt < 0 then sinfo.rows.toInt else shead.nextRow.toInt
  else
    let rows := sinfo.rows.toInt
    if rows > 1 ∧ (stamps.getD (rows.toNat - 2) 0).toInt ≥ 0 then dropZeros stamps rows.toNat
    else rows

def readData (S : Records V) (f : File) (shead : SegmentHeader) (sinfo : SegmentInfo)
    (filledRows : ℤ) : Except Status (Dsc V) :=
  if sinfo.rows.toInt < 0 then
    treeGetDsc S f sinfo.dataOffset (sinfo.rows &&& 0x7fffffff).toNat
  else
    let arsize := bytesPerRow shead * filledRows
    if arsize < 0 ∨ shead.dimct = 0 then .error .undefined
    else
      match readProperty f sinfo.dataOffset arsize.toNat with
      | none => .error .failure
      | some bytes =>
          let dims := (List.range (shead.dimct.toNat - 1)).map fun j => (dimAt shead j).toNat
          .ok (.array ⟨shead.dtype, shead.length.toNat, dims ++ [filledRows.toNat], bytes⟩)

def timestamped (sinfo : SegmentInfo) : Bool :=
  sinfo.dimensionOffset ≠ -1 && sinfo.dimensionLength = 0

/-- Times of a timestamped segment and how many of them are filled. -/
def readStamps (f : File) (dbid : Bool) (shead : SegmentHeader) (sinfo : SegmentInfo)
    (idx rows : ℤ) : Except Status (ℤ × List (BitVec 64)) :=
  match readProperty f sinfo.dimensionOffset (rows * 8).toNat with
  | none => .error .failure
  | some bytes =>
      let stamps := stampsOf bytes
      let filled :=
        if dbid then
          if idx = shead.idx.toInt then shead.nextRow.toInt
          else getFilledRowsTs shead sinfo idx stamps
        else rows
      .ok (filled, stamps)

/-- Read data and dimension of a segment where asked for; trimmed when a tree is given. -/
def readSegment (S : Records V) (dbid : Bool) (f : File) (shead : SegmentHeader)
    (sinfo : SegmentInfo) (idx : ℤ) (segment dim : Bool) :
    Except Status (Option (Dsc V) × Option (Dsc V)) :=
  let rows :=
    if sinfo.rows.toInt < 0 then (getCompressedSegmentRows f sinfo.dataOffset).getD 1
    else sinfo.rows.toInt
  let untimed := if idx = shead.idx.toInt then shead.nextRow.toInt else rows
  let dataOf (filled : ℤ) (wanted : Bool) : Except Status (Option (Dsc V)) :=
    if wanted then (readData S f shead sinfo filled).map some else .ok none
  if sinfo.dataOffset = -1 then .error .failure
  else if timestamped sinfo then do
    let (filled, stamps) ← readStamps f dbid shead sinfo idx rows
    if dim ∧ (filled < 0 ∨ filled > rows) then .error .undefined
    else do
      let data ← dataOf filled segment
      .ok (data, if dim then some (.array (stampArray (stamps.take filled.toNat))) else none)
  else if sinfo.dimensionLength ≠ -1 then do
    let d ←
      if dim then do
        let d ← treeGetDsc S f sinfo.dimensionOffset sinfo.dimensionLength.toNat
        if dbid ∧ idx = shead.idx.toInt ∧ shead.nextRow.toInt ≠ rows then
          (S.trimLastSegment untimed d).map some
        else .ok (some d)
      else .ok none
    let data ← dataOf untimed segment
    .ok (data, d)
  else do
    -- no dimension is stored: the data stands for it
    let data ← dataOf untimed (segment || dim)
    if segment then .ok (data, if dim ∧ sinfo.dimensionOffset = -1 then data else none)
    else .ok (none, data)

/-- Walk the pages back to the one an index may be in. The fuel stands for the pages a
file can hold. -/
def findPage (f : File) (idx : ℤ) : ℕ → SegmentIndex → Offset →
    Except Status (SegmentIndex × Offset)
  | 0, _, _ => .error .undefined
  | fuel + 1, sindex, offset =>
      if idx < sindex.firstIdx.toInt ∧ sindex.previousOffset.toInt > 0 then
        match getRecord segmentIndex f sindex.previousOffset with
        | none => .error .failure
        | some previous => findPage f idx fuel previous sindex.previousOffset
      else .ok (sindex, offset)

def slotOf (idx : ℤ) : Fin SEGMENTS_PER_INDEX :=
  ⟨(idx % SEGMENTS_PER_INDEX).toNat, by
    have := Int.emod_lt_of_pos idx (show (0 : ℤ) < 128 by decide)
    have := Int.emod_nonneg idx (show (128 : ℤ) ≠ 0 by decide)
    simp only [SEGMENTS_PER_INDEX, Nat.cast_ofNat]
    omega⟩

/-- A node as the segment routines see it: the datafile and where the extended
attributes are. The journal lists the places written without a record of their own:
the rows and timestamps of segments. -/
structure State where
  file : File
  extendedNci : Bool
  rfa : Rfa
  raw : List (ℕ × ℕ)

def loadExtendedNci (s : State) : Option ExtendedAttributes :=
  if s.extendedNci then getRecord extendedAttributes s.file (rfaToSeek s.rfa) else none

def loadSegmentHeader (f : File) (attr : ExtendedAttributes) : Option SegmentHeader :=
  getRecord segmentHeader f attr.facilityOffset[SEGMENTED_RECORD_FACILITY]

def loadSegmentIndex (f : File) (shead : SegmentHeader) : Option SegmentIndex :=
  if shead.indexOffset = -1 then none else getRecord segmentIndex f shead.indexOffset

def openIndexRead (s : State) : Except Status (SegmentHeader × SegmentIndex) :=
  match loadExtendedNci s with
  | none => .error .noSegments
  | some attr =>
      match loadSegmentHeader s.file attr with
      | none => .error .noSegments
      | some shead =>
          match loadSegmentIndex s.file shead with
          | none => .error .failure
          | some sindex => .ok (shead, sindex)

structure Found where
  shead : SegmentHeader
  sindex : SegmentIndex
  idx : ℤ

def Found.sinfo (v : Found) : SegmentInfo := v.sindex.segment[slotOf v.idx]

/-- Minus one asks for the last segment. -/
def getSegment (s : State) (idx : ℤ) : Except Status Found := do
  let (shead, sindex) ← openIndexRead s
  let idx := if idx = -1 then shead.idx.toInt else idx
  let (sindex, _) ← findPage s.file idx (s.file.size + 1) sindex shead.indexOffset
  if idx < sindex.firstIdx.toInt ∨ idx ≥ sindex.firstIdx.toInt + SEGMENTS_PER_INDEX then
    .error .failure
  else .ok ⟨shead, sindex, idx⟩

def treeGetSegment (S : Records V) (s : State) (idx : ℤ) (segment dim : Bool) :
    Except Status (Option (Dsc V) × Option (Dsc V)) := do
  let v ← getSegment s idx
  readSegment S true s.file v.shead v.sinfo v.idx segment dim

def treeGetNumSegments (s : State) : ℤ :=
  match (loadExtendedNci s).bind (loadSegmentHeader s.file) with
  | none => 0
  | some shead => shead.idx.toInt + 1

end MdsPlus.SegmentRecords
