import MdsPlus.SegmentRecords

/-!
Writing segments. A segment begins at the end of the file, or in the storage of the
segment before it when that one is compressed away; later rows go into the storage of
the last segment. A call that fails leaves the node as it was.
-/

namespace MdsPlus.Segments

open BitMemory Codec ByteFile Datafile SegmentRecords

variable {V : Type}

structure Vars where
  file : File
  raw : List (ℕ × ℕ)
  attr : ExtendedAttributes
  attrOffset : Offset
  shead : SegmentHeader
  sindex : SegmentIndex
  idx : ℤ
  compress : ℤ

def Vars.setSlot (vars : Vars) (i : Fin SEGMENTS_PER_INDEX) (sinfo : SegmentInfo) : Vars :=
  { vars with sindex := { vars.sindex with segment := vars.sindex.segment.set i sinfo i.isLt } }

def Vars.sinfo (vars : Vars) : SegmentInfo := vars.sindex.segment[slotOf vars.idx]

def Vars.setSinfo (vars : Vars) (sinfo : SegmentInfo) : Vars :=
  vars.setSlot (slotOf vars.idx) sinfo

/-- Write rows or timestamps: bytes without a record around them. -/
def writeRaw (file : File) (raw : List (ℕ × ℕ)) (offset : Offset) (bytes : List Byte) :
    File × List (ℕ × ℕ) × Offset :=
  let (file, offset) := writeProperty file offset bytes
  (file, raw ++ [(offset.toNat, bytes.length)], offset)

inductive Initial (V : Type)
  | array (a : ArrayDsc)
  | opaqueRecord (v : V)

/-- Arrays of any number of dimensions pass: the test for one to eight dimensions is
true of every number. -/
def checkInput : Dsc V → Except Status (Initial V)
  | .array a => .ok (.array a)
  | .opaqueRecord v => .ok (.opaqueRecord v)
  | _ => .error .invDtpUsg

def Initial.dtype : Initial V → Byte
  | .array a => a.dtype
  | .opaqueRecord _ => DTYPE_OPAQUE

def Initial.dimct : Initial V → ℕ
  | .array a => a.dims.length
  | .opaqueRecord _ => 0

def Initial.length : Initial V → ℕ
  | .array a => a.length
  | .opaqueRecord _ => 0

def Initial.addLength : Initial V → ℕ
  | .array a => a.bytes.length
  | .opaqueRecord _ => 0

def sameDims (shead : SegmentHeader) (dims : List ℕ) (n : ℕ) : Bool :=
  (List.range n).all fun j => dimAt shead j = BitVec.ofNat 32 (dims.getD j 0)

def setDims (dims : Vector (BitVec 32) MAX_DIMS) (m : List ℕ) : Vector (BitVec 32) MAX_DIMS :=
  Vector.ofFn fun j => if (j : ℕ) < m.length then BitVec.ofNat 32 (m.getD j 0) else dims[j]

def beginExtendedNci (s : State) : ExtendedAttributes × Offset :=
  match loadExtendedNci s with
  | some attr => (attr, rfaToSeek s.rfa)
  | none => (.none, -1)

def freshHeader : SegmentHeader := ⟨0, 0, Vector.replicate _ 0, 0, -1, 0, -1, 0, 0⟩

def withoutHeader (attr : ExtendedAttributes) : ExtendedAttributes :=
  { attr with
    facilityOffset := attr.facilityOffset.set SEGMENTED_RECORD_FACILITY (-1) segmented_lt }

/-- The header, which must be of the same type and shape; the element length is not
compared. -/
def beginSegmentHeader (f : File) (attr : ExtendedAttributes) (init : Initial V) :
    Except Status (ExtendedAttributes × SegmentHeader) :=
  match loadSegmentHeader f attr with
  | none => .ok (withoutHeader attr, freshHeader)
  | some shead =>
      if init.dtype ≠ shead.dtype then .error .failure
      else
        match init with
        | .opaqueRecord _ => .ok (attr, shead)
        | .array a =>
            if a.dims.length ≠ shead.dimct.toNat then .error .failure
            else if a.dims.length > 1 ∧ ¬ sameDims shead a.dims (a.dims.length - 1) then
              .error .failure
            else .ok (attr, shead)

def beginSegmentIndex (f : File) (shead : SegmentHeader) : SegmentHeader × SegmentIndex :=
  match loadSegmentIndex f shead with
  | some sindex => (shead, sindex)
  | none => ({ shead with indexOffset := -1 }, newIndex (-1) 0)

/-- Bytes of the segment before, by the new element length; minus one when there is
none to compare with. -/
def previousLength (shead : SegmentHeader) : ℤ :=
  if shead.idx.toInt > 0 ∧ shead.length ≠ 0 then
    (List.range shead.dimct.toNat).foldl (fun n d => n * (dimAt shead d).toInt)
      shead.length.toNat
  else -1

/-- The header of the segment that begins, with the dimensions still the old ones. -/
def nextHeader (shead : SegmentHeader) (init : Initial V) : SegmentHeader :=
  { shead with
    idx := shead.idx + 1
    dataOffset := -1
    dimOffset := -1
    dtype := init.dtype
    dimct := BitVec.ofNat 8 init.dimct
    length := BitVec.ofNat 16 init.length }

def headerDims (init : Initial V) : List ℕ :=
  match init with
  | .array a => if a.dims.length = 1 then [a.bytes.length / a.length] else a.dims
  | .opaqueRecord _ => []

/-- Compress the segment before on its own; its storage is free for the new one. -/
def checkCompressDim (S : Records V) (vars : Vars) (i : Fin SEGMENTS_PER_INDEX)
    (data _ : Option (Dsc V)) (_ : Initial V) : Except Status Vars :=
  match data with
  | none => .error .undefined
  | some data =>
      let sinfo := vars.sindex.segment[i]
      let (file, dataOffset, length) := putDsc S.toSerializer vars.file vars.compress data
      .ok ({ vars with
        file
        shead := { vars.shead with dataOffset := sinfo.dataOffset } }.setSlot i
          { sinfo with dataOffset, rows := length ||| 0x80000000 })

/-- The same with the timestamps, when both are full arrays. -/
def checkCompressTs (S : Records V) (vars : Vars) (i : Fin SEGMENTS_PER_INDEX)
    (data dim : Option (Dsc V)) (init : Initial V) : Except Status Vars :=
  match init, data, dim with
  | .array a, some (.array data), some (.array dim) =>
      if data.bytes ≠ [] ∧ data.bytes.length ≥ a.bytes.length ∧ dim.bytes ≠ [] ∧
          dim.bytes.length ≥ a.lastDim * 8 ∧ dim.dims.length = 1 ∧ dim.length = 8 ∧
          dim.dtype = DTYPE_Q then
        let sinfo := vars.sindex.segment[i]
        let shead := { vars.shead with
          dataOffset := sinfo.dataOffset
          dimOffset := sinfo.dimensionOffset }
        let (file, dataOffset, length) :=
          putDsc S.toSerializer vars.file vars.compress (.array data)
        let (file, dimensionOffset, dimensionLength) :=
          putDsc S.toSerializer file vars.compress (.array dim)
        let stamps := stampsOf dim.bytes
        .ok ({ vars with file, shead }.setSlot i
          { start := { sinfo.start with value := stamps.getD 0 0 }
            stop := { sinfo.stop with value := stamps.getD (dim.bytes.length / 8 - 1) 0 }
            dimensionOffset
            dimensionLength
            dataOffset
            rows := length ||| 0x80000000 })
      else .error .failure
  | .opaqueRecord _, _, _ => .error .undefined
  | _, _, _ => .error .failure

def opened (shead : SegmentHeader) (init : Initial V) (rowsFilled : ℤ) : SegmentHeader :=
  let next := nextHeader shead init
  { next with
    dims := setDims next.dims (headerDims init)
    nextRow := BitVec.ofInt 32 rowsFilled }

/-- Compress the segment before where that frees storage of the same size. -/
def packPrevious (S : Records V)
    (checkCompress : Vars → Fin SEGMENTS_PER_INDEX → Option (Dsc V) → Option (Dsc V) →
      Initial V → Except Status Vars)
    (vars : Vars) (init : Initial V) (previous : ℤ) : Except Status Vars :=
  if vars.idx % (SEGMENTS_PER_INDEX : ℤ) > 0 ∧ previous = init.addLength ∧
      vars.compress ≠ -1 then do
    let i := slotOf (vars.idx - 1)
    let r ← readSegment S true vars.file vars.shead vars.sindex.segment[i] (vars.idx - 1) true true
    checkCompress vars i r.1 r.2 init
  else .ok vars

def turnPage (vars : Vars) : Vars :=
  if vars.idx ≥ vars.sindex.firstIdx.toInt + SEGMENTS_PER_INDEX then
    { vars with
      sindex := newIndex vars.shead.indexOffset (BitVec.ofInt 32 vars.idx)
      shead := { vars.shead with indexOffset := -1 } }
  else vars

def beginSinfo (S : Records V)
    (checkCompress : Vars → Fin SEGMENTS_PER_INDEX → Option (Dsc V) → Option (Dsc V) →
      Initial V → Except Status Vars)
    (vars : Vars) (init : Initial V) (idx rowsFilled : ℤ) : Except Status Vars :=
  if idx = -1 then do
    let shead := opened vars.shead init rowsFilled
    let previous := previousLength (nextHeader vars.shead init)
    let vars ← packPrevious S checkCompress { vars with shead, idx := shead.idx.toInt } init
      previous
    .ok (turnPage vars)
  else if idx < -1 ∨ idx > vars.shead.idx.toInt then .error .bufferOvf
  else .error .failure

def putInitialvalue (vars : Vars) (a : ArrayDsc) : Except Status Vars :=
  let length := (List.range a.dims.length).foldl (fun n i => n * (dimAt vars.shead i).toInt)
    (a.length : ℤ)
  if length < 0 ∨ length > a.bytes.length then .error .undefined
  else
    let (file, raw, dataOffset) :=
      writeRaw vars.file vars.raw vars.shead.dataOffset (a.bytes.take length.toNat)
    .ok { vars with file, raw, shead := { vars.shead with dataOffset } }

def putOpaque (S : Records V) (vars : Vars) (d : Dsc V) : Vars :=
  let (file, dataOffset, length) := putDsc S.toSerializer vars.file vars.compress d
  { vars with file, shead := { vars.shead with dataOffset } }.setSinfo
    { vars.sinfo with dataOffset, rows := length ||| 0x80000000 }

def putdataInitialvalue (S : Records V) (vars : Vars) (init : Initial V) : Except Status Vars :=
  match init with
  | .opaqueRecord v => .ok (putOpaque S vars (.opaqueRecord v))
  | .array a =>
      if a.dtype = DTYPE_OPAQUE then .ok (putOpaque S vars (.array a))
      else do
        let vars ← putInitialvalue vars a
        .ok (vars.setSinfo { vars.sinfo with
          dataOffset := vars.shead.dataOffset
          rows := dimAt vars.shead (vars.shead.dimct.toNat - 1) })

/-- The time a limit is when it is given as a quadword. -/
def quadwordOf : Dsc V → Option (BitVec 64)
  | .quadword q => some q
  | .array a =>
      if (a.dtype = DTYPE_Q ∨ a.dtype = DTYPE_QU) ∧ a.bytes ≠ [] then
        some (int64.decode (a.bytes.take 8))
      else none
  | _ => none

def putLimitByDsc (S : Records V) (f : File) (compress : ℤ) (limit : Option (Dsc V))
    (info : LimitInfo) : File × LimitInfo :=
  match limit with
  | none => (f, info)
  | some d =>
      match quadwordOf d with
      | some q => (f, ⟨q, -1, 0⟩)
      | none =>
          let (f, offset, length) := putDsc S.toSerializer f compress d
          (f, ⟨-1, offset, length⟩)

/-- Enter limits and dimension in a slot, as far as they are given. -/
def putdimDim (S : Records V) (f : File) (compress : ℤ) (start stop dimension : Option (Dsc V))
    (sinfo : SegmentInfo) : File × SegmentInfo :=
  let (f, startInfo) := putLimitByDsc S f compress start sinfo.start
  let (f, stopInfo) := putLimitByDsc S f compress stop sinfo.stop
  let sinfo := { sinfo with start := startInfo, stop := stopInfo }
  match dimension with
  | none => (f, sinfo)
  | some d =>
      let (f, dimensionOffset, dimensionLength) := putDsc S.toSerializer f compress d
      (f, { sinfo with dimensionOffset, dimensionLength })

def putdimTs (vars : Vars) (timestamps : Option (List (BitVec 64))) (rowsFilled : ℤ) :
    Except Status Vars :=
  let rows := (dimAt vars.shead (vars.shead.dimct.toNat - 1)).toInt
  let given := timestamps.getD []
  if rows < 0 ∨ vars.shead.dimct = 0 then .error .undefined
  else if given.length < rowsFilled ∨ (timestamps.isSome ∧ rowsFilled < 0) then
    .error .undefined
  else
    let filled := given.take (min rowsFilled rows).toNat
    let stamps := filled ++ List.replicate (rows.toNat - filled.length) 0
    let (file, raw, dimOffset) :=
      writeRaw vars.file vars.raw vars.shead.dimOffset (stampBytes stamps)
    let first := if rowsFilled > 0 then given.getD 0 0 else 0
    let last := if rowsFilled > 0 then given.getD (rowsFilled.toNat - 1) 0 else 0
    .ok ({ vars with file, raw, shead := { vars.shead with dimOffset } }.setSinfo
      { vars.sinfo with
        start := { vars.sinfo.start with value := first }
        stop := { vars.sinfo.stop with value := last }
        dimensionOffset := dimOffset
        dimensionLength := 0 })

def saveSegmentHeader (vars : Vars) : Vars :=
  let (file, offset) := putRecord segmentHeader vars.file
    vars.attr.facilityOffset[SEGMENTED_RECORD_FACILITY] vars.shead
  { vars with
    file
    attr := { vars.attr with
      facilityOffset := (vars.attr.facilityOffset.set SEGMENTED_RECORD_FACILITY offset
        segmented_lt).set STANDARD_RECORD_FACILITY (-1) standard_lt
      facilityLength :=
        vars.attr.facilityLength.set STANDARD_RECORD_FACILITY (-1) standard_lt } }

def beginFinish (vars : Vars) : State :=
  let (file, indexOffset) :=
    putRecord segmentIndex vars.file vars.shead.indexOffset vars.sindex
  let vars := saveSegmentHeader { vars with
    file, shead := { vars.shead with indexOffset } }
  let (file, attrOffset) := putRecord extendedAttributes vars.file vars.attrOffset vars.attr
  ⟨file, true, seekToRfa attrOffset, vars.raw⟩

def beginSegment (S : Records V)
    (checkCompress : Vars → Fin SEGMENTS_PER_INDEX → Option (Dsc V) → Option (Dsc V) →
      Initial V → Except Status Vars)
    (s : State) (compress : ℤ) (initialValue : Dsc V) (idx rowsFilled : ℤ) :
    Except Status Vars := do
  let init ← checkInput initialValue
  let (attr, attrOffset) := beginExtendedNci s
  let (attr, shead) ← beginSegmentHeader s.file attr init
  let (shead, sindex) := beginSegmentIndex s.file shead
  let vars ← beginSinfo S checkCompress
    ⟨s.file, s.raw, attr, attrOffset, shead, sindex, idx, compress⟩ init idx rowsFilled
  putdataInitialvalue S vars init

def makeSegment (S : Records V) (s : State) (compress : ℤ) (start stop dimension : Option (Dsc V))
    (initialValue : Dsc V) (idx rowsFilled : ℤ) : Except Status State := do
  let vars ← beginSegment S (checkCompressDim S) s compress initialValue idx rowsFilled
  let (file, sinfo) :=
    putdimDim S vars.file vars.compress start stop dimension vars.sinfo
  .ok (beginFinish ({ vars with file }.setSinfo sinfo))

def makeTimestampedSegment (S : Records V) (s : State) (compress : ℤ)
    (timestamps : Option (List (BitVec 64))) (initialValue : Dsc V) (idx rowsFilled : ℤ) :
    Except Status State := do
  let vars ← beginSegment S (checkCompressTs S) s compress initialValue idx rowsFilled
  let vars ← putdimTs vars timestamps rowsFilled
  .ok (beginFinish vars)

def openHeader (s : State) : Except Status (ExtendedAttributes × SegmentHeader) :=
  match loadExtendedNci s with
  | none => .error .noSegments
  | some attr =>
      match loadSegmentHeader s.file attr with
      | none => .error .noSegments
      | some shead => .ok (attr, shead)

def putHeader (s : State) (attr : ExtendedAttributes) (shead : SegmentHeader) : State :=
  { s with file := (putRecord segmentHeader s.file
      attr.facilityOffset[SEGMENTED_RECORD_FACILITY] shead).1 }

/-- A negative number of rows asks for all rows of the last segment. -/
def setRowsFilled (s : State) (rowsFilled : ℤ) : Except Status State := do
  let (attr, shead) ← openHeader s
  match loadSegmentIndex s.file shead with
  | none => .error .failure
  | some sindex =>
      let sinfo := sindex.segment[slotOf shead.idx.toInt]
      let nextRow : Option (BitVec 32) :=
        if rowsFilled < 0 then
          if sinfo.rows.toInt < 0 then
            (getCompressedSegmentRows s.file sinfo.dataOffset).map (BitVec.ofInt 32)
          else some (sinfo.rows &&& 0x7fffffff)
        else some (BitVec.ofInt 32 rowsFilled)
      match nextRow with
      | none => .error .failure
      | some nextRow => .ok (putHeader s attr { shead with nextRow })

def updateSegment (S : Records V) (s : State) (compress : ℤ)
    (start stop dimension : Option (Dsc V)) (idx : ℤ) : Except Status State := do
  let (_, shead) ← openHeader s
  match loadSegmentIndex s.file shead with
  | none => .error .failure
  | some sindex =>
      if idx < 0 ∨ idx > shead.idx.toInt then .error .failure
      else do
        let (sindex, indexOffset) ←
          findPage s.file idx (s.file.size + 1) sindex shead.indexOffset
        if idx < sindex.firstIdx.toInt then .error .failure
        else
          let (file, sinfo) := putdimDim S s.file compress start stop dimension
            sindex.segment[slotOf idx]
          let sindex := { sindex with
            segment := sindex.segment.set (slotOf idx) sinfo (slotOf idx).isLt }
          .ok { s with file := (putRecord segmentIndex file indexOffset sindex).1 }

/-- Data for a segment has its type and all its dimensions, or all but the last. -/
def fitsHeader (shead : SegmentHeader) (data : ArrayDsc) : Bool :=
  data.dtype = shead.dtype &&
    ((data.dims.length : ℤ) = shead.dimct.toInt ||
      (data.dims.length : ℤ) = shead.dimct.toInt - 1) &&
    (data.dims.length ≤ 1 || sameDims shead data.dims (data.dims.length - 1))

def lastDim (shead : SegmentHeader) : ℤ := (dimAt shead (shead.dimct.toNat - 1)).toInt

def rowsToInsert (shead : SegmentHeader) (data : ArrayDsc) (startIdx : ℤ) : ℤ :=
  let rows : ℤ := if (data.dims.length : ℤ) < shead.dimct.toInt then 1 else data.lastDim
  min rows (lastDim shead - startIdx)

/-- Write whole rows into the storage of the last segment. Data with more bytes than
its rows take is refused; with fewer, bytes after it would be read. -/
def putRows (s : State) (shead : SegmentHeader) (data : ArrayDsc) (startIdx : ℤ) :
    Except Status (File × List (ℕ × ℕ)) :=
  let rows := rowsToInsert shead data startIdx
  let bytesToInsert := (BitVec.ofInt 32 (rows * bytesPerRow shead)).toNat
  if bytesToInsert < data.bytes.length then .error .bufferOvf
  else if bytesToInsert > data.bytes.length then .error .undefined
  else
    let offset := shead.dataOffset + BitVec.ofInt 64 (startIdx * bytesPerRow shead)
    let (file, raw, _) := writeRaw s.file s.raw offset data.bytes
    .ok (file, raw)

/-- Scalars come as arrays of one element. -/
def putSegment (s : State) (startIdx : ℤ) (data : ArrayDsc) : Except Status State :=
  if data.dims.length < 1 ∨ data.dims.length > 8 then .error .invDtpUsg
  else do
    let (attr, shead) ← openHeader s
    let startIdx := if startIdx = -1 then shead.nextRow.toInt else startIdx
    if ¬ fitsHeader shead data then .error .failure
    else if startIdx < 0 ∨ startIdx ≥ lastDim shead then .error .bufferOvf
    else do
      let (file, raw) ← putRows s shead data startIdx
      if startIdx = shead.nextRow.toInt ∧ bytesPerRow shead = 0 then .error .undefined
      else
        let nextRow :=
          if startIdx = shead.nextRow.toInt then
            BitVec.ofInt 32 (startIdx + data.bytes.length / bytesPerRow shead)
          else shead.nextRow
        .ok (putHeader { s with file, raw } attr { shead with nextRow })

def putTimestampedSegment (s : State) (timestamps : List (BitVec 64)) (data : ArrayDsc) :
    Except Status State :=
  if data.dims.length < 1 ∨ data.dims.length > 8 then .error .invDtype
  else do
    let (attr, shead) ← openHeader s
    let startIdx := shead.nextRow.toInt
    if data.dtype ≠ shead.dtype then .error .invDtype
    else if ¬ fitsHeader shead data then .error .failure
    else do
      let rows := rowsToInsert shead data startIdx
      let (file, raw) ← putRows s shead data startIdx
      if rows < 0 ∨ timestamps.length < rows then .error .undefined
      else
        let offset := shead.dimOffset + BitVec.ofInt 64 (startIdx * 8)
        let (file, raw, _) :=
          writeRaw file raw offset (stampBytes (timestamps.take rows.toNat))
        .ok (putHeader { s with file, raw } attr
          { shead with nextRow := BitVec.ofInt 32 (startIdx + rows) })

end MdsPlus.Segments
