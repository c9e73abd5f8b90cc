import MdsPlus.Datafile

/-!
Records of a datafile. A record is cut into parts of at most 32755 bytes, written from
the last part to the first, each behind a header that tells where the part after it is.
Sizes are computed in unbounded integers where the source has int, but for the length
of the buffer, which is cut to an int.
-/

namespace MdsPlus.DatafileRecords

open BitMemory Codec ByteFile Datafile

structure RecordHeader where
  rlength : BitVec 16
  nodeNumber : BitVec 32
  rfa : Rfa

def recordHeader : Format RecordHeader :=
  view (pair int16 (pair int32 (table int8 6)))
    { toFun := fun h => (h.rlength, h.nodeNumber, h.rfa)
      invFun := fun p => ⟨p.1, p.2.1, p.2.2⟩
      left_inv := fun _ => rfl
      right_inv := fun _ => rfl }

/-- The maximal record size, less the header. -/
def DATAF_C_MAX_RECORD_SIZE : ℕ := 32765 - 12

def maxPart : ℕ := DATAF_C_MAX_RECORD_SIZE + 2

inductive Status
  | failure | lockFailure | dfRead | undefined
  deriving DecidableEq, Repr

/-- Where the data of a node is, or why there is none: these share their bytes. -/
inductive DataInfo
  | location (rfa : Rfa) (recordLength : BitVec 32)
  | error (status : Status)

/-- What the record routines use of the characteristics of a node. -/
structure Nci where
  versions : Bool
  contiguous : Bool
  nonVms : Bool
  errorOnPut : Bool
  length : BitVec 32
  dataInfo : DataInfo

/-- What the system answers: whether the datafile could be locked, how many bytes of the
record could be written, and whether the old characteristics could. -/
structure Answers where
  nonvmsCompatible : Bool
  lock : Bool
  written : ℕ
  oldNciWritten : Bool

def blockLength (bytes : ℕ) : ℕ :=
  bytes + (bytes + DATAF_C_MAX_RECORD_SIZE + 1) / maxPart * recordHeader.size

def blen (bytes : ℕ) : ℤ := (BitVec.ofNat 32 (blockLength bytes)).toInt

/-- The buffer and where its last part begins. The first bytes of the record come last. -/
def putParts (nodenum : BitVec 32) (record : List Byte) (bytesToPut : ℕ) (rfa : Rfa) (eof : ℕ) :
    List Byte × ℕ :=
  if bytesToPut = 0 then ([], eof)
  else
    let bytesThisTime := min maxPart bytesToPut
    let rest := bytesToPut - bytesThisTime
    let header := recordHeader.encode ⟨BitVec.ofNat 16 (bytesThisTime + 10), nodenum, rfa⟩
    let part := header ++ (record.drop rest).take bytesThisTime
    if rest = 0 then (part, eof)
    else
      let (buffer, last) := putParts nodenum record rest (seekToRfa (BitVec.ofNat 64 eof))
        (eof + (recordHeader.size + bytesThisTime))
      (part ++ buffer, last)
termination_by bytesToPut
decreasing_by
  simp only [maxPart]
  omega

def Nci.recordLength (nci : Nci) : BitVec 32 :=
  match nci.dataInfo with
  | .location _ recordLength => recordLength
  | .error _ => 0

/-- Write the buffer to the end of the file; the old characteristics follow when versions
are kept. -/
def writeBuffer (answers : Answers) (f : File) (nci : Nci) (oldNci buffer : List Byte)
    (eof : ℕ) : Except Status (File × Nci) :=
  if buffer.length ≤ answers.written then
    let nci := { nci with
      errorOnPut := false
      dataInfo :=
        if buffer = [] then nci.dataInfo
        else .location (seekToRfa (BitVec.ofNat 64 eof)) nci.recordLength }
    let f := f.write f.size buffer
    if ¬ nci.versions then .ok (f, nci)
    else if answers.oldNciWritten then .ok (f.write f.size oldNci, nci)
    else .error .failure
  else
    .ok (f.write f.size (buffer.take answers.written),
      { nci with errorOnPut := true, length := 0, dataInfo := .error .failure })

def putDatafile (answers : Answers) (f : File) (nodenum : BitVec 32) (nci : Nci)
    (record oldNci : List Byte) : Except Status (File × Nci) :=
  let bytesToPut := if 0 < record.length then nci.recordLength.toNat else 0
  if blen bytesToPut > 0 then
    if record.length < bytesToPut then .error .undefined
    else if answers.nonvmsCompatible then
      if ¬ answers.lock then .error .lockFailure
      else
        writeBuffer answers f { nci with contiguous := true, nonVms := true } oldNci
          (record.take bytesToPut) f.size
    else if ¬ answers.lock then .error .lockFailure
    else
      let parts := putParts nodenum record bytesToPut (Vector.replicate 6 0) f.size
      -- the buffer was allocated by the length as an int
      if blen bytesToPut < parts.1.length then .error .undefined
      else
        writeBuffer answers f { nci with contiguous := true, nonVms := false } oldNci parts.1
          parts.2
  else if nci.versions ∧ ¬ answers.lock then .error .lockFailure
  else writeBuffer answers f nci oldNci [] 0

/-- Read from an offset. A negative one is not looked up and the position is whatever it was. -/
def readX (f : File) (offset : Offset) (count : ℕ) : Except Status (List Byte) :=
  if count = 0 then .ok []
  else if offset.toInt < 0 then .error .undefined
  else
    match f.read offset.toNat count with
    | none => .error .dfRead
    | some bytes => .ok bytes

/-- Walk the parts. Their node numbers are not compared: the first one counts as first
for ever. The fuel stands for the number of parts. -/
def readParts (f : File) : ℕ → Rfa → ℕ → List Byte → Option (BitVec 32) →
    Except Status (List Byte × Option (BitVec 32))
  | 0, rfa, bufferSpace, record, nodenum =>
      if rfa = Vector.replicate 6 0 ∨ bufferSpace = 0 then .ok (record, nodenum)
      else .error .undefined
  | fuel + 1, rfa, bufferSpace, record, nodenum =>
      if rfa = Vector.replicate 6 0 ∨ bufferSpace = 0 then .ok (record, nodenum)
      else do
        let offset := rfaToSeek rfa
        let bytes ← readX f offset recordHeader.size
        let hdr := recordHeader.decode bytes
        let partlen := min (BitVec.ofInt 32 (hdr.rlength.toInt - 10)).toNat bufferSpace
        let part ← readX f (offset + BitVec.ofNat 64 recordHeader.size) partlen
        readParts f fuel hdr.rfa (bufferSpace - partlen) (record ++ part) (some hdr.nodeNumber)

def copyParts (buffer : List Byte) (bytesRemaining : ℕ) : List Byte :=
  if bytesRemaining = 0 then []
  else
    let bytesThisTime := min maxPart bytesRemaining
    copyParts (buffer.drop (recordHeader.size + bytesThisTime)) (bytesRemaining - bytesThisTime) ++
      (buffer.drop recordHeader.size).take bytesThisTime
termination_by bytesRemaining
decreasing_by
  simp only [maxPart]
  omega

def readDatablob (f : File) (rfa : Offset) (bufferSpace : ℕ) :
    Except Status (List Byte × Option (BitVec 32)) :=
  let blen := blen bufferSpace
  if blen < 0 then .error .undefined
  else do
    let partlen := (BitVec.ofInt 64 (blen - 1)).toNat % (maxPart + recordHeader.size) + 1
    let buffer ← readX f (rfa - BitVec.ofInt 64 blen + BitVec.ofNat 64 partlen) blen.toNat
    if buffer.length < blockLength bufferSpace then .error .undefined
    else
      let nodenum := (recordHeader.decode (buffer.take recordHeader.size)).nodeNumber
      .ok (copyParts buffer bufferSpace, if buffer = [] then none else some nodenum)

/-- The bytes of a record and the node number found with them. -/
def treeGetDatafile (f : File) (fuel : ℕ) (rfa : Rfa) (bufferSize : ℕ)
    (contiguous nonVms : Bool) : Except Status (List Byte × Option (BitVec 32)) :=
  if ¬ contiguous then readParts f fuel rfa bufferSize [] none
  else if nonVms then
    (readX f (rfaToSeek rfa) bufferSize).map fun record => (record, none)
  else readDatablob f (rfaToSeek rfa) bufferSize

end MdsPlus.DatafileRecords
