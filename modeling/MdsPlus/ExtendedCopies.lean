import MdsPlus.NamedAttributes
import MdsPlus.SegmentRecords

/-!
The extended data of a node copied into another datafile, as when a tree is cleaned. Segments are
copied page by page, attributes and the primary record after them. A status ends what it ends and
is overwritten by what goes on.
-/

namespace MdsPlus.ExtendedCopies

open Codec ByteFile Datafile SegmentRecords
open NamedAttributes (name_pos NamedAttribute NamedAttributesIndex namedAttributesIndex
  NAMED_ATTRIBUTES_PER_INDEX)

variable {V : Type}

/-- What a slot says the place of. -/
inductive Piece
  | data | dimension | start | stop
  deriving DecidableEq

def offsetOf (sinfo : SegmentInfo) : Piece → Offset
  | .data => sinfo.dataOffset
  | .dimension => sinfo.dimensionOffset
  | .start => sinfo.start.offset
  | .stop => sinfo.stop.offset

def setOffset (sinfo : SegmentInfo) (offset : Offset) : Piece → SegmentInfo
  | .data => { sinfo with dataOffset := offset }
  | .dimension => { sinfo with dimensionOffset := offset }
  | .start => { sinfo with start := { sinfo.start with offset } }
  | .stop => { sinfo with stop := { sinfo.stop with offset } }

/-- A segment being copied: no status is success. The journal lists the places that were set anew;
the others are still those of the old file. -/
structure Vars where
  status : Option Status
  out : File
  shead : SegmentHeader
  sinfo : SegmentInfo
  anew : List Piece

/-- `if (STATUS_OK)` -/
def Vars.whenOk (vars : Vars) (f : Vars → Vars) : Vars :=
  match vars.status with
  | none => f vars
  | some _ => vars

def Vars.place (vars : Vars) (k : Piece) (offset : Offset) : Vars :=
  { vars with sinfo := setOffset vars.sinfo offset k, anew := vars.anew ++ [k] }

def dataCopy (fin : File) (k : Piece) (length : ℤ) (vars : Vars) : Vars :=
  if offsetOf vars.sinfo k ≠ -1 ∧ 0 ≤ length then
    match readProperty fin (offsetOf vars.sinfo k) length.toNat with
    | none => { vars.place k (-1) with status := some .failure }
    | some bytes =>
        let (out, offset) := writeProperty vars.out (-1) bytes
        { vars.place k offset with out }
  else vars.place k (-1)

def putPiece (S : Records V) (compress : ℤ) (k : Piece) (d : Dsc V) (vars : Vars) :
    Vars × BitVec 32 :=
  let (out, offset, length) := putDsc S.toSerializer vars.out compress d
  ({ vars.place k offset with out }, length)

/-- Read the dimension into the descriptor that holds the data. When its record cannot be read the
data stay there, and the status of the read is lost. -/
def readDimension (S : Records V) (fin : File) (shead : SegmentHeader) (sinfo : SegmentInfo)
    (i : ℤ) (data : Dsc V) : Except Status (Option (Dsc V)) :=
  match readSegment S false fin shead sinfo i false true with
  | .ok (_, dim) => .ok dim
  | .error e =>
      if timestamped sinfo ∨ (sinfo.dimensionLength = -1 ∧ 0 ≤ sinfo.rows.toInt) then .error e
      else .ok (some data)

/-- The header of the last segment is cut to its filled rows; without dimensions that is a write
outside of them. -/
def cutLast (i : ℤ) (vars : Vars) : Vars :=
  if i = vars.shead.idx.toInt then
    if vars.shead.dimct = 0 then { vars with status := some .undefined }
    else { vars with
      shead := { vars.shead with
        dims := vars.shead.dims.setIfInBounds (vars.shead.dimct.toNat - 1) vars.shead.nextRow } }
  else vars

def copyPacked (S : Records V) (fin : File) (i compress : ℤ) (vars : Vars) : Vars :=
  match readSegment S false fin vars.shead vars.sinfo i true false with
  | .error e => { vars with status := some e }
  | .ok (none, _) => { vars with status := some .undefined }
  | .ok (some data, _) =>
      let (vars, length) := putPiece S compress .data data vars
      let vars :=
        if vars.sinfo.dimensionOffset ≠ -1 ∨ vars.sinfo.dimensionLength ≠ -1 then
          match readDimension S fin vars.shead vars.sinfo i data with
          | .error e => { vars with status := some e }
          | .ok none => { vars with status := some .undefined }
          | .ok (some dim) =>
              let (vars, dimensionLength) := putPiece S compress .dimension dim vars
              { vars with sinfo := { vars.sinfo with dimensionLength } }
        else vars
      cutLast i { vars with sinfo := { vars.sinfo with rows := length ||| 0x80000000 } }

def copyRaw (fin : File) (vars : Vars) : Vars :=
  if vars.sinfo.dataOffset ≠ -1 ∧ vars.sinfo.rows.toInt < 0 then
    (dataCopy fin .data (vars.sinfo.rows &&& 0x7fffffff).toNat vars).whenOk fun vars =>
      dataCopy fin .dimension vars.sinfo.dimensionLength.toInt vars
  else
    let length : ℤ :=
      if vars.sinfo.dimensionLength = 0 then vars.sinfo.rows.toInt * 8
      else vars.sinfo.dimensionLength.toInt
    (dataCopy fin .dimension length vars).whenOk fun vars =>
      dataCopy fin .data (bytesPerRow vars.shead * vars.sinfo.rows.toInt) vars

/-- The record of the end is copied where there is one of the start. -/
def copyLimits (fin : File) (vars : Vars) : Vars :=
  if vars.sinfo.start.offset.toInt > 0 then
    (dataCopy fin .start vars.sinfo.start.length.toInt vars).whenOk fun vars =>
      if vars.sinfo.stop.offset.toInt > 0 then dataCopy fin .stop vars.sinfo.stop.length.toInt vars
      else vars
  else vars

def copySegment (S : Records V) (fin : File) (i compress : ℤ) (vars : Vars) : Vars :=
  (if compress ≠ -1 then copyPacked S fin i compress vars else copyRaw fin vars).whenOk
    (copyLimits fin)

structure Entry where
  page : ℕ
  slot : Fin SEGMENTS_PER_INDEX
  status : Option Status
  anew : List Piece

structure PageVars where
  status : Option Status
  out : File
  shead : SegmentHeader
  sindex : SegmentIndex
  journal : List Entry

def copySlot (S : Records V) (fin : File) (compress : ℤ) (page : ℕ) (vars : PageVars)
    (i : Fin SEGMENTS_PER_INDEX) : PageVars :=
  match vars.status with
  | some _ => vars
  | none =>
      let copied := copySegment S fin (i : ℕ) compress
        ⟨none, vars.out, vars.shead, vars.sindex.segment[i], []⟩
      { status := copied.status
        out := copied.out
        shead := copied.shead
        sindex := { vars.sindex with segment := vars.sindex.segment.set i copied.sinfo i.isLt }
        journal := vars.journal ++ [⟨page, i, copied.status, copied.anew⟩] }

/-- The pages copied so far. -/
structure IndexVars where
  status : Option Status
  out : File
  shead : SegmentHeader
  journal : List Entry

def copySlots (S : Records V) (fin : File) (compress : ℤ) (page : ℕ) (sindex : SegmentIndex)
    (vars : IndexVars) : PageVars :=
  (List.finRange SEGMENTS_PER_INDEX).foldl (copySlot S fin compress page)
    ⟨none, vars.out, vars.shead, sindex, vars.journal⟩

def copyPage (S : Records V) (fin : File) (compress : ℤ) (page : ℕ) (sindex : SegmentIndex)
    (vars : IndexVars) : IndexVars :=
  let slots := copySlots S fin compress page sindex vars
  let (out, indexOffset) := putRecord segmentIndex slots.out (-1)
    { slots.sindex with previousOffset := slots.shead.indexOffset }
  { status := if slots.status = some .undefined then some .undefined else none
    out
    shead := { slots.shead with indexOffset }
    journal := slots.journal }

/-- A page that cannot be read would be written as what was there in memory. -/
def copyPages (S : Records V) (fin : File) (compress : ℤ) :
    ℕ → List Offset → IndexVars → IndexVars
  | _, [], vars => vars
  | page, offset :: offsets, vars =>
      match vars.status with
      | some _ => vars
      | none =>
          match getRecord segmentIndex fin offset with
          | none => { vars with status := some .undefined }
          | some sindex =>
              copyPages S fin compress (page + 1) offsets (copyPage S fin compress page sindex vars)

def pageOffsets (fin : File) : ℕ → Offset → List Offset → Except Status (List Offset)
  | 0, _, offsets => .ok offsets
  | n + 1, offset, offsets =>
      match readProperty fin offset 8 with
      | none => .error .failure
      | some bytes =>
          let previous := int64.decode bytes
          if offset = previous then .error .failure
          else pageOffsets fin n previous (offset :: offsets)

/-- Pages of a node, as counted from the number of its last segment. -/
def pageCount (shead : SegmentHeader) : ℕ :=
  ((shead.idx.toInt - 1).tdiv SEGMENTS_PER_INDEX + 1).toNat

def copySegmentIndex (S : Records V) (fin out : File) (shead : SegmentHeader) (compress : ℤ) :
    IndexVars :=
  let vars : IndexVars := ⟨none, out, { shead with indexOffset := -1 }, []⟩
  match pageOffsets fin (pageCount shead) shead.indexOffset [] with
  | .error e => { vars with status := some e }
  | .ok offsets => copyPages S fin compress 0 offsets vars

/-- A record of the node copied: its place in the new file. -/
structure Copied where
  status : Option Status
  out : File
  offset : Offset
  journal : List Entry

def copySegmentedRecords (S : Records V) (fin out : File) (offset : Offset) (compress : ℤ) :
    Copied :=
  match getRecord segmentHeader fin offset with
  | none => ⟨some .failure, out, offset, []⟩
  | some shead =>
      let index := copySegmentIndex S fin out shead compress
      let (out, offset) := putRecord segmentHeader index.out (-1) index.shead
      ⟨if index.status = some .undefined then some .undefined else none, out, offset,
        index.journal⟩

/-- Copy one attribute. One whose value cannot be read keeps its old place. -/
def copyAttribute (S : Records V) (fin : File) (compress : ℤ)
    (p : File × NamedAttributesIndex) (i : Fin NAMED_ATTRIBUTES_PER_INDEX) :
    File × NamedAttributesIndex :=
  let a := p.2.attributes[i]
  if a.name.get ⟨0, name_pos⟩ ≠ 0 ∧ a.offset ≠ -1 then
    if a.length = -1 then
      let copied := copySegmentedRecords S fin p.1 a.offset compress
      (copied.out, p.2.store i { a with offset := copied.offset })
    else
      match treeGetDsc S fin a.offset a.length.toNat with
      | .error _ => p
      | .ok d =>
          let (out, offset, length) := putDsc S.toSerializer p.1 compress d
          (out, p.2.store i { a with offset, length })
  else p

/-- Copy the pages of the attributes from the newest on. The length is set through its pointer,
which only the outermost call has. -/
def copyNamedAttributes (S : Records V) (fin : File) (compress : ℤ) :
    ℕ → File → Offset → Option (BitVec 32) → Except Status (File × Offset × Option (BitVec 32))
  | 0, _, _, _ => .error .undefined
  | fuel + 1, out, offset, length =>
      match getRecord namedAttributesIndex fin offset with
      | none => .ok (out, -1, length)
      | some index =>
          match length with
          | none => .error .undefined
          | some _ => do
              let (out, previousOffset, _) ←
                if index.previousOffset ≠ -1 then
                  copyNamedAttributes S fin compress fuel out index.previousOffset none
                else .ok (out, index.previousOffset, none)
              let (out, index) := (List.finRange NAMED_ATTRIBUTES_PER_INDEX).foldl
                (copyAttribute S fin compress) (out, { index with previousOffset })
              let (out, offset) := putRecord namedAttributesIndex out (-1) index
              .ok (out, offset, some 0)

def setFacility (attr : ExtendedAttributes) (k : Fin FACILITIES_PER_EA) (offset : Offset)
    (length : BitVec 32) : ExtendedAttributes :=
  { attr with
    facilityOffset := attr.facilityOffset.set k offset k.isLt
    facilityLength := attr.facilityLength.set k length k.isLt }

def copyAttributes (S : Records V) (fin out : File) (attr : ExtendedAttributes) (compress : ℤ) :
    Except Status (File × ExtendedAttributes) :=
  if attr.facilityOffset[NAMED_ATTRIBUTES_FACILITY] ≠ -1 then do
    let (out, offset, length) ← copyNamedAttributes S fin compress (fin.size + 1) out
      attr.facilityOffset[NAMED_ATTRIBUTES_FACILITY]
      (some attr.facilityLength[NAMED_ATTRIBUTES_FACILITY])
    .ok (out, setFacility attr NAMED_ATTRIBUTES_FACILITY offset (length.getD 0))
  else .ok (out, attr)

structure Result where
  status : Option Status
  out : File
  rfa : Rfa
  journal : List Entry

end MdsPlus.ExtendedCopies
