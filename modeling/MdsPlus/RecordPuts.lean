import MdsPlus.Characteristics
import MdsPlus.DatafileRecords
import MdsPlus.RecordLocks

/-!
Putting a record. The record is serialized, compressed if it may be, and goes into the
characteristics, into the extended attributes, to the end of the datafile or over the record that
is there. The locks on the characteristics and on the datafile are taken and released on the way.
-/

namespace MdsPlus.RecordPuts

open BitMemory Characteristics RecordLocks

def NciM_SEGMENTED : BitVec 32 := 0x00000020
def NciM_WRITE_ONCE : BitVec 32 := 0x00000080
def NciM_DO_NOT_COMPRESS : BitVec 32 := 0x00000200
def NciM_COMPRESS_ON_PUT : BitVec 32 := 0x00000400
def NciM_NO_WRITE_MODEL : BitVec 32 := 0x00000800
def NciM_NO_WRITE_SHOT : BitVec 32 := 0x00001000

/-! ### Serializing -/

def NUM_COMPRESSION_METHODS : ℕ := 2

/-- How a record is stored: as it is, or compressed by a method, the first of which is the
standard delta compression. -/
inductive Form
  | plain
  | packed (method : ℕ)
  deriving DecidableEq, Repr

/-- The descriptor after it is copied or compressed: nothing, or one with its length if it is of
class S or D, whether its pointers can be made offsets, and what it is as a record. -/
structure Image where
  present : Bool
  short : Option ℕ
  offsets : Bool
  length : BitVec 32
  reclen : BitVec 32
  dtype : Byte
  cls : Byte

/-- What is to be put: whether it can be copied, whether it has an array that is worth
compressing, and what becomes of it. -/
structure Record where
  copied : Bool
  compressible : Bool
  compresses : ℕ → Bool
  image : Form → Image

structure Serialized where
  status : Status
  form : Form
  compressible : Bool
  length : BitVec 32
  reclen : Option (BitVec 32)
  dtype : Byte
  cls : Byte
  dataInAltbuf : Bool
  present : Bool

/-- The method with a number; other numbers are those of the standard method. -/
def methodOf (compress : ℤ) : ℕ :=
  if (BitVec.ofInt 32 compress).toNat ≥ NUM_COMPRESSION_METHODS then 0
  else (BitVec.ofInt 32 compress).toNat

/-- Minus one is for no compression. -/
def formOf (r : Record) (compress : ℤ) : Form :=
  if r.compressible ∧ compress ≠ -1 then .packed (methodOf compress) else .plain

def Record.made (r : Record) : Form → Bool
  | .plain => r.copied
  | .packed method => r.copied && r.compresses method

def mdsSerializeDscOutZ (r : Record) (compress : ℤ) (altbuflen : ℕ) : Serialized :=
  let form := formOf r compress
  let image := r.image form
  let compressible := r.copied && r.compressible && decide (form = .plain)
  if ¬ r.made form then
    ⟨.serializeFailed, form, compressible, 0, some 0, 0, 0, false, false⟩
  else if ¬ image.present then ⟨.success, form, compressible, 0, none, 0, 0, true, false⟩
  else
    match image.short with
    | some length =>
        if length < altbuflen then
          ⟨.success, form, compressible, BitVec.ofNat 32 (length + 8), none, image.dtype, 1, true,
            true⟩
        else store form compressible image
    | none => store form compressible image
where
  store (form : Form) (compressible : Bool) (image : Image) : Serialized :=
    if image.offsets then
      ⟨.success, form, compressible, image.length, some image.reclen, image.dtype, image.cls, false,
        true⟩
    else
      ⟨.serializeFailed, form, compressible, image.length, some 0, image.dtype, image.cls, false,
        true⟩

/-! ### The call -/

structure Database where
  isOpen : Bool
  openReadonly : Bool
  /-- A shot is open and not the model. -/
  shotOpen : Bool
  setupInfo : Bool

/-- The tree and the node: its number is one of the tree, versions may be kept, and data of some
types does not go with the usage of the node. -/
structure Place where
  info : TreeInfo
  numbered : Bool
  versionsInPulse : Bool
  versionsInModel : Bool
  usageFits : Byte → Bool

structure Call where
  utilityUpdate : ℤ
  template : NciHead
  uid32 : Bool
  record : Record

structure Answers where
  hook : Bool
  nci : NciAnswers
  openDatafile : Bool
  attributesRead : Bool
  nonvmsCompatible : Bool
  put : WriteAnswers
  seekEnd : Bool
  oldNciWritten : Bool
  update : ℕ → WriteAnswers
  headerWritten : ℕ → Bool
  dsc : WriteAnswers
  attributes : WriteAnswers

/-- What a call gives: a status, the locks, and the form of the record that it stores. -/
structure Result where
  status : Status
  held : Held
  form : Option Form
  deriving DecidableEq

def keepsVersions (db : Database) (place : Place) (nci : Nci) : Bool :=
  decide (nci.length ≠ 0) &&
    (db.shotOpen && place.versionsInPulse || !db.shotOpen && place.versionsInModel)

/-- The characteristics before the record is serialized. -/
def prepared (db : Database) (place : Place) (call : Call) (old : Nci) (extended : Bool) : Nci :=
  let flags :=
    if call.utilityUpdate ≠ 0 then bitassign false call.template.flags NciM_VERSIONS
    else bitassign db.setupInfo old.flags NciM_SETUP_INFORMATION
  let flags2 := if extended then old.flags2 else bitassign false old.flags2 NciM_EXTENDED_NCI
  let uid32 :=
    if call.utilityUpdate ≠ 0 then call.template.has2 NciM_32BIT_UID_NCI else call.uid32
  let nci := { old with flags, flags2 := bitassign uid32 flags2 NciM_32BIT_UID_NCI }
  if keepsVersions db place nci then { nci with flags := nci.flags ||| NciM_VERSIONS } else nci

/-- The record may not be put over one that is there, or not into this tree. -/
def checkWrite (db : Database) (call : Call) (nci : Nci) : Status :=
  if call.utilityUpdate ≠ 0 then .success
  else if nci.has NciM_WRITE_ONCE ∧ nci.length ≠ 0 then .noOverwrite
  else if db.shotOpen ∧ nci.has NciM_NO_WRITE_SHOT then .noWriteShot
  else if ¬ db.shotOpen ∧ nci.has NciM_NO_WRITE_MODEL then .noWriteModel
  else .success

def wantsCompression (call : Call) (nci : Nci) : Bool :=
  (decide (call.utilityUpdate = 2) || nci.has NciM_COMPRESS_ON_PUT) &&
    !nci.has NciM_DO_NOT_COMPRESS

def compressMethod (call : Call) (nci : Nci) : ℤ :=
  if wantsCompression call nci then (nci.compressionMethod.toNat : ℤ) else -1

/-- For the record of the extended attributes: the value of the condition. -/
def compressFlag (call : Call) (nci : Nci) : ℤ := if wantsCompression call nci then 1 else 0

def altbufSize : ℕ := 11

/-- The characteristics with what the serializer gives. -/
def afterSerialize (nci : Nci) (z : Serialized) : Nci :=
  { nci with
    flags := bitassign z.compressible nci.flags NciM_COMPRESSIBLE
    flags2 := bitassign z.dataInAltbuf nci.flags2 NciM_DATA_IN_ATT_BLOCK
    length := z.length
    dtype := z.dtype
    cls := z.cls
    dataInfo :=
      match z.reclen with
      | some reclen => nci.dataInfo.putRecordLength reclen
      | none => nci.dataInfo }

def oldRecordLength (call : Call) (nci : Nci) : BitVec 32 :=
  if call.utilityUpdate ≠ 0 then 0
  else if nci.has2 NciM_DATA_IN_ATT_BLOCK ∨ nci.has NciM_VERSIONS then 0
  else nci.dataInfo.recordLength

inductive Route
  | inline
  | extended
  | put
  | update
  deriving DecidableEq

def routeOf (call : Call) (nci after : Nci) (extended : Bool) : Route :=
  if after.has2 NciM_DATA_IN_ATT_BLOCK ∧ ¬ after.has NciM_VERSIONS ∧ ¬ extended then .inline
  else if extended then .extended
  else if after.dataInfo.recordLength ≠ oldRecordLength call nci ∨
      DatafileRecords.DATAF_C_MAX_RECORD_SIZE ≤ after.dataInfo.recordLength.toNat ∨
      call.utilityUpdate ≠ 0 ∨ after.has NciM_VERSIONS ∨ after.has2 NciM_ERROR_ON_PUT then .put
  else .update

/-! ### Storing -/

/-- The length of what is written, which is none if it is no int. -/
def blen (nci : Nci) (present : Bool) : ℤ :=
  DatafileRecords.blen (if present then nci.dataInfo.recordLength.toNat else 0)

/-- With a lock on the end of the datafile the record is written, and behind it the characteristics
before it if versions are kept. -/
def putDatafile (info : TreeInfo) (o : Answers) (nci : Nci) (present : Bool) (locked : ℤ)
    (held : Held) : Option Locking :=
  let empty := decide (blen nci present ≤ 0)
  if empty ∧ ¬ nci.has NciM_VERSIONS then some (finish empty .success held)
  else
    (treeLockDatafile info o.put.attempts held).bind fun (status, gone, held) =>
      if o.nonvmsCompatible ∧ ¬ empty ∧ gone then none
      else if status ≠ .success then some (status, locked, held)
      else some (finish empty .success held)
where
  finish (empty : Bool) (status : Status) (held : Held) : Locking :=
    let status :=
      if (empty ∨ o.put.written) ∧ nci.has NciM_VERSIONS ∧ o.seekEnd ∧ ¬ o.oldNciWritten then
        .failure
      else status
    let held := treeUnLockDatafile info held
    if status = .success then treePutNci info o.nci locked held else (status, locked, held)

/-- The parts of a record that are left to be written over those that are there. -/
def updateParts (info : TreeInfo) (o : Answers) : ℕ → ℕ → Held → Option (Status × Held)
  | 0, _, held => some (.success, held)
  | bytes + 1, turn, held =>
      (treeLockDatafile info (o.update turn).attempts held).bind fun (status, _, held) =>
        if status ≠ .success then some (status, held)
        else
          let held := treeUnLockDatafile info held
          if ¬ o.headerWritten turn ∨ ¬ (o.update turn).written then some (.failure, held)
          else updateParts info o (bytes + 1 - DatafileRecords.maxPart) (turn + 1) held
termination_by bytes => bytes
decreasing_by
  simp only [DatafileRecords.maxPart]
  omega

def updateDatafile (info : TreeInfo) (o : Answers) (nci : Nci) (locked : ℤ) (held : Held) :
    Option Locking :=
  (updateParts info o nci.dataInfo.recordLength.toNat 0 held).map fun (status, held) =>
    let (stat, locked, held) := treePutNci info o.nci locked held
    (if status = .success then stat else status, locked, held)

/-- The record is serialized once more and written, if there is any. -/
def treePutDsc (info : TreeInfo) (o : Answers) (r : Record) (compress : ℤ) (held : Held) :
    Option (Status × Option Form × Held) :=
  let z := mdsSerializeDscOutZ r compress 0
  if z.status = .success ∧ z.present then
    (writeProperty info o.dsc held).map fun (status, held) => (status, some z.form, held)
  else some (z.status, none, held)

def putExtended (info : TreeInfo) (o : Answers) (r : Record) (compress : ℤ) (locked : ℤ)
    (held : Held) : Option (Status × Option Form × Held) :=
  (treePutDsc info o r compress held).bind fun (status, form, held) =>
    (if status = .success then writeProperty info o.attributes held else some (status, held)).map
      fun (status, held) =>
        if status = .success then (status, form, (treePutNci info o.nci locked held).2.2)
        else (status, form, (treeUnlockNci info locked held).2)

def store (place : Place) (o : Answers) (call : Call) (nci after : Nci) (z : Serialized)
    (extended : Bool) (locked : ℤ) (held : Held) : Option Result :=
  match routeOf call nci after extended with
  | .inline =>
      let (status, _, held) := treePutNci place.info o.nci locked held
      some ⟨status, held, some z.form⟩
  | .extended =>
      (putExtended place.info o call.record (compressFlag call after) locked held).map
        fun (status, form, held) => ⟨status, held, form⟩
  | .put =>
      (putDatafile place.info o after z.present locked held).map fun (status, _, held) =>
        ⟨status, held, some z.form⟩
  | .update =>
      (updateDatafile place.info o after locked held).map fun (status, _, held) =>
        ⟨status, held, some z.form⟩

/-- The characteristics are unlocked after what does not store the record. -/
def refuse (info : TreeInfo) (status : Status) (locked : ℤ) (held : Held) : Result :=
  ⟨status, (treeUnlockNci info locked held).2, none⟩

/-- The record as it goes into the datafile or into the characteristics. -/
def serialized (call : Call) (nci : Nci) (extended : Bool) : Serialized :=
  mdsSerializeDscOutZ call.record (compressMethod call nci)
    (if nci.has NciM_VERSIONS ∨ extended then 0 else altbufSize)

def checkRecord (db : Database) (place : Place) (call : Call) (nci : Nci) (z : Serialized) :
    Status :=
  let check := checkWrite db call nci
  if check ≠ .success then check
  else if z.status ≠ .success then z.status
  else if z.length ≠ 0 ∧ call.utilityUpdate = 0 ∧ ¬ place.usageFits z.dtype then .invDtpUsg
  else .success

def isExtended (o : Answers) (old : Nci) : Bool := old.has2 NciM_EXTENDED_NCI && o.attributesRead

def putLocked (db : Database) (place : Place) (o : Answers) (call : Call) (old : Nci)
    (locked : ℤ) (held : Held) : Option Result :=
  if ¬ place.info.openForWrite ∧ ¬ o.openDatafile then
    some ⟨.openFailed, (treePutNci place.info o.nci locked held).2.2, none⟩
  else
    let extended := isExtended o old
    let nci := prepared db place call old extended
    let z := serialized call nci extended
    let status := checkRecord db place call nci z
    if status ≠ .success then some (refuse place.info status locked held)
    else store place o call nci (afterSerialize nci z) z extended locked held

def treePutRecord (db : Database) (place : Place) (o : Answers) (call : Call) (old : Nci)
    (held : Held) : Option Result :=
  if ¬ db.isOpen then some ⟨.notOpen, held, none⟩
  else if db.openReadonly then some ⟨.readonly, held, none⟩
  else if ¬ place.numbered then some ⟨.invTree, held, none⟩
  else if ¬ o.hook then some ⟨.hookFailed, held, none⟩
  else
    (treeGetAndLockNci place.info o.nci 0 held).bind fun (status, locked, held) =>
      if status ≠ .success then some ⟨status, held, none⟩
      else putLocked db place o call old locked held

end MdsPlus.RecordPuts
