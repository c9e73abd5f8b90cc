import MdsPlus.Characteristics
import MdsPlus.RecordParts

/-!
Versions of a record. When versions are kept, a put leaves the earlier record in the datafile and
stores the characteristics that tell where it is behind the new one. They are looked for behind the
last part of the new record, whose length is computed from that of the record; they are not there
when it ends with a whole part that is not its only one, when it was written as it is, and when
nothing was written before them.
-/

namespace MdsPlus.VersionRecords

open BitMemory Codec ByteFile Datafile RecordParts Outcome Characteristics
open DatafileRecords hiding Nci DataInfo

def NciM_SEGMENTED : BitVec 32 := 0x00000020

def TreeFAILURE : BitVec 32 := 0x0fd18fa2

/-- A put of a record: what the system answers, the serialized descriptor, the bytes a node with
extended attributes stores in its stead, and what the put makes of the characteristics. -/
structure Put where
  answers : Answers
  record : List Byte
  stored : Option (List Byte)
  setupInformation : Bool
  pathReference : Bool
  nidReference : Bool
  compressible : Bool
  uid32 : Bool
  ownerIdentifier : BitVec 32
  timeInserted : BitVec 64
  length : BitVec 32
  dtype : Byte
  cls : Byte

def attributesOf (f : File) (nci : Nci) : Option ExtendedAttributes :=
  if nci.has2 NciM_EXTENDED_NCI then getRecord extendedAttributes f (rfaToSeek nci.dataInfo.rfa)
  else none

/-- The characteristics as they are made before anything is written. With versions the data is
never put into the characteristics themselves. -/
def prepared (old : Nci) (extended : Bool) (p : Put) : Nci where
  flags :=
    let flags := bitassign p.setupInformation old.flags NciM_SETUP_INFORMATION
    let flags := bitassign true flags NciM_VERSIONS
    let flags := bitassign p.pathReference flags NciM_PATH_REFERENCE
    let flags := bitassign p.nidReference flags NciM_NID_REFERENCE
    bitassign p.compressible flags NciM_COMPRESSIBLE
  flags2 :=
    let flags2 := bitassign extended old.flags2 NciM_EXTENDED_NCI
    let flags2 := bitassign p.uid32 flags2 NciM_32BIT_UID_NCI
    bitassign false flags2 NciM_DATA_IN_ATT_BLOCK
  spare := old.spare
  timeInserted := p.timeInserted
  ownerIdentifier := p.ownerIdentifier
  cls := p.cls
  dtype := p.dtype
  length := p.length
  compressionMethod := old.compressionMethod
  status := old.status
  dataInfo := old.dataInfo.putRecordLength (BitVec.ofNat 32 p.record.length)

/-- What the record routines see of the characteristics. -/
def forRecord (nci : Nci) : DatafileRecords.Nci :=
  ⟨nci.has NciM_VERSIONS, nci.has2 NciM_DATA_CONTIGUOUS, nci.has2 NciM_NON_VMS,
    nci.has2 NciM_ERROR_ON_PUT, nci.length, .location nci.dataInfo.rfa nci.dataInfo.recordLength⟩

def afterRecord (nci : Nci) (r : DatafileRecords.Nci) : Nci :=
  { nci with
    flags2 :=
      let flags2 := bitassign r.contiguous nci.flags2 NciM_DATA_CONTIGUOUS
      let flags2 := bitassign r.nonVms flags2 NciM_NON_VMS
      bitassign r.errorOnPut flags2 NciM_ERROR_ON_PUT
    length := r.length
    dataInfo :=
      match r.dataInfo with
      | .location rfa _ => nci.dataInfo.putRfa rfa
      | .error _ => nci.dataInfo.putErrorStatus TreeFAILURE }

/-- A node with extended attributes has its record among them. -/
def putExtended (f : File) (nci : Nci) (attr : ExtendedAttributes) (stored : Option (List Byte)) :
    File :=
  let (f, attr) :=
    match stored with
    | none => (f, attr)
    | some bytes =>
        let (f, offset) := writeProperty f (-1) bytes
        (f, { attr with
          facilityOffset := attr.facilityOffset.set STANDARD_RECORD_FACILITY offset standard_lt
          facilityLength :=
            attr.facilityLength.set STANDARD_RECORD_FACILITY (BitVec.ofNat 32 bytes.length)
              standard_lt })
  let attr := { attr with
    facilityOffset := attr.facilityOffset.set SEGMENTED_RECORD_FACILITY (-1) segmented_lt
    facilityLength := attr.facilityLength.set SEGMENTED_RECORD_FACILITY 0 segmented_lt }
  (putRecord extendedAttributes f (rfaToSeek nci.dataInfo.rfa) attr).1

/-- `_TreePutRecord` when versions are kept, behind the checks that may refuse the record. -/
def putVersion (f : File) (nodenum : BitVec 32) (old : Nci) (p : Put) :
    Except Status (File × Nci) :=
  match attributesOf f old with
  | some attr =>
      let nci := prepared old true p
      .ok (putExtended f old attr p.stored,
        { nci with flags := bitassign false nci.flags NciM_SEGMENTED })
  | none =>
      let nci := prepared old false p
      (putDatafile p.answers f nodenum (forRecord nci) p.record (treeSerializeNciOut old)).map
        fun q => (q.1, afterRecord nci q.2)

def lastBytes (recordLength : ℕ) : ℕ :=
  if recordLength = maxPart then maxPart else recordLength % maxPart

/-- Where the earlier characteristics are looked for. -/
def versionOffset (d : DataInfo) : Offset :=
  rfaToSeek d.rfa + BitVec.ofNat 64 (lastBytes d.recordLength.toNat + recordHeader.size)

def treeGetVersionNci (f : File) (nci out : Nci) : Except Status Nci :=
  (readX f (versionOffset nci.dataInfo) nciSize).map fun bytes => treeSerializeNciIn bytes out

/-! ### Where the earlier characteristics are -/

/-- The bytes that are written for a record, and where the last part of them begins. -/
def blockOf (size : ℕ) (nodenum : BitVec 32) (nonvms : Bool) (record : List Byte) :
    List Byte × ℕ :=
  if blen record.length > 0 then
    if nonvms then (record, size)
    else putParts nodenum record record.length (Vector.replicate 6 0) size
  else ([], 0)

section Putting

variable {answers : Answers} {f : File} {nodenum : BitVec 32} {r : DatafileRecords.Nci}
  {record oldNci : List Byte}

theorem putDatafile_eq (hlength : r.recordLength.toNat = record.length)
    (hversions : r.versions = true) :
    putDatafile answers f nodenum r record oldNci =
      if ¬ answers.lock then .error .lockFailure
      else if blen record.length > 0 ∧ ¬ answers.nonvmsCompatible ∧
          2 ^ 31 ≤ blockLength record.length then .error .undefined
      else
        let block := blockOf f.size nodenum answers.nonvmsCompatible record
        let written := decide (blen record.length > 0)
        writeBuffer answers f
          { r with
            contiguous := r.contiguous || written
            nonVms := if written then answers.nonvmsCompatible else r.nonVms }
          oldNci block.1 block.2 := by
  obtain ⟨versions, contiguous, nonVms, errorOnPut, length, dataInfo⟩ := r
  obtain rfl : versions = true := hversions
  have hbytes : (if 0 < record.length then
      (DatafileRecords.Nci.mk true contiguous nonVms errorOnPut length dataInfo).recordLength.toNat
      else 0) = record.length := by
    split <;> omega
  have hcut : blen record.length < blockLength record.length ↔
      2 ^ 31 ≤ blockLength record.length := by
    constructor
    · intro hlt
      by_contra hsmall
      rw [blen_eq (by omega)] at hlt
      omega
    · intro hlarge
      have hint := BitVec.toInt_lt (x := BitVec.ofNat 32 (blockLength record.length))
      rw [blen]
      omega
  simp only [putDatafile, hbytes, blockOf]
  by_cases hpos : blen record.length > 0
  · simp only [Nat.lt_irrefl, if_false, hpos, decide_true, true_and, Bool.or_true,
      if_true, List.take_length]
    cases hnonvms : answers.nonvmsCompatible with
    | true => simp
    | false =>
      have hparts := length_putParts nodenum record.length (Vector.replicate 6 0) f.size
        (Nat.le_refl _)
      simp only [Bool.false_eq_true, if_false, hparts, hcut, not_false_eq_true, true_and]
  · simp only [hpos, decide_false, false_and, Bool.or_false, if_false, true_and,
      Bool.false_eq_true]

theorem writeBuffer_ok {buffer : List Byte} {eof : ℕ} {f' : File} {r' : DatafileRecords.Nci}
    (hok : writeBuffer answers f r oldNci buffer eof = .ok (f', r')) (hversions : r.versions = true)
    (hput : r'.errorOnPut = false) :
    f' = (f.write f.size buffer).write (f.size + buffer.length) oldNci ∧
      r' = { r with
        errorOnPut := false
        dataInfo :=
          if buffer = [] then r.dataInfo
          else .location (seekToRfa (BitVec.ofNat 64 eof)) r.recordLength } := by
  rw [writeBuffer] at hok
  have hsize : (f.write f.size buffer).size = f.size + buffer.length := by
    simp only [File.write]
    omega
  split at hok
  · simp only [hversions, not_true_eq_false, if_false, hsize] at hok
    split at hok
    · cases hok
      exact ⟨rfl, by rw [← hversions]⟩
    · cases hok
  · cases hok
    cases hput

theorem writeBuffer_eq {buffer : List Byte} {eof : ℕ} (hversions : r.versions = true)
    (hwritten : buffer.length ≤ answers.written) (hold : answers.oldNciWritten = true) :
    writeBuffer answers f r oldNci buffer eof =
      .ok ((f.write f.size buffer).write (f.size + buffer.length) oldNci, { r with
        errorOnPut := false
        dataInfo :=
          if buffer = [] then r.dataInfo
          else .location (seekToRfa (BitVec.ofNat 64 eof)) r.recordLength }) := by
  have hsize : (f.write f.size buffer).size = f.size + buffer.length := by
    simp only [File.write]
    omega
  rw [writeBuffer, if_pos hwritten]
  simp only [hversions, not_true_eq_false, if_false, hsize, if_pos hold]

end Putting

section Versions

variable {f f' : File} {nodenum : BitVec 32} {old new : Nci} {p : Put}

theorem versions_prepared (extended : Bool) :
    (prepared old extended p).has NciM_VERSIONS = true := by
  rw [NciHead.has, prepared]
  dsimp only
  rw [bitassign_and_other _ _ (by decide), bitassign_and_other _ _ (by decide),
    bitassign_and_other _ _ (by decide), bitassign_and_self]
  decide

theorem inBlock_prepared (extended : Bool) :
    (prepared old extended p).has2 NciM_DATA_IN_ATT_BLOCK = false := by
  rw [NciHead.has2, prepared]
  dsimp only
  rw [bitassign_and_self]
  rfl

theorem inBlock_afterRecord (nci : Nci) (r : DatafileRecords.Nci) :
    (afterRecord nci r).has2 NciM_DATA_IN_ATT_BLOCK = nci.has2 NciM_DATA_IN_ATT_BLOCK := by
  rw [NciHead.has2, afterRecord]
  dsimp only
  rw [bitassign_and_other _ _ (by decide), bitassign_and_other _ _ (by decide),
    bitassign_and_other _ _ (by decide)]
  rfl

theorem error_afterRecord (nci : Nci) (r : DatafileRecords.Nci) :
    (afterRecord nci r).has2 NciM_ERROR_ON_PUT = r.errorOnPut := by
  rw [NciHead.has2, afterRecord]
  dsimp only
  rw [bitassign_and_self]
  cases r.errorOnPut <;> decide

/-- The bytes a put writes before the earlier characteristics. -/
abbrev Put.block (p : Put) (f : File) (nodenum : BitVec 32) : List Byte × ℕ :=
  blockOf f.size nodenum p.answers.nonvmsCompatible p.record

/-- Where the record is told to be: nowhere else when nothing is written. -/
def Put.location (p : Put) (f : File) (nodenum : BitVec 32) (old : Nci) : Rfa :=
  if (p.block f nodenum).1 = [] then old.dataInfo.rfa
  else seekToRfa (BitVec.ofNat 64 (p.block f nodenum).2)

structure Written (f : File) (nodenum : BitVec 32) (old : Nci) (p : Put) (f' : File) (new : Nci) :
    Prop where
  file : f' = (f.write f.size (p.block f nodenum).1).write
    (f.size + (p.block f nodenum).1.length) (treeSerializeNciOut old)
  rfa : new.dataInfo.rfa = p.location f nodenum old
  recordLength : new.dataInfo.recordLength = BitVec.ofNat 32 p.record.length
  infoSize : new.infoSize = 12
  versions : new.has NciM_VERSIONS = true
  noError : new.has2 NciM_ERROR_ON_PUT = false

theorem putVersion_eq (hattr : attributesOf f old = none) (hlength : p.record.length < 2 ^ 32) :
    putVersion f nodenum old p =
      (if ¬ p.answers.lock then .error .lockFailure
      else if blen p.record.length > 0 ∧ ¬ p.answers.nonvmsCompatible ∧
          2 ^ 31 ≤ blockLength p.record.length then .error .undefined
      else
        let r := forRecord (prepared old false p)
        let block := p.block f nodenum
        let written := decide (blen p.record.length > 0)
        writeBuffer p.answers f
          { r with
            contiguous := r.contiguous || written
            nonVms := if written then p.answers.nonvmsCompatible else r.nonVms }
          (treeSerializeNciOut old) block.1 block.2).map
        fun q => (q.1, afterRecord (prepared old false p) q.2) := by
  have hrecord : (forRecord (prepared old false p)).recordLength.toNat = p.record.length := by
    rw [forRecord, DatafileRecords.Nci.recordLength, prepared]
    dsimp only
    rw [recordLength_putRecordLength, BitVec.toNat_ofNat, Nat.mod_eq_of_lt hlength]
  rw [← putDatafile_eq hrecord (versions_prepared false), putVersion, hattr]

theorem written_of_location {r : DatafileRecords.Nci} (nodenum : BitVec 32)
    (hdata : r.dataInfo =
      .location (p.location f nodenum old) (BitVec.ofNat 32 p.record.length))
    (herror : r.errorOnPut = false) :
    Written f nodenum old p
      ((f.write f.size (p.block f nodenum).1).write (f.size + (p.block f nodenum).1.length)
        (treeSerializeNciOut old))
      (afterRecord (prepared old false p) r) where
  file := rfl
  rfa := by
    rw [afterRecord, hdata]
    exact rfa_putRfa _ _
  recordLength := by
    rw [afterRecord, hdata]
    dsimp only
    rw [recordLength_putRfa, prepared, recordLength_putRecordLength]
  infoSize := by
    have hblock := inBlock_afterRecord (prepared old false p) r
    have herr := error_afterRecord (prepared old false p) r
    rw [inBlock_prepared] at hblock
    rw [herror] at herr
    rw [NciHead.infoSize, hblock, herr]
    rfl
  versions := versions_prepared false
  noError := by rw [error_afterRecord, herror]

theorem location_eq (nodenum : BitVec 32) :
    (if (p.block f nodenum).1 = [] then (forRecord (prepared old false p)).dataInfo
      else .location (seekToRfa (BitVec.ofNat 64 (p.block f nodenum).2))
        (forRecord (prepared old false p)).recordLength) =
      .location (p.location f nodenum old) (BitVec.ofNat 32 p.record.length) := by
  have hlength := recordLength_putRecordLength old.dataInfo (BitVec.ofNat 32 p.record.length)
  rw [Put.location]
  split
  · exact congrArg (DatafileRecords.DataInfo.location _) hlength
  · exact congrArg (DatafileRecords.DataInfo.location _) hlength

theorem written_of_ok (hattr : attributesOf f old = none) (hlength : p.record.length < 2 ^ 32)
    (hok : putVersion f nodenum old p = .ok (f', new))
    (herror : new.has2 NciM_ERROR_ON_PUT = false) :
    Written f nodenum old p f' new := by
  rw [putVersion_eq hattr hlength] at hok
  split at hok
  · cases hok
  · split at hok
    · cases hok
    · dsimp only at hok
      generalize hbuffer : writeBuffer p.answers f _ _ _ _ = result at hok
      cases result with
      | error e => cases hok
      | ok q =>
        cases hok
        rw [error_afterRecord] at herror
        obtain ⟨hfile, hnci⟩ := writeBuffer_ok hbuffer (versions_prepared false) herror
        rw [hfile]
        exact written_of_location nodenum ((congrArg DatafileRecords.Nci.dataInfo hnci).trans
          (location_eq nodenum)) herror

theorem exists_written (hattr : attributesOf f old = none) (hlength : p.record.length < 2 ^ 32)
    (hdefined : putVersion f nodenum old p ≠ .error .undefined) (hlock : p.answers.lock = true)
    (hwritten : (p.block f nodenum).1.length ≤ p.answers.written)
    (hold : p.answers.oldNciWritten = true) :
    ∃ f' new, putVersion f nodenum old p = .ok (f', new) ∧ Written f nodenum old p f' new := by
  rw [putVersion_eq hattr hlength, if_neg (by simpa using hlock)] at hdefined ⊢
  split
  · rename_i hlarge
    rw [if_pos hlarge] at hdefined
    exact absurd rfl hdefined
  · dsimp only
    rw [writeBuffer_eq (versions_prepared false) hwritten hold]
    exact ⟨_, _, rfl, written_of_location nodenum (location_eq nodenum) rfl⟩

/-! ### Looking for them -/

theorem recordLength_of_written (h : Written f nodenum old p f' new)
    (hlength : p.record.length < 2 ^ 32) :
    new.dataInfo.recordLength.toNat = p.record.length := by
  rw [h.recordLength, BitVec.toNat_ofNat, Nat.mod_eq_of_lt hlength]

/-- Where the earlier characteristics are. -/
def Put.place (p : Put) (f : File) (nodenum : BitVec 32) : ℕ :=
  f.size + (p.block f nodenum).1.length

theorem holds_of_written (h : Written f nodenum old p f' new) :
    Holds f' (p.place f nodenum) (treeSerializeNciOut old) := by
  rw [h.file]
  exact holds_write _ _ _

theorem size_of_written (h : Written f nodenum old p f' new) :
    f'.size = p.place f nodenum + nciSize := by
  rw [h.file]
  simp only [File.write, length_serialized, Put.place]
  omega

theorem grows_of_written (h : Written f nodenum old p f' new) : Grows f f' := by
  have hsize : (f.write f.size (p.block f nodenum).1).size =
      f.size + (p.block f nodenum).1.length := by
    simp only [File.write]
    omega
  rw [h.file, ← hsize]
  exact (grows_append f _).trans (grows_append _ _)

theorem version_of_place (h : Written f nodenum old p f' new)
    (hplace : (versionOffset new.dataInfo).toInt = p.place f nodenum) {g : File} (hg : Grows f' g)
    (out : Nci) : ∃ v, treeGetVersionNci g new out = .ok v ∧ Same v old := by
  refine ⟨_, ?_, serializeIn_out old out⟩
  have hlt := BitVec.toInt_lt (x := versionOffset new.dataInfo)
  have hoff : versionOffset new.dataInfo = BitVec.ofNat 64 (p.place f nodenum) := by
    rw [← BitVec.ofInt_toInt (x := versionOffset new.dataInfo), hplace, BitVec.ofInt_natCast]
  have hread := readX_eq ((holds_of_written h).grows hg) (by omega)
  rw [length_serialized, ← hoff] at hread
  rw [treeGetVersionNci, hread]
  rfl

theorem int8_decode_take (bytes : List Byte) : int8.decode (bytes.take 1) = bytes.getD 0 0 := by
  cases bytes with
  | nil => rfl
  | cons b rest =>
    show BitVec.ofNat 8 (b.toNat + 256 * 0) = b
    rw [Nat.mul_zero, Nat.add_zero, BitVec.ofNat_toNat, BitVec.setWidth_eq]

theorem spare_serializeIn (bytes : List Byte) (out : Nci) :
    (treeSerializeNciIn bytes out).spare = bytes.getD 5 0 := by
  have hdecode : (treeSerializeNciIn bytes out).spare =
      int8.decode ((((bytes.take nciHead.size).drop 4).drop 1).take 1) := rfl
  rw [hdecode, int8_decode_take, nciHead_size]
  simp [List.getD_eq_getElem?_getD]

theorem getD_serializeOut_spare (nci : Nci) (spare : Byte) {i : ℕ} (hi : i < 5) :
    (treeSerializeNciOut { nci with spare := spare }).getD i 0 =
      (treeSerializeNciOut nci).getD i 0 := by
  match i with
  | 0 | 1 | 2 | 3 | 4 => rfl

theorem spare_of_version {g : File} {nci out v : Nci} (h : treeGetVersionNci g nci out = .ok v) :
    0 ≤ (versionOffset nci.dataInfo).toInt ∧
      (versionOffset nci.dataInfo).toNat + nciSize ≤ g.size ∧
      v.spare = g.byte ((versionOffset nci.dataInfo).toNat + 5) := by
  rw [treeGetVersionNci] at h
  generalize hread : readX g (versionOffset nci.dataInfo) nciSize = result at h
  cases result with
  | error e => cases h
  | ok bytes =>
    cases h
    rw [readX, if_neg (by decide), ite_error_eq_ok, File.read] at hread
    obtain ⟨hsign, hread⟩ := hread
    by_cases hinside : (versionOffset nci.dataInfo).toNat + nciSize ≤ g.size
    · rw [if_pos hinside] at hread
      cases hread
      refine ⟨by omega, hinside, ?_⟩
      rw [spare_serializeIn]
      rfl
    · rw [if_neg hinside] at hread
      cases hread

theorem byte_of_written (h : Written f nodenum old p f' new) (a : ℕ) :
    f'.byte a =
      if p.place f nodenum ≤ a ∧ a < p.place f nodenum + 42 then
        (treeSerializeNciOut old).getD (a - p.place f nodenum) 0
      else if a < p.place f nodenum then (f.write f.size (p.block f nodenum).1).byte a
      else 0 := by
  have hsize : (f.write f.size (p.block f nodenum).1).size = p.place f nodenum := by
    simp only [File.write, Put.place]
    omega
  have hlen : (treeSerializeNciOut old).length = 42 := length_serialized old
  rw [h.file]
  show (if p.place f nodenum ≤ a ∧ a < p.place f nodenum + (treeSerializeNciOut old).length then _
    else if a < (f.write f.size (p.block f nodenum).1).size then _ else _) = _
  rw [hlen, hsize]
  rfl

/-- Looked for elsewhere, they are not found: what is read there does not depend on them, or it is
not in the file. -/
theorem place_of_version {f'' : File} {new' : Nci} {spare : Byte} (hne : spare ≠ old.spare)
    (h : Written f nodenum old p f' new)
    (h' : Written f nodenum { old with spare := spare } p f'' new')
    (hread : ∃ v, treeGetVersionNci f' new new = .ok v ∧ v.spare = old.spare)
    (hread' : ∃ v, treeGetVersionNci f'' new' new' = .ok v ∧ v.spare = spare) :
    (versionOffset new.dataInfo).toInt = p.place f nodenum := by
  obtain ⟨v, hv, hspare⟩ := hread
  obtain ⟨v', hv', hspare'⟩ := hread'
  obtain ⟨hsign, hinside, hbyte⟩ := spare_of_version hv
  obtain ⟨-, -, hbyte'⟩ := spare_of_version hv'
  have hoff : versionOffset new'.dataInfo = versionOffset new.dataInfo := by
    rw [versionOffset, versionOffset, h.rfa, h'.rfa, h.recordLength, h'.recordLength]
    rfl
  rw [size_of_written h] at hinside
  rw [hoff] at hbyte'
  have hnat : ((versionOffset new.dataInfo).toNat : ℤ) = (versionOffset new.dataInfo).toInt := by
    rw [BitVec.toInt_eq_toNat_cond] at hsign ⊢
    split at hsign
    · rw [if_pos ‹_›]
    · omega
  by_contra hplace
  have hlt : (versionOffset new.dataInfo).toNat < p.place f nodenum := by omega
  have hsame : f''.byte ((versionOffset new.dataInfo).toNat + 5) =
      f'.byte ((versionOffset new.dataInfo).toNat + 5) := by
    rw [byte_of_written h, byte_of_written h']
    by_cases hbefore : (versionOffset new.dataInfo).toNat + 5 < p.place f nodenum
    · have hout : ¬ (p.place f nodenum ≤ (versionOffset new.dataInfo).toNat + 5 ∧
          (versionOffset new.dataInfo).toNat + 5 < p.place f nodenum + 42) := by omega
      rw [if_neg hout, if_neg hout]
    · have hin : p.place f nodenum ≤ (versionOffset new.dataInfo).toNat + 5 ∧
          (versionOffset new.dataInfo).toNat + 5 < p.place f nodenum + 42 := by omega
      rw [if_pos hin, if_pos hin, getD_serializeOut_spare old _ (by omega)]
  exact hne (by rw [← hspare', ← hspare, hbyte, hbyte', hsame])

end Versions

/-! ### When they are found -/

/-- The record goes to the file in parts which an address can tell, and the last of them is as
long as its length says. Where nothing is written, an address that was there before happens to
lead to the end of the file. -/
def Found (size n : ℕ) (nonvms : Bool) (rfa : Rfa) : Prop :=
  if 0 < blen n then
    nonvms = false ∧ lastPart size n < rfaLimit ∧ (maxPart ∣ n → n = maxPart)
  else (rfaToSeek rfa + BitVec.ofNat 64 (lastBytes n + recordHeader.size)).toInt = size

theorem seek_add (l c : ℕ) (hc : c < 2 ^ 16) :
    (rfaToSeek (seekToRfa (BitVec.ofNat 64 l)) + BitVec.ofNat 64 c).toInt =
      (((l + 512) % 2 ^ 41 : ℕ) : ℤ) - 512 + c := by
  have h512 : (512 : BitVec 64).toNat = 512 := rfl
  have hmod : (BitVec.ofNat 64 l + 512).toNat % 2 ^ 41 = (l + 512) % 2 ^ 41 := by
    rw [BitVec.toNat_add, BitVec.toNat_ofNat, h512]
    omega
  rw [rfaToSeek_seekToRfa_mod, hmod, BitVec.toInt_eq_toNat_cond, BitVec.toNat_add,
    BitVec.toNat_sub, BitVec.toNat_ofNat, BitVec.toNat_ofNat, h512]
  split <;> omega

theorem lastBytes_lt (n : ℕ) : lastBytes n + recordHeader.size < 2 ^ 16 := by
  rw [lastBytes, maxPart_eq, recordHeader_size]
  split <;> omega

theorem blen_pos {n : ℕ} (h : 0 < blen n) : 0 < n := by
  rcases Nat.eq_zero_or_pos n with rfl | hpos
  · exact absurd h (by decide)
  · exact hpos

theorem wrap_cases (x : ℕ) : x % 2 ^ 41 = x ∧ x < 2 ^ 41 ∨ x % 2 ^ 41 + 2 ^ 41 ≤ x := by omega

theorem lastBytes_add_ne (n : ℕ) : lastBytes n + recordHeader.size ≠ n := by
  rw [lastBytes, maxPart_eq, recordHeader_size]
  split <;> omega

theorem lastBytes_iff {n : ℕ} (hpos : 0 < n) :
    lastBytes n = (n - 1) % maxPart + 1 ↔ (maxPart ∣ n → n = maxPart) := by
  rw [lastBytes, maxPart_eq]
  constructor
  · intro h hdvd
    split at h <;> omega
  · intro h
    split
    · omega
    · have hnot : ¬ 32755 ∣ n := by
        intro hdvd
        have := h hdvd
        omega
      omega

theorem parts_iff {size n : ℕ} (hpos : 0 < n) :
    (rfaToSeek (seekToRfa (BitVec.ofNat 64 (lastPart size n))) +
        BitVec.ofNat 64 (lastBytes n + recordHeader.size)).toInt = (size + blockLength n : ℕ) ↔
      lastPart size n < rfaLimit ∧ (maxPart ∣ n → n = maxPart) := by
  have hsum : size + blockLength n =
      lastPart size n + recordHeader.size + ((n - 1) % maxPart + 1) := by
    rw [lastPart, blockLength, recordHeader_size, maxPart, DATAF_C_MAX_RECORD_SIZE]
    omega
  have hlt := lastBytes_lt n
  rw [seek_add _ _ hlt, ← lastBytes_iff hpos, hsum]
  have hwrap := wrap_cases (lastPart size n + 512)
  simp only [rfaLimit]
  generalize (lastPart size n + 512) % 2 ^ 41 = u at hwrap ⊢
  constructor
  · intro h
    omega
  · rintro ⟨h1, h2⟩
    omega

theorem asIs_ne (size n : ℕ) :
    (rfaToSeek (seekToRfa (BitVec.ofNat 64 size)) +
      BitVec.ofNat 64 (lastBytes n + recordHeader.size)).toInt ≠ (size + n : ℕ) := by
  have hne := lastBytes_add_ne n
  have hlt := lastBytes_lt n
  have hwrap := wrap_cases (size + 512)
  rw [seek_add _ _ hlt]
  generalize (size + 512) % 2 ^ 41 = u at hwrap ⊢
  omega
section Versions

variable {f f' : File} {nodenum : BitVec 32} {old new : Nci} {p : Put}

theorem place_iff (h : Written f nodenum old p f' new) (hlength : p.record.length < 2 ^ 32) :
    (versionOffset new.dataInfo).toInt = p.place f nodenum ↔
      Found f.size p.record.length p.answers.nonvmsCompatible old.dataInfo.rfa := by
  rw [versionOffset, recordLength_of_written h hlength, h.rfa, Put.location, Put.place, Put.block,
    blockOf, Found]
  by_cases hpos : 0 < blen p.record.length
  · have hn := blen_pos hpos
    have hne : p.record ≠ [] := List.ne_nil_of_length_pos hn
    rw [if_pos hpos, if_pos hpos]
    cases p.answers.nonvmsCompatible with
    | true =>
      simp only [if_true, if_neg hne, Bool.true_eq_false, false_and, iff_false]
      exact asIs_ne f.size p.record.length
    | false =>
      have hlen := length_putParts nodenum p.record.length (Vector.replicate 6 0) f.size
        (Nat.le_refl _)
      have hlast : (putParts nodenum p.record p.record.length (Vector.replicate 6 0) f.size).2 =
          lastPart f.size p.record.length := last_putParts _ _ _ hn
      have hparts : (putParts nodenum p.record p.record.length (Vector.replicate 6 0) f.size).1 ≠
          [] := by
        apply List.ne_nil_of_length_pos
        rw [hlen, blockLength_step hn, recordHeader_size]
        omega
      simp only [Bool.false_eq_true, if_false, if_neg hparts, hlen, hlast, true_and]
      exact parts_iff hn
  · rw [if_neg hpos, if_neg hpos]
    simp only [if_true, List.length_nil, Nat.add_zero]

end Versions

def Keeps (f : File) (length : BitVec 32) (nonvms extended : Bool) (rfa : Rfa) : Prop :=
  ∀ (nodenum : BitVec 32) (old : Nci) (p : Put), old.dataInfo.rfa = rfa →
    old.has2 NciM_EXTENDED_NCI = extended → p.answers.nonvmsCompatible = nonvms →
    p.record.length = length.toNat →
    putVersion f nodenum old p ≠ .error .undefined ∧
    ∀ f' new, putVersion f nodenum old p = .ok (f', new) → new.has2 NciM_ERROR_ON_PUT = false →
      ∀ g out, Grows f' g → ∃ v, treeGetVersionNci g new out = .ok v ∧ Same v old

def Extended (f : File) (extended : Bool) (rfa : Rfa) : Prop :=
  extended = true ∧ (getRecord extendedAttributes f (rfaToSeek rfa)).isSome

/-- A put with zeros for a record, on a system that can do everything. -/
def zerosPut (nonvms : Bool) (n written : ℕ) : Put :=
  ⟨⟨nonvms, true, written, true⟩, List.replicate n 0, none, false, false, false, false, false, 0, 0,
    0, 0, 0⟩

def bare (extended : Bool) (spare : Byte) (rfa : Rfa) : Nci :=
  ⟨⟨0, if extended then NciM_EXTENDED_NCI else 0, spare, 0, 0, 0, 0, 0, 0, 0⟩,
    DataInfo.putRfa (Vector.replicate 12 0) rfa⟩

theorem attributesOf_eq_none {f : File} {old : Nci} {extended : Bool} {rfa : Rfa}
    (hrfa : old.dataInfo.rfa = rfa) (hextended : old.has2 NciM_EXTENDED_NCI = extended)
    (h : ¬ Extended f extended rfa) : attributesOf f old = none := by
  rw [attributesOf, hextended, hrfa]
  cases extended with
  | false => rfl
  | true =>
    cases hread : getRecord extendedAttributes f (rfaToSeek rfa) with
    | none => rfl
    | some attr => exact absurd ⟨rfl, by rw [hread]; rfl⟩ h

section Bare

variable (extended : Bool) (spare : Byte) (rfa : Rfa)

theorem bare_rfa : (bare extended spare rfa).dataInfo.rfa = rfa := rfa_putRfa _ _

theorem bare_extended : (bare extended spare rfa).has2 NciM_EXTENDED_NCI = extended := by
  cases extended <;> simp [bare, NciHead.has2, NciM_EXTENDED_NCI]

theorem bare_noError : (bare extended spare rfa).has2 NciM_ERROR_ON_PUT = false := by
  cases extended <;> simp [bare, NciHead.has2, NciM_EXTENDED_NCI, NciM_ERROR_ON_PUT]

end Bare

theorem error_prepared (old : Nci) (extended : Bool) (p : Put) :
    (prepared old extended p).has2 NciM_ERROR_ON_PUT = old.has2 NciM_ERROR_ON_PUT := by
  rw [NciHead.has2, prepared]
  dsimp only
  rw [bitassign_and_other _ _ (by decide), bitassign_and_other _ _ (by decide),
    bitassign_and_other _ _ (by decide)]
  rfl

theorem not_extended_of_keeps {f : File} {length : BitVec 32} {nonvms extended : Bool} {rfa : Rfa}
    (h : Keeps f length nonvms extended rfa) : ¬ Extended f extended rfa := by
  rintro ⟨rfl, hattr⟩
  obtain ⟨attr, hattr⟩ := Option.isSome_iff_exists.mp hattr
  obtain ⟨p, hp⟩ : ∃ p, p = zerosPut nonvms length.toNat 0 := ⟨_, rfl⟩
  have hlength : p.record.length = length.toNat := by
    rw [hp]
    exact List.length_replicate
  have hread : ∀ spare, ∃ new v,
      new.dataInfo = (prepared (bare true 0 rfa) true p).dataInfo ∧
      treeGetVersionNci (putExtended f (bare true 0 rfa) attr p.stored) new new = .ok v ∧
      v.spare = spare := by
    intro spare
    have hsome : attributesOf f (bare true spare rfa) = some attr := by
      rw [attributesOf, if_pos (bare_extended true spare rfa), bare_rfa, hattr]
    have hput : putVersion f 0 (bare true spare rfa) p =
        .ok (putExtended f (bare true 0 rfa) attr p.stored,
          { prepared (bare true spare rfa) true p with
            flags := bitassign false (prepared (bare true spare rfa) true p).flags
              NciM_SEGMENTED }) := by
      rw [putVersion, hsome]
      rfl
    obtain ⟨-, hversion⟩ := h 0 (bare true spare rfa) p (bare_rfa true spare rfa)
      (bare_extended true spare rfa) (by rw [hp]; rfl) hlength
    obtain ⟨v, hv, hsame⟩ := hversion _ _ hput
      ((error_prepared _ true p).trans (bare_noError true spare rfa)) _ _ (Grows.refl _)
    exact ⟨_, v, rfl, hv, congrArg NciHead.spare hsame.head⟩
  obtain ⟨new, v, hnew, hv, hspare⟩ := hread 0
  obtain ⟨new', v', hnew', hv', hspare'⟩ := hread 1
  obtain ⟨-, -, hbyte⟩ := spare_of_version hv
  obtain ⟨-, -, hbyte'⟩ := spare_of_version hv'
  rw [hnew, hspare] at hbyte
  rw [hnew', hspare', ← hbyte] at hbyte'
  exact absurd hbyte' (by decide)

/-- The condition under which every record of a length keeps the earlier characteristics. -/
def Stored (f : File) (length : BitVec 32) (nonvms extended : Bool) (rfa : Rfa) : Prop :=
  ¬ Extended f extended rfa ∧ (0 < blen length.toNat → blockLength length.toNat < 2 ^ 31) ∧
    Found f.size length.toNat nonvms rfa

theorem map_ne_error {α β : Type} {x : Except Status α} {g : α → β} {e : Status}
    (h : x ≠ .error e) : x.map g ≠ .error e := by
  cases x with
  | error e' => exact fun heq => h (congrArg Except.error (Except.error.inj heq))
  | ok a => nofun

theorem keeps_of_stored {f : File} {length : BitVec 32} {nonvms extended : Bool} {rfa : Rfa}
    (h : Stored f length nonvms extended rfa) : Keeps f length nonvms extended rfa := by
  obtain ⟨hextended, hblock, hfound⟩ := h
  intro nodenum old p hrfa hold hnonvms hlength
  have hattr := attributesOf_eq_none hrfa hold hextended
  have hlt : p.record.length < 2 ^ 32 := by
    rw [hlength]
    exact length.isLt
  rw [← hlength] at hblock hfound
  constructor
  · rw [putVersion_eq hattr hlt]
    split
    · nofun
    · rw [if_neg fun hlarge => absurd (hblock hlarge.1) (by omega)]
      exact map_ne_error writeBuffer_defined
  · intro f' new hok herror g out hg
    have hwritten := written_of_ok hattr hlt hok herror
    rw [← hnonvms, ← hrfa] at hfound
    exact version_of_place hwritten ((place_iff hwritten hlt).mpr hfound) hg out

theorem stored_of_keeps {f : File} {length : BitVec 32} {nonvms extended : Bool} {rfa : Rfa}
    (h : Keeps f length nonvms extended rfa) : Stored f length nonvms extended rfa := by
  have hextended := not_extended_of_keeps h
  obtain ⟨p, hp⟩ : ∃ p, p = zerosPut nonvms length.toNat
      (blockOf f.size 0 nonvms (List.replicate length.toNat 0)).1.length := ⟨_, rfl⟩
  have hrecord : p.record.length = length.toNat := by
    rw [hp]
    exact List.length_replicate
  have hlt : p.record.length < 2 ^ 32 := by
    rw [hrecord]
    exact length.isLt
  have hnonvms : p.answers.nonvmsCompatible = nonvms := by rw [hp]; rfl
  have hattr : ∀ spare, attributesOf f (bare extended spare rfa) = none := fun spare =>
    attributesOf_eq_none (bare_rfa _ _ _) (bare_extended _ _ _) hextended
  have hput : ∀ spare, ∃ f' new, Written f 0 (bare extended spare rfa) p f' new ∧
      ∃ v, treeGetVersionNci f' new new = .ok v ∧ v.spare = spare := by
    intro spare
    obtain ⟨hdefined, hversion⟩ := h 0 (bare extended spare rfa) p (bare_rfa _ _ _)
      (bare_extended _ _ _) hnonvms hrecord
    obtain ⟨f', new, hok, hwritten⟩ := exists_written (hattr spare) hlt hdefined (by rw [hp]; rfl)
      (by rw [hp]; exact Nat.le_refl _) (by rw [hp]; rfl)
    obtain ⟨v, hv, hsame⟩ := hversion f' new hok hwritten.noError f' new (Grows.refl _)
    exact ⟨f', new, hwritten, v, hv, congrArg NciHead.spare hsame.head⟩
  obtain ⟨f', new, hwritten, hread⟩ := hput 0
  obtain ⟨f'', new', hwritten', hread'⟩ := hput 1
  have hone : (1 : Byte) ≠ (bare extended 0 rfa).spare := by
    show (1 : Byte) ≠ 0
    decide
  have hplace := place_of_version hone hwritten hwritten' hread hread'
  have hfound := (place_iff hwritten hlt).mp hplace
  rw [hrecord, hnonvms, bare_rfa] at hfound
  refine ⟨hextended, fun hpos => ?_, hfound⟩
  by_contra hlarge
  rw [Found, if_pos hpos] at hfound
  refine (h 0 (bare extended 0 rfa) p (bare_rfa _ _ _) (bare_extended _ _ _) hnonvms hrecord).1 ?_
  have hlock : p.answers.lock = true := by rw [hp]; rfl
  rw [putVersion_eq (hattr 0) hlt, if_neg (by simpa using hlock), hnonvms, hfound.1, hrecord,
    if_pos ⟨hpos, by simp, by omega⟩]
  rfl

/-! ### The chain of versions -/

def versionAt (f : File) : ℕ → Nci → Except Status Nci
  | 0, nci => .ok nci
  | n + 1, nci =>
      if nci.has NciM_VERSIONS then treeGetVersionNci f nci nci >>= versionAt f n
      else .error .failure

/-- A node with the characteristics it had before, the last ones first. -/
structure State where
  file : File
  nci : Nci
  earlier : List Nci

/-- A record is put, or something else is added to the file. -/
inductive Step
  | put (nodenum : BitVec 32) (p : Put)
  | add (bytes : List Byte)

def step (s : State) : Step → Except Status State
  | .put nodenum p =>
      (putVersion s.file nodenum s.nci p).map fun q => ⟨q.1, q.2, s.nci :: s.earlier⟩
  | .add bytes => .ok { s with file := s.file.write s.file.size bytes }

/-- A record that keeps the earlier characteristics and is put without errors. -/
def Admitted (s : State) : Step → Prop
  | .put nodenum p =>
      p.record.length < 2 ^ 32 ∧
      Stored s.file (BitVec.ofNat 32 p.record.length) p.answers.nonvmsCompatible
        (s.nci.has2 NciM_EXTENDED_NCI) s.nci.dataInfo.rfa ∧
      ∀ f' new, putVersion s.file nodenum s.nci p = .ok (f', new) →
        new.has2 NciM_ERROR_ON_PUT = false
  | .add _ => True

structure Chained (s : State) : Prop where
  reads : ∀ k (hk : k < s.earlier.length), ∀ g, Grows s.file g →
    ∃ v, versionAt g (k + 1) s.nci = .ok v ∧ Same v s.earlier[k]
  whole : s.earlier ≠ [] → s.nci.infoSize = 12

theorem chained_put {s s' : State} {nodenum : BitVec 32} {p : Put} (h : Chained s)
    (hadm : Admitted s (.put nodenum p)) (hok : step s (.put nodenum p) = .ok s') : Chained s' := by
  obtain ⟨hlt, hstored, hclean⟩ := hadm
  have hnat : (BitVec.ofNat 32 p.record.length).toNat = p.record.length := by
    rw [BitVec.toNat_ofNat, Nat.mod_eq_of_lt hlt]
  rw [step] at hok
  cases hput : putVersion s.file nodenum s.nci p with
  | error e =>
    rw [hput] at hok
    cases hok
  | ok q =>
    obtain ⟨f', new⟩ := q
    rw [hput] at hok
    cases hok
    have herror := hclean f' new hput
    have hattr := attributesOf_eq_none rfl rfl hstored.1
    have hwritten := written_of_ok hattr hlt hput herror
    obtain ⟨-, hversion⟩ := keeps_of_stored hstored nodenum s.nci p rfl rfl rfl hnat.symm
    have hgrows := grows_of_written hwritten
    refine ⟨fun k hk g hg => ?_, fun _ => hwritten.infoSize⟩
    obtain ⟨v, hv, hsame⟩ := hversion f' new hput herror g new hg
    have hnext : ∀ n, versionAt g (n + 1) new = versionAt g n v := by
      intro n
      rw [versionAt, if_pos hwritten.versions, hv]
      rfl
    cases k with
    | zero => exact ⟨v, hnext 0, hsame⟩
    | succ k =>
      have hk' : k < s.earlier.length := Nat.lt_of_succ_lt_succ hk
      obtain rfl := hsame.eq (h.whole (List.ne_nil_of_length_pos (by omega)))
      rw [hnext]
      exact h.reads k hk' g (hgrows.trans hg)

theorem chained_step {s s' : State} {op : Step} (h : Chained s) (hadm : Admitted s op)
    (hok : step s op = .ok s') : Chained s' := by
  cases op with
  | put nodenum p => exact chained_put h hadm hok
  | add bytes =>
    cases hok
    exact ⟨fun k hk g hg => h.reads k hk g ((grows_append s.file bytes).trans hg), h.whole⟩

/-- The earlier characteristics are found behind a record under this condition only. Where it was
met all the time, the chain has all of them in order. -/
theorem versions_kept_iff (f : File) (length : BitVec 32) (nonvms extended : Bool) (rfa : Rfa) :
    (Keeps f length nonvms extended rfa ↔ Stored f length nonvms extended rfa) ∧
    ∀ (nci : Nci) (ops : List Step) (s' : State), Admissible step Admitted ⟨f, nci, []⟩ ops →
      run step ⟨f, nci, []⟩ ops = .ok s' → ∀ k (hk : k < s'.earlier.length),
        ∃ v, versionAt s'.file (k + 1) s'.nci = .ok v ∧ Same v s'.earlier[k] := by
  refine ⟨⟨stored_of_keeps, keeps_of_stored⟩, fun nci ops s' hadm hrun k hk => ?_⟩
  have hstart : Chained ⟨f, nci, []⟩ :=
    ⟨fun k hk => absurd hk (Nat.not_lt_zero k), fun hne => absurd rfl hne⟩
  have hend := run_preserves (fun _ _ _ hinv hok hstep => chained_step hinv hok hstep) _ ops s'
    hstart hadm hrun
  exact hend.reads k hk s'.file (Grows.refl _)

/-- A record of two whole parts: the first bytes of its last part are read. -/
theorem two_parts_lost :
    ¬ ∀ f length nonvms extended rfa, Keeps f length nonvms extended rfa := by
  intro hall
  obtain ⟨-, -, hfound⟩ := stored_of_keeps
    (hall (zeros 0) 65510 false false (Vector.replicate 6 0))
  have hlength : (65510 : BitVec 32).toNat = 65510 := rfl
  rw [hlength, Found, if_pos (by decide)] at hfound
  exact absurd (hfound.2.2 (by decide)) (by decide)

end MdsPlus.VersionRecords
