import MdsPlus.Datafile

/-!
The characteristics of a node: a record of 42 bytes, the last of which tell where the data of the
node are, or are the data. What these bytes mean is told by the flags; they are stored by their
meaning and read back into a record that may have held others before.
-/

namespace MdsPlus.Characteristics

open BitMemory Codec Datafile

def NciM_VERSIONS : BitVec 32 := 0x00000010
def NciM_SETUP_INFORMATION : BitVec 32 := 0x00000040
def NciM_COMPRESSIBLE : BitVec 32 := 0x00000100
def NciM_PATH_REFERENCE : BitVec 32 := 0x00002000
def NciM_NID_REFERENCE : BitVec 32 := 0x00004000

def NciM_DATA_IN_ATT_BLOCK : Byte := 0x01
def NciM_ERROR_ON_PUT : Byte := 0x02
def NciM_DATA_CONTIGUOUS : Byte := 0x04
def NciM_NON_VMS : Byte := 0x08
def NciM_EXTENDED_NCI : Byte := 0x10
def NciM_32BIT_UID_NCI : Byte := 0x20

structure NciHead where
  flags : BitVec 32
  flags2 : Byte
  spare : Byte
  timeInserted : BitVec 64
  ownerIdentifier : BitVec 32
  cls : Byte
  dtype : Byte
  length : BitVec 32
  compressionMethod : Byte
  status : BitVec 32
  deriving DecidableEq

structure Nci extends NciHead where
  dataInfo : DataInfo
  deriving DecidableEq

def bitassign {w : ℕ} (bit : Bool) (value mask : BitVec w) : BitVec w :=
  if bit then value ||| mask else value &&& ~~~mask

def NciHead.has (nci : NciHead) (mask : BitVec 32) : Bool := nci.flags &&& mask ≠ 0

def NciHead.has2 (nci : NciHead) (mask : Byte) : Bool := nci.flags2 &&& mask ≠ 0

section Bits

variable {w : ℕ} (bit : Bool) (value : BitVec w) {mask other : BitVec w}

@[simp] theorem bitassign_and_self :
    bitassign bit value mask &&& mask = if bit then mask else 0 := by
  apply BitVec.eq_of_getLsbD_eq
  intro i _
  cases bit
  · cases h : mask.getLsbD i <;> simp [bitassign, h]
  · cases h : mask.getLsbD i <;> simp [bitassign, h]

theorem bitassign_and_other (h : mask &&& other = 0) :
    bitassign bit value mask &&& other = value &&& other := by
  apply BitVec.eq_of_getLsbD_eq
  intro i hi
  have hbit : (mask &&& other).getLsbD i = false := by
    rw [h]
    exact BitVec.getLsbD_zero
  rw [BitVec.getLsbD_and] at hbit
  cases bit
  · cases hm : mask.getLsbD i <;> simp_all [bitassign]
  · cases hm : mask.getLsbD i <;> simp_all [bitassign]

end Bits

/-! ### A location -/

section Location

variable (d : DataInfo) (rfa : Rfa) (recordLength : BitVec 32)

@[simp] theorem rfa_putRfa : (d.putRfa rfa).rfa = rfa := by
  apply Vector.ext
  intro i hi
  match i with
  | 0 | 1 | 2 | 3 | 4 | 5 => rfl

@[simp] theorem recordLength_putRfa : (d.putRfa rfa).recordLength = d.recordLength := rfl

@[simp] theorem recordLength_putRecordLength :
    (d.putRecordLength recordLength).recordLength = recordLength := by
  have hbytes : int32.encode recordLength =
      [(int32.encode recordLength).getD 0 0, (int32.encode recordLength).getD 1 0,
        (int32.encode recordLength).getD 2 0, (int32.encode recordLength).getD 3 0] := rfl
  rw [DataInfo.recordLength]
  exact (congrArg int32.decode hbytes.symm).trans (int32.decode_encode recordLength)

end Location

/-! ### Characteristics as they are stored -/

def nciHead : Format NciHead :=
  view (pair int32 (pair int8 (pair int8 (pair int64 (pair int32 (pair int8 (pair int8 (pair int32
      (pair int8 int32)))))))))
    { toFun := fun h => (h.flags, h.flags2, h.spare, h.timeInserted, h.ownerIdentifier, h.cls,
        h.dtype, h.length, h.compressionMethod, h.status)
      invFun := fun p => ⟨p.1, p.2.1, p.2.2.1, p.2.2.2.1, p.2.2.2.2.1, p.2.2.2.2.2.1,
        p.2.2.2.2.2.2.1, p.2.2.2.2.2.2.2.1, p.2.2.2.2.2.2.2.2.1, p.2.2.2.2.2.2.2.2.2⟩
      left_inv := fun _ => rfl
      right_inv := fun _ => rfl }

abbrev nciSize : ℕ := 42

/-- How many bytes of the data information have a meaning: an error has two words. -/
def NciHead.infoSize (h : NciHead) : ℕ :=
  if h.has2 NciM_DATA_IN_ATT_BLOCK then 12
  else if h.has2 NciM_ERROR_ON_PUT then 8
  else 12

def treeSerializeNciOut (nci : Nci) : List Byte :=
  let info := nci.dataInfo.toList.take nci.infoSize
  nciHead.encode nci.toNciHead ++ info ++ List.replicate (13 - nci.infoSize) 0

/-- What has no meaning is left as it was. -/
def treeSerializeNciIn (bytes : List Byte) (out : Nci) : Nci :=
  let h := nciHead.decode (bytes.take nciHead.size)
  let info := bytes.drop nciHead.size
  ⟨h, Vector.ofFn fun i =>
    if i < h.infoSize then info.getD i 0 else out.dataInfo[i]⟩

/-- Characteristics that say the same. -/
structure Same (a b : Nci) : Prop where
  head : a.toNciHead = b.toNciHead
  info : ∀ i : Fin 12, i < b.infoSize → a.dataInfo[i] = b.dataInfo[i]

theorem nciHead_size : nciHead.size = 29 := rfl

theorem infoSize_le (h : NciHead) : h.infoSize ≤ 12 := by
  unfold NciHead.infoSize
  split
  · exact Nat.le_refl 12
  · split <;> omega

theorem length_serialized (nci : Nci) : (treeSerializeNciOut nci).length = nciSize := by
  have hle := infoSize_le nci.toNciHead
  have hhead := nciHead.length_encode nci.toNciHead
  rw [nciHead_size] at hhead
  simp only [treeSerializeNciOut, List.length_append, List.length_take, List.length_replicate,
    Vector.length_toList, hhead, nciSize]
  omega

theorem serializeIn_out (nci out : Nci) :
    Same (treeSerializeNciIn (treeSerializeNciOut nci) out) nci := by
  have hhead := nciHead.length_encode nci.toNciHead
  have htake : (treeSerializeNciOut nci).take nciHead.size = nciHead.encode nci.toNciHead := by
    rw [treeSerializeNciOut, List.append_assoc, ← hhead, List.take_left]
  have hdrop : (treeSerializeNciOut nci).drop nciHead.size =
      nci.dataInfo.toList.take nci.infoSize ++ List.replicate (13 - nci.infoSize) 0 := by
    rw [treeSerializeNciOut, List.append_assoc, ← hhead, List.drop_left]
  have hread : (treeSerializeNciIn (treeSerializeNciOut nci) out).toNciHead = nci.toNciHead := by
    rw [treeSerializeNciIn, htake, nciHead.decode_encode]
  refine ⟨hread, fun i hi => ?_⟩
  have hlen : (nci.dataInfo.toList.take nci.infoSize).length = nci.infoSize := by
    have hle := infoSize_le nci.toNciHead
    rw [List.length_take, Vector.length_toList]
    omega
  simp only [treeSerializeNciIn, htake, hdrop, nciHead.decode_encode, getElem_fin,
    Vector.getElem_ofFn]
  rw [if_pos hi, List.getD_append _ _ _ _ (by omega), List.getD_eq_getElem _ _ (by omega),
    List.getElem_take, Vector.getElem_toList]

theorem Same.eq {a b : Nci} (h : Same a b) (hsize : b.infoSize = 12) : a = b := by
  obtain ⟨ha, da⟩ := a
  obtain ⟨hb, db⟩ := b
  obtain rfl : ha = hb := h.head
  congr 1
  apply Vector.ext
  intro i hi
  exact h.info ⟨i, hi⟩ (by rw [hsize]; exact hi)

end MdsPlus.Characteristics
