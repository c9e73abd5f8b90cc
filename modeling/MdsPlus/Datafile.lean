import MdsPlus.ByteFile

/-!
The datafile of a tree: properties are blocks of bytes at file offsets, an offset of
minus one asks for the end of the file. The extended attributes of a node say where
its facilities are; the node itself keeps their place as a record file address.
-/

namespace MdsPlus.Datafile

open BitMemory Codec ByteFile

abbrev Offset := BitVec 64

def readProperty (f : File) (offset : Offset) (length : ℕ) : Option (List Byte) :=
  f.read offset.toNat length

def readPropertySafe (f : File) (offset : Offset) (length : ℕ) : Option (List Byte) :=
  if offset.toInt > -1 then readProperty f offset length else none

def writeProperty (f : File) (offset : Offset) (bytes : List Byte) : File × Offset :=
  if offset = -1 then (f.write f.size bytes, BitVec.ofNat 64 f.size)
  else (f.write offset.toNat bytes, offset)

def getRecord {α : Type} (c : Format α) (f : File) (offset : Offset) : Option α :=
  (readPropertySafe f offset c.size).map c.decode

def putRecord {α : Type} (c : Format α) (f : File) (offset : Offset) (a : α) : File × Offset :=
  writeProperty f offset (c.encode a)

theorem toInt_ofNat {off : ℕ} (h : off < 2 ^ 63) : (BitVec.ofNat 64 off).toInt = off := by
  rw [BitVec.toInt_eq_toNat_of_lt]
  · rw [BitVec.toNat_ofNat, Nat.mod_eq_of_lt (by omega)]
  · rw [BitVec.toNat_ofNat]
    omega

theorem ofNat_ne_neg_one {off : ℕ} (h : off < 2 ^ 63) : BitVec.ofNat 64 off ≠ -1 := by
  intro heq
  have hval := congrArg BitVec.toInt heq
  rw [toInt_ofNat h] at hval
  have hneg : (-1 : BitVec 64).toInt = -1 := by decide
  omega

theorem ofNat_inj {a b : ℕ} (ha : a < 2 ^ 63) (hb : b < 2 ^ 63)
    (h : BitVec.ofNat 64 a = BitVec.ofNat 64 b) : a = b := by
  have hval := congrArg BitVec.toInt h
  rw [toInt_ofNat ha, toInt_ofNat hb] at hval
  omega

theorem readPropertySafe_eq {f : File} {off : ℕ} {bytes : List Byte} (h : Holds f off bytes)
    (hoff : off < 2 ^ 63) :
    readPropertySafe f (BitVec.ofNat 64 off) bytes.length = some bytes := by
  rw [readPropertySafe, if_pos (by rw [toInt_ofNat hoff]; omega), readProperty,
    BitVec.toNat_ofNat, Nat.mod_eq_of_lt (by omega), h.read_eq]

theorem readPropertySafe_none (f : File) (n : ℕ) : readPropertySafe f (-1) n = none := by
  have hneg : (-1 : BitVec 64).toInt = -1 := by decide
  rw [readPropertySafe, if_neg (by omega)]

theorem writeProperty_append (f : File) (bytes : List Byte) :
    writeProperty f (-1) bytes = (f.write f.size bytes, BitVec.ofNat 64 f.size) := if_pos rfl

theorem writeProperty_at (f : File) {off : ℕ} (h : off < 2 ^ 63) (bytes : List Byte) :
    writeProperty f (BitVec.ofNat 64 off) bytes =
      (f.write off bytes, BitVec.ofNat 64 off) := by
  rw [writeProperty, if_neg (ofNat_ne_neg_one h), BitVec.toNat_ofNat,
    Nat.mod_eq_of_lt (by omega)]

theorem getRecord_eq {α : Type} (c : Format α) {f : File} {off : ℕ} {a : α}
    (h : Holds f off (c.encode a)) (hoff : off < 2 ^ 63) :
    getRecord c f (BitVec.ofNat 64 off) = some a := by
  have hread := readPropertySafe_eq h hoff
  rw [c.length_encode] at hread
  rw [getRecord, hread, Option.map_some, c.decode_encode]

theorem getRecord_none {α : Type} (c : Format α) (f : File) : getRecord c f (-1) = none := by
  rw [getRecord, readPropertySafe_none]
  rfl

def Place {κ : Type} (cells : κ → Option Cell) (k : κ) (len : ℕ) (offset : Offset) : Prop :=
  offset = -1 ∨
    ∃ off old, offset = BitVec.ofNat 64 off ∧ cells k = some ⟨off, old⟩ ∧ old.length = len

theorem Place.update {κ : Type} [DecidableEq κ] {cells : κ → Option Cell} {k j : κ} {len : ℕ}
    {offset : Offset} (h : Place cells k len offset) (hkj : k ≠ j) (c : Option Cell) :
    Place (Function.update cells j c) k len offset := by
  rcases h with hnew | ⟨off, old, hoff, hcell, hlen⟩
  · exact Or.inl hnew
  · exact Or.inr ⟨off, old, hoff, (Function.update_of_ne hkj _ _).trans hcell, hlen⟩

theorem writeProperty_place {κ : Type} [DecidableEq κ] {f : File} {cells : κ → Option Cell}
    (h : Stores f cells) (hsize : f.size < 2 ^ 63) {k : κ} {offset : Offset} (bytes : List Byte)
    (hplace : Place cells k bytes.length offset) :
    ∃ off, writeProperty f offset bytes = (f.write off bytes, BitVec.ofNat 64 off) ∧
      Stores (f.write off bytes) (Function.update cells k (some ⟨off, bytes⟩)) ∧
      (f.write off bytes).size ≤ f.size + bytes.length ∧
      off + bytes.length ≤ (f.write off bytes).size ∧
      (offset = -1 ∧ off = f.size ∨
        offset = BitVec.ofNat 64 off ∧ (f.write off bytes).size = f.size) := by
  rcases hplace with rfl | ⟨off, old, rfl, hcell, hlen⟩
  · refine ⟨f.size, writeProperty_append f bytes, h.append k bytes, ?_, ?_, Or.inl ⟨rfl, rfl⟩⟩
    · simp only [File.write]
      omega
    · exact Nat.le_max_right _ _
  · have hin := (h.holds _ _ hcell).inside
    simp only [hlen] at hin
    have hsame : (f.write off bytes).size = f.size := by
      simp only [File.write]
      omega
    refine ⟨off, writeProperty_at f (by omega) bytes, h.replace hcell bytes hlen.symm, by omega,
      Nat.le_max_right _ _, Or.inr ⟨rfl, hsame⟩⟩

/-- Descriptors as the datafile stores them: what is written under a compression
method reads back. -/
structure Serializer (V : Type) where
  serializeOut : ℤ → V → List Byte
  serializeIn : List Byte → Option V
  in_out : ∀ compress v, serializeIn (serializeOut compress v) = some v
  out_pos : ∀ compress v, 0 < (serializeOut compress v).length

def putDsc {V : Type} (S : Serializer V) (f : File) (compress : ℤ) (v : V) :
    File × Offset × BitVec 32 :=
  let bytes := S.serializeOut compress v
  let (f, offset) := writeProperty f (-1) bytes
  (f, offset, BitVec.ofNat 32 bytes.length)

abbrev FACILITIES_PER_EA : ℕ := 8

def STANDARD_RECORD_FACILITY : Fin FACILITIES_PER_EA := 0
def SEGMENTED_RECORD_FACILITY : Fin FACILITIES_PER_EA := 1
def NAMED_ATTRIBUTES_FACILITY : Fin FACILITIES_PER_EA := 2

theorem standard_lt : STANDARD_RECORD_FACILITY.val < FACILITIES_PER_EA :=
  STANDARD_RECORD_FACILITY.isLt

theorem segmented_lt : SEGMENTED_RECORD_FACILITY.val < FACILITIES_PER_EA :=
  SEGMENTED_RECORD_FACILITY.isLt

theorem named_lt : NAMED_ATTRIBUTES_FACILITY.val < FACILITIES_PER_EA :=
  NAMED_ATTRIBUTES_FACILITY.isLt

structure ExtendedAttributes where
  nextEaOffset : Offset
  facilityOffset : Vector Offset FACILITIES_PER_EA
  facilityLength : Vector (BitVec 32) FACILITIES_PER_EA

/-- All bits set, as for a node without extended attributes. -/
def ExtendedAttributes.none : ExtendedAttributes where
  nextEaOffset := -1
  facilityOffset := Vector.replicate _ (-1)
  facilityLength := Vector.replicate _ (-1)

def extendedAttributes : Format ExtendedAttributes :=
  view (pair int64 (pair (table int64 FACILITIES_PER_EA) (table int32 FACILITIES_PER_EA)))
    { toFun := fun a => (a.nextEaOffset, a.facilityOffset, a.facilityLength)
      invFun := fun p => ⟨p.1, p.2.1, p.2.2⟩
      left_inv := fun _ => rfl
      right_inv := fun _ => rfl }

/-- A record file address: block number and byte in the block. -/
abbrev Rfa := Vector Byte 6

def rfaToSeek (rfa : Rfa) : Offset :=
  (((rfa[0].setWidth 64) <<< 9) ||| ((rfa[1].setWidth 64) <<< 17) |||
    ((rfa[2].setWidth 64) <<< 25) ||| ((rfa[3].setWidth 64) <<< 33) |||
    (rfa[4].setWidth 64) ||| (((rfa[5] &&& 1).setWidth 64) <<< 8)) - 512

def seekToRfa (seek : Offset) : Rfa :=
  let tmp := seek + 512
  #v[tmp.extractLsb' 9 8, tmp.extractLsb' 17 8, tmp.extractLsb' 25 8, tmp.extractLsb' 33 8,
    tmp.extractLsb' 0 8, (tmp.extractLsb' 8 8) &&& 1]

/-- Addresses a record file address can hold. -/
def rfaLimit : ℕ := 2 ^ 41 - 512

theorem rfa_join (v : BitVec 64) (h : v.toNat < 2 ^ 41) :
    ((v.extractLsb' 9 8).setWidth 64) <<< 9 ||| ((v.extractLsb' 17 8).setWidth 64) <<< 17 |||
      ((v.extractLsb' 25 8).setWidth 64) <<< 25 ||| ((v.extractLsb' 33 8).setWidth 64) <<< 33 |||
      (v.extractLsb' 0 8).setWidth 64 |||
      (((v.extractLsb' 8 8 &&& 1) &&& 1).setWidth 64) <<< 8 = v := by
  have hhigh : ∀ j, 41 ≤ j → v.getLsbD j = false := by
    intro j hj
    apply Nat.testBit_lt_two_pow
    exact Nat.lt_of_lt_of_le h (Nat.pow_le_pow_right (by omega) hj)
  have hone : ∀ i, (1 : Byte).getLsbD i = decide (i = 0) := by
    intro i
    by_cases hi : i < 8
    · have hall : ∀ i : Fin 8, (1 : Byte).getLsbD i = decide ((i : ℕ) = 0) := by decide
      exact hall ⟨i, hi⟩
    · rw [BitVec.getLsbD_of_ge _ _ (by omega)]
      simp
      omega
  apply BitVec.eq_of_getLsbD_eq
  intro j hj
  simp only [BitVec.getLsbD_or, BitVec.getLsbD_shiftLeft, BitVec.getLsbD_setWidth,
    BitVec.getLsbD_extractLsb', BitVec.getLsbD_and, hone]
  have hrange : j < 8 ∨ j = 8 ∨ 9 ≤ j ∧ j < 17 ∨ 17 ≤ j ∧ j < 25 ∨ 25 ≤ j ∧ j < 33 ∨
      33 ≤ j ∧ j < 41 ∨ 41 ≤ j := by omega
  rcases hrange with h0 | rfl | ⟨h1, h2⟩ | ⟨h1, h2⟩ | ⟨h1, h2⟩ | ⟨h1, h2⟩ | h1
  · grind
  · simp
  · grind
  · grind
  · grind
  · grind
  · grind

theorem rfaToSeek_seekToRfa (off : ℕ) (h : off < rfaLimit) :
    rfaToSeek (seekToRfa (BitVec.ofNat 64 off)) = BitVec.ofNat 64 off := by
  have hlt : (BitVec.ofNat 64 off + 512).toNat < 2 ^ 41 := by
    have h512 : (512 : BitVec 64).toNat = 512 := rfl
    simp only [rfaLimit] at h
    rw [BitVec.toNat_add, BitVec.toNat_ofNat, h512]
    omega
  have hjoin := rfa_join _ hlt
  simp only [rfaToSeek, seekToRfa, Vector.getElem_mk, List.getElem_toArray,
    List.getElem_cons_zero, List.getElem_cons_succ]
  rw [hjoin, BitVec.add_sub_cancel]

end MdsPlus.Datafile

namespace MdsPlus.Characteristics

open BitMemory Codec Datafile

/-- A location, data, or an error, in one place. -/
abbrev DataInfo := Vector Byte 12

def DataInfo.rfa (d : DataInfo) : Rfa := #v[d[2], d[3], d[4], d[5], d[6], d[7]]

def DataInfo.recordLength (d : DataInfo) : BitVec 32 := int32.decode [d[8], d[9], d[10], d[11]]

def DataInfo.putRfa (d : DataInfo) (rfa : Rfa) : DataInfo :=
  #v[d[0], d[1], rfa[0], rfa[1], rfa[2], rfa[3], rfa[4], rfa[5], d[8], d[9], d[10], d[11]]

def DataInfo.putRecordLength (d : DataInfo) (recordLength : BitVec 32) : DataInfo :=
  let bytes := int32.encode recordLength
  #v[d[0], d[1], d[2], d[3], d[4], d[5], d[6], d[7], bytes.getD 0 0, bytes.getD 1 0,
    bytes.getD 2 0, bytes.getD 3 0]

/-- An error stands in the place of the file level, the version and part of the address. -/
def DataInfo.putErrorStatus (d : DataInfo) (status : BitVec 32) : DataInfo :=
  let bytes := int32.encode status
  #v[bytes.getD 0 0, bytes.getD 1 0, bytes.getD 2 0, bytes.getD 3 0, d[4], d[5], d[6], d[7], d[8],
    d[9], d[10], d[11]]

end MdsPlus.Characteristics
