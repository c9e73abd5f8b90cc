import MdsPlus.BlockLayout
import MdsPlus.DescriptorRecords

/-!
The sizes of a serialized descriptor. Counting, writing and decoding go by the same bytes for all
descriptors but some whose header, length or number of pointers is counted in one pass other than
in another.
-/

namespace MdsPlus.RecordSizes

open BitMemory DescriptorTrees SerializedRecords DescriptorRecords BlockLayout

/-! ### Reading a header -/

theorem holdsBytes_cons (mem : Memory) (pos : ℕ) (b : Byte) (bytes : List Byte) :
    HoldsBytes mem pos (b :: bytes) ↔ mem pos = b ∧ HoldsBytes mem (pos + 1) bytes := by
  rw [← List.singleton_append, holdsBytes_append]
  refine and_congr_left' ⟨fun h => h 0 Nat.zero_lt_one, fun h i hi => ?_⟩
  obtain rfl : i = 0 := by
    rw [List.length_singleton] at hi
    omega
  exact h

theorem short_eq (v : BitVec 16) : v.extractLsb' 8 8 ++ v.extractLsb' 0 8 = v := by
  apply BitVec.eq_of_getLsbD_eq
  intro i hi
  simp only [BitVec.getLsbD_append, BitVec.getLsbD_extractLsb']
  by_cases hlow : i < 8
  · simp [hlow]
  · have hhigh : i - 8 < 8 := by omega
    have hsum : 8 + (i - 8) = i := by omega
    simp [hlow, hhigh, hsum]

theorem readWord_bit (mem : Memory) (pos k j : ℕ) (hk : k < 4) (hj : j < 8) :
    (readWord mem pos).getLsbD (8 * k + j) = (mem (pos + k)).getLsbD j := by
  have hdiv : (8 * pos + (8 * k + j)) / 8 = pos + k := by omega
  have hmod : (8 * pos + (8 * k + j)) % 8 = j := by omega
  rw [readWord_getLsbD _ _ _ (by omega), bit, hdiv, hmod]

theorem readWord_of_holds {mem : Memory} {pos : ℕ} {v : Word} {bytes : List Byte}
    (h : HoldsBytes mem pos (wordBytes v ++ bytes)) :
    readWord mem pos = v ∧ HoldsBytes mem (pos + 4) bytes := by
  simp only [wordBytes, List.cons_append, List.nil_append, holdsBytes_cons, Nat.add_assoc,
    Nat.reduceAdd] at h
  obtain ⟨h0, h1, h2, h3, hrest⟩ := h
  refine ⟨word_ext fun i hi => ?_, hrest⟩
  have hsplit : i = 8 * (i / 8) + i % 8 := (Nat.div_add_mod i 8).symm
  have hmod : i % 8 < 8 := Nat.mod_lt i (by omega)
  rw [hsplit, readWord_bit mem pos (i / 8) (i % 8) (by omega) hmod]
  have hcases : i / 8 = 0 ∨ i / 8 = 1 ∨ i / 8 = 2 ∨ i / 8 = 3 := by omega
  rcases hcases with hk | hk | hk | hk
  · rw [hk, Nat.add_zero, h0]
    simp [hmod]
  · rw [hk, h1]
    simp [hmod]
  · rw [hk, h2]
    simp [hmod]
  · rw [hk, h3]
    simp [hmod]

structure Head (mem : Memory) (pos : ℕ) (length : BitVec 16) (dtype cls : Byte) : Prop where
  length : mem (pos + 1) ++ mem pos = length
  dtype : mem (pos + 2) = dtype
  cls : mem (pos + 3) = cls

theorem head_of_holds {mem : Memory} {pos : ℕ} {length : BitVec 16} {dtype cls : Byte}
    {bytes : List Byte} (h : HoldsBytes mem pos (shortBytes length ++ [dtype, cls] ++ bytes)) :
    Head mem pos length dtype cls ∧ HoldsBytes mem (pos + 4) bytes := by
  simp only [shortBytes, List.cons_append, List.nil_append, holdsBytes_cons, Nat.add_assoc,
    Nat.reduceAdd] at h
  obtain ⟨h0, h1, h2, h3, hrest⟩ := h
  refine ⟨⟨?_, h2, h3⟩, hrest⟩
  rw [h0, h1]
  exact short_eq length

theorem Head.readWord_ne {mem : Memory} {pos : ℕ} {length : BitVec 16} {dtype cls : Byte}
    (h : Head mem pos length dtype cls) (hcls : cls ≠ 0) : readWord mem pos ≠ 0 := by
  intro hzero
  refine hcls (BitVec.eq_of_getLsbD_eq fun j hj => ?_)
  rw [← h.cls, ← readWord_bit mem pos 3 j (by omega) hj, hzero]
  simp

/-! ### What decoding finds -/

def shapeOutSize (dims : Dims) : ℕ :=
  (if hasCoeff dims then 8 + 4 * dimct dims else 0) +
    if hasBounds dims then 4 * dimct dims * 2 else 0

/-- A header of this class: which nested descriptors it has, and what it takes before them. -/
structure Front (mem : Memory) (pos : ℕ) (cls : SerializedRecords.Class) (flags : List Bool)
    (inp out : Word) : Prop where
  word : readWord mem pos ≠ 0
  cls : classOf mem pos = cls
  flags : nested mem pos = flags
  inp : bytesIn mem pos = inp
  out : bytesOut mem pos = out

theorem Head.classOf_eq {mem : Memory} {pos : ℕ} {length : BitVec 16} {dtype cls : Byte}
    (h : Head mem pos length dtype cls) : classOf mem pos = readClass cls := by
  unfold classOf
  rw [h.cls]

theorem Head.length_eq {mem : Memory} {pos : ℕ} {length : BitVec 16} {dtype cls : Byte}
    (h : Head mem pos length dtype cls) :
    SerializedRecords.length mem pos = fixLength dtype length := by
  unfold SerializedRecords.length SerializedRecords.dtype
  rw [h.length, h.dtype]

theorem alignPtr_ofNat (n : ℕ) : alignPtr (BitVec.ofNat 32 n) = BitVec.ofNat 32 (roundUp n 8) := by
  apply BitVec.eq_of_toNat_eq
  unfold alignPtr roundUp
  rw [BitVec.toNat_ofNat, BitVec.toNat_ofNat, BitVec.toNat_ofNat]
  omega

theorem lit_add_length (n : ℕ) (length : BitVec 16) :
    BitVec.ofNat 32 n + length.setWidth 32 = BitVec.ofNat 32 (n + length.toNat) := by
  rw [BitVec.ofNat_add, BitVec.ofNat_toNat]

theorem front_s {mem : Memory} {pos : ℕ} {dynamic : Bool} {dtype : Byte} {data : List Byte}
    (h : HoldsBytes mem pos (sBytes dynamic dtype data)) :
    Front mem pos .s []
        (BitVec.ofNat 32 (8 + (fixLength dtype (BitVec.ofNat 16 data.length)).toNat))
        (BitVec.ofNat 32
          (roundUp (16 + (fixLength dtype (BitVec.ofNat 16 data.length)).toNat) 8)) ∧
      SerializedRecords.length mem pos = fixLength dtype (BitVec.ofNat 16 data.length) := by
  rw [sBytes, List.append_assoc] at h
  obtain ⟨hhead, -⟩ := head_of_holds h
  have hcls : classOf mem pos = .s := by
    rw [hhead.classOf_eq]
    cases dynamic <;> rfl
  have hne : classS dynamic ≠ 0 := by cases dynamic <;> decide
  refine ⟨⟨hhead.readWord_ne hne, hcls, ?_, ?_, ?_⟩, hhead.length_eq⟩
  · rw [nested, hcls]
  · rw [bytesIn, hcls, hhead.length_eq]
    exact lit_add_length 8 _
  · rw [bytesOut, hcls, hhead.length_eq, ← alignPtr_ofNat]
    exact congrArg alignPtr (lit_add_length 16 _)

theorem front_xs {mem : Memory} {pos : ℕ} {dynamic : Bool} {length : BitVec 16} {dtype : Byte}
    {data : List Byte} (h : HoldsBytes mem pos (xsBytes dynamic length dtype data)) :
    Front mem pos .xs [] (BitVec.ofNat 32 (12 + data.length))
        (BitVec.ofNat 32 (roundUp (24 + data.length) 8)) ∧
      lLength mem pos = BitVec.ofNat 32 data.length := by
  rw [xsBytes, List.append_assoc, List.append_assoc] at h
  obtain ⟨hhead, hrest⟩ := head_of_holds h
  have hlength := (readWord_of_holds (readWord_of_holds hrest).2).1
  have hcls : classOf mem pos = .xs := by
    rw [hhead.classOf_eq]
    cases dynamic <;> rfl
  have hne : classXs dynamic ≠ 0 := by cases dynamic <;> decide
  have hl : lLength mem pos = BitVec.ofNat 32 data.length := hlength
  refine ⟨⟨hhead.readWord_ne hne, hcls, ?_, ?_, ?_⟩, hl⟩
  · rw [nested, hcls]
  · rw [bytesIn, hcls, hl]
    exact (BitVec.ofNat_add 12 data.length).symm
  · rw [bytesOut, hcls, hl, ← alignPtr_ofNat]
    exact congrArg alignPtr (BitVec.ofNat_add 24 data.length).symm

theorem readWord_wordsBytes {mem : Memory} {pos : ℕ} {ws : List Word} {bytes : List Byte}
    (h : HoldsBytes mem pos (wordsBytes ws ++ bytes)) :
    ∀ j (hj : j < ws.length), readWord mem (pos + 4 * j) = ws[j] := by
  induction ws generalizing pos with
  | nil => exact fun j hj => absurd hj (Nat.not_lt_zero j)
  | cons w ws ih =>
    rw [wordsBytes, List.flatMap_cons, List.append_assoc] at h
    obtain ⟨hword, hrest⟩ := readWord_of_holds h
    intro j hj
    cases j with
    | zero => exact hword
    | succ j =>
      have hplace : pos + 4 * (j + 1) = pos + 4 + 4 * j := by omega
      rw [hplace]
      exact ih hrest j (Nat.lt_of_succ_lt_succ hj)

theorem fixLength_record (dtype : RecordType) (length : BitVec 16) :
    fixLength dtype length = length := by
  unfold fixLength
  split
  · next hzero => rw [hzero, dtype.property]
  · rfl

theorem front_r {mem : Memory} {pos : ℕ} {dtype : RecordType} {data : List Byte}
    {table : List Word} (htable : table.length < 2 ^ 8) (hdata : data.length < 2 ^ 16)
    (h : HoldsBytes mem pos (rBytes dtype data table)) :
    Front mem pos .r (table.map fun w => decide (w ≠ 0))
        (BitVec.ofNat 32 (12 + 4 * table.length + data.length))
        (BitVec.ofNat 32 (roundUp (24 + table.length * 8 + data.length) 8)) ∧
      ndesc mem pos = table.length ∧
      SerializedRecords.length mem pos = BitVec.ofNat 16 data.length := by
  rw [rBytes, List.append_assoc, List.append_assoc, List.append_assoc] at h
  obtain ⟨hhead, hrest⟩ := head_of_holds h
  obtain ⟨-, hrest⟩ := readWord_of_holds hrest
  simp only [List.cons_append, List.nil_append, holdsBytes_cons, Nat.add_assoc,
    Nat.reduceAdd] at hrest
  obtain ⟨hndesc, -, -, -, hwords⟩ := hrest
  have hcls : classOf mem pos = .r := hhead.classOf_eq
  have hn : ndesc mem pos = table.length := by
    unfold ndesc
    rw [hndesc, BitVec.toNat_ofNat, Nat.mod_eq_of_lt htable]
  have hl : SerializedRecords.length mem pos = BitVec.ofNat 16 data.length := by
    rw [hhead.length_eq, fixLength_record]
  have hlength : (BitVec.ofNat 16 data.length).toNat = data.length := Nat.mod_eq_of_lt hdata
  refine ⟨⟨hhead.readWord_ne (by decide), hcls, ?_, ?_, ?_⟩, hn, hl⟩
  · rw [nested, hcls]
    dsimp only
    rw [hn]
    apply List.ext_getElem
    · rw [List.length_map, List.length_map, List.length_range]
    · intro j hj hj'
      rw [List.length_map] at hj'
      rw [List.getElem_map, List.getElem_map, List.getElem_range]
      have hword := readWord_wordsBytes hwords j hj'
      unfold dscptrs
      rw [hword]
  · rw [bytesIn, hcls]
    dsimp only
    rw [hn, hl, lit_add_length, hlength, Nat.mul_comm table.length]
  · rw [bytesOut, hcls]
    dsimp only
    rw [hn, hl, lit_add_length, hlength, alignPtr_ofNat]

/-! ### Headers of arrays -/

structure ArrayFields (mem : Memory) (pos : ℕ) (cls dtype : Byte) (length : BitVec 16)
    (h : ArrayHead) (offset arsize : Word) : Prop where
  head : Head mem pos length dtype cls
  offset : SerializedRecords.offset mem pos = offset
  coeff : coeff mem pos = hasCoeff h.dims
  bounds : bounds mem pos = hasBounds h.dims
  dimct : SerializedRecords.dimct mem pos = dimct h.dims
  arsize : SerializedRecords.arsize mem pos = arsize

theorem flagsByte_bits (h : ArrayHead) :
    (flagsByte h).getLsbD 6 = hasCoeff h.dims ∧ (flagsByte h).getLsbD 7 = hasBounds h.dims := by
  have hbits : ∀ binscale redim column coeff bounds : Bool,
      let flags := BitVec.ofNat 8 (8 * binscale.toNat + 16 * redim.toNat + 32 * column.toNat +
        64 * coeff.toNat + 128 * bounds.toNat)
      flags.getLsbD 6 = coeff ∧ flags.getLsbD 7 = bounds := by decide
  exact hbits h.binscale h.redim h.column (hasCoeff h.dims) (hasBounds h.dims)

theorem fields_of_holds {mem : Memory} {pos : ℕ} {cls dtype : Byte} {length : BitVec 16}
    {h : ArrayHead} {offset arsize : Word} {bytes : List Byte} (hdimct : dimct h.dims < 2 ^ 8)
    (hmem : HoldsBytes mem pos (arrayBytes cls dtype length h offset arsize ++ bytes)) :
    ArrayFields mem pos cls dtype length h offset arsize := by
  rw [arrayBytes, List.append_assoc, List.append_assoc, List.append_assoc, List.append_assoc]
    at hmem
  obtain ⟨hhead, hrest⟩ := head_of_holds hmem
  obtain ⟨hoffset, hrest⟩ := readWord_of_holds hrest
  simp only [List.cons_append, List.nil_append, holdsBytes_cons, Nat.add_assoc,
    Nat.reduceAdd] at hrest
  obtain ⟨-, -, hflags, hdim, hrest⟩ := hrest
  have harsize := (readWord_of_holds hrest).1
  obtain ⟨hcoeff, hbounds⟩ := flagsByte_bits h
  refine ⟨hhead, hoffset, ?_, ?_, ?_, harsize⟩
  · unfold coeff
    rw [hflags, hcoeff]
  · unfold bounds
    rw [hflags, hbounds]
  · unfold SerializedRecords.dimct
    rw [hdim, BitVec.toNat_ofNat, Nat.mod_eq_of_lt hdimct]

section Arrays

variable {mem : Memory} {pos : ℕ} {cls dtype : Byte} {length : BitVec 16} {h : ArrayHead}
  {offset arsize : Word}

theorem ArrayFields.shapeIn (hf : ArrayFields mem pos cls dtype length h offset arsize) :
    shapeIn mem pos = shapeSize h.dims := by
  unfold SerializedRecords.shapeIn shapeSize
  rw [hf.coeff, hf.bounds, hf.dimct]

theorem ArrayFields.shapeOut (hf : ArrayFields mem pos cls dtype length h offset arsize) :
    shapeOut mem pos = shapeOutSize h.dims := by
  unfold SerializedRecords.shapeOut shapeOutSize
  rw [hf.coeff, hf.bounds, hf.dimct]

end Arrays

/-- What aligning the data of an array may take. -/
def alignRoom (dtype : Byte) (length : BitVec 16) : Word :=
  if dtype = dtypeT then 1 else (fixLength dtype length).setWidth 32

theorem front_a {mem : Memory} {pos : ℕ} {dtype : Byte} {h : ArrayHead} {data : List Byte}
    (hdimct : dimct h.dims < 2 ^ 8) (hmem : HoldsBytes mem pos (aBytes dtype h data)) :
    Front mem pos .a [] (BitVec.ofNat 32 (16 + shapeSize h.dims + data.length))
        (BitVec.ofNat 32 (24 + shapeOutSize h.dims + data.length +
          (alignRoom dtype h.length).toNat + data.length)) ∧
      alignSize mem pos = alignRoom dtype h.length ∧ shapeOut mem pos = shapeOutSize h.dims ∧
      SerializedRecords.arsize mem pos = BitVec.ofNat 32 data.length := by
  rw [aBytes, List.append_assoc] at hmem
  have hf := fields_of_holds hdimct hmem
  have hcls : classOf mem pos = .a := hf.head.classOf_eq
  have halign : alignSize mem pos = alignRoom dtype h.length := by
    unfold alignSize alignRoom
    rw [hf.head.length_eq]
    unfold SerializedRecords.dtype
    rw [hf.head.dtype]
  refine ⟨⟨hf.head.readWord_ne (by decide), hcls, ?_, ?_, ?_⟩, halign, hf.shapeOut, hf.arsize⟩
  · rw [nested, hcls]
  · rw [bytesIn, hcls]
    dsimp only
    rw [hf.shapeIn, hf.arsize, ← BitVec.ofNat_add]
  · rw [bytesOut, hcls]
    dsimp only
    have hroom : alignRoom dtype h.length = BitVec.ofNat 32 (alignRoom dtype h.length).toNat := by
      rw [BitVec.ofNat_toNat, BitVec.setWidth_eq]
    rw [hf.shapeOut, halign, hf.arsize, hroom, ← BitVec.ofNat_add, ← BitVec.ofNat_add,
      ← BitVec.ofNat_add, ← hroom]

theorem pointersSize_eq {num : ℕ} (hnum : 8 * num < 2 ^ 32) :
    BitVec.ofNat 32 (4 * num) / (4 : BitVec 16).setWidth 32 * 8 = BitVec.ofNat 32 (8 * num) := by
  have hfour : ((4 : BitVec 16).setWidth 32).toNat = 4 := rfl
  have height : (8 : Word).toNat = 8 := rfl
  have hsmall : 4 * num < 2 ^ 32 := by omega
  apply BitVec.eq_of_toNat_eq
  rw [BitVec.toNat_mul, BitVec.toNat_udiv, hfour, height, BitVec.toNat_ofNat, BitVec.toNat_ofNat,
    Nat.mod_eq_of_lt hsmall, Nat.mul_div_cancel_left num (by omega), Nat.mul_comm]

theorem front_apd {mem : Memory} {pos : ℕ} {dtype : Byte} {h : ArrayHead} {table : List Word}
    (hdimct : dimct h.dims < 2 ^ 8) (htable : 8 * table.length < 2 ^ 32)
    (hmem : HoldsBytes mem pos (apdBytes dtype h table)) :
    Front mem pos .apd (List.replicate table.length true)
        (BitVec.ofNat 32 (16 + shapeSize h.dims + 4 * table.length))
        (BitVec.ofNat 32 (24 + shapeOutSize h.dims + 8 * table.length)) ∧
      SerializedRecords.length mem pos = 4 ∧ numDsc mem pos = table.length ∧
      shapeOut mem pos = shapeOutSize h.dims := by
  rw [apdBytes, List.append_assoc] at hmem
  have hf := fields_of_holds hdimct hmem
  have hcls : classOf mem pos = .apd := hf.head.classOf_eq
  have hlength : SerializedRecords.length mem pos = 4 := hf.head.length_eq
  have hsize : pointersSize mem pos = BitVec.ofNat 32 (8 * table.length) := by
    unfold pointersSize
    rw [hlength, hf.arsize]
    exact pointersSize_eq htable
  have hnum : numDsc mem pos = table.length := by
    unfold numDsc
    rw [hsize, BitVec.toNat_ofNat, Nat.mod_eq_of_lt htable,
      Nat.mul_div_cancel_left _ (by omega)]
  refine ⟨⟨hf.head.readWord_ne (by decide), hcls, ?_, ?_, ?_⟩, hlength, hnum, hf.shapeOut⟩
  · rw [nested, hcls]
    dsimp only
    rw [hnum]
  · rw [bytesIn, hcls]
    dsimp only
    rw [hf.shapeIn, hnum, ← BitVec.ofNat_add, Nat.mul_comm table.length]
  · rw [bytesOut, hcls]
    dsimp only
    rw [hf.shapeOut, hsize, ← BitVec.ofNat_add]

theorem shapeOutSize_le {dims : Dims} (h : DescriptorRecords.dimct dims < 2 ^ 8) :
    shapeOutSize dims ≤ 3068 := by
  unfold shapeOutSize
  split <;> split <;> omega

theorem shapeSize_le {dims : Dims} (h : dimct dims < 2 ^ 8) : shapeSize dims ≤ 3064 := by
  unfold shapeSize
  split <;> split <;> omega

theorem dscsize_ne {h : ArrayHead} (hdimct : dimct h.dims < 2 ^ 8) : dscsize h ≠ 0 := by
  intro hzero
  have hle := shapeSize_le hdimct
  have hval := congrArg BitVec.toNat hzero
  rw [dscsize, BitVec.toNat_ofNat, Nat.mod_eq_of_lt (by omega)] at hval
  simp at hval

theorem front_ca {mem : Memory} {pos : ℕ} {dtype : Byte} {h : ArrayHead} {arsize : Word}
    {isNull : Bool} (hdimct : dimct h.dims < 2 ^ 8)
    (hmem : HoldsBytes mem pos (caBytes dtype h arsize isNull)) :
    Front mem pos .ca [!isNull] (BitVec.ofNat 32 (16 + shapeSize h.dims))
        (BitVec.ofNat 32 (roundUp (24 + shapeOutSize h.dims) 8)) ∧
      shapeOut mem pos = shapeOutSize h.dims := by
  rw [caBytes] at hmem
  have hf := fields_of_holds hdimct hmem
  have hcls : classOf mem pos = .ca := hf.head.classOf_eq
  refine ⟨⟨hf.head.readWord_ne (by decide), hcls, ?_, ?_, ?_⟩, hf.shapeOut⟩
  · rw [nested, hcls]
    dsimp only
    rw [hf.offset]
    cases isNull with
    | true => rfl
    | false => exact congrArg (fun flag => [flag]) (decide_eq_true (dscsize_ne hdimct))
  · rw [bytesIn, hcls]
    dsimp only
    rw [hf.shapeIn]
  · rw [bytesOut, hcls]
    dsimp only
    rw [hf.shapeOut, alignPtr_ofNat]

/-! ### How long the headers are -/

@[simp] theorem shortBytes_length (v : BitVec 16) : (shortBytes v).length = 2 := rfl

@[simp] theorem wordBytes_length (v : Word) : (wordBytes v).length = 4 := rfl

@[simp] theorem wordsBytes_length (vs : List Word) : (wordsBytes vs).length = 4 * vs.length := by
  induction vs with
  | nil => rfl
  | cons v vs ih =>
    rw [wordsBytes, List.flatMap_cons, List.length_append, wordBytes_length, List.length_cons,
      ← wordsBytes, ih]
    omega

@[simp] theorem arrayBytes_length (cls dtype : Byte) (length : BitVec 16) (h : ArrayHead)
    (dscsize arsize : Word) : (arrayBytes cls dtype length h dscsize arsize).length = 16 := rfl

@[simp] theorem shapeBytes_length (base : Word) (dims : Dims) :
    (shapeBytes base dims).length = shapeSize dims := by
  cases dims with
  | plain dimct => rfl
  | coeff a0 m => simp [shapeBytes, shapeSize, hasCoeff, hasBounds, DescriptorRecords.dimct]
  | bounds a0 m =>
    have hpairs : (m.flatMap fun b => [b.2.1, b.2.2]).length = 2 * m.length := by
      rw [List.length_flatMap]
      simp [Nat.mul_comm]
    simp [shapeBytes, shapeSize, hasCoeff, hasBounds, DescriptorRecords.dimct, hpairs]
    omega

theorem sBytes_length (dynamic : Bool) (dtype : Byte) (data : List Byte) :
    (sBytes dynamic dtype data).length = 8 + data.length := by
  simp [sBytes]
  omega

theorem xsBytes_length (dynamic : Bool) (length : BitVec 16) (dtype : Byte) (data : List Byte) :
    (xsBytes dynamic length dtype data).length = 12 + data.length := by
  simp [xsBytes]
  omega

theorem rBytes_length (dtype : Byte) (data : List Byte) (table : List Word) :
    (rBytes dtype data table).length = 12 + 4 * table.length + data.length := by
  simp [rBytes]
  omega

theorem aBytes_length (dtype : Byte) (h : ArrayHead) (data : List Byte) :
    (aBytes dtype h data).length = 16 + shapeSize h.dims + data.length := by
  simp [aBytes, Nat.add_assoc]

theorem apdBytes_length (dtype : Byte) (h : ArrayHead) (table : List Word) :
    (apdBytes dtype h table).length = 16 + shapeSize h.dims + 4 * table.length := by
  simp [apdBytes, Nat.add_assoc]

theorem caBytes_length (dtype : Byte) (h : ArrayHead) (arsize : Word) (isNull : Bool) :
    (caBytes dtype h arsize isNull).length = 16 + shapeSize h.dims := by
  simp [caBytes]

end MdsPlus.RecordSizes
