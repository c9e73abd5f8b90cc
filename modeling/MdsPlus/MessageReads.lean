import MdsPlus.ArgumentTable

/-!
What is read of the body of a message. The number and the size of the elements come from the
header, from the tables of element sizes or from a descriptor that is already there, never from
the size of the body; texts are read up to their end.
-/

namespace MdsPlus.MessageReads

open BitMemory MessageHeaders MessageBodies MessageStream ArgumentTable

inductive Access
  | body (start : ℤ) (len : ℕ)
  | table (size idx : ℕ)
deriving DecidableEq

def Allowed (size : ℕ) : Access → Prop
  | .body start len => 0 ≤ start ∧ start + len ≤ size
  | .table n idx => idx < n

/-- `num` elements of which `len` bytes are read, `stride` bytes apart. -/
def strided (num stride : ℤ) (len : ℕ) : List Access :=
  (List.range num.toNat).map fun i : ℕ => .body (i * stride) len

/-- The dimensions of a message, or those of a descriptor. -/
def dimReads (h : MsgHdr) : List Access := (List.range h.ndims.toNat).map (.table 8)

/-- `FlipData`; runs of less than two bytes are left alone. -/
def flipReads (h : MsgHdr) : List Access :=
  dimReads h ++
    if 2 ≤ (flipRuns h).2 then strided (flipRuns h).1 (flipRuns h).2 (flipRuns h).2 else []

/-- `convert_binary`; the sign is taken from the byte before the first that is filled. -/
def convertBinaryReads (num : ℤ) (signExtend : Bool) (inLength outLength : ℤ) : List Access :=
  let minLen := min outLength inLength
  (List.range num.toNat).flatMap fun i : ℕ =>
    (if 0 < minLen then [.body (i * inLength) minLen.toNat] else []) ++
      if signExtend ∧ max 0 minLen < outLength then [.body (i * inLength + minLen - 1) 1] else []

/-- How the data of a message is taken over. -/
inductive Conversion
  | copy
  | binary (signExtend : Bool)
  | float (num stride : ℤ) (size : ℕ)

/-- A number of type `char`, and one of type `int`. -/
def char (v : ℤ) : ℤ := (BitVec.ofInt 8 v).toInt
def int (v : ℤ) : ℤ := (BitVec.ofInt 32 v).toInt

/-- `DTYPE_USHORT` and `DTYPE_ULONG`, `DTYPE_SHORT` and `DTYPE_LONG`. -/
def binary (dtype : BitVec 8) : Option Bool :=
  if dtype = dtypeUshort ∨ dtype = dtypeUlong then some false
  else if dtype = dtypeShort ∨ dtype = dtypeLong then some true
  else none

def crayIeeeClient : BitVec 8 := 7

def conversion (client dtype : BitVec 8) (num : ℤ) (length : ℤ) : Conversion :=
  if cType client = ieeeClient ∨ cType client = javaClient then .copy
  else if cType client = crayIeeeClient then
    match binary dtype with
    | some signExtend => .binary signExtend
    | none => .copy
  else if cType client = crayClient then
    match binary dtype with
    | some signExtend => .binary signExtend
    | none =>
        if dtype = dtypeFloat then .float num (char length) 8
        else if dtype = dtypeComplex then .float (int (num * 2)) (char (length.tdiv 2)) 8
        else if dtype = dtypeDouble then .float num (char length) 8
        else .copy
  else if dtype = dtypeFloat then .float num (char length) 4
  else if dtype = dtypeComplex then .float (int (num * 2)) (char length) 4
  else if dtype = dtypeDouble then .float num (char length) 8
  else if dtype = dtypeComplexDouble then .float (int (num * 2)) (char (length.tdiv 2)) 8
  else .copy

def descriptor (c : Connection) (m : Message) : Dsc :=
  ((begun c m).table m.h.descriptorIdx).getD (allocate m.h)

/-- `num` -/
def elementCount (d : Dsc) : ℤ :=
  if 1 < d.length.toNat then (dataSize d).toInt.tdiv d.length.toNat else (dataSize d).toInt

/-- `dbytes` where a size is expected. -/
def copySize (d : Dsc) : ℕ := ((dataSize d).signExtend 64).toNat

def conversionOf (c : Connection) (m : Message) : Conversion :=
  let d := descriptor c m
  conversion m.h.clientType d.dtype (elementCount d) m.h.length.toInt

def dataReads (c : Connection) (m : Message) : List Access :=
  let d := descriptor c m
  match conversionOf c m with
  | .copy => [.body 0 (copySize d)]
  | .binary signExtend =>
      convertBinaryReads (elementCount d) signExtend m.h.length.toInt d.length.toInt
  | .float num stride size => strided num stride size

/-- The tables that a new descriptor is made with. -/
def allocateReads (h : MsgHdr) : List Access :=
  (if h.dtype < dtypeCstring then [.table lengths.length h.dtype.toNat] else []) ++ dimReads h

/-- `standard_command`; `serialReads` is what `MdsSerializeDscIn` reads. -/
def standardReads (serialReads : List Byte → List Access) (c : Connection) (m : Message) :
    List Access :=
  if Fresh c m ∧ TooMany m then []
  else
    .table 256 m.h.descriptorIdx.toNat ::
      if Serial m.h then serialReads m.bytes
      else
        (if ((begun c m).table m.h.descriptorIdx).isNone then allocateReads m.h else []) ++
          dataReads c m

/-- The text at a place of the body, without the byte that ends it. -/
def text (bytes : List Byte) (pos : ℕ) : ℕ := ((bytes.drop pos).takeWhile (· ≠ 0)).length

def textReads (bytes : List Byte) (pos : ℕ) : Access := .body pos (text bytes pos + 1)

def mdsIoOpen : BitVec 8 := 1
def mdsIoWrite : BitVec 8 := 5
def mdsIoExists : BitVec 8 := 7
def mdsIoRemove : BitVec 8 := 8
def mdsIoRename : BitVec 8 := 9
def mdsIoOpenOne : BitVec 8 := 12

/-- The operations on the file of a name. -/
def OneText (idx : BitVec 8) : Prop := idx ∈ [mdsIoOpen, mdsIoExists, mdsIoRemove]

/-- The operations with two names, one behind the other. -/
def TwoTexts (idx : BitVec 8) : Prop := idx ∈ [mdsIoRename, mdsIoOpenOne]

instance (idx : BitVec 8) : Decidable (OneText idx) := inferInstanceAs (Decidable (_ ∈ _))
instance (idx : BitVec 8) : Decidable (TwoTexts idx) := inferInstanceAs (Decidable (_ ∈ _))

/-- `count` and `fd` of a write. -/
def writeCount (h : MsgHdr) : BitVec 32 := h.dims[0]
def writeFd (h : MsgHdr) : BitVec 32 := h.dims[1]

/-- `mdsio_command`; `isOpen` is the table of the files that are open. -/
def operationReads (isOpen : BitVec 32 → Bool) (m : Message) : List Access :=
  if OneText m.h.descriptorIdx then [textReads m.bytes 0]
  else if TwoTexts m.h.descriptorIdx then
    [textReads m.bytes 0, textReads m.bytes (text m.bytes 0 + 1)]
  else if m.h.descriptorIdx = mdsIoWrite then
    if isOpen (writeFd m.h) ∧ writeCount m.h ≠ 0 then [.body 0 (writeCount m.h).toNat] else []
  else []

def processReads (serialReads : List Byte → List Access) (isOpen : BitVec 32 → Bool)
    (c : Connection) (m : Message) : List Access :=
  if IsArgument m.h then standardReads serialReads c m else operationReads isOpen m

/-- The body comes in the order of another host. -/
def Foreign (host : Big) (m : Message) : Prop := endian m.h.clientType ≠ host

instance (host : Big) (m : Message) : Decidable (Foreign host m) :=
  inferInstanceAs (Decidable (_ ≠ _))

def received (host : Big) (m : Message) : Message := if Foreign host m then flipped m else m

/-- All that is read of a message: in `FlipData`, then in `ProcessMessage`. -/
def reads (host : Big) (serialReads : List Byte → List Access) (isOpen : BitVec 32 → Bool)
    (c : Connection) (m : Message) : List Access :=
  (if Foreign host m then flipReads m.h else []) ++
    processReads serialReads isOpen c (received host m)

/-! ### When nothing else is read -/

/-- The runs that are flipped lie in the body. -/
def FlipFits (m : Message) : Prop := (flipRuns m.h).2 < 2 ∨ Fits m

/-- So many elements, `stride` bytes apart, lie in a body. -/
def StridedFits (size : ℕ) (num stride : ℤ) (len : ℕ) : Prop :=
  0 < num → (num = 1 ∨ 0 ≤ stride) ∧ (num - 1) * stride + len ≤ size

/-- The data of an argument lies in the body. -/
def DataFits (c : Connection) (m : Message) : Prop :=
  let d := descriptor c m
  match conversionOf c m with
  | .copy => copySize d ≤ m.bytes.length
  | .binary signExtend =>
      0 < elementCount d →
        (0 < m.h.length.toInt → 0 < d.length.toInt →
          (elementCount d - 1) * m.h.length.toInt + min d.length.toInt m.h.length.toInt ≤
            m.bytes.length) ∧
        (signExtend → 0 < d.length.toInt → 0 < m.h.length.toInt)
  | .float num stride size => StridedFits m.bytes.length num stride size

/-- The names end in the body, and the bytes to write are there. -/
def OperationFits (isOpen : BitVec 32 → Bool) (m : Message) : Prop :=
  (OneText m.h.descriptorIdx → 1 ≤ m.bytes.count 0) ∧
    (TwoTexts m.h.descriptorIdx → 2 ≤ m.bytes.count 0) ∧
    (m.h.descriptorIdx = mdsIoWrite → isOpen (writeFd m.h) →
      (writeCount m.h).toNat ≤ m.bytes.length)

/-- The body holds what the header and the descriptor promise. -/
def ProcessFits (isOpen : BitVec 32 → Bool) (c : Connection) (m : Message) : Prop :=
  if IsArgument m.h then ¬ (Fresh c m ∧ TooMany m) → DataFits c m else OperationFits isOpen m

/-! ### Reads in a row -/

theorem stride_le {num stride : ℤ} {i : ℕ} (hi : i < num.toNat) (hstride : 0 ≤ stride) :
    0 ≤ i * stride ∧ i * stride ≤ (num - 1) * stride := by
  have hlast : (i : ℤ) ≤ num - 1 := by omega
  exact ⟨Int.mul_nonneg (Int.natCast_nonneg i) hstride,
    Int.mul_le_mul_of_nonneg_right hlast hstride⟩

theorem allowed_strided_iff (size : ℕ) (num stride : ℤ) (len : ℕ) :
    (∀ a ∈ strided num stride len, Allowed size a) ↔ StridedFits size num stride len := by
  unfold strided StridedFits
  simp only [List.forall_mem_map, List.mem_range, Allowed]
  constructor
  · intro h hnum
    have hlast := h (num.toNat - 1) (by omega)
    have hcast : ((num.toNat - 1 : ℕ) : ℤ) = num - 1 := by omega
    rw [hcast] at hlast
    refine ⟨?_, hlast.2⟩
    by_cases hone : num = 1
    · exact .inl hone
    · have hsecond := (h 1 (by omega)).1
      right
      rwa [Nat.cast_one, Int.one_mul] at hsecond
  · intro h i hi
    obtain ⟨hone | hstride, hlast⟩ := h (by omega)
    · obtain rfl : i = 0 := by omega
      subst hone
      rw [Int.sub_self, Int.zero_mul] at hlast
      rw [Nat.cast_zero, Int.zero_mul]
      exact ⟨Int.le_refl 0, hlast⟩
    · obtain ⟨hlow, hhigh⟩ := stride_le hi hstride
      exact ⟨hlow, by omega⟩

theorem allowed_dimReads (size : ℕ) {h : MsgHdr} (hheader : badHeader h = false) :
    ∀ a ∈ dimReads h, Allowed size a := by
  have hdims : h.ndims.toNat ≤ 8 := by
    unfold badHeader at hheader
    simp only [Bool.or_eq_false_iff, decide_eq_false_iff_not, BitVec.lt_def] at hheader
    exact Nat.not_lt.mp hheader.2
  intro a ha
  obtain ⟨i, hi, rfl⟩ := List.mem_map.mp ha
  exact Nat.lt_of_lt_of_le (List.mem_range.mp hi) hdims

theorem stridedFits_self_iff (size n len : ℕ) :
    StridedFits size n len len ↔ n * len ≤ size := by
  have hmul : ((n : ℤ) - 1) * len + len = (n * len : ℕ) := by
    rw [Int.sub_mul, Int.one_mul, Int.sub_add_cancel, Nat.cast_mul]
  unfold StridedFits
  rw [hmul]
  constructor
  · intro h
    rcases Nat.eq_zero_or_pos n with hn | hn
    · subst hn
      rw [Nat.zero_mul]
      exact Nat.zero_le size
    · exact Int.ofNat_le.mp (h (by omega)).2
  · intro h _
    exact ⟨.inr (Int.natCast_nonneg len), Int.ofNat_le.mpr h⟩

theorem allowed_flipReads_iff {m : Message} (hheader : badHeader m.h = false) :
    (∀ a ∈ flipReads m.h, Allowed m.bytes.length a) ↔ FlipFits m := by
  unfold flipReads FlipFits
  rw [List.forall_mem_append, and_iff_right (allowed_dimReads _ hheader)]
  by_cases hlen : 2 ≤ (flipRuns m.h).2
  · rw [if_pos hlen, allowed_strided_iff, or_iff_right (Nat.not_lt.mpr hlen)]
    exact stridedFits_self_iff ..
  · rw [if_neg hlen]
    exact iff_of_true (List.forall_mem_nil _) (.inl (Nat.lt_of_not_le hlen))

/-! ### The data of an argument -/

theorem allowed_binary_iff (size : ℕ) (num : ℤ) (signExtend : Bool) (inLength outLength : ℤ) :
    (∀ a ∈ convertBinaryReads num signExtend inLength outLength, Allowed size a) ↔
      (0 < num →
        (0 < inLength → 0 < outLength →
          (num - 1) * inLength + min outLength inLength ≤ size) ∧
        (signExtend → 0 < outLength → 0 < inLength)) := by
  unfold convertBinaryReads
  simp only [List.forall_mem_flatMap, List.mem_range, List.forall_mem_append]
  constructor
  · intro h hnum
    have hlast := h (num.toNat - 1) (by omega)
    have hcast : ((num.toNat - 1 : ℕ) : ℤ) = num - 1 := by omega
    rw [hcast] at hlast
    constructor
    · intro hin hout
      have hmin : 0 < min outLength inLength := by omega
      have hbody := hlast.1 _ (by rw [if_pos hmin]; exact List.mem_cons_self ..)
      have hbound : (num - 1) * inLength + (min outLength inLength).toNat ≤ size := hbody.2
      omega
    · intro hsign hout
      by_contra hin
      have hfirst := (h 0 (by omega)).2 _
        (by rw [if_pos ⟨hsign, by omega⟩]; exact List.mem_cons_self ..)
      have hbefore : 0 ≤ ((0 : ℕ) : ℤ) * inLength + min outLength inLength - 1 := hfirst.1
      rw [Nat.cast_zero, Int.zero_mul] at hbefore
      omega
  · intro h i hi
    obtain ⟨hbody, hsign⟩ := h (by omega)
    constructor
    · intro a ha
      split_ifs at ha with hmin
      · obtain rfl := List.mem_singleton.mp ha
        have hbound := hbody (by omega) (by omega)
        obtain ⟨hlow, hhigh⟩ := stride_le hi (show 0 ≤ inLength by omega)
        exact ⟨hlow, by omega⟩
      · cases ha
    · intro a ha
      split_ifs at ha with hneeded
      · obtain rfl := List.mem_singleton.mp ha
        have hin := hsign hneeded.1 (by omega)
        have hbound := hbody hin (by omega)
        obtain ⟨hlow, hhigh⟩ := stride_le hi (show 0 ≤ inLength by omega)
        exact ⟨by omega, by omega⟩
      · cases ha

theorem allowed_dataReads_iff (c : Connection) (m : Message) :
    (∀ a ∈ dataReads c m, Allowed m.bytes.length a) ↔ DataFits c m := by
  unfold dataReads DataFits
  cases conversionOf c m with
  | copy =>
    simp only [List.forall_mem_singleton, Allowed, Int.zero_add, Int.ofNat_le]
    exact and_iff_right (Int.le_refl 0)
  | binary signExtend => exact allowed_binary_iff ..
  | float num stride size => exact allowed_strided_iff ..

theorem allowed_allocateReads (size : ℕ) {h : MsgHdr} (hheader : badHeader h = false) :
    ∀ a ∈ allocateReads h, Allowed size a := by
  unfold allocateReads
  refine List.forall_mem_append.mpr ⟨fun a ha => ?_, allowed_dimReads size hheader⟩
  split_ifs at ha with hdtype
  · obtain rfl := List.mem_singleton.mp ha
    exact Nat.lt_of_lt_of_le (BitVec.lt_def.mp hdtype) (by decide)
  · cases ha

theorem allowed_standardReads_iff (serialReads : List Byte → List Access) {c : Connection}
    {m : Message} (hheader : badHeader m.h = false) (hserial : ¬ Serial m.h) :
    (∀ a ∈ standardReads serialReads c m, Allowed m.bytes.length a) ↔
      (¬ (Fresh c m ∧ TooMany m) → DataFits c m) := by
  unfold standardReads
  by_cases hrefused : Fresh c m ∧ TooMany m
  · rw [if_pos hrefused]
    exact iff_of_true (List.forall_mem_nil _) fun h => absurd hrefused h
  · rw [if_neg hrefused, if_neg hserial, List.forall_mem_cons, List.forall_mem_append,
      allowed_dataReads_iff, imp_iff_right hrefused]
    have hslot : Allowed m.bytes.length (.table 256 m.h.descriptorIdx.toNat) :=
      m.h.descriptorIdx.isLt
    have hnew : ∀ a ∈ (if ((begun c m).table m.h.descriptorIdx).isNone then allocateReads m.h
        else []), Allowed m.bytes.length a := by
      intro a ha
      split_ifs at ha
      · exact allowed_allocateReads _ hheader a ha
      · cases ha
    rw [and_iff_right hslot, and_iff_right hnew]

/-! ### The texts of an operation -/

theorem takeWhile_cons {b : Byte} (hb : b ≠ 0) (bytes : List Byte) :
    (b :: bytes).takeWhile (· ≠ 0) = b :: bytes.takeWhile (· ≠ 0) :=
  List.takeWhile_cons_of_pos (decide_eq_true hb)

theorem takeWhile_length_lt_iff (bytes : List Byte) :
    (bytes.takeWhile (· ≠ 0)).length < bytes.length ↔ 0 ∈ bytes := by
  induction bytes with
  | nil => simp
  | cons b bytes ih =>
    by_cases hb : b = 0
    · subst hb
      simp
    · have hne : (0 : Byte) ≠ b := fun h => hb h.symm
      rw [takeWhile_cons hb, List.length_cons, List.length_cons,
        Nat.add_lt_add_iff_right, ih, List.mem_cons, or_iff_right hne]

theorem allowed_textReads_iff (bytes : List Byte) (pos : ℕ) :
    Allowed bytes.length (textReads bytes pos) ↔ 0 ∈ bytes.drop pos := by
  rw [← takeWhile_length_lt_iff, List.length_drop]
  show 0 ≤ (pos : ℤ) ∧ (pos : ℤ) + ((bytes.drop pos).takeWhile (· ≠ 0)).length.succ ≤ _ ↔ _
  omega

theorem count_behind {bytes : List Byte} (h : 0 ∈ bytes) :
    bytes.count 0 = (bytes.drop (text bytes 0 + 1)).count 0 + 1 := by
  unfold text
  rw [List.drop_zero]
  induction bytes with
  | nil => cases h
  | cons b bytes ih =>
    by_cases hb : b = 0
    · subst hb
      simp
    · have hne : (0 : Byte) ≠ b := fun h => hb h.symm
      have htail : 0 ∈ bytes := (List.mem_cons.mp h).resolve_left hne
      rw [takeWhile_cons hb, List.length_cons, List.drop_succ_cons,
        List.count_cons_of_ne hb]
      exact ih htail

theorem allowed_twoTexts_iff (bytes : List Byte) :
    (Allowed bytes.length (textReads bytes 0) ∧
      Allowed bytes.length (textReads bytes (text bytes 0 + 1))) ↔ 2 ≤ bytes.count 0 := by
  rw [allowed_textReads_iff, allowed_textReads_iff, List.drop_zero]
  by_cases h : 0 ∈ bytes
  · rw [and_iff_right h, count_behind h, ← List.count_pos_iff]
    omega
  · rw [List.count_eq_zero_of_not_mem h]
    exact iff_of_false (fun hboth => h hboth.1) (by omega)

theorem oneText_spec {idx : BitVec 8} (h : OneText idx) : ¬ TwoTexts idx ∧ idx ≠ mdsIoWrite := by
  revert idx
  decide

theorem twoTexts_ne {idx : BitVec 8} (h : TwoTexts idx) : idx ≠ mdsIoWrite := by
  revert idx
  decide

theorem allowed_writeReads_iff (isOpen : BitVec 32 → Bool) (m : Message) :
    (∀ a ∈ (if isOpen (writeFd m.h) ∧ writeCount m.h ≠ 0 then
        [Access.body 0 (writeCount m.h).toNat] else []), Allowed m.bytes.length a) ↔
      (isOpen (writeFd m.h) → (writeCount m.h).toNat ≤ m.bytes.length) := by
  by_cases hopen : isOpen (writeFd m.h)
  · rw [imp_iff_right hopen]
    by_cases hcount : writeCount m.h = 0
    · rw [if_neg fun h => h.2 hcount, hcount]
      exact iff_of_true (List.forall_mem_nil _) (Nat.zero_le _)
    · rw [if_pos ⟨hopen, hcount⟩, List.forall_mem_singleton]
      show (0 : ℤ) ≤ 0 ∧ (0 : ℤ) + _ ≤ _ ↔ _
      omega
  · rw [if_neg fun h => hopen h.1]
    exact iff_of_true (List.forall_mem_nil _) fun h => absurd h hopen

theorem allowed_operationReads_iff (isOpen : BitVec 32 → Bool) (m : Message) :
    (∀ a ∈ operationReads isOpen m, Allowed m.bytes.length a) ↔ OperationFits isOpen m := by
  unfold operationReads OperationFits
  by_cases hone : OneText m.h.descriptorIdx
  · obtain ⟨htwo, hwrite⟩ := oneText_spec hone
    rw [if_pos hone, List.forall_mem_singleton, allowed_textReads_iff, List.drop_zero,
      ← List.count_pos_iff]
    exact ⟨fun h => ⟨fun _ => h, fun ht => absurd ht htwo, fun hw => absurd hw hwrite⟩,
      fun h => h.1 hone⟩
  · rw [if_neg hone]
    by_cases htwo : TwoTexts m.h.descriptorIdx
    · have hwrite := twoTexts_ne htwo
      rw [if_pos htwo, List.forall_mem_cons, List.forall_mem_singleton, allowed_twoTexts_iff]
      exact ⟨fun h => ⟨fun ho => absurd ho hone, fun _ => h, fun hw => absurd hw hwrite⟩,
        fun h => h.2.1 htwo⟩
    · rw [if_neg htwo]
      by_cases hwrite : m.h.descriptorIdx = mdsIoWrite
      · rw [if_pos hwrite, allowed_writeReads_iff]
        exact ⟨fun h => ⟨fun ho => absurd ho hone, fun ht => absurd ht htwo, fun _ => h⟩,
          fun h => h.2.2 hwrite⟩
      · rw [if_neg hwrite]
        exact iff_of_true (List.forall_mem_nil _) ⟨fun ho => absurd ho hone,
          fun ht => absurd ht htwo, fun hw => absurd hw hwrite⟩

/-! ### Every message -/

@[simp] theorem received_h (host : Big) (m : Message) : (received host m).h = m.h := by
  unfold received
  split
  · exact flipped_h m
  · rfl

theorem received_length (host : Big) (m : Message) :
    (received host m).bytes.length = m.bytes.length := by
  unfold received
  split
  · exact flipped_length m
  · rfl

theorem allowed_processReads_iff (serialReads : List Byte → List Access)
    (isOpen : BitVec 32 → Bool) {c : Connection} {m : Message} (hheader : badHeader m.h = false)
    (hserial : IsArgument m.h → ¬ Serial m.h) :
    (∀ a ∈ processReads serialReads isOpen c m, Allowed m.bytes.length a) ↔
      ProcessFits isOpen c m := by
  unfold processReads ProcessFits
  by_cases hargument : IsArgument m.h
  · rw [if_pos hargument, if_pos hargument]
    exact allowed_standardReads_iff serialReads hheader (hserial hargument)
  · rw [if_neg hargument, if_neg hargument]
    exact allowed_operationReads_iff isOpen m

/-- Receiving and processing an accepted message reads nothing but its body, and the tables where
they have entries, just if the body holds what the header and the descriptor promise. -/
theorem reads_allowed_iff (host : Big) (serialReads : List Byte → List Access)
    (isOpen : BitVec 32 → Bool) (c : Connection) (m : Message) (hheader : badHeader m.h = false)
    (hserial : IsArgument m.h → ¬ Serial m.h) :
    (∀ a ∈ reads host serialReads isOpen c m, Allowed m.bytes.length a) ↔
      (Foreign host m → FlipFits m) ∧ ProcessFits isOpen c (received host m) := by
  have hprocess : (∀ a ∈ processReads serialReads isOpen c (received host m),
      Allowed m.bytes.length a) ↔ ProcessFits isOpen c (received host m) := by
    rw [← received_length host m]
    refine allowed_processReads_iff serialReads isOpen ?_ ?_
    · rwa [received_h]
    · rwa [received_h]
  unfold reads
  rw [List.forall_mem_append, hprocess]
  by_cases hforeign : Foreign host m
  · rw [if_pos hforeign, imp_iff_right hforeign, allowed_flipReads_iff hheader]
  · rw [if_neg hforeign]
    exact and_congr_left' (iff_of_true (List.forall_mem_nil _) fun h => absurd h hforeign)

def textArgument (length : BitVec 16) (bytes : List Byte) : Message where
  h :=
    { msglen := 48 + BitVec.ofNat 32 bytes.length
      status := 0
      length := length
      nargs := 1
      descriptorIdx := 0
      messageId := 1
      dtype := dtypeCstring
      clientType := ieeeClient
      ndims := 0
      dims := Vector.replicate 8 0 }
  bytes := bytes

theorem reads_allowed_iff_text :
    (∀ a ∈ reads false (fun _ => []) (fun _ => false) newConnection (textArgument 1 [65]),
        Allowed 1 a) ↔
      (Foreign false (textArgument 1 [65]) → FlipFits (textArgument 1 [65])) ∧
        ProcessFits (fun _ => false) newConnection (received false (textArgument 1 [65])) :=
  reads_allowed_iff false (fun _ => []) (fun _ => false) newConnection (textArgument 1 [65])
    (by decide) (by decide)

theorem empty_body_read :
    badHeader (textArgument 100 []).h = false ∧ ¬ Serial (textArgument 100 []).h ∧
      ¬ ∀ a ∈ reads false (fun _ => []) (fun _ => false) newConnection (textArgument 100 []),
        Allowed 0 a := by
  refine ⟨by decide, by decide, fun h => ?_⟩
  have hcopy : Allowed 0 (.body 0 100) := by
    refine h _ ?_
    decide
  exact absurd hcopy.2 (by decide)

end MdsPlus.MessageReads
