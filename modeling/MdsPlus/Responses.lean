import MdsPlus.MessageTransfer
import MdsPlus.MessageAnswers
import Mathlib.Algebra.BigOperators.Ring.List

/-!
Answers of the server. An answer is sent as a message whose header gives the size of an
element, as a signed 16-bit number, and the dimensions; without coefficients only the first
dimension is filled in. The client derives what is missing and checks the product.
-/

namespace MdsPlus.Responses

open BitMemory MessageHeaders MessageBodies MessageStream MessageTransfer MessageAnswers

structure ArrayPart where
  coeff : Bool
  dimct : BitVec 8
  arsize : BitVec 32
  m : Vector (BitVec 32) 8

structure Descriptor where
  length : BitVec 16
  dtype : BitVec 8
  array : Option ArrayPart
  bytes : List Byte

/-- A server connection: the client and message it answers, whether the answer is to be
serialized, and the conversion of a number of floats of one type to those of the client. -/
structure Responder where
  clientType : BitVec 8
  messageId : BitVec 8
  serial : Bool
  convertFloat : BitVec 8 → ℕ → List Byte → List Byte

def dtypeF : BitVec 8 := 10
def dtypeD : BitVec 8 := 11
def dtypeFC : BitVec 8 := 12
def dtypeDC : BitVec 8 := 13
def dtypeG : BitVec 8 := 27
def dtypeGC : BitVec 8 := 29
def dtypeFS : BitVec 8 := 52
def dtypeFT : BitVec 8 := 53
def dtypeFSC : BitVec 8 := 54
def dtypeFTC : BitVec 8 := 55

/-- The types that are converted for an IEEE client. -/
def vaxFloats : List (BitVec 8) := [dtypeF, dtypeFC, dtypeD, dtypeDC, dtypeG, dtypeGC]

instance decidableVax (t : BitVec 8) : Decidable (t ∈ vaxFloats) :=
  decidable_of_iff (vaxFloats.contains t = true) List.contains_iff_mem

/-- The number of elements that `get_nbytes` finds for an IEEE client. -/
def numElements (d : Descriptor) : ℕ :=
  match d.array with
  | none => 1
  | some a => if d.length = 0 then 0 else a.arsize.toNat / d.length.toNat

def getNbytes (d : Descriptor) : ℕ := numElements d * d.length.toNat

/-- The type that `convert_ieee` puts in the header. -/
def ieeeDtype (dtype : BitVec 8) : BitVec 8 :=
  if dtype = dtypeF ∨ dtype = dtypeFS then dtypeFloat
  else if dtype = dtypeFC ∨ dtype = dtypeFSC then dtypeComplex
  else if dtype = dtypeD ∨ dtype = dtypeG ∨ dtype = dtypeFT then dtypeDouble
  else if dtype = dtypeDC ∨ dtype = dtypeGC ∨ dtype = dtypeFTC then dtypeComplexDouble
  else dtype

def convertIeee (c : Responder) (d : Descriptor) : List Byte :=
  if d.dtype ∈ vaxFloats then c.convertFloat d.dtype (numElements d) d.bytes
  else d.bytes.take (getNbytes d)

def extent (d : Descriptor) (a : ArrayPart) : BitVec 32 :=
  if d.length = 0 then 0 else BitVec.ofNat 32 (a.arsize.toNat / d.length.toNat)

/-- The dimensions in the header: the coefficients, or the extent in front of zeros. -/
def responseDims (d : Descriptor) (a : ArrayPart) : Vector (BitVec 32) 8 :=
  Vector.ofFn fun i =>
    if a.dimct.toNat ≤ i.val then 0
    else if a.coeff then a.m.get i
    else if i.val = 0 then extent d a
    else 0

def statusOk (status : BitVec 32) : Bool := status.getLsbD 0

/-- `_send_response` to a client of type IEEE: the message it gives to `SendMdsMsgC`. -/
def sendResponse (c : Responder) (status : BitVec 32) (d : Descriptor) : Message :=
  let header : MsgHdr :=
    { msglen := BitVec.ofNat 32 (headerSize + getNbytes d), status, length := d.length, nargs := 0,
      descriptorIdx := 0, messageId := c.messageId, dtype := ieeeDtype d.dtype,
      clientType := c.clientType, ndims := 0, dims := Vector.replicate 8 0 }
  match d.array with
  | none => ⟨header, convertIeee c d⟩
  | some a =>
      if c.serial ∧ statusOk status then
        ⟨{ header with
            msglen := BitVec.ofNat 32 (headerSize + a.arsize.toNat)
            dtype := dtypeSerial
            ndims := 1
            length := 1
            dims := (Vector.replicate 8 0).set 0 a.arsize dims_pos },
          d.bytes.take a.arsize.toNat⟩
      else
        ⟨{ header with ndims := a.dimct, dims := responseDims d a }, convertIeee c d⟩

def extents (d : Descriptor) : List (BitVec 32) :=
  match d.array with
  | none => []
  | some a => if a.coeff then a.m.toList.take a.dimct.toNat else [extent d a]

def count (ds : List (BitVec 32)) : ℕ := (ds.map BitVec.toNat).prod

/-- A descriptor whose data is what its class, element size and dimensions say. -/
structure WellFormedDsc (d : Descriptor) : Prop where
  scalar : d.array = none → d.bytes.length = d.length.toNat
  array : ∀ a, d.array = some a → d.bytes.length = a.arsize.toNat ∧ 1 ≤ a.dimct ∧ a.dimct ≤ 8
  coeff : ∀ a, d.array = some a → a.coeff →
    a.arsize.toNat = count (a.m.toList.take a.dimct.toNat) * d.length.toNat
  plain : ∀ a, d.array = some a → a.coeff = false →
    ∃ n, a.arsize.toNat = n * d.length.toNat

/-- The header gives the element size and the dimensions back. -/
def HeaderHolds (c : Responder) (status : BitVec 32) (d : Descriptor) : Prop :=
  match d.array with
  | none => d.length.toNat < 2 ^ 15
  | some a =>
      if c.serial ∧ statusOk status then d.length = 1 ∧ (a.coeff → a.dimct = 1)
      else
        (d.length.toNat < 2 ^ 15 ∨ a.arsize = 0) ∧
          (a.coeff = false → a.dimct = 1 ∨ 3 ≤ a.dimct ∧ a.arsize ≠ 0)

/-! ### Element sizes and products -/

theorem signExtend_mul_eq (l : BitVec 16) (n : ℕ) (h : n * l.toNat < 2 ^ 31) :
    l.signExtend 32 * BitVec.ofNat 32 n = BitVec.ofNat 32 (n * l.toNat) ↔
      l.toNat < 2 ^ 15 ∨ n = 0 := by
  have hl := l.isLt
  by_cases hmsb : l.msb = false
  · have hsmall : l.toNat < 2 ^ 15 := by
      have := BitVec.msb_eq_false_iff_two_mul_lt.mp hmsb
      omega
    refine iff_of_true ?_ (.inl hsmall)
    rw [BitVec.signExtend_eq_setWidth_of_msb_false hmsb]
    apply BitVec.eq_of_toNat_eq
    simp only [BitVec.toNat_mul, BitVec.toNat_setWidth, BitVec.toNat_ofNat]
    rw [← Nat.mul_mod, Nat.mul_comm]
  · have hbig : 2 ^ 15 ≤ l.toNat := by
      have : ¬ 2 * l.toNat < 2 ^ 16 := fun h => hmsb (BitVec.msb_eq_false_iff_two_mul_lt.mpr h)
      omega
    have hext : (l.signExtend 32).toNat = 2 ^ 32 - 2 ^ 16 + l.toNat := by
      rw [BitVec.toNat_signExtend, Bool.eq_true_of_not_eq_false hmsb, BitVec.toNat_setWidth]
      simp only [if_true]
      omega
    have hn : n < 2 ^ 16 := by
      by_contra hge
      have : 2 ^ 16 * 2 ^ 15 ≤ n * l.toNat := Nat.mul_le_mul (by omega) hbig
      omega
    have hsum : (2 ^ 32 - 2 ^ 16 + l.toNat) * n + 2 ^ 16 * n = 2 ^ 32 * n + n * l.toNat := by
      rw [← Nat.add_mul, Nat.mul_comm n, ← Nat.add_mul]
      congr 1
      omega
    rw [← BitVec.toNat_inj]
    simp only [BitVec.toNat_mul, BitVec.toNat_ofNat, hext, Nat.mul_mod_mod]
    have hnot : ¬ l.toNat < 2 ^ 15 := by omega
    simp only [hnot, false_or]
    omega

theorem foldl_mul_eq (ds : List (BitVec 32)) :
    ds.foldl (· * ·) 1 = BitVec.ofNat 32 (count ds) := by
  rw [← List.prod_eq_foldl]
  induction ds with
  | nil => rfl
  | cons d ds ih =>
    have hcons : count (d :: ds) = d.toNat * count ds := rfl
    rw [List.prod_cons, ih, hcons, BitVec.ofNat_mul, BitVec.ofNat_toNat, BitVec.setWidth_eq]

theorem count_eq_zero {ds : List (BitVec 32)} (h : count ds ≠ 0) : ∀ d ∈ ds, d ≠ 0 := by
  rintro d hd rfl
  exact h (List.prod_eq_zero (List.mem_map.mpr ⟨0, hd, rfl⟩))

theorem datalen_eq {h : MsgHdr} {n : ℕ} (hlen : h.msglen = BitVec.ofNat 32 (headerSize + n)) :
    h.msglen - 48 = BitVec.ofNat 32 n := by
  rw [hlen, BitVec.ofNat_add]
  have hsize : (48 : BitVec 32) = BitVec.ofNat 32 headerSize := rfl
  rw [hsize, BitVec.add_comm, BitVec.add_sub_cancel]

/-- Dimensions whose product gives the data are read as they stand when the element size is not
negative or there is no data, and refused otherwise. -/
theorem answerInfo_full (bytes : List Byte) {h : MsgHdr} {n : ℕ}
    (hlen : h.msglen = BitVec.ofNat 32 (headerSize + n * h.length.toNat))
    (hn : n * h.length.toNat < 2 ^ 31)
    (hcount : n = count (h.dims.toList.take h.ndims.toNat)) :
    answerInfo ⟨h, bytes⟩ = .ok
      (if h.length.toNat < 2 ^ 15 ∨ n = 0 then
        some ⟨h.status, h.dtype, h.length, h.dims.toList.take h.ndims.toNat, bytes⟩
      else none) := by
  have hdims : BitVec.ofNat 32 (n * h.length.toNat) = 0 ∨
      ∀ d ∈ h.dims.toList.take h.ndims.toNat, d ≠ 0 := by
    by_cases hzero : n = 0
    · left
      simp [hzero]
    · right
      exact count_eq_zero (by rwa [← hcount])
  have hread := readDims_append [] (h.length.signExtend 32) hdims
  rw [List.append_nil, foldl_mul_eq, ← hcount] at hread
  unfold answerInfo
  simp only [datalen_eq hlen, hread, readDims, Except.map, List.append_nil,
    signExtend_mul_eq _ _ hn]

theorem take_responseDims_coeff {d : Descriptor} {a : ArrayPart} (hc : a.coeff = true) :
    (responseDims d a).toList.take a.dimct.toNat = a.m.toList.take a.dimct.toNat := by
  apply List.ext_getElem
  · simp
  · intro i h1 h2
    have hi : i < a.dimct.toNat := by
      rw [List.length_take] at h2
      omega
    have hnot : ¬ a.dimct.toNat ≤ i := by omega
    simp [responseDims, hnot, hc, Vector.get]

theorem take_responseDims_plain {d : Descriptor} {a : ArrayPart} (hc : a.coeff = false)
    (h1 : 1 ≤ a.dimct) (h8 : a.dimct ≤ 8) :
    (responseDims d a).toList.take a.dimct.toNat =
      extent d a :: List.replicate (a.dimct.toNat - 1) 0 := by
  have hone : 1 ≤ a.dimct.toNat := h1
  have height : a.dimct.toNat ≤ 8 := h8
  apply List.ext_getElem
  · simp
    omega
  · intro i hi1 hi2
    have hi : i < a.dimct.toNat := by
      rw [List.length_take] at hi1
      omega
    have hnot : ¬ a.dimct.toNat ≤ i := by omega
    cases i with
    | zero => simp [responseDims, hc, hnot]
    | succ i => simp [responseDims, hc, hnot]

/-! ### The message of an answer -/

theorem getNbytes_eq {d : Descriptor} (hd : WellFormedDsc d) : getNbytes d = d.bytes.length := by
  unfold getNbytes numElements
  cases ha : d.array with
  | none =>
    simp only [Nat.one_mul]
    exact (hd.scalar ha).symm
  | some a =>
    obtain ⟨n, hn⟩ : ∃ n, a.arsize.toNat = n * d.length.toNat := by
      cases hc : a.coeff with
      | true => exact ⟨_, hd.coeff a ha hc⟩
      | false => exact hd.plain a ha hc
    rw [(hd.array a ha).1, hn]
    by_cases hzero : d.length = 0
    · simp [hzero]
    · have hpos : 0 < d.length.toNat :=
        Nat.pos_of_ne_zero fun h => hzero (BitVec.eq_of_toNat_eq h)
      simp only [if_neg hzero, hn, Nat.mul_div_cancel _ hpos]

theorem sendResponse_bytes (c : Responder) (status : BitVec 32) {d : Descriptor}
    (hd : WellFormedDsc d) (hcopied : d.dtype ∉ vaxFloats) :
    (sendResponse c status d).bytes = d.bytes := by
  have hcopy : convertIeee c d = d.bytes := by
    unfold convertIeee
    rw [if_neg hcopied, getNbytes_eq hd, List.take_length]
  unfold sendResponse
  cases ha : d.array with
  | none => exact hcopy
  | some a =>
    have hsize := (hd.array a ha).1
    dsimp only
    split
    · rw [← hsize, List.take_length]
    · exact hcopy

theorem sendResponse_msglen (c : Responder) (status : BitVec 32) {d : Descriptor}
    (hd : WellFormedDsc d) :
    (sendResponse c status d).h.msglen = BitVec.ofNat 32 (headerSize + d.bytes.length) := by
  unfold sendResponse
  cases ha : d.array with
  | none => simp only [getNbytes_eq hd]
  | some a =>
    have hsize := (hd.array a ha).1
    dsimp only
    split
    · rw [hsize]
    · simp only [getNbytes_eq hd]

theorem sendResponse_clientType (c : Responder) (status : BitVec 32) (d : Descriptor) :
    (sendResponse c status d).h.clientType = c.clientType := by
  unfold sendResponse
  split
  · rfl
  · split <;> rfl

theorem sendResponse_status (c : Responder) (status : BitVec 32) (d : Descriptor) :
    (sendResponse c status d).h.status = status := by
  unfold sendResponse
  split
  · rfl
  · split <;> rfl

theorem sendResponse_ndims {c : Responder} {status : BitVec 32} {d : Descriptor}
    (hd : WellFormedDsc d) : (sendResponse c status d).h.ndims ≤ 8 := by
  unfold sendResponse
  cases ha : d.array with
  | none =>
    change (0 : BitVec 8) ≤ 8
    decide
  | some a =>
    dsimp only
    split
    · change (1 : BitVec 8) ≤ 8
      decide
    · exact (hd.array a ha).2.2

/-- What the client reads from the header of an answer: the element size and the dimensions of
the descriptor, or something else. -/
def Reads (h : MsgHdr) (bytes : List Byte) (d : Descriptor) : Prop :=
  ∃ info, answerInfo ⟨h, bytes⟩ = .ok (some info) ∧ info.length = d.length ∧
    info.dims = extents d

theorem reads_of_ite {h : MsgHdr} {bytes : List Byte} {d : Descriptor} {p : Prop} [Decidable p]
    {status : BitVec 32} {dtype : BitVec 8}
    (hinfo : answerInfo ⟨h, bytes⟩ =
      .ok (if p then some ⟨status, dtype, d.length, extents d, bytes⟩ else none)) :
    Reads h bytes d ↔ p := by
  unfold Reads
  rw [hinfo]
  by_cases hp : p
  · rw [if_pos hp]
    exact iff_of_true ⟨_, rfl, rfl, rfl⟩ hp
  · rw [if_neg hp]
    refine iff_of_false ?_ hp
    rintro ⟨info, hnone, -⟩
    cases hnone

theorem reads_scalar {c : Responder} {status : BitVec 32} {d : Descriptor} {bytes : List Byte}
    (hd : WellFormedDsc d) (ha : d.array = none) :
    Reads (sendResponse c status d).h bytes d ↔ d.length.toNat < 2 ^ 15 := by
  have hlen := sendResponse_msglen c status hd
  have hscalar := hd.scalar ha
  have hheader : (sendResponse c status d).h.length = d.length ∧
      (sendResponse c status d).h.dims.toList.take (sendResponse c status d).h.ndims.toNat =
        [] := by
    unfold sendResponse
    rw [ha]
    exact ⟨rfl, rfl⟩
  rw [hscalar, ← Nat.one_mul d.length.toNat, ← hheader.1] at hlen
  have hfull := answerInfo_full bytes hlen
    (by rw [hheader.1]; omega) (by rw [hheader.2]; rfl)
  have hextents : extents d = [] := by
    unfold extents
    rw [ha]
  rw [hheader.1, hheader.2, ← hextents] at hfull
  rw [reads_of_ite hfull]
  simp

theorem reads_serial {c : Responder} {status : BitVec 32} {d : Descriptor} {bytes : List Byte}
    {a : ArrayPart} (hd : WellFormedDsc d) (hsize : headerSize + d.bytes.length < 2 ^ 31)
    (ha : d.array = some a) (hs : c.serial ∧ statusOk status) :
    Reads (sendResponse c status d).h bytes d ↔ d.length = 1 ∧ (a.coeff → a.dimct = 1) := by
  have hlen := sendResponse_msglen c status hd
  obtain ⟨harray, hone, height⟩ := hd.array a ha
  have hheader : (sendResponse c status d).h.length = 1 ∧
      (sendResponse c status d).h.dims.toList.take (sendResponse c status d).h.ndims.toNat =
        [a.arsize] := by
    unfold sendResponse
    rw [ha]
    dsimp only
    rw [if_pos hs]
    exact ⟨rfl, rfl⟩
  have hunit : (1 : BitVec 16).toNat = 1 := rfl
  rw [← Nat.mul_one d.bytes.length, ← hunit, ← hheader.1] at hlen
  have hfull := answerInfo_full bytes hlen
    (by rw [hheader.1, hunit]; omega) (by rw [hheader.2, harray]; simp [count])
  rw [hheader.1, hheader.2, if_pos (.inl (by decide))] at hfull
  have hextents : d.length = 1 → (extents d = [a.arsize] ↔ (a.coeff → a.dimct = 1)) := by
    intro hl
    unfold extents
    rw [ha]
    by_cases hc : a.coeff = true
    · have hcount := hd.coeff a ha hc
      simp only [hc, if_true, forall_const]
      constructor
      · intro htake
        have := congrArg List.length htake
        rw [List.length_take, Vector.length_toList] at this
        have height' : a.dimct.toNat ≤ 8 := height
        apply BitVec.eq_of_toNat_eq
        simp only [List.length_singleton] at this
        change a.dimct.toNat = 1
        omega
      · intro hdim
        rw [hdim, hl] at hcount
        rw [hdim]
        have htake : a.m.toList.take (1 : BitVec 8).toNat = [a.m.get 0] := by
          apply List.ext_getElem
          · simp
          · intro i h1 h2
            obtain rfl : i = 0 := by simpa using h2
            simp [Vector.get]
        rw [htake] at hcount ⊢
        congr 1
        apply BitVec.eq_of_toNat_eq
        rw [hcount]
        simp [count]
    · have hextent : extent d a = a.arsize := by
        unfold extent
        rw [hl, if_neg (by decide), hunit, Nat.div_one, BitVec.ofNat_toNat, BitVec.setWidth_eq]
      simp [hc, hextent]
  unfold Reads
  rw [hfull]
  constructor
  · rintro ⟨info, hinfo, hl, hdims⟩
    cases hinfo
    exact ⟨hl.symm, (hextents hl.symm).mp hdims.symm⟩
  · rintro ⟨hl, hdim⟩
    exact ⟨_, rfl, hl.symm, ((hextents hl).mpr hdim).symm⟩

theorem reads_coeff {c : Responder} {status : BitVec 32} {d : Descriptor} {bytes : List Byte}
    {a : ArrayPart} (hd : WellFormedDsc d) (hsize : headerSize + d.bytes.length < 2 ^ 31)
    (ha : d.array = some a) (hs : ¬ (c.serial ∧ statusOk status)) (hc : a.coeff = true) :
    Reads (sendResponse c status d).h bytes d ↔ d.length.toNat < 2 ^ 15 ∨ a.arsize = 0 := by
  have hlen := sendResponse_msglen c status hd
  have harray := (hd.array a ha).1
  have hcount := hd.coeff a ha hc
  have hheader : (sendResponse c status d).h.length = d.length ∧
      (sendResponse c status d).h.dims.toList.take (sendResponse c status d).h.ndims.toNat =
        extents d := by
    unfold sendResponse extents
    rw [ha]
    dsimp only
    rw [if_neg hs, if_pos hc]
    exact ⟨rfl, take_responseDims_coeff hc⟩
  have hextents : extents d = a.m.toList.take a.dimct.toNat := by
    unfold extents
    rw [ha]
    simp only [hc, if_true]
  rw [harray, hcount, ← hextents, ← hheader.1] at hlen
  have hfull := answerInfo_full bytes hlen
    (by rw [hheader.1, hextents, ← hcount, ← harray]; omega) (by rw [hheader.2])
  rw [hheader.1, hheader.2] at hfull
  have hzero : d.length.toNat < 2 ^ 15 ∨ count (extents d) = 0 ↔
      d.length.toNat < 2 ^ 15 ∨ a.arsize = 0 := by
    have harsize : a.arsize = 0 ↔ a.arsize.toNat = 0 :=
      ⟨fun h => by rw [h]; rfl, fun h => BitVec.eq_of_toNat_eq h⟩
    rw [harsize, hcount, hextents]
    constructor
    · rintro (h | h)
      · exact .inl h
      · exact .inr (by rw [h, Nat.zero_mul])
    · rintro (h | h)
      · exact .inl h
      · rcases Nat.mul_eq_zero.mp h with h | h
        · exact .inr h
        · exact .inl (by omega)
  rw [← hzero]
  exact reads_of_ite hfull

theorem extent_eq {d : Descriptor} {a : ArrayPart} {n : ℕ}
    (hn : a.arsize.toNat = n * d.length.toNat) (hzero : a.arsize ≠ 0) :
    extent d a = BitVec.ofNat 32 n ∧ n ≠ 0 ∧ (extent d a).toNat = n := by
  have hne : a.arsize.toNat ≠ 0 := fun h => hzero (BitVec.eq_of_toNat_eq h)
  have hpos : 0 < d.length.toNat := by
    by_contra h
    rw [Nat.eq_zero_of_not_pos h] at hn
    omega
  have hlen : d.length ≠ 0 := by
    intro h
    rw [h] at hpos
    exact absurd hpos (by decide)
  have hlt : n < 2 ^ 32 := by
    have := a.arsize.isLt
    have := Nat.le_mul_of_pos_right n hpos
    omega
  have he : extent d a = BitVec.ofNat 32 n := by
    unfold extent
    rw [if_neg hlen, hn, Nat.mul_div_cancel _ hpos]
  refine ⟨he, ?_, ?_⟩
  · rintro rfl
    omega
  · rw [he, BitVec.toNat_ofNat, Nat.mod_eq_of_lt hlt]

theorem plain_header {c : Responder} {status : BitVec 32} {d : Descriptor} {a : ArrayPart}
    (hd : WellFormedDsc d) (ha : d.array = some a) (hs : ¬ (c.serial ∧ statusOk status))
    (hc : a.coeff = false) :
    (sendResponse c status d).h.length = d.length ∧
      (sendResponse c status d).h.dims.toList.take (sendResponse c status d).h.ndims.toNat =
        extent d a :: List.replicate (a.dimct.toNat - 1) 0 ∧ extents d = [extent d a] := by
  obtain ⟨-, hone, height⟩ := hd.array a ha
  unfold sendResponse extents
  rw [ha]
  dsimp only
  rw [if_neg hs]
  refine ⟨rfl, take_responseDims_plain hc hone height, ?_⟩
  simp [hc]

theorem reads_plain_empty {c : Responder} {status : BitVec 32} {d : Descriptor}
    {bytes : List Byte} {a : ArrayPart} (hd : WellFormedDsc d) (ha : d.array = some a)
    (hs : ¬ (c.serial ∧ statusOk status)) (hc : a.coeff = false) (hzero : a.arsize = 0) :
    Reads (sendResponse c status d).h bytes d ↔ a.dimct.toNat = 1 := by
  have hlen := sendResponse_msglen c status hd
  obtain ⟨harray, hone, -⟩ := hd.array a ha
  obtain ⟨hl, hdims, hextents⟩ := plain_header hd ha hs hc
  have hpos : 1 ≤ a.dimct.toNat := hone
  have hext : extent d a = 0 := by
    unfold extent
    rw [hzero]
    simp
  have hcount : 0 = count ((sendResponse c status d).h.dims.toList.take
      (sendResponse c status d).h.ndims.toNat) := by
    rw [hdims, hext]
    simp [count]
  have hnone : (sendResponse c status d).h.msglen =
      BitVec.ofNat 32 (headerSize + 0 * (sendResponse c status d).h.length.toNat) := by
    rw [hlen, harray, hzero]
    simp
  have hfull := answerInfo_full bytes hnone (by omega) hcount
  rw [if_pos (.inr rfl), hl, hdims, hext] at hfull
  unfold Reads
  rw [hfull, hextents, hext]
  constructor
  · rintro ⟨info, hinfo, -, hdims⟩
    cases hinfo
    have := congrArg List.length hdims
    simp only [List.length_cons, List.length_replicate, List.length_nil] at this
    omega
  · intro h
    exact ⟨_, rfl, rfl, by simp [h]⟩

theorem reads_plain_data {c : Responder} {status : BitVec 32} {d : Descriptor}
    {bytes : List Byte} {a : ArrayPart} (hd : WellFormedDsc d)
    (hsize : headerSize + d.bytes.length < 2 ^ 31) (ha : d.array = some a)
    (hs : ¬ (c.serial ∧ statusOk status)) (hc : a.coeff = false) (hdata : a.arsize ≠ 0) :
    Reads (sendResponse c status d).h bytes d ↔
      d.length.toNat < 2 ^ 15 ∧ (a.dimct.toNat = 1 ∨ 3 ≤ a.dimct.toNat) := by
  have hlen := sendResponse_msglen c status hd
  obtain ⟨harray, hone, -⟩ := hd.array a ha
  obtain ⟨n, hn⟩ := hd.plain a ha hc
  obtain ⟨hl, hdims, hextents⟩ := plain_header hd ha hs hc
  obtain ⟨hext, hn0, hextNat⟩ := extent_eq hn hdata
  have hpos : 1 ≤ a.dimct.toNat := hone
  have hmul := signExtend_mul_eq d.length n (by omega)
  rw [← hext, or_iff_left hn0] at hmul
  rw [harray, hn, ← hl] at hlen
  have hne : BitVec.ofNat 32 (n * d.length.toNat) ≠ 0 := by
    rwa [← hn, BitVec.ofNat_toNat, BitVec.setWidth_eq]
  have hextne : ∀ e ∈ [extent d a], e ≠ 0 := by
    intro e he h
    obtain rfl := List.mem_singleton.mp he
    rw [h] at hextNat
    exact hn0 (by rw [← hextNat]; rfl)
  have hread := readDims_append (List.replicate (a.dimct.toNat - 1) 0) (d.length.signExtend 32)
    (show BitVec.ofNat 32 (n * d.length.toNat) = 0 ∨ _ from .inr hextne)
  have hprod : [extent d a].foldl (· * ·) 1 = extent d a := BitVec.one_mul _
  rw [List.singleton_append, hprod] at hread
  have hinfo : answerInfo ⟨(sendResponse c status d).h, bytes⟩ =
      (readDims (BitVec.ofNat 32 (n * d.length.toNat))
        (extent d a :: List.replicate (a.dimct.toNat - 1) 0) (d.length.signExtend 32)).map
        fun p =>
          if p.2 = BitVec.ofNat 32 (n * d.length.toNat) then
            some ⟨(sendResponse c status d).h.status, (sendResponse c status d).h.dtype,
              d.length, p.1, bytes⟩
          else none := by
    unfold answerInfo
    simp only [datalen_eq hlen, hl, hdims]
  rw [hread] at hinfo
  rcases Nat.lt_or_ge a.dimct.toNat 2 with hdim | hdim
  · have hone : a.dimct.toNat = 1 := by omega
    rw [hone] at hinfo
    have hite := reads_of_ite (d := d) (by rw [hextents]; exact hinfo)
    rw [hite, hmul]
    simp [hone]
  · obtain ⟨k, hk⟩ := Nat.exists_eq_add_of_le' hdim
    have hmore : List.replicate (a.dimct.toNat - 1) (0 : BitVec 32) =
        0 :: List.replicate k 0 := by
      rw [hk]
      rfl
    rw [hmore] at hinfo
    by_cases hx : d.length.signExtend 32 * extent d a = BitVec.ofNat 32 (n * d.length.toNat)
    · have hsmall := hmul.mp hx
      rw [readDims_zero hne hx] at hinfo
      simp only [Except.map, hx, if_true] at hinfo
      unfold Reads
      rw [hinfo, hextents]
      constructor
      · rintro ⟨info, hinfo, -, hdims⟩
        cases hinfo
        refine ⟨hsmall, .inr ?_⟩
        cases k with
        | zero => simp at hdims
        | succ k => omega
      · rintro ⟨-, hor⟩
        refine ⟨_, rfl, rfl, ?_⟩
        have : k ≠ 0 := by omega
        simp [this]
    · refine iff_of_false ?_ fun h => hx (hmul.mpr h.1)
      rintro ⟨info, hsome, -⟩
      rw [hsome] at hinfo
      cases hr : readDims (BitVec.ofNat 32 (n * d.length.toNat)) (0 :: List.replicate k 0)
          (d.length.signExtend 32 * extent d a) with
      | error stop =>
        rw [hr] at hinfo
        cases hinfo
      | ok p =>
        rw [hr] at hinfo
        simp only [Except.map, readDims_zero_ne hne hx hr, if_false] at hinfo
        cases hinfo

theorem reads_iff (bytes : List Byte) {c : Responder} {status : BitVec 32} {d : Descriptor}
    (hd : WellFormedDsc d) (hsize : headerSize + d.bytes.length < 2 ^ 31) :
    Reads (sendResponse c status d).h bytes d ↔ HeaderHolds c status d := by
  unfold HeaderHolds
  cases ha : d.array with
  | none => exact reads_scalar hd ha
  | some a =>
    dsimp only
    split
    · rename_i hs
      exact reads_serial hd hsize ha hs
    · rename_i hs
      cases hc : a.coeff with
      | true =>
        rw [reads_coeff hd hsize ha hs hc]
        simp
      | false =>
        have hone : a.dimct = 1 ↔ a.dimct.toNat = 1 :=
          ⟨fun h => by rw [h]; rfl, fun h => BitVec.eq_of_toNat_eq h⟩
        have hthree : (3 : BitVec 8) ≤ a.dimct ↔ 3 ≤ a.dimct.toNat := Iff.rfl
        rw [hone, hthree]
        by_cases hzero : a.arsize = 0
        · rw [reads_plain_empty hd ha hs hc hzero]
          simp [hzero]
        · rw [reads_plain_data hd hsize ha hs hc hzero]
          simp only [hzero, or_false, ne_eq, not_false_eq_true, and_true, forall_const]

/-! ### From the server to the client -/

/-- The data of an answer in the order of the client. -/
def answerBytes (s : Sender) (r : Receiver) (c : Responder) (status : BitVec 32) (d : Descriptor) :
    List Byte :=
  if s.big = r.big then d.bytes else (flipped ⟨(sendResponse c status d).h, d.bytes⟩).bytes

/-- The answer is sent, and the client gets status, element size, dimensions and data, however
the transport cuts the bytes into chunks. -/
def Answered (s : Sender) (r : Receiver) (c : Responder) (status : BitVec 32) (d : Descriptor) :
    Prop :=
  ∃ wire, sendMdsMsgC s (sendResponse c status d) = some wire ∧
    ∀ stream pos answers, window stream pos wire.length = wire → Chunks answers →
      wire.length ≤ answers.length →
      ∃ info rest,
        getAnswerInfoTO r stream pos answers =
            .ok ⟨status.toInt, some info, false, wire.length, rest⟩ ∧
          info.status = status ∧ info.length = d.length ∧ info.dims = extents d ∧
          info.bytes = answerBytes s r c status d

/-- What it takes for an answer to reach the client as it is. -/
structure Reaches (s : Sender) (r : Receiver) (c : Responder) (status : BitVec 32)
    (d : Descriptor) : Prop where
  header : HeaderHolds c status d
  size : headerSize + d.bytes.length < 2 ^ 31
  buffer : deflates s (sendResponse c status d).h → headerSize + d.bytes.length + 4 < 2 ^ 31
  swapped : doSwap s (sendResponse c status d).h → Fits (sendResponse c status d)
  through : ComesThrough s r (sendResponse c status d)

theorem msglen_toNat (c : Responder) (status : BitVec 32) {d : Descriptor}
    (hd : WellFormedDsc d) (hsize : headerSize + d.bytes.length < 2 ^ 31) :
    (sendResponse c status d).h.msglen.toNat = headerSize + d.bytes.length := by
  rw [sendResponse_msglen c status hd, BitVec.toNat_ofNat, Nat.mod_eq_of_lt (by omega)]

theorem wellFormed_sendResponse {c : Responder} (status : BitVec 32) {d : Descriptor}
    (hc : cType c.clientType = ieeeClient)
    (hplain : swaps c.clientType → isCompressed c.clientType = false)
    (hd : WellFormedDsc d) (hcopied : d.dtype ∉ vaxFloats)
    (hsize : headerSize + d.bytes.length < 2 ^ 31) :
    WellFormed (sendResponse c status d) := by
  have hlen := msglen_toNat c status hd hsize
  refine ⟨?_, ?_, sendResponse_ndims hd, ?_, ?_⟩
  · rw [sendResponse_bytes c status hd hcopied, hlen]
  · rw [hlen]
    exact hsize
  · intro _
    rw [sendResponse_clientType, hc]
    decide
  · rw [sendResponse_clientType]
    exact hplain

theorem size_of_sent {s : Sender} {c : Responder} {status : BitVec 32} {d : Descriptor}
    {wire : List Byte} (hd : WellFormedDsc d)
    (hsent : sendMdsMsgC s (sendResponse c status d) = some wire) :
    headerSize + d.bytes.length < 2 ^ 31 ∧
      (deflates s (sendResponse c status d).h → headerSize + d.bytes.length + 4 < 2 ^ 31) := by
  have hlt : d.bytes.length < 2 ^ 32 := by
    cases ha : d.array with
    | none =>
      rw [hd.scalar ha]
      have := d.length.isLt
      omega
    | some a =>
      rw [(hd.array a ha).1]
      exact a.arsize.isLt
  have hnot : ¬ Oversized s (sendResponse c status d).h := by
    intro hover
    unfold sendMdsMsgC at hsent
    rw [if_pos hover] at hsent
    cases hsent
  have hlen : (sendResponse c status d).h.msglen.toNat =
      (headerSize + d.bytes.length) % 2 ^ 32 := by
    rw [sendResponse_msglen c status hd, BitVec.toNat_ofNat]
  unfold Oversized at hnot
  rw [hlen] at hnot
  unfold headerSize at hnot ⊢
  have hsize : 48 + d.bytes.length < 2 ^ 31 := by omega
  refine ⟨hsize, ?_⟩
  intro hdefl
  by_contra hge
  exact hnot (.inr (.inr ⟨hdefl, by omega⟩))

theorem sendMdsMsgC_isSome {s : Sender} {m : Message} (hover : ¬ Oversized s m.h)
    (hfits : doSwap s m.h → Fits m) : ∃ wire, sendMdsMsgC s m = some wire := by
  have hbody : ∃ bytes, bodyToSend s m = some bytes := by
    unfold bodyToSend
    by_cases hd : doSwap s m.h
    · have hf : Fits ⟨stamped s m.h, m.bytes⟩ := hfits hd
      rw [if_pos hd]
      unfold flipData
      rw [if_pos hf]
      exact ⟨_, rfl⟩
    · rw [if_neg hd]
      exact ⟨_, rfl⟩
  obtain ⟨bytes, hbytes⟩ := hbody
  unfold sendMdsMsgC
  rw [if_neg hover, hbytes]
  exact ⟨_, rfl⟩

theorem answerInfo_stamped {s : Sender} {m : Message} {h : MsgHdr} {bytes : List Byte}
    (hcap : m.h.clientType ≠ sendCapabilities)
    (hh : h ∈ [stamped s m.h, flagged (stamped s m.h)]) :
    answerInfo ⟨h, bytes⟩ = answerInfo ⟨m.h, bytes⟩ := by
  have hstatus : (stamped s m.h).status = m.h.status := by
    unfold stamped
    simp only [hcap, if_false]
  have hfields : h.msglen = m.h.msglen ∧ h.status = m.h.status ∧ h.length = m.h.length ∧
      h.dtype = m.h.dtype ∧ h.ndims = m.h.ndims ∧ h.dims = m.h.dims := by
    rcases List.mem_pair.mp hh with rfl | rfl
    · exact ⟨rfl, hstatus, rfl, rfl, rfl, rfl⟩
    · exact ⟨rfl, hstatus, rfl, rfl, rfl, rfl⟩
  obtain ⟨hm, hs, hl, ht, hn, hd⟩ := hfields
  unfold answerInfo
  simp only [hm, hs, hl, ht, hn, hd]

theorem answerInfo_fields {m : Message} {info : AnswerInfo}
    (h : answerInfo m = .ok (some info)) : info.status = m.h.status ∧ info.bytes = m.bytes := by
  unfold answerInfo at h
  dsimp only at h
  cases hr : readDims (m.h.msglen - 48) (m.h.dims.toList.take m.h.ndims.toNat)
      (m.h.length.signExtend 32) with
  | error stop =>
    rw [hr] at h
    cases h
  | ok p =>
    rw [hr] at h
    simp only [Except.map] at h
    split at h
    · cases h
      exact ⟨rfl, rfl⟩
    · cases h

theorem getAnswerInfoTO_of_good {r : Receiver} {stream : ℕ → Byte} {pos taken : ℕ}
    {answers rest : List Recv} {status : Status} {m : Message} (hgood : status ∈ [mdsplusSuccess, 1])
    (hget : getMdsMsgTOC r stream pos answers = .ok ⟨status, some m, taken, rest⟩) :
    getAnswerInfoTO r stream pos answers = (answerInfo m).map fun info =>
      match info with
      | none => ⟨mdsplusError, none, false, taken, rest⟩
      | some info => ⟨info.status.toInt, some info, false, taken, rest⟩ := by
  have hok : isOk (outward status) := by
    rcases List.mem_pair.mp hgood with rfl | rfl <;> decide
  unfold getAnswerInfoTO
  rw [hget]
  simp only [hok, if_true]
  rfl

theorem isOk_of_info {r : Receiver} {stream : ℕ → Byte} {pos : ℕ} {answers : List Recv}
    {x : Handed AnswerInfo} {info : AnswerInfo} (h : getAnswerInfoTO r stream pos answers = .ok x)
    (hinfo : x.value = some info) :
    ∃ received, getMdsMsgTOC r stream pos answers = .ok received ∧ isOk received.status := by
  unfold getAnswerInfoTO at h
  cases hget : getMdsMsgTOC r stream pos answers with
  | error stop =>
    rw [hget] at h
    cases h
  | ok received =>
    refine ⟨received, rfl, ?_⟩
    rw [hget] at h
    by_contra hbad
    have hout : ¬ isOk (outward received.status) := by
      unfold outward
      split
      · decide
      · exact hbad
    simp only [hout, Bool.false_eq_true, if_false] at h
    cases h
    cases hinfo

section

variable {s : Sender} {r : Receiver} {c : Responder} {status : BitVec 32} {d : Descriptor}
  (hz : Zlib s.compress2 r.uncompress) (hc : cType c.clientType = ieeeClient)
  (hplain : swaps c.clientType → isCompressed c.clientType = false)
  (hd : WellFormedDsc d) (hcopied : d.dtype ∉ vaxFloats)

include hc in
theorem ne_sendCapabilities : (sendResponse c status d).h.clientType ≠ sendCapabilities := by
  rw [sendResponse_clientType]
  intro h
  rw [h] at hc
  exact absurd hc (by decide)

include hz hc hplain hd hcopied

theorem reaches_of_answered (h : Answered s r c status d) : Reaches s r c status d := by
  obtain ⟨wire, hsent, hall⟩ := h
  obtain ⟨hsize, hbuffer⟩ := size_of_sent hd hsent
  have hm := wellFormed_sendResponse status hc hplain hd hcopied hsize
  have henough := (byteByByte_length wire.length).ge
  obtain ⟨info, rest, hinfo, -, hlength, hdims, -⟩ := hall _ 0 _ (window_startingWith wire)
    (chunks_byteByByte wire.length) henough
  rcases received_sent hz hm hsent (window_startingWith wire)
    (chunks_byteByByte wire.length) henough with
    ⟨hthrough, status', h, rest', hget, hgood, hh⟩ | ⟨-, hbad⟩
  · refine ⟨?_, hsize, hbuffer, (sendMdsMsgC_eq_some hsent).2, hthrough⟩
    apply (reads_iff (arrivingBody s r (sendResponse c status d)) hd hsize).mp
    rw [getAnswerInfoTO_of_good hgood hget, answerInfo_stamped (ne_sendCapabilities hc) hh] at hinfo
    cases hread : answerInfo ⟨(sendResponse c status d).h,
        arrivingBody s r (sendResponse c status d)⟩ with
    | error stop =>
      rw [hread] at hinfo
      cases hinfo
    | ok o =>
      rw [hread] at hinfo
      cases o with
      | none => simp [Except.map] at hinfo
      | some found =>
        simp only [Except.map, Except.ok.injEq, Handed.mk.injEq, Option.some.injEq] at hinfo
        obtain ⟨-, rfl, -⟩ := hinfo
        exact ⟨_, hread, hlength, hdims⟩
  · obtain ⟨received, hget, hok⟩ := isOk_of_info hinfo rfl
    exact absurd hok (hbad received hget)

theorem answered_of_reaches (h : Reaches s r c status d) : Answered s r c status d := by
  obtain ⟨hheader, hsize, hbuffer, hswapped, hthrough⟩ := h
  have hm := wellFormed_sendResponse status hc hplain hd hcopied hsize
  have hover : ¬ Oversized s (sendResponse c status d).h := by
    have hlen := msglen_toNat c status hd hsize
    unfold Oversized
    rw [hlen]
    rintro (h | h | ⟨hdefl, h⟩)
    · omega
    · omega
    · have := hbuffer hdefl
      omega
  obtain ⟨wire, hsent⟩ := sendMdsMsgC_isSome hover hswapped
  refine ⟨wire, hsent, ?_⟩
  intro stream pos answers hcarried hchunks henough
  rcases received_sent hz hm hsent hcarried hchunks henough with
    ⟨-, status', h, rest, hget, hgood, hh⟩ | ⟨hnot, -⟩
  · obtain ⟨info, hread, hlength, hdims⟩ :=
      (reads_iff (arrivingBody s r (sendResponse c status d)) hd hsize).mpr hheader
    obtain ⟨hstatus, hbytes⟩ := answerInfo_fields hread
    refine ⟨info, rest, ?_, ?_, hlength, hdims, ?_⟩
    · rw [getAnswerInfoTO_of_good hgood hget, answerInfo_stamped (ne_sendCapabilities hc) hh,
        hread]
      simp only [Except.map, hstatus, sendResponse_status]
    · rw [hstatus, sendResponse_status]
    · rw [hbytes]
      have hsame := sendResponse_bytes c status hd hcopied
      change arrivingBody s r (sendResponse c status d) = answerBytes s r c status d
      unfold arrivingBody answerBytes
      rw [hsame, ← hsame]
  · exact absurd hthrough hnot

/-- An answer that is copied without float conversion reaches an IEEE client as it is exactly
when the header holds its element size and dimensions, its size is that of a message, and the
message comes through. -/
theorem answered_iff : Answered s r c status d ↔ Reaches s r c status d :=
  ⟨reaches_of_answered hz hc hplain hd hcopied, answered_of_reaches hz hc hplain hd hcopied⟩

end

/-! ### Answers of fixed size -/

/-- A connection of a little-endian IEEE client that asked for data, not for serialized bytes. -/
def ieeeResponder : Responder := ⟨ieeeClient, 1, false, fun _ _ bytes => bytes⟩

def text (n : ℕ) : Descriptor := ⟨BitVec.ofNat 16 n, dtypeCstring, none, List.replicate n 0⟩

def plainSender : Sender := ⟨false, fun _ _ _ => none, 0⟩

def plainReceiver : Receiver := ⟨false, fun _ _ => none, fun _ => 0, []⟩

theorem wellFormed_text {n : ℕ} (h : n < 2 ^ 16) : WellFormedDsc (text n) := by
  refine ⟨?_, nofun, nofun, nofun⟩
  intro _
  simp only [text, List.length_replicate, BitVec.toNat_ofNat]
  omega

theorem answered_text : Answered (deflating (zeros 100).bytes hundredZeros)
    (inflating (zeros 100).bytes hundredZeros) ieeeResponder 1 (text 100) := by
  refine (answered_iff (zlib_only _ _) (by decide) (by decide) (wellFormed_text (by decide))
    (by decide)).mpr ⟨?_, by decide, by decide, by decide, ⟨by decide, ?_⟩⟩
  · change (BitVec.ofNat 16 100).toNat < 2 ^ 15
    decide
  intro z hz
  have hsame : deflated (deflating (zeros 100).bytes hundredZeros)
      (sendResponse ieeeResponder 1 (text 100)).h
      (wireBody (deflating (zeros 100).bytes hundredZeros)
        (sendResponse ieeeResponder 1 (text 100))) = some hundredZeros := by decide
  rw [hsame] at hz
  cases hz
  decide

theorem zlib_none : Zlib plainSender.compress2 plainReceiver.uncompress :=
  ⟨nofun, nofun, nofun, nofun⟩

/-- The size of a string of 32768 bytes is negative in the header. -/
theorem longText_lost :
    ¬ ∀ d, WellFormedDsc d → d.dtype ∉ vaxFloats →
      Answered plainSender plainReceiver ieeeResponder 1 d := by
  intro hall
  have hd : WellFormedDsc (text 32768) := wellFormed_text (by decide)
  have hcopied : (text 32768).dtype ∉ vaxFloats := by
    change dtypeCstring ∉ vaxFloats
    decide
  have hreaches := reaches_of_answered zlib_none (by decide) (by decide) hd hcopied
    (hall _ hd hcopied)
  have hlength : (BitVec.ofNat 16 32768).toNat < 2 ^ 15 := hreaches.header
  exact absurd hlength (by decide)

end MdsPlus.Responses
