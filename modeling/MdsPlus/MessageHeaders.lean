import MdsPlus.Codec

/-!
Headers of mdsip messages in the memory of hosts of either byte order. A header is
48 bytes; flipping reverses the bytes of its wide fields, which reads it on a host
of the other order.
-/

namespace MdsPlus.MessageHeaders

open BitMemory Codec

/-- Byte order of a host: the `BigEndian` bit of its client type. -/
abbrev Big := Bool

structure MsgHdr where
  msglen : BitVec 32
  status : BitVec 32
  length : BitVec 16
  nargs : BitVec 8
  descriptorIdx : BitVec 8
  messageId : BitVec 8
  dtype : BitVec 8
  clientType : BitVec 8
  ndims : BitVec 8
  dims : Vector (BitVec 32) 8
deriving DecidableEq

structure Message where
  h : MsgHdr
  bytes : List Byte
deriving DecidableEq

def headerSize : ℕ := 48

theorem dims_pos : 0 < 8 := by decide

/-! ### Client types -/

def ieeeClient : BitVec 8 := 2
def javaClient : BitVec 8 := 3
def crayClient : BitVec 8 := 8
def sendCapabilities : BitVec 8 := 0x0f
def bigEndian : BitVec 8 := 0x80
def swapEndianOnServer : BitVec 8 := 0x40
def compressedFlag : BitVec 8 := 0x20

def endian (c : BitVec 8) : Big := (c &&& bigEndian) != 0
def cType (c : BitVec 8) : BitVec 8 := c &&& 0x0f
def isCompressed (c : BitVec 8) : Bool := (c &&& compressedFlag) != 0
def swaps (c : BitVec 8) : Bool := (c &&& swapEndianOnServer) != 0

def clientType (host : Big) : BitVec 8 := if host then bigEndian ||| ieeeClient else ieeeClient

theorem endian_clientType (host : Big) : endian (clientType host) = host := by
  cases host <;> decide

theorem cType_clientType (host : Big) : cType (clientType host) = ieeeClient := by
  cases host <;> decide

theorem isCompressed_clientType (host : Big) : isCompressed (clientType host) = false := by
  cases host <;> decide

theorem endian_or_compressed (c : BitVec 8) : endian (c ||| compressedFlag) = endian c := by
  revert c
  decide

theorem cType_or_compressed (c : BitVec 8) : cType (c ||| compressedFlag) = cType c := by
  revert c
  decide

theorem isCompressed_or_compressed (c : BitVec 8) : isCompressed (c ||| compressedFlag) = true := by
  revert c
  decide

/-! ### Flipping bytes -/

theorem natBytes_natOf (bytes : List Byte) : natBytes bytes.length (natOf bytes) = bytes := by
  induction bytes with
  | nil => rfl
  | cons b bs ih =>
    have hlow : BitVec.ofNat 8 (b.toNat + 256 * natOf bs) = b := by
      apply BitVec.eq_of_toNat_eq
      have := b.isLt
      simp only [BitVec.toNat_ofNat]
      omega
    have hhigh : (b.toNat + 256 * natOf bs) / 256 = natOf bs := by
      have := b.isLt
      omega
    rw [List.length_cons, natOf, natBytes, hlow, hhigh, ih]

theorem natOf_lt (bytes : List Byte) : natOf bytes < 256 ^ bytes.length := by
  induction bytes with
  | nil => simp [natOf]
  | cons b bs ih =>
    have hb := b.isLt
    rw [natOf, List.length_cons, Nat.pow_succ]
    omega

theorem int_encode_decode (n : ℕ) (bytes : List Byte) (h : bytes.length = n) :
    (int n).encode ((int n).decode bytes) = bytes := by
  subst h
  have hlt : natOf bytes < 2 ^ (8 * bytes.length) := by
    rw [Nat.pow_mul]
    exact natOf_lt bytes
  change natBytes bytes.length (BitVec.ofNat (8 * bytes.length) (natOf bytes)).toNat = bytes
  rw [BitVec.toNat_ofNat, Nat.mod_eq_of_lt hlt, natBytes_natOf]

def flipInt (n : ℕ) (v : BitVec (8 * n)) : BitVec (8 * n) :=
  (int n).decode ((int n).encode v).reverse

@[simp] theorem flipInt_flipInt (n : ℕ) (v : BitVec (8 * n)) : flipInt n (flipInt n v) = v := by
  unfold flipInt
  rw [int_encode_decode, List.reverse_reverse, Format.decode_encode]
  rw [List.length_reverse]
  exact (int n).length_encode v

def flip16 (v : BitVec 16) : BitVec 16 := flipInt 2 v
def flip32 (v : BitVec 32) : BitVec 32 := flipInt 4 v

@[simp] theorem flip16_flip16 (v : BitVec 16) : flip16 (flip16 v) = v := flipInt_flipInt 2 v
@[simp] theorem flip32_flip32 (v : BitVec 32) : flip32 (flip32 v) = v := flipInt_flipInt 4 v

/-- `FlipHeader`: the wide fields with their bytes reversed. -/
def flipHeader (h : MsgHdr) : MsgHdr :=
  { h with
    msglen := flip32 h.msglen
    status := flip32 h.status
    length := flip16 h.length
    dims := h.dims.map flip32 }

@[simp] theorem flipHeader_flipHeader (h : MsgHdr) : flipHeader (flipHeader h) = h := by
  have hdims : (h.dims.map flip32).map flip32 = h.dims := by
    apply Vector.ext
    intro i hi
    simp only [Vector.getElem_map, flip32_flip32]
  simp only [flipHeader, flip32_flip32, flip16_flip16, hdims]

@[simp] theorem flipHeader_clientType (h : MsgHdr) : (flipHeader h).clientType = h.clientType := rfl
@[simp] theorem flipHeader_ndims (h : MsgHdr) : (flipHeader h).ndims = h.ndims := rfl
@[simp] theorem flipHeader_msglen (h : MsgHdr) : (flipHeader h).msglen = flip32 h.msglen := rfl

/-! ### Memory images -/

def headerParts : MsgHdr ≃ BitVec 32 × BitVec 32 × BitVec 16 × BitVec 8 × BitVec 8 × BitVec 8 ×
    BitVec 8 × BitVec 8 × BitVec 8 × Vector (BitVec 32) 8 where
  toFun h := (h.msglen, h.status, h.length, h.nargs, h.descriptorIdx, h.messageId, h.dtype,
    h.clientType, h.ndims, h.dims)
  invFun p := ⟨p.1, p.2.1, p.2.2.1, p.2.2.2.1, p.2.2.2.2.1, p.2.2.2.2.2.1, p.2.2.2.2.2.2.1,
    p.2.2.2.2.2.2.2.1, p.2.2.2.2.2.2.2.2.1, p.2.2.2.2.2.2.2.2.2⟩
  left_inv _ := rfl
  right_inv _ := rfl

def headerFormat : Format MsgHdr :=
  view (pair int32 <| pair int32 <| pair int16 <| pair int8 <| pair int8 <| pair int8 <|
    pair int8 <| pair int8 <| pair int8 <| table int32 8) headerParts

/-- `x` as a host keeps it, given the image on a little-endian host and the flip of its bytes. -/
def onHost {α : Type} (flip : α → α) (host : Big) (x : α) : α := if host then flip x else x

def headerImage (host : Big) (h : MsgHdr) : List Byte :=
  headerFormat.encode (onHost flipHeader host h)

def readHeader (host : Big) (bytes : List Byte) : MsgHdr :=
  onHost flipHeader host (headerFormat.decode bytes)

def intImage (host : Big) (v : BitVec 32) : List Byte := int32.encode (onHost flip32 host v)

def readInt (host : Big) (bytes : List Byte) : BitVec 32 := onHost flip32 host (int32.decode bytes)

@[simp] theorem headerImage_length (host : Big) (h : MsgHdr) :
    (headerImage host h).length = headerSize := headerFormat.length_encode _

@[simp] theorem intImage_length (host : Big) (v : BitVec 32) : (intImage host v).length = 4 :=
  int32.length_encode _

theorem readHeader_headerImage (writer reader : Big) (h : MsgHdr) :
    readHeader reader (headerImage writer h) = if writer = reader then h else flipHeader h := by
  unfold readHeader headerImage
  rw [Format.decode_encode]
  cases writer <;> cases reader <;> simp [onHost]

theorem readInt_intImage (writer reader : Big) (v : BitVec 32) :
    readInt reader (intImage writer v) = if writer = reader then v else flip32 v := by
  unfold readInt intImage
  rw [Format.decode_encode]
  cases writer <;> cases reader <;> simp [onHost]

end MdsPlus.MessageHeaders
