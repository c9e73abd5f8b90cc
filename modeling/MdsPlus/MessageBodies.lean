import MdsPlus.MessageHeaders

/-!
Flipping the elements of a message body. The header gives the number and the size of
the elements; each one has its bytes reversed in place, the two halves of a complex
number apart. Elements that do not fit the body are outside the memory of the message.
-/

namespace MdsPlus.MessageBodies

open BitMemory MessageHeaders

def dtypeUshort : BitVec 8 := 3
def dtypeUlong : BitVec 8 := 4
def dtypeUlonglong : BitVec 8 := 5
def dtypeShort : BitVec 8 := 7
def dtypeLong : BitVec 8 := 8
def dtypeLonglong : BitVec 8 := 9
def dtypeFloat : BitVec 8 := 10
def dtypeDouble : BitVec 8 := 11
def dtypeComplex : BitVec 8 := 12
def dtypeComplexDouble : BitVec 8 := 13
def dtypeCstring : BitVec 8 := 14
def dtypeSerial : BitVec 8 := 24

def elements (h : MsgHdr) : BitVec 32 := (h.dims.toList.take h.ndims.toNat).foldl (· * ·) 1

/-- Number and size of the byte runs that `FlipData` reverses. -/
def flipRuns (h : MsgHdr) : ℕ × ℕ :=
  if h.dtype = dtypeComplex ∨ h.dtype = dtypeComplexDouble then
    ((elements h * 2).toInt.toNat, h.length.toInt.toNat / 2)
  else if h.dtype ∈ [dtypeFloat, dtypeDouble, dtypeLonglong, dtypeUlonglong, dtypeUshort,
      dtypeShort, dtypeUlong, dtypeLong] then
    ((elements h).toInt.toNat, h.length.toInt.toNat)
  else (0, 0)

/-- Reverse `n` consecutive runs of `len` bytes. -/
def flipEach (len : ℕ) : ℕ → List Byte → List Byte
  | 0, bytes => bytes
  | n + 1, bytes => (bytes.take len).reverse ++ flipEach len n (bytes.drop len)

/-- Every element that the header announces lies in the body. -/
def Fits (m : Message) : Prop := (flipRuns m.h).1 * (flipRuns m.h).2 ≤ m.bytes.length

instance (m : Message) : Decidable (Fits m) :=
  inferInstanceAs (Decidable ((flipRuns m.h).1 * (flipRuns m.h).2 ≤ m.bytes.length))

def flipped (m : Message) : Message :=
  { m with bytes := flipEach (flipRuns m.h).2 (flipRuns m.h).1 m.bytes }

/-- `FlipData`; elements outside the body are not the memory of the message. -/
def flipData (m : Message) : Option Message := if Fits m then some (flipped m) else none

theorem flipEach_length (len n : ℕ) (bytes : List Byte) :
    (flipEach len n bytes).length = bytes.length := by
  induction n generalizing bytes with
  | zero => rfl
  | succ n ih =>
    simp only [flipEach, List.length_append, List.length_reverse, List.length_take, ih,
      List.length_drop]
    omega

theorem flipEach_flipEach (len n : ℕ) (bytes : List Byte) (h : n * len ≤ bytes.length) :
    flipEach len n (flipEach len n bytes) = bytes := by
  induction n generalizing bytes with
  | zero => rfl
  | succ n ih =>
    have hlen : len ≤ bytes.length := le_trans (Nat.le_mul_of_pos_left len n.succ_pos) h
    have hrest : n * len ≤ (bytes.drop len).length := by
      rw [Nat.succ_mul] at h
      rw [List.length_drop]
      omega
    have hfirst : (bytes.take len).reverse.length = len := by
      rw [List.length_reverse, List.length_take, Nat.min_eq_left hlen]
    have htake : (flipEach len (n + 1) bytes).take len = (bytes.take len).reverse := by
      rw [flipEach, List.take_left' hfirst]
    have hdrop : (flipEach len (n + 1) bytes).drop len = flipEach len n (bytes.drop len) := by
      rw [flipEach, List.drop_left' hfirst]
    calc flipEach len (n + 1) (flipEach len (n + 1) bytes)
        = bytes.take len ++ flipEach len n (flipEach len n (bytes.drop len)) := by
          rw [flipEach, htake, hdrop, List.reverse_reverse]
      _ = bytes := by rw [ih _ hrest, List.take_append_drop]

@[simp] theorem flipped_h (m : Message) : (flipped m).h = m.h := rfl

@[simp] theorem flipped_length (m : Message) : (flipped m).bytes.length = m.bytes.length :=
  flipEach_length _ _ _

theorem flipped_flipped {m : Message} (h : Fits m) : flipped (flipped m) = m := by
  have hbytes := flipEach_flipEach (flipRuns m.h).2 (flipRuns m.h).1 m.bytes h
  unfold flipped
  rw [hbytes]

end MdsPlus.MessageBodies
