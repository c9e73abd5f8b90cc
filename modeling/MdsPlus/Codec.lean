import MdsPlus.BitMemory
import Mathlib.Data.Nat.ModEq
import Mathlib.Tactic.Ring

/-!
Fixed-size binary formats. A format writes a value as a block of bytes of one size
and reads it back. Integers are little-endian; records are their fields and tables
their entries in order.
-/

namespace MdsPlus.Codec

open BitMemory

structure Format (α : Type) where
  size : ℕ
  encode : α → List Byte
  decode : List Byte → α
  length_encode : ∀ a, (encode a).length = size
  decode_encode : ∀ a, decode (encode a) = a

attribute [simp] Format.length_encode Format.decode_encode

def natBytes : ℕ → ℕ → List Byte
  | 0, _ => []
  | n + 1, v => BitVec.ofNat 8 v :: natBytes n (v / 256)

def natOf : List Byte → ℕ
  | [] => 0
  | b :: bs => b.toNat + 256 * natOf bs

theorem natBytes_length (n v : ℕ) : (natBytes n v).length = n := by
  induction n generalizing v with
  | zero => rfl
  | succ n ih => simp [natBytes, ih]

theorem natOf_natBytes (n v : ℕ) : natOf (natBytes n v) = v % 256 ^ n := by
  induction n generalizing v with
  | zero => simp [natBytes, natOf, Nat.mod_one]
  | succ n ih =>
    have hpow : 256 ^ (n + 1) = 256 * 256 ^ n := by rw [Nat.pow_succ, Nat.mul_comm]
    rw [natBytes, natOf, ih, BitVec.toNat_ofNat, hpow, Nat.mod_mul]

def int (n : ℕ) : Format (BitVec (8 * n)) where
  size := n
  encode v := natBytes n v.toNat
  decode bytes := BitVec.ofNat (8 * n) (natOf bytes)
  length_encode v := natBytes_length n v.toNat
  decode_encode v := by
    have hlt : v.toNat < 256 ^ n := by
      have := v.isLt
      rwa [Nat.pow_mul] at this
    rw [natOf_natBytes, Nat.mod_eq_of_lt hlt, BitVec.ofNat_toNat, BitVec.setWidth_eq]

def int8 : Format (BitVec 8) := int 1
def int16 : Format (BitVec 16) := int 2
def int32 : Format (BitVec 32) := int 4
def int64 : Format (BitVec 64) := int 8

def pair {α β : Type} (c : Format α) (d : Format β) : Format (α × β) where
  size := c.size + d.size
  encode p := c.encode p.1 ++ d.encode p.2
  decode bytes := (c.decode (bytes.take c.size), d.decode (bytes.drop c.size))
  length_encode p := by simp
  decode_encode p := by
    have hlen := c.length_encode p.1
    rw [← hlen, List.take_left, List.drop_left, c.decode_encode, d.decode_encode]

def view {α β : Type} (c : Format α) (e : β ≃ α) : Format β where
  size := c.size
  encode b := c.encode (e b)
  decode bytes := e.symm (c.decode bytes)
  length_encode b := c.length_encode (e b)
  decode_encode b := by rw [c.decode_encode, e.symm_apply_apply]

theorem length_flatMap_encode {α : Type} (c : Format α) (l : List α) :
    (l.flatMap c.encode).length = l.length * c.size := by
  induction l with
  | nil => simp
  | cons a l ih =>
    rw [List.flatMap_cons, List.length_append, c.length_encode, ih, List.length_cons]
    ring

theorem take_drop_flatMap {α : Type} (c : Format α) (l : List α) (i : ℕ) (hi : i < l.length) :
    ((l.flatMap c.encode).drop (i * c.size)).take c.size = c.encode l[i] := by
  induction l generalizing i with
  | nil => simp at hi
  | cons a l ih =>
    have hlen := c.length_encode a
    rw [List.flatMap_cons]
    cases i with
    | zero => rw [Nat.zero_mul, List.drop_zero, ← hlen, List.take_left, List.getElem_cons_zero]
    | succ i =>
      have hoff : (i + 1) * c.size = (c.encode a).length + i * c.size := by
        rw [hlen]
        ring
      rw [hoff, List.drop_length_add_append, List.getElem_cons_succ]
      exact ih i (by simpa using hi)

def table {α : Type} (c : Format α) (n : ℕ) : Format (Vector α n) where
  size := n * c.size
  encode v := v.toList.flatMap c.encode
  decode bytes := Vector.ofFn fun i => c.decode ((bytes.drop (i * c.size)).take c.size)
  length_encode v := by rw [length_flatMap_encode, Vector.length_toList]
  decode_encode v := by
    apply Vector.ext
    intro i hi
    rw [Vector.getElem_ofFn, take_drop_flatMap c v.toList i (by simpa using hi), c.decode_encode,
      Vector.getElem_toList]

/-- An index below the length of a vector needs no further proof. -/
instance getElemFin {α : Type} {n : ℕ} : GetElem (Vector α n) (Fin n) α fun _ _ => True where
  getElem v i _ := v[i.val]

@[simp] theorem getElem_fin {α : Type} {n : ℕ} (v : Vector α n) (i : Fin n) : v[i] = v[i.val] := rfl

end MdsPlus.Codec
