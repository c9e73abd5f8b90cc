import MdsPlus.ElementOrder
import MdsPlus.NewArrays
import MdsPlus.Outcome

/-!
Arrays and scalars with the bytes of their elements, how many elements there are, and how one is
reached.
-/

namespace MdsPlus.ElementArrays

open ArrayDescriptors (ArrayDesc IsInt toInt)
open BitMemory (Byte)
open ElementOrder NewArrays

def timesExtent (x : ArrayDesc) (count : ℤ) (i : ℕ) : Except Fault ℤ :=
  if IsInt (count * x.m (i + 1)) then .ok (count * x.m (i + 1)) else .error .overflow

def product (x : ArrayDesc) : Except Fault ℤ :=
  (List.range (x.dimct - 1)).foldlM (timesExtent x) (x.m 0)

/-- Elements without bytes are counted by the extents if they are texts. -/
def nElements (x : ArrayDesc) : Except Fault ℤ :=
  if x.length ≠ 0 then .ok (toInt (x.arsize / x.length : ℕ))
  else if x.text ∧ x.coeff ∧ x.dimct > 0 then product x
  else .ok 0

def elementAt (len : ℕ) (data : List Byte) (k : ℤ) : Except Fault (List Byte) :=
  if IsInt (len * k) then
    if 0 ≤ len * k ∧ len * k + len ≤ data.length then
      .ok ((data.drop (len * k).toNat).take len)
    else .error .outOfRange
  else .error .overflow

def element (len : ℕ) (data : List Byte) (k : ℕ) : List Byte := (data.drop (len * k)).take len

inductive Values
  | scalar (bytes : List Byte)
  | array (x : ArrayDesc) (bytes : List Byte)

def Values.bytes : Values → List Byte
  | .scalar bytes => bytes
  | .array _ bytes => bytes

def Values.count : Values → Except Fault ℤ
  | .scalar _ => .ok 1
  | .array x _ => nElements x

def Values.number : Values → ℕ
  | .scalar _ => 1
  | .array x _ => (elements x).toNat

def Values.entry (len : ℕ) (values : Values) (k : ℕ) : List Byte := element len values.bytes k

structure ArrayOf (d : Dtype) (x : ArrayDesc) (data : List Byte) : Prop where
  formed : Formed x
  data_length : data.length = x.arsize
  text_iff : x.text = true ↔ d = .t
  size_eq : ∀ n, d.size = some n → x.length = n

def Values.Of (d : Dtype) (len : ℕ) : Values → Prop
  | .scalar bytes => Element d len bytes
  | .array x bytes => ArrayOf d x bytes ∧ x.length = len

variable {d : Dtype} {x : ArrayDesc} {data : List Byte} {len : ℕ} {values : Values}

theorem elements_eq (h : Formed x) (hpos : 0 < x.length) :
    elements x = (x.arsize / x.length : ℕ) ∧ x.arsize = x.length * (x.arsize / x.length) := by
  obtain ⟨n, hn⟩ := Int.eq_ofNat_of_zero_le h.nonneg
  have hsize := h.size
  rw [hn] at hsize
  have hnat : x.arsize = x.length * n := by exact_mod_cast hsize
  have hcount : x.arsize / x.length = n := by rw [hnat, Nat.mul_div_cancel_left _ hpos]
  rw [hcount]
  exact ⟨hn, hnat⟩

theorem length_element {len n k : ℕ} (hdata : data.length = len * n) (hk : k < n) :
    (element len data k).length = len := by
  have hle := Nat.mul_le_mul_left len (Nat.succ_le_of_lt hk)
  rw [Nat.mul_succ] at hle
  rw [element, List.length_take, List.length_drop]
  omega

theorem elementAt_ok {len n : ℕ} (hdata : data.length = len * n)
    (hlast : (len : ℤ) * (n - 1) < 2147483648) {k : ℤ} (hk : 0 ≤ k) (hkn : k < n) :
    elementAt len data k = .ok (element len data k.toNat) := by
  obtain ⟨j, rfl⟩ := Int.eq_ofNat_of_zero_le hk
  have hj : j + 1 ≤ n := by omega
  have hle := Nat.mul_le_mul_left len hj
  rw [Nat.mul_succ] at hle
  have hstep : (len : ℤ) * j ≤ len * (n - 1) :=
    Int.mul_le_mul_of_nonneg_left (by omega) (by omega)
  have hcast : ((len * j : ℕ) : ℤ) = len * j := by push_cast; rfl
  have hint : IsInt (len * (j : ℤ)) := ⟨by omega, by omega⟩
  rw [elementAt, if_pos hint, if_pos ⟨by omega, by rw [hdata, ← hcast]; omega⟩, ← hcast,
    Int.toNat_natCast, Int.toNat_natCast]
  rfl

/-! ### Bytes of several elements -/

theorem element_zero (len : ℕ) (data : List Byte) : element len data 0 = data.take len := by
  rw [element, Nat.mul_zero, List.drop_zero]

theorem element_succ (len : ℕ) (data : List Byte) (k : ℕ) :
    element len data (k + 1) = element len (data.drop len) k := by
  rw [element, element, List.drop_drop, Nat.mul_succ, Nat.add_comm]

theorem flatten_elements (len : ℕ) (data : List Byte) (n : ℕ) :
    ((List.range n).map (element len data)).flatten = data.take (len * n) := by
  induction n with
  | zero => simp
  | succ n ih =>
    rw [List.range_succ, List.map_append, List.flatten_append, ih, Nat.mul_succ, List.take_add]
    simp [element]

theorem elements_flatten {list : List (List Byte)} (hlen : ∀ b ∈ list, b.length = len)
    (hdata : data.take (len * list.length) = list.flatten) :
    (List.range list.length).map (element len data) = list := by
  induction list generalizing data with
  | nil => rfl
  | cons b list ih =>
    have hb := hlen b List.mem_cons_self
    rw [List.length_cons, Nat.mul_succ, Nat.add_comm, List.take_add, List.flatten_cons] at hdata
    have hwhole := congrArg List.length hdata
    rw [List.length_append, List.length_append, List.length_take, List.length_take,
      List.length_drop] at hwhole
    have hsame : (data.take len).length = b.length := by
      rw [List.length_take]
      omega
    obtain ⟨hfirst, hrest⟩ := List.append_inj hdata hsame
    rw [List.length_cons, List.range_succ_eq_map, List.map_cons, List.map_map, element_zero, hfirst]
    refine congrArg (b :: ·) ?_
    rw [← ih (fun a ha => hlen a (List.mem_cons_of_mem b ha)) hrest, List.length_map,
      List.length_range]
    exact List.map_congr_left fun k _ => element_succ len data k

/-! ### Scalars and arrays -/

theorem bytes_length (h : values.Of d len) : values.bytes.length = len * values.number := by
  cases values with
  | scalar bytes => exact h.1.trans (Nat.mul_one len).symm
  | array x bytes =>
    obtain ⟨harray, rfl⟩ := h
    have hsize := harray.formed.size
    obtain ⟨n, hn⟩ := Int.eq_ofNat_of_zero_le harray.formed.nonneg
    rw [hn] at hsize
    change bytes.length = x.length * (elements x).toNat
    rw [harray.data_length, hn, Int.toNat_natCast]
    exact_mod_cast hsize

theorem size_eq (h : values.Of d len) {n : ℕ} (hn : d.size = some n) : len = n := by
  cases values with
  | scalar bytes => exact h.2 n hn
  | array x bytes => exact h.2 ▸ h.1.size_eq n hn

theorem entry_spec (h : values.Of d len) {k : ℕ} (hk : k < values.number) :
    Element d len (values.entry len k) :=
  ⟨length_element (bytes_length h) hk, fun _ => size_eq h⟩

end MdsPlus.ElementArrays
