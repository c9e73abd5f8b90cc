import MdsPlus.RecordClasses
import MdsPlus.SegmentRecords

/-!
The rows of a compressed segment, taken from the first 60 bytes of its record. They are there
when the file goes on that far, and they are the last dimension of the array that was serialized
when the numbers they are computed from are not taken for negative ones.
-/

namespace MdsPlus.SegmentRowCounts

open BitMemory Codec ByteFile Datafile SegmentRecords
open DescriptorTrees (Dims ArrayHead)
open DescriptorRecords (Tree Passes Laid LaidSlot copyDxRec copyAll nestedIn arrayBytes shapeBytes
  shapeSize shortBytes wordBytes wordsBytes dscsize aBytes caBytes node slot offsets advance
  laid_node node_written)

/-! ### Reading the rows -/

def shortAt (buffer : List Byte) (i : ℕ) : ℤ := (int16.decode ((buffer.drop i).take 2)).toInt

def longAt (buffer : List Byte) (i : ℕ) : ℤ := (int32.decode ((buffer.drop i).take 4)).toInt

/-- What is made of the bytes. A division by zero stops the program, and so does one whose result
is no int. -/
def rowsIn (buffer : List Byte) : Except Status ℤ :=
  let dimct := (buffer.getD 11 0).toInt
  if buffer.getD 3 0 ≠ CLASS_CA ∧ buffer.getD 3 0 ≠ CLASS_A then .error .failure
  else if dimct = 1 then
    if shortAt buffer 0 = 0 ∨ longAt buffer 12 = -2 ^ 31 ∧ shortAt buffer 0 = -1 then
      .error .undefined
    else .ok ((longAt buffer 12).tdiv (shortAt buffer 0))
  else .ok (longAt buffer (16 + dimct * 4).toNat)

/-- `get_compressed_segment_rows` -/
def rowsOf (f : File) (offset : Offset) : Except Status ℤ :=
  match readPropertySafe f offset 60 with
  | none => .error .failure
  | some buffer => rowsIn buffer

/-! ### The record of an array -/

def arrayOf : Tree → Option (ArrayHead × ℕ)
  | .a _ h data => some (h, data.length)
  | .ca _ h arsize _ => some (h, arsize.toNat)
  | _ => none

structure Serialized (t : Tree) (bytes : List Byte) : Prop where
  laid : Laid (copyDxRec t) bytes
  nested : ∀ u ∈ nestedIn t, ∃ body, Laid (copyDxRec u) body

/-- The dimensions of an array of so many bytes. Without multipliers there is one of them, which
only the sizes tell. -/
inductive Shaped (length : ℕ) : Dims → ℕ → List ℕ → Prop
  | plain (n : ℕ) (hlength : 0 < length) : Shaped length (.plain 1) (length * n) [n]
  | coeff (a0 : ℤ) (m : List Word) (hdimct : 1 ≤ m.length ∧ m.length ≤ MAX_DIMS) :
      Shaped length (.coeff a0 m) (length * (m.map BitVec.toNat).prod) (m.map BitVec.toNat)
  | bounds (a0 : ℤ) (m : List (Word × Word × Word))
      (hdimct : 1 ≤ m.length ∧ m.length ≤ MAX_DIMS) :
      Shaped length (.bounds a0 m) (length * (m.map fun b => b.1.toNat).prod)
        (m.map fun b => b.1.toNat)

/-- What the numbers have to be. One dimension is a quotient of two signed numbers, the last one
of several is a signed number itself. -/
def Told (length : ℕ) : List ℕ → Prop
  | [n] => 0 < length ∧
      (n = 0 ∨ length < 2 ^ 15 ∧ length * n < 2 ^ 31 ∨ 2 ^ 15 ≤ length ∧ n = 2 ^ 16)
  | dims => dims.getLastD 0 < 2 ^ 31

theorem laid_unique {p : Passes} {bytes bytes' : List Byte} (h : Laid p bytes)
    (h' : Laid p bytes') : bytes = bytes' := by
  have hlen : bytes.length = bytes'.length := by rw [← h.size, h'.size]
  have hblank : ∀ n, DescriptorRecords.Blank (fun _ => 0) 0 n := fun n i _ _ => rfl
  apply List.ext_getElem hlen
  intro i hi hi'
  rw [← h.writes.holds (hblank _) i hi, h'.writes.holds (hblank _) i hi']

theorem laid_header {t : Tree} {gap start : ℕ} {header : List Word → List Byte}
    {slots : List (Option Passes)} {bodies : List (List Byte)} {bytes : List Byte}
    (ht : copyDxRec t = node gap (BitVec.ofNat 32 start) header slots)
    (hheader : ∀ table, table.length = slots.length → (header table).length = start)
    (hslots : List.Forall₂ (LaidSlot gap) slots bodies) (h : Laid (copyDxRec t) bytes) :
    bytes = header (offsets gap slots start) ++ bodies.flatten := by
  have hfits : start + bodies.flatten.length < 2 ^ 32 := by
    have hwritten := h.written
    rw [ht, node_written hheader, DescriptorRecords.advance_of_laid hslots, ← h.size] at hwritten
    have hlt := (copyDxRec t).size.isLt
    omega
  have hlaid := laid_node hheader rfl hslots hfits
  rw [← ht] at hlaid
  exact laid_unique h hlaid

theorem serialized_front {t : Tree} {h : ArrayHead} {arsize : ℕ} {bytes : List Byte}
    (hs : Serialized t bytes) (ha : arrayOf t = some (h, arsize)) :
    arsize < 2 ^ 32 ∧ ∃ cls dtype offset base rest, (cls = CLASS_A ∨ cls = CLASS_CA) ∧
      bytes = arrayBytes cls dtype h.length h offset (BitVec.ofNat 32 arsize) ++
        (shapeBytes base h.dims ++ rest) := by
  obtain ⟨hlaid, hnested⟩ := hs
  cases t with
  | a dtype h' data =>
    obtain ⟨rfl, rfl⟩ : h' = h ∧ data.length = arsize := by simpa [arrayOf] using ha
    have ht : copyDxRec (.a dtype h' data) =
        node 0 (BitVec.ofNat 32 (16 + shapeSize h'.dims + data.length))
          (fun _ => aBytes dtype h' data) [] := by
      rw [RecordClasses.copyDxRec_a, RecordClasses.arrayCount_eq]
    have hbytes := laid_header ht (fun _ _ => RecordSizes.aBytes_length dtype h' data) .nil hlaid
    rw [List.flatten_nil, List.append_nil] at hbytes
    have hlength := hlaid.size
    have hlt := (copyDxRec (.a dtype h' data)).size.isLt
    rw [hbytes, RecordSizes.aBytes_length] at hlength
    refine ⟨by omega, CLASS_A, dtype, dscsize h', dscsize h', data, .inl rfl, ?_⟩
    rw [hbytes, aBytes, List.append_assoc]
    rfl
  | ca dtype h' arsize' target =>
    obtain ⟨rfl, rfl⟩ : h' = h ∧ arsize'.toNat = arsize := by simpa [arrayOf] using ha
    obtain ⟨body, hbody⟩ := hnested target List.mem_cons_self
    have ht : copyDxRec (.ca dtype h' arsize' target) =
        node 0 (BitVec.ofNat 32 (16 + shapeSize h'.dims))
          (fun _ => caBytes dtype h' arsize' target.isNull) (copyAll [target]) := by
      rw [RecordClasses.copyDxRec_ca, BitVec.ofNat_add]
      rfl
    have hslots : ∃ bodies, List.Forall₂ (LaidSlot 0) (copyAll [target]) bodies := by
      rw [copyAll, copyAll, slot]
      cases hnull : target.isNull with
      | true => exact ⟨[[]], .cons rfl .nil⟩
      | false => exact ⟨[body], .cons hbody .nil⟩
    obtain ⟨bodies, hslots⟩ := hslots
    have hbytes := laid_header ht
      (fun _ _ => RecordSizes.caBytes_length dtype h' arsize' target.isNull) hslots hlaid
    refine ⟨arsize'.isLt, CLASS_CA, dtype, if target.isNull then 0 else dscsize h', 0,
      bodies.flatten, .inr rfl, ?_⟩
    rw [hbytes, caBytes, List.append_assoc, BitVec.ofNat_toNat, BitVec.setWidth_eq]
    rfl
  | _ => cases ha

/-! ### The first bytes -/

theorem shortBytes_eq (v : BitVec 16) : shortBytes v = int16.encode v := by
  simp [shortBytes, int16, int, natBytes, BitVec.extractLsb', Nat.shiftRight_eq_div_pow]

theorem wordBytes_eq (v : Word) : wordBytes v = int32.encode v := by
  simp [wordBytes, int32, int, natBytes, BitVec.extractLsb', Nat.shiftRight_eq_div_pow,
    Nat.div_div_eq_div_mul]

section Fields

variable {cls dtype : Byte} {length : BitVec 16} {h : ArrayHead} {offset arsize : Word}
  {rest : List Byte}

theorem class_of_array :
    (arrayBytes cls dtype length h offset arsize ++ rest).getD 3 0 = cls := rfl

theorem dimct_of_array : (arrayBytes cls dtype length h offset arsize ++ rest).getD 11 0 =
    BitVec.ofNat 8 (DescriptorRecords.dimct h.dims) := rfl

theorem length_of_array :
    shortAt (arrayBytes cls dtype length h offset arsize ++ rest) 0 = length.toInt := by
  have hbytes : ((arrayBytes cls dtype length h offset arsize ++ rest).drop 0).take 2 =
      int16.encode length := by
    rw [← shortBytes_eq]
    rfl
  rw [shortAt, hbytes, int16.decode_encode]

theorem arsize_of_array :
    longAt (arrayBytes cls dtype length h offset arsize ++ rest) 12 = arsize.toInt := by
  have hbytes : ((arrayBytes cls dtype length h offset arsize ++ rest).drop 12).take 4 =
      int32.encode arsize := by
    rw [← wordBytes_eq]
    rfl
  rw [longAt, hbytes, int32.decode_encode]

def multipliers : Dims → List Word
  | .plain _ => []
  | .coeff _ m => m
  | .bounds _ m => m.map Prod.fst

theorem wordsBytes_eq (ws : List Word) : wordsBytes ws = ws.flatMap int32.encode := by
  rw [wordsBytes]
  exact congrArg (List.flatMap · ws) (funext wordBytes_eq)

theorem shapeBytes_eq (base : Word) {dims : Dims} (h : multipliers dims ≠ []) :
    ∃ a0 bounds,
      shapeBytes base dims = wordBytes a0 ++ wordsBytes (multipliers dims) ++ bounds := by
  cases dims with
  | plain n => exact absurd rfl h
  | coeff a0 m => exact ⟨_, [], (List.append_nil _).symm⟩
  | bounds a0 m => exact ⟨_, _, rfl⟩

theorem multiplier_of_array {base : Word} {k : ℕ} (hk : k < (multipliers h.dims).length) :
    longAt (arrayBytes cls dtype length h offset arsize ++ (shapeBytes base h.dims ++ rest))
      (20 + 4 * k) = ((multipliers h.dims)[k]).toInt := by
  have hne : multipliers h.dims ≠ [] := by
    intro hnil
    rw [hnil] at hk
    exact Nat.not_lt_zero k hk
  obtain ⟨a0, bounds, hshape⟩ := shapeBytes_eq base hne
  have hfront : (arrayBytes cls dtype length h offset arsize ++ wordBytes a0).length = 20 := rfl
  have hlen : (wordsBytes (multipliers h.dims)).length = (multipliers h.dims).length * 4 := by
    rw [wordsBytes_eq, length_flatMap_encode]
    rfl
  have hdrop : (arrayBytes cls dtype length h offset arsize ++
      (shapeBytes base h.dims ++ rest)).drop (20 + 4 * k) =
      (wordsBytes (multipliers h.dims)).drop (k * 4) ++ (bounds ++ rest) := by
    rw [hshape, List.append_assoc, List.append_assoc, ← List.append_assoc, ← hfront,
      List.drop_length_add_append, Nat.mul_comm, List.drop_append_of_le_length (by omega)]
  have htake : (((wordsBytes (multipliers h.dims)).drop (k * 4)) ++ (bounds ++ rest)).take 4 =
      int32.encode (multipliers h.dims)[k] := by
    rw [List.take_append_of_le_length (by rw [List.length_drop]; omega), wordsBytes_eq]
    exact take_drop_flatMap int32 _ k hk
  rw [longAt, hdrop, htake, int32.decode_encode]

end Fields

theorem slice_eq {f : File} {off : ℕ} {bytes buffer : List Byte} (h : Holds f off bytes)
    {len : ℕ} (hread : f.read off len = some buffer) {i n : ℕ} (hlen : i + n ≤ len)
    (hbytes : i + n ≤ bytes.length) : (buffer.drop i).take n = (bytes.drop i).take n := by
  rw [File.read] at hread
  split at hread
  · cases hread
    apply List.ext_getElem
    · simp only [List.length_take, List.length_drop, List.length_map, List.length_range]
      omega
    · intro j hj _
      simp only [List.length_take, List.length_drop] at hj
      simp only [List.getElem_take, List.getElem_drop, List.getElem_map, List.getElem_range]
      exact h.byte_eq (i + j) (by omega)
  · cases hread

theorem getD_eq {f : File} {off : ℕ} {bytes buffer : List Byte} (h : Holds f off bytes)
    {len : ℕ} (hread : f.read off len = some buffer) {i : ℕ} (hlen : i < len)
    (hbytes : i < bytes.length) : buffer.getD i 0 = bytes.getD i 0 := by
  have hslice := congrArg (List.getD · 0 0)
    (slice_eq h hread (i := i) (n := 1) (by omega) (by omega))
  simpa [List.getD_eq_getElem?_getD] using hslice

/-! ### When the rows are right -/

theorem toInt_short (length : BitVec 16) :
    length.toInt = if length.toNat < 2 ^ 15 then (length.toNat : ℤ) else length.toNat - 2 ^ 16 := by
  rw [BitVec.toInt_eq_toNat_cond]
  split <;> split <;> omega

theorem toInt_long {arsize : ℕ} (h : arsize < 2 ^ 32) : (BitVec.ofNat 32 arsize).toInt =
    if arsize < 2 ^ 31 then (arsize : ℤ) else arsize - 2 ^ 32 := by
  rw [BitVec.toInt_eq_toNat_cond, BitVec.toNat_ofNat, Nat.mod_eq_of_lt h]
  split <;> split <;> omega


/-- Where the length is taken for a negative number, the quotient is right for as many rows as
there are lengths only. -/
theorem negative_quotient {length n : ℕ} (hlow : 2 ^ 15 ≤ length) (hhigh : length < 2 ^ 16)
    (harsize : length * n < 2 ^ 32) :
    (((length * n : ℕ) : ℤ) - 2 ^ 32).tdiv ((length : ℤ) - 2 ^ 16) = (n : ℤ) ↔ n = 2 ^ 16 := by
  obtain ⟨d, hd⟩ : ∃ d, length + d = 2 ^ 16 := ⟨2 ^ 16 - length, by omega⟩
  have hsum : length * n + d * n = 2 ^ 16 * n := by rw [← Nat.add_mul, hd]
  obtain ⟨a, ha⟩ : ∃ a, length * n + a = 2 ^ 32 := ⟨2 ^ 32 - length * n, by omega⟩
  have hnum : (((length * n : ℕ) : ℤ) - 2 ^ 32) = -(a : ℤ) := by omega
  have hden : ((length : ℤ) - 2 ^ 16) = -(d : ℤ) := by omega
  have hpos : 0 < d := by omega
  rw [hnum, hden, Int.neg_tdiv, Int.tdiv_neg, neg_neg, Int.tdiv_eq_ediv_of_nonneg (by omega),
    ← Int.natCast_ediv, Nat.cast_inj, Nat.div_eq_iff hpos]
  have hdn : n * d = d * n := Nat.mul_comm n d
  omega

theorem quotient_iff {length : BitVec 16} {n : ℕ} (harsize : length.toNat * n < 2 ^ 32) :
    (¬ (length.toInt = 0 ∨
        (BitVec.ofNat 32 (length.toNat * n)).toInt = -2 ^ 31 ∧ length.toInt = -1) ∧
      (BitVec.ofNat 32 (length.toNat * n)).toInt.tdiv length.toInt = n) ↔
      Told length.toNat [n] := by
  have hlt := length.isLt
  rw [toInt_short, toInt_long harsize]
  simp only [Told]
  generalize length.toNat = len at *
  by_cases hzero : len = 0
  · simp [hzero]
  by_cases hn : n = 0
  · subst hn
    simp
    split <;> omega
  by_cases hshort : len < 2 ^ 15
  · rw [if_pos hshort]
    by_cases hlong : len * n < 2 ^ 31
    · rw [if_pos hlong, ← Int.ofNat_tdiv, Nat.mul_div_cancel_left n (by omega)]
      omega
    · rw [if_neg hlong]
      have hneg : 0 ≤ (2 ^ 32 - ((len * n : ℕ) : ℤ)).tdiv (len : ℤ) :=
        Int.tdiv_nonneg (by omega) (by omega)
      rw [← neg_sub, Int.neg_tdiv]
      omega
  · rw [if_neg hshort]
    by_cases hlong : len * n < 2 ^ 31
    · rw [if_pos hlong]
      have hneg : (((len * n : ℕ) : ℤ).tdiv ((len : ℤ) - 2 ^ 16)) ≤ 0 :=
        Int.tdiv_nonpos_of_nonneg_of_nonpos (by omega) (by omega)
      have hbig : n ≠ 2 ^ 16 := by
        rintro rfl
        omega
      omega
    · rw [if_neg hlong, negative_quotient (by omega) hlt harsize]
      have htrap : n = 2 ^ 16 → ¬ (((len * n : ℕ) : ℤ) - 2 ^ 32 = -2 ^ 31 ∧
          (len : ℤ) - 2 ^ 16 = -1) := by
        rintro rfl ⟨h1, h2⟩
        omega
      omega

theorem shaped_dims {length arsize : ℕ} {shape : Dims} {dims : List ℕ}
    (h : Shaped length shape arsize dims) :
    dims.length = DescriptorRecords.dimct shape ∧ 1 ≤ dims.length ∧ dims.length ≤ MAX_DIMS ∧
      arsize = length * dims.prod ∧
      (dims.length ≠ 1 → (multipliers shape).map BitVec.toNat = dims) := by
  cases h with
  | plain n hlength => exact ⟨rfl, by simp, by simp, by simp, fun h => absurd rfl h⟩
  | coeff a0 m hdimct =>
    exact ⟨List.length_map _, by simpa using hdimct.1, by simpa using hdimct.2, rfl, fun _ => rfl⟩
  | bounds a0 m hdimct =>
    refine ⟨List.length_map _, by simpa using hdimct.1, by simpa using hdimct.2, rfl, fun _ => ?_⟩
    rw [multipliers, List.map_map]
    rfl

theorem last_multiplier {shape : Dims} {dims : List ℕ}
    (hmul : (multipliers shape).map BitVec.toNat = dims) (hpos : 1 ≤ dims.length) :
    ∃ hk : dims.length - 1 < (multipliers shape).length,
      dims.getLastD 0 = ((multipliers shape)[dims.length - 1]).toNat := by
  subst hmul
  rw [List.length_map] at hpos ⊢
  refine ⟨by omega, ?_⟩
  rw [List.getLastD_eq_getLast?, List.getLast?_eq_getElem?, List.length_map, List.getElem?_map,
    List.getElem?_eq_getElem (by omega)]
  rfl

section Rows

variable {t : Tree} {bytes : List Byte} {h : ArrayHead} {arsize : ℕ} {dims : List ℕ} {f : File}
  {off : ℕ} {buffer : List Byte}

theorem rowsIn_eq (hs : Serialized t bytes) (ha : arrayOf t = some (h, arsize))
    (hshape : Shaped h.length.toNat h.dims arsize dims) (hholds : Holds f off bytes)
    (hread : f.read off 60 = some buffer) :
    rowsIn buffer =
      if dims.length = 1 then
        if h.length.toInt = 0 ∨ (BitVec.ofNat 32 arsize).toInt = -2 ^ 31 ∧ h.length.toInt = -1 then
          .error .undefined
        else .ok ((BitVec.ofNat 32 arsize).toInt.tdiv h.length.toInt)
      else .ok (BitVec.ofNat 32 (dims.getLastD 0)).toInt := by
  obtain ⟨hdimct, hlow, hhigh, -, hmul⟩ := shaped_dims hshape
  obtain ⟨-, cls, dtype, offset, base, rest, hcls, hbytes⟩ := serialized_front hs ha
  have hlen : 16 ≤ bytes.length := by
    rw [hbytes]
    simp [arrayBytes, shortBytes, wordBytes]
  have hclass : buffer.getD 3 0 = cls := by
    rw [getD_eq hholds hread (by omega) (by omega), hbytes, class_of_array]
  have hbyte : buffer.getD 11 0 = BitVec.ofNat 8 dims.length := by
    rw [getD_eq hholds hread (by omega) (by omega), hbytes, dimct_of_array, hdimct]
  have hsigned : (BitVec.ofNat 8 dims.length).toInt = dims.length := by
    simp only [MAX_DIMS] at hhigh
    rw [BitVec.toInt_eq_toNat_of_lt] <;> rw [BitVec.toNat_ofNat] <;> omega
  have hshort : shortAt buffer 0 = h.length.toInt := by
    rw [shortAt, slice_eq hholds hread (by omega) (by omega), ← shortAt, hbytes, length_of_array]
  have hlong : longAt buffer 12 = (BitVec.ofNat 32 arsize).toInt := by
    rw [longAt, slice_eq hholds hread (by omega) (by omega), ← longAt, hbytes, arsize_of_array]
  rw [rowsIn, hclass, hbyte, hsigned, hshort, hlong,
    if_neg (by rcases hcls with rfl | rfl <;> simp)]
  by_cases hone : dims.length = 1
  · rw [if_pos (by omega), if_pos hone]
  · have hmul := hmul hone
    obtain ⟨hk, hlast⟩ := last_multiplier hmul hlow
    have hcount : (multipliers h.dims).length = dims.length := by rw [← hmul, List.length_map]
    have hplace : (16 + (dims.length : ℤ) * 4).toNat = 20 + 4 * (dims.length - 1) := by omega
    have hroom : 20 + 4 * (dims.length - 1) + 4 ≤ bytes.length := by
      have hne : multipliers h.dims ≠ [] := List.ne_nil_of_length_pos (by omega)
      obtain ⟨a0, bounds, hform⟩ := shapeBytes_eq base hne
      have hwords : (wordsBytes (multipliers h.dims)).length = dims.length * 4 := by
        rw [wordsBytes_eq, length_flatMap_encode, hcount]
        rfl
      rw [hbytes, hform]
      simp only [arrayBytes, shortBytes, wordBytes, List.length_append, List.length_cons,
        List.length_nil, hwords]
      omega
    simp only [MAX_DIMS] at hhigh
    rw [if_neg (by omega), if_neg hone, hplace, longAt,
      slice_eq hholds hread (by omega) (by omega), ← longAt, hbytes, multiplier_of_array hk, hlast,
      BitVec.ofNat_toNat, BitVec.setWidth_eq]

/-- The rows are the last dimension if the file has 60 bytes from the record on and the numbers are
told right. -/
theorem rows_eq_iff (hs : Serialized t bytes) (ha : arrayOf t = some (h, arsize))
    (hshape : Shaped h.length.toNat h.dims arsize dims) (hholds : Holds f off bytes)
    (hoff : off < 2 ^ 63) :
    rowsOf f (BitVec.ofNat 64 off) = .ok (dims.getLastD 0 : ℤ) ↔
      off + 60 ≤ f.size ∧ Told h.length.toNat dims := by
  have hsafe : readPropertySafe f (BitVec.ofNat 64 off) 60 = f.read off 60 := by
    rw [readPropertySafe, if_pos (by rw [toInt_ofNat hoff]; omega), readProperty,
      BitVec.toNat_ofNat, Nat.mod_eq_of_lt (by omega)]
  obtain ⟨-, hlow, -, hprod, hmul⟩ := shaped_dims hshape
  have harsize := (serialized_front hs ha).1
  rw [rowsOf, hsafe]
  by_cases hend : off + 60 ≤ f.size
  · obtain ⟨buffer, hread⟩ : ∃ buffer, f.read off 60 = some buffer := by
      rw [File.read, if_pos hend]
      exact ⟨_, rfl⟩
    rw [hread]
    dsimp only
    rw [rowsIn_eq hs ha hshape hholds hread, and_iff_right hend]
    by_cases hone : dims.length = 1
    · obtain ⟨n, rfl⟩ := List.length_eq_one_iff.mp hone
      rw [List.prod_singleton] at hprod
      subst hprod
      rw [if_pos hone, ← quotient_iff harsize]
      split
      · rename_i htrap
        exact ⟨(by rintro ⟨⟩), fun hok => absurd htrap hok.1⟩
      · rename_i htrap
        rw [and_iff_right htrap]
        exact ⟨Except.ok.inj, fun heq => congrArg Except.ok heq⟩
    · have hlast : dims.getLastD 0 < 2 ^ 32 := by
        obtain ⟨hk, hlast⟩ := last_multiplier (hmul hone) hlow
        rw [hlast]
        exact BitVec.isLt _
      have htold : Told h.length.toNat dims ↔ dims.getLastD 0 < 2 ^ 31 := by
        rcases dims with - | ⟨d, - | ⟨d', l⟩⟩
        · rfl
        · exact absurd rfl hone
        · rfl
      rw [if_neg hone, htold, toInt_long hlast]
      split
      · rename_i hsmall
        exact iff_of_true rfl hsmall
      · rename_i hsmall
        refine iff_of_false (fun heq => ?_) hsmall
        have hval := Except.ok.inj heq
        omega
  · have hnone : f.read off 60 = none := by rw [File.read, if_neg hend]
    rw [hnone]
    exact ⟨(by rintro ⟨⟩), fun hok => absurd hok.1 hend⟩

end Rows

/-! ### The last record of a file -/

/-- One quadword, as a segment of one row is serialized. -/
def quadwordHead : ArrayHead := ⟨8, 0, 0, false, false, false, .plain 1⟩

def quadword : Tree := .a DTYPE_Q quadwordHead (List.replicate 8 0)

def quadwordBytes : List Byte := aBytes DTYPE_Q quadwordHead (List.replicate 8 0)

def recordFile (size : ℕ) : File := ⟨size, fun a => quadwordBytes.getD a 0⟩

theorem quadword_serialized : Serialized quadword quadwordBytes where
  laid := by
    have hlaid : Laid (node 0 (BitVec.ofNat 32 24) (fun _ => quadwordBytes) [])
        (quadwordBytes ++ [].flatten) := laid_node (fun _ _ => rfl) rfl .nil (by decide)
    have ht : copyDxRec quadword = node 0 (BitVec.ofNat 32 24) (fun _ => quadwordBytes) [] := by
      rw [quadword, RecordClasses.copyDxRec_a]
      rfl
    rwa [List.flatten_nil, List.append_nil, ← ht] at hlaid
  nested := nofun

theorem quadword_shaped : Shaped quadwordHead.length.toNat quadwordHead.dims 8 [1] :=
  .plain 1 (by decide)

theorem recordFile_holds {size : ℕ} (h : 24 ≤ size) : Holds (recordFile size) 0 quadwordBytes where
  inside := by
    have hlen : quadwordBytes.length = 24 := rfl
    rw [hlen]
    exact h
  byte_eq i hi := by
    show quadwordBytes.getD (0 + i) 0 = _
    rw [Nat.zero_add]
    exact List.getD_eq_getElem _ _ hi

theorem quadword_rows :
    rowsOf (recordFile 60) (BitVec.ofNat 64 0) = .ok (([1] : List ℕ).getLastD 0 : ℤ) :=
  (rows_eq_iff quadword_serialized rfl quadword_shaped (recordFile_holds (by omega))
    (by omega)).mpr ⟨Nat.le_refl 60, by decide, .inr (.inl (by decide))⟩

theorem last_record_unread :
    ¬ ∀ (t : Tree) (bytes : List Byte) (h : ArrayHead) (arsize : ℕ) (dims : List ℕ) (f : File)
      (off : ℕ), Serialized t bytes → arrayOf t = some (h, arsize) →
      Shaped h.length.toNat h.dims arsize dims → Holds f off bytes → off < 2 ^ 63 →
      rowsOf f (BitVec.ofNat 64 off) = .ok (dims.getLastD 0 : ℤ) := by
  intro hall
  have hrows := hall _ _ _ _ _ (recordFile 24) 0 quadword_serialized rfl quadword_shaped
    (recordFile_holds (by omega)) (by omega)
  have hnone : rowsOf (recordFile 24) (BitVec.ofNat 64 0) = .error .failure := rfl
  rw [hnone] at hrows
  cases hrows

end MdsPlus.SegmentRowCounts
