import MdsPlus.ElementArrays

/-!
PACK: the elements of an array that a mask selects, and after them those of a vector. They are
moved together in the array's own bytes, and no more of the mask is looked at than the vector is
long.
-/

namespace MdsPlus.Packing

open ArrayDescriptors (ArrayDesc IsInt toInt)
open BitMemory (Byte)
open ElementArrays ElementOrder NewArrays

def isTrue (bytes : List Byte) : Bool := (bytes.headD 0#8).getLsbD 0

/-- Bytes of an array by the bytes of an element, as ints. -/
def quotient (size len : ℕ) : Except Fault ℤ :=
  if len = 0 then .error .divideByZero else .ok (Int.tdiv (toInt size) len)

/-- Bytes are copied to where they do not overlap with themselves. -/
def memcpy (data : List Byte) (po pi len : ℕ) : List Byte :=
  data.take po ++ (data.drop pi).take len ++ data.drop (po + len)

/-- One element of the mask: what it selects is moved behind what has been selected. -/
def condense (len lenm : ℕ) (mask : List Byte) (s : List Byte × ℕ) (k : ℕ) : List Byte × ℕ :=
  if isTrue (mask.drop (lenm * k)) then
    (if s.2 < len * k then memcpy s.1 s.2 (len * k) len else s.1, s.2 + len)
  else s

def vectorCount (len : ℕ) : Option Values → Except Fault ℤ
  | none => .ok (-1)
  | some (.scalar _) => .ok (-2)
  | some (.array y _) => quotient y.arsize len

def maskCount (numa numm numv : ℤ) : ℤ :=
  let numm := if numa < numm then numa else numm
  if numv ≥ 0 ∧ numm > numv then numv else numm

def select (x : ArrayDesc) (data : List Byte) (numv : ℤ) :
    Values → Except Fault (List Byte × ℤ)
  | .scalar m => .ok (data, if isTrue m then toInt x.arsize else 0)
  | .array m mask => do
    let numa ← quotient x.arsize x.length
    let numm ← quotient m.arsize m.length
    let s := (List.range (maskCount numa numm numv).toNat).foldl (condense x.length m.length mask)
      (data, 0)
    .ok (s.1, s.2)

/-- TdiConvert to elements of the same type and length: a scalar goes to all of them, and what an
array leaves is blank. -/
def convert (x : ArrayDesc) (size : ℕ) (out : List Byte) (v : Values) : List Byte :=
  let numa := match v with
    | .scalar _ => 1
    | .array y _ => Int.tdiv (toInt y.arsize) (max 1 x.length)
  let numb := Int.tdiv (toInt size) (max x.length 1)
  let blank := if x.text then 32#8 else 0#8
  if numb ≤ 0 ∨ x.length = 0 then out
  else if numa ≤ 0 then
    List.replicate (numb.toNat * x.length) blank ++ out.drop (numb.toNat * x.length)
  else match v with
  | .scalar s => (List.replicate numb.toNat s).flatten ++ out.drop (numb.toNat * x.length)
  | .array _ bytes =>
    bytes.take ((min numa numb).toNat * x.length) ++ List.replicate ((numb - numa).toNat * x.length) blank ++
      out.drop (numb.toNat * x.length)

def fillOut (x : ArrayDesc) (data : List Byte) (bytes : ℤ) : Option Values → Except Fault Values
  | none => .error .nullPtr
  | some v =>
    let size := ((x.arsize - bytes) % 4294967296).toNat
    .ok (.array x (data.take bytes.toNat ++ convert x size (data.drop bytes.toNat) v))

def overlay (data : List Byte) (bytes : ℤ) : Option Values → Except Fault Values
  | none => .error .nullPtr
  | some (.scalar _) => .error .outOfRange
  | some (.array y vector) =>
    if bytes < 0 then .error .outOfRange
    else .ok (.array y (data.take bytes.toNat ++ vector.drop bytes.toNat))

/-- Tdi1Pack with the type and length that the array and the vector have been converted to. -/
def pack (x : ArrayDesc) (data : List Byte) (mask : Values) (vector : Option Values) :
    Except Fault Values := do
  let numv ← vectorCount x.length vector
  let (data, bytes) ← select x data numv mask
  let parr := { x with coeff := false, bounds := false, dimct := 1 }
  if numv = -2 then fillOut parr data bytes vector
  else if bytes < numv * x.length then overlay data bytes vector
  else .ok (.array { parr with arsize := (bytes % 4294967296).toNat } data)

/-! ### What it should give -/

def contents (x : ArrayDesc) (bytes : List Byte) : List (List Byte) :=
  (List.range (elements x).toNat).map (element x.length bytes)

/-- The elements that the first places of a mask select, and those that the others do. -/
def chosen (x : ArrayDesc) (data : List Byte) (m : ArrayDesc) (mask : List Byte) (k : ℕ) :
    List (List Byte) :=
  ((List.range k).filter fun i => isTrue (element m.length mask i)).map (element x.length data)

def beyond (x : ArrayDesc) (data : List Byte) (m : ArrayDesc) (mask : List Byte) (k : ℕ) :
    List (List Byte) :=
  ((List.range' k ((elements x).toNat - k)).filter fun i =>
    isTrue (element m.length mask i)).map (element x.length data)

def selected (x : ArrayDesc) (data : List Byte) : Values → List (List Byte)
  | .scalar m => if isTrue m then contents x data else []
  | .array m mask => chosen x data m mask (elements x).toNat

def expected (x : ArrayDesc) (data : List Byte) (mask : Values) : Option Values → List (List Byte)
  | none => selected x data mask
  | some (.scalar s) => selected x data mask ++
      List.replicate ((elements x).toNat - (selected x data mask).length) s
  | some (.array y vector) =>
      selected x data mask ++ (contents y vector).drop (selected x data mask).length

def Packs (x : ArrayDesc) (data : List Byte) (mask : Values) (vector : Option Values) : Prop :=
  ∃ y bytes, pack x data mask vector = .ok (.array y bytes) ∧
    contents y bytes = expected x data mask vector

def MaskFor (x : ArrayDesc) : Values → Prop
  | .scalar _ => True
  | .array m mask => ∃ d, d ≠ .t ∧ ArrayOf d m mask ∧ elements m = elements x

def VectorFor (d : Dtype) (x : ArrayDesc) (data : List Byte) (mask : Values) :
    Option Values → Prop
  | none => True
  | some (.scalar s) => Element d x.length s
  | some (.array y vector) => ArrayOf d y vector ∧ y.length = x.length ∧
      (selected x data mask).length ≤ (elements y).toNat

/-- The places of the mask that are looked at. -/
def reach (x m : ArrayDesc) : Option Values → ℕ
  | some (.array y _) => if x.arsize < 2147483648 ∧ m.arsize < 2147483648 then
      min (elements x).toNat (elements y).toNat else 0
  | _ => if x.arsize < 2147483648 ∧ m.arsize < 2147483648 then (elements x).toNat else 0

/-- What the other places select is what would be there without them. -/
def Complete (x : ArrayDesc) (data : List Byte) (m : ArrayDesc) (mask : List Byte)
    (vector : Option Values) : Prop :=
  let rest := beyond x data m mask (reach x m vector)
  match vector with
  | none => rest = []
  | some (.scalar s) => ∀ b ∈ rest, b = s
  | some (.array y vector') =>
    let k := (chosen x data m mask (reach x m vector)).length
    rest = ((contents y vector').drop k).take rest.length

/-- The elements have bytes where they are counted by them, the sizes are ints or large ones meet
by chance, and the places of the mask that are not looked at select what is there anyway. -/
def Right (x : ArrayDesc) (data : List Byte) (mask : Values) (vector : Option Values) : Prop :=
  match mask, vector with
  | .scalar m, none => isTrue m = true →
      (0 < x.length ∨ elements x = 0) ∧ (x.arsize < 2147483648 ∨ 4294967296 ≤ x.arsize + x.length)
  | .scalar m, some (.scalar s) => (0 < x.length ∨ elements x = 0) ∧
      (isTrue m = false → x.arsize < 2147483648 ∨ ∀ b ∈ contents x data, b = s)
  | .scalar m, some (.array y vector) => 0 < x.length ∧ (y.arsize < 2147483648 ∨
      quotient y.arsize x.length = .ok (-2) ∧
        contents x data = expected x data mask (some (.array y vector)) ∨
      isTrue m = true ∧ elements x = elements y ∧ x.length ∣ 4294967296)
  | .array m mask', none => 0 < x.length ∧ Complete x data m mask' none
  | .array m mask', some (.scalar s) => 0 < x.length ∧
      if x.arsize < 2147483648 then Complete x data m mask' (some (.scalar s))
      else contents x data = expected x data mask (some (.scalar s))
  | .array m mask', some (.array y vector) => 0 < x.length ∧
      if y.arsize < 2147483648 then Complete x data m mask' (some (.array y vector))
      else quotient y.arsize x.length = .ok (-2) ∧
        contents x data = expected x data mask (some (.array y vector))

variable {d : Dtype} {x y m : ArrayDesc} {data mask vector s : List Byte}

/-! ### What is selected -/

theorem chosen_append {k : ℕ} (hk : k ≤ (elements x).toNat) :
    chosen x data m mask k ++ beyond x data m mask k =
      chosen x data m mask (elements x).toNat := by
  have hsplit : List.range' 0 k ++ List.range' (0 + k) ((elements x).toNat - k) = _ :=
    List.range'_append_1
  rw [Nat.zero_add, Nat.add_sub_cancel' hk, ← List.range_eq_range', ← List.range_eq_range']
    at hsplit
  simp only [chosen, beyond, ← List.map_append, ← List.filter_append, hsplit]

theorem chosen_succ (k : ℕ) : chosen x data m mask (k + 1) = chosen x data m mask k ++
    if isTrue (element m.length mask k) then [element x.length data k] else [] := by
  rw [chosen, List.range_succ, List.filter_append, List.map_append, ← chosen]
  by_cases htrue : isTrue (element m.length mask k) = true
  · simp [htrue]
  · simp [htrue]

theorem length_chosen_le (x : ArrayDesc) (data : List Byte) (m : ArrayDesc) (mask : List Byte)
    (k : ℕ) : (chosen x data m mask k).length ≤ k := by
  rw [chosen, List.length_map]
  exact (List.length_filter_le _ _).trans List.length_range.le

theorem isTrue_element (hpos : 0 < m.length) (k : ℕ) :
    isTrue (mask.drop (m.length * k)) = isTrue (element m.length mask k) := by
  rw [element, isTrue, isTrue]
  cases mask.drop (m.length * k) with
  | nil => simp
  | cons a rest =>
    obtain ⟨n, hn⟩ := Nat.exists_eq_succ_of_ne_zero (Nat.ne_of_gt hpos)
    simp [hn]

theorem condense_spec (mask : List Byte) (hpos : 0 < x.length) (hmask : 0 < m.length)
    (hdata : data.length = x.length * (elements x).toNat) {k : ℕ} (hk : k ≤ (elements x).toNat)
    {s : List Byte × ℕ}
    (hs : (List.range k).foldl (condense x.length m.length mask) (data, 0) = s) :
    s.2 = x.length * (chosen x data m mask k).length ∧ s.1.length = data.length ∧
      s.1.take s.2 = (chosen x data m mask k).flatten ∧
      s.1.drop (x.length * k) = data.drop (x.length * k) := by
  induction k generalizing s with
  | zero =>
    subst hs
    simp [chosen]
  | succ k ih =>
    obtain ⟨hbytes, hlength, hfront, hback⟩ := ih (by omega) rfl
    rw [List.range_succ, List.foldl_append, List.foldl_cons, List.foldl_nil] at hs
    generalize (List.range k).foldl (condense x.length m.length mask) (data, 0) = t at *
    have hcount := length_chosen_le x data m mask k
    have hle := Nat.mul_le_mul_left x.length hk
    have hbefore := Nat.mul_le_mul_left x.length hcount
    rw [Nat.mul_succ] at hle
    have hnext : t.1.drop (x.length * (k + 1)) = data.drop (x.length * (k + 1)) := by
      rw [Nat.mul_succ, ← List.drop_drop, hback, List.drop_drop]
    rw [condense, isTrue_element hmask] at hs
    rw [chosen_succ]
    by_cases htrue : isTrue (element m.length mask k) = true
    · rw [if_pos htrue] at hs ⊢
      subst hs
      have hmoved : (t.1.drop (x.length * k)).take x.length = element x.length data k := by
        rw [hback, element]
      have hsize : (element x.length data k).length = x.length := length_element hdata (by omega)
      refine ⟨?_, ?_⟩
      · rw [List.length_append, List.length_singleton, Nat.mul_succ, hbytes]
      · rw [List.flatten_append, List.flatten_singleton, ← hfront]
        by_cases hlt : t.2 < x.length * k
        · rw [if_pos hlt, memcpy, hmoved]
          -- the element that is moved lies behind those before it
          have hapart : t.2 + x.length ≤ x.length * k := by
            rw [hbytes] at hlt ⊢
            have hless := Nat.lt_of_mul_lt_mul_left hlt
            have := Nat.mul_le_mul_left x.length (Nat.succ_le_of_lt hless)
            rwa [Nat.mul_succ] at this
          have hwidth : (t.1.take t.2).length = t.2 := by
            rw [List.length_take]
            omega
          have hwhole : (t.1.take t.2 ++ element x.length data k).length = t.2 + x.length := by
            rw [List.length_append, hwidth, hsize]
          refine ⟨?_, ?_, ?_⟩
          · rw [List.length_append, hwhole, List.length_drop]
            omega
          · exact List.take_left' hwhole
          · have hrest : x.length * (k + 1) = t.2 + x.length + (x.length * k - t.2) := by
              rw [Nat.mul_succ]
              omega
            have hmove := @List.drop_left' _ _ (t.1.drop (t.2 + x.length)) _ hwhole
            rw [← hnext, hrest]
            refine (List.drop_drop ..).symm.trans ((congrArg _ hmove).trans ?_)
            exact List.drop_drop ..
        · rw [if_neg hlt]
          have hat : t.2 = x.length * k := by omega
          refine ⟨hlength, ?_, hnext⟩
          rw [List.take_add, hat, hmoved]
    · rw [if_neg htrue] at hs ⊢
      subst hs
      rw [List.append_nil]
      exact ⟨hbytes, hlength, hfront, hnext⟩

/-! ### Sizes as ints -/

theorem quotient_small (h : Formed x) (hpos : 0 < x.length) (hsize : x.arsize < 2147483648) :
    quotient x.arsize x.length = .ok (elements x) := by
  obtain ⟨hcount, hbytes⟩ := elements_eq h hpos
  have hcast : (x.arsize : ℤ) = x.length * (x.arsize / x.length : ℕ) := by exact_mod_cast hbytes
  rw [quotient, if_neg (Nat.ne_of_gt hpos), toInt_small hsize, hcount, hcast,
    Int.mul_tdiv_cancel_left _ (Int.natCast_ne_zero.2 (Nat.ne_of_gt hpos))]

theorem quotient_large {size len : ℕ} (hpos : 0 < len) (hsize : 2147483648 ≤ size)
    (hlt : size < 4294967296) :
    ∃ q ≤ 0, quotient size len = .ok q ∧ q = Int.tdiv (size - 4294967296) len := by
  refine ⟨_, ?_, by rw [quotient, if_neg (Nat.ne_of_gt hpos), toInt_large hsize hlt], rfl⟩
  have hneg : (size : ℤ) - 4294967296 = -(4294967296 - size) := by omega
  have hnonneg := Int.tdiv_nonneg (show (0 : ℤ) ≤ 4294967296 - size by omega)
    (Int.natCast_nonneg len)
  rw [hneg, Int.neg_tdiv]
  omega

structure Selection (x : ArrayDesc) (data : List Byte) (m : ArrayDesc) (mask : List Byte)
    (numv : ℤ) (k : ℕ) (moved : List Byte) : Prop where
  run : select x data numv (.array m mask) =
    .ok (moved, (x.length * (chosen x data m mask k).length : ℕ))
  length_eq : moved.length = data.length
  front : moved.take (x.length * (chosen x data m mask k).length) =
    (chosen x data m mask k).flatten
  unmoved : k = 0 → moved = data
  le : k ≤ (elements x).toNat
  small : x.arsize < 2147483648 ∧ m.arsize < 2147483648 →
    k = if numv < 0 then (elements x).toNat else min (elements x).toNat numv.toNat
  large : ¬ (x.arsize < 2147483648 ∧ m.arsize < 2147483648) → k = 0

theorem select_spec (harray : ArrayOf d x data) (hpos : 0 < x.length)
    (hmask : MaskFor x (.array m mask)) (numv : ℤ) :
    ∃ k moved, Selection x data m mask numv k moved := by
  obtain ⟨e, he, hm, hcount⟩ := hmask
  have hmpos : 0 < m.length := by
    cases hsize : e.size with
    | none => cases e <;> simp_all [Dtype.size]
    | some n =>
      rw [hm.size_eq n hsize]
      cases e <;> cases hsize <;> omega
  have hdata : data.length = x.length * (elements x).toNat :=
    @bytes_length d x.length (.array x data) ⟨harray, rfl⟩
  have hnonneg := harray.formed.nonneg
  obtain ⟨numa, hnuma, hsmalla, hlargea⟩ : ∃ numa, quotient x.arsize x.length = .ok numa ∧
      (x.arsize < 2147483648 → numa = elements x) ∧ (2147483648 ≤ x.arsize → numa ≤ 0) := by
    by_cases hsize : x.arsize < 2147483648
    · exact ⟨_, quotient_small harray.formed hpos hsize, fun _ => rfl, by omega⟩
    · obtain ⟨q, hq, hrun, -⟩ := quotient_large hpos (by omega) harray.formed.arsize_lt
      exact ⟨q, hrun, by omega, fun _ => hq⟩
  obtain ⟨numm, hnumm, hsmallm, hlargem⟩ : ∃ numm, quotient m.arsize m.length = .ok numm ∧
      (m.arsize < 2147483648 → numm = elements x) ∧ (2147483648 ≤ m.arsize → numm ≤ 0) := by
    by_cases hsize : m.arsize < 2147483648
    · exact ⟨_, quotient_small hm.formed hmpos hsize, fun _ => hcount, by omega⟩
    · obtain ⟨q, hq, hrun, -⟩ := quotient_large hmpos (by omega) hm.formed.arsize_lt
      exact ⟨q, hrun, by omega, fun _ => hq⟩
  have hle : (maskCount numa numm numv).toNat ≤ (elements x).toNat := by
    simp only [maskCount]
    split_ifs <;> omega
  obtain ⟨hbytes, hlength, hfront, -⟩ := condense_spec mask hpos hmpos hdata hle rfl
  refine ⟨(maskCount numa numm numv).toNat, _, ?_, hlength, ?_, ?_, hle, ?_, ?_⟩
  · simp only [select, hnuma, hnumm, bind, Except.bind, hbytes]
  · rw [← hbytes]
    exact hfront
  · intro hnone
    rw [hnone]
    rfl
  · rintro ⟨hx, hms⟩
    have ha := hsmalla hx
    have hmm := hsmallm hms
    simp only [maskCount]
    split_ifs <;> omega
  · intro hbig
    have hor : 2147483648 ≤ x.arsize ∨ 2147483648 ≤ m.arsize := by omega
    simp only [maskCount]
    rcases hor with hx | hms
    · have ha := hlargea hx
      split_ifs <;> omega
    · have hmm := hlargem hms
      split_ifs <;> omega

/-! ### Elements of the result -/

def plain (x : ArrayDesc) (arsize : ℕ) : ArrayDesc :=
  { x with coeff := false, bounds := false, dimct := 1, arsize }

theorem length_flatten_of {list : List (List Byte)} {len : ℕ}
    (hlen : ∀ b ∈ list, b.length = len) : list.flatten.length = len * list.length := by
  rw [List.length_flatten, List.map_congr_left hlen, List.map_const', List.sum_replicate]
  exact Nat.mul_comm _ _

theorem contents_plain {list : List (List Byte)} {bytes : List Byte} (hpos : 0 < x.length)
    (hlen : ∀ b ∈ list, b.length = x.length)
    (hfront : bytes.take (x.length * list.length) = list.flatten) :
    contents (plain x (x.length * list.length)) bytes = list := by
  have hcount : (elements (plain x (x.length * list.length))).toNat = list.length := by
    simp [elements, dims, plain, hpos]
  rw [contents, hcount]
  exact elements_flatten hlen hfront

theorem contents_none (x : ArrayDesc) (bytes : List Byte) : contents (plain x 0) bytes = [] := by
  simp [contents, elements, dims, plain]

section Whole

variable (h : ArrayOf d y vector)

include h

theorem length_data : vector.length = y.length * (elements y).toNat :=
  @bytes_length d y.length (.array y vector) ⟨h, rfl⟩

omit h in
theorem length_contents : (contents y vector).length = (elements y).toNat := by
  rw [contents, List.length_map, List.length_range]

theorem mem_contents {b : List Byte} (hb : b ∈ contents y vector) : b.length = y.length := by
  obtain ⟨k, hk, rfl⟩ := List.mem_map.1 hb
  exact length_element (length_data h) (List.mem_range.1 hk)

theorem flatten_contents : (contents y vector).flatten = vector := by
  rw [contents, flatten_elements, ← length_data h, List.take_length]

omit h in
theorem take_contents {k : ℕ} (hk : k ≤ (elements y).toNat) :
    (contents y vector).take k = (List.range k).map (element y.length vector) := by
  rw [contents, ← List.map_take, List.take_range, Nat.min_eq_left hk]

theorem flatten_drop_contents {k : ℕ} (hk : k ≤ (elements y).toNat) :
    ((contents y vector).drop k).flatten = vector.drop (y.length * k) := by
  have hwhole := flatten_contents h
  rw [← List.take_append_drop k (contents y vector), List.flatten_append, take_contents hk,
    flatten_elements] at hwhole
  have hsplit := List.take_append_drop (y.length * k) vector
  exact List.append_cancel_left (hwhole.trans hsplit.symm)

theorem contents_overlay {list : List (List Byte)} (hlen : ∀ b ∈ list, b.length = y.length)
    (hle : list.length ≤ (elements y).toNat) :
    contents y (list.flatten ++ vector.drop (y.length * list.length)) =
      list ++ (contents y vector).drop list.length := by
  have hcount : (list ++ (contents y vector).drop list.length).length = (elements y).toNat := by
    rw [List.length_append, List.length_drop, length_contents]
    omega
  have hlens : ∀ b ∈ list ++ (contents y vector).drop list.length, b.length = y.length := by
    intro b hb
    rcases List.mem_append.1 hb with hb | hb
    · exact hlen b hb
    · exact mem_contents h (List.mem_of_mem_drop hb)
  rw [contents, ← hcount]
  apply elements_flatten hlens
  rw [List.flatten_append, flatten_drop_contents h hle]
  apply List.take_of_length_le
  have hflat := length_flatten_of hlen
  have hsub := Nat.mul_le_mul_left y.length hle
  rw [List.length_append, hflat, List.length_drop, length_data h, hcount]
  omega

end Whole

theorem mem_chosen {k : ℕ} (h : ArrayOf d x data) (hk : k ≤ (elements x).toNat) {b : List Byte}
    (hb : b ∈ chosen x data m mask k) : b.length = x.length := by
  obtain ⟨i, hi, rfl⟩ := List.mem_map.1 hb
  have hlt := List.mem_range.1 (List.mem_of_mem_filter hi)
  exact length_element (length_data h) (by omega)

theorem pack_eq {mask : Values} {vector : Option Values} {numv bytes : ℤ} {moved : List Byte}
    (hcount : vectorCount x.length vector = .ok numv)
    (hselect : select x data numv mask = .ok (moved, bytes)) :
    pack x data mask vector =
      if numv = -2 then fillOut (plain x x.arsize) moved bytes vector
      else if bytes < numv * x.length then overlay moved bytes vector
      else .ok (.array (plain x (bytes % 4294967296).toNat) moved) := by
  simp only [pack, hcount, hselect, bind, Except.bind, plain]

theorem overlay_contents (list : List (List Byte)) (moved : List Byte) (hpos : 0 < x.length)
    (h : ArrayOf d y vector) (hsame : y.length = x.length)
    (hlen : ∀ b ∈ list, b.length = x.length) (hle : list.length ≤ (elements y).toNat)
    (hlt : x.length * list.length < 4294967296)
    (hfront : moved.take (x.length * list.length) = list.flatten) :
    ∃ z bytes, (if ((x.length * list.length : ℕ) : ℤ) < elements y * x.length
        then overlay moved (x.length * list.length : ℕ) (some (.array y vector))
        else .ok (.array (plain x (((x.length * list.length : ℕ) : ℤ) % 4294967296).toNat) moved)) =
          .ok (.array z bytes) ∧
      contents z bytes = list ++ (contents y vector).drop list.length := by
  have hnonneg := h.formed.nonneg
  by_cases hless : ((x.length * list.length : ℕ) : ℤ) < elements y * x.length
  · refine ⟨y, list.flatten ++ vector.drop (y.length * list.length), ?_, ?_⟩
    · rw [if_pos hless, overlay, if_neg (by omega), Int.toNat_natCast, hfront, hsame]
    · exact contents_overlay h (fun b hb => (hlen b hb).trans hsame.symm) hle
  · have hall : list.length = (elements y).toNat := by
      by_contra hne
      have hshort : list.length + 1 ≤ (elements y).toNat := by omega
      have hmul := Nat.mul_le_mul_left x.length hshort
      rw [Nat.mul_succ] at hmul
      apply hless
      rw [← Int.toNat_of_nonneg hnonneg, Int.mul_comm]
      exact_mod_cast (by omega : x.length * list.length < x.length * (elements y).toNat)
    refine ⟨plain x (x.length * list.length), moved, ?_, ?_⟩
    · rw [if_neg hless]
      congr 3
      omega
    · rw [contents_plain hpos hlen hfront, List.drop_of_length_le (by rw [length_contents, hall]),
        List.append_nil]

theorem convert_scalar {z : ArrayDesc} {rest : ℕ} (hpos : 0 < z.length)
    (hsize : z.length * rest < 2147483648) (out : List Byte) :
    convert z (z.length * rest) out (.scalar s) =
      (List.replicate rest s).flatten ++ out.drop (rest * z.length) := by
  have hmax : max (z.length : ℤ) 1 = z.length := max_eq_left (by omega)
  have hnumb : Int.tdiv (toInt (z.length * rest : ℕ)) (max z.length 1) = rest := by
    rw [toInt_small hsize, hmax]
    push_cast
    exact Int.mul_tdiv_cancel_left _ (by omega)
  have hsome : ¬ (1 : ℤ) ≤ 0 := by omega
  simp only [convert, hnumb, Int.toNat_natCast, if_neg hsome]
  by_cases hnone : rest = 0
  · subst hnone
    simp
  · exact if_neg (by omega)

theorem fill_contents (list : List (List Byte)) (moved : List Byte) (hpos : 0 < x.length)
    (h : ArrayOf d x data) (hsize : x.arsize < 2147483648)
    (hlen : ∀ b ∈ list, b.length = x.length) (hle : list.length ≤ (elements x).toNat)
    (hfront : moved.take (x.length * list.length) = list.flatten) (hs : s.length = x.length) :
    ∃ bytes, fillOut (plain x x.arsize) moved (x.length * list.length : ℕ) (some (.scalar s)) =
        .ok (.array (plain x x.arsize) bytes) ∧
      contents (plain x x.arsize) bytes =
        list ++ List.replicate ((elements x).toNat - list.length) s := by
  have harsize : x.arsize = x.length * (elements x).toNat :=
    h.data_length.symm.trans (length_data h)
  obtain ⟨rest, hrest⟩ := Nat.exists_eq_add_of_le hle
  have hdiff : (elements x).toNat - list.length = rest := by omega
  have hsplit : x.arsize = x.length * list.length + x.length * rest := by
    rw [harsize, hrest, Nat.mul_add]
  have hleft : ((x.arsize - (x.length * list.length : ℕ) : ℤ) % 4294967296).toNat =
      x.length * rest := by
    omega
  have hcount : (list ++ List.replicate rest s).length = (elements x).toNat := by
    rw [List.length_append, List.length_replicate, hrest]
  have hlens : ∀ b ∈ list ++ List.replicate rest s, b.length = x.length := by
    intro b hb
    rcases List.mem_append.1 hb with hb | hb
    · exact hlen b hb
    · rw [List.eq_of_mem_replicate hb, hs]
  have hconvert := convert_scalar (z := plain x x.arsize) (s := s) hpos
    (show x.length * rest < 2147483648 by omega) (moved.drop (x.length * list.length))
  have hfull : ((list ++ List.replicate rest s).flatten ++
      (moved.drop (x.length * list.length)).drop (rest * x.length)).take
        (x.length * (list ++ List.replicate rest s).length) =
      (list ++ List.replicate rest s).flatten :=
    List.take_left' (length_flatten_of hlens)
  have hplain : plain x x.arsize = plain x (x.length * (list ++ List.replicate rest s).length) := by
    rw [hcount, ← harsize]
  refine ⟨_, rfl, ?_⟩
  change contents (plain x x.arsize) (moved.take ((x.length * list.length : ℕ) : ℤ).toNat ++
    convert (plain x x.arsize) ((x.arsize - (x.length * list.length : ℕ) : ℤ) % 4294967296).toNat
      (moved.drop ((x.length * list.length : ℕ) : ℤ).toNat) (.scalar s)) = _
  rw [hleft, Int.toNat_natCast, hfront, hdiff]
  refine (congrArg _ (congrArg _ hconvert)).trans ?_
  rw [← List.append_assoc, ← List.flatten_append, hplain]
  exact contents_plain hpos hlens hfull

theorem convert_none {z : ArrayDesc} {size : ℕ} {v : Values}
    (h : Int.tdiv (toInt size) (max z.length 1) ≤ 0) (out : List Byte) :
    convert z size out v = out := by
  simp only [convert, h, true_or, if_true]

theorem fill_large {v : Values} (hpos : 0 < x.length) (hsize : 2147483648 ≤ x.arsize)
    (hlt : x.arsize < 4294967296) :
    fillOut (plain x x.arsize) data 0 (some v) = .ok (.array (plain x x.arsize) data) := by
  have hword : (((x.arsize : ℤ) - 0) % 4294967296).toNat = x.arsize := by omega
  have hnumb : Int.tdiv (toInt x.arsize) (max x.length 1) ≤ 0 := by
    obtain ⟨q, hq, -, htdiv⟩ := quotient_large hpos hsize hlt
    have hmax : max (x.length : ℤ) 1 = x.length := max_eq_left (by omega)
    rw [toInt_large hsize hlt, hmax, ← htdiv]
    exact hq
  have hconvert := convert_none (z := plain x x.arsize) (v := v) hnumb data
  change Except.ok (Values.array (plain x x.arsize) (data.take 0 ++
    convert (plain x x.arsize) (((x.arsize : ℤ) - 0) % 4294967296).toNat (data.drop 0) v)) = _
  rw [hword, List.drop_zero, hconvert, List.take_zero, List.nil_append]

theorem contents_whole (data : List Byte) (h : Formed x) (hpos : 0 < x.length) :
    contents (plain x x.arsize) data = contents x data := by
  have hcount : elements (plain x x.arsize) = elements x := by
    rw [(elements_eq h hpos).1]
    simp [elements, dims, plain]
  rw [contents, hcount, contents, plain]

/-! ### Array masks -/

section ArrayMask

variable (harray : ArrayOf d x data) (hpos : 0 < x.length) (hmask : MaskFor x (.array m mask))

include harray hpos hmask

theorem packs_selected : Packs x data (.array m mask) none ↔ Complete x data m mask none := by
  obtain ⟨k, moved, hsel⟩ := select_spec harray hpos hmask (-1)
  have hk : k = reach x m none := by
    simp only [reach]
    split
    · rename_i hsmall
      exact hsel.small hsmall
    · rename_i hlarge
      exact hsel.large hlarge
  have hbound := Nat.mul_le_mul_left x.length
    ((length_chosen_le x data m mask k).trans hsel.le)
  have hlt := harray.formed.arsize_lt
  rw [← length_data harray, harray.data_length] at hbound
  have hresult := contents_plain hpos (fun b hb => mem_chosen harray hsel.le hb) hsel.front
  have hneg : ¬ ((x.length * (chosen x data m mask k).length : ℕ) : ℤ) < -1 * (x.length : ℤ) := by
    omega
  rw [Packs, pack_eq rfl hsel.run, if_neg (by decide), if_neg hneg, Complete, ← hk, expected,
    selected, ← chosen_append hsel.le]
  have hword : (((x.length * (chosen x data m mask k).length : ℕ) : ℤ) % 4294967296).toNat =
      x.length * (chosen x data m mask k).length := by
    omega
  rw [hword]
  constructor
  · rintro ⟨z, bytes, hrun, hall⟩
    cases hrun
    rw [hresult] at hall
    exact List.self_eq_append_right.1 hall
  · intro hnone
    refine ⟨_, _, rfl, ?_⟩
    rw [hresult, hnone, List.append_nil]

theorem packs_filled (hs : Element d x.length s) :
    Packs x data (.array m mask) (some (.scalar s)) ↔
      if x.arsize < 2147483648 then Complete x data m mask (some (.scalar s))
      else contents x data = expected x data (.array m mask) (some (.scalar s)) := by
  obtain ⟨k, moved, hsel⟩ := select_spec harray hpos hmask (-2)
  rw [Packs, pack_eq rfl hsel.run, if_pos rfl]
  by_cases hsize : x.arsize < 2147483648
  · have hk : k = reach x m (some (.scalar s)) := by
      simp only [reach]
      split
      · rename_i hsmall
        exact hsel.small hsmall
      · rename_i hlarge
        exact hsel.large hlarge
    have hle := length_chosen_le x data m mask k
    obtain ⟨bytes, hrun, hresult⟩ := fill_contents _ _ hpos harray hsize
      (fun b hb => mem_chosen harray hsel.le hb) (hle.trans hsel.le) hsel.front hs.1
    have hwhole := length_chosen_le x data m mask
      (elements x).toNat
    rw [if_pos hsize, hrun, Complete, ← hk, expected, selected]
    rw [← chosen_append hsel.le, List.length_append] at hwhole ⊢
    generalize beyond x data m mask k = rest at *
    obtain ⟨left, hleft⟩ := Nat.exists_eq_add_of_le hwhole
    have hthis : (elements x).toNat - (chosen x data m mask k).length = rest.length + left := by
      omega
    have hothers : (elements x).toNat - ((chosen x data m mask k).length + rest.length) = left := by
      omega
    rw [hothers]
    rw [hthis, List.replicate_add] at hresult
    constructor
    · rintro ⟨z, bytes', heq, hall⟩
      cases heq
      rw [hresult, List.append_assoc] at hall
      have hrest := (List.append_inj (List.append_cancel_left hall) List.length_replicate).1
      intro b hb
      rw [← hrest] at hb
      exact List.eq_of_mem_replicate hb
    · intro hall
      refine ⟨_, _, rfl, ?_⟩
      rw [hresult, List.append_assoc]
      congr 2
      exact (List.eq_replicate_of_mem hall).symm
  · have hnone : k = 0 := hsel.large fun hsmall => hsize hsmall.1
    have hmoved := hsel.unmoved hnone
    subst hnone
    subst hmoved
    have hchosen : (chosen x moved m mask 0).length = 0 := rfl
    have hplain := contents_whole moved harray.formed hpos
    rw [if_neg hsize, hchosen, Nat.mul_zero, Int.natCast_zero,
      fill_large hpos (by omega) harray.formed.arsize_lt]
    constructor
    · rintro ⟨z, bytes, heq, hall⟩
      cases heq
      exact hplain.symm.trans hall
    · intro hall
      exact ⟨_, _, rfl, hplain.trans hall⟩

theorem packs_overlaid (hvector : VectorFor d x data (.array m mask) (some (.array y vector)))
    (hsize : y.arsize < 2147483648) :
    Packs x data (.array m mask) (some (.array y vector)) ↔
      Complete x data m mask (some (.array y vector)) := by
  obtain ⟨h, hsame, hroom⟩ := hvector
  have hquotient : quotient y.arsize x.length = .ok (elements y) := by
    have hsmall := quotient_small h.formed (hsame ▸ hpos) hsize
    rwa [hsame] at hsmall
  have hnonneg := h.formed.nonneg
  obtain ⟨k, moved, hsel⟩ := select_spec harray hpos hmask (elements y)
  have hk : k = reach x m (some (.array y vector)) := by
    simp only [reach]
    split
    · rename_i hsmall
      rw [hsel.small hsmall, if_neg (by omega)]
    · rename_i hlarge
      exact hsel.large hlarge
  have hle : (chosen x data m mask k).length ≤ (elements y).toNat := by
    have hcount := length_chosen_le x data m mask k
    by_cases hsmall : x.arsize < 2147483648 ∧ m.arsize < 2147483648
    · have hmin := hsel.small hsmall
      rw [if_neg (by omega)] at hmin
      omega
    · have hnone := hsel.large hsmall
      omega
  have hbound := Nat.mul_le_mul_left x.length
    ((length_chosen_le x data m mask k).trans hsel.le)
  have hlt := harray.formed.arsize_lt
  rw [← length_data harray, harray.data_length] at hbound
  obtain ⟨z, bytes, hrun, hresult⟩ := overlay_contents _ _ hpos h hsame
    (fun b hb => mem_chosen harray hsel.le hb) hle (by omega) hsel.front
  rw [selected, ← chosen_append hsel.le, List.length_append] at hroom
  have hcount : vectorCount x.length (some (.array y vector)) = .ok (elements y) := hquotient
  rw [Packs, pack_eq hcount hsel.run, if_neg (by omega), hrun, Complete, ← hk, expected,
    selected, ← chosen_append hsel.le]
  generalize beyond x data m mask k = rest at *
  generalize chosen x data m mask k = front at *
  have hsplit := List.take_append_drop rest.length ((contents y vector).drop front.length)
  rw [List.drop_drop] at hsplit
  have hshort : (((contents y vector).drop front.length).take rest.length).length =
      rest.length := by
    rw [List.length_take, List.length_drop, length_contents]
    omega
  rw [List.length_append, List.append_assoc]
  constructor
  · rintro ⟨z', bytes', heq, hall⟩
    cases heq
    rw [hresult, ← hsplit] at hall
    exact (List.append_inj (List.append_cancel_left hall) hshort).1.symm
  · intro hall
    refine ⟨_, _, rfl, ?_⟩
    rw [hresult, ← hsplit, ← hall]

theorem packs_large (hvector : VectorFor d x data (.array m mask) (some (.array y vector)))
    (hsize : 2147483648 ≤ y.arsize) :
    Packs x data (.array m mask) (some (.array y vector)) ↔
      quotient y.arsize x.length = .ok (-2) ∧
        contents x data = expected x data (.array m mask) (some (.array y vector)) := by
  obtain ⟨h, hsame, hroom⟩ := hvector
  obtain ⟨q, hq, hquotient, -⟩ := quotient_large hpos hsize h.formed.arsize_lt
  obtain ⟨k, moved, hsel⟩ := select_spec harray hpos hmask q
  have hlength : (expected x data (.array m mask) (some (.array y vector))).length =
      (elements y).toNat := by
    rw [expected, List.length_append, List.length_drop, length_contents]
    omega
  have hxsize := harray.data_length.symm.trans (length_data harray)
  have hysize := h.data_length.symm.trans (length_data h)
  rw [hsame] at hysize
  -- an array as long as the vector is not looked at
  have hlarge : (elements y).toNat ≤ (elements x).toNat → k = 0 := by
    intro hle
    have hmul := Nat.mul_le_mul_left x.length hle
    exact hsel.large fun hsmall => by omega
  have hcount : vectorCount x.length (some (.array y vector)) = .ok q := hquotient
  rw [Packs, pack_eq hcount hsel.run, hquotient]
  by_cases htwo : q = -2
  · rw [if_pos htwo]
    have hwhole : ∀ bytes, (contents (plain x x.arsize) bytes).length = (elements x).toNat := by
      intro bytes
      rw [contents_whole _ harray.formed hpos, length_contents]
    have hsame' : (elements y).toNat = (elements x).toNat →
        fillOut (plain x x.arsize) moved (x.length * (chosen x data m mask k).length : ℕ)
          (some (.array y vector)) = .ok (.array (plain x x.arsize) data) := by
      intro heq
      have hnone := hlarge heq.le
      rw [hsel.unmoved hnone, hnone]
      have hchosen : (chosen x data m mask 0).length = 0 := rfl
      rw [hchosen, Nat.mul_zero]
      exact fill_large hpos (by rw [heq] at hysize; omega) harray.formed.arsize_lt
    constructor
    · rintro ⟨z, bytes, hrun, hall⟩
      have hz : z = plain x x.arsize := by
        rw [fillOut] at hrun
        cases hrun
        rfl
      have heq : (elements y).toNat = (elements x).toNat := by
        rw [← hlength, ← hall, hz, hwhole]
      rw [hsame' heq] at hrun
      cases hrun
      refine ⟨by rw [htwo], ?_⟩
      rw [← hall, contents_whole _ harray.formed hpos]
    · rintro ⟨-, hall⟩
      have heq : (elements y).toNat = (elements x).toNat := by
        rw [← hlength, ← hall, length_contents]
      refine ⟨_, _, hsame' heq, ?_⟩
      rw [contents_whole _ harray.formed hpos, hall]
  · have hneg : q * (x.length : ℤ) ≤ 0 := Int.mul_nonpos_of_nonpos_of_nonneg hq (by omega)
    rw [if_neg htwo, if_neg (by omega)]
    refine iff_of_false ?_ fun hboth => htwo (Except.ok.inj hboth.1)
    rintro ⟨z, bytes, hrun, hall⟩
    cases hrun
    have hcount := length_chosen_le x data m mask k
    have hbound := Nat.mul_le_mul_left x.length (hcount.trans hsel.le)
    have hlt := harray.formed.arsize_lt
    have hword : (((x.length * (chosen x data m mask k).length : ℕ) : ℤ) % 4294967296).toNat =
        x.length * (chosen x data m mask k).length := by
      omega
    rw [hword, contents_plain hpos (fun b hb => mem_chosen harray hsel.le hb) hsel.front] at hall
    have heq : (chosen x data m mask k).length = (elements y).toNat := by
      rw [← hlength, ← hall]
    have hkn := hsel.le
    have hnone := hlarge (by omega)
    have hzero : (elements y).toNat = 0 := by omega
    rw [hzero] at hysize
    omega

end ArrayMask

/-! ### Scalar masks -/

section ScalarMask

variable {b : List Byte} (harray : ArrayOf d x data)

include harray

theorem arsize_eq : x.arsize = x.length * (elements x).toNat :=
  harray.data_length.symm.trans (length_data harray)

theorem take_arsize : data.take x.arsize = data := by
  rw [← harray.data_length, List.take_length]

theorem contents_plain_iff : contents (plain x x.arsize) data = contents x data ↔
    0 < x.length ∨ elements x = 0 := by
  have hnonneg := harray.formed.nonneg
  by_cases hpos : 0 < x.length
  · exact iff_of_true (contents_whole _ harray.formed hpos) (Or.inl hpos)
  · have hzero : x.length = 0 := by omega
    have hsize := arsize_eq harray
    rw [hzero, Nat.zero_mul] at hsize
    rw [hsize, contents_none, eq_comm, contents, List.map_eq_nil_iff, List.range_eq_nil]
    omega

theorem packs_scalar_none : Packs x data (.scalar b) none ↔ Right x data (.scalar b) none := by
  have hlt := harray.formed.arsize_lt
  have hselect : select x data (-1) (.scalar b) =
      .ok (data, if isTrue b then toInt x.arsize else 0) := rfl
  rw [Packs, pack_eq rfl hselect, if_neg (by decide), Right, expected, selected]
  by_cases htrue : isTrue b = true
  · rw [if_pos htrue, if_pos htrue]
    by_cases hsize : x.arsize < 2147483648
    · have hword : ((x.arsize : ℤ) % 4294967296).toNat = x.arsize := by omega
      rw [toInt_small hsize, if_neg (by omega), hword, ← contents_plain_iff harray]
      constructor
      · rintro ⟨y, bytes, hrun, hall⟩
        cases hrun
        exact fun _ => ⟨hall, Or.inl hsize⟩
      · intro hall
        exact ⟨_, _, rfl, (hall htrue).1⟩
    · rw [toInt_large (by omega) hlt]
      by_cases hover : 4294967296 ≤ x.arsize + x.length
      · have hword : (((x.arsize : ℤ) - 4294967296) % 4294967296).toNat = x.arsize := by omega
        rw [if_neg (by omega), hword, ← contents_plain_iff harray]
        constructor
        · rintro ⟨y, bytes, hrun, hall⟩
          cases hrun
          exact fun _ => ⟨hall, Or.inr hover⟩
        · intro hall
          exact ⟨_, _, rfl, (hall htrue).1⟩
      · rw [if_pos (by omega)]
        refine iff_of_false ?_ fun hall => by have := (hall htrue).2; omega
        rintro ⟨y, bytes, hrun, -⟩
        cases hrun
  · rw [if_neg htrue, if_neg htrue, if_neg (by omega)]
    exact iff_of_true ⟨_, _, rfl, contents_none x data⟩ fun hb => absurd hb htrue

theorem fill_all {v : Values} : fillOut (plain x x.arsize) data (toInt x.arsize) (some v) =
    .ok (.array (plain x x.arsize) data) := by
  have hlt := harray.formed.arsize_lt
  have hnone : ((x.arsize - toInt x.arsize) % 4294967296).toNat = 0 := by
    by_cases hsize : x.arsize < 2147483648
    · rw [toInt_small hsize]
      omega
    · rw [toInt_large (by omega) hlt]
      omega
  have hconvert := @convert_none (plain x x.arsize) 0 v
    (by rw [toInt_small (by omega)]; simp) (data.drop (toInt x.arsize).toNat)
  change Except.ok (Values.array (plain x x.arsize) (data.take (toInt x.arsize).toNat ++
    convert (plain x x.arsize) ((x.arsize - toInt x.arsize) % 4294967296).toNat
      (data.drop (toInt x.arsize).toNat) v)) = _
  rw [hnone, hconvert, List.take_append_drop]

theorem packs_scalar_filled (hs : Element d x.length s) :
    Packs x data (.scalar b) (some (.scalar s)) ↔
      Right x data (.scalar b) (some (.scalar s)) := by
  have hlt := harray.formed.arsize_lt
  have hselect : select x data (-2) (.scalar b) =
      .ok (data, if isTrue b then toInt x.arsize else 0) := rfl
  rw [Packs, pack_eq rfl hselect, if_pos rfl, Right, expected, selected]
  by_cases htrue : isTrue b = true
  · have hkept := fill_all harray (v := .scalar s)
    rw [if_pos htrue, if_pos htrue, hkept, length_contents, Nat.sub_self, List.replicate_zero,
      List.append_nil, ← contents_plain_iff harray]
    constructor
    · rintro ⟨y, bytes, hrun, hall⟩
      cases hrun
      exact ⟨hall, fun hfalse => nomatch htrue.symm.trans hfalse⟩
    · rintro ⟨hall, -⟩
      exact ⟨_, _, rfl, hall⟩
  · have hfalse := Bool.eq_false_of_not_eq_true htrue
    rw [if_neg htrue, if_neg htrue, List.length_nil, Nat.sub_zero, List.nil_append]
    by_cases hpos : 0 < x.length
    · by_cases hsize : x.arsize < 2147483648
      · obtain ⟨bytes, hrun, hresult⟩ := fill_contents [] data hpos harray hsize
          nofun (Nat.zero_le _) (by simp) hs.1
        refine iff_of_true ⟨_, _, hrun, hresult⟩ ⟨Or.inl hpos, fun _ => Or.inl hsize⟩
      · rw [fill_large hpos (by omega) hlt]
        constructor
        · rintro ⟨y, bytes, hrun, hall⟩
          cases hrun
          rw [contents_whole _ harray.formed hpos] at hall
          exact ⟨Or.inl hpos, fun _ => Or.inr fun a ha => List.eq_of_mem_replicate (hall ▸ ha)⟩
        · rintro ⟨-, hall⟩
          refine ⟨_, _, rfl, ?_⟩
          have heach := (hall hfalse).resolve_left hsize
          rw [contents_whole _ harray.formed hpos, List.eq_replicate_of_mem heach, length_contents]
    · have hzero : x.length = 0 := by omega
      have hnonneg := harray.formed.nonneg
      have hnone := arsize_eq harray
      rw [hzero, Nat.zero_mul] at hnone
      have hresult : ∀ bytes, contents (plain x x.arsize) bytes = [] := by
        intro bytes
        rw [hnone, contents_none]
      constructor
      · rintro ⟨y, bytes, hrun, hall⟩
        have hy : y = plain x x.arsize := by
          rw [fillOut] at hrun
          cases hrun
          rfl
        rw [hy, hresult, eq_comm, List.replicate_eq_nil_iff] at hall
        exact ⟨Or.inr (by omega), fun _ => Or.inl (by omega)⟩
      · rintro ⟨hor, -⟩
        have hempty : elements x = 0 := hor.resolve_left hpos
        refine ⟨_, _, rfl, ?_⟩
        rw [hresult, hempty]
        rfl

theorem packs_scalar_overlaid (hpos : 0 < x.length)
    (hvector : VectorFor d x data (.scalar b) (some (.array y vector)))
    (hsize : y.arsize < 2147483648) : Packs x data (.scalar b) (some (.array y vector)) := by
  obtain ⟨h, hsame, hroom⟩ := hvector
  have hquotient : quotient y.arsize x.length = .ok (elements y) := by
    have hsmall := quotient_small h.formed (hsame ▸ hpos) hsize
    rwa [hsame] at hsmall
  have hnonneg := h.formed.nonneg
  have hcount : vectorCount x.length (some (.array y vector)) = .ok (elements y) := hquotient
  have hselect : select x data (elements y) (.scalar b) =
      .ok (data, if isTrue b then toInt x.arsize else 0) := rfl
  rw [selected] at hroom
  rw [Packs, pack_eq hcount hselect, if_neg (by omega), expected, selected]
  by_cases htrue : isTrue b = true
  · rw [if_pos htrue] at hroom ⊢
    have hxsize := arsize_eq harray
    have hysize := arsize_eq h
    have hmul := Nat.mul_le_mul_left x.length hroom
    rw [length_contents] at hmul
    rw [hsame] at hysize
    have hfront : data.take (x.length * (contents x data).length) = (contents x data).flatten := by
      rw [flatten_contents harray, length_contents, ← hxsize, take_arsize harray]
    obtain ⟨z, bytes, hrun, hresult⟩ := overlay_contents _ _ hpos h hsame
      (fun b hb => mem_contents harray hb) hroom
      (by rw [length_contents, ← hxsize]; exact harray.formed.arsize_lt) hfront
    rw [length_contents, ← hxsize] at hrun
    rw [if_pos htrue, toInt_small (by omega), hrun]
    exact ⟨z, bytes, rfl, hresult⟩
  · rw [if_neg htrue] at hroom ⊢
    obtain ⟨z, bytes, hrun, hresult⟩ := overlay_contents [] data hpos h hsame
      nofun hroom (by simp) (by simp)
    rw [List.length_nil, Nat.mul_zero, Int.natCast_zero] at hrun
    rw [if_neg htrue, hrun]
    exact ⟨z, bytes, rfl, hresult⟩

omit harray in
theorem toNat_toInt {n : ℕ} (hlt : n < 4294967296) : (toInt n % 4294967296).toNat = n := by
  by_cases hsmall : n < 2147483648
  · rw [toInt_small hsmall]
    omega
  · rw [toInt_large (by omega) hlt]
    omega

theorem packs_scalar_large (hpos : 0 < x.length)
    (hvector : VectorFor d x data (.scalar b) (some (.array y vector)))
    (hsize : 2147483648 ≤ y.arsize) :
    Packs x data (.scalar b) (some (.array y vector)) ↔
      quotient y.arsize x.length = .ok (-2) ∧
        contents x data = expected x data (.scalar b) (some (.array y vector)) ∨
      isTrue b = true ∧ elements x = elements y ∧ x.length ∣ 4294967296 := by
  obtain ⟨h, hsame, hroom⟩ := hvector
  obtain ⟨q, hq, hquotient, htdiv⟩ := quotient_large hpos hsize h.formed.arsize_lt
  have hcount : vectorCount x.length (some (.array y vector)) = .ok q := hquotient
  have hselect : select x data q (.scalar b) =
      .ok (data, if isTrue b then toInt x.arsize else 0) := rfl
  have hlength : (expected x data (.scalar b) (some (.array y vector))).length =
      (elements y).toNat := by
    rw [expected, List.length_append, List.length_drop, length_contents]
    omega
  have hlt := harray.formed.arsize_lt
  have hxsize := arsize_eq harray
  have hysize := arsize_eq h
  rw [hsame] at hysize
  have hxnonneg := harray.formed.nonneg
  have hynonneg := h.formed.nonneg
  have hwhole := contents_whole data harray.formed hpos
  have hlarge : (elements y).toNat = (elements x).toNat → x.arsize = y.arsize := by
    intro heq
    rw [hxsize, hysize, heq]
  have hlengths : contents x data = expected x data (.scalar b) (some (.array y vector)) →
      (elements y).toNat = (elements x).toNat := by
    intro hall
    rw [← hlength, ← hall, length_contents]
  rw [Packs, pack_eq hcount hselect, hquotient]
  by_cases htrue : isTrue b = true
  · have hsplit : expected x data (.scalar b) (some (.array y vector)) =
        contents x data ++ (contents y vector).drop (elements x).toNat := by
      rw [expected, selected, if_pos htrue, length_contents]
    have hequal : elements x = elements y →
        contents x data = expected x data (.scalar b) (some (.array y vector)) := by
      intro heq
      rw [hsplit, List.drop_of_length_le (by rw [length_contents, heq]), List.append_nil]
    rw [if_pos htrue]
    by_cases htwo : q = -2
    · rw [if_pos htwo, fill_all harray, htwo]
      constructor
      · rintro ⟨z, bytes, hrun, hall⟩
        cases hrun
        exact Or.inl ⟨rfl, hwhole.symm.trans hall⟩
      · rintro (⟨-, hall⟩ | ⟨-, heq, -⟩)
        · exact ⟨_, _, rfl, hwhole.trans hall⟩
        · exact ⟨_, _, rfl, hwhole.trans (hequal heq)⟩
    · have hrest := Int.mul_tdiv_add_tmod ((y.arsize : ℤ) - 4294967296) x.length
      rw [← htdiv, Int.mul_comm] at hrest
      have hdvd : (x.length : ℤ) ∣ y.arsize := by
        rw [hysize]
        push_cast
        exact dvd_mul_right _ _
      -- what is left of the division is zero or negative
      have hmod : Int.tmod ((y.arsize : ℤ) - 4294967296) x.length ≤ 0 := by
        have hneg : (y.arsize : ℤ) - 4294967296 = -(4294967296 - y.arsize) := by omega
        have hylt := h.formed.arsize_lt
        rw [hneg, Int.neg_tmod]
        have := Int.tmod_nonneg (x.length : ℤ) (show (0 : ℤ) ≤ 4294967296 - y.arsize by omega)
        omega
      have hmodzero : Int.tmod ((y.arsize : ℤ) - 4294967296) x.length = 0 ↔
          x.length ∣ 4294967296 := by
        rw [← Int.dvd_iff_tmod_eq_zero, dvd_sub_right hdvd]
        exact_mod_cast Iff.rfl
      rw [if_neg htwo, toNat_toInt hlt]
      constructor
      · rintro ⟨z, bytes, hrun, hall⟩
        by_cases hless : toInt x.arsize < q * (x.length : ℤ)
        · have hneg : q * (x.length : ℤ) ≤ 0 :=
            Int.mul_nonpos_of_nonpos_of_nonneg hq (by omega)
          rw [if_pos hless, overlay, if_pos (hless.trans_le hneg)] at hrun
          cases hrun
        · rw [if_neg hless] at hrun
          cases hrun
          have heq := hlengths (hwhole.symm.trans hall)
          have hbytes := hlarge heq
          rw [hbytes, toInt_large hsize h.formed.arsize_lt] at hless
          have hxy : elements x = elements y := by
            rw [← Int.toNat_of_nonneg hxnonneg, ← Int.toNat_of_nonneg hynonneg, heq]
          refine Or.inr ⟨htrue, hxy, hmodzero.1 ?_⟩
          omega
      · rintro (⟨hcontra, -⟩ | ⟨-, heq, hdiv⟩)
        · exact absurd (Except.ok.inj hcontra) htwo
        · have hbytes := hlarge (by rw [heq])
          have hzero := hmodzero.2 hdiv
          rw [if_neg (by rw [hbytes, toInt_large hsize h.formed.arsize_lt]; omega)]
          exact ⟨_, _, rfl, hwhole.trans (hequal heq)⟩
  · have hor : ∀ p : Prop, p ∨ isTrue b = true ∧ elements x = elements y ∧
        x.length ∣ 4294967296 ↔ p :=
      fun p => or_iff_left fun hthird => htrue hthird.1
    rw [if_neg htrue, hor]
    by_cases htwo : q = -2
    · rw [if_pos htwo, htwo]
      constructor
      · rintro ⟨z, bytes, hrun, hall⟩
        have hz : z = plain x x.arsize := by
          rw [fillOut] at hrun
          cases hrun
          rfl
        have heq : (elements y).toNat = (elements x).toNat := by
          rw [← hlength, ← hall, hz, contents_whole _ harray.formed hpos, length_contents]
        have hbytes := hlarge heq
        rw [fill_large hpos (by omega) hlt] at hrun
        cases hrun
        exact ⟨rfl, hwhole.symm.trans hall⟩
      · rintro ⟨-, hall⟩
        have hbytes := hlarge (hlengths hall)
        exact ⟨_, _, fill_large hpos (by omega) hlt, hwhole.trans hall⟩
    · have hneg : q * (x.length : ℤ) ≤ 0 := Int.mul_nonpos_of_nonpos_of_nonneg hq (by omega)
      rw [if_neg htwo, if_neg (by omega)]
      refine iff_of_false ?_ fun hboth => htwo (Except.ok.inj hboth.1)
      rintro ⟨z, bytes, hrun, hall⟩
      cases hrun
      have hnone : (elements y).toNat = 0 := by
        rw [← hlength, ← hall]
        exact congrArg List.length (contents_none x data)
      rw [hnone] at hysize
      omega

end ScalarMask

/-- PACK gives what is selected and what follows it exactly when the sizes are right and the places
that are not looked at select nothing else than what is there. -/
theorem packs_iff {mask : Values} {vector : Option Values} (harray : ArrayOf d x data)
    (hmask : MaskFor x mask) (hvector : VectorFor d x data mask vector) :
    Packs x data mask vector ↔ Right x data mask vector := by
  by_cases hpos : 0 < x.length
  · cases mask with
    | scalar b =>
      cases vector with
      | none => exact packs_scalar_none harray
      | some v =>
        cases v with
        | scalar s => exact packs_scalar_filled harray hvector
        | array y vector =>
          rw [Right, and_iff_right hpos]
          by_cases hsize : y.arsize < 2147483648
          · exact iff_of_true (packs_scalar_overlaid harray hpos hvector hsize) (Or.inl hsize)
          · rw [or_iff_right hsize]
            exact packs_scalar_large harray hpos hvector (by omega)
    | array m mask =>
      cases vector with
      | none =>
        rw [Right, and_iff_right hpos]
        exact packs_selected harray hpos hmask
      | some v =>
        cases v with
        | scalar s =>
          rw [Right, and_iff_right hpos]
          exact packs_filled harray hpos hmask hvector
        | array y vector =>
          rw [Right, and_iff_right hpos]
          by_cases hsize : y.arsize < 2147483648
          · rw [if_pos hsize]
            exact packs_overlaid harray hpos hmask hvector hsize
          · rw [if_neg hsize]
            exact packs_large harray hpos hmask hvector (by omega)
  · have hzero : x.length = 0 := by omega
    have hdivide : ∀ size, quotient size x.length = .error .divideByZero := fun size => if_pos hzero
    cases mask with
    | scalar b =>
      cases vector with
      | none => exact packs_scalar_none harray
      | some v =>
        cases v with
        | scalar s => exact packs_scalar_filled harray hvector
        | array y vector =>
          refine iff_of_false ?_ fun hright => hpos hright.1
          rintro ⟨z, bytes, hrun, -⟩
          simp only [pack, vectorCount, hdivide, bind, Except.bind] at hrun
          cases hrun
    | array m mask =>
      have hfails : ¬ Packs x data (.array m mask) vector := by
        rintro ⟨z, bytes, hrun, -⟩
        obtain ⟨numv, -, hrun⟩ := Outcome.bind_eq_ok.1 hrun
        obtain ⟨moved, hselect, -⟩ := Outcome.bind_eq_ok.1 hrun
        simp only [select, hdivide, bind, Except.bind] at hselect
        cases hselect
      refine iff_of_false hfails ?_
      cases vector with
      | none => exact fun hright => hpos hright.1
      | some v => cases v <;> exact fun hright => hpos hright.1

/-- Three bytes, all selected but the second, and a vector of two. -/
def threeBytes : ArrayDesc := ⟨1, false, 1000, false, false, 1, 3, 1000, fun _ => 0⟩

def twoBytes : ArrayDesc := ⟨1, false, 2000, false, false, 1, 2, 2000, fun _ => 0⟩

theorem formed_threeBytes : ArrayOf .bu threeBytes [1#8, 2#8, 3#8] :=
  ⟨by constructor <;> decide, rfl, by decide, fun n hn => Option.some.inj hn⟩

theorem formed_twoBytes : ArrayOf .bu twoBytes [8#8, 3#8] :=
  ⟨by constructor <;> decide, rfl, by decide, fun n hn => Option.some.inj hn⟩

theorem packs_threeBytes : Packs threeBytes [1#8, 2#8, 3#8]
    (.array threeBytes [1#8, 0#8, 1#8]) (some (.array twoBytes [8#8, 3#8])) := by
  have hmask : MaskFor threeBytes (.array threeBytes [1#8, 0#8, 1#8]) :=
    ⟨.bu, by decide, ⟨formed_threeBytes.formed, rfl, by decide, fun n hn => Option.some.inj hn⟩,
      rfl⟩
  have hvector : VectorFor .bu threeBytes [1#8, 2#8, 3#8] (.array threeBytes [1#8, 0#8, 1#8])
      (some (.array twoBytes [8#8, 3#8])) := ⟨formed_twoBytes, rfl, by decide⟩
  refine (packs_iff formed_threeBytes hmask hvector).2 ⟨by decide, ?_⟩
  rw [if_pos (by decide)]
  simp only [Complete]
  decide

theorem packs_fails : ¬ ∀ (d : Dtype) (x : ArrayDesc) (data : List Byte) (mask : Values)
    (vector : Option Values), ArrayOf d x data → MaskFor x mask → VectorFor d x data mask vector →
      Packs x data mask vector := by
  intro hall
  have hmask : MaskFor threeBytes (.array threeBytes [1#8, 0#8, 1#8]) :=
    ⟨.bu, by decide, ⟨formed_threeBytes.formed, rfl, by decide, fun n hn => Option.some.inj hn⟩,
      rfl⟩
  have hvector : VectorFor .bu threeBytes [1#8, 2#8, 3#8] (.array threeBytes [1#8, 0#8, 1#8])
      (some (.array twoBytes [8#8, 9#8])) :=
    ⟨⟨formed_twoBytes.formed, rfl, by decide, fun n hn => Option.some.inj hn⟩, rfl, by decide⟩
  have hcomplete := (packs_overlaid formed_threeBytes (by decide) hmask hvector (by decide)).1
    (hall _ _ _ _ _ formed_threeBytes hmask hvector)
  simp only [Complete] at hcomplete
  exact absurd hcomplete (by decide)

end MdsPlus.Packing
