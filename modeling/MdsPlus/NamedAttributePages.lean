import MdsPlus.NamedAttributes

/-!
The index pages of a node as they lie in the file. Entries are counted through the
pages from the oldest on and fill them without gaps; the search runs from the newest
page back. Values are written once and stay where they are.
-/

namespace MdsPlus.NamedAttributePages

open BitMemory ByteFile Datafile NamedAttributes

variable {V : Type}

def key (x : Name) : List Byte := x.chars.map tolower

/-- Names of one to 63 characters: the name field holds them with their terminator. -/
structure Short (x : Name) : Prop where
  pos : 1 ≤ x.chars.length
  lt : x.chars.length < NAMED_ATTRIBUTE_NAME_SIZE

theorem tolower_eq_zero (c : Byte) : tolower c = 0 ↔ c = 0 := by
  have hall : ∀ c : BitVec 8, tolower c = 0 ↔ c = 0 := by decide +kernel
  exact hall c

theorem getD_eq_zero (x : Name) (j : ℕ) : x.chars.getD j 0 = 0 ↔ x.chars.length ≤ j := by
  by_cases hj : j < x.chars.length
  · rw [List.getD_eq_getElem _ _ hj]
    have hne := x.noNul x.chars[j] (List.getElem_mem hj)
    simp only [hne, false_iff, Nat.not_le]
    exact hj
  · rw [List.getD_eq_default _ _ (by omega)]
    simp only [true_iff]
    omega

theorem key_eq_iff (x y : Name) :
    key x = key y ↔ x.chars.length = y.chars.length ∧
      ∀ j < x.chars.length, tolower (x.chars.getD j 0) = tolower (y.chars.getD j 0) := by
  constructor
  · intro h
    have hlen := congrArg List.length h
    simp only [key, List.length_map] at hlen
    refine ⟨hlen, fun j hj => ?_⟩
    have hget := congrArg (fun l => l.getD j 0) h
    simp only [key] at hget
    rw [List.getD_eq_getElem _ _ (by simpa using hj),
      List.getD_eq_getElem _ _ (by simpa using hlen ▸ hj)] at hget
    rw [List.getD_eq_getElem _ _ hj, List.getD_eq_getElem _ _ (hlen ▸ hj)]
    simpa using hget
  · rintro ⟨hlen, hall⟩
    apply List.ext_getElem
    · simpa [key] using hlen
    · intro j hj hj'
      simp only [key, List.length_map] at hj hj'
      have hget := hall j hj
      rw [List.getD_eq_getElem _ _ hj, List.getD_eq_getElem _ _ hj'] at hget
      simpa [key] using hget

theorem charAt_nameField (y : Name) (offset : Offset) (length : BitVec 32) (j : ℕ)
    (hj : j < NAMED_ATTRIBUTE_NAME_SIZE) :
    charAt ⟨nameField y, offset, length⟩ j = y.chars.getD j 0 := by
  rw [charAt, dif_pos hj, nameField, Vector.getElem_ofFn]

theorem sameName_iff {x : Name} (hx : Short x) (y : Name) (offset : Offset)
    (length : BitVec 32) : sameName x ⟨nameField y, offset, length⟩ = true ↔ key x = key y := by
  have hchar := charAt_nameField y offset length
  simp only [sameName, Bool.and_eq_true, List.all_eq_true, List.mem_range, decide_eq_true_eq]
  rw [key_eq_iff, hchar _ hx.lt, getD_eq_zero]
  have hswap : (∀ j < x.chars.length,
        tolower (x.chars.getD j 0) = tolower (charAt ⟨nameField y, offset, length⟩ j)) ↔
      ∀ j < x.chars.length, tolower (x.chars.getD j 0) = tolower (y.chars.getD j 0) := by
    refine forall₂_congr fun j hj => ?_
    rw [hchar j (Nat.lt_trans hj hx.lt)]
  rw [hswap]
  constructor
  · rintro ⟨hall, hle⟩
    refine ⟨?_, hall⟩
    -- a longer name has a character where the shorter one ends
    by_contra hne
    have hlt : y.chars.length < x.chars.length := by omega
    have heq := hall _ hlt
    rw [(getD_eq_zero y _).mpr (Nat.le_refl _), (tolower_eq_zero 0).mpr rfl, tolower_eq_zero,
      getD_eq_zero] at heq
    omega
  · rintro ⟨hlen, hall⟩
    exact ⟨hall, by omega⟩

theorem sameName_empty {x : Name} (hx : Short x) : sameName x emptyAttribute = false := by
  rw [Bool.eq_false_iff]
  intro h
  simp only [sameName, Bool.and_eq_true, List.all_eq_true, List.mem_range,
    decide_eq_true_eq] at h
  have hzero := h.1 0 hx.pos
  rw [charAt, dif_pos (by decide), emptyAttribute, Vector.getElem_replicate,
    (tolower_eq_zero 0).mpr rfl, tolower_eq_zero, getD_eq_zero] at hzero
  have := hx.pos
  omega

/-- The records of a node with extended attributes: the attributes themselves, the
index pages from the oldest on, and values by the place they were written at. -/
inductive Key
  | attributes
  | page (p : ℕ)
  | value (off : ℕ)
  deriving DecidableEq

structure Layout (V : Type) where
  cells : Key → Option Cell
  pages : ℕ
  pageOff : ℕ → ℕ
  count : ℕ
  slot : ℕ → NamedAttribute
  entry : ℕ → Name × Option V

/-- Page `p` with its link to the page before it. -/
def Layout.index (L : Layout V) (p : ℕ) : NamedAttributesIndex where
  previousOffset := if p = 0 then -1 else BitVec.ofNat 64 (L.pageOff (p - 1))
  attributes := Vector.ofFn fun i => L.slot (128 * p + i)

def Layout.top (L : Layout V) : Offset :=
  if L.pages = 0 then -1 else BitVec.ofNat 64 (L.pageOff (L.pages - 1))

/-- A value and where it is; a deleted one has no place. -/
def Placed (S : Serializer V) (cells : Key → Option Cell) (offset : Offset)
    (length : BitVec 32) : Option V → Prop
  | some v => ∃ off bytes, cells (.value off) = some ⟨off, bytes⟩ ∧
      S.serializeIn bytes = some v ∧ offset = BitVec.ofNat 64 off ∧
      length = BitVec.ofNat 32 bytes.length ∧ 0 < bytes.length ∧ bytes.length < 2 ^ 31
  | none => offset = -1 ∧ length = 0

structure Entered (S : Serializer V) (L : Layout V) (e : ℕ) : Prop where
  short : Short (L.entry e).1
  name : (L.slot e).name = nameField (L.entry e).1
  placed : Placed S L.cells (L.slot e).offset (L.slot e).length (L.entry e).2

structure Indexed (S : Serializer V) (f : File) (L : Layout V) : Prop where
  stores : Stores f L.cells
  small : f.size ≤ rfaLimit
  page : ∀ p < L.pages,
    L.cells (.page p) = some ⟨L.pageOff p, namedAttributesIndex.encode (L.index p)⟩
  rising : ∀ p, p + 1 < L.pages → L.pageOff p < L.pageOff (p + 1)
  count_le : L.count ≤ 128 * L.pages
  le_count : 128 * L.pages < L.count + 128
  entered : ∀ e < L.count, Entered S L e
  free : ∀ e, L.count ≤ e → L.slot e = emptyAttribute
  distinct : ∀ d e, d < L.count → e < L.count → key (L.entry d).1 = key (L.entry e).1 → d = e

/-- The map the entries stand for. -/
structure Means (L : Layout V) (m : List Byte → Option V) : Prop where
  entry : ∀ e < L.count, m (key (L.entry e).1) = (L.entry e).2
  other : ∀ k, (∀ e < L.count, key (L.entry e).1 ≠ k) → m k = none

def Layout.names (L : Layout V) : List Name :=
  (List.range L.count).map fun e => (L.entry e).1

/-- The names that have a slot after one call. A name that has a slot keeps it; a delete
of another name makes a slot only where there are extended attributes without a page. -/
def slotNames (extended : Bool) (names : List Name) (op : Name × Option V) : List Name :=
  if key op.1 ∈ names.map key ∨ op.2.isNone ∧ (names ≠ [] ∨ extended = false) then names
  else names ++ [op.1]

theorem mem_keys (L : Layout V) (k : List Byte) :
    k ∈ L.names.map key ↔ ∃ e < L.count, key (L.entry e).1 = k := by
  simp only [Layout.names, List.map_map, List.mem_map, List.mem_range, Function.comp_apply]

theorem names_eq_nil (L : Layout V) : L.names = [] ↔ L.count = 0 := by
  simp only [Layout.names, List.map_eq_nil_iff, List.range_eq_nil]

theorem slotNames_known {extended : Bool} {names : List Name} {op : Name × Option V}
    (h : key op.1 ∈ names.map key) : slotNames extended names op = names :=
  if_pos (Or.inl h)

theorem slotNames_delete {extended : Bool} {names : List Name} {x : Name}
    (h : names ≠ [] ∨ extended = false) :
    slotNames extended names (x, (none : Option V)) = names :=
  if_pos (Or.inr ⟨rfl, h⟩)

theorem slotNames_new {extended : Bool} {names : List Name} {op : Name × Option V}
    (h : key op.1 ∉ names.map key) (hset : op.2.isSome ∨ names = [] ∧ extended = true) :
    slotNames extended names op = names ++ [op.1] := by
  refine if_neg ?_
  rintro (hknown | ⟨hnone, hno⟩)
  · exact h hknown
  · rcases hset with hsome | ⟨hnil, hext⟩
    · rw [Option.isSome_iff_ne_none] at hsome
      exact hsome (Option.isNone_iff_eq_none.mp hnone)
    · rcases hno with hne | hfalse
      · exact hne hnil
      · rw [hext] at hfalse
        cases hfalse

theorem index_attributes (L : Layout V) (p : ℕ) (i : Fin NAMED_ATTRIBUTES_PER_INDEX) :
    (L.index p).attributes[i] = L.slot (128 * p + i) := by
  simp [Layout.index]

theorem index_congr {L L' : Layout V} (p : ℕ)
    (hoff : p ≠ 0 → L'.pageOff (p - 1) = L.pageOff (p - 1))
    (hslot : ∀ i < 128, L'.slot (128 * p + i) = L.slot (128 * p + i)) :
    L'.index p = L.index p := by
  simp only [Layout.index, NamedAttributesIndex.mk.injEq]
  constructor
  · by_cases hzero : p = 0
    · rw [if_pos hzero, if_pos hzero]
    · rw [if_neg hzero, if_neg hzero, hoff hzero]
  · apply Vector.ext
    intro i hi
    rw [Vector.getElem_ofFn, Vector.getElem_ofFn]
    exact hslot i hi

namespace Indexed

variable {S : Serializer V} {f : File} {L : Layout V}

theorem size_lt (h : Indexed S f L) {k : Key} {c : Cell} (hk : L.cells k = some c) :
    c.off + c.bytes.length < 2 ^ 63 := by
  have hin := (h.stores.holds k c hk).inside
  have hsmall := h.small
  simp only [rfaLimit] at hsmall
  omega

theorem page_inside (h : Indexed S f L) {p : ℕ} (hp : p < L.pages) :
    L.pageOff p + namedAttributesIndex.size ≤ f.size := by
  have hin := (h.stores.holds _ _ (h.page p hp)).inside
  rwa [namedAttributesIndex.length_encode] at hin

theorem getRecord_page (h : Indexed S f L) {p : ℕ} (hp : p < L.pages) :
    getRecord namedAttributesIndex f (BitVec.ofNat 64 (L.pageOff p)) = some (L.index p) := by
  have hlt := h.size_lt (h.page p hp)
  exact getRecord_eq _ (h.stores.holds _ _ (h.page p hp)) (by simp only at hlt; omega)

theorem page_le_pageOff (h : Indexed S f L) (p : ℕ) (hp : p < L.pages) : p ≤ L.pageOff p := by
  induction p with
  | zero => omega
  | succ p ih =>
    have hprev := ih (by omega)
    have hrise := h.rising p hp
    omega

theorem pages_le_size (h : Indexed S f L) : L.pages ≤ f.size := by
  by_cases hzero : L.pages = 0
  · omega
  · have hp : L.pages - 1 < L.pages := by omega
    have hle := h.page_le_pageOff _ hp
    have hin := h.page_inside hp
    have hsize : 0 < namedAttributesIndex.size := by decide
    omega

theorem sameName_slot (h : Indexed S f L) {x : Name} (hx : Short x) (e : ℕ) :
    sameName x (L.slot e) = true ↔ e < L.count ∧ key (L.entry e).1 = key x := by
  by_cases he : e < L.count
  · have hname := (h.entered e he).name
    have hslot : L.slot e = ⟨nameField (L.entry e).1, (L.slot e).offset, (L.slot e).length⟩ := by
      rw [← hname]
    rw [hslot, sameName_iff hx]
    constructor
    · exact fun hkey => ⟨he, hkey.symm⟩
    · exact fun hkey => hkey.2.symm
  · rw [h.free e (by omega), sameName_empty hx]
    simp [he]

theorem search_eq (h : Indexed S f L) {x : Name} (hx : Short x) (p fuel : ℕ)
    (hp : p < L.pages) (hfuel : p < fuel) :
    (∃ q i, q < L.pages ∧
      search f x fuel (L.index p) (BitVec.ofNat 64 (L.pageOff p)) =
        .ok (some (L.index q, BitVec.ofNat 64 (L.pageOff q), i)) ∧
      128 * q + i.val < L.count ∧ key (L.entry (128 * q + i)).1 = key x) ∨
    (search f x fuel (L.index p) (BitVec.ofNat 64 (L.pageOff p)) = .ok none ∧
      ∀ e < 128 * (p + 1), e < L.count → key (L.entry e).1 ≠ key x) := by
  induction p generalizing fuel with
  | zero =>
    obtain ⟨fuel, rfl⟩ : ∃ n, fuel = n + 1 := ⟨fuel - 1, by omega⟩
    rw [search]
    cases hfind : findName x (L.index 0) with
    | some i =>
      left
      have hsame := List.find?_some hfind
      rw [index_attributes, h.sameName_slot hx] at hsame
      exact ⟨0, i, hp, rfl, hsame⟩
    | none =>
      right
      refine ⟨by simp [Layout.index], fun e he hcount hkey => ?_⟩
      rw [findName, List.find?_eq_none] at hfind
      have hi : e < NAMED_ATTRIBUTES_PER_INDEX := by
        simp only [NAMED_ATTRIBUTES_PER_INDEX]
        omega
      have hno := hfind ⟨e, hi⟩ (List.mem_finRange _)
      rw [index_attributes, h.sameName_slot hx] at hno
      simp only [Nat.mul_zero, Nat.zero_add] at hno
      exact hno ⟨hcount, hkey⟩
  | succ p ih =>
    obtain ⟨fuel, rfl⟩ : ∃ n, fuel = n + 1 := ⟨fuel - 1, by omega⟩
    rw [search]
    cases hfind : findName x (L.index (p + 1)) with
    | some i =>
      left
      have hsame := List.find?_some hfind
      rw [index_attributes, h.sameName_slot hx] at hsame
      exact ⟨p + 1, i, hp, rfl, hsame⟩
    | none =>
      have hprev : (L.index (p + 1)).previousOffset = BitVec.ofNat 64 (L.pageOff p) := by
        simp [Layout.index]
      have hlt := h.size_lt (h.page p (by omega))
      have hne : BitVec.ofNat 64 (L.pageOff p) ≠ -1 :=
        ofNat_ne_neg_one (by simp only at hlt; omega)
      simp only [hprev, if_neg hne, h.getRecord_page (p := p) (by omega)]
      rcases ih fuel (by omega) (by omega) with hfound | ⟨hnone, hbelow⟩
      · exact Or.inl hfound
      · refine Or.inr ⟨hnone, fun e he hcount hkey => ?_⟩
        by_cases hlow : e < 128 * (p + 1)
        · exact hbelow e hlow hcount hkey
        · rw [findName, List.find?_eq_none] at hfind
          have hi : e - 128 * (p + 1) < NAMED_ATTRIBUTES_PER_INDEX := by
            simp only [NAMED_ATTRIBUTES_PER_INDEX]
            omega
          have hno := hfind ⟨e - 128 * (p + 1), hi⟩ (List.mem_finRange _)
          have he' : 128 * (p + 1) + (e - 128 * (p + 1)) = e := by omega
          rw [index_attributes, h.sameName_slot hx] at hno
          simp only [he'] at hno
          exact hno ⟨hcount, hkey⟩

theorem freeSlot_eq (h : Indexed S f L) (hpos : 0 < L.pages) :
    (∃ i, freeSlot (L.index (L.pages - 1)) = some i ∧ 128 * (L.pages - 1) + i.val = L.count) ∨
    (freeSlot (L.index (L.pages - 1)) = none ∧ L.count = 128 * L.pages) := by
  have hle := h.count_le
  have hlt := h.le_count
  have hused : ∀ e, (L.slot e).name[0] = 0 ↔ L.count ≤ e := by
    intro e
    by_cases he : e < L.count
    · have hshort := (h.entered e he).short
      have hpos := hshort.pos
      rw [(h.entered e he).name, nameField, Vector.getElem_ofFn, getD_eq_zero]
      constructor
      · intro hzero
        exact absurd hzero (by simp only; omega)
      · omega
    · rw [h.free e (by omega)]
      simp [emptyAttribute]
      omega
  have hfree : ∀ i : Fin NAMED_ATTRIBUTES_PER_INDEX,
      (L.index (L.pages - 1)).attributes[i].name[0] = 0 ↔
        L.count ≤ 128 * (L.pages - 1) + i := by
    intro i
    rw [index_attributes, hused]
  cases hfind : freeSlot (L.index (L.pages - 1)) with
  | some i =>
    left
    refine ⟨i, rfl, ?_⟩
    rw [freeSlot, List.find?_eq_some_iff_getElem] at hfind
    obtain ⟨hi, j, hj, hget, hbefore⟩ := hfind
    rw [decide_eq_true_eq, hfree] at hi
    rw [List.getElem_finRange] at hget
    by_contra hne
    -- the slot at the count comes before this one
    have hij : i.val = j := by
      rw [← hget]
      rfl
    have hk := hbefore (L.count - 128 * (L.pages - 1)) (by omega)
    rw [Bool.not_eq_true', decide_eq_false_iff_not, List.getElem_finRange, hfree] at hk
    simp only [Fin.val_cast] at hk
    omega
  | none =>
    right
    refine ⟨rfl, ?_⟩
    rw [freeSlot, List.find?_eq_none] at hfind
    have hlast := hfind ⟨127, by decide⟩ (List.mem_finRange _)
    rw [decide_eq_true_eq, hfree] at hlast
    simp only at hlast
    omega

theorem placed_congr {cells cells' : Key → Option Cell} {offset : Offset} {length : BitVec 32}
    {value : Option V} (h : Placed S cells offset length value)
    (hkeep : ∀ off c, cells (.value off) = some c → c.off = off → 0 < c.bytes.length →
      cells' (.value off) = some c) : Placed S cells' offset length value := by
  cases value with
  | none => exact h
  | some v =>
    obtain ⟨off, bytes, hcell, hread, hoff, hlen, hpos, hlt⟩ := h
    exact ⟨off, bytes, hkeep off _ hcell rfl hpos, hread, hoff, hlen, hpos, hlt⟩

theorem placed_append (h : Indexed S f L) (c : Option Cell) {offset : Offset}
    {length : BitVec 32} {value : Option V} (hplaced : Placed S L.cells offset length value) :
    Placed S (Function.update L.cells (.value f.size) c) offset length value := by
  apply placed_congr hplaced
  intro off d hcell hoff hpos
  have hin := (h.stores.holds _ _ hcell).inside
  have hne : Key.value off ≠ .value f.size := by
    simp only [ne_eq, Key.value.injEq]
    omega
  exact (Function.update_of_ne hne _ _).trans hcell

end Indexed

/-- A value written at the end of the file. -/
def Layout.addValue (L : Layout V) (size : ℕ) (bytes : List Byte) : Layout V :=
  { L with cells := Function.update L.cells (.value size) (some ⟨size, bytes⟩) }

theorem addValue_cells (L : Layout V) (size : ℕ) (bytes : List Byte) {k : Key}
    (hk : k ≠ .value size) : (L.addValue size bytes).cells k = L.cells k :=
  Function.update_of_ne hk _ _

theorem Indexed.addValue {S : Serializer V} {f : File} {L : Layout V} (h : Indexed S f L)
    (compress : ℤ) (v : V) (hroom : f.size + (S.serializeOut compress v).length ≤ rfaLimit) :
    let bytes := S.serializeOut compress v
    (f.write f.size bytes).size = f.size + bytes.length ∧
      Indexed S (f.write f.size bytes) (L.addValue f.size bytes) ∧
      (bytes.length < 2 ^ 31 →
        Placed S (L.addValue f.size bytes).cells (BitVec.ofNat 64 f.size)
          (BitVec.ofNat 32 bytes.length) (some v)) := by
  intro bytes
  have hsize : (f.write f.size bytes).size = f.size + bytes.length := by
    simp only [File.write]
    omega
  refine ⟨hsize, ?_, fun hlt => ⟨f.size, bytes, Function.update_self _ _ _, S.in_out compress v,
    rfl, rfl, S.out_pos compress v, hlt⟩⟩
  refine ⟨h.stores.append _ _, by rw [hsize]; exact hroom, ?_, h.rising, h.count_le, h.le_count,
    ?_, h.free, h.distinct⟩
  · intro p hp
    have hother : Key.page p ≠ .value f.size := by rintro ⟨⟩
    exact (addValue_cells L f.size bytes hother).trans (h.page p hp)
  · intro e he
    obtain ⟨hshort, hname, hplaced⟩ := h.entered e he
    exact ⟨hshort, hname, h.placed_append _ hplaced⟩

/-- Entry `e`, which may be the one after the last, gets a new name or value. -/
def Layout.enter (L : Layout V) (e : ℕ) (a : NamedAttribute) (x : Name) (value : Option V) :
    Layout V :=
  { L with
    count := max L.count (e + 1)
    slot := Function.update L.slot e a
    entry := Function.update L.entry e (x, value) }

theorem names_enter_old (L : Layout V) {e : ℕ} (he : e < L.count) (a : NamedAttribute)
    (value : Option V) : (L.enter e a (L.entry e).1 value).names = L.names := by
  have hcount : max L.count (e + 1) = L.count := by omega
  simp only [Layout.names, Layout.enter, hcount]
  refine List.map_congr_left fun d _ => ?_
  by_cases hde : d = e
  · rw [hde, Function.update_self]
  · rw [Function.update_of_ne hde]

theorem names_enter_new (L : Layout V) (a : NamedAttribute) (x : Name) (value : Option V) :
    (L.enter L.count a x value).names = L.names ++ [x] := by
  have hcount : max L.count (L.count + 1) = L.count + 1 := by omega
  simp only [Layout.names, Layout.enter, hcount, List.range_succ, List.map_append, List.map_cons,
    List.map_nil, Function.update_self]
  congr 1
  refine List.map_congr_left fun d hd => ?_
  have hlt := List.mem_range.mp hd
  rw [Function.update_of_ne (by omega)]

theorem Means.enter {L : Layout V} {m : List Byte → Option V} (h : Means L m) {e : ℕ}
    (he : e ≤ L.count) (a : NamedAttribute) (x : Name) (value : Option V)
    (hold : e < L.count → key (L.entry e).1 = key x)
    (hnew : ∀ d < L.count, d ≠ e → key (L.entry d).1 ≠ key x) :
    Means (L.enter e a x value) (Function.update m (key x) value) where
  entry := by
    intro d hd
    simp only [Layout.enter] at hd ⊢
    by_cases hde : d = e
    · rw [hde, Function.update_self, Function.update_self]
    · rw [Function.update_of_ne hde, Function.update_of_ne (hnew d (by omega) hde)]
      exact h.entry d (by omega)
  other := by
    intro k hk
    simp only [Layout.enter] at hk
    have hne : k ≠ key x := by
      have hself := hk e (by omega)
      rw [Function.update_self] at hself
      exact Ne.symm hself
    rw [Function.update_of_ne hne]
    refine h.other k fun d hd => ?_
    by_cases hde : d = e
    · rw [hde, hold (by omega)]
      exact Ne.symm hne
    · have hother := hk d (by omega)
      rwa [Function.update_of_ne hde] at hother

theorem Indexed.enter {S : Serializer V} {f f' : File} {L L' : Layout V} (h : Indexed S f L)
    {e : ℕ} (he : e ≤ L.count) (a : NamedAttribute) (x : Name) (value : Option V)
    (hx : Short x) (ha : a.name = nameField x)
    (hplaced : Placed S L.cells a.offset a.length value)
    (hnew : ∀ d < L.count, d ≠ e → key (L.entry d).1 ≠ key x)
    (hcount : L'.count = (L.enter e a x value).count)
    (hslot : L'.slot = (L.enter e a x value).slot)
    (hentry : L'.entry = (L.enter e a x value).entry)
    (hvalues : ∀ off, L'.cells (.value off) = L.cells (.value off))
    (hstores : Stores f' L'.cells) (hsmall : f'.size ≤ rfaLimit)
    (hpage : ∀ p < L'.pages,
      L'.cells (.page p) = some ⟨L'.pageOff p, namedAttributesIndex.encode (L'.index p)⟩)
    (hrising : ∀ p, p + 1 < L'.pages → L'.pageOff p < L'.pageOff (p + 1))
    (hle : L'.count ≤ 128 * L'.pages) (hlt : 128 * L'.pages < L'.count + 128) :
    Indexed S f' L' := by
  have hplaced' : ∀ offset length (v : Option V), Placed S L.cells offset length v →
      Placed S L'.cells offset length v :=
    fun _ _ _ hold => Indexed.placed_congr hold fun off c hc _ _ => (hvalues off).trans hc
  simp only [Layout.enter] at hcount hslot hentry
  refine ⟨hstores, hsmall, hpage, hrising, hle, hlt, ?_, ?_, ?_⟩
  · intro d hd
    by_cases hde : d = e
    · subst hde
      constructor
      · rwa [hentry, Function.update_self]
      · rw [hslot, hentry, Function.update_self, Function.update_self, ha]
      · rw [hslot, hentry, Function.update_self, Function.update_self]
        exact hplaced' _ _ _ hplaced
    · obtain ⟨hshort, hname, hold⟩ := h.entered d (by omega)
      constructor
      · rwa [hentry, Function.update_of_ne hde]
      · rwa [hslot, hentry, Function.update_of_ne hde, Function.update_of_ne hde]
      · rw [hslot, hentry, Function.update_of_ne hde, Function.update_of_ne hde]
        exact hplaced' _ _ _ hold
  · intro d hd
    rw [hslot, Function.update_of_ne (by omega)]
    exact h.free d (by omega)
  · intro c d hc hd hkey
    rw [hentry] at hkey
    by_cases hce : c = e
    · by_cases hde : d = e
      · exact hce.trans hde.symm
      · rw [hce, Function.update_self, Function.update_of_ne hde] at hkey
        exact absurd hkey.symm (hnew d (by omega) hde)
    · rw [Function.update_of_ne hce] at hkey
      by_cases hde : d = e
      · rw [hde, Function.update_self] at hkey
        exact absurd hkey (hnew c (by omega) hce)
      · rw [Function.update_of_ne hde] at hkey
        exact h.distinct c d (by omega) (by omega) hkey

/-- An entry in one of the pages, written with its page. -/
def Layout.storeSlot (L : Layout V) (q : ℕ) (i : Fin NAMED_ATTRIBUTES_PER_INDEX)
    (a : NamedAttribute) (x : Name) (value : Option V) : Layout V :=
  { L.enter (128 * q + i) a x value with
    cells := Function.update L.cells (.page q)
      (some ⟨L.pageOff q, namedAttributesIndex.encode ((L.index q).store i a)⟩) }

/-- A first entry in a new page at the end of the file. -/
def Layout.addPage (L : Layout V) (size : ℕ) (a : NamedAttribute) (x : Name)
    (value : Option V) : Layout V :=
  { L.enter L.count a x value with
    cells := Function.update L.cells (.page L.pages)
      (some ⟨size, namedAttributesIndex.encode (newIndex L.top a)⟩)
    pages := L.pages + 1
    pageOff := Function.update L.pageOff L.pages size }

theorem storeSlot_cells (L : Layout V) (q : ℕ) (i : Fin NAMED_ATTRIBUTES_PER_INDEX)
    (a : NamedAttribute) (x : Name) (value : Option V) {k : Key} (hk : k ≠ .page q) :
    (L.storeSlot q i a x value).cells k = L.cells k := by
  simp only [Layout.storeSlot, Function.update_of_ne hk]

theorem addPage_cells (L : Layout V) (size : ℕ) (a : NamedAttribute) (x : Name)
    (value : Option V) {k : Key} (hk : k ≠ .page L.pages) :
    (L.addPage size a x value).cells k = L.cells k := by
  simp only [Layout.addPage, Function.update_of_ne hk]

theorem index_storeSlot (L : Layout V) (q : ℕ) (i : Fin NAMED_ATTRIBUTES_PER_INDEX)
    (a : NamedAttribute) (x : Name) (value : Option V) :
    (L.storeSlot q i a x value).index q = (L.index q).store i a := by
  simp only [Layout.index, NamedAttributesIndex.store, Layout.storeSlot, Layout.enter,
    NamedAttributesIndex.mk.injEq, true_and]
  apply Vector.ext
  intro j hj
  simp only [Vector.getElem_set, Vector.getElem_ofFn]
  by_cases hij : i.val = j
  · rw [if_pos hij, ← hij, Function.update_self]
  · rw [if_neg hij, Function.update_of_ne (by omega)]

theorem index_addPage (L : Layout V) (size : ℕ) (a : NamedAttribute) (x : Name)
    (value : Option V) (hfull : L.count = 128 * L.pages)
    (hfree : ∀ e, L.count ≤ e → L.slot e = emptyAttribute) :
    (L.addPage size a x value).index L.pages = newIndex L.top a := by
  simp only [newIndex, Layout.index, Layout.top, Layout.addPage, Layout.enter,
    NamedAttributesIndex.mk.injEq]
  constructor
  · by_cases hzero : L.pages = 0
    · rw [if_pos hzero, if_pos hzero]
    · rw [if_neg hzero, if_neg hzero, Function.update_of_ne (by omega)]
  · apply Vector.ext
    intro j hj
    simp only [Vector.getElem_set, Vector.getElem_ofFn, Vector.getElem_replicate]
    by_cases hj0 : 0 = j
    · rw [if_pos hj0, ← hj0, Nat.add_zero, ← hfull, Function.update_self]
    · rw [if_neg hj0, Function.update_of_ne (by omega), hfree _ (by omega)]

namespace Indexed

variable {S : Serializer V} {f : File} {L : Layout V}

theorem storeSlot (h : Indexed S f L) {q : ℕ} (hq : q < L.pages)
    (i : Fin NAMED_ATTRIBUTES_PER_INDEX) (he : 128 * q + i.val ≤ L.count)
    (a : NamedAttribute) (x : Name) (value : Option V)
    (hx : Short x) (ha : a.name = nameField x)
    (hplaced : Placed S L.cells a.offset a.length value)
    (hnew : ∀ d < L.count, d ≠ 128 * q + i.val → key (L.entry d).1 ≠ key x) :
    let f' := f.write (L.pageOff q) (namedAttributesIndex.encode ((L.index q).store i a))
    f'.size = f.size ∧ Indexed S f' (L.storeSlot q i a x value) := by
  intro f'
  have hi : i.val < 128 := i.isLt
  have hlen := namedAttributesIndex.length_encode ((L.index q).store i a)
  have hsize : f'.size = f.size := by
    have hin := h.page_inside hq
    simp only [f', File.write, hlen]
    omega
  have hcount := h.count_le
  have hlt := h.le_count
  refine ⟨hsize, h.enter he a x value hx ha hplaced hnew rfl rfl rfl ?_ ?_ ?_ ?_ h.rising ?_ ?_⟩
  · intro off
    exact storeSlot_cells L q i a x value (by rintro ⟨⟩)
  · exact h.stores.replace (h.page q hq) _ (hlen.trans (namedAttributesIndex.length_encode _).symm)
  · rw [hsize]
    exact h.small
  · intro p hp
    by_cases hpq : p = q
    · subst hpq
      rw [index_storeSlot]
      exact Function.update_self _ _ L.cells
    · have hsame : (L.storeSlot q i a x value).index p = L.index p := by
        refine index_congr p (fun _ => rfl) fun j hj => ?_
        exact Function.update_of_ne (by omega) _ L.slot
      have hother : Key.page p ≠ .page q := by simpa using hpq
      rw [hsame]
      exact (storeSlot_cells L q i a x value hother).trans (h.page p hp)
  · simp only [Layout.storeSlot, Layout.enter]
    omega
  · simp only [Layout.storeSlot, Layout.enter]
    omega

theorem addPage (h : Indexed S f L) (hfull : L.count = 128 * L.pages)
    (hroom : f.size + namedAttributesIndex.size ≤ rfaLimit)
    (a : NamedAttribute) (x : Name) (value : Option V)
    (hx : Short x) (ha : a.name = nameField x)
    (hplaced : Placed S L.cells a.offset a.length value)
    (hnew : ∀ d < L.count, key (L.entry d).1 ≠ key x) :
    let f' := f.write f.size (namedAttributesIndex.encode (newIndex L.top a))
    f'.size = f.size + namedAttributesIndex.size ∧
      Indexed S f' (L.addPage f.size a x value) := by
  intro f'
  have hlen := namedAttributesIndex.length_encode (newIndex L.top a)
  have hsize : f'.size = f.size + namedAttributesIndex.size := by
    simp only [f', File.write, hlen]
    omega
  have hpos : 0 < namedAttributesIndex.size := by decide
  refine ⟨hsize, h.enter (Nat.le_refl _) a x value hx ha hplaced (fun d hd _ => hnew d hd)
    rfl rfl rfl ?_ ?_ ?_ ?_ ?_ ?_ ?_⟩
  · intro off
    exact addPage_cells L f.size a x value (by rintro ⟨⟩)
  · exact h.stores.append _ _
  · rw [hsize]
    exact hroom
  · intro p hp
    simp only [Layout.addPage] at hp
    by_cases hlast : p = L.pages
    · subst hlast
      rw [index_addPage L f.size a x value hfull h.free]
      simp only [Layout.addPage, Function.update_self]
    · have hsame : (L.addPage f.size a x value).index p = L.index p := by
        refine index_congr p (fun _ => ?_) fun j hj => ?_
        · exact Function.update_of_ne (by omega) _ L.pageOff
        · exact Function.update_of_ne (by omega) _ L.slot
      have hother : Key.page p ≠ .page L.pages := by simpa using hlast
      have hoff : (L.addPage f.size a x value).pageOff p = L.pageOff p :=
        Function.update_of_ne hlast _ L.pageOff
      rw [hsame, hoff]
      exact (addPage_cells L f.size a x value hother).trans (h.page p (by omega))
  · intro p hp
    simp only [Layout.addPage] at hp ⊢
    rw [Function.update_of_ne (by omega)]
    by_cases hlast : p + 1 = L.pages
    · rw [hlast, Function.update_self]
      have hin := h.page_inside (p := p) (by omega)
      omega
    · rw [Function.update_of_ne hlast]
      exact h.rising p (by omega)
  · simp only [Layout.addPage, Layout.enter]
    omega
  · simp only [Layout.addPage, Layout.enter]
    omega

end Indexed

end MdsPlus.NamedAttributePages
