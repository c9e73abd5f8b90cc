import MdsPlus.SegmentReads

/-!
The index pages of a node: page `p` has the slots from `128 * p` on, and each page but
the first leads to the one before. Every segment is found in its own slot.
-/

namespace MdsPlus.SegmentPages

open Codec ByteFile Datafile SegmentRecords SegmentNode SegmentLayout
  SegmentReads

variable {V : Type}

structure Layout (V : Type) where
  cells : Key → Option Cell
  pageOff : ℕ → ℕ
  info : ℕ → SegmentInfo
  node : Node V

def Layout.index (L : Layout V) (p : ℕ) : SegmentIndex where
  previousOffset := if p = 0 then -1 else BitVec.ofNat 64 (L.pageOff (p - 1))
  firstIdx := BitVec.ofNat 32 (128 * p)
  segment := Vector.ofFn fun i =>
    if 128 * p + i < L.node.count then L.info (128 * p + i) else emptyInfo

structure Working (S : Records V) (f : File) (L : Layout V) (behind : Option ℕ) : Prop where
  stores : Stores f L.cells
  small : f.size ≤ rfaLimit
  segment : ∀ i < L.node.count,
    SegmentAt S L.cells L.node.shape (L.info i) (L.node.seg i) i
  page : ∀ p, 128 * p < L.node.count → ∃ bytes,
    L.cells (.page p) = some ⟨L.pageOff p, bytes⟩ ∧ bytes.length = segmentIndex.size ∧
      (behind ≠ some p → bytes = segmentIndex.encode (L.index p))
  pos : ∀ p, 128 * p < L.node.count → 0 < L.pageOff p
  rising : ∀ p, 128 * (p + 1) < L.node.count → L.pageOff p < L.pageOff (p + 1)
  count_lt : L.node.count < 2 ^ 31

structure Proper (node : Node V) : Prop where
  opaque_record : node.shape.dtype = DTYPE_OPAQUE →
    ∀ i < node.count, ∃ d, (node.seg i).data = .record d
  last_rows : node.shape.dtype ≠ DTYPE_OPAQUE → 0 < node.count →
    ∃ bytes, node.last.data = .rows bytes
  sized : node.shape.dtype ≠ DTYPE_OPAQUE → 0 < node.count → Sized node.shape
  nextRow_le : node.shape.dtype ≠ DTYPE_OPAQUE → 0 < node.count → node.nextRow ≤ node.last.rows
  opaque_shape : node.shape.dtype = DTYPE_OPAQUE → 0 < node.count →
    node.shape = ⟨DTYPE_OPAQUE, 0, []⟩
  size_lt : node.shape.dtype ≠ DTYPE_OPAQUE → 0 < node.count →
    node.last.rows * node.shape.rowBytes < 2 ^ 31
  told : ∀ i, i + 1 < node.count → Told (node.seg i)

theorem Proper.rows_lt {node : Node V} (h : Proper node) (hrows : node.shape.dtype ≠ DTYPE_OPAQUE)
    (hcount : 0 < node.count) : node.last.rows < 2 ^ 31 := by
  have hlt := h.size_lt hrows hcount
  have hle : node.last.rows ≤ node.last.rows * node.shape.rowBytes :=
    Nat.le_mul_of_pos_right _ (h.sized hrows hcount).pos
  omega

structure HeaderOf (node : Node V) (info : SegmentInfo) (shead : SegmentHeader) : Prop where
  dtype : shead.dtype = node.shape.dtype
  dimct : node.shape.dtype = DTYPE_OPAQUE → shead.dimct = 0
  idx : shead.idx = BitVec.ofNat 32 (node.count - 1)
  shape : node.shape.dtype ≠ DTYPE_OPAQUE → ShapeAt shead node.shape
  rows : node.shape.dtype ≠ DTYPE_OPAQUE →
    dimAt shead node.shape.inner.length = BitVec.ofNat 32 node.last.rows
  nextRow : node.shape.dtype ≠ DTYPE_OPAQUE → shead.nextRow = BitVec.ofNat 32 node.nextRow
  dataOffset : shead.dataOffset = info.dataOffset
  dimOffset : ∀ l, node.last.dim = .stamps l → shead.dimOffset = info.dimensionOffset

structure HeaderAt (L : Layout V) (shead : SegmentHeader) : Prop where
  content : HeaderOf L.node (L.info (L.node.count - 1)) shead
  indexOffset : shead.indexOffset = BitVec.ofNat 64 (L.pageOff ((L.node.count - 1) / 128))

structure Headed (s : State) (L : Layout V) (attr : ExtendedAttributes) (shead : SegmentHeader)
    (attrOff headOff : ℕ) : Prop where
  extendedNci : s.extendedNci = true
  rfa : rfaToSeek s.rfa = BitVec.ofNat 64 attrOff
  attributes : L.cells .attributes = some ⟨attrOff, extendedAttributes.encode attr⟩
  facility : attr.facilityOffset[SEGMENTED_RECORD_FACILITY] = BitVec.ofNat 64 headOff
  header : L.cells .header = some ⟨headOff, segmentHeader.encode shead⟩
  header_at : HeaderAt L shead

/-- A node without segments: no extended attributes, or none for segments. -/
structure Unsegmented (s : State) (L : Layout V) : Prop where
  attributes : s.extendedNci = true → ∃ attr off,
    L.cells .attributes = some ⟨off, extendedAttributes.encode attr⟩ ∧
    rfaToSeek s.rfa = BitVec.ofNat 64 off ∧
    attr.facilityOffset[SEGMENTED_RECORD_FACILITY] = -1

structure Laid (S : Records V) (s : State) (L : Layout V) : Prop where
  working : Working S s.file L none
  proper : Proper L.node
  headed : 0 < L.node.count → ∃ attr shead attrOff headOff, Headed s L attr shead attrOff headOff
  unsegmented : L.node.count = 0 → Unsegmented s L

theorem index_getElem (L : Layout V) (p j : ℕ) (hj : j < SEGMENTS_PER_INDEX) :
    (L.index p).segment[j] =
      if 128 * p + j < L.node.count then L.info (128 * p + j) else emptyInfo := by
  simp only [Layout.index, Vector.getElem_ofFn]

theorem index_previousOffset (L : Layout V) (p : ℕ) :
    (L.index p).previousOffset =
      if p = 0 then -1 else BitVec.ofNat 64 (L.pageOff (p - 1)) := rfl

theorem index_segment (L : Layout V) (p : ℕ) (j : Fin SEGMENTS_PER_INDEX)
    (hj : 128 * p + j.val < L.node.count) : (L.index p).segment[j] = L.info (128 * p + j) := by
  rw [getElem_fin, index_getElem, if_pos hj]

theorem slotOf_val (i : ℕ) : (slotOf (i : ℤ)).val = i % 128 := by
  simp only [slotOf, SEGMENTS_PER_INDEX, Nat.cast_ofNat]
  omega

theorem index_slot (L : Layout V) {i : ℕ} (hi : i < L.node.count) :
    (L.index (i / 128)).segment[slotOf (i : ℤ)] = L.info i := by
  have hval := slotOf_val i
  have hsum : 128 * (i / 128) + (slotOf (i : ℤ)).val = i := by omega
  rw [index_segment L _ _ (by omega), hsum]

namespace Working

variable {S : Records V} {f : File} {L : Layout V} {behind : Option ℕ}

theorem pageOff_lt (h : Working S f L behind) {p : ℕ} (hp : 128 * p < L.node.count) :
    L.pageOff p + segmentIndex.size ≤ f.size ∧ L.pageOff p < 2 ^ 63 := by
  obtain ⟨bytes, hcell, hlen, _⟩ := h.page p hp
  have hin := (h.stores.holds _ _ hcell).inside
  have hlt := cell_lt h.stores h.small hcell
  simp only at hin hlt
  constructor
  · rw [← hlen]
    exact hin
  · omega

theorem page_le_pageOff (h : Working S f L behind) (p : ℕ) (hp : 128 * p < L.node.count) :
    p ≤ L.pageOff p := by
  induction p with
  | zero => exact Nat.zero_le _
  | succ p ih =>
    have hprev := ih (by omega)
    have hrise := h.rising p hp
    omega

theorem getRecord_page (h : Working S f L none) {p : ℕ} (hp : 128 * p < L.node.count) :
    getRecord segmentIndex f (BitVec.ofNat 64 (L.pageOff p)) = some (L.index p) := by
  obtain ⟨bytes, hcell, _, hsame⟩ := h.page p hp
  rw [hsame (by rintro ⟨⟩)] at hcell
  exact getRecord_eq _ (h.stores.holds _ _ hcell) (h.pageOff_lt hp).2

theorem firstIdx_toInt (h : Working S f L behind) {p : ℕ} (hp : 128 * p < L.node.count) :
    (L.index p).firstIdx.toInt = 128 * p := by
  have hlt := h.count_lt
  rw [Layout.index, toInt_ofNat32 (by omega)]
  push_cast
  rfl

theorem previousOffset_toInt (h : Working S f L behind) {p : ℕ}
    (hp : 128 * (p + 1) < L.node.count) :
    (L.index (p + 1)).previousOffset = BitVec.ofNat 64 (L.pageOff p) ∧
      (L.index (p + 1)).previousOffset.toInt > 0 := by
  have hprev : (L.index (p + 1)).previousOffset = BitVec.ofNat 64 (L.pageOff p) := by
    simp [Layout.index]
  have hpos := h.pos p (by omega)
  refine ⟨hprev, ?_⟩
  rw [hprev, toInt_ofNat (h.pageOff_lt (by omega)).2]
  omega

theorem findPage_eq (h : Working S f L none) {i : ℕ} (p fuel : ℕ) (hp : 128 * p < L.node.count)
    (hi : i < 128 * (p + 1)) (hfuel : p < fuel) :
    findPage f i fuel (L.index p) (BitVec.ofNat 64 (L.pageOff p)) =
      .ok (L.index (i / 128), BitVec.ofNat 64 (L.pageOff (i / 128))) := by
  induction p generalizing fuel with
  | zero =>
    obtain ⟨fuel, rfl⟩ : ∃ n, fuel = n + 1 := ⟨fuel - 1, by omega⟩
    have hzero : i / 128 = 0 := by omega
    have hfirst := h.firstIdx_toInt hp
    rw [findPage, if_neg (by rw [hfirst]; omega), hzero]
  | succ p ih =>
    obtain ⟨fuel, rfl⟩ : ∃ n, fuel = n + 1 := ⟨fuel - 1, by omega⟩
    have hfirst := h.firstIdx_toInt hp
    obtain ⟨hprev, hpos⟩ := h.previousOffset_toInt hp
    by_cases hlow : i < 128 * (p + 1)
    · rw [findPage, if_pos ⟨by rw [hfirst]; push_cast; omega, hpos⟩]
      simp only [hprev, h.getRecord_page (p := p) (by omega)]
      exact ih fuel (by omega) hlow (by omega)
    · have hpage : i / 128 = p + 1 := by omega
      rw [findPage, if_neg (by rw [hfirst]; push_cast; omega), hpage]

end Working

section Found

variable {S : Records V} {s : State} {L : Layout V}

theorem loadHeader (h : Laid S s L) {attr : ExtendedAttributes} {shead : SegmentHeader}
    {attrOff headOff : ℕ} (hh : Headed s L attr shead attrOff headOff) :
    attrOff < rfaLimit ∧ headOff < 2 ^ 63 ∧ loadExtendedNci s = some attr ∧
      loadSegmentHeader s.file attr = some shead := by
  have hattr := h.working.stores.holds _ _ hh.attributes
  have hhead := h.working.stores.holds _ _ hh.header
  have hin := hattr.inside
  have hsmall := h.working.small
  have hpos : 0 < extendedAttributes.size := by decide
  simp only [extendedAttributes.length_encode] at hin
  have hlt := cell_lt h.working.stores h.working.small hh.attributes
  have hlt' := cell_lt h.working.stores h.working.small hh.header
  simp only at hlt hlt'
  refine ⟨by omega, by omega, ?_, ?_⟩
  · rw [loadExtendedNci, if_pos hh.extendedNci, hh.rfa]
    exact getRecord_eq _ hattr (by omega)
  · rw [loadSegmentHeader, hh.facility]
    exact getRecord_eq _ hhead (by omega)

theorem loadIndex (h : Laid S s L) (hcount : 0 < L.node.count) {shead : SegmentHeader}
    (hh : HeaderAt L shead) :
    loadSegmentIndex s.file shead = some (L.index ((L.node.count - 1) / 128)) := by
  have hp : 128 * ((L.node.count - 1) / 128) < L.node.count := by omega
  have hlt := (h.working.pageOff_lt hp).2
  rw [loadSegmentIndex, hh.indexOffset, if_neg (ofNat_ne_neg_one hlt),
    h.working.getRecord_page hp]

theorem idx_toInt (h : Laid S s L) (hcount : 0 < L.node.count) {shead : SegmentHeader}
    (hh : HeaderAt L shead) : shead.idx.toInt = (L.node.count : ℤ) - 1 := by
  have hlt := h.working.count_lt
  rw [hh.content.idx, toInt_ofNat32 (by omega)]
  omega

theorem getSegment_eq (h : Laid S s L) {i : ℕ} (hi : i < L.node.count) :
    ∃ shead, HeaderAt L shead ∧
      getSegment s i = .ok ⟨shead, L.index (i / 128), i⟩ := by
  obtain ⟨attr, shead, attrOff, headOff, hh⟩ := h.headed (by omega)
  obtain ⟨_, _, hattr, hhead⟩ := loadHeader h hh
  have hindex := loadIndex h (by omega) hh.header_at
  refine ⟨shead, hh.header_at, ?_⟩
  have hopen : openIndexRead s = .ok (shead, L.index ((L.node.count - 1) / 128)) := by
    simp only [openIndexRead, hattr, hhead, hindex]
  have hp : 128 * ((L.node.count - 1) / 128) < L.node.count := by omega
  have hpage := h.working.page_le_pageOff _ hp
  have hsize := (h.working.pageOff_lt hp).1
  have hfind := h.working.findPage_eq (i := i) ((L.node.count - 1) / 128) (s.file.size + 1) hp
    (by omega) (by omega)
  have hfirst := h.working.firstIdx_toInt (p := i / 128) (by omega)
  simp only [getSegment, hopen, bind, Except.bind, if_neg (show ¬ (i : ℤ) = -1 by omega),
    hh.header_at.indexOffset, hfind]
  rw [if_neg]
  rw [hfirst]
  simp only [SEGMENTS_PER_INDEX]
  omega

theorem loadHeader_none (h : Laid S s L) (hcount : L.node.count = 0) :
    (loadExtendedNci s).bind (loadSegmentHeader s.file) = none := by
  have hu := (h.unsegmented hcount).attributes
  cases hext : s.extendedNci with
  | false => simp [loadExtendedNci, hext]
  | true =>
    obtain ⟨attr, off, hcell, hrfa, hfacility⟩ := hu hext
    have hlt := cell_lt h.working.stores h.working.small hcell
    have hload : loadExtendedNci s = some attr := by
      rw [loadExtendedNci, if_pos hext, hrfa]
      exact getRecord_eq _ (h.working.stores.holds _ _ hcell) (by simp only at hlt ⊢; omega)
    rw [hload, Option.bind_some, loadSegmentHeader, hfacility, getRecord_none]

end Found

end MdsPlus.SegmentPages
