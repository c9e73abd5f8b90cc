import MdsPlus.SegmentWrites

/-!
How a segment begins: the header takes the type and shape of the new segment, the
segment before is compressed where its storage fits the new one, and the page is
turned when it is full. Compressing changes no segment's contents as they read.
-/

namespace MdsPlus.SegmentBegin

open Datafile SegmentRecords Segments SegmentNode SegmentLayout
  SegmentReads SegmentPages SegmentWrites Outcome

variable {V : Type}

/-- Rows a segment may begin with: as many bytes as its dimensions say, below two
gigabytes, in rows of at least one byte. -/
structure Formed (a : ArrayDsc) : Prop where
  dtype : a.dtype ≠ DTYPE_OPAQUE
  dims_pos : 0 < a.dims.length
  dims_le : a.dims.length ≤ MAX_DIMS
  length_lt : a.length < 2 ^ 16
  bytes : a.bytes.length = a.length * a.dims.prod
  lt : a.bytes.length < 2 ^ 31
  row_pos : 0 < a.length * a.dims.dropLast.prod
  row_lt : a.length * a.dims.dropLast.prod < 2 ^ 31

section Formed

variable {a : ArrayDsc}

theorem dims_eq (h : Formed a) : a.dims = a.dims.dropLast ++ [a.lastDim] := by
  have hne : a.dims ≠ [] := List.ne_nil_of_length_pos h.dims_pos
  have hlast : a.lastDim = a.dims.getLast hne := by
    rw [ArrayDsc.lastDim]
    by_cases hone : a.dims.length = 1
    · obtain ⟨d, hd⟩ := List.length_eq_one_iff.mp hone
      have hbytes := h.bytes
      have hpos := h.row_pos
      simp only [hd, List.prod_singleton, List.dropLast_singleton, List.prod_nil,
        Nat.mul_one] at hbytes hpos
      rw [if_pos hone, hbytes, Nat.mul_div_cancel_left _ hpos]
      simp only [hd, List.getLast_singleton]
    · rw [if_neg hone, List.getLastD_eq_getLast?, List.getLast?_eq_some_getLast hne,
        Option.getD_some]
  rw [hlast, List.dropLast_append_getLast hne]

theorem length_inner (h : Formed a) : a.dims.dropLast.length + 1 = a.dims.length := by
  have hpos := h.dims_pos
  rw [List.length_dropLast]
  omega

theorem bytes_eq (h : Formed a) :
    a.bytes.length = a.lastDim * (a.length * a.dims.dropLast.prod) := by
  have hdims := congrArg List.prod (dims_eq h)
  rw [List.prod_append, List.prod_singleton] at hdims
  rw [h.bytes, hdims]
  ring

theorem lastDim_lt (h : Formed a) : a.lastDim < 2 ^ 31 := by
  have hbytes := bytes_eq h
  have hlt := h.lt
  have hle : a.lastDim ≤ a.lastDim * (a.length * a.dims.dropLast.prod) :=
    Nat.le_mul_of_pos_right _ h.row_pos
  omega

theorem sized (h : Formed a) : Sized (shapeOf (.array a : Initial V)) where
  dims_lt := by
    have hle := h.dims_le
    have hlen := length_inner h
    simp only [shapeOf]
    omega
  length_lt := h.length_lt
  pos := h.row_pos
  lt := h.row_lt

theorem headerDims_eq (h : Formed a) : headerDims (.array a : Initial V) = a.dims := by
  by_cases hone : a.dims.length = 1
  · have hdims := dims_eq h
    have hnil : a.dims.dropLast = [] := by
      apply List.eq_nil_of_length_eq_zero
      have hlen := length_inner h
      omega
    have hlast : a.lastDim = a.bytes.length / a.length := if_pos hone
    simp only [headerDims, if_pos hone]
    rw [hnil, List.nil_append, hlast] at hdims
    exact hdims.symm
  · simp only [headerDims, if_neg hone]

end Formed

theorem dimAt_setDims (shead : SegmentHeader) (m : List ℕ) (hm : m.length ≤ MAX_DIMS) (j : ℕ)
    (hj : j < m.length) :
    dimAt { shead with dims := setDims shead.dims m } j = BitVec.ofNat 32 (m.getD j 0) := by
  have hlt : j < MAX_DIMS := by omega
  rw [dimAt, List.getD_eq_getElem _ _ (by simpa using hlt), Vector.getElem_toList, setDims,
    Vector.getElem_ofFn, if_pos hj]

structure Opening (shead : SegmentHeader) (init : Initial V) (count : ℕ) (rowsFilled : ℤ) :
    Prop where
  dtype : shead.dtype = init.dtype
  dimct : shead.dimct = BitVec.ofNat 8 init.dimct
  idx : shead.idx = BitVec.ofNat 32 count
  shape : ∀ a, init = .array a → ShapeAt shead (shapeOf (.array a : Initial V))
  rows : ∀ a, init = .array a → dimAt shead a.dims.dropLast.length = BitVec.ofNat 32 a.lastDim
  nextRow : shead.nextRow = BitVec.ofInt 32 rowsFilled

theorem Opening.offsets {shead : SegmentHeader} {init : Initial V} {count : ℕ} {rowsFilled : ℤ}
    (h : Opening shead init count rowsFilled) (indexOffset dataOffset dimOffset : Offset) :
    Opening { shead with indexOffset, dataOffset, dimOffset } init count rowsFilled where
  dtype := h.dtype
  dimct := h.dimct
  idx := h.idx
  shape a ha := ⟨(h.shape a ha).dtype, (h.shape a ha).dimct, (h.shape a ha).length,
    (h.shape a ha).dims⟩
  rows := h.rows
  nextRow := h.nextRow

theorem opening_opened (shead : SegmentHeader) (init : Initial V) (rowsFilled : ℤ) {count : ℕ}
    (hidx : shead.idx + 1 = BitVec.ofNat 32 count) (hinit : ∀ a, init = .array a → Formed a) :
    Opening (opened shead init rowsFilled) init count rowsFilled where
  dtype := rfl
  dimct := rfl
  idx := hidx
  shape := by
    intro a ha
    have hformed := hinit a ha
    subst ha
    have hlen := length_inner hformed
    refine ⟨rfl, ?_, rfl, ?_⟩
    · change BitVec.ofNat 8 a.dims.length = BitVec.ofNat 8 (a.dims.dropLast.length + 1)
      rw [hlen]
    · intro j hj
      change j < a.dims.dropLast.length at hj
      have hdim := dimAt_setDims (nextHeader shead (.array a : Initial V)) a.dims hformed.dims_le j
        (by omega)
      change dimAt { nextHeader shead (.array a : Initial V) with
        dims := setDims _ (headerDims (.array a : Initial V)) } j = _
      rw [headerDims_eq hformed, hdim, List.getD_eq_getElem _ _ (by omega)]
      change _ = BitVec.ofNat 32 (a.dims.dropLast[j])
      rw [List.getElem_dropLast]
  rows := by
    intro a ha
    have hformed := hinit a ha
    subst ha
    have hlen := length_inner hformed
    have hdim := dimAt_setDims (nextHeader shead (.array a : Initial V)) a.dims hformed.dims_le
      a.dims.dropLast.length (by omega)
    have hlast : a.dims.getD a.dims.dropLast.length 0 = a.lastDim := by
      rw [dims_eq hformed]
      simp
    change dimAt { nextHeader shead (.array a : Initial V) with
      dims := setDims _ (headerDims (.array a : Initial V)) } _ = _
    rw [headerDims_eq hformed, hdim, hlast]
  nextRow := rfl

theorem index_unused (L : Layout V) (p : ℕ) (hp : L.node.count ≤ 128 * p) :
    L.index p = newIndex (if p = 0 then -1 else BitVec.ofNat 64 (L.pageOff (p - 1)))
      (BitVec.ofNat 32 (128 * p)) := by
  rw [Layout.index, newIndex, SegmentIndex.mk.injEq]
  refine ⟨rfl, rfl, ?_⟩
  apply Vector.ext
  intro j hj
  rw [Vector.getElem_ofFn, Vector.getElem_replicate]
  simp only
  rw [if_neg (by omega)]

/-- A segment may begin on the node: it is the first, or one with rows of the length the
others have. -/
structure Joins (node : Node V) (init : Initial V) : Prop where
  formed : ∀ a, init = .array a → Formed a
  length : ∀ a, init = .array a → 0 < node.count → a.length = node.shape.length

structure Ready (L : Layout V) (init : Initial V) (attr : ExtendedAttributes)
    (attrOffset : Offset) (shead : SegmentHeader) (sindex : SegmentIndex) : Prop where
  shape : 0 < L.node.count → shapeOf init = L.node.shape
  headPlace : Place L.cells .header segmentHeader.size
    attr.facilityOffset[SEGMENTED_RECORD_FACILITY]
  attrPlace : Place L.cells .attributes extendedAttributes.size attrOffset
  idx : shead.idx + 1 = BitVec.ofNat 32 L.node.count
  sindex : sindex = L.index ((L.node.count - 1) / 128)
  indexOffset : shead.indexOffset =
    if L.node.count = 0 then -1 else BitVec.ofNat 64 (L.pageOff ((L.node.count - 1) / 128))
  header : 0 < L.node.count → HeaderOf L.node (L.info (L.node.count - 1)) shead

section Ready

variable {S : Records V} {s : State} {L : Layout V} {init : Initial V}

theorem shape_eq {shead : SegmentHeader} {a : ArrayDsc} {shape : Shape} (h : ShapeAt shead shape)
    (hsized : Sized shape) (hformed : Formed a) (hdtype : a.dtype = shead.dtype)
    (hdimct : a.dims.length = shead.dimct.toNat)
    (hdims : a.dims.length > 1 → sameDims shead a.dims (a.dims.length - 1) = true)
    (hlength : a.length = shape.length) : shapeOf (.array a : Initial V) = shape := by
  have hlen := length_inner hformed
  have hcount := dimct_toNat h hsized
  have hinner : a.dims.dropLast = shape.inner := by
    apply List.ext_getElem
    · omega
    · intro j hj hj'
      have hsame := hdims (by omega)
      rw [sameDims, List.all_eq_true] at hsame
      have hdim := hsame j (List.mem_range.mpr (by omega))
      have hfull : j < a.dims.length := by omega
      have hget : a.dims[j] = a.dims.dropLast[j] := (List.getElem_dropLast _).symm
      rw [decide_eq_true_eq, h.dims j hj', List.getD_eq_getElem _ _ (by omega), hget] at hdim
      have hval := congrArg BitVec.toNat hdim
      have hlt := hsized.inner_lt _ (List.getElem_mem hj')
      have hlt' := (sized (V := V) hformed).inner_lt _ (List.getElem_mem hj)
      rw [BitVec.toNat_ofNat, BitVec.toNat_ofNat, Nat.mod_eq_of_lt (by omega),
        Nat.mod_eq_of_lt (by omega)] at hval
      exact hval.symm
  rw [shapeOf, hinner, hdtype, h.dtype, hlength]

theorem ready_first (init : Initial V) (h : Laid S s L) (hcount : L.node.count = 0) :
    let (attr, attrOffset) := beginExtendedNci s
    loadSegmentHeader s.file attr = none ∧
      Ready L init (withoutHeader attr) attrOffset freshHeader (newIndex (-1) 0) := by
  have hcells := (h.unsegmented hcount).attributes
  have hindex : newIndex (-1) 0 = L.index ((L.node.count - 1) / 128) := by
    rw [hcount, index_unused L _ (by omega)]
    rfl
  have hready : ∀ attr attrOffset, Place L.cells .attributes extendedAttributes.size attrOffset →
      Ready L init (withoutHeader attr) attrOffset freshHeader (newIndex (-1) 0) := by
    intro attr attrOffset hplace
    refine ⟨by omega, Or.inl ?_, hplace, ?_, hindex, ?_, by omega⟩
    · simp [withoutHeader, SEGMENTED_RECORD_FACILITY]
    · rw [hcount]
      rfl
    · rw [if_pos hcount]
      rfl
  cases hext : s.extendedNci with
  | false =>
    have hload : loadExtendedNci s = none := by simp [loadExtendedNci, hext]
    simp only [beginExtendedNci, hload]
    refine ⟨?_, hready _ _ (Or.inl rfl)⟩
    rw [loadSegmentHeader]
    exact getRecord_none _ _
  | true =>
    obtain ⟨attr, off, hcell, hrfa, hfacility⟩ := hcells hext
    have hlt := cell_lt h.working.stores h.working.small hcell
    simp only at hlt
    have hload : loadExtendedNci s = some attr := by
      rw [loadExtendedNci, if_pos hext, hrfa]
      exact getRecord_eq _ (h.working.stores.holds _ _ hcell) (by omega)
    simp only [beginExtendedNci, hload]
    refine ⟨?_, hready _ _ (Or.inr ⟨off, _, hrfa, hcell, extendedAttributes.length_encode attr⟩)⟩
    rw [loadSegmentHeader, hfacility]
    exact getRecord_none _ _

theorem ready_of_begin (h : Laid S s L) (hjoins : Joins L.node init) {attr : ExtendedAttributes}
    {attrOffset : Offset} {shead : SegmentHeader} {attr' : ExtendedAttributes}
    {shead' : SegmentHeader} {sindex : SegmentIndex}
    (hattr : beginExtendedNci s = (attr, attrOffset))
    (hhead : beginSegmentHeader s.file attr init = .ok (attr', shead))
    (hindex : beginSegmentIndex s.file shead = (shead', sindex)) :
    Ready L init attr' attrOffset shead' sindex := by
  by_cases hcount : L.node.count = 0
  · have hready := ready_first init h hcount
    rw [hattr] at hready
    obtain ⟨hnone, hready⟩ := hready
    simp only [beginSegmentHeader, hnone, Except.ok.injEq, Prod.mk.injEq] at hhead
    obtain ⟨rfl, rfl⟩ := hhead
    have hload : loadSegmentIndex s.file freshHeader = none := if_pos rfl
    simp only [beginSegmentIndex, hload, Prod.mk.injEq] at hindex
    obtain ⟨rfl, rfl⟩ := hindex
    exact hready
  · have hpos : 0 < L.node.count := by omega
    obtain ⟨attr0, shead0, attrOff, headOff, hheaded⟩ := h.headed hpos
    obtain ⟨_, _, hload, hheader⟩ := loadHeader h hheaded
    have hpage := loadIndex h hpos hheaded.header_at
    have hidx := hheaded.header_at.content.idx
    simp only [beginExtendedNci, hload, Prod.mk.injEq] at hattr
    obtain ⟨rfl, rfl⟩ := hattr
    simp only [beginSegmentHeader, hheader, ite_error_eq_ok] at hhead
    obtain ⟨hdtype, hhead⟩ := hhead
    have hboth : attr' = attr0 ∧ shead = shead0 ∧ shapeOf init = L.node.shape := by
      cases init with
      | opaqueRecord v =>
        simp only [Except.ok.injEq, Prod.mk.injEq] at hhead
        have hsame : DTYPE_OPAQUE = shead0.dtype := not_not.mp hdtype
        have hopaque : L.node.shape.dtype = DTYPE_OPAQUE := by
          rw [← hheaded.header_at.content.dtype, ← hsame]
        exact ⟨hhead.1.symm, hhead.2.symm, (h.proper.opaque_shape hopaque hpos).symm⟩
      | array a =>
        simp only [ite_error_eq_ok, Except.ok.injEq, Prod.mk.injEq] at hhead
        obtain ⟨hdimct, hdims, hattr, hshead⟩ := hhead
        have hformed := hjoins.formed a rfl
        have hsame : a.dtype = shead0.dtype := not_not.mp hdtype
        have hrows : L.node.shape.dtype ≠ DTYPE_OPAQUE := by
          rw [← hheaded.header_at.content.dtype, ← hsame]
          exact hformed.dtype
        refine ⟨hattr.symm, hshead.symm, ?_⟩
        refine shape_eq (hheaded.header_at.content.shape hrows) (h.proper.sized hrows hpos) hformed
          hsame (not_not.mp hdimct) (fun hmany => ?_) (hjoins.length a rfl hpos)
        by_contra hnot
        exact hdims ⟨hmany, by simpa using hnot⟩
    obtain ⟨rfl, rfl, hshape⟩ := hboth
    simp only [beginSegmentIndex, hpage, Prod.mk.injEq] at hindex
    obtain ⟨rfl, rfl⟩ := hindex
    refine ⟨fun _ => hshape, ?_, ?_, ?_, rfl, ?_, fun _ => hheaded.header_at.content⟩
    · exact Or.inr ⟨headOff, _, hheaded.facility, hheaded.header, segmentHeader.length_encode _⟩
    · exact Or.inr ⟨attrOff, _, hheaded.rfa, hheaded.attributes,
        extendedAttributes.length_encode _⟩
    · rw [hidx]
      apply BitVec.eq_of_toNat_eq
      have hlt := h.working.count_lt
      have hone : (1 : BitVec 32).toNat = 1 := rfl
      rw [BitVec.toNat_add, BitVec.toNat_ofNat, BitVec.toNat_ofNat, hone]
      omega
    · rw [if_neg hcount]
      exact hheaded.header_at.indexOffset

end Ready

end MdsPlus.SegmentBegin
