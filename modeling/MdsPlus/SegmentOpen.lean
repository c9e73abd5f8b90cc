import MdsPlus.SegmentPack

/-!
Where the next segment begins: its number, its page and the storage it may take, for
both kinds of segment.
-/

namespace MdsPlus.SegmentOpen

open Datafile SegmentRecords Segments SegmentNode SegmentLayout
  SegmentPages SegmentWrites SegmentBegin SegmentPack Outcome

variable {V : Type}

/-- Records written for the segment before. -/
def packedBy (node : Node V) (compress : ℤ) : Initial V → List (Dsc V)
  | .array a => if node.compresses compress a then packedRecords node else []
  | .opaqueRecord _ => []

/-- A segment begun: number, page and header are those of the next segment, and its
storage is new or that of a compressed segment. -/
structure Begun (S : Records V) (vars : Vars) (L : Layout V) (init : Initial V)
    (rowsFilled : ℤ) : Prop where
  working : Working S vars.file L (some (L.node.count / 128))
  idx : vars.idx = L.node.count
  sindex : vars.sindex = L.index (L.node.count / 128)
  indexOffset : vars.shead.indexOffset =
    if L.node.count % 128 = 0 then -1 else BitVec.ofNat 64 (L.pageOff (L.node.count / 128))
  opening : Opening vars.shead init L.node.count rowsFilled
  dataPlace : Place L.cells (.data L.node.count) init.addLength vars.shead.dataOffset
  dimPlace : Place L.cells (.dim L.node.count) ((bare init).rows * 8) vars.shead.dimOffset
  headPlace : Place L.cells .header segmentHeader.size
    vars.attr.facilityOffset[SEGMENTED_RECORD_FACILITY]
  attrPlace : Place L.cells .attributes extendedAttributes.size vars.attrOffset
  shape : 0 < L.node.count → shapeOf init = L.node.shape

section Begin

variable {S : Records V} {s : State} {L : Layout V} {init : Initial V}

theorem previousLength_eq (h : Laid S s L) {attr : ExtendedAttributes} {attrOffset : Offset}
    {shead : SegmentHeader} {sindex : SegmentIndex}
    (hready : Ready L init attr attrOffset shead sindex) (hcount : 0 < L.node.count)
    {a : ArrayDsc} (ha : init = .array a) (hformed : Formed a) :
    previousLength (nextHeader shead init) =
      ((L.node.last.rows * L.node.shape.rowBytes : ℕ) : ℤ) := by
  have hshape := hready.shape hcount
  have hheader := hready.header hcount
  rw [ha] at hshape
  have hrows : L.node.shape.dtype ≠ DTYPE_OPAQUE := by
    rw [← hshape]
    exact hformed.dtype
  have hat := hheader.shape hrows
  have hsized := h.proper.sized hrows hcount
  have hinner : a.dims.dropLast = L.node.shape.inner := congrArg Shape.inner hshape
  have hlength : a.length = L.node.shape.length := congrArg Shape.length hshape
  have hdims := length_inner hformed
  have hle := hformed.dims_le
  have hlt := h.working.count_lt
  have hidx : (nextHeader shead init).idx.toInt = L.node.count := by
    change (shead.idx + 1).toInt = _
    rw [hready.idx, toInt_ofNat32 hlt]
  have hlen : (nextHeader shead init).length.toNat = a.length := by
    rw [ha]
    change (BitVec.ofNat 16 a.length).toNat = _
    rw [BitVec.toNat_ofNat, Nat.mod_eq_of_lt hformed.length_lt]
  have hne : (nextHeader shead init).length ≠ 0 := by
    intro hzero
    have hpos := Nat.pos_of_mul_pos_right hformed.row_pos
    rw [hzero] at hlen
    simp at hlen
    omega
  have hdimct : (nextHeader shead init).dimct.toNat = a.dims.length := by
    rw [ha]
    change (BitVec.ofNat 8 a.dims.length).toNat = _
    simp only [MAX_DIMS] at hle
    rw [BitVec.toNat_ofNat, Nat.mod_eq_of_lt (by omega)]
  have hlist : a.dims.length = (L.node.shape.inner ++ [L.node.last.rows]).length := by
    rw [List.length_append, List.length_singleton, ← hinner, hdims]
  have hdim : ∀ j (hj : j < (L.node.shape.inner ++ [L.node.last.rows]).length),
      (dimAt (nextHeader shead init) j).toInt =
        ((L.node.shape.inner ++ [L.node.last.rows])[j] : ℕ) := by
    intro j hj
    change (dimAt shead j).toInt = _
    by_cases hj' : j < L.node.shape.inner.length
    · rw [dimAt_toInt hat hsized j hj', List.getElem_append_left hj']
    · rw [List.length_append, List.length_singleton] at hj
      obtain rfl : j = L.node.shape.inner.length := by omega
      rw [hheader.rows hrows, toInt_ofNat32 (h.proper.rows_lt hrows hcount),
        List.getElem_concat_length (by rfl)]
  rw [previousLength, if_pos ⟨by omega, hne⟩, hdimct, hlen, hlist, foldl_mul_range _ _ _ hdim,
    List.prod_append, List.prod_singleton, hlength, Shape.rowBytes]
  push_cast
  ring

theorem compresses_iff (h : Laid S s L) (hjoins : Joins L.node init) {attr : ExtendedAttributes}
    {attrOffset : Offset} {shead : SegmentHeader} {sindex : SegmentIndex}
    (hready : Ready L init attr attrOffset shead sindex) (compress : ℤ) :
    ((L.node.count : ℤ) % (SEGMENTS_PER_INDEX : ℤ) > 0 ∧
      previousLength (nextHeader shead init) = init.addLength ∧ compress ≠ -1) ↔
      ∃ a, init = .array a ∧ L.node.compresses compress a := by
  have hpage : (L.node.count : ℤ) % (SEGMENTS_PER_INDEX : ℤ) > 0 ↔
      0 < L.node.count % SEGMENTS_PER_INDEX := by
    simp only [SEGMENTS_PER_INDEX]
    omega
  rw [hpage]
  constructor
  · rintro ⟨hpos, hsame, hcompress⟩
    cases init with
    | opaqueRecord v =>
      have hzero : (nextHeader shead (.opaqueRecord v)).length = 0 := rfl
      rw [previousLength, if_neg (fun hne => hne.2 hzero)] at hsame
      simp only [Initial.addLength] at hsame
      omega
    | array a =>
      have hcount : 0 < L.node.count := Nat.pos_of_ne_zero fun hzero => by simp [hzero] at hpos
      rw [previousLength_eq h hready hcount rfl (hjoins.formed a rfl), Nat.cast_inj] at hsame
      exact ⟨a, rfl, hpos, hsame, hcompress⟩
  · rintro ⟨a, ha, hpos, hsame, hcompress⟩
    have hcount : 0 < L.node.count := Nat.pos_of_ne_zero fun hzero => by simp [hzero] at hpos
    refine ⟨hpos, ?_, hcompress⟩
    rw [previousLength_eq h hready hcount ha (hjoins.formed a ha), hsame, ha]
    rfl

/-- The storage the next segment takes. -/
structure Taken (S : Records V) (vars vars' : Vars) (L L' : Layout V) (init : Initial V) :
    Prop where
  working : Working S vars'.file L' (some (L.node.count / 128))
  node : L'.node = L.node.packLast vars.compress init
  pageOff : L'.pageOff = L.pageOff
  sindex : vars'.sindex = L'.index ((L.node.count - 1) / 128)
  shead : ∃ dataOffset dimOffset, vars'.shead = { vars.shead with dataOffset, dimOffset } ∧
    Place L'.cells (.data L.node.count) init.addLength dataOffset ∧
    Place L'.cells (.dim L.node.count) ((bare init).rows * 8) dimOffset
  kept : ∀ k, k ≠ .data (L.node.count - 1) → k ≠ .data L.node.count →
    k ≠ .dim (L.node.count - 1) → k ≠ .dim L.node.count → L'.cells k = L.cells k
  size : vars'.file.size = vars.file.size +
    recordsSize S vars.compress (packedBy L.node vars.compress init)
  rest : vars'.raw = vars.raw ∧ vars'.attr = vars.attr ∧ vars'.attrOffset = vars.attrOffset ∧
    vars'.idx = vars.idx ∧ vars'.compress = vars.compress

theorem count_packLast (node : Node V) (compress : ℤ) (init : Initial V) :
    (node.packLast compress init).count = node.count := by
  cases init with
  | opaqueRecord v => rfl
  | array a =>
    rw [Node.packLast]
    by_cases h : node.compresses compress a
    · rw [if_pos h]
      rfl
    · rw [if_neg h]

theorem shape_packLast (node : Node V) (compress : ℤ) (init : Initial V) :
    (node.packLast compress init).shape = node.shape := by
  cases init with
  | opaqueRecord v => rfl
  | array a =>
    rw [Node.packLast]
    by_cases h : node.compresses compress a
    · rw [if_pos h]
      rfl
    · rw [if_neg h]

theorem turnPage_spec {vars vars' : Vars} {L L' : Layout V}
    (h : Taken S vars vars' L L' init) (hlt : L.node.count < 2 ^ 31)
    (hidx : vars.idx = L.node.count)
    (hindexOffset : vars.shead.indexOffset =
      if L.node.count = 0 then -1 else BitVec.ofNat 64 (L.pageOff ((L.node.count - 1) / 128))) :
    (turnPage vars').sindex = L'.index (L'.node.count / 128) ∧
      (turnPage vars').shead = { vars'.shead with
        indexOffset := (if L'.node.count % 128 = 0 then -1
          else BitVec.ofNat 64 (L'.pageOff (L'.node.count / 128))) } := by
  have hcount : L'.node.count = L.node.count := by rw [h.node, count_packLast]
  obtain ⟨dataOffset, dimOffset, hshead, _, _⟩ := h.shead
  have hindex : vars'.shead.indexOffset = vars.shead.indexOffset := by rw [hshead]
  have hfirst : vars'.sindex.firstIdx.toInt = 128 * ((L.node.count - 1) / 128 : ℕ) := by
    rw [h.sindex, Layout.index, toInt_ofNat32 (by omega)]
    push_cast
    rfl
  have hidx' : vars'.idx = L.node.count := by rw [h.rest.2.2.2.1, hidx]
  rw [turnPage, hfirst, hidx', hcount, h.pageOff]
  by_cases hfull : 0 < L.node.count ∧ L.node.count % 128 = 0
  · have hturn : (L.node.count : ℤ) ≥ 128 * ((L.node.count - 1) / 128 : ℕ) +
        (SEGMENTS_PER_INDEX : ℕ) := by
      simp only [SEGMENTS_PER_INDEX]
      omega
    rw [if_pos hturn, if_pos hfull.2]
    refine ⟨?_, rfl⟩
    have hnumber : BitVec.ofInt 32 (L.node.count : ℤ) =
        BitVec.ofNat 32 (128 * (L.node.count / 128)) := by
      rw [BitVec.ofInt_natCast]
      congr 1
      omega
    have hprevious : L.node.count / 128 - 1 = (L.node.count - 1) / 128 := by omega
    simp only
    rw [index_unused L' _ (by omega), if_neg (by omega), h.pageOff, hindex, hindexOffset,
      if_neg (by omega), hnumber, hprevious]
  · have hstay : ¬ (L.node.count : ℤ) ≥ 128 * ((L.node.count - 1) / 128 : ℕ) +
        (SEGMENTS_PER_INDEX : ℕ) := by
      simp only [SEGMENTS_PER_INDEX]
      omega
    have hpage : (L.node.count - 1) / 128 = L.node.count / 128 := by omega
    rw [if_neg hstay]
    refine ⟨by rw [h.sindex, hpage], ?_⟩
    have hoffset : vars'.shead.indexOffset = if L.node.count % 128 = 0 then -1
        else BitVec.ofNat 64 (L.pageOff (L.node.count / 128)) := by
      rw [hindex, hindexOffset, hpage]
      by_cases hzero : L.node.count = 0
      · rw [if_pos hzero, if_pos (by omega)]
      · rw [if_neg hzero, if_neg (by omega)]
    rw [← hoffset]

/-- Compressing the segment before does what it should, read through the new header. -/
def Packs (S : Records V)
    (checkCompress : Vars → Fin SEGMENTS_PER_INDEX → Option (Dsc V) → Option (Dsc V) →
      Initial V → Except Status Vars)
    (s : State) (L : Layout V) (init : Initial V) (compress rowsFilled : ℤ) : Prop :=
  ∀ a vars vars', init = .array a → L.node.compresses compress a →
    shapeOf init = L.node.shape → vars.file = s.file →
    vars.sindex = L.index (L.node.count / 128) → vars.compress = compress →
    vars.shead.dimOffset = -1 → Opening vars.shead init L.node.count rowsFilled →
    (readSegment S true vars.file vars.shead
        vars.sindex.segment[slotOf ((L.node.count : ℤ) - 1)]
        ((L.node.count : ℤ) - 1) true true >>= fun r =>
      checkCompress vars (slotOf ((L.node.count : ℤ) - 1)) r.1 r.2 init) = .ok vars' →
    ∃ L', Packing S vars vars' L L' a

theorem beginSinfo_spec
    {checkCompress : Vars → Fin SEGMENTS_PER_INDEX → Option (Dsc V) → Option (Dsc V) →
      Initial V → Except Status Vars}
    (h : Laid S s L) (hjoins : Joins L.node init) (hlt : L.node.count < 2 ^ 31)
    {vars vars' : Vars} {idx rowsFilled : ℤ}
    (hready : Ready L init vars.attr vars.attrOffset vars.shead vars.sindex)
    (hfile : vars.file = s.file)
    (hcheck : Packs S checkCompress s L init vars.compress rowsFilled)
    (hok : beginSinfo S checkCompress vars init idx rowsFilled = .ok vars') :
    ∃ L', Begun S vars' L' init rowsFilled ∧
      L'.node = L.node.packLast vars.compress init ∧
      (∀ k, k ≠ .data (L.node.count - 1) → k ≠ .data L.node.count →
        k ≠ .dim (L.node.count - 1) → k ≠ .dim L.node.count → L'.cells k = L.cells k) ∧
      vars'.raw = vars.raw ∧ vars'.compress = vars.compress ∧
      vars'.file.size = s.file.size +
        recordsSize S vars.compress (packedBy L.node vars.compress init) := by
  have hidx : (opened vars.shead init rowsFilled).idx.toInt = L.node.count := by
    change (vars.shead.idx + 1).toInt = _
    rw [hready.idx, toInt_ofNat32 hlt]
  have hopening : Opening (opened vars.shead init rowsFilled) init L.node.count rowsFilled :=
    opening_opened vars.shead init rowsFilled hready.idx hjoins.formed
  have hiff := compresses_iff h hjoins hready vars.compress
  rw [beginSinfo] at hok
  by_cases hnew : idx = -1
  · rw [if_pos hnew, bind_eq_ok] at hok
    obtain ⟨vars2, hpack, hturn⟩ := hok
    rw [hidx] at hpack
    obtain ⟨vars1, hvars1⟩ : ∃ vars1, vars1 = { vars with
      shead := opened vars.shead init rowsFilled
      idx := (L.node.count : ℤ) } := ⟨_, rfl⟩
    rw [← hvars1] at hpack
    have hcompress : vars1.compress = vars.compress := by rw [hvars1]
    have hidx1 : vars1.idx = L.node.count := by rw [hvars1]
    have htaken : ∃ L', Taken S vars1 vars2 L L' init := by
      simp only [packPrevious, hidx1, hcompress] at hpack
      by_cases hcomp : ∃ a, init = .array a ∧ L.node.compresses vars.compress a
      · rw [if_pos (hiff.mpr hcomp)] at hpack
        obtain ⟨a, ha, hcomp⟩ := hcomp
        have hpos : 0 < L.node.count % 128 := hcomp.1
        have hpage : (L.node.count - 1) / 128 = L.node.count / 128 := by omega
        obtain ⟨L', hp⟩ := hcheck a vars1 vars2 ha hcomp
          (hready.shape (Nat.pos_of_ne_zero fun hzero => by simp [hzero] at hpos))
          (by rw [hvars1, hfile])
          (by rw [hvars1, hready.sindex, hpage]) hcompress (by rw [hvars1]; rfl)
          (by rw [hvars1]; exact hopening) hpack
        have hadd : init.addLength = a.bytes.length := by rw [ha]; rfl
        have hrows : (bare init).rows = a.lastDim := by rw [ha]; rfl
        refine ⟨L', hp.working, ?_, hp.pageOff, ?_, ?_, hp.kept, ?_, hp.rest⟩
        · rw [hp.node, ha, hcompress, Node.packLast, if_pos hcomp]
        · rw [hp.sindex, hpage]
        · rw [hadd, hrows]
          exact hp.shead
        · rw [hp.size, ha, hcompress, packedBy, if_pos hcomp]
      · rw [if_neg (fun hc => hcomp (hiff.mp hc)), Except.ok.injEq] at hpack
        subst hpack
        have hnone : packedBy L.node vars.compress init = [] := by
          cases init with
          | opaqueRecord v => rfl
          | array a => rw [packedBy, if_neg fun hc => hcomp ⟨a, rfl, hc⟩]
        have hsame : L.node.packLast vars.compress init = L.node := by
          cases init with
          | opaqueRecord v => rfl
          | array a => rw [Node.packLast, if_neg fun hc => hcomp ⟨a, rfl, hc⟩]
        refine ⟨L, ?_, ?_, rfl, ?_, ⟨-1, -1, ?_, Or.inl rfl, Or.inl rfl⟩, fun _ _ _ _ _ => rfl,
          ?_, rfl, rfl, rfl, rfl, rfl⟩
        · rw [hvars1, hfile]
          exact working_mono h.working _
        · rw [hcompress, hsame]
        · rw [hvars1]
          exact hready.sindex
        · rw [hvars1]
          rfl
        · rw [hcompress, hnone]
          simp [recordsSize]
    obtain ⟨L', ht⟩ := htaken
    have hcount : L'.node.count = L.node.count := by rw [ht.node, count_packLast]
    obtain ⟨hsindex, hshead⟩ := turnPage_spec ht hlt hidx1 (by
      rw [hvars1]
      exact hready.indexOffset)
    obtain ⟨hraw, hattr, hattrOffset, hidx2, hcompress2⟩ := ht.rest
    have hrest : (turnPage vars2).file = vars2.file ∧ (turnPage vars2).raw = vars2.raw ∧
        (turnPage vars2).attr = vars2.attr ∧ (turnPage vars2).attrOffset = vars2.attrOffset ∧
        (turnPage vars2).idx = vars2.idx ∧ (turnPage vars2).compress = vars2.compress := by
      rw [turnPage]
      split_ifs
      · exact ⟨rfl, rfl, rfl, rfl, rfl, rfl⟩
      · exact ⟨rfl, rfl, rfl, rfl, rfl, rfl⟩
    obtain ⟨hrest1, hrest2, hrest3, hrest4, hrest5, hrest6⟩ := hrest
    obtain ⟨dataOffset, dimOffset, hshead2, hdata, hdim⟩ := ht.shead
    rw [Except.ok.injEq] at hturn
    rw [← hturn]
    have hkeep : ∀ k, k ≠ .data (L.node.count - 1) → k ≠ .data L.node.count →
        k ≠ .dim (L.node.count - 1) → k ≠ .dim L.node.count → L'.cells k = L.cells k := ht.kept
    have hkeptPlace : ∀ {k len offset}, Place L.cells k len offset → (∀ i, k ≠ .data i) →
        (∀ i, k ≠ .dim i) → Place L'.cells k len offset := by
      intro k len offset hplace hd ht
      rwa [Place, hkeep k (hd _) (hd _) (ht _) (ht _)]
    refine ⟨L', ⟨?_, ?_, hsindex, ?_, ?_, ?_, ?_, ?_, ?_, ?_⟩, ?_, hkeep, ?_, ?_, ?_⟩
    · rw [hrest1, hcount]
      exact ht.working
    · rw [hrest5, hidx2, hidx1, hcount]
    · rw [hshead]
    · rw [hshead, hshead2, hcount, hvars1]
      exact hopening.offsets _ _ _
    · rw [hshead, hshead2, hcount]
      exact hdata
    · rw [hshead, hshead2, hcount]
      exact hdim
    · rw [hrest3, hattr, hvars1]
      exact hkeptPlace hready.headPlace nofun nofun
    · rw [hrest4, hattrOffset, hvars1]
      exact hkeptPlace hready.attrPlace nofun nofun
    · intro hpos
      rw [ht.node, shape_packLast]
      exact hready.shape (by omega)
    · rw [ht.node, hcompress]
    · rw [hrest2, hraw, hvars1]
    · rw [hrest6, hcompress2, hcompress]
    · rw [hrest1, ht.size, hcompress, hvars1, hfile]
  · rw [if_neg hnew] at hok
    split_ifs at hok

end Begin

end MdsPlus.SegmentOpen
