import MdsPlus.SegmentPages

/-!
What writing one cell does to the layout of a node: cells of no segment yet may be
written freely, the slot of one segment may change while its page is behind, and
closing a call brings page, header and attributes up to date.
-/

namespace MdsPlus.SegmentWrites

open BitMemory ByteFile Datafile SegmentRecords Segments SegmentNode SegmentLayout
  SegmentReads SegmentPages

variable {V : Type}

def Used (n : ℕ) : Key → Prop
  | .page p => 128 * p < n
  | .data i => i < n
  | .dim i => i < n
  | .start i => i < n
  | .stop i => i < n
  | _ => False

def Layout.put (L : Layout V) (k : Key) (off : ℕ) (bytes : List Byte) : Layout V :=
  { L with cells := Function.update L.cells k (some ⟨off, bytes⟩) }

/-- Segment `i` with another slot and other contents. -/
def Layout.setSegment (L : Layout V) (i : ℕ) (info : SegmentInfo) (seg : Segment V) : Layout V :=
  { L with info := Function.update L.info i info, node := L.node.replace i seg }

theorem put_cells_self (L : Layout V) (k : Key) (off : ℕ) (bytes : List Byte) :
    (Layout.put L k off bytes).cells k = some ⟨off, bytes⟩ := by
  simp only [Layout.put, Function.update_self]

theorem index_congr {L L' : Layout V} (p : ℕ)
    (hoff : p ≠ 0 → L'.pageOff (p - 1) = L.pageOff (p - 1))
    (hslot : ∀ j < 128, (128 * p + j < L'.node.count ↔ 128 * p + j < L.node.count) ∧
      (128 * p + j < L.node.count → L'.info (128 * p + j) = L.info (128 * p + j))) :
    L'.index p = L.index p := by
  simp only [Layout.index, SegmentIndex.mk.injEq, true_and]
  constructor
  · by_cases hzero : p = 0
    · rw [if_pos hzero, if_pos hzero]
    · rw [if_neg hzero, if_neg hzero, hoff hzero]
  · apply Vector.ext
    intro j hj
    rw [Vector.getElem_ofFn, Vector.getElem_ofFn]
    obtain ⟨hiff, hinfo⟩ := hslot j hj
    simp only [hiff]
    by_cases hlt : 128 * p + j < L.node.count
    · rw [if_pos hlt, if_pos hlt, hinfo hlt]
    · rw [if_neg hlt, if_neg hlt]

section Working

variable {S : Records V} {f f' : File} {L : Layout V} {behind : Option ℕ}

theorem working_mono (h : Working S f L none) (p : ℕ) : Working S f L (some p) where
  stores := h.stores
  small := h.small
  segment := h.segment
  page q hq := by
    obtain ⟨bytes, hcell, hlen, hsame⟩ := h.page q hq
    exact ⟨bytes, hcell, hlen, fun _ => hsame (by rintro ⟨⟩)⟩
  pos := h.pos
  rising := h.rising
  count_lt := h.count_lt

theorem working_frame (h : Working S f L behind) {cells' : Key → Option Cell}
    (hstores : Stores f' cells') (hsmall : f'.size ≤ rfaLimit)
    (hkeep : ∀ k, Used L.node.count k → cells' k = L.cells k) :
    Working S f' { L with cells := cells' } behind where
  stores := hstores
  small := hsmall
  segment i hi := (h.segment i hi).congr (hkeep _ hi) (hkeep _ hi) (hkeep _ hi) (hkeep _ hi)
  page p hp := by
    obtain ⟨bytes, hcell, hrest⟩ := h.page p hp
    exact ⟨bytes, (hkeep (.page p) hp).trans hcell, hrest⟩
  pos := h.pos
  rising := h.rising
  count_lt := h.count_lt

theorem working_setSegment (h : Working S f L behind) {i : ℕ}
    (hbehind : ∀ p, behind = some p → p = i / 128) {cells' : Key → Option Cell}
    (hstores : Stores f' cells') (hsmall : f'.size ≤ rfaLimit)
    (hkeep : ∀ k, Used L.node.count k → k ≠ .data i → k ≠ .dim i → k ≠ .start i → k ≠ .stop i →
      cells' k = L.cells k)
    {info : SegmentInfo} {seg : Segment V}
    (hseg : SegmentAt S cells' L.node.shape info seg i) :
    Working S f' (Layout.setSegment { L with cells := cells' } i info seg) (some (i / 128)) where
  stores := hstores
  small := hsmall
  segment j hj := by
    simp only [Layout.setSegment, Node.replace] at hj ⊢
    by_cases hji : j = i
    · rw [hji, Function.update_self, Function.update_self]
      exact hseg
    · rw [Function.update_of_ne hji, Function.update_of_ne hji]
      have hne : ∀ key : ℕ → Key, (∀ a b, key a = key b → a = b) → key j ≠ key i :=
        fun key hinj heq => hji (hinj _ _ heq)
      apply (h.segment j hj).congr
      · exact hkeep (.data j) hj (hne _ fun _ _ he => by injection he) nofun nofun nofun
      · exact hkeep (.dim j) hj nofun (hne _ fun _ _ he => by injection he) nofun nofun
      · exact hkeep (.start j) hj nofun nofun (hne _ fun _ _ he => by injection he) nofun
      · exact hkeep (.stop j) hj nofun nofun nofun (hne _ fun _ _ he => by injection he)
  page p hp := by
    obtain ⟨bytes, hcell, hlen, hsame⟩ := h.page p hp
    refine ⟨bytes, (hkeep (.page p) hp nofun nofun nofun nofun).trans hcell, hlen, fun hne => ?_⟩
    have hp' : p ≠ i / 128 := fun hpi => hne (by rw [hpi])
    have hother : behind ≠ some p := fun hb => hp' (hbehind p hb)
    have hindex : (Layout.setSegment { L with cells := cells' } i info seg).index p = L.index p := by
      refine index_congr p (fun _ => rfl) fun j hj => ⟨Iff.rfl, fun _ => ?_⟩
      exact Function.update_of_ne (by omega) _ _
    rw [hsame hother, hindex]
  pos := h.pos
  rising := h.rising
  count_lt := h.count_lt

end Working

theorem putDsc_eq (S : Records V) (f : File) (compress : ℤ) (d : Dsc V) :
    putDsc S.toSerializer f compress d =
      (f.write f.size (S.serializeOut compress d), BitVec.ofNat 64 f.size,
        BitVec.ofNat 32 (S.serializeOut compress d).length) := by
  simp only [putDsc, writeProperty_append]

theorem recordAt_put (S : Records V) (size : ℕ) (compress : ℤ) (d : Dsc V)
    (hlt : (S.serializeOut compress d).length < 2 ^ 31) :
    RecordAt S (some ⟨size, S.serializeOut compress d⟩) (BitVec.ofNat 64 size)
      (BitVec.ofNat 32 (S.serializeOut compress d).length) d :=
  ⟨size, _, rfl, S.in_out compress d, rfl, rfl, S.out_pos compress d, hlt⟩

theorem write_size (f : File) (bytes : List Byte) :
    (f.write f.size bytes).size = f.size + bytes.length := by
  simp only [File.write]
  omega

def indexWith (L : Layout V) (info : SegmentInfo) : SegmentIndex :=
  { L.index (L.node.count / 128) with
    segment := (L.index (L.node.count / 128)).segment.set (slotOf L.node.count) info }

def Layout.push (L : Layout V) (init : Initial V) (seg : Segment V) (filled : ℤ)
    (info : SegmentInfo) (off : ℕ) : Layout V where
  cells := L.cells
  pageOff := Function.update L.pageOff (L.node.count / 128) off
  info := Function.update L.info L.node.count info
  node := L.node.push init seg filled

theorem index_push (L : Layout V) (init : Initial V) (seg : Segment V) (filled : ℤ)
    (info : SegmentInfo) (off : ℕ) :
    (Layout.push L init seg filled info off).index (L.node.count / 128) = indexWith L info := by
  have hcount : (Layout.push L init seg filled info off).node.count = L.node.count + 1 := rfl
  have hprevious : (Layout.push L init seg filled info off).pageOff (L.node.count / 128 - 1) =
      L.pageOff (L.node.count / 128 - 1) ∨ L.node.count / 128 = 0 := by
    by_cases hzero : L.node.count / 128 = 0
    · exact Or.inr hzero
    · exact Or.inl (Function.update_of_ne (by omega) _ _)
  have hsegment : ((Layout.push L init seg filled info off).index (L.node.count / 128)).segment =
      (indexWith L info).segment := by
    have hslot := slotOf_val L.node.count
    apply Vector.ext
    intro j hj
    have hj' : j < 128 := hj
    rw [index_getElem, indexWith, Vector.getElem_set, index_getElem, hcount]
    by_cases hself : (slotOf (L.node.count : ℤ)).val = j
    · have hn : 128 * (L.node.count / 128) + j = L.node.count := by omega
      rw [if_pos hself, hn, if_pos (by omega)]
      exact Function.update_self _ _ _
    · rw [if_neg hself]
      by_cases hlt : 128 * (L.node.count / 128) + j < L.node.count
      · rw [if_pos (by omega), if_pos hlt]
        exact Function.update_of_ne (by omega) _ _
      · rw [if_neg (by omega), if_neg hlt]
  rw [SegmentIndex.mk.injEq]
  refine ⟨?_, rfl, hsegment⟩
  change _ = (L.index (L.node.count / 128)).previousOffset
  rw [index_previousOffset, index_previousOffset]
  by_cases hzero : L.node.count / 128 = 0
  · rw [if_pos hzero, if_pos hzero]
  · rw [if_neg hzero, if_neg hzero, hprevious.resolve_right hzero]

theorem index_push_before (L : Layout V) (init : Initial V) (seg : Segment V) (filled : ℤ)
    (info : SegmentInfo) (off : ℕ) {p : ℕ} (hp : p < L.node.count / 128) :
    (Layout.push L init seg filled info off).index p = L.index p := by
  refine index_congr p (fun _ => ?_) fun j hj => ⟨?_, fun hlt => ?_⟩
  · exact Function.update_of_ne (by omega) _ _
  · simp only [Layout.push, Node.push]
    omega
  · exact Function.update_of_ne (by omega) _ _

/-- What a call that began a segment hands to the end: everything in the file but the
page, the header and the attributes. -/
structure Ended (S : Records V) (vars : Vars) (L : Layout V) (init : Initial V)
    (seg : Segment V) (filled : ℤ) : Prop where
  working : Working S vars.file L (some (L.node.count / 128))
  proper : Proper (L.node.push init seg filled)
  shape : 0 < L.node.count → shapeOf init = L.node.shape
  segment : SegmentAt S L.cells (shapeOf init) vars.sinfo seg L.node.count
  sindex : vars.sindex = indexWith L vars.sinfo
  indexOffset : vars.shead.indexOffset =
    if L.node.count % 128 = 0 then -1 else BitVec.ofNat 64 (L.pageOff (L.node.count / 128))
  header : HeaderOf (L.node.push init seg filled) vars.sinfo vars.shead
  headPlace : Place L.cells .header segmentHeader.size
    vars.attr.facilityOffset[SEGMENTED_RECORD_FACILITY]
  attrPlace : Place L.cells .attributes extendedAttributes.size vars.attrOffset
  count_lt : L.node.count + 1 < 2 ^ 31
  nonempty : 0 < vars.file.size
  room : vars.file.size + segmentIndex.size + segmentHeader.size + extendedAttributes.size ≤
    rfaLimit

/-- Cells that stay: those of the segments and of anything else in the file. -/
def Kept (cells cells' : Key → Option Cell) : Prop :=
  ∀ k, k ≠ .attributes → k ≠ .header → (∀ p, k ≠ .page p) → cells' k = cells k

theorem beginFinish_file {vars : Vars} {cells : Key → Option Cell} {p : ℕ}
    (hstores : Stores vars.file cells)
    (hroom : vars.file.size + segmentIndex.size + segmentHeader.size +
      extendedAttributes.size ≤ rfaLimit)
    (hpage : Place cells (.page p) segmentIndex.size vars.shead.indexOffset)
    (hhead : Place cells .header segmentHeader.size
      vars.attr.facilityOffset[SEGMENTED_RECORD_FACILITY])
    (hattr : Place cells .attributes extendedAttributes.size vars.attrOffset) :
    ∃ f' cells' attr off1 off2 off3,
      beginFinish vars = ⟨f', true, seekToRfa (BitVec.ofNat 64 off3), vars.raw⟩ ∧
      Stores f' cells' ∧ off3 < rfaLimit ∧
      vars.file.size ≤ f'.size ∧
      f'.size ≤ vars.file.size + segmentIndex.size + segmentHeader.size +
        extendedAttributes.size ∧
      cells' (.page p) = some ⟨off1, segmentIndex.encode vars.sindex⟩ ∧
      cells' .header = some ⟨off2, segmentHeader.encode
        { vars.shead with indexOffset := BitVec.ofNat 64 off1 }⟩ ∧
      cells' .attributes = some ⟨off3, extendedAttributes.encode attr⟩ ∧
      attr.facilityOffset[SEGMENTED_RECORD_FACILITY] = BitVec.ofNat 64 off2 ∧
      (∀ k, k ≠ .page p → k ≠ .header → k ≠ .attributes → cells' k = cells k) ∧
      (vars.shead.indexOffset = -1 ∧ off1 = vars.file.size ∨
        vars.shead.indexOffset = BitVec.ofNat 64 off1) := by
  have hlimit : rfaLimit < 2 ^ 63 := by simp [rfaLimit]
  have hpos : 0 < extendedAttributes.size := by decide
  -- the page
  rw [← segmentIndex.length_encode vars.sindex] at hpage
  obtain ⟨off1, hput1, hstores1, hsize1, hin1, hwhere⟩ :=
    writeProperty_place hstores (by omega) _ hpage
  rw [segmentIndex.length_encode] at hsize1 hin1
  -- the header
  obtain ⟨shead, hshead⟩ : ∃ shead : SegmentHeader,
    shead = { vars.shead with indexOffset := BitVec.ofNat 64 off1 } := ⟨_, rfl⟩
  rw [← segmentHeader.length_encode shead] at hhead
  obtain ⟨off2, hput2, hstores2, hsize2, hin2, hwhere2⟩ :=
    writeProperty_place hstores1 (by omega) _ (hhead.update (j := .page p) (by rintro ⟨⟩) _)
  rw [segmentHeader.length_encode] at hsize2 hin2
  -- the attributes
  obtain ⟨attr, hattrEq⟩ : ∃ attr : ExtendedAttributes, attr = { vars.attr with
    facilityOffset := (vars.attr.facilityOffset.set SEGMENTED_RECORD_FACILITY
      (BitVec.ofNat 64 off2)).set STANDARD_RECORD_FACILITY (-1)
    facilityLength := vars.attr.facilityLength.set STANDARD_RECORD_FACILITY (-1) } := ⟨_, rfl⟩
  rw [← extendedAttributes.length_encode attr] at hattr
  obtain ⟨off3, hput3, hstores3, hsize3, hin3, hwhere3⟩ :=
    writeProperty_place hstores2 (by omega) _
      ((hattr.update (j := .page p) (by rintro ⟨⟩) _).update (j := .header) (by rintro ⟨⟩) _)
  rw [extendedAttributes.length_encode] at hsize3 hin3
  refine ⟨_, _, attr, off1, off2, off3, ?_, hstores3, by omega, ?_, by omega, ?_, ?_, ?_, ?_, ?_, ?_⟩
  · simp only [beginFinish, saveSegmentHeader, putRecord, hput1]
    rw [← hshead]
    simp only [hput2]
    rw [← hattrEq]
    simp only [hput3]
  · simp only [File.write]
    omega
  · have hattributes : Key.page p ≠ .attributes := by rintro ⟨⟩
    have hheader : Key.page p ≠ .header := by rintro ⟨⟩
    rw [Function.update_of_ne hattributes, Function.update_of_ne hheader, Function.update_self]
  · have hattributes : Key.header ≠ .attributes := by rintro ⟨⟩
    rw [Function.update_of_ne hattributes, Function.update_self, hshead]
  · rw [Function.update_self]
  · simp [hattrEq, SEGMENTED_RECORD_FACILITY, STANDARD_RECORD_FACILITY]
  · intro k hkpage hkhead hkattr
    rw [Function.update_of_ne hkattr, Function.update_of_ne hkhead, Function.update_of_ne hkpage]
  · rcases hwhere with hnew | ⟨hold, _⟩
    · exact Or.inl hnew
    · exact Or.inr hold

theorem HeaderOf.withIndexOffset {node : Node V} {info : SegmentInfo} {shead : SegmentHeader}
    (h : HeaderOf node info shead) (indexOffset : Offset) :
    HeaderOf node info { shead with indexOffset } where
  dtype := h.dtype
  dimct := h.dimct
  idx := h.idx
  shape hne := ⟨(h.shape hne).dtype, (h.shape hne).dimct, (h.shape hne).length, (h.shape hne).dims⟩
  rows := h.rows
  nextRow := h.nextRow
  dataOffset := h.dataOffset
  dimOffset := h.dimOffset

theorem pageOff_push {S : Records V} {f : File} {L : Layout V} {behind : Option ℕ}
    (h : Working S f L behind) (hnonempty : 0 < f.size) {indexOffset : Offset} {off : ℕ}
    (hindex : indexOffset =
      if L.node.count % 128 = 0 then -1 else BitVec.ofNat 64 (L.pageOff (L.node.count / 128)))
    (hoff : off < 2 ^ 63)
    (hwhere : indexOffset = -1 ∧ off = f.size ∨ indexOffset = BitVec.ofNat 64 off) :
    0 < off ∧ ∀ p, 128 * (p + 1) ≤ L.node.count → p + 1 = L.node.count / 128 →
      L.pageOff p < off := by
  by_cases hfull : L.node.count % 128 = 0
  · rw [if_pos hfull] at hindex
    have hend : off = f.size := by
      rcases hwhere with ⟨_, hend⟩ | hold
      · exact hend
      · exact absurd (hold.symm.trans hindex) (ofNat_ne_neg_one hoff)
    refine ⟨by omega, fun p hp _ => ?_⟩
    have hpos : 0 < segmentIndex.size := by decide
    have hlt := (h.pageOff_lt (p := p) (by omega)).1
    omega
  · rw [if_neg hfull] at hindex
    have hlast : 128 * (L.node.count / 128) < L.node.count := by omega
    have hlt := (h.pageOff_lt hlast).2
    have hsame : off = L.pageOff (L.node.count / 128) := by
      rcases hwhere with ⟨hnew, _⟩ | hold
      · exact absurd (hindex.symm.trans hnew) (ofNat_ne_neg_one hlt)
      · exact ofNat_inj hoff hlt (hold.symm.trans hindex)
    refine ⟨?_, fun p _ hp => ?_⟩
    · rw [hsame]
      exact h.pos _ hlast
    · rw [hsame, ← hp]
      exact h.rising p (by omega)

theorem beginFinish_spec {S : Records V} {vars : Vars} {L : Layout V} {init : Initial V}
    {seg : Segment V} {filled : ℤ} (h : Ended S vars L init seg filled) :
    ∃ L', Laid S (beginFinish vars) L' ∧ L'.node = L.node.push init seg filled ∧
      Kept L.cells L'.cells ∧ (beginFinish vars).raw = vars.raw ∧
      L'.info = Function.update L.info L.node.count vars.sinfo ∧
      (beginFinish vars).file.size ≤ vars.file.size + segmentIndex.size + segmentHeader.size +
        extendedAttributes.size := by
  have hpagePlace : Place L.cells (.page (L.node.count / 128)) segmentIndex.size
      vars.shead.indexOffset := by
    by_cases hfull : L.node.count % 128 = 0
    · rw [h.indexOffset, if_pos hfull]
      exact Or.inl rfl
    · obtain ⟨bytes, hcell, hlen, _⟩ := h.working.page (L.node.count / 128) (by omega)
      rw [h.indexOffset, if_neg hfull]
      exact Or.inr ⟨_, bytes, rfl, hcell, hlen⟩
  obtain ⟨f', cells', attr, off1, off2, off3, hfinish, hstores, hoff3, _, hsize, hpage, hheader,
    hattributes, hfacility, hkeep, hwhere⟩ :=
    beginFinish_file h.working.stores h.room hpagePlace h.headPlace h.attrPlace
  have hsmall : f'.size ≤ rfaLimit := Nat.le_trans hsize h.room
  have hoff1 : off1 < 2 ^ 63 := by
    have hlt := cell_lt hstores hsmall hpage
    simp only at hlt
    omega
  obtain ⟨hpos, hrising⟩ :=
    pageOff_push h.working h.nonempty h.indexOffset hoff1 hwhere
  obtain ⟨L', hL'⟩ : ∃ L' : Layout V,
    L' = Layout.push { L with cells := cells' } init seg filled vars.sinfo off1 := ⟨_, rfl⟩
  have hcells : L'.cells = cells' := by rw [hL']; rfl
  have hnode : L'.node = L.node.push init seg filled := by rw [hL']; rfl
  have hcount : L'.node.count = L.node.count + 1 := by rw [hnode]; rfl
  have hinfo : L'.info = Function.update L.info L.node.count vars.sinfo := by rw [hL']; rfl
  have hpageOff : L'.pageOff = Function.update L.pageOff (L.node.count / 128) off1 := by
    rw [hL']; rfl
  have hkept : Kept L.cells L'.cells := by
    intro k hattr hhead hpages
    rw [hcells]
    exact hkeep k (hpages _) hhead hattr
  have hsegment : ∀ i < L'.node.count,
      SegmentAt S L'.cells L'.node.shape (L'.info i) (L'.node.seg i) i := by
    intro i hi
    have hcongr : ∀ {shape info seg}, SegmentAt S L.cells shape info seg i →
        SegmentAt S L'.cells shape info seg i := fun hat =>
      hat.congr (hkept _ nofun nofun nofun) (hkept _ nofun nofun nofun)
        (hkept _ nofun nofun nofun) (hkept _ nofun nofun nofun)
    rw [hcount] at hi
    rw [hinfo, hnode]
    simp only [Node.push]
    by_cases hlast : i = L.node.count
    · subst hlast
      rw [Function.update_self, Function.update_self]
      exact hcongr h.segment
    · rw [Function.update_of_ne hlast, Function.update_of_ne hlast, h.shape (by omega)]
      exact hcongr (h.working.segment i (by omega))
  have hpages : ∀ p, 128 * p < L'.node.count → ∃ bytes,
      L'.cells (.page p) = some ⟨L'.pageOff p, bytes⟩ ∧ bytes.length = segmentIndex.size ∧
        (none ≠ some p → bytes = segmentIndex.encode (L'.index p)) := by
    intro p hp
    rw [hcount] at hp
    rw [hcells, hpageOff]
    by_cases hlast : p = L.node.count / 128
    · subst hlast
      rw [Function.update_self]
      refine ⟨_, hpage, segmentIndex.length_encode _, fun _ => ?_⟩
      rw [hL', index_push, h.sindex]
      rfl
    · obtain ⟨bytes, hcell, hlen, hsame⟩ := h.working.page p (by omega)
      have hne : Key.page p ≠ .page (L.node.count / 128) := by
        intro heq
        injection heq with heq
        exact hlast heq
      rw [Function.update_of_ne hlast]
      refine ⟨bytes, (hkeep _ hne nofun nofun).trans hcell, hlen, fun _ => ?_⟩
      have hbehind : some (L.node.count / 128) ≠ some p := fun heq =>
        hlast (Option.some.inj heq).symm
      have hbefore := index_push_before { L with cells := cells' } init seg filled vars.sinfo off1
        (p := p) (show p < L.node.count / 128 by omega)
      rw [hsame hbehind, hL', hbefore]
      rfl
  refine ⟨L', ⟨⟨?_, ?_, hsegment, hpages, ?_, ?_, ?_⟩, ?_, ?_, ?_⟩, hnode, hkept, ?_, hinfo, ?_⟩
  · rw [hfinish, hcells]
    exact hstores
  · rw [hfinish]
    exact hsmall
  · intro p hp
    rw [hcount] at hp
    rw [hpageOff]
    by_cases hlast : p = L.node.count / 128
    · rw [hlast, Function.update_self]
      exact hpos
    · rw [Function.update_of_ne hlast]
      exact h.working.pos p (by omega)
  · intro p hp
    rw [hcount] at hp
    rw [hpageOff, Function.update_of_ne (show p ≠ L.node.count / 128 by omega)]
    by_cases hlast : p + 1 = L.node.count / 128
    · rw [hlast, Function.update_self]
      exact hrising p (by omega) hlast
    · rw [Function.update_of_ne hlast]
      exact h.working.rising p (by omega)
  · rw [hcount]
    exact h.count_lt
  · rw [hnode]
    exact h.proper
  · intro _
    refine ⟨attr, { vars.shead with indexOffset := BitVec.ofNat 64 off1 }, off3, off2, ?_, ?_, ?_,
      hfacility, ?_, ?_, ?_⟩
    · rw [hfinish]
    · rw [hfinish]
      exact rfaToSeek_seekToRfa off3 hoff3
    · rw [hcells]
      exact hattributes
    · rw [hcells]
      exact hheader
    · rw [hnode, hinfo]
      simp only [Node.push, Nat.add_sub_cancel, Function.update_self]
      exact HeaderOf.withIndexOffset h.header _
    · rw [hcount, hpageOff, Nat.add_sub_cancel, Function.update_self]
  · intro hzero
    omega
  · rw [hfinish]
  · rw [hfinish]
    exact hsize

end MdsPlus.SegmentWrites
