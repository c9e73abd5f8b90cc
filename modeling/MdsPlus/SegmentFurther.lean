import MdsPlus.SegmentRuns

/-!
Beginning a further segment. Rows that match the header are taken whatever the segment before
holds; with timestamps the segment before is compressed first, which is refused where not every row
of it has a timestamp.
-/

namespace MdsPlus.SegmentFurther

open BitMemory ByteFile Datafile SegmentRecords Segments SegmentNode SegmentLayout
  SegmentReads SegmentPages SegmentWrites SegmentBegin SegmentPack SegmentOpen SegmentMake
  SegmentRuns Outcome

variable {V : Type}

/-! ### The segment before -/

/-- Every row has a timestamp. Rows without any stand for it themselves when they are quadwords. -/
def Stamped (seg : Segment V) (shape : Shape) : Prop :=
  match seg.dim with
  | .none => shape = ⟨DTYPE_Q, 8, []⟩
  | .stamps l =>
      l.length ≤ 1 ∨ (l.getD (l.length - 2) 0).toInt < 0 ∨ l.getD (l.length - 1) 0 ≠ 0
  | .record (.array d) =>
      seg.rows * 8 ≤ d.bytes.length ∧ d.dims.length = 1 ∧ d.length = 8 ∧ d.dtype = DTYPE_Q
  | .record _ => False

theorem filledStamps_eq_length (l : List (BitVec 64)) :
    filledStamps l = l.length ↔
      l.length ≤ 1 ∨ (l.getD (l.length - 2) 0).toInt < 0 ∨ l.getD (l.length - 1) 0 ≠ 0 := by
  unfold filledStamps
  by_cases h : l.length > 1 ∧ (l.getD (l.length - 2) 0).toInt ≥ 0
  · rw [if_pos h]
    obtain ⟨n, hn⟩ : ∃ n, l.length = n + 1 := ⟨l.length - 1, by omega⟩
    have hle := dropZeros_le l n
    have hlast : l.length - 1 = n := by omega
    have hdrop : dropZeros l l.length = if l.getD n 0 = 0 then dropZeros l n else n + 1 := by
      rw [hn, dropZeros]
    rw [hdrop, hlast]
    by_cases hzero : l.getD n 0 = 0
    · rw [if_pos hzero]
      constructor
      · intro heq
        omega
      · rintro (hone | hneg | hne)
        · omega
        · omega
        · exact absurd hzero hne
    · rw [if_neg hzero]
      exact iff_of_true hn.symm (Or.inr (Or.inr hzero))
  · rw [if_neg h]
    exact iff_of_true rfl (by omega)

/-! ### Loading -/

section Begin

variable {S : Records V} {s : State} {L : Layout V} {init : Initial V}

theorem sameDims_of_shape {shead : SegmentHeader} {shape : Shape} (h : ShapeAt shead shape)
    {dims : List ℕ} (hdims : dims.dropLast = shape.inner) :
    sameDims shead dims (dims.length - 1) = true := by
  rw [sameDims, List.all_eq_true]
  intro j hj
  have hlt := List.mem_range.mp hj
  have hinner : j < shape.inner.length := by
    rw [← hdims, List.length_dropLast]
    exact hlt
  have hget : dims.getD j 0 = shape.inner[j] := by
    rw [List.getD_eq_getElem _ _ (by omega)]
    simp only [← hdims, List.getElem_dropLast]
  rw [decide_eq_true_eq, h.dims j hinner, hget]

theorem exists_ready (h : Laid S s L) (hcount : 0 < L.node.count) (hjoins : Joins L.node init)
    (hshape : shapeOf init = L.node.shape) :
    ∃ attr attrOffset shead sindex, beginExtendedNci s = (attr, attrOffset) ∧
      beginSegmentHeader s.file attr init = .ok (attr, shead) ∧
      beginSegmentIndex s.file shead = (shead, sindex) ∧
      Ready L init attr attrOffset shead sindex := by
  obtain ⟨attr, shead, attrOff, headOff, hh⟩ := h.headed hcount
  obtain ⟨-, -, hload, hheader⟩ := loadHeader h hh
  have hcontent := hh.header_at.content
  have hpage := loadIndex h hcount hh.header_at
  have hattr : beginExtendedNci s = (attr, rfaToSeek s.rfa) := by
    simp only [beginExtendedNci, hload]
  have hindex : beginSegmentIndex s.file shead =
      (shead, L.index ((L.node.count - 1) / 128)) := by
    simp only [beginSegmentIndex, hpage]
  have hdtype : init.dtype = shead.dtype := by
    rw [hcontent.dtype, ← hshape]
    cases init with
    | array a => rfl
    | opaqueRecord v => rfl
  have hhead : beginSegmentHeader s.file attr init = .ok (attr, shead) := by
    cases init with
    | opaqueRecord v => simp only [beginSegmentHeader, hheader, hdtype, ne_eq, not_true, if_false]
    | array a =>
      have hformed := hjoins.formed a rfl
      have hrows : L.node.shape.dtype ≠ DTYPE_OPAQUE := by
        rw [← hshape]
        exact hformed.dtype
      have hat := hcontent.shape hrows
      have hinner : a.dims.dropLast = L.node.shape.inner := congrArg Shape.inner hshape
      have hlen := length_inner hformed
      have hdimct : a.dims.length = shead.dimct.toNat := by
        rw [dimct_toNat hat (h.proper.sized hrows hcount), ← hinner, hlen]
      have hsame := sameDims_of_shape hat hinner
      simp only [beginSegmentHeader, hheader, hdtype, hdimct, ne_eq, not_true, if_false]
      rw [← hdimct, hsame]
      simp
  exact ⟨attr, _, shead, _, hattr, hhead, hindex,
    ready_of_begin h hjoins hattr hhead hindex⟩

/-! ### Compressing the segment before -/

/-- Data and dimension as the timestamps' path wants them: as large as the new segment, and a
quadword for each of its rows. -/
def Full (data dim : Dsc V) (a : ArrayDsc) : Prop :=
  match data, dim with
  | .array data, .array dim =>
      data.bytes ≠ [] ∧ data.bytes.length ≥ a.bytes.length ∧ dim.bytes ≠ [] ∧
        dim.bytes.length ≥ a.lastDim * 8 ∧ dim.dims.length = 1 ∧ dim.length = 8 ∧
        dim.dtype = DTYPE_Q
  | _, _ => False

/-- How the segment before is compressed: what was read decides whether it is, and the header gets
other storage only. -/
structure Compressor
    (checkCompress : Vars → Fin SEGMENTS_PER_INDEX → Option (Dsc V) → Option (Dsc V) →
      Initial V → Except Status Vars) (accepts : Dsc V → Dsc V → ArrayDsc → Prop) : Prop where
  ok_iff : ∀ vars i data dim a,
    (∃ vars', checkCompress vars i (some data) (some dim) (.array a) = .ok vars') ↔
      accepts data dim a
  shead : ∀ vars i data dim init vars', checkCompress vars i data dim init = .ok vars' →
    ∃ dataOffset dimOffset, vars'.shead = { vars.shead with dataOffset, dimOffset }

theorem compressor_dim (S : Records V) :
    Compressor (checkCompressDim S) (fun _ _ _ => True) where
  ok_iff vars i data dim a := iff_of_true ⟨_, rfl⟩ trivial
  shead vars i data dim init vars' hok := by
    cases data with
    | none => cases hok
    | some data =>
      rw [← Except.ok.inj hok]
      exact ⟨_, vars.shead.dimOffset, rfl⟩

theorem compressor_ts (S : Records V) : Compressor (checkCompressTs S) Full where
  ok_iff vars i data dim a := by
    cases data with
    | array data =>
      cases dim with
      | array dim =>
        simp only [checkCompressTs, Full]
        split_ifs with hfull
        · exact iff_of_true ⟨_, rfl⟩ hfull
        · exact iff_of_false (by rintro ⟨_, ⟨⟩⟩) hfull
      | quadword q => exact iff_of_false (by rintro ⟨_, ⟨⟩⟩) not_false
      | opaqueRecord v => exact iff_of_false (by rintro ⟨_, ⟨⟩⟩) not_false
      | other v => exact iff_of_false (by rintro ⟨_, ⟨⟩⟩) not_false
    | quadword q => exact iff_of_false (by rintro ⟨_, ⟨⟩⟩) not_false
    | opaqueRecord v => exact iff_of_false (by rintro ⟨_, ⟨⟩⟩) not_false
    | other v => exact iff_of_false (by rintro ⟨_, ⟨⟩⟩) not_false
  shead vars i data dim init vars' hok := by
    unfold checkCompressTs at hok
    split at hok
    · split_ifs at hok
      rw [← Except.ok.inj hok]
      exact ⟨_, _, rfl⟩
    · cases hok
    · cases hok

theorem full_iff {seg : Segment V} {shape : Shape} {a : ArrayDsc} {bytes : List Byte}
    (hdata : seg.data = .rows bytes) (hlen : bytes.length = seg.rows * shape.rowBytes)
    (hbytes : a.bytes.length = seg.rows * shape.rowBytes) (hrows : a.lastDim = seg.rows)
    (hpos : 0 < shape.rowBytes) (hstamps : ∀ l, seg.dim = .stamps l → l.length = seg.rows) :
    Full (seg.readData shape (readRows seg)) (readDim seg shape) a ↔
      0 < seg.rows ∧ Stamped seg shape := by
  have hread : ∀ n, seg.readData shape n = .array (shape.array n bytes) := by
    intro n
    rw [Segment.readData, hdata]
  have htake : bytes.take (seg.rows * shape.rowBytes) = bytes := by
    rw [← hlen, List.take_length]
  have hne : bytes ≠ [] ↔ 0 < seg.rows := by
    rw [← List.length_pos_iff, hlen]
    exact ⟨Nat.pos_of_mul_pos_right, fun h => Nat.mul_pos h hpos⟩
  cases hdim : seg.dim with
  | none =>
    have hk : readRows seg = seg.rows := by rw [readRows, hdim]
    simp only [readDim, hdim, hk, hread, Full, Stamped, Shape.array, htake]
    constructor
    · rintro ⟨hsome, -, -, -, hone, hlength, hdtype⟩
      refine ⟨hne.mp hsome, ?_⟩
      have hinner : shape.inner = [] := by
        rw [List.length_append, List.length_singleton] at hone
        exact List.eq_nil_of_length_eq_zero (by omega)
      obtain ⟨dtype, length, inner⟩ := shape
      simp only at hlength hdtype hinner
      rw [hlength, hdtype, hinner]
    · rintro ⟨hsome, hquad⟩
      have hsize : bytes.length = seg.rows * 8 := by
        rw [hlen, hquad]
        rfl
      refine ⟨hne.mpr hsome, ?_, hne.mpr hsome, ?_, ?_⟩
      · rw [hlen, hbytes]
      · rw [hsize, hrows]
      · rw [hquad]
        exact ⟨rfl, rfl, rfl⟩
  | stamps l =>
    have hk : readRows seg = filledStamps l := by rw [readRows, hdim]
    have hle : filledStamps l ≤ seg.rows := by
      rw [← hstamps l hdim]
      exact filledStamps_le l
    have htakeLen : (bytes.take (filledStamps l * shape.rowBytes)).length =
        filledStamps l * shape.rowBytes := by
      rw [List.length_take, hlen]
      exact Nat.min_eq_left (Nat.mul_le_mul_right _ hle)
    have htold : filledStamps l = seg.rows ↔ Stamped seg shape := by
      simp only [Stamped, hdim]
      rw [← filledStamps_eq_length, hstamps l hdim]
    simp only [readDim, hdim, hk, hread, Full, Shape.array, stampArray]
    constructor
    · rintro ⟨hsome, hsize, -⟩
      have hge : seg.rows ≤ filledStamps l := by
        rw [htakeLen, hbytes] at hsize
        exact Nat.le_of_mul_le_mul_right hsize hpos
      have hall : filledStamps l = seg.rows := Nat.le_antisymm hle hge
      rw [hall, htake] at hsome
      exact ⟨hne.mp hsome, htold.mp hall⟩
    · rintro ⟨hsome, hfull⟩
      have hall := htold.mpr hfull
      have hlenOf : (stampBytes (l.take seg.rows)).length = seg.rows * 8 := by
        rw [length_stampBytes, List.length_take, hstamps l hdim, Nat.min_self]
      rw [hall, htake]
      refine ⟨hne.mpr hsome, ?_, ?_, ?_, rfl, trivial, trivial⟩
      · rw [hlen, hbytes]
      · rw [← List.length_pos_iff, hlenOf]
        omega
      · rw [hlenOf, hrows]
  | record d =>
    have hk : readRows seg = seg.rows := by rw [readRows, hdim]
    simp only [readDim, hdim, hk, hread]
    cases d with
    | array d =>
      simp only [Full, Stamped, hdim, Shape.array, htake, hrows]
      constructor
      · rintro ⟨hsome, -, -, hsize, hone, hlength, hdtype⟩
        exact ⟨hne.mp hsome, hsize, hone, hlength, hdtype⟩
      · rintro ⟨hsome, hsize, hone, hlength, hdtype⟩
        refine ⟨hne.mpr hsome, ?_, ?_, hsize, hone, hlength, hdtype⟩
        · rw [hlen, hbytes]
        · rw [← List.length_pos_iff]
          omega
    | quadword q => simp only [Full, Stamped, hdim, and_false]
    | opaqueRecord v => simp only [Full, Stamped, hdim, and_false]
    | other v => simp only [Full, Stamped, hdim, and_false]

end Begin

/-! ### Beginning -/

section Further

variable {S : Records V} {s : State} {L : Layout V} {init : Initial V} {rowsFilled : ℤ}
  {checkCompress : Vars → Fin SEGMENTS_PER_INDEX → Option (Dsc V) → Option (Dsc V) →
    Initial V → Except Status Vars}
  {accepts : Dsc V → Dsc V → ArrayDsc → Prop}

theorem opening_turnPage {vars : Vars} {count : ℕ}
    (h : Opening vars.shead init count rowsFilled) :
    Opening (turnPage vars).shead init count rowsFilled := by
  rw [turnPage]
  split_ifs
  · exact h.offsets _ _ _
  · exact h

theorem opening_beginSinfo (hcc : Compressor checkCompress accepts) (hjoins : Joins L.node init)
    {vars vars' : Vars}
    (hready : Ready L init vars.attr vars.attrOffset vars.shead vars.sindex)
    (hok : beginSinfo S checkCompress vars init (-1) rowsFilled = .ok vars') :
    Opening vars'.shead init L.node.count rowsFilled := by
  have hopening : Opening (opened vars.shead init rowsFilled) init L.node.count rowsFilled :=
    opening_opened vars.shead init rowsFilled hready.idx hjoins.formed
  rw [beginSinfo, if_pos rfl, bind_eq_ok] at hok
  obtain ⟨vars1, hpack, hturn⟩ := hok
  rw [← Except.ok.inj hturn]
  apply opening_turnPage
  rw [packPrevious] at hpack
  split_ifs at hpack
  · rw [bind_eq_ok] at hpack
    obtain ⟨r, -, hpack⟩ := hpack
    obtain ⟨dataOffset, dimOffset, hshead⟩ := hcc.shead _ _ _ _ _ _ hpack
    rw [hshead]
    exact hopening.offsets _ _ _
  · rw [← Except.ok.inj hpack]
    exact hopening

variable (rowsFilled) in
theorem beginSinfo_ok_iff (hcc : Compressor checkCompress accepts) (h : Laid S s L)
    (hjoins : Joins L.node init) {vars : Vars}
    (hready : Ready L init vars.attr vars.attrOffset vars.shead vars.sindex)
    (hfile : vars.file = s.file) :
    (∃ vars', beginSinfo S checkCompress vars init (-1) rowsFilled = .ok vars') ↔
      ∀ a, init = .array a → L.node.compresses vars.compress a →
        accepts (L.node.last.readData L.node.shape (readRows L.node.last))
          (readDim L.node.last L.node.shape) a := by
  have hopening : Opening (opened vars.shead init rowsFilled) init L.node.count rowsFilled :=
    opening_opened vars.shead init rowsFilled hready.idx hjoins.formed
  have hidx : (opened vars.shead init rowsFilled).idx.toInt = L.node.count := by
    rw [hopening.idx, toInt_ofNat32 h.working.count_lt]
  have hiff := compresses_iff h hjoins hready vars.compress
  have hbegin : (∃ vars', beginSinfo S checkCompress vars init (-1) rowsFilled = .ok vars') ↔
      ∃ vars', packPrevious S checkCompress { vars with
        shead := opened vars.shead init rowsFilled
        idx := (L.node.count : ℤ) } init (previousLength (nextHeader vars.shead init)) =
          .ok vars' := by
    rw [← hidx, beginSinfo, if_pos rfl]
    constructor
    · rintro ⟨vars', hok⟩
      obtain ⟨vars1, hpack, -⟩ := bind_eq_ok.mp hok
      exact ⟨vars1, hpack⟩
    · rintro ⟨vars1, hpack⟩
      exact ⟨_, bind_eq_ok.mpr ⟨vars1, hpack, rfl⟩⟩
  rw [hbegin]
  by_cases hcomp : ∃ a, init = .array a ∧ L.node.compresses vars.compress a
  · have hwhen := hiff.mpr hcomp
    obtain ⟨a, rfl, hcomp⟩ := hcomp
    have hcount : 0 < L.node.count := Nat.pos_of_ne_zero fun hzero => by
      have hpos := hcomp.1
      simp [hzero] at hpos
    have hread := previous_read h (hjoins.formed a rfl) hcount (hready.shape hcount) hopening
      hready.sindex
    rw [packPrevious, if_pos hwhen]
    simp only [hfile, hread, bind, Except.bind]
    rw [hcc.ok_iff]
    constructor
    · intro haccepts b hb _
      injection hb with hb
      exact hb ▸ haccepts
    · intro hall
      exact hall a rfl hcomp
  · rw [packPrevious, if_neg (fun hwhen => hcomp (hiff.mp hwhen))]
    exact iff_of_true ⟨_, rfl⟩ fun a ha hc => absurd ⟨a, ha, hc⟩ hcomp

theorem putdataInitialvalue_ok (hformed : ∀ a, init = .array a → Formed a) {vars : Vars}
    {count : ℕ} (hopening : Opening vars.shead init count rowsFilled) :
    ∃ vars', putdataInitialvalue S vars init = .ok vars' ∧
      Opening vars'.shead init count rowsFilled := by
  cases init with
  | opaqueRecord v => exact ⟨_, rfl, hopening.offsets _ _ _⟩
  | array a =>
    have hf := hformed a rfl
    have hlen := initialLength_eq hopening hf
    have hput : ¬ ((a.bytes.length : ℤ) < 0 ∨ (a.bytes.length : ℤ) > a.bytes.length) := by omega
    simp only [putdataInitialvalue, if_neg hf.dtype, putInitialvalue, hlen, if_neg hput, bind,
      Except.bind]
    exact ⟨_, rfl, hopening.offsets _ _ _⟩

variable (rowsFilled checkCompress) in
theorem beginSegment_eq (h : Laid S s L) (hcount : 0 < L.node.count) (hjoins : Joins L.node init)
    (hshape : shapeOf init = L.node.shape) {initialValue : Dsc V}
    (hinit : checkInput initialValue = .ok init) (compress : ℤ) :
    ∃ vars0 : Vars, Ready L init vars0.attr vars0.attrOffset vars0.shead vars0.sindex ∧
      vars0.file = s.file ∧ vars0.compress = compress ∧
      beginSegment S checkCompress s compress initialValue (-1) rowsFilled =
        beginSinfo S checkCompress vars0 init (-1) rowsFilled >>= fun vars =>
          putdataInitialvalue S vars init := by
  obtain ⟨attr, attrOffset, shead, sindex, hattr, hhead, hindex, hready⟩ :=
    exists_ready h hcount hjoins hshape
  refine ⟨⟨s.file, s.raw, attr, attrOffset, shead, sindex, -1, compress⟩, hready, rfl, rfl, ?_⟩
  simp only [beginSegment, hinit, hattr, hhead, hindex, bind, Except.bind]

theorem opening_beginSegment (hcc : Compressor checkCompress accepts) (h : Laid S s L)
    (hcount : 0 < L.node.count) (hjoins : Joins L.node init) (hshape : shapeOf init = L.node.shape)
    {initialValue : Dsc V} (hinit : checkInput initialValue = .ok init) {compress : ℤ} {vars : Vars}
    (hok : beginSegment S checkCompress s compress initialValue (-1) rowsFilled = .ok vars) :
    Opening vars.shead init L.node.count rowsFilled := by
  obtain ⟨vars0, hready, -, -, hbegin⟩ := beginSegment_eq rowsFilled checkCompress h
    hcount hjoins hshape hinit compress
  rw [hbegin] at hok
  obtain ⟨vars1, hsinfo, hput⟩ := bind_eq_ok.mp hok
  have hopening := opening_beginSinfo hcc hjoins hready hsinfo
  obtain ⟨vars', hput', hopening'⟩ := putdataInitialvalue_ok (S := S) hjoins.formed hopening
  rw [hput'] at hput
  rw [← Except.ok.inj hput]
  exact hopening'

variable (rowsFilled) in
theorem beginSegment_ok_iff (hcc : Compressor checkCompress accepts) (h : Laid S s L)
    (hcount : 0 < L.node.count) (hjoins : Joins L.node init) (hshape : shapeOf init = L.node.shape)
    {initialValue : Dsc V} (hinit : checkInput initialValue = .ok init) (compress : ℤ) :
    (∃ vars, beginSegment S checkCompress s compress initialValue (-1) rowsFilled = .ok vars) ↔
      ∀ a, init = .array a → L.node.compresses compress a →
        accepts (L.node.last.readData L.node.shape (readRows L.node.last))
          (readDim L.node.last L.node.shape) a := by
  obtain ⟨vars0, hready, hfile, hcompress, hbegin⟩ :=
    beginSegment_eq rowsFilled checkCompress h hcount hjoins hshape hinit compress
  have hiff := beginSinfo_ok_iff rowsFilled hcc h hjoins hready hfile
  rw [hcompress] at hiff
  rw [← hiff, hbegin]
  constructor
  · rintro ⟨vars, hok⟩
    obtain ⟨vars1, hsinfo, -⟩ := bind_eq_ok.mp hok
    exact ⟨vars1, hsinfo⟩
  · rintro ⟨vars1, hsinfo⟩
    have hopening := opening_beginSinfo hcc hjoins hready hsinfo
    obtain ⟨vars, hput, -⟩ := putdataInitialvalue_ok (S := S) hjoins.formed hopening
    exact ⟨vars, bind_eq_ok.mpr ⟨vars1, hsinfo, hput⟩⟩

theorem putdimTs_ok {a : ArrayDsc} (hformed : Formed a)
    (hfilled : Filled (.array a : Initial V) rowsFilled) {timestamps : Option (List (BitVec 64))}
    (hgiven : rowsFilled ≤ (timestamps.getD []).length) {vars : Vars} {count : ℕ}
    (hopening : Opening vars.shead (.array a : Initial V) count rowsFilled) :
    ∃ vars', putdimTs vars timestamps rowsFilled = .ok vars' := by
  obtain ⟨hpos, -⟩ := hfilled a rfl
  have hdimct := dimct_toNat (hopening.shape a rfl) (sized hformed)
  have hrows : (dimAt vars.shead (vars.shead.dimct.toNat - 1)).toInt = a.lastDim := by
    have hlast := hopening.rows a rfl
    rw [hdimct, Nat.add_sub_cancel]
    change (dimAt vars.shead a.dims.dropLast.length).toInt = _
    rw [hlast, toInt_ofNat32 (lastDim_lt hformed)]
  have hne : vars.shead.dimct ≠ 0 := by
    intro hzero
    rw [hzero] at hdimct
    simp at hdimct
  have hrange : ¬ ((a.lastDim : ℤ) < 0 ∨ vars.shead.dimct = 0) := by
    rintro (hneg | hzero)
    · omega
    · exact hne hzero
  have hstamps : ¬ (((timestamps.getD []).length : ℤ) < rowsFilled ∨
      (timestamps.isSome = true ∧ rowsFilled < 0)) := by omega
  rw [putdimTs]
  simp only [hrows, if_neg hrange, if_neg hstamps]
  exact ⟨_, rfl⟩

end Further

/-! ### A further segment -/

section Calls

variable {S : Records V} {s s' : State} {L : Layout V} {init : Initial V} {rowsFilled : ℤ}

structure Alike (node : Node V) (init : Initial V) (rowsFilled : ℤ) : Prop where
  formed : ∀ a, init = .array a → Formed a
  shape : shapeOf init = node.shape
  filled : Filled init rowsFilled

theorem Alike.joins {node : Node V} (h : Alike node init rowsFilled) : Joins node init where
  formed := h.formed
  length a ha _ := by
    have hshape := h.shape
    rw [ha] at hshape
    exact congrArg Shape.length hshape

theorem makeSegment_ok (h : Laid S s L) (hcount : 0 < L.node.count)
    (halike : Alike L.node init rowsFilled) {initialValue : Dsc V}
    (hinit : checkInput initialValue = .ok init) (compress : ℤ)
    (start stop dimension : Option (Dsc V)) :
    ∃ s', makeSegment S s compress start stop dimension initialValue (-1) rowsFilled = .ok s' := by
  obtain ⟨vars, hbegin⟩ := (beginSegment_ok_iff rowsFilled (compressor_dim S) h
    hcount halike.joins halike.shape hinit compress).mpr fun _ _ _ => trivial
  exact ⟨_, bind_eq_ok.mpr ⟨vars, hbegin, rfl⟩⟩

theorem full_last_iff (h : Laid S s L) (hcount : 0 < L.node.count) {a : ArrayDsc}
    (halike : Alike L.node (.array a : Initial V) rowsFilled) {compress : ℤ}
    (hcomp : L.node.compresses compress a) :
    Full (L.node.last.readData L.node.shape (readRows L.node.last))
        (readDim L.node.last L.node.shape) a ↔
      0 < L.node.last.rows ∧ Stamped L.node.last L.node.shape := by
  have hformed := halike.formed a rfl
  have hrow : L.node.shape.rowBytes = a.length * a.dims.dropLast.prod := by
    rw [← halike.shape]
    rfl
  have hrows : L.node.shape.dtype ≠ DTYPE_OPAQUE := by
    rw [← halike.shape]
    exact hformed.dtype
  have hseg := h.working.segment (L.node.count - 1) (by omega)
  obtain ⟨bytes, hdata⟩ := h.proper.last_rows hrows hcount
  have hat := hseg.data
  change DataAt S _ _ _ L.node.last.rows L.node.last.data at hat
  rw [hdata] at hat
  have hsame : L.node.last.rows * L.node.shape.rowBytes = a.bytes.length := hcomp.2.1
  have hlast : a.lastDim = L.node.last.rows := by
    have heq := hsame
    rw [bytes_eq hformed, hrow] at heq
    exact (Nat.eq_of_mul_eq_mul_right hformed.row_pos heq).symm
  refine full_iff hdata hat.1 hsame.symm hlast ?_ fun l hl => ?_
  · rw [hrow]
    exact hformed.row_pos
  · have hdim := hseg.dim
    change DimAt S _ _ L.node.last.rows L.node.last.dim at hdim
    rw [hl] at hdim
    exact hdim.1

theorem makeTimestampedSegment_ok_iff (h : Laid S s L) (hcount : 0 < L.node.count)
    (halike : Alike L.node init rowsFilled) {initialValue : Dsc V}
    (hinit : checkInput initialValue = .ok init) (compress : ℤ)
    {timestamps : Option (List (BitVec 64))} (hgiven : rowsFilled ≤ (timestamps.getD []).length) :
    (∃ s', makeTimestampedSegment S s compress timestamps initialValue (-1) rowsFilled = .ok s') ↔
      ∃ a, init = .array a ∧ (L.node.compresses compress a →
        0 < L.node.last.rows ∧ Stamped L.node.last L.node.shape) := by
  have hiff := beginSegment_ok_iff rowsFilled (compressor_ts S) h hcount
    halike.joins halike.shape hinit compress
  have hopening : ∀ vars, beginSegment S (checkCompressTs S) s compress initialValue (-1)
      rowsFilled = .ok vars → Opening vars.shead init L.node.count rowsFilled := fun vars hok =>
    opening_beginSegment (compressor_ts S) h hcount halike.joins halike.shape hinit hok
  constructor
  · rintro ⟨s', hok⟩
    obtain ⟨vars, hbegin, hrest⟩ := bind_eq_ok.mp hok
    obtain ⟨vars', hput, -⟩ := bind_eq_ok.mp hrest
    cases init with
    | opaqueRecord v =>
      have hdimct : vars.shead.dimct = 0 := (hopening vars hbegin).dimct
      simp [putdimTs, hdimct] at hput
    | array a =>
      refine ⟨a, rfl, fun hcomp => ?_⟩
      exact (full_last_iff h hcount halike hcomp).mp (hiff.mp ⟨vars, hbegin⟩ a rfl hcomp)
  · rintro ⟨a, rfl, hwhen⟩
    obtain ⟨vars, hbegin⟩ := hiff.mpr fun b hb hcomp => by
      injection hb with hb
      subst hb
      exact (full_last_iff h hcount halike hcomp).mpr (hwhen hcomp)
    obtain ⟨vars', hput⟩ := putdimTs_ok (halike.formed a rfl) halike.filled hgiven
      (hopening vars hbegin)
    exact ⟨_, bind_eq_ok.mpr ⟨vars, hbegin, bind_eq_ok.mpr ⟨vars', hput, rfl⟩⟩⟩

end Calls

/-! ### In every run -/

section Run

variable {S : Records V} {s s' : State} {L : Layout V}

/-- A call that begins a further segment with rows like those of the node, and gives a timestamp
for each filled row if it gives any. -/
def Further (node : Node V) : Op V → Prop
  | .makeSegment _ _ _ _ initialValue idx rowsFilled =>
      idx = -1 ∧ ∃ init, checkInput initialValue = .ok init ∧ Alike node init rowsFilled
  | .makeTimestampedSegment _ timestamps initialValue idx rowsFilled =>
      idx = -1 ∧ rowsFilled ≤ (timestamps.getD []).length ∧
        ∃ init, checkInput initialValue = .ok init ∧ Alike node init rowsFilled
  | _ => False

/-- With timestamps the segment is an array, and if the one before is compressed it has rows and
every one of them has its timestamp. -/
def Packable (node : Node V) : Op V → Prop
  | .makeTimestampedSegment compress _ initialValue _ _ =>
      ∃ a, checkInput initialValue = .ok (.array a) ∧ (node.compresses compress a →
        0 < node.last.rows ∧ Stamped node.last node.shape)
  | _ => True

theorem further_ok_iff (h : Laid S s L) (hcount : 0 < L.node.count) {op : Op V}
    (hfurther : Further L.node op) : (∃ s', step S s op = .ok s') ↔ Packable L.node op := by
  cases op with
  | makeSegment compress start stop dimension initialValue idx rowsFilled =>
    obtain ⟨rfl, init, hinit, halike⟩ := hfurther
    exact iff_of_true (makeSegment_ok h hcount halike hinit compress start stop dimension) trivial
  | makeTimestampedSegment compress timestamps initialValue idx rowsFilled =>
    obtain ⟨rfl, hgiven, init, hinit, halike⟩ := hfurther
    have hiff := makeTimestampedSegment_ok_iff h hcount halike hinit compress hgiven
    simp only [Packable, hinit, Except.ok.injEq]
    exact hiff
  | putSegment startIdx data => exact hfurther.elim
  | putTimestampedSegment timestamps data => exact hfurther.elim
  | updateSegment compress start stop dimension idx => exact hfurther.elim
  | setRowsFilled rowsFilled => exact hfurther.elim

/-- The rows filled are those that will be read, whatever was put. -/
def asTold (node : Node V) : Node V :=
  { node with
    nextRow :=
      match node.last.dim with
      | .stamps l => filledStamps l
      | _ => node.nextRow }

/-- The contents a call starts from. One that begins a segment leaves the rows of the one before to
its timestamps. -/
def before (node : Node V) : Op V → Node V
  | .makeSegment .. => asTold node
  | .makeTimestampedSegment .. => asTold node
  | _ => node

def settled (node : Node V) (op : Op V) : Node V := applied (before node op) op

/-- Sound calls, with any rows of the last segment filled. -/
def SoundTold (S : Records V) (p : State × Node V) (op : Op V) : Prop :=
  Sound S p.1 (before p.2 op) op

theorem packLast_asTold (node : Node V) (compress : ℤ) (init : Initial V) (seg : Segment V)
    (filled : ℤ) : ((asTold node).close.packLast compress init).push init seg filled =
      ((node.fill (asTold node).nextRow).packLast compress init).push init seg filled := by
  cases init with
  | opaqueRecord v => rfl
  | array a =>
    rw [Node.packLast, Node.packLast]
    by_cases hcomp : (node.fill (asTold node).nextRow).compresses compress a
    · have hcomp' : (asTold node).close.compresses compress a := hcomp
      rw [if_pos hcomp, if_pos hcomp']
      rfl
    · have hcomp' : ¬ (asTold node).close.compresses compress a := hcomp
      rw [if_neg hcomp, if_neg hcomp']
      rfl

theorem packedBy_asTold (node : Node V) (compress : ℤ) (init : Initial V) :
    packedBy (asTold node).close compress init =
      packedBy (node.fill (asTold node).nextRow) compress init := by
  cases init with
  | opaqueRecord v => rfl
  | array a => rfl

theorem compresses_fill (node : Node V) (n : ℕ) (compress : ℤ) (a : ArrayDsc) :
    (node.fill n).compresses compress a ↔ node.compresses compress a := by
  rw [Node.compresses, last_fill]
  exact Iff.rfl

theorem told_fill (node : Node V) : Told (node.fill (asTold node).nextRow).last := by
  intro l hl
  rw [last_fill] at hl ⊢
  simp only at hl
  simp only [asTold, hl]

theorem step_settles (h : Laid S s L) {op : Op V} (hsound : Sound S s (before L.node op) op)
    (hok : step S s op = .ok s') : ∃ L', Follows S s s' L L' (settled L.node op) := by
  cases op with
  | makeSegment compress start stop dimension initialValue idx rowsFilled =>
    change makeSegment S s compress start stop dimension initialValue idx rowsFilled = .ok s' at hok
    cases hinit : checkInput initialValue with
    | error e => simp [makeSegment, beginSegment, hinit, bind, Except.bind] at hok
    | ok init =>
      obtain ⟨hbegins, hpack, hwritable⟩ := hsound init hinit
      have hfit := hwritable.fit
      have hroom := hwritable.room
      simp only [makeRecords, before, packedBy_asTold] at hfit hroom
      obtain ⟨L', hf⟩ := makeSegment_spec (laid_fill h (asTold L.node).nextRow)
        ⟨hbegins.joins.formed, hbegins.joins.length⟩ hbegins.count_lt hbegins.filled
        (fun _ => told_fill L.node)
        (fun a l ha hcomp => by
          rw [last_fill]
          exact hpack a l ha ((compresses_fill L.node _ compress a).mp hcomp))
        hfit (by simp only [makeRecords]; omega) hbegins.nonempty hinit hok
      have hsettled : settled L.node (.makeSegment compress start stop dimension initialValue idx
          rowsFilled) = (L.node.fill (asTold L.node).nextRow).makeSegment compress start stop
            dimension init rowsFilled := by
        simp only [settled, before, applied, hinit]
        exact packLast_asTold L.node compress init _ rowsFilled
      rw [hsettled]
      exact ⟨L', hf.laid, hf.node, hf.others, hf.raw⟩
  | makeTimestampedSegment compress timestamps initialValue idx rowsFilled =>
    change makeTimestampedSegment S s compress timestamps initialValue idx rowsFilled =
      .ok s' at hok
    cases hinit : checkInput initialValue with
    | error e => simp [makeTimestampedSegment, beginSegment, hinit, bind, Except.bind] at hok
    | ok init =>
      obtain ⟨hbegins, hpack, hwritable⟩ := hsound init hinit
      have hfit := hwritable.fit
      have hroom := hwritable.room
      simp only [before, packedBy_asTold] at hfit hroom
      obtain ⟨L', hf⟩ := makeTimestampedSegment_spec (laid_fill h (asTold L.node).nextRow)
        ⟨hbegins.joins.formed, hbegins.joins.length⟩ hbegins.count_lt hbegins.filled
        (fun _ => told_fill L.node)
        (fun a ha hcomp => by
          rw [last_fill]
          exact hpack a ha ((compresses_fill L.node _ compress a).mp hcomp))
        hfit (by simp only; omega) hbegins.nonempty hinit hok
      have hsettled : settled L.node (.makeTimestampedSegment compress timestamps initialValue idx
          rowsFilled) = (L.node.fill (asTold L.node).nextRow).makeTimestampedSegment compress
            timestamps init rowsFilled := by
        simp only [settled, before, applied, hinit]
        exact packLast_asTold L.node compress init _ rowsFilled
      rw [hsettled]
      exact ⟨L', hf.laid, hf.node, hf.others, hf.raw⟩
  | putSegment startIdx data => exact step_follows h hsound hok
  | putTimestampedSegment timestamps data => exact step_follows h hsound hok
  | updateSegment compress start stop dimension idx => exact step_follows h hsound hok
  | setRowsFilled rowsFilled => exact step_follows h hsound hok

theorem lies_settled {others : ℕ → Option Cell} {ops : List (Op V)} {p p' : State × Node V}
    (h : Lies S others p) (hadm : Admissible (withSpec (step S) settled) (SoundTold S) p ops)
    (hrun : run (withSpec (step S) settled) p ops = .ok p') : Lies S others p' :=
  lies_of_follows (fun _ _ _ _ hlaid => step_settles hlaid) h hadm hrun

/-- In every state that a run of accepted sound calls reaches, a further segment begins unless it
is one with timestamps and the one before, to be compressed, lacks some of its own. -/
theorem further_run {others : ℕ → Option Cell} {ops : List (Op V)} {p p' : State × Node V}
    (h : Lies S others p) (hadm : Admissible (withSpec (step S) settled) (SoundTold S) p ops)
    (hrun : run (withSpec (step S) settled) p ops = .ok p') (hcount : 0 < p'.2.count) {op : Op V}
    (hfurther : Further p'.2 op) : (∃ s', step S p'.1 op = .ok s') ↔ Packable p'.2 op := by
  obtain ⟨L, hlaid, hnode, -⟩ := lies_settled h hadm hrun
  rw [← hnode] at hcount hfurther ⊢
  exact further_ok_iff hlaid hcount hfurther

def stampTwo (compress : ℤ) (timestamps : List (BitVec 64)) : Op Unit :=
  .makeTimestampedSegment compress (some timestamps) (.array (bytesOf [7, 8])) (-1)
    timestamps.length

theorem formed_two : Formed (bytesOf [7, 8]) := by constructor <;> decide

theorem filled_two {n : ℕ} (hn : n ≤ 2) :
    Filled (.array (bytesOf [7, 8]) : Initial Unit) n := by
  intro a ha
  injection ha with ha
  subst ha
  have hrows : (bytesOf [7, 8]).lastDim = 2 := rfl
  omega

theorem sound_stampTwo {timestamps : List (BitVec 64)} (hlen : timestamps.length ≤ 2) :
    Sound unary emptyFile (before Node.empty (stampTwo (-1) timestamps))
      (stampTwo (-1) timestamps) := by
  intro init hinit
  obtain rfl : Initial.array (bytesOf [7, 8]) = init := Except.ok.inj hinit
  refine ⟨⟨⟨fun a ha => ?_, fun a _ hpos => absurd hpos (Nat.lt_irrefl 0)⟩, filled_two hlen,
    fun hpos => absurd hpos (Nat.lt_irrefl 0), ?_, fun a ha => ?_⟩,
    fun a _ hcomp => absurd hcomp.1 (Nat.lt_irrefl 0), nofun, ?_⟩
  · injection ha with ha
    subst ha
    exact formed_two
  · change (Node.empty : Node Unit).count + 1 < 2 ^ 31
    decide
  · injection ha with ha
    subst ha
    decide
  · change emptyFile.file.size + (2 + 2 * 8) + recordsSize unary (-1)
      (packedBy (asTold (Node.empty : Node Unit)).close (-1) (.array (bytesOf [7, 8])) ++ []) +
        indexBytes ≤ rfaLimit
    decide

theorem further_stampTwo {node : Node Unit} (hshape : node.shape = ⟨2, 1, []⟩) :
    Further node (stampTwo 0 [5, 6]) :=
  ⟨rfl, by decide, .array (bytesOf [7, 8]), rfl, fun a ha => by
    injection ha with ha
    exact ha ▸ formed_two, hshape.symm, filled_two (Nat.le_refl 2)⟩

/-- Both timestamps are there. -/
theorem further_run_two : ∃ s node,
    run (withSpec (step unary) settled) (emptyFile, Node.empty) [stampTwo (-1) [5, 6]] =
      .ok (s, node) ∧ ∃ s', step unary s (stampTwo 0 [5, 6]) = .ok s' := by
  obtain ⟨⟨s, node⟩, hrun, -⟩ := exists_value
    (x := run (withSpec (step unary) settled) (emptyFile, Node.empty) [stampTwo (-1) [5, 6]])
    (fun _ => ()) (c := ()) (by decide +kernel)
  have hadm : Admissible (withSpec (step unary) settled) (SoundTold unary)
      (emptyFile, Node.empty) [stampTwo (-1) [5, 6]] :=
    ⟨sound_stampTwo (Nat.le_refl 2), fun _ _ => trivial⟩
  have hnode : node = settled Node.empty (stampTwo (-1) [5, 6]) := by
    obtain ⟨p, hstep, hrest⟩ := bind_eq_ok.mp hrun
    rw [← (withSpec_eq_ok.mp hstep).2, Except.ok.inj hrest]
  have hlies : Lies unary (fun _ => none) (emptyFile, Node.empty) :=
    ⟨emptyLayout, laid_emptyFile unary, rfl, fun _ => rfl⟩
  refine ⟨s, node, hrun, (further_run hlies hadm hrun ?_ ?_).mpr ?_⟩
  · rw [hnode]
    change 0 < (settled Node.empty (stampTwo (-1) [5, 6])).count
    decide
  · rw [hnode]
    exact further_stampTwo rfl
  · rw [hnode]
    refine ⟨bytesOf [7, 8], rfl, fun _ => ⟨?_, Or.inr (Or.inr (by decide))⟩⟩
    change 0 < (settled Node.empty (stampTwo (-1) [5, 6])).last.rows
    decide

/-- Of the segment before only the first row was filled: nothing more can be appended. -/
theorem half_filled_refused : ∃ s node,
    run (withSpec (step unary) settled) (emptyFile, Node.empty) [stampTwo (-1) [5]] =
      .ok (s, node) ∧ 0 < node.count ∧ Further node (stampTwo 0 [5, 6]) ∧
      step unary s (stampTwo 0 [5, 6]) = .error .failure := by
  obtain ⟨⟨s, node⟩, hrun, hvalue⟩ := exists_value
    (x := run (withSpec (step unary) settled) (emptyFile, Node.empty) [stampTwo (-1) [5]])
    (fun p => (p.2.count, p.2.shape.dtype, p.2.shape.length, p.2.shape.inner,
      match step unary p.1 (stampTwo 0 [5, 6]) with
      | .ok _ => none
      | .error e => some e)) (c := (1, 2, 1, [], some .failure)) (by decide +kernel)
  simp only [Prod.mk.injEq] at hvalue
  obtain ⟨hcount, hdtype, hlength, hinner, hstep⟩ := hvalue
  refine ⟨s, node, hrun, by omega, further_stampTwo ?_, ?_⟩
  · rw [← hdtype, ← hlength, ← hinner]
  · cases hok : step unary s (stampTwo 0 [5, 6]) with
    | ok s' =>
      rw [hok] at hstep
      cases hstep
    | error e =>
      rw [hok] at hstep
      rw [Option.some.inj hstep]

end Run

end MdsPlus.SegmentFurther
