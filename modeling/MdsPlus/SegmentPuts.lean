import MdsPlus.SegmentMake

/-!
Changing segments a node has: rows and timestamps laid over the storage of the last
one, limits and dimensions of any, and the number of filled rows.
-/

namespace MdsPlus.SegmentPuts

open BitMemory ByteFile Datafile SegmentRecords Segments SegmentNode SegmentLayout
  SegmentReads SegmentPages SegmentWrites SegmentBegin SegmentPack SegmentMake Outcome

variable {V : Type}

section Header

variable {S : Records V} {s : State} {L L' : Layout V}

theorem size_inside (f : File) {off : ℕ} {bytes : List Byte} (h : off + bytes.length ≤ f.size) :
    (f.write off bytes).size = f.size := Nat.max_eq_left h

theorem follows_header (h : Laid S s L) {attr : ExtendedAttributes} {shead shead' : SegmentHeader}
    {attrOff headOff : ℕ} (hh : Headed s L attr shead attrOff headOff) {file : File}
    {raw : List (ℕ × ℕ)} (hcount : 0 < L.node.count) (hwork : Working S file L' none)
    (hattr : L'.cells .attributes = L.cells .attributes)
    (hhead : L'.cells .header = L.cells .header)
    (hothers : ∀ k, L'.cells (.other k) = L.cells (.other k)) (hoff : L'.pageOff = L.pageOff)
    (hsame : L'.node.count = L.node.count) (hproper : Proper L'.node)
    (hcontent : HeaderOf L'.node (L'.info (L'.node.count - 1)) shead')
    (hindex : shead'.indexOffset = shead.indexOffset)
    (hraw : ∃ new, raw = s.raw ++ new ∧ ∀ w ∈ new, Inside L'.cells (L'.node.count - 1) w) :
    ∃ L2, Follows S s (putHeader { s with file, raw } attr shead') L L2 L'.node := by
  obtain ⟨_, hheadOff, _, _⟩ := loadHeader h hh
  have hcell : L'.cells .header = some ⟨headOff, segmentHeader.encode shead⟩ :=
    hhead.trans hh.header
  have hlen : (segmentHeader.encode shead').length = (segmentHeader.encode shead).length := by
    rw [segmentHeader.length_encode, segmentHeader.length_encode]
  have hstores := hwork.stores.replace hcell (segmentHeader.encode shead') hlen
  have hin := (hwork.stores.holds _ _ hcell).inside
  simp only at hstores hin
  rw [← hlen] at hin
  have hput : putHeader { s with file, raw } attr shead' =
      { s with file := file.write headOff (segmentHeader.encode shead'), raw } := by
    simp only [putHeader, putRecord, hh.facility, writeProperty_at _ hheadOff]
  have hkeep : ∀ k, k ≠ .header → Function.update L'.cells .header
      (some ⟨headOff, segmentHeader.encode shead'⟩) k = L'.cells k :=
    fun k hk => Function.update_of_ne hk _ _
  have hused : ∀ k, Used L'.node.count k → k ≠ .header := by
    intro k hk heq
    rw [heq] at hk
    exact hk
  refine ⟨Layout.put L' .header headOff (segmentHeader.encode shead'), ⟨?_, ?_, ?_, ?_⟩, rfl,
    ?_, ?_⟩
  · rw [hput]
    refine working_frame hwork hstores ?_ fun k hk => hkeep k (hused k hk)
    rw [size_inside file hin]
    exact hwork.small
  · exact hproper
  · intro _
    refine ⟨attr, shead', attrOff, headOff, ?_, ?_, ?_, hh.facility, put_cells_self _ _ _ _,
      hcontent, ?_⟩
    · rw [hput]
      exact hh.extendedNci
    · rw [hput]
      exact hh.rfa
    · exact (hkeep .attributes (by rintro ⟨⟩)).trans (hattr.trans hh.attributes)
    · rw [hindex, hh.header_at.indexOffset, ← hsame, ← hoff]
      rfl
  · intro hzero
    change L'.node.count = 0 at hzero
    omega
  · intro k
    exact (hkeep (.other k) (by rintro ⟨⟩)).trans (hothers k)
  · obtain ⟨new, hnew, hinside⟩ := hraw
    refine ⟨new, ?_, fun w hw => ?_⟩
    · rw [hput]
      exact hnew
    · rcases hinside w hw with hdata | hdim
      · exact Or.inl (hdata.congr (hkeep (.data (L'.node.count - 1)) (by rintro ⟨⟩)))
      · exact Or.inr (hdim.congr (hkeep (.dim (L'.node.count - 1)) (by rintro ⟨⟩)))

theorem working_content {f f' : File} (h : Working S f L none) {i : ℕ}
    {cells' : Key → Option Cell} (hstores : Stores f' cells') (hsmall : f'.size ≤ rfaLimit)
    (hkeep : ∀ k, k ≠ .data i → k ≠ .dim i → cells' k = L.cells k) {seg : Segment V}
    (hseg : SegmentAt S cells' L.node.shape (L.info i) seg i) :
    Working S f' { L with cells := cells', node := L.node.replace i seg } none where
  stores := hstores
  small := hsmall
  segment j hj := by
    change SegmentAt S cells' L.node.shape (L.info j) (Function.update L.node.seg i seg j) j
    by_cases hji : j = i
    · rw [hji, Function.update_self]
      exact hseg
    · rw [Function.update_of_ne hji]
      apply (h.segment j hj).congr
      · exact hkeep (.data j) (fun heq => hji (by injection heq)) nofun
      · exact hkeep (.dim j) nofun (fun heq => hji (by injection heq))
      · exact hkeep (.start j) nofun nofun
      · exact hkeep (.stop j) nofun nofun
  page p hp := by
    obtain ⟨bytes, hcell, hrest⟩ := h.page p hp
    exact ⟨bytes, (hkeep (.page p) nofun nofun).trans hcell, hrest⟩
  pos := h.pos
  rising := h.rising
  count_lt := h.count_lt

theorem working_nextRow {f : File} {behind : Option ℕ} (h : Working S f L behind) (nextRow : ℕ) :
    Working S f { L with node := { L.node with nextRow } } behind :=
  ⟨h.stores, h.small, h.segment, h.page, h.pos, h.rising, h.count_lt⟩

end Header

theorem take_stampBytes (l : List (BitVec 64)) (k : ℕ) :
    (stampBytes l).take (k * 8) = stampBytes (l.take k) := by
  by_cases hk : k ≤ l.length
  · have hsplit : stampBytes l = stampBytes (l.take k) ++ stampBytes (l.drop k) := by
      rw [stampBytes, stampBytes, stampBytes, ← List.flatMap_append, List.take_append_drop]
    rw [hsplit]
    apply List.take_left'
    rw [length_stampBytes, List.length_take, Nat.min_eq_left hk]
  · rw [List.take_of_length_le (by rw [length_stampBytes]; omega),
      List.take_of_length_le (by omega)]

theorem drop_stampBytes (l : List (BitVec 64)) (k : ℕ) :
    (stampBytes l).drop (k * 8) = stampBytes (l.drop k) := by
  by_cases hk : k ≤ l.length
  · have hsplit : stampBytes l = stampBytes (l.take k) ++ stampBytes (l.drop k) := by
      rw [stampBytes, stampBytes, stampBytes, ← List.flatMap_append, List.take_append_drop]
    rw [hsplit]
    apply List.drop_left'
    rw [length_stampBytes, List.length_take, Nat.min_eq_left hk]
  · rw [List.drop_of_length_le (by rw [length_stampBytes]; omega),
      List.drop_of_length_le (by omega)]
    rfl

theorem overlay_stampBytes (l new : List (BitVec 64)) (k : ℕ) :
    overlay (stampBytes l) (k * 8) (stampBytes new) = stampBytes (overlayStamps l k new) := by
  have hsum : k * 8 + (stampBytes new).length = (k + new.length) * 8 := by
    rw [length_stampBytes]
    ring
  rw [overlay, hsum, take_stampBytes, drop_stampBytes, overlayStamps, stampBytes, stampBytes,
    stampBytes, stampBytes, List.flatMap_append, List.flatMap_append]

section Rows

variable {S : Records V} {s : State} {L : Layout V} {shead : SegmentHeader}

theorem lastDim_eq (h : Laid S s L) (hcount : 0 < L.node.count)
    (hrows : L.node.shape.dtype ≠ DTYPE_OPAQUE) (hh : HeaderAt L shead) :
    lastDim shead = L.node.last.rows := by
  rw [lastDim, dimct_toNat (hh.content.shape hrows) (h.proper.sized hrows hcount),
    Nat.add_sub_cancel, hh.content.rows hrows, toInt_ofNat32 (h.proper.rows_lt hrows hcount)]

theorem last_rows_size (h : Laid S s L) (hcount : 0 < L.node.count) {old : List Byte}
    (hold : L.node.last.data = .rows old) :
    old.length = L.node.last.rows * L.node.shape.rowBytes := by
  have hat := (h.working.segment (L.node.count - 1) (by omega)).data
  rw [show L.node.seg (L.node.count - 1) = L.node.last from rfl, hold] at hat
  exact hat.1

theorem offset_add {off k : ℕ} (n : ℤ) (hn : n = k) :
    BitVec.ofNat 64 off + BitVec.ofInt 64 n = BitVec.ofNat 64 (off + k) := by
  rw [hn, BitVec.ofInt_natCast, BitVec.ofNat_add]

theorem putRows_spec (h : Laid S s L) (hcount : 0 < L.node.count)
    (hrows : L.node.shape.dtype ≠ DTYPE_OPAQUE) (hh : HeaderAt L shead)
    {data : ArrayDsc} {start : ℕ}
    (hstart : start ≤ L.node.last.rows) {file : File} {raw : List (ℕ × ℕ)}
    (hok : putRows s shead data start = .ok (file, raw)) :
    ∃ rows cells' w, Working S file
        { L with cells := cells', node := L.node.putData start data.bytes } none ∧
      rowsToInsert shead data start = (rows : ℕ) ∧ start + rows ≤ L.node.last.rows ∧
      data.bytes.length = rows * L.node.shape.rowBytes ∧
      (∀ k, k ≠ .data (L.node.count - 1) → cells' k = L.cells k) ∧
      raw = s.raw ++ [w] ∧ InCell cells' (.data (L.node.count - 1)) w ∧
      file.size = s.file.size := by
  have hlimit : rfaLimit < 2 ^ 63 := by simp [rfaLimit]
  have hsized := h.proper.sized hrows hcount
  have hbpr := bytesPerRow_eq (hh.content.shape hrows) hsized
  have hlast := lastDim_eq h hcount hrows hh
  have hsmall := h.proper.size_lt hrows hcount
  obtain ⟨old, hold⟩ := h.proper.last_rows hrows hcount
  have hlen := last_rows_size h hcount hold
  have hseg := h.working.segment (L.node.count - 1) (by omega)
  have hat := hseg.data
  rw [show L.node.seg (L.node.count - 1) = L.node.last from rfl, hold] at hat
  obtain ⟨_, hrowsLt, hinfoRows, off, hcell, hoff⟩ := hat
  obtain ⟨rows, hr⟩ : ∃ rows : ℕ, rowsToInsert shead data start = (rows : ℕ) := by
    refine ⟨(rowsToInsert shead data start).toNat, (Int.toNat_of_nonneg ?_).symm⟩
    simp only [rowsToInsert, hlast]
    split_ifs
    · omega
    · omega
  have hfits : start + rows ≤ L.node.last.rows := by
    have hle : rowsToInsert shead data start ≤ lastDim shead - start := Int.min_le_right _ _
    omega
  have hmul : (start + rows) * L.node.shape.rowBytes ≤
      L.node.last.rows * L.node.shape.rowBytes := Nat.mul_le_mul_right _ hfits
  rw [Nat.add_mul] at hmul
  have hbytes : (BitVec.ofInt 32 ((rows : ℤ) * bytesPerRow shead)).toNat =
      rows * L.node.shape.rowBytes := by
    rw [hbpr, ← Nat.cast_mul, BitVec.ofInt_natCast, BitVec.toNat_ofNat, Nat.mod_eq_of_lt (by omega)]
  have hplace : shead.dataOffset + BitVec.ofInt 64 ((start : ℤ) * bytesPerRow shead) =
      BitVec.ofNat 64 (off + start * L.node.shape.rowBytes) := by
    rw [hh.content.dataOffset, hoff]
    exact offset_add _ (by rw [hbpr, Nat.cast_mul])
  have hlt := cell_lt h.working.stores h.working.small hcell
  simp only at hlt
  simp only [putRows, hr, hbytes, hplace] at hok
  split_ifs at hok with hmore hless
  have hsame : data.bytes.length = rows * L.node.shape.rowBytes := by omega
  have hin := (h.working.stores.holds _ _ hcell).inside
  simp only at hin
  have hstores := h.working.stores.overlay hcell (start * L.node.shape.rowBytes) data.bytes
    (by simp only; omega)
  have hsize : (s.file.write (off + start * L.node.shape.rowBytes) data.bytes).size =
      s.file.size := size_inside _ (by omega)
  have hoffNat : (BitVec.ofNat 64 (off + start * L.node.shape.rowBytes)).toNat =
      off + start * L.node.shape.rowBytes := by
    rw [BitVec.toNat_ofNat, Nat.mod_eq_of_lt (by omega)]
  simp only [writeRaw, writeProperty_at _
    (show off + start * L.node.shape.rowBytes < 2 ^ 63 by omega), hoffNat, Except.ok.injEq,
    Prod.mk.injEq] at hok
  obtain ⟨rfl, rfl⟩ := hok
  have hkeep : ∀ k, k ≠ .data (L.node.count - 1) →
      Function.update L.cells (.data (L.node.count - 1)) (some ⟨off,
        overlay old (start * L.node.shape.rowBytes) data.bytes⟩) k = L.cells k :=
    fun k hk => Function.update_of_ne hk _ _
  have hover : (overlay old (start * L.node.shape.rowBytes) data.bytes).length = old.length :=
    overlay_length _ _ _ (by omega)
  refine ⟨rows, _, (off + start * L.node.shape.rowBytes, data.bytes.length), ?_, hr, hfits, hsame,
    hkeep, rfl, ⟨_, Function.update_self _ _ _, ?_, ?_⟩, hsize⟩
  · refine working_content h.working hstores (by rw [hsize]; exact h.working.small)
      (fun k hk _ => hkeep k hk) ?_
    have hnew : SegmentAt S L.cells L.node.shape (L.info (L.node.count - 1)) L.node.last
      (L.node.count - 1) := hseg
    refine ⟨?_, ?_, ?_, ?_, ?_⟩
    · rw [Function.update_self]
      simp only [hold]
      exact ⟨hover.trans hlen, hrowsLt, hinfoRows, off, rfl, hoff⟩
    · rw [hkeep (.dim (L.node.count - 1)) (by rintro ⟨⟩)]
      exact hnew.dim
    · rw [hkeep (.start (L.node.count - 1)) (by rintro ⟨⟩)]
      exact hnew.start
    · rw [hkeep (.stop (L.node.count - 1)) (by rintro ⟨⟩)]
      exact hnew.stop
    · intro l _
      simp only [hold]
      exact ⟨_, rfl⟩
  · simp only
    omega
  · simp only [hover]
    omega

theorem openHeader_spec (h : Laid S s L) {attr : ExtendedAttributes}
    (hok : openHeader s = .ok (attr, shead)) :
    0 < L.node.count ∧ ∃ attrOff headOff, Headed s L attr shead attrOff headOff := by
  by_cases hcount : L.node.count = 0
  · have hnone := loadHeader_none h hcount
    rw [openHeader] at hok
    cases hattr : loadExtendedNci s with
    | none => simp [hattr] at hok
    | some attr0 =>
      rw [hattr, Option.bind_some] at hnone
      simp [hattr, hnone] at hok
  · obtain ⟨attr0, shead0, attrOff, headOff, hh⟩ := h.headed (by omega)
    obtain ⟨_, _, hattr, hhead⟩ := loadHeader h hh
    simp only [openHeader, hattr, hhead, Except.ok.injEq, Prod.mk.injEq] at hok
    obtain ⟨rfl, rfl⟩ := hok
    exact ⟨by omega, attrOff, headOff, hh⟩

theorem fits_rows (hh : HeaderAt L shead) {data : ArrayDsc} (hdims : ¬ data.dims.length < 1)
    (hfits : fitsHeader shead data = true) : L.node.shape.dtype ≠ DTYPE_OPAQUE := by
  intro hopaque
  have hzero := hh.content.dimct hopaque
  rw [fitsHeader, hzero] at hfits
  have hint : (0 : Byte).toInt = 0 := rfl
  simp only [hint, Bool.and_eq_true, Bool.or_eq_true, decide_eq_true_eq] at hfits
  omega

theorem nextRow_toInt (h : Laid S s L) (hcount : 0 < L.node.count)
    (hrows : L.node.shape.dtype ≠ DTYPE_OPAQUE) (hh : HeaderAt L shead) :
    shead.nextRow.toInt = L.node.nextRow := by
  have hle := h.proper.nextRow_le hrows hcount
  have hlt := h.proper.rows_lt hrows hcount
  rw [hh.content.nextRow hrows, toInt_ofNat32 (by omega)]

end Rows

section Last

variable {node : Node V}

theorem last_putData (node : Node V) (start : ℕ) (bytes : List Byte) :
    (node.putData start bytes).last = { node.last with
      data :=
        match node.last.data with
        | .rows old => .rows (overlay old (start * node.shape.rowBytes) bytes)
        | .record d => .record d } := Function.update_self _ _ _

theorem last_putStamps (node : Node V) (start : ℕ) (stamps : List (BitVec 64)) :
    (node.putStamps start stamps).last = { node.last with
      dim :=
        match node.last.dim with
        | .stamps l => .stamps (overlayStamps l start stamps)
        | dim => dim } := Function.update_self _ _ _

theorem proper_rows (h : Proper node) (node' : Node V) (hcount : 0 < node.count)
    (hrows : node.shape.dtype ≠ DTYPE_OPAQUE) (hshape : node'.shape = node.shape)
    (hsame : node'.last.rows = node.last.rows) (hdata : ∃ bytes, node'.last.data = .rows bytes)
    (hnext : node'.nextRow ≤ node.last.rows) (hcountEq : node'.count = node.count)
    (hbefore : ∀ i, i + 1 < node.count → node'.seg i = node.seg i) : Proper node' where
  opaque_record hopaque := absurd (hshape ▸ hopaque) hrows
  last_rows _ _ := hdata
  sized _ _ := by
    rw [hshape]
    exact h.sized hrows hcount
  nextRow_le _ _ := by
    rw [hsame]
    exact hnext
  opaque_shape hopaque := absurd (hshape ▸ hopaque) hrows
  size_lt _ _ := by
    rw [hshape, hsame]
    exact h.size_lt hrows hcount
  told i hi := by
    rw [hcountEq] at hi
    rw [hbefore i hi]
    exact h.told i hi

theorem header_rows {info : SegmentInfo} {shead : SegmentHeader} (h : HeaderOf node info shead)
    (node' : Node V) (hrows : node.shape.dtype ≠ DTYPE_OPAQUE) (hshape : node'.shape = node.shape)
    (hcount : node'.count = node.count) (hsame : node'.last.rows = node.last.rows)
    (hdim : ∀ l', node'.last.dim = .stamps l' → ∃ l, node.last.dim = .stamps l) {nextRow : BitVec 32}
    (hnext : nextRow = BitVec.ofNat 32 node'.nextRow) :
    HeaderOf node' info { shead with nextRow } where
  dtype := by
    rw [hshape]
    exact h.dtype
  dimct hopaque := absurd (hshape ▸ hopaque) hrows
  idx := by
    rw [hcount]
    exact h.idx
  shape _ := by
    rw [hshape]
    exact ⟨(h.shape hrows).dtype, (h.shape hrows).dimct, (h.shape hrows).length,
      (h.shape hrows).dims⟩
  rows _ := by
    rw [hshape, hsame]
    exact h.rows hrows
  nextRow _ := hnext
  dataOffset := h.dataOffset
  dimOffset l' hl' := by
    obtain ⟨l, hl⟩ := hdim l' hl'
    exact h.dimOffset l hl

end Last

section Puts

variable {S : Records V} {s s' : State} {L : Layout V}

theorem putSegment_spec (h : Laid S s L) {startIdx : ℤ} {data : ArrayDsc}
    (hok : putSegment s startIdx data = .ok s') :
    0 < L.node.count ∧ ∃ L', Follows S s s' L L' (L.node.putSegment startIdx data) := by
  rw [putSegment, ite_error_eq_ok, bind_eq_ok] at hok
  obtain ⟨hdims, ⟨attr, shead⟩, hopen, hok⟩ := hok
  obtain ⟨hcount, attrOff, headOff, hh⟩ := openHeader_spec h hopen
  simp only [ite_error_eq_ok, bind_eq_ok] at hok
  obtain ⟨hfits, hrange, ⟨file, raw⟩, hput, hzero, hok⟩ := hok
  have hrows : L.node.shape.dtype ≠ DTYPE_OPAQUE :=
    fits_rows hh.header_at (fun hlt => hdims (Or.inl hlt)) (by simpa using hfits)
  have hnext := nextRow_toInt h hcount hrows hh.header_at
  have hlast := lastDim_eq h hcount hrows hh.header_at
  have hsized := h.proper.sized hrows hcount
  obtain ⟨start, hstart⟩ : ∃ start, start = if startIdx = -1 then L.node.nextRow
    else startIdx.toNat := ⟨_, rfl⟩
  have hstartInt : (if startIdx = -1 then shead.nextRow.toInt else startIdx) = start := by
    rw [hstart]
    by_cases hneg : startIdx = -1
    · rw [if_pos hneg, if_pos hneg, hnext]
    · rw [if_neg hneg] at hrange
      rw [if_neg hneg, if_neg hneg]
      omega
  rw [hstartInt] at hrange hput hzero hok
  rw [hlast] at hrange
  obtain ⟨rows, cells', w, hwork, _, hfit, hbytes, hkeep, hraw, hcell, _⟩ :=
    putRows_spec h hcount hrows hh.header_at (by omega) hput
  have hdiv : data.bytes.length / L.node.shape.rowBytes = rows := by
    rw [hbytes, Nat.mul_div_cancel _ hsized.pos]
  have hbpr := bytesPerRow_eq (hh.header_at.content.shape hrows) hsized
  have hnode : L.node.putSegment startIdx data = { L.node.putData start data.bytes with
      nextRow := if start = L.node.nextRow then start + rows else L.node.nextRow } := by
    simp only [Node.putSegment, ← hstart, hdiv]
  have hnextRow : (if (start : ℤ) = shead.nextRow.toInt then
      BitVec.ofInt 32 (start + data.bytes.length / bytesPerRow shead) else shead.nextRow) =
      BitVec.ofNat 32 (L.node.putSegment startIdx data).nextRow := by
    rw [hnode, hnext, hbpr, ← Int.natCast_ediv, hdiv]
    simp only [Nat.cast_inj]
    by_cases hsame : start = L.node.nextRow
    · rw [if_pos hsame, if_pos hsame, ← Nat.cast_add, BitVec.ofInt_natCast]
    · rw [if_neg hsame, if_neg hsame, hh.header_at.content.nextRow hrows]
  rw [hnextRow, Except.ok.injEq] at hok
  subst hok
  have hwork' : Working S file
      { L with cells := cells', node := L.node.putSegment startIdx data } none := by
    rw [hnode]
    exact working_nextRow hwork _
  have hlastEq : (L.node.putSegment startIdx data).last = (L.node.putData start data.bytes).last := by
    rw [hnode]
    rfl
  have hrowsEq : (L.node.putSegment startIdx data).last.rows = L.node.last.rows := by
    rw [hlastEq, last_putData]
  obtain ⟨old, hold⟩ := h.proper.last_rows hrows hcount
  have hproper : Proper (L.node.putSegment startIdx data) := by
    refine proper_rows h.proper _ hcount hrows rfl hrowsEq ?_ ?_ rfl fun i hi =>
      Function.update_of_ne (by omega) _ _
    · rw [hlastEq, last_putData, hold]
      exact ⟨_, rfl⟩
    · have hle := h.proper.nextRow_le hrows hcount
      rw [hnode]
      simp only
      split_ifs
      · exact hfit
      · exact hle
  have hheader : HeaderOf (L.node.putSegment startIdx data) (L.info (L.node.count - 1))
      { shead with nextRow := BitVec.ofNat 32 (L.node.putSegment startIdx data).nextRow } := by
    refine header_rows hh.header_at.content (L.node.putSegment startIdx data) hrows rfl rfl hrowsEq
      (fun l hl => ?_) rfl
    rw [hlastEq, last_putData] at hl
    exact ⟨l, hl⟩
  refine ⟨hcount, follows_header h hh hcount hwork' (hkeep .attributes nofun) (hkeep .header nofun)
    (fun k => hkeep (.other k) nofun) rfl rfl hproper hheader rfl ⟨[w], hraw, fun v hv => ?_⟩⟩
  obtain rfl := List.mem_singleton.mp hv
  exact Or.inl hcell

theorem putTimestampedSegment_spec (h : Laid S s L) {timestamps : List (BitVec 64)}
    {data : ArrayDsc} (htimed : ∃ l, L.node.last.dim = .stamps l)
    (hok : putTimestampedSegment s timestamps data = .ok s') :
    0 < L.node.count ∧
      ∃ L', Follows S s s' L L' (L.node.putTimestampedSegment timestamps data) := by
  have hlimit : rfaLimit < 2 ^ 63 := by simp [rfaLimit]
  rw [putTimestampedSegment, ite_error_eq_ok, bind_eq_ok] at hok
  obtain ⟨hdims, ⟨attr, shead⟩, hopen, hok⟩ := hok
  obtain ⟨hcount, attrOff, headOff, hh⟩ := openHeader_spec h hopen
  simp only [ite_error_eq_ok, bind_eq_ok] at hok
  obtain ⟨_, hfits, ⟨file, raw⟩, hput, hgiven, hok⟩ := hok
  have hrows : L.node.shape.dtype ≠ DTYPE_OPAQUE :=
    fits_rows hh.header_at (fun hlt => hdims (Or.inl hlt)) (by simpa using hfits)
  have hnext := nextRow_toInt h hcount hrows hh.header_at
  have hsized := h.proper.sized hrows hcount
  have hle := h.proper.nextRow_le hrows hcount
  rw [hnext] at hput hgiven hok
  obtain ⟨rows, cells1, w, hwork, hcountRows, hfit, hbytes, hkeep, hraw, hcell, hsize⟩ :=
    putRows_spec h hcount hrows hh.header_at hle hput
  have hdiv : data.bytes.length / L.node.shape.rowBytes = rows := by
    rw [hbytes, Nat.mul_div_cancel _ hsized.pos]
  rw [hcountRows] at hgiven hok
  obtain ⟨l, hl⟩ := htimed
  -- the timestamps go to the storage the slot names
  have hseg1 := hwork.segment (L.node.count - 1) (show L.node.count - 1 < L.node.count by omega)
  have hlast1 := last_putData L.node L.node.nextRow data.bytes
  have hdim := (h.working.segment (L.node.count - 1) (by omega)).dim
  rw [show L.node.seg (L.node.count - 1) = L.node.last from rfl, hl] at hdim
  obtain ⟨hlen, hzero, off, hdcell, hoff⟩ := hdim
  have hdcell1 : cells1 (.dim (L.node.count - 1)) = some ⟨off, stampBytes l⟩ :=
    (hkeep (.dim (L.node.count - 1)) (by rintro ⟨⟩)).trans hdcell
  have hlt := cell_lt hwork.stores hwork.small hdcell1
  have hin := (hwork.stores.holds _ _ hdcell1).inside
  simp only [length_stampBytes] at hlt hin
  obtain ⟨new, hnew⟩ : ∃ new, new = timestamps.take rows := ⟨_, rfl⟩
  have hnewLen : new.length = rows := by
    rw [hnew, List.length_take]
    omega
  have hplace : shead.dimOffset + BitVec.ofInt 64 ((L.node.nextRow : ℤ) * 8) =
      BitVec.ofNat 64 (off + L.node.nextRow * 8) := by
    rw [hh.header_at.content.dimOffset l hl, hoff]
    exact offset_add _ (by push_cast; ring)
  have hoffNat : (BitVec.ofNat 64 (off + L.node.nextRow * 8)).toNat =
      off + L.node.nextRow * 8 := by
    rw [BitVec.toNat_ofNat, Nat.mod_eq_of_lt (by omega)]
  simp only [Int.toNat_natCast, ← hnew, hplace, writeRaw, writeProperty_at _
    (show off + L.node.nextRow * 8 < 2 ^ 63 by omega), hoffNat, ← Nat.cast_add,
    BitVec.ofInt_natCast, Except.ok.injEq] at hok
  subst hok
  have hstores := hwork.stores.overlay hdcell1 (L.node.nextRow * 8) (stampBytes new)
    (by simp only [length_stampBytes]; omega)
  rw [overlay_stampBytes] at hstores
  have hover : (overlayStamps l L.node.nextRow new).length = L.node.last.rows := by
    simp only [overlayStamps, List.length_append, List.length_take, List.length_drop]
    omega
  have hkeep2 : ∀ k, k ≠ .dim (L.node.count - 1) → Function.update cells1
      (.dim (L.node.count - 1)) (some ⟨off, stampBytes (overlayStamps l L.node.nextRow new)⟩) k =
      cells1 k := fun k hk => Function.update_of_ne hk _ _
  have hsize2 : (file.write (off + L.node.nextRow * 8) (stampBytes new)).size = file.size :=
    size_inside _ (by rw [length_stampBytes]; omega)
  have hlast2 := last_putStamps (L.node.putData L.node.nextRow data.bytes) L.node.nextRow new
  have hdim1 : (L.node.putData L.node.nextRow data.bytes).last.dim = .stamps l := by
    rw [hlast1]
    exact hl
  have hseg2 : SegmentAt S (Function.update cells1 (.dim (L.node.count - 1))
      (some ⟨off, stampBytes (overlayStamps l L.node.nextRow new)⟩)) L.node.shape
      (L.info (L.node.count - 1))
      ((L.node.putData L.node.nextRow data.bytes).putStamps L.node.nextRow new).last
      (L.node.count - 1) := by
    rw [hlast2, hdim1]
    refine ⟨?_, ?_, ?_, ?_, fun _ _ => hseg1.timed l hdim1⟩
    · rw [hkeep2 (.data (L.node.count - 1)) (by rintro ⟨⟩)]
      exact hseg1.data
    · rw [Function.update_self]
      refine ⟨?_, hzero, off, rfl, hoff⟩
      simp only [hlast1]
      exact hover
    · rw [hkeep2 (.start (L.node.count - 1)) (by rintro ⟨⟩)]
      exact hseg1.start
    · rw [hkeep2 (.stop (L.node.count - 1)) (by rintro ⟨⟩)]
      exact hseg1.stop
  have hwork2 := working_content hwork hstores (by rw [hsize2]; exact hwork.small)
    (fun k _ hk => hkeep2 k hk) hseg2
  have hnode : L.node.putTimestampedSegment timestamps data =
      { (L.node.putData L.node.nextRow data.bytes).putStamps L.node.nextRow new with
        nextRow := L.node.nextRow + rows } := by
    simp only [Node.putTimestampedSegment, hdiv, hnew]
  obtain ⟨node', hnode'⟩ : ∃ node', node' = L.node.putTimestampedSegment timestamps data := ⟨_, rfl⟩
  rw [← hnode'] at hnode ⊢
  have hlastEq : node'.last =
      ((L.node.putData L.node.nextRow data.bytes).putStamps L.node.nextRow new).last := by
    rw [hnode]
    rfl
  have hrowsEq : node'.last.rows = L.node.last.rows := by
    rw [hlastEq, hlast2, hlast1]
  have hcountEq : node'.count = L.node.count := by
    rw [hnode]
    rfl
  have hshapeEq : node'.shape = L.node.shape := by
    rw [hnode]
    rfl
  have hwork' : Working S (file.write (off + L.node.nextRow * 8) (stampBytes new))
      { L with
        cells := Function.update cells1 (.dim (L.node.count - 1))
          (some ⟨off, stampBytes (overlayStamps l L.node.nextRow new)⟩)
        node := node' } none := by
    have hreplace : (L.node.putData L.node.nextRow data.bytes).replace (L.node.count - 1)
        ((L.node.putData L.node.nextRow data.bytes).putStamps L.node.nextRow new).last =
        (L.node.putData L.node.nextRow data.bytes).putStamps L.node.nextRow new := by
      rw [hlast2]
      rfl
    rw [hnode, ← hreplace]
    exact working_nextRow hwork2 _
  have hproper : Proper node' := by
    refine proper_rows h.proper node' hcount hrows hshapeEq hrowsEq ?_ ?_ hcountEq fun i hi => ?_
    · obtain ⟨bytes, hraw1⟩ := hseg1.timed l hdim1
      rw [hlastEq, hlast2]
      exact ⟨bytes, hraw1⟩
    · rw [hnode]
      exact hfit
    · have hne : i ≠ L.node.count - 1 := by omega
      rw [hnode]
      exact (Function.update_of_ne hne _ _).trans (Function.update_of_ne hne _ _)
  have hheader : HeaderOf node' (L.info (L.node.count - 1))
      { shead with nextRow := BitVec.ofNat 32 (L.node.nextRow + rows) } := by
    refine header_rows hh.header_at.content node' hrows hshapeEq hcountEq hrowsEq
      (fun _ _ => ⟨l, hl⟩) ?_
    rw [hnode]
  rw [← hcountEq] at hheader
  refine ⟨hcount, follows_header h hh hcount hwork' ?_ ?_ (fun k => ?_) rfl hcountEq hproper hheader
    rfl ⟨[w, (off + L.node.nextRow * 8, (stampBytes new).length)], ?_, fun v hv => ?_⟩⟩
  · exact (hkeep2 .attributes (by rintro ⟨⟩)).trans (hkeep .attributes (by rintro ⟨⟩))
  · exact (hkeep2 .header (by rintro ⟨⟩)).trans (hkeep .header (by rintro ⟨⟩))
  · exact (hkeep2 (.other k) (by rintro ⟨⟩)).trans (hkeep (.other k) (by rintro ⟨⟩))
  · rw [hraw, List.append_assoc]
    rfl
  · simp only [hcountEq]
    rcases List.mem_cons.mp hv with rfl | hv
    · exact Or.inl (hcell.congr (hkeep2 (.data (L.node.count - 1)) (by rintro ⟨⟩)))
    · obtain rfl := List.mem_singleton.mp hv
      refine Or.inr ⟨_, Function.update_self _ _ _, ?_, ?_⟩
      · simp only
        omega
      · simp only [length_stampBytes, hover]
        omega

theorem working_savePage {f : File} {p : ℕ} (h : Working S f L (some p))
    (hp : 128 * p < L.node.count) :
    ∃ cells', Working S (f.write (L.pageOff p) (segmentIndex.encode (L.index p)))
        { L with cells := cells' } none ∧
      ∀ k, k ≠ .page p → cells' k = L.cells k := by
  obtain ⟨bytes, hcell, hlen, _⟩ := h.page p hp
  have hnew : (segmentIndex.encode (L.index p)).length = bytes.length := by
    rw [segmentIndex.length_encode, hlen]
  have hstores := h.stores.replace hcell (segmentIndex.encode (L.index p)) hnew
  have hin := (h.stores.holds _ _ hcell).inside
  simp only at hstores hin
  have hkeep : ∀ k, k ≠ .page p → Function.update L.cells (.page p)
      (some ⟨L.pageOff p, segmentIndex.encode (L.index p)⟩) k = L.cells k :=
    fun k hk => Function.update_of_ne hk _ _
  refine ⟨_, ⟨hstores, ?_, fun i hi => ?_, fun q hq => ?_, h.pos, h.rising, h.count_lt⟩, hkeep⟩
  · rw [size_inside f (by omega)]
    exact h.small
  · exact (h.segment i hi).congr (hkeep (.data i) nofun) (hkeep (.dim i) nofun)
      (hkeep (.start i) nofun) (hkeep (.stop i) nofun)
  · by_cases hqp : q = p
    · subst hqp
      exact ⟨_, Function.update_self _ _ _, segmentIndex.length_encode _, fun _ => rfl⟩
    · obtain ⟨bytes', hcell', hlen', hsame⟩ := h.page q hq
      have hne : some p ≠ some q := fun heq => hqp (Option.some.inj heq).symm
      refine ⟨bytes', (hkeep (.page q) fun heq => hqp (by injection heq)).trans hcell', hlen',
        fun _ => hsame hne⟩

theorem laid_setSegment (h : Laid S s L) {i : ℕ} (hi : i < L.node.count) {info : SegmentInfo}
    {seg : Segment V} {f' : File} {cells' : Key → Option Cell}
    (hwork : Working S f' (Layout.setSegment { L with cells := cells' } i info seg) none)
    (hattr : cells' .attributes = L.cells .attributes) (hhead : cells' .header = L.cells .header)
    (hrows : seg.rows = (L.node.seg i).rows) (hdata : seg.data = (L.node.seg i).data)
    (hdataOffset : info.dataOffset = (L.info i).dataOffset)
    (hfilled : seg.filled = (L.node.seg i).filled)
    (hdim : ∀ l, seg.dim = .stamps l →
      (L.node.seg i).dim = .stamps l ∧ info.dimensionOffset = (L.info i).dimensionOffset) :
    Laid S { s with file := f' } (Layout.setSegment { L with cells := cells' } i info seg) := by
  have hsegRows : ∀ j, (L.node.replace i seg |>.seg j).rows = (L.node.seg j).rows := by
    intro j
    change (Function.update L.node.seg i seg j).rows = _
    by_cases hji : j = i
    · rw [hji, Function.update_self, hrows]
    · rw [Function.update_of_ne hji]
  have hsegData : ∀ j, (L.node.replace i seg |>.seg j).data = (L.node.seg j).data := by
    intro j
    change (Function.update L.node.seg i seg j).data = _
    by_cases hji : j = i
    · rw [hji, Function.update_self, hdata]
    · rw [Function.update_of_ne hji]
  have hlastRows : (L.node.replace i seg).last.rows = L.node.last.rows := hsegRows _
  have hlastData : (L.node.replace i seg).last.data = L.node.last.data := hsegData _
  refine ⟨hwork, ⟨fun hopaque j hj => ?_, fun hne hpos => ?_, h.proper.sized, fun hne hpos => ?_,
    h.proper.opaque_shape, fun hne hpos => ?_, fun j hj => ?_⟩, fun hpos => ?_, fun hzero => ?_⟩
  · obtain ⟨d, hd⟩ := h.proper.opaque_record hopaque j hj
    exact ⟨d, (hsegData j).trans hd⟩
  · obtain ⟨bytes, hb⟩ := h.proper.last_rows hne hpos
    exact ⟨bytes, hlastData.trans hb⟩
  · change _ ≤ (L.node.replace i seg).last.rows
    rw [hlastRows]
    exact h.proper.nextRow_le hne hpos
  · change (L.node.replace i seg).last.rows * _ < _
    rw [hlastRows]
    exact h.proper.size_lt hne hpos
  · change Told (Function.update L.node.seg i seg j)
    by_cases hji : j = i
    · rw [hji, Function.update_self]
      intro l hl
      rw [hfilled]
      exact h.proper.told i (by rw [← hji]; exact hj) l (hdim l hl).1
    · rw [Function.update_of_ne hji]
      exact h.proper.told j hj
  · obtain ⟨attr, shead, attrOff, headOff, hh⟩ := h.headed hpos
    have hcontent := hh.header_at.content
    refine ⟨attr, shead, attrOff, headOff, hh.extendedNci, hh.rfa, hattr.trans hh.attributes,
      hh.facility, hhead.trans hh.header, ⟨hcontent.dtype, hcontent.dimct, hcontent.idx,
      hcontent.shape, fun hne => ?_, hcontent.nextRow, ?_, fun l hl => ?_⟩,
      hh.header_at.indexOffset⟩
    · change _ = BitVec.ofNat 32 (L.node.replace i seg).last.rows
      rw [hlastRows]
      exact hcontent.rows hne
    · change shead.dataOffset = (Function.update L.info i info (L.node.count - 1)).dataOffset
      rw [hcontent.dataOffset]
      by_cases hlast : L.node.count - 1 = i
      · rw [hlast, Function.update_self, hdataOffset]
      · rw [Function.update_of_ne hlast]
    · change (Function.update L.node.seg i seg (L.node.count - 1)).dim = .stamps l at hl
      change shead.dimOffset =
        (Function.update L.info i info (L.node.count - 1)).dimensionOffset
      by_cases hlast : L.node.count - 1 = i
      · rw [hlast, Function.update_self] at hl
        obtain ⟨hold, hoffset⟩ := hdim l hl
        rw [← hlast] at hold
        rw [hcontent.dimOffset l hold, hlast, Function.update_self, hoffset]
      · rw [Function.update_of_ne hlast] at hl ⊢
        exact hcontent.dimOffset l hl
  · change L.node.count = 0 at hzero
    omega

theorem openNode (h : Laid S s L) (hcount : 0 < L.node.count) :
    ∃ attr shead attrOff headOff, Headed s L attr shead attrOff headOff ∧
      openHeader s = .ok (attr, shead) ∧
      loadSegmentIndex s.file shead = some (L.index ((L.node.count - 1) / 128)) ∧
      shead.idx.toInt = (L.node.count : ℤ) - 1 := by
  obtain ⟨attr, shead, attrOff, headOff, hh⟩ := h.headed hcount
  obtain ⟨_, _, hattr, hhead⟩ := loadHeader h hh
  refine ⟨attr, shead, attrOff, headOff, hh, ?_, loadIndex h hcount hh.header_at,
    idx_toInt h hcount hh.header_at⟩
  simp only [openHeader, hattr, hhead]

theorem updateSegment_eq (h : Laid S s L) {compress : ℤ} {start stop dimension : Option (Dsc V)}
    {i : ℕ} (hi : i < L.node.count)
    (hfit : RecordsFit S compress (dimRecords start stop dimension))
    (hroom : s.file.size + recordsSize S compress (dimRecords start stop dimension) ≤ rfaLimit) :
    ∃ f' cells', let info := (putdimDim S s.file compress start stop dimension (L.info i)).2
      updateSegment S s compress start stop dimension i = .ok { s with file := f' } ∧
      Laid S { s with file := f' } (Layout.setSegment { L with cells := cells' } i info
        ((L.node.seg i).setDim start stop dimension)) ∧
      ∀ k, (∀ p, k ≠ .page p) → k ≠ .start i → k ≠ .stop i → k ≠ .dim i →
        cells' k = L.cells k := by
  obtain ⟨attr, shead, attrOff, headOff, hh, hopen, hindex, hidx⟩ := openNode h (by omega)
  have hp : 128 * ((L.node.count - 1) / 128) < L.node.count := by omega
  have hpage := h.working.page_le_pageOff _ hp
  have hsize := (h.working.pageOff_lt hp).1
  have hfound := h.working.findPage_eq (i := i) ((L.node.count - 1) / 128) (s.file.size + 1) hp
    (by omega) (by omega)
  have hfirst := h.working.firstIdx_toInt (p := i / 128) (by omega)
  obtain ⟨f', info, cells', hput, hstores, hkeep, hseg, hdata, hdim, hgrow⟩ :=
    putdimDim_spec h.working.stores (h.working.segment i hi) start stop dimension hfit
  have hwork1 := working_setSegment h.working (i := i) (by rintro _ ⟨⟩) hstores (by omega)
    (fun k _ _ hkdim hkstart hkstop => hkeep k hkstart hkstop hkdim) hseg
  obtain ⟨cells2, hwork2, hkeep2⟩ := working_savePage hwork1
    (show 128 * (i / 128) < L.node.count by omega)
  have hpageOff := (h.working.pageOff_lt (p := i / 128) (by omega)).2
  have hindexEq := index_setSegment { L with cells := cells' } hi info
    ((L.node.seg i).setDim start stop dimension)
  have hwrite : (putRecord segmentIndex f' (BitVec.ofNat 64 (L.pageOff (i / 128)))
      { L.index (i / 128) with
        segment := (L.index (i / 128)).segment.set (slotOf (i : ℤ)) info }).1 =
      f'.write ((Layout.setSegment { L with cells := cells' } i info
          ((L.node.seg i).setDim start stop dimension)).pageOff (i / 128)) (segmentIndex.encode
        ((Layout.setSegment { L with cells := cells' } i info
          ((L.node.seg i).setDim start stop dimension)).index (i / 128))) := by
    rw [putRecord, writeProperty_at _ hpageOff, hindexEq]
    rfl
  have hkeep' : ∀ k, (∀ p, k ≠ .page p) → k ≠ .start i → k ≠ .stop i → k ≠ .dim i →
      cells2 k = L.cells k := fun k hpages hkstart hkstop hkdim =>
    (hkeep2 k (hpages _)).trans (hkeep k hkstart hkstop hkdim)
  have hstamps : ∀ l, ((L.node.seg i).setDim start stop dimension).dim = .stamps l →
      (L.node.seg i).dim = .stamps l ∧ info.dimensionOffset = (L.info i).dimensionOffset := by
    intro l hl
    cases dimension with
    | none => exact ⟨hl, hdim rfl⟩
    | some d => cases hl
  have hlaid := laid_setSegment h hi hwork2
    (hkeep' .attributes (by rintro _ ⟨⟩) (by rintro ⟨⟩) (by rintro ⟨⟩) (by rintro ⟨⟩))
    (hkeep' .header (by rintro _ ⟨⟩) (by rintro ⟨⟩) (by rintro ⟨⟩) (by rintro ⟨⟩)) rfl rfl hdata
    rfl hstamps
  rw [← hwrite] at hlaid
  have hrange : ¬ ((i : ℤ) < 0 ∨ (i : ℤ) > (L.node.count : ℤ) - 1) := by omega
  have hlow : ¬ (i : ℤ) < 128 * ((i / 128 : ℕ) : ℤ) := by omega
  refine ⟨(putRecord segmentIndex f' (BitVec.ofNat 64 (L.pageOff (i / 128)))
      { L.index (i / 128) with
        segment := (L.index (i / 128)).segment.set (slotOf (i : ℤ)) info }).1, cells2, ?_, ?_,
      hkeep'⟩
  · simp only [updateSegment, hopen, bind, Except.bind, hindex, hidx, if_neg hrange,
      hh.header_at.indexOffset, hfound, hfirst, if_neg hlow, index_slot L hi, hput]
  · simp only [hput]
    exact hlaid

theorem updateSegment_spec (h : Laid S s L) {compress : ℤ} {start stop dimension : Option (Dsc V)}
    {idx : ℤ} (hfit : RecordsFit S compress (dimRecords start stop dimension))
    (hroom : s.file.size + recordsSize S compress (dimRecords start stop dimension) ≤ rfaLimit)
    (hok : updateSegment S s compress start stop dimension idx = .ok s') :
    idx.toNat < L.node.count ∧ 0 ≤ idx ∧
      ∃ L', Follows S s s' L L' (L.node.updateSegment start stop dimension idx.toNat) := by
  have hrange : 0 ≤ idx ∧ idx < L.node.count := by
    rw [updateSegment, bind_eq_ok] at hok
    obtain ⟨⟨attr, shead⟩, hopen, hok⟩ := hok
    obtain ⟨hcount, attrOff, headOff, hh⟩ := openHeader_spec h hopen
    have hindex := loadIndex h hcount hh.header_at
    have hidx := idx_toInt h hcount hh.header_at
    simp only [hindex, hidx, ite_error_eq_ok] at hok
    omega
  obtain ⟨i, rfl⟩ : ∃ i : ℕ, idx = i := ⟨idx.toNat, by omega⟩
  have hi : i < L.node.count := by omega
  obtain ⟨f', cells', hupdate, hlaid, hkeep⟩ := updateSegment_eq h hi hfit hroom
  obtain rfl : { s with file := f' } = s' := Except.ok.inj (hupdate.symm.trans hok)
  refine ⟨by omega, by omega, _, hlaid, ?_, fun k => hkeep (.other k) nofun nofun nofun nofun,
    [], (List.append_nil _).symm, nofun⟩
  rw [Int.toNat_natCast]
  rfl

theorem mask_rows {n : ℕ} (h : n < 2 ^ 31) :
    BitVec.ofNat 32 n &&& 0x7fffffff = BitVec.ofNat 32 n := by
  have hmask : (0x7fffffff : BitVec 32).toNat = 2 ^ 31 - 1 := by decide
  apply BitVec.eq_of_toNat_eq
  rw [BitVec.toNat_and, BitVec.toNat_ofNat, Nat.mod_eq_of_lt (by omega), hmask,
    Nat.and_two_pow_sub_one_eq_mod, Nat.mod_eq_of_lt h]

theorem setRowsFilled_spec (h : Laid S s L) {rowsFilled : ℤ}
    (hle : L.node.shape.dtype ≠ DTYPE_OPAQUE → rowsFilled ≤ L.node.last.rows)
    (hok : setRowsFilled s rowsFilled = .ok s') :
    0 < L.node.count ∧ ∃ L', Follows S s s' L L' (L.node.setRowsFilled rowsFilled) := by
  rw [setRowsFilled, bind_eq_ok] at hok
  obtain ⟨⟨attr, shead⟩, hopen, hok⟩ := hok
  obtain ⟨hcount, attrOff, headOff, hh⟩ := openHeader_spec h hopen
  have hindex := loadIndex h hcount hh.header_at
  have hidx := idx_toInt h hcount hh.header_at
  have hcast : (L.node.count : ℤ) - 1 = ((L.node.count - 1 : ℕ) : ℤ) := by omega
  have hslot : (L.index ((L.node.count - 1) / 128)).segment[slotOf ((L.node.count - 1 : ℕ) : ℤ)] =
      L.info (L.node.count - 1) := index_slot L (by omega)
  simp only [hindex, hidx, hcast, hslot] at hok
  obtain ⟨asked, hasked⟩ : ∃ asked : Option (BitVec 32), asked =
    if rowsFilled < 0 then
      if (L.info (L.node.count - 1)).rows.toInt < 0 then
        (getCompressedSegmentRows s.file (L.info (L.node.count - 1)).dataOffset).map
          (BitVec.ofInt 32)
      else some ((L.info (L.node.count - 1)).rows &&& 0x7fffffff)
    else some (BitVec.ofInt 32 rowsFilled) := ⟨_, rfl⟩
  rw [← hasked] at hok
  cases asked with
  | none => cases hok
  | some nextRow =>
    cases hok
    have hnext : L.node.shape.dtype ≠ DTYPE_OPAQUE →
        nextRow = BitVec.ofNat 32 (L.node.setRowsFilled rowsFilled).nextRow := by
      intro hrows
      have hlt := h.proper.rows_lt hrows hcount
      obtain ⟨bytes, hraw⟩ := h.proper.last_rows hrows hcount
      have hat := (h.working.segment (L.node.count - 1) (by omega)).data
      rw [show L.node.seg (L.node.count - 1) = L.node.last from rfl, hraw] at hat
      obtain ⟨_, _, hinfo, _⟩ := hat
      rw [hinfo, toInt_ofNat32 hlt] at hasked
      simp only [Node.setRowsFilled]
      by_cases hneg : rowsFilled < 0
      · rw [if_pos hneg, if_neg (by omega), Option.some.injEq, mask_rows hlt] at hasked
        rw [if_pos hneg, hasked]
      · rw [if_neg hneg, Option.some.injEq] at hasked
        rw [if_neg hneg, hasked, ← BitVec.ofInt_natCast, Int.toNat_of_nonneg (by omega)]
    have hcontent := hh.header_at.content
    have hheader : HeaderOf (L.node.setRowsFilled rowsFilled) (L.info (L.node.count - 1))
        { shead with nextRow } :=
      ⟨hcontent.dtype, hcontent.dimct, hcontent.idx, fun hne => ⟨(hcontent.shape hne).dtype,
        (hcontent.shape hne).dimct, (hcontent.shape hne).length, (hcontent.shape hne).dims⟩,
        hcontent.rows, hnext, hcontent.dataOffset, hcontent.dimOffset⟩
    have hproper : Proper (L.node.setRowsFilled rowsFilled) := by
      refine ⟨h.proper.opaque_record, h.proper.last_rows, h.proper.sized, fun hne hpos => ?_,
        h.proper.opaque_shape, h.proper.size_lt, h.proper.told⟩
      have hrowsLe := hle hne
      change (if rowsFilled < 0 then L.node.last.rows else rowsFilled.toNat) ≤ L.node.last.rows
      split_ifs
      · exact Nat.le_refl _
      · omega
    have hwork : Working S s.file { L with node := L.node.setRowsFilled rowsFilled } none :=
      working_nextRow h.working _
    exact ⟨hcount, follows_header h hh hcount hwork rfl rfl (fun _ => rfl) rfl rfl hproper hheader
      rfl ⟨[], (List.append_nil _).symm, nofun⟩⟩

end Puts

end MdsPlus.SegmentPuts
