import MdsPlus.SegmentOpen

/-!
A segment is made: its data, limits and dimension or timestamps are written and the
call ends. The node has the new segment after those it had, what they read is as
before, and rows and timestamps went into the storage of the new segment only.
-/

namespace MdsPlus.SegmentMake

open Codec ByteFile Datafile SegmentRecords Segments SegmentNode SegmentLayout
  SegmentReads SegmentPages SegmentWrites SegmentBegin SegmentPack SegmentOpen Outcome

variable {V : Type}

def InCell (cells : Key → Option Cell) (k : Key) (w : ℕ × ℕ) : Prop :=
  ∃ c, cells k = some c ∧ c.off ≤ w.1 ∧ w.1 + w.2 ≤ c.off + c.bytes.length

theorem InCell.congr {cells cells' : Key → Option Cell} {k : Key} {w : ℕ × ℕ}
    (h : InCell cells k w) (hk : cells' k = cells k) : InCell cells' k w := by
  rwa [InCell, hk]

/-- A raw write inside the data or the timestamps of segment `i`. -/
def Inside (cells : Key → Option Cell) (i : ℕ) (w : ℕ × ℕ) : Prop :=
  InCell cells (.data i) w ∨ InCell cells (.dim i) w

def limitRecords : Option (Dsc V) → List (Dsc V)
  | none => []
  | some d => if (quadwordOf d).isSome then [] else [d]

def dimRecords (start stop dimension : Option (Dsc V)) : List (Dsc V) :=
  limitRecords start ++ limitRecords stop ++ dimension.toList

def initialRecords : Initial V → List (Dsc V)
  | .array _ => []
  | .opaqueRecord v => [.opaqueRecord v]

theorem recordsSize_append (S : Records V) (compress : ℤ) (l m : List (Dsc V)) :
    recordsSize S compress (l ++ m) = recordsSize S compress l + recordsSize S compress m := by
  simp only [recordsSize, List.map_append, List.sum_append]

theorem fit_left {S : Records V} {compress : ℤ} {l m : List (Dsc V)}
    (h : RecordsFit S compress (l ++ m)) : RecordsFit S compress l :=
  fun d hd => h d (List.mem_append_left m hd)

theorem fit_right {S : Records V} {compress : ℤ} {l m : List (Dsc V)}
    (h : RecordsFit S compress (l ++ m)) : RecordsFit S compress m :=
  fun d hd => h d (List.mem_append_right l hd)

section Dimensions

variable {S : Records V} {f : File} {cells : Key → Option Cell} {compress : ℤ}

theorem putDsc_spec (hstores : Stores f cells) (k : Key) (d : Dsc V)
    (hfit : RecordsFit S compress [d]) :
    ∃ f' offset length cells', putDsc S.toSerializer f compress d = (f', offset, length) ∧
      Stores f' cells' ∧ (∀ j, j ≠ k → cells' j = cells j) ∧
      RecordAt S (cells' k) offset length d ∧
      f'.size = f.size + recordsSize S compress [d] := by
  have hlt := hfit d (List.mem_singleton.mpr rfl)
  refine ⟨_, _, _, _, putDsc_eq S f compress d, hstores.append k _,
    fun j hj => Function.update_of_ne hj _ _, ?_, ?_⟩
  · rw [Function.update_self]
    exact recordAt_put S _ _ d hlt
  · rw [write_size, recordsSize, List.map_singleton, List.sum_singleton]

theorem putLimitByDsc_spec (hstores : Stores f cells) {k : Key} {info : LimitInfo}
    {old : Limit V} (hlimit : LimitAt S (cells k) info old) (limit : Option (Dsc V))
    (hfit : RecordsFit S compress (limitRecords limit)) :
    ∃ f' info' cells', putLimitByDsc S f compress limit info = (f', info') ∧
      Stores f' cells' ∧ (∀ j, j ≠ k → cells' j = cells j) ∧
      LimitAt S (cells' k) info' (limitOf limit old) ∧
      f'.size = f.size + recordsSize S compress (limitRecords limit) := by
  cases limit with
  | none => exact ⟨f, info, cells, rfl, hstores, fun _ _ => rfl, hlimit, rfl⟩
  | some d =>
    cases hq : quadwordOf d with
    | some q =>
      refine ⟨f, ⟨q, -1, 0⟩, cells, ?_, hstores, fun _ _ => rfl, ?_, ?_⟩
      · simp only [putLimitByDsc, hq]
      · simp only [limitOf, hq]
        exact ⟨rfl, rfl⟩
      · simp only [limitRecords, hq, Option.isSome_some, if_true]
        rfl
    | none =>
      have hrecords : limitRecords (some d) = [d] := by
        simp only [limitRecords, hq, Option.isSome_none, Bool.false_eq_true, if_false]
      rw [hrecords] at hfit
      obtain ⟨f', offset, length, cells', hput, hstores', hkeep, hat, hsize⟩ :=
        putDsc_spec hstores k d hfit
      refine ⟨f', ⟨-1, offset, length⟩, cells', ?_, hstores', hkeep, ?_, ?_⟩
      · simp only [putLimitByDsc, hq, hput]
      · simp only [limitOf, hq]
        exact ⟨rfl, hat⟩
      · rw [hrecords]
        exact hsize

theorem putdimDim_spec (hstores : Stores f cells) {shape : Shape} {info : SegmentInfo}
    {seg : Segment V} {i : ℕ} (hseg : SegmentAt S cells shape info seg i)
    (start stop dimension : Option (Dsc V))
    (hfit : RecordsFit S compress (dimRecords start stop dimension)) :
    ∃ f' info' cells', putdimDim S f compress start stop dimension info = (f', info') ∧
      Stores f' cells' ∧
      (∀ j, j ≠ .start i → j ≠ .stop i → j ≠ .dim i → cells' j = cells j) ∧
      SegmentAt S cells' shape info' (seg.setDim start stop dimension) i ∧
      info'.dataOffset = info.dataOffset ∧
      (dimension = none → info'.dimensionOffset = info.dimensionOffset) ∧
      f'.size = f.size + recordsSize S compress (dimRecords start stop dimension) := by
  have hfit1 := fit_left (fit_left hfit)
  have hfit2 := fit_right (fit_left hfit)
  have hfit3 := fit_right hfit
  obtain ⟨f1, info1, cells1, hput1, hstores1, hkeep1, hlimit1, hsize1⟩ :=
    putLimitByDsc_spec hstores hseg.start start hfit1
  have hstop : LimitAt S (cells1 (.stop i)) info.stop seg.stop := by
    rw [hkeep1 (.stop i) (by rintro ⟨⟩)]
    exact hseg.stop
  obtain ⟨f2, info2, cells2, hput2, hstores2, hkeep2, hlimit2, hsize2⟩ :=
    putLimitByDsc_spec hstores1 hstop stop hfit2
  have hdata : cells2 (.data i) = cells (.data i) := by
    rw [hkeep2 (.data i) (by rintro ⟨⟩), hkeep1 (.data i) (by rintro ⟨⟩)]
  cases dimension with
  | none =>
    refine ⟨f2, { info with start := info1, stop := info2 }, cells2, ?_, hstores2, ?_, ?_, rfl,
      fun _ => rfl, ?_⟩
    · simp only [putdimDim, hput1, hput2]
    · intro j hstart hstop _
      rw [hkeep2 j hstop, hkeep1 j hstart]
    · refine ⟨?_, ?_, ?_, hlimit2, hseg.timed⟩
      · rw [hdata]
        exact hseg.data
      · rw [hkeep2 (.dim i) (by rintro ⟨⟩), hkeep1 (.dim i) (by rintro ⟨⟩)]
        exact hseg.dim
      · rw [hkeep2 (.start i) (by rintro ⟨⟩)]
        exact hlimit1
    · rw [dimRecords, recordsSize_append, recordsSize_append, hsize2, hsize1]
      simp only [Option.toList_none, recordsSize, List.map_nil, List.sum_nil]
      omega
  | some d =>
    obtain ⟨f3, offset, length, cells3, hput3, hstores3, hkeep3, hat3, hsize3⟩ :=
      putDsc_spec hstores2 (.dim i) d hfit3
    refine ⟨f3, { info with
      start := info1
      stop := info2
      dimensionOffset := offset
      dimensionLength := length }, cells3, ?_, hstores3, ?_, ?_, rfl, (by rintro ⟨⟩), ?_⟩
    · simp only [putdimDim, hput1, hput2, hput3]
    · intro j hstart hstop hdim
      rw [hkeep3 j hdim, hkeep2 j hstop, hkeep1 j hstart]
    · refine ⟨?_, hat3, ?_, ?_, (by rintro _ ⟨⟩)⟩
      · rw [hkeep3 (.data i) (by rintro ⟨⟩), hdata]
        exact hseg.data
      · rw [hkeep3 (.start i) (by rintro ⟨⟩), hkeep2 (.start i) (by rintro ⟨⟩)]
        exact hlimit1
      · rw [hkeep3 (.stop i) (by rintro ⟨⟩)]
        exact hlimit2
    · rw [dimRecords, recordsSize_append, recordsSize_append, hsize3, hsize2, hsize1,
        Option.toList_some]
      omega

end Dimensions

structure Supplied (S : Records V) (vars : Vars) (L : Layout V) (init : Initial V)
    (rowsFilled : ℤ) : Prop where
  working : Working S vars.file L (some (L.node.count / 128))
  idx : vars.idx = L.node.count
  sindex : vars.sindex = indexWith L vars.sinfo
  segment : SegmentAt S L.cells (shapeOf init) vars.sinfo (bare init) L.node.count
  indexOffset : vars.shead.indexOffset =
    if L.node.count % 128 = 0 then -1 else BitVec.ofNat 64 (L.pageOff (L.node.count / 128))
  opening : Opening vars.shead init L.node.count rowsFilled
  dataOffset : vars.shead.dataOffset = vars.sinfo.dataOffset
  dimPlace : Place L.cells (.dim L.node.count) ((bare init).rows * 8) vars.shead.dimOffset
  headPlace : Place L.cells .header segmentHeader.size
    vars.attr.facilityOffset[SEGMENTED_RECORD_FACILITY]
  attrPlace : Place L.cells .attributes extendedAttributes.size vars.attrOffset
  shape : 0 < L.node.count → shapeOf init = L.node.shape
  nonempty : 0 < vars.file.size

section Data

variable {S : Records V} {vars vars' : Vars} {L : Layout V} {init : Initial V} {rowsFilled : ℤ}

theorem sinfo_begun (h : Begun S vars L init rowsFilled) : vars.sinfo = emptyInfo := by
  have hslot := slotOf_val L.node.count
  have hget := index_getElem L (L.node.count / 128) (slotOf (L.node.count : ℤ)).val
    (slotOf (L.node.count : ℤ)).isLt
  rw [if_neg (by omega)] at hget
  simp only [Vars.sinfo, h.sindex, h.idx, getElem_fin]
  exact hget

theorem sinfo_setSinfo (vars : Vars) (info : SegmentInfo) : (vars.setSinfo info).sinfo = info := by
  simp only [Vars.sinfo, Vars.setSinfo, Vars.setSlot, getElem_fin, Vector.getElem_set_self]

theorem supplied_of_data (h : Begun S vars L init rowsFilled) (raw' : List (ℕ × ℕ)) {f' : File}
    {cells' : Key → Option Cell} {dataOffset : Offset} {rows : BitVec 32}
    (hstores : Stores f' cells') (hsmall : f'.size ≤ rfaLimit) (hpos : 0 < f'.size)
    (hkeep : ∀ j, j ≠ .data L.node.count → cells' j = L.cells j)
    (hdata : DataAt S (shapeOf init) (cells' (.data L.node.count))
      { emptyInfo with dataOffset, rows } (bare init).rows (bare init).data) :
    Supplied S ({ vars with
        file := f'
        raw := raw'
        shead := { vars.shead with dataOffset } }.setSinfo { emptyInfo with dataOffset, rows })
      { L with cells := cells' } init rowsFilled := by
  have hplace : ∀ {k len offset}, Place L.cells k len offset → k ≠ .data L.node.count →
      Place cells' k len offset := by
    intro k len offset hplace hne
    rwa [Place, hkeep k hne]
  refine ⟨?_, h.idx, ?_, ?_, h.indexOffset, h.opening.offsets _ _ _, ?_,
    hplace h.dimPlace (by rintro ⟨⟩),
    hplace h.headPlace (by rintro ⟨⟩), hplace h.attrPlace (by rintro ⟨⟩), h.shape, hpos⟩
  · exact working_frame h.working hstores hsmall fun k hk =>
      hkeep k fun heq => by
        rw [heq] at hk
        exact Nat.lt_irrefl _ hk
  · rw [sinfo_setSinfo]
    simp only [Vars.setSinfo, Vars.setSlot, h.sindex, h.idx, indexWith]
    rfl
  · rw [sinfo_setSinfo]
    cases init with
    | array a => exact ⟨hdata, ⟨rfl, rfl⟩, ⟨rfl, rfl⟩, ⟨rfl, rfl⟩, (by rintro _ ⟨⟩)⟩
    | opaqueRecord v => exact ⟨hdata, ⟨rfl, rfl⟩, ⟨rfl, rfl⟩, ⟨rfl, rfl⟩, (by rintro _ ⟨⟩)⟩
  · rw [sinfo_setSinfo]
    rfl

theorem initialLength_eq {shead : SegmentHeader} {a : ArrayDsc} {count : ℕ}
    (h : Opening shead (.array a : Initial V) count rowsFilled) (hformed : Formed a) :
    (List.range a.dims.length).foldl (fun n i => n * (dimAt shead i).toInt) (a.length : ℤ) =
      a.bytes.length := by
  have hshape := h.shape a rfl
  have hsized := sized (V := V) hformed
  have hdims : ∀ j (hj : j < a.dims.length), (dimAt shead j).toInt = (a.dims[j] : ℕ) := by
    intro j hj
    have hlen := length_inner hformed
    by_cases hj' : j < a.dims.dropLast.length
    · rw [dimAt_toInt hshape hsized j hj']
      change ((a.dims.dropLast[j] : ℕ) : ℤ) = _
      rw [List.getElem_dropLast]
    · obtain rfl : j = a.dims.dropLast.length := by omega
      have hget : a.dims[a.dims.dropLast.length] = a.lastDim := by
        have hd := dims_eq hformed
        have hget? : a.dims[a.dims.dropLast.length]? = some a.lastDim := by
          conv_lhs => rw [hd]
          simp
        rw [List.getElem?_eq_getElem hj, Option.some.injEq] at hget?
        exact hget?
      rw [h.rows a rfl, toInt_ofNat32 (lastDim_lt hformed), hget]
  rw [foldl_mul_range _ _ _ hdims, hformed.bytes, Nat.cast_mul]

theorem putdataInitialvalue_spec (h : Begun S vars L init rowsFilled)
    (hformed : ∀ a, init = .array a → Formed a)
    (hfit : RecordsFit S vars.compress (initialRecords init))
    (hroom : vars.file.size + init.addLength +
      recordsSize S vars.compress (initialRecords init) ≤ rfaLimit)
    (hnonempty : ∀ a, init = .array a → 0 < vars.file.size + a.bytes.length)
    (hok : putdataInitialvalue S vars init = .ok vars') :
    ∃ L', Supplied S vars' L' init rowsFilled ∧ L'.node = L.node ∧
      (∀ k, k ≠ .data L.node.count → L'.cells k = L.cells k) ∧
      (∃ new, vars'.raw = vars.raw ++ new ∧
        ∀ w ∈ new, InCell L'.cells (.data L.node.count) w) ∧
      vars'.compress = vars.compress ∧
      vars'.file.size ≤ vars.file.size + init.addLength +
        recordsSize S vars.compress (initialRecords init) := by
  have hlimit : rfaLimit < 2 ^ 63 := by simp [rfaLimit]
  have hempty := sinfo_begun h
  cases init with
  | opaqueRecord v =>
    obtain ⟨f', offset, length, cells', hput, hstores, hkeep, hat, hsize⟩ :=
      putDsc_spec h.working.stores (.data L.node.count) (.opaqueRecord v) hfit
    simp only [putdataInitialvalue, putOpaque, hput, hempty, Except.ok.injEq] at hok
    subst hok
    have hpos : 0 < f'.size := by
      have hout := S.out_pos vars.compress (.opaqueRecord v)
      simp only [recordsSize, List.map_singleton, List.sum_singleton] at hsize
      omega
    simp only [Initial.addLength, initialRecords] at hroom
    refine ⟨{ L with cells := cells' }, ?_, rfl, hkeep,
      ⟨[], (List.append_nil _).symm, by rintro _ ⟨⟩⟩, rfl,
      ?_⟩
    · exact supplied_of_data h vars.raw hstores (by omega) hpos hkeep ⟨length, hat, rfl⟩
    · change f'.size ≤ _
      simp only [Initial.addLength, initialRecords]
      omega
  | array a =>
    have hf := hformed a rfl
    have hlen := initialLength_eq h.opening hf
    obtain ⟨off, hwrite, hstores, hsize, hin, _⟩ := writeProperty_place h.working.stores
      (by have := h.working.small; omega) a.bytes h.dataPlace
    simp only [putdataInitialvalue, if_neg hf.dtype, putInitialvalue, hlen, Int.toNat_natCast,
      List.take_length, writeRaw, hwrite, bind_eq_ok] at hok
    obtain ⟨vars1, hvars1, hok⟩ := hok
    rw [if_neg (by omega), Except.ok.injEq] at hvars1
    subst hvars1
    have hrows : dimAt vars.shead (vars.shead.dimct.toNat - 1) = BitVec.ofNat 32 a.lastDim := by
      have hdimct := dimct_toNat (h.opening.shape a rfl) (sized hf)
      rw [hdimct, Nat.add_sub_cancel]
      exact h.opening.rows a rfl
    have hsmall : (vars.file.write off a.bytes).size ≤ rfaLimit := by
      simp only [Initial.addLength, initialRecords] at hroom
      omega
    have hpos : 0 < (vars.file.write off a.bytes).size := by
      have hne := hnonempty a rfl
      have hgrow : vars.file.size ≤ (vars.file.write off a.bytes).size := Nat.le_max_left _ _
      omega
    have hkeep : ∀ k, k ≠ .data L.node.count →
        Function.update L.cells (.data L.node.count) (some ⟨off, a.bytes⟩) k = L.cells k :=
      fun k hk => Function.update_of_ne hk _ _
    have hdata : DataAt S (shapeOf (.array a : Initial V))
        (Function.update L.cells (.data L.node.count) (some ⟨off, a.bytes⟩) (.data L.node.count))
        { emptyInfo with
          dataOffset := BitVec.ofNat 64 off
          rows := BitVec.ofNat 32 a.lastDim } a.lastDim (.rows a.bytes) :=
      ⟨bytes_eq hf, lastDim_lt hf, rfl, off, Function.update_self _ _ _, rfl⟩
    have hoff : (BitVec.ofNat 64 off).toNat = off := by
      rw [BitVec.toNat_ofNat, Nat.mod_eq_of_lt (by omega)]
    rw [Except.ok.injEq] at hok
    subst hok
    refine ⟨{ L with cells := Function.update L.cells (.data L.node.count) (some ⟨off, a.bytes⟩) },
      ?_, rfl, hkeep, ⟨[(off, a.bytes.length)], ?_, ?_⟩, rfl, ?_⟩
    · have hsupplied := supplied_of_data h (vars.raw ++ [(off, a.bytes.length)]) hstores hsmall hpos
        hkeep hdata
      rw [← hempty, ← hrows] at hsupplied
      rw [hoff]
      exact hsupplied
    · simp only [hoff]
      rfl
    · intro w hw
      obtain rfl := List.mem_singleton.mp hw
      exact ⟨_, Function.update_self _ _ _, Nat.le_refl _, Nat.le_refl _⟩
    · change (vars.file.write off a.bytes).size ≤ _
      simp only [Initial.addLength, initialRecords]
      omega

end Data

section Push

variable {S : Records V} {node : Node V} {init : Initial V} {rowsFilled : ℤ} {seg : Segment V}

def Filled (init : Initial V) (rowsFilled : ℤ) : Prop :=
  ∀ a, init = .array a → 0 ≤ rowsFilled ∧ rowsFilled ≤ a.lastDim

theorem header_push {shead : SegmentHeader} {info : SegmentInfo}
    (h : Opening shead init node.count rowsFilled) (hformed : ∀ a, init = .array a → Formed a)
    (hfilled : Filled init rowsFilled) (hrows : seg.rows = (bare init).rows)
    (hdata : shead.dataOffset = info.dataOffset)
    (hdim : ∀ l, seg.dim = .stamps l → shead.dimOffset = info.dimensionOffset) :
    HeaderOf (node.push init seg rowsFilled) info shead := by
  have hlast : (node.push init seg rowsFilled).last = seg := by
    simp only [Node.last, Node.push, Nat.add_sub_cancel, Function.update_self]
  have harray : (shapeOf init).dtype ≠ DTYPE_OPAQUE → ∃ a, init = .array a := by
    intro hne
    cases init with
    | array a => exact ⟨a, rfl⟩
    | opaqueRecord v => exact absurd rfl hne
  refine ⟨?_, fun hopaque => ?_, h.idx, ?_, ?_, ?_, hdata, ?_⟩
  · rw [h.dtype]
    cases init with
    | array a => rfl
    | opaqueRecord v => rfl
  · cases init with
    | array a => exact absurd hopaque (hformed a rfl).dtype
    | opaqueRecord v => exact h.dimct
  · intro hne
    obtain ⟨a, rfl⟩ := harray hne
    exact h.shape a rfl
  · intro hne
    obtain ⟨a, rfl⟩ := harray hne
    rw [hlast, hrows]
    exact h.rows a rfl
  · intro hne
    obtain ⟨a, ha⟩ := harray hne
    have hpos := (hfilled a ha).1
    rw [h.nextRow]
    change _ = BitVec.ofNat 32 rowsFilled.toNat
    rw [← BitVec.ofInt_natCast, Int.toNat_of_nonneg hpos]
  · rw [hlast]
    exact hdim

theorem told_packLast (h : Proper node) (htold : 0 < node.count → Told node.last) (compress : ℤ)
    (init : Initial V) (i : ℕ) (hi : i < node.count) :
    Told ((node.packLast compress init).seg i) := by
  have hsame : Told (node.seg i) := by
    by_cases hlast : i = node.count - 1
    · rw [hlast]
      exact htold (by omega)
    · exact h.told i (by omega)
  cases init with
  | opaqueRecord v => exact hsame
  | array a =>
    rw [Node.packLast]
    split_ifs
    · simp only [Node.replace]
      by_cases hlast : i = node.count - 1
      · rw [hlast, Function.update_self]
        intro l hl
        cases hdim : node.last.dim with
        | none => simp [Segment.pack, hdim] at hl
        | stamps l' => simp [Segment.pack, hdim] at hl
        | record d => simp [Segment.pack, hdim] at hl
      · rw [Function.update_of_ne hlast]
        exact hsame
    · exact hsame

theorem proper_push (h : Proper node) (htold : 0 < node.count → Told node.last) (compress : ℤ)
    (hshape : 0 < node.count → shapeOf init = node.shape)
    (hformed : ∀ a, init = .array a → Formed a) (hfilled : Filled init rowsFilled)
    (hdata : seg.data = (bare init).data) (hrows : seg.rows = (bare init).rows) :
    Proper ((node.packLast compress init).push init seg rowsFilled) := by
  have hlast : ((node.packLast compress init).push init seg rowsFilled).last = seg := by
    simp only [Node.last, Node.push, Nat.add_sub_cancel, Function.update_self]
  have hcount := count_packLast node compress init
  have htoldBefore : ∀ i, i + 1 < ((node.packLast compress init).push init seg rowsFilled).count →
      Told (((node.packLast compress init).push init seg rowsFilled).seg i) := by
    intro i hi
    change i + 1 < (node.packLast compress init).count + 1 at hi
    change Told (Function.update (node.packLast compress init).seg
      (node.packLast compress init).count seg i)
    rw [Function.update_of_ne (show i ≠ (node.packLast compress init).count by omega)]
    exact told_packLast h htold compress init i (by omega)
  cases init with
  | array a =>
    have hf := hformed a rfl
    obtain ⟨_, hle⟩ := hfilled a rfl
    refine ⟨fun hopaque => absurd hopaque hf.dtype, fun _ _ => ?_, fun _ _ => sized (V := V) hf,
      fun _ _ => ?_, fun hopaque => absurd hopaque hf.dtype, fun _ _ => ?_, htoldBefore⟩
    · rw [hlast, hdata]
      exact ⟨a.bytes, rfl⟩
    · rw [hlast, hrows]
      change rowsFilled.toNat ≤ a.lastDim
      omega
    · have hlt := hf.lt
      rw [bytes_eq hf] at hlt
      rw [hlast, hrows]
      exact hlt
  | opaqueRecord v =>
    refine ⟨fun _ i hi => ?_, fun hne => absurd rfl hne, fun hne => absurd rfl hne,
      fun hne => absurd rfl hne, fun _ _ => rfl, fun hne => absurd rfl hne, htoldBefore⟩
    change i < node.count + 1 at hi
    change ∃ d, (Function.update node.seg node.count seg i).data = .record d
    by_cases hi' : i = node.count
    · rw [hi', Function.update_self, hdata]
      exact ⟨_, rfl⟩
    · rw [Function.update_of_ne hi']
      have hopaque : node.shape.dtype = DTYPE_OPAQUE := by
        rw [← hshape (by omega)]
        rfl
      exact h.opaque_record hopaque i (by omega)

end Push

/-- After a step the node lies in its file as the contents say, other records of the file
are where they were, and raw writes stayed in the last segment's storage. -/
structure Follows (S : Records V) (s s' : State) (L L' : Layout V) (contents : Node V) :
    Prop where
  laid : Laid S s' L'
  node : L'.node = contents
  others : ∀ k, L'.cells (.other k) = L.cells (.other k)
  raw : ∃ new, s'.raw = s.raw ++ new ∧ ∀ w ∈ new, Inside L'.cells (contents.count - 1) w

/-- Bytes a call's page, header and attributes may add to the file. -/
def indexBytes : ℕ := segmentIndex.size + segmentHeader.size + extendedAttributes.size

section Make

variable {S : Records V} {s s' : State} {L : Layout V} {init : Initial V} {rowsFilled : ℤ}

theorem beginSegment_spec
    {checkCompress : Vars → Fin SEGMENTS_PER_INDEX → Option (Dsc V) → Option (Dsc V) →
      Initial V → Except Status Vars}
    (h : Laid S s L) (hjoins : Joins L.node init) (hlt : L.node.count < 2 ^ 31) {compress : ℤ}
    (hfit : RecordsFit S compress (packedBy L.node compress init ++ initialRecords init))
    (hroom : s.file.size + init.addLength +
      recordsSize S compress (packedBy L.node compress init ++ initialRecords init) ≤ rfaLimit)
    (hnonempty : ∀ a, init = .array a → 0 < s.file.size + a.bytes.length)
    (hcheck : Packs S checkCompress s L init compress rowsFilled)
    {initialValue : Dsc V} (hinit : checkInput initialValue = .ok init) {idx : ℤ} {vars : Vars}
    (hok : beginSegment S checkCompress s compress initialValue idx rowsFilled = .ok vars) :
    ∃ L', Supplied S vars L' init rowsFilled ∧
      L'.node = L.node.packLast compress init ∧
      (∀ k, L'.cells (.other k) = L.cells (.other k)) ∧
      (∃ new, vars.raw = s.raw ++ new ∧
        ∀ w ∈ new, InCell L'.cells (.data L.node.count) w) ∧
      vars.compress = compress ∧
      vars.file.size ≤ s.file.size + init.addLength +
        recordsSize S compress (packedBy L.node compress init ++ initialRecords init) := by
  rw [recordsSize_append] at hroom ⊢
  rw [beginSegment, hinit] at hok
  obtain ⟨⟨attr, attrOffset⟩, hattr⟩ : ∃ r, r = beginExtendedNci s := ⟨_, rfl⟩
  rw [← hattr] at hok
  simp only [bind, Except.bind] at hok
  cases hhead : beginSegmentHeader s.file attr init with
  | error e => simp [hhead] at hok
  | ok r =>
    obtain ⟨attr', shead⟩ := r
    obtain ⟨⟨shead', sindex⟩, hindex⟩ : ∃ r, r = beginSegmentIndex s.file shead := ⟨_, rfl⟩
    simp only [hhead, ← hindex] at hok
    have hready := ready_of_begin h hjoins hattr.symm hhead hindex.symm
    cases hbegin : beginSinfo S checkCompress
        ⟨s.file, s.raw, attr', attrOffset, shead', sindex, idx, compress⟩ init idx rowsFilled with
    | error e => simp [hbegin] at hok
    | ok vars1 =>
      simp only [hbegin] at hok
      obtain ⟨L1, hbegun, hnode1, hkept1, hraw1, hcompress1, hsize1⟩ :=
        beginSinfo_spec h hjoins hlt hready rfl hcheck hbegin
      simp only at hnode1 hraw1 hcompress1 hsize1
      rw [← hcompress1] at hfit
      have hcount : L1.node.count = L.node.count := by rw [hnode1, count_packLast]
      obtain ⟨L2, hsupplied, hnode2, hkept2, hraw2, hcompress2, hsize2⟩ :=
        putdataInitialvalue_spec hbegun hjoins.formed (fit_right hfit)
          (by rw [hsize1, hcompress1]; omega)
          (fun a ha => by have := hnonempty a ha; omega) hok
      refine ⟨L2, hsupplied, hnode2.trans hnode1, fun k => ?_, ?_, hcompress2.trans hcompress1, ?_⟩
      · exact (hkept2 (.other k) nofun).trans (hkept1 (.other k) nofun nofun nofun nofun)
      · rw [← hraw1, ← hcount]
        exact hraw2
      · rw [hcompress1] at hsize2
        omega

theorem ended_of_supplied {vars : Vars} (h : Supplied S vars L init rowsFilled)
    (hformed : ∀ a, init = .array a → Formed a) (hfilled : Filled init rowsFilled)
    (hlt : L.node.count + 1 < 2 ^ 31) {f' : File} {cells' : Key → Option Cell}
    {info : SegmentInfo} {seg : Segment V} (raw' : List (ℕ × ℕ)) (dimOffset : Offset)
    (hstores : Stores f' cells') (hgrow : vars.file.size ≤ f'.size)
    (hroom : f'.size + indexBytes ≤ rfaLimit)
    (hkeep : ∀ j, j ≠ .start L.node.count → j ≠ .stop L.node.count → j ≠ .dim L.node.count →
      cells' j = L.cells j)
    (hseg : SegmentAt S cells' (shapeOf init) info seg L.node.count)
    (hdata : info.dataOffset = vars.sinfo.dataOffset)
    (hdim : ∀ l, seg.dim = .stamps l → dimOffset = info.dimensionOffset)
    (hrows : seg.rows = (bare init).rows) (hproper : Proper (L.node.push init seg rowsFilled)) :
    Ended S ({ vars with
        file := f'
        raw := raw'
        shead := { vars.shead with dimOffset } }.setSinfo info)
      { L with cells := cells' } init seg rowsFilled := by
  have hplace : ∀ {k len offset}, Place L.cells k len offset → k ≠ .start L.node.count →
      k ≠ .stop L.node.count → k ≠ .dim L.node.count → Place cells' k len offset := by
    intro k len offset hplace hstart hstop hdim
    rwa [Place, hkeep k hstart hstop hdim]
  have hunused : ∀ {k}, Used L.node.count k → k ≠ .start L.node.count ∧
      k ≠ .stop L.node.count ∧ k ≠ .dim L.node.count := by
    intro k hk
    refine ⟨fun heq => ?_, fun heq => ?_, fun heq => ?_⟩ <;>
      · rw [heq] at hk
        exact Nat.lt_irrefl _ hk
  have hpages : 0 < indexBytes := by decide
  refine ⟨?_, hproper, h.shape, ?_, ?_, h.indexOffset, ?_,
    hplace h.headPlace (by rintro ⟨⟩) (by rintro ⟨⟩) (by rintro ⟨⟩),
    hplace h.attrPlace (by rintro ⟨⟩) (by rintro ⟨⟩) (by rintro ⟨⟩), hlt,
    Nat.lt_of_lt_of_le h.nonempty hgrow, ?_⟩
  · have hsmall : f'.size ≤ rfaLimit := by omega
    exact working_frame h.working hstores hsmall fun k hk =>
      hkeep k (hunused hk).1 (hunused hk).2.1 (hunused hk).2.2
  · rw [sinfo_setSinfo]
    exact hseg
  · rw [sinfo_setSinfo]
    simp only [Vars.setSinfo, Vars.setSlot, h.sindex, h.idx, indexWith, Vector.set_set]
    rfl
  · rw [sinfo_setSinfo]
    exact header_push (h.opening.offsets _ _ _) hformed hfilled hrows
      (h.dataOffset.trans hdata.symm) hdim
  · change f'.size + segmentIndex.size + segmentHeader.size + extendedAttributes.size ≤ rfaLimit
    simp only [indexBytes] at hroom
    omega

def makeRecords (node : Node V) (compress : ℤ) (start stop dimension : Option (Dsc V))
    (init : Initial V) : List (Dsc V) :=
  packedBy node compress init ++ initialRecords init ++ dimRecords start stop dimension

theorem setDim_stamps {init : Initial V} {start stop dimension : Option (Dsc V)}
    {l : List (BitVec 64)} : ((bare init).setDim start stop dimension).dim ≠ .stamps l := by
  cases init <;> cases dimension <;> exact nofun

def readRows (seg : Segment V) : ℕ :=
  match seg.dim with
  | .stamps l => filledStamps l
  | _ => seg.rows

def readDim (seg : Segment V) (shape : Shape) : Dsc V :=
  match seg.dim with
  | .none => seg.readData shape (readRows seg)
  | .stamps l => .array (stampArray (l.take (readRows seg)))
  | .record d => d

theorem previous_read (h : Laid S s L) {a : ArrayDsc} (hformed : Formed a)
    (hcount : 0 < L.node.count) (hshape : shapeOf (.array a : Initial V) = L.node.shape)
    {shead : SegmentHeader} {sindex : SegmentIndex}
    (hopening : Opening shead (.array a : Initial V) L.node.count rowsFilled)
    (hsindex : sindex = L.index ((L.node.count - 1) / 128)) :
    readSegment S true s.file shead sindex.segment[slotOf ((L.node.count : ℤ) - 1)]
        ((L.node.count : ℤ) - 1) true true =
      .ok (some (L.node.last.readData L.node.shape (readRows L.node.last)),
        some (readDim L.node.last L.node.shape)) := by
  have hlt := h.working.count_lt
  have hidx : ((L.node.count : ℤ) - 1) = ((L.node.count - 1 : ℕ) : ℤ) := by omega
  have hslot : sindex.segment[slotOf ((L.node.count - 1 : ℕ) : ℤ)] = L.info (L.node.count - 1) := by
    rw [hsindex]
    exact index_slot L (by omega)
  have hseg := h.working.segment (L.node.count - 1) (by omega)
  have hne : ((L.node.count - 1 : ℕ) : ℤ) ≠ shead.idx.toInt := by
    rw [hopening.idx, toInt_ofNat32 hlt]
    omega
  have hat : ShapeAt shead L.node.shape := by
    rw [← hshape]
    exact hopening.shape a rfl
  have hsized : Sized L.node.shape := by
    rw [← hshape]
    exact sized hformed
  simp only [hidx, hslot]
  by_cases hstamps : ∃ l, L.node.last.dim = .stamps l
  · obtain ⟨l, hl⟩ := hstamps
    -- the same segment, with the rows counted that its timestamps tell
    obtain ⟨seg, hsegEq⟩ : ∃ seg : Segment V,
      seg = { L.node.last with filled := filledStamps l } := ⟨_, rfl⟩
    have hdim : seg.dim = .stamps l := by rw [hsegEq, ← hl]
    have hsegAt : SegmentAt S L.cells L.node.shape (L.info (L.node.count - 1)) seg
        (L.node.count - 1) := by
      rw [hsegEq]
      exact ⟨hseg.data, hseg.dim, hseg.start, hseg.stop, hseg.timed⟩
    have htold : Told seg := by
      intro l' hl'
      rw [hdim] at hl'
      obtain rfl : l = l' := by injection hl'
      rw [hsegEq]
    have hfilled : FilledAt shead ((L.node.count - 1 : ℕ) : ℤ) seg (filledStamps l) := by
      refine ⟨fun heq => absurd heq hne, fun _ => ⟨?_, htold⟩, ?_⟩
      · rw [Segment.closed, hdim, hsegEq]
      · have hd := hsegAt.dim
        rw [hdim] at hd
        rw [← hd.1]
        exact filledStamps_le l
    have hread := readSegment_stamps h.working.stores h.working.small hsegAt hat hsized hdim hfilled
      true true
    have hrows : readRows L.node.last = filledStamps l := by rw [readRows, hl]
    rw [hread, hrows, readDim, hl, hrows, hsegEq]
    rfl
  · have hdim : ∀ l, L.node.last.dim ≠ .stamps l := fun l hl => hstamps ⟨l, hl⟩
    have hread := readSegment_before h.working.stores h.working.small hseg hne
      (fun _ _ => ⟨hat, hsized⟩) hdim
    have hrows : L.node.last.closed = readRows L.node.last := by
      cases hd : L.node.last.dim with
      | none => simp only [Segment.closed, readRows, hd]
      | stamps l => exact absurd hd (hdim l)
      | record d => simp only [Segment.closed, readRows, hd]
    rw [hread, readDim, ← hrows, Node.last]
    cases hd : (L.node.seg (L.node.count - 1)).dim with
    | none => rfl
    | stamps l => exact absurd hd (hdim l)
    | record d => rfl

theorem packed_read (h : Laid S s L) {a : ArrayDsc} (hformed : Formed a)
    (htold : Told L.node.last) (hcount : 0 < L.node.count)
    (hshape : shapeOf (.array a : Initial V) = L.node.shape) {shead : SegmentHeader}
    {sindex : SegmentIndex} (hopening : Opening shead (.array a : Initial V) L.node.count rowsFilled)
    (hsindex : sindex = L.index ((L.node.count - 1) / 128)) :
    ∃ dim, readSegment S true s.file shead sindex.segment[slotOf ((L.node.count : ℤ) - 1)]
        ((L.node.count : ℤ) - 1) true true =
      .ok (some (L.node.last.readData L.node.shape L.node.last.closed), dim) ∧
      ∀ l, L.node.last.dim = .stamps l →
        dim = some (.array (stampArray (l.take L.node.last.closed))) := by
  have hread := previous_read h hformed hcount hshape hopening hsindex
  have hrows : readRows L.node.last = L.node.last.closed := by
    cases hd : L.node.last.dim with
    | none => simp only [Segment.closed, readRows, hd]
    | stamps l => simp only [Segment.closed, readRows, hd, htold l hd]
    | record d => simp only [Segment.closed, readRows, hd]
  rw [hrows] at hread
  refine ⟨_, hread, fun l hl => ?_⟩
  simp only [readDim, hl, hrows]

theorem working_packed (h : Laid S s L) {compress : ℤ} {a : ArrayDsc} (hformed : Formed a)
    (hcomp : L.node.compresses compress a)
    (hshape : shapeOf (.array a : Initial V) = L.node.shape) {vars : Vars}
    (hfile : vars.file = s.file) (hsindex : vars.sindex = L.index (L.node.count / 128)) :
    Working S vars.file L none ∧ vars.sindex = L.index ((L.node.count - 1) / 128) ∧
      ∃ bytes, L.node.last.data = .rows bytes := by
  have hpos : 0 < L.node.count % 128 := hcomp.1
  have hpage : (L.node.count - 1) / 128 = L.node.count / 128 := by omega
  have hrows : L.node.shape.dtype ≠ DTYPE_OPAQUE := by
    rw [← hshape]
    exact hformed.dtype
  rw [hfile, hsindex, hpage]
  exact ⟨h.working, rfl, h.proper.last_rows hrows (by omega)⟩

theorem packs_dim (h : Laid S s L) (hjoins : Joins L.node init) (hlt : L.node.count < 2 ^ 31)
    (htold : 0 < L.node.count → Told L.node.last) {compress : ℤ}
    (hpack : ∀ a l, init = .array a → L.node.compresses compress a → L.node.last.dim ≠ .stamps l)
    (hfit : RecordsFit S compress (packedBy L.node compress init))
    (hroom : s.file.size + recordsSize S compress (packedBy L.node compress init) ≤ rfaLimit) :
    Packs S (checkCompressDim S) s L init compress rowsFilled := by
  intro a vars vars' ha hcomp hshape hfile hsindex hcompress hfresh hopening hcheck
  subst ha
  have hf := hjoins.formed a rfl
  have hpos : 0 < L.node.count % 128 := hcomp.1
  have hpackedBy : packedBy L.node compress (.array a) = packedRecords L.node := if_pos hcomp
  rw [hpackedBy, ← hcompress] at hfit hroom
  obtain ⟨hwork, hnewest, bytes, hraw⟩ := working_packed h hf hcomp hshape hfile hsindex
  obtain ⟨dim, hread, _⟩ := packed_read h hf (htold (by omega)) (by omega) hshape hopening hnewest
  rw [hfile, hread] at hcheck
  have hok : checkCompressDim S vars (slotOf ((L.node.count : ℤ) - 1))
      (some (L.node.last.readData L.node.shape L.node.last.closed)) dim (.array a) = .ok vars' :=
    hcheck
  exact checkCompressDim_spec hwork hsindex hpos hraw (fun l => hpack a l rfl hcomp) hcomp.2.1 hfit
    (by rw [hfile]; exact hroom) hfresh hok

theorem packs_ts (h : Laid S s L) (hjoins : Joins L.node init) (hlt : L.node.count < 2 ^ 31)
    (htold : 0 < L.node.count → Told L.node.last) {compress : ℤ}
    (hpack : ∀ a, init = .array a → L.node.compresses compress a →
      ∃ l, L.node.last.dim = .stamps l)
    (hfit : RecordsFit S compress (packedBy L.node compress init))
    (hroom : s.file.size + recordsSize S compress (packedBy L.node compress init) ≤ rfaLimit) :
    Packs S (checkCompressTs S) s L init compress rowsFilled := by
  intro a vars vars' ha hcomp hshape hfile hsindex hcompress hfresh hopening hcheck
  subst ha
  have hf := hjoins.formed a rfl
  have hpos : 0 < L.node.count % 128 := hcomp.1
  have hpackedBy : packedBy L.node compress (.array a) = packedRecords L.node := if_pos hcomp
  rw [hpackedBy, ← hcompress] at hfit hroom
  obtain ⟨hwork, hnewest, bytes, hraw⟩ := working_packed h hf hcomp hshape hfile hsindex
  obtain ⟨l, hl⟩ := hpack a rfl hcomp
  obtain ⟨dim, hread, hdim⟩ := packed_read h hf (htold (by omega)) (by omega) hshape hopening hnewest
  obtain rfl := hdim l hl
  have hsame : L.node.last.rows = a.lastDim := by
    have heq := hcomp.2.1
    rw [bytes_eq hf, ← hshape] at heq
    exact Nat.eq_of_mul_eq_mul_right hf.row_pos heq
  rw [hfile, hread] at hcheck
  exact checkCompressTs_spec hwork hsindex hpos hraw hl hcomp.2.1 hsame hfit
    (by rw [hfile]; exact hroom) hcheck

theorem makeSegment_spec (h : Laid S s L) (hjoins : Joins L.node init)
    (hlt : L.node.count + 1 < 2 ^ 31) (hfilled : Filled init rowsFilled)
    (htold : 0 < L.node.count → Told L.node.last) {compress : ℤ}
    {start stop dimension : Option (Dsc V)}
    (hpack : ∀ a l, init = .array a → L.node.compresses compress a → L.node.last.dim ≠ .stamps l)
    (hfit : RecordsFit S compress (makeRecords L.node compress start stop dimension init))
    (hroom : s.file.size + init.addLength +
      recordsSize S compress (makeRecords L.node compress start stop dimension init) +
      indexBytes ≤ rfaLimit)
    (hnonempty : ∀ a, init = .array a → 0 < s.file.size + a.bytes.length)
    {initialValue : Dsc V} (hinit : checkInput initialValue = .ok init) {idx : ℤ}
    (hok : makeSegment S s compress start stop dimension initialValue idx rowsFilled = .ok s') :
    ∃ L', Follows S s s' L L'
      (L.node.makeSegment compress start stop dimension init rowsFilled) := by
  rw [makeRecords, recordsSize_append] at hroom
  rw [makeSegment, bind_eq_ok] at hok
  obtain ⟨vars, hbegin, hok⟩ := hok
  obtain ⟨L1, hsupplied, hnode1, hothers1, hraw1, hcompress, hsize1⟩ :=
    beginSegment_spec h hjoins (by omega) (fit_left hfit) (by omega) hnonempty
      (packs_dim h hjoins (by omega) htold hpack (fit_left (fit_left hfit))
        (by rw [recordsSize_append] at hroom; omega)) hinit hbegin
  have hcount : L1.node.count = L.node.count := by rw [hnode1, count_packLast]
  obtain ⟨f', info, cells', hput, hstores, hkeep, hseg, hdata, _, hsize⟩ :=
    putdimDim_spec hsupplied.working.stores hsupplied.segment start stop dimension
      (fit_right (hcompress ▸ hfit))
  rw [hcompress] at hsize
  simp only [hput, Except.ok.injEq] at hok
  subst hok
  have hproper : Proper
      (L1.node.push init ((bare init).setDim start stop dimension) rowsFilled) := by
    rw [hnode1]
    refine proper_push h.proper htold compress (fun hpos => ?_) hjoins.formed hfilled rfl rfl
    rw [hsupplied.shape (by omega), hnode1, shape_packLast]
  have hended := ended_of_supplied hsupplied hjoins.formed hfilled (by omega) vars.raw
    vars.shead.dimOffset hstores (by omega) (by omega) hkeep hseg hdata
    (fun l hl => absurd hl setDim_stamps) rfl hproper
  obtain ⟨L', hlaid, hnode', hkept, hraw', _⟩ := beginFinish_spec hended
  refine ⟨L', hlaid, ?_, fun k => ?_, ?_⟩
  · rw [hnode']
    simp only [hnode1, Node.makeSegment]
  · exact (hkept (.other k) nofun nofun nofun).trans
      ((hkeep (.other k) nofun nofun nofun).trans (hothers1 k))
  · obtain ⟨new, hnew, hinside⟩ := hraw1
    refine ⟨new, hraw'.trans hnew, fun w hw => Or.inl ?_⟩
    have hlast : (L.node.makeSegment compress start stop dimension init rowsFilled).count - 1 =
        L.node.count := count_packLast L.node compress init
    rw [hlast]
    refine (hinside w hw).congr ?_
    exact (hkept (.data L.node.count) nofun nofun nofun).trans
      (hkeep (.data L.node.count) nofun nofun nofun)

theorem putdimTs_spec {vars vars' : Vars} {a : ArrayDsc}
    (h : Supplied S vars L (.array a) rowsFilled) (hformed : Formed a)
    (hfilled : Filled (.array a : Initial V) rowsFilled) {timestamps : Option (List (BitVec 64))}
    (hroom : vars.file.size + a.lastDim * 8 ≤ rfaLimit)
    (hok : putdimTs vars timestamps rowsFilled = .ok vars') :
    ∃ f' cells' info dimOffset, vars' = { vars with
        file := f'
        raw := vars.raw ++ [(dimOffset.toNat, a.lastDim * 8)]
        shead := { vars.shead with dimOffset } }.setSinfo info ∧
      Stores f' cells' ∧ vars.file.size ≤ f'.size ∧ f'.size ≤ vars.file.size + a.lastDim * 8 ∧
      (∀ j, j ≠ .dim L.node.count → cells' j = L.cells j) ∧
      SegmentAt S cells' (shapeOf (.array a : Initial V)) info
        ((bare (.array a)).setStamps (timestamps.getD []) rowsFilled.toNat) L.node.count ∧
      info.dataOffset = vars.sinfo.dataOffset ∧ dimOffset = info.dimensionOffset ∧
      InCell cells' (.dim L.node.count) (dimOffset.toNat, a.lastDim * 8) := by
  have hlimit : rfaLimit < 2 ^ 63 := by simp [rfaLimit]
  obtain ⟨hpos, hle⟩ := hfilled a rfl
  have hdimct := dimct_toNat (h.opening.shape a rfl) (sized hformed)
  have hrows : (dimAt vars.shead (vars.shead.dimct.toNat - 1)).toInt = a.lastDim := by
    have hlast := h.opening.rows a rfl
    rw [hdimct, Nat.add_sub_cancel]
    change (dimAt vars.shead a.dims.dropLast.length).toInt = _
    rw [hlast, toInt_ofNat32 (lastDim_lt hformed)]
  rw [putdimTs] at hok
  simp only [hrows, ite_error_eq_ok, Int.toNat_natCast] at hok
  obtain ⟨_, hgiven, hok⟩ := hok
  obtain ⟨given, hgivenEq⟩ : ∃ given, given = timestamps.getD [] := ⟨_, rfl⟩
  rw [← hgivenEq] at hok hgiven ⊢
  have hcount : min rowsFilled (a.lastDim : ℤ) = rowsFilled := by omega
  have hlen : (given.take rowsFilled.toNat).length = rowsFilled.toNat := by
    rw [List.length_take]
    omega
  obtain ⟨stamps, hstamps⟩ : ∃ stamps, stamps =
    given.take rowsFilled.toNat ++ List.replicate (a.lastDim - rowsFilled.toNat) 0 := ⟨_, rfl⟩
  have hstampsLen : stamps.length = a.lastDim := by
    rw [hstamps, List.length_append, hlen, List.length_replicate]
    omega
  have hbytesLen : (stampBytes stamps).length = a.lastDim * 8 := by
    rw [length_stampBytes, hstampsLen]
  rw [hcount, hlen, ← hstamps] at hok
  have hplace : Place L.cells (.dim L.node.count) (stampBytes stamps).length
      vars.shead.dimOffset := by
    rw [hbytesLen]
    exact h.dimPlace
  have hsmall := h.working.small
  obtain ⟨off, hwrite, hstores, hsize, hin, _⟩ := writeProperty_place h.working.stores
    (by omega) (stampBytes stamps) hplace
  have hoff : (BitVec.ofNat 64 off).toNat = off := by
    rw [BitVec.toNat_ofNat, Nat.mod_eq_of_lt (by omega)]
  simp only [writeRaw, hwrite, hbytesLen, Except.ok.injEq] at hok
  have hfirst : (rowsFilled > 0) = (0 < rowsFilled.toNat) := by
    simp only [gt_iff_lt, eq_iff_iff]
    omega
  refine ⟨vars.file.write off (stampBytes stamps), _, _, BitVec.ofNat 64 off, hok.symm, hstores,
    Nat.le_max_left _ _, by omega, fun j hj => Function.update_of_ne hj _ _, ?_, rfl, rfl, ?_⟩
  · have hseg := h.segment
    refine ⟨?_, ?_, ?_, ?_, fun _ _ => ⟨a.bytes, rfl⟩⟩
    · rw [Function.update_of_ne (show Key.data L.node.count ≠ .dim L.node.count from by rintro ⟨⟩)]
      exact hseg.data
    · rw [Function.update_self]
      change DimAt S _ _ a.lastDim
        (.stamps (given.take rowsFilled.toNat ++ List.replicate (a.lastDim - rowsFilled.toNat) 0))
      rw [← hstamps]
      exact ⟨hstampsLen, rfl, off, rfl, rfl⟩
    · rw [Function.update_of_ne (show Key.start L.node.count ≠ .dim L.node.count from by rintro ⟨⟩)]
      refine ⟨?_, hseg.start.2⟩
      simp only [hfirst]
      rfl
    · rw [Function.update_of_ne (show Key.stop L.node.count ≠ .dim L.node.count from by rintro ⟨⟩)]
      refine ⟨?_, hseg.stop.2⟩
      simp only [hfirst]
      rfl
  · rw [hoff]
    exact ⟨_, Function.update_self _ _ _, Nat.le_refl _, by rw [hbytesLen]⟩

theorem makeTimestampedSegment_spec (h : Laid S s L) (hjoins : Joins L.node init)
    (hlt : L.node.count + 1 < 2 ^ 31) (hfilled : Filled init rowsFilled)
    (htold : 0 < L.node.count → Told L.node.last) {compress : ℤ}
    {timestamps : Option (List (BitVec 64))}
    (hpack : ∀ a, init = .array a → L.node.compresses compress a →
      ∃ l, L.node.last.dim = .stamps l)
    (hfit : RecordsFit S compress (packedBy L.node compress init ++ initialRecords init))
    (hroom : s.file.size + init.addLength +
      recordsSize S compress (packedBy L.node compress init ++ initialRecords init) +
      (bare init).rows * 8 + indexBytes ≤ rfaLimit)
    (hnonempty : ∀ a, init = .array a → 0 < s.file.size + a.bytes.length)
    {initialValue : Dsc V} (hinit : checkInput initialValue = .ok init) {idx : ℤ}
    (hok : makeTimestampedSegment S s compress timestamps initialValue idx rowsFilled = .ok s') :
    ∃ L', Follows S s s' L L'
      (L.node.makeTimestampedSegment compress timestamps init rowsFilled) := by
  rw [makeTimestampedSegment, bind_eq_ok] at hok
  obtain ⟨vars, hbegin, hok⟩ := hok
  rw [bind_eq_ok] at hok
  obtain ⟨vars', hput, hok⟩ := hok
  obtain ⟨L1, hsupplied, hnode1, hothers1, hraw1, hcompress, hsize1⟩ :=
    beginSegment_spec h hjoins (by omega) hfit (by omega) hnonempty
      (packs_ts h hjoins (by omega) htold hpack (fit_left hfit)
        (by rw [recordsSize_append] at hroom; omega)) hinit hbegin
  have hcount : L1.node.count = L.node.count := by rw [hnode1, count_packLast]
  cases init with
  | opaqueRecord v =>
    have hdimct : vars.shead.dimct = 0 := hsupplied.opening.dimct
    simp [putdimTs, hdimct] at hput
  | array a =>
    have hf := hjoins.formed a rfl
    have hrows : (bare (.array a : Initial V)).rows = a.lastDim := rfl
    rw [hrows] at hroom
    obtain ⟨f', cells', info, dimOffset, hvars', hstores, hgrow, hsize, hkeep, hseg, hdata, hdim,
      hcell⟩ := putdimTs_spec hsupplied hf hfilled (by omega) hput
    rw [Except.ok.injEq] at hok
    subst hok hvars'
    have hproper : Proper (L1.node.push (.array a)
        ((bare (.array a)).setStamps (timestamps.getD []) rowsFilled.toNat) rowsFilled) := by
      rw [hnode1]
      refine proper_push h.proper htold compress (fun hpos => ?_) hjoins.formed hfilled rfl rfl
      rw [hsupplied.shape (by omega), hnode1, shape_packLast]
    have hended := ended_of_supplied hsupplied hjoins.formed hfilled (by omega)
      (vars.raw ++ [(dimOffset.toNat, a.lastDim * 8)]) dimOffset hstores hgrow (by omega)
      (fun j _ _ hj => hkeep j hj) hseg hdata (fun _ _ => hdim) rfl hproper
    obtain ⟨L', hlaid, hnode', hkept, hraw', _⟩ := beginFinish_spec hended
    refine ⟨L', hlaid, ?_, fun k => ?_, ?_⟩
    · rw [hnode']
      simp only [hnode1, Node.makeTimestampedSegment]
    · exact (hkept (.other k) nofun nofun nofun).trans
        ((hkeep (.other k) nofun).trans (hothers1 k))
    · obtain ⟨new, hnew, hinside⟩ := hraw1
      have hlast : (L.node.makeTimestampedSegment compress timestamps (.array a)
          rowsFilled).count - 1 = L.node.count := count_packLast L.node compress (.array a)
      refine ⟨new ++ [(dimOffset.toNat, a.lastDim * 8)], ?_, fun w hw => ?_⟩
      · rw [hraw', ← List.append_assoc, ← hnew]
        rfl
      · rw [hlast]
        rcases List.mem_append.mp hw with hw | hw
        · refine Or.inl ((hinside w hw).congr ?_)
          exact (hkept (.data L.node.count) nofun nofun nofun).trans
            (hkeep (.data L.node.count) nofun)
        · obtain rfl := List.mem_singleton.mp hw
          rw [hcount] at hcell
          exact Or.inr (hcell.congr (hkept (.dim L.node.count) nofun nofun nofun))

end Make

end MdsPlus.SegmentMake
