import MdsPlus.SegmentLimits

/-!
Updating one segment. The slot is changed in its own page, wherever that is in the chain,
and whatever else the node has stays. Limits are told apart by a time of all bits set, so
that a limit given as that time is lost.
-/

namespace MdsPlus.SegmentUpdates

open ByteFile Datafile SegmentRecords Segments SegmentNode SegmentLayout
  SegmentReads SegmentPages SegmentWrites SegmentPack SegmentMake SegmentPuts SegmentRuns
  SegmentLimits Outcome

variable {V : Type}

/-- The dimension of a segment as it is stored, not cut to the filled rows. -/
def storedDim (S : Records V) (s : State) (idx : ℤ) : Except Status (Option (Dsc V)) := do
  let v ← getSegment s idx
  let r ← readSegment S false s.file v.shead v.sinfo v.idx false true
  .ok r.2

/-- What an update of segment `i` leaves and what it replaces, as it is read back. -/
structure Updated (S : Records V) (s s' : State) (start stop dimension : Option (Dsc V))
    (i count : ℕ) : Prop where
  header : openHeader s' = openHeader s
  data : ∀ j < count, j ≠ i → treeGetSegment S s' j true false = treeGetSegment S s j true false
  dim : ∀ j < count, j ≠ i → storedDim S s' j = storedDim S s j
  limits : ∀ j < count, j ≠ i → treeGetSegmentLimits S s' j = treeGetSegmentLimits S s j
  newDim : ∀ d, dimension = some d → storedDim S s' i = .ok (some d)
  newStart : ∀ d, start = some d → ∃ limits, treeGetSegmentLimits S s' i = .ok limits ∧
    limits.start = some (limitDsc d)
  newStop : ∀ d, stop = some d → ∃ limits, treeGetSegmentLimits S s' i = .ok limits ∧
    limits.stop = some (limitDsc d)

/-- The limits given can be told from what is stored of them. Where the segment keeps its
timestamps they have to be times, and two zeros stand for the timestamps. -/
structure Tellable (node : Node V) (start stop dimension : Option (Dsc V)) (i : ℕ) : Prop where
  untimed : (∀ l, ((node.seg i).setDim start stop dimension).dim ≠ .stamps l) →
    ∀ d, start = some d ∨ stop = some d → quadwordOf d ≠ some (-1)
  timed : ∀ l, ((node.seg i).setDim start stop dimension).dim = .stamps l →
    ∀ d, start = some d ∨ stop = some d → (quadwordOf d).isSome
  zero : ∀ l, ((node.seg i).setDim start stop dimension).dim = .stamps l →
    (limitOf start (node.seg i).start).value = 0 → (limitOf stop (node.seg i).stop).value = 0 →
    (start.isSome → l.head? = some 0) ∧
    (stop.isSome → 0 < node.filled i ∧ l.getD (node.filled i - 1) 0 = 0)

def Node.storedDim (node : Node V) (i : ℕ) : Dsc V :=
  match (node.seg i).dim with
  | .none => node.readData i
  | .stamps l => .array (stampArray l)
  | .record d => d

section Read

variable {S : Records V} {s : State} {L : Layout V}

theorem storedDim_eq (h : Laid S s L) {i : ℕ} (hi : i < L.node.count) :
    storedDim S s i = .ok (some (Node.storedDim L.node i)) := by
  obtain ⟨shead, hh, hget⟩ := getSegment_eq h hi
  have hslot : Found.sinfo ⟨shead, L.index (i / 128), i⟩ = L.info i := index_slot L hi
  have hseg := h.working.segment i hi
  have hstores := h.working.stores
  have hsmall := h.working.small
  have hread : readSegment S false s.file shead (L.info i) i false true =
      .ok (none, some (Node.storedDim L.node i)) := by
    cases hdim : (L.node.seg i).dim with
    | none =>
      have hat := hseg.dim
      rw [hdim] at hat
      have hdata : ∀ n : ℤ, (∀ bytes, (L.node.seg i).data = .rows bytes →
          n = L.node.filled i) → readData S s.file shead (L.info i) n =
            .ok (L.node.readData i) := by
        intro n hn
        refine readData_spec hstores hsmall hseg (fun bytes hb => ?_) fun bytes hb => ?_
        · have hrows := rows_of_data h hi hb
          exact ⟨hh.content.shape hrows, h.proper.sized hrows (by omega)⟩
        · exact ⟨hn bytes hb, (filledAt h hh hi (rows_of_data h hi hb)).le⟩
      rw [readSegment]
      simp only [if_neg (dataOffset_ne hstores hsmall hseg), timestamped_none hseg hdim,
        Bool.false_eq_true, if_false, hat.2, ne_eq, not_true_eq_false, if_true, Bool.false_or,
        bind, Except.bind]
      rw [hdata]
      · simp only [Except.map, Node.storedDim, hdim]
      · intro bytes hb
        have hrows := rows_toInt hseg hb
        rw [if_neg (show ¬ (L.info i).rows.toInt < 0 by omega)]
        exact untimed_eq hseg (fun l hl => by rw [hdim] at hl; cases hl) hb
          (filledAt h hh hi (rows_of_data h hi hb))
    | stamps l =>
      obtain ⟨bytes, hdata⟩ := hseg.timed l hdim
      obtain ⟨hrows, hstamps⟩ := readProperty_stamps hstores hsmall hseg hdim
      rw [hrows] at hstamps
      have hread : readStamps s.file false shead (L.info i) i l.length =
          .ok ((l.length : ℤ), l) := by
        simp only [readStamps, hstamps, stampsOf_stampBytes, Bool.false_eq_true, if_false]
      rw [readSegment]
      simp only [if_neg (dataOffset_ne hstores hsmall hseg), hrows,
        if_neg (show ¬ (l.length : ℤ) < 0 by omega), timestamped_stamps hstores hsmall hseg hdim,
        if_true, hread, bind, Except.bind]
      rw [if_neg (by omega)]
      simp only [Bool.false_eq_true, if_false, Int.toNat_natCast, List.take_length,
        Node.storedDim, hdim]
    | record d =>
      have hat := hseg.dim
      rw [hdim] at hat
      have hrecord := treeGetDsc_record hstores hsmall hat
      have hlength : (L.info i).dimensionLength ≠ -1 := by
        obtain ⟨_, bytes, _, _, _, hlen, _, hlt⟩ := hat
        intro hneg
        rw [hlen] at hneg
        have hval := congrArg BitVec.toInt hneg
        rw [toInt_ofNat32 hlt] at hval
        have hminus : (-1 : BitVec 32).toInt = -1 := by decide
        omega
      rw [readSegment]
      simp only [if_neg (dataOffset_ne hstores hsmall hseg), timestamped_record hseg hdim,
        Bool.false_eq_true, if_false, if_true, if_pos hlength, hrecord, false_and, bind,
        Except.bind, Node.storedDim, hdim]
  simp only [storedDim, hget, bind, Except.bind, hslot, hread]

end Read

section Limits

variable {S : Records V} {f f' : File} {compress : ℤ}

theorem putdimDim_start (S : Records V) (f : File) (compress : ℤ)
    (start stop dimension : Option (Dsc V)) (sinfo : SegmentInfo) :
    (putdimDim S f compress start stop dimension sinfo).2.start =
      (putLimitByDsc S f compress start sinfo.start).2 := by
  cases dimension with
  | none => rfl
  | some d => rfl

theorem putdimDim_stop (S : Records V) (f : File) (compress : ℤ)
    (start stop dimension : Option (Dsc V)) (sinfo : SegmentInfo) :
    (putdimDim S f compress start stop dimension sinfo).2.stop =
      (putLimitByDsc S (putLimitByDsc S f compress start sinfo.start).1 compress stop
        sinfo.stop).2 := by
  cases dimension with
  | none => rfl
  | some d => rfl

/-- A record that is written to a file with something in it does not lie at its beginning. -/
theorem putLimit_offset {info : LimitInfo} {d : Dsc V} (hnone : quadwordOf d = none)
    (hpos : 0 < f.size) (hlt : f.size < 2 ^ 63) :
    (putLimitByDsc S f compress (some d) info).2.offset.toInt > 0 := by
  simp only [putLimitByDsc, hnone, putDsc_eq]
  rw [toInt_ofNat hlt]
  omega

theorem putLimit_size (f : File) (limit : Option (Dsc V)) (info : LimitInfo) :
    (putLimitByDsc S f compress limit info).1.size =
      f.size + recordsSize S compress (limitRecords limit) := by
  cases limit with
  | none => rfl
  | some d =>
    cases hq : quadwordOf d with
    | some q => simp only [putLimitByDsc, limitRecords, hq, Option.isSome_some, if_true]; rfl
    | none =>
      simp only [putLimitByDsc, limitRecords, hq, Option.isSome_none, Bool.false_eq_true, if_false,
        putDsc_eq, write_size]
      rfl

theorem getLimit_put {cells : Key → Option Cell} (hstores : Stores f' cells)
    (hsmall : f'.size ≤ rfaLimit) {k : Key} {old : LimitInfo} {limit : Limit V} {d : Dsc V}
    (hat : LimitAt S (cells k) (putLimitByDsc S f compress (some d) old).2
      (limitOf (some d) limit)) (hpos : 0 < f.size) (hlt : f.size < 2 ^ 63) :
    (getLimit S f' (putLimitByDsc S f compress (some d) old).2).2 =
      if quadwordOf d = some (-1) then none else some (limitDsc d) := by
  cases hq : quadwordOf d with
  | some q =>
    have hput : (putLimitByDsc S f compress (some d) old).2 = ⟨q, -1, 0⟩ := by
      simp only [putLimitByDsc, hq]
    rw [hput]
    by_cases hminus : q = -1
    · rw [getLimit_absent hminus rfl, if_pos (by rw [hminus])]
    · have hne : some q ≠ some (-1) := fun heq => hminus (Option.some.inj heq)
      rw [getLimit_time hminus, if_neg hne, limitDsc, hq]
  | none =>
    have hvalue : (putLimitByDsc S f compress (some d) old).2.value = -1 := by
      simp only [putLimitByDsc, hq]
    have hrecord := hat.2
    simp only [limitOf, hq] at hrecord
    rw [getLimit_record hstores hsmall hvalue hrecord (putLimit_offset hq hpos hlt),
      if_neg (by rintro ⟨⟩), limitDsc, hq]

end Limits

section Update

variable {S : Records V} {s : State} {L : Layout V} {compress : ℤ}
  {start stop dimension : Option (Dsc V)} {i : ℕ}

theorem limits_untimed {f : File} {cells : Key → Option Cell} {shead : SegmentHeader}
    {shape : Shape} {info : SegmentInfo} {seg : Segment V}
    (h : SegmentAt S cells shape info seg i) (hdim : ∀ l, seg.dim ≠ .stamps l) (idx : ℤ) :
    getSegmentLimits S f shead info idx =
      .ok ⟨if info.stop.value ≠ -1 then (getLimit S f info.start).1 else (getLimit S f info.stop).1,
        (getLimit S f info.start).2, (getLimit S f info.stop).2⟩ := by
  have huntimed : timestamped info = false := by
    rw [Bool.eq_false_iff]
    intro htimed
    obtain ⟨l, hl⟩ := stamps_of_timestamped h htimed
    exact hdim l hl
  rw [getSegmentLimits, huntimed]
  rfl

theorem limits_timed {f : File} {cells : Key → Option Cell} {shead : SegmentHeader}
    {shape : Shape} {info : SegmentInfo} {seg : Segment V} (hstores : Stores f cells)
    (hsmall : f.size ≤ rfaLimit) (h : SegmentAt S cells shape info seg i) {l : List (BitVec 64)}
    (hdim : seg.dim = .stamps l) (idx : ℤ) :
    getSegmentLimits S f shead info idx =
      if seg.start.value = 0 ∧ seg.stop.value = 0 then stampLimits f shead info idx
      else .ok ⟨true, some (.quadword seg.start.value), some (.quadword seg.stop.value)⟩ := by
  obtain ⟨bytes, hdata⟩ := h.timed l hdim
  have hrows := rows_toInt h hdata
  have hpos : ¬ info.rows.toInt < 0 := by omega
  simp only [getSegmentLimits, timestamped_stamps hstores hsmall h hdim, if_true, hpos, false_or,
    h.start.1, h.stop.1]
  by_cases hzero : seg.start.value = 0 ∧ seg.stop.value = 0
  · rw [if_neg (fun hnot => hnot hzero), if_pos hzero]
  · rw [if_pos hzero, if_neg hzero]

theorem limitDsc_eq_quadword {d : Dsc V} {q : BitVec 64} :
    limitDsc d = .quadword q ↔ quadwordOf d = some q := by
  cases hq : quadwordOf d with
  | some r => simp [limitDsc, hq]
  | none =>
    simp only [limitDsc, hq, reduceCtorEq, iff_false]
    rintro rfl
    cases hq

theorem limitOf_quadword {d : Dsc V} {q : BitVec 64} (h : quadwordOf d = some q)
    (limit : Limit V) : (limitOf (some d) limit).value = q := by
  simp only [limitOf, h]

theorem limitOf_record {d : Dsc V} (h : quadwordOf d = none) (limit : Limit V) :
    (limitOf (some d) limit).value = -1 := by
  simp only [limitOf, h]

theorem filled_replace (node : Node V) {i j : ℕ} (hj : j ≠ i) (seg : Segment V) :
    (node.replace i seg).seg j = node.seg j ∧ (node.replace i seg).filled j = node.filled j := by
  have hseg : (node.replace i seg).seg j = node.seg j := Function.update_of_ne hj _ _
  refine ⟨hseg, ?_⟩
  simp only [Node.filled, hseg]
  rfl

theorem updated_frame (h : Laid S s L) (hi : i < L.node.count) {f' : File}
    {cells' : Key → Option Cell} {info : SegmentInfo} {seg : Segment V}
    (h' : Laid S { s with file := f' } (Layout.setSegment { L with cells := cells' } i info seg))
    (hkeep : ∀ k, (∀ p, k ≠ .page p) → k ≠ .start i → k ≠ .stop i → k ≠ .dim i →
      cells' k = L.cells k) :
    openHeader { s with file := f' } = openHeader s ∧
    ∀ j < L.node.count, j ≠ i →
      treeGetSegment S { s with file := f' } j true false = treeGetSegment S s j true false ∧
      storedDim S { s with file := f' } j = storedDim S s j ∧
      treeGetSegmentLimits S { s with file := f' } j = treeGetSegmentLimits S s j := by
  obtain ⟨attr, shead, attrOff, headOff, hh, hopen, _, _⟩ := openNode h (by omega)
  have hattr : cells' .attributes = some ⟨attrOff, extendedAttributes.encode attr⟩ :=
    (hkeep .attributes nofun nofun nofun nofun).trans hh.attributes
  have hhead : cells' .header = some ⟨headOff, segmentHeader.encode shead⟩ :=
    (hkeep .header nofun nofun nofun nofun).trans hh.header
  have hstores := h'.working.stores
  have hsmall := h'.working.small
  have hopen' : openHeader { s with file := f' } = .ok (attr, shead) := by
    have hattrLt := cell_lt hstores hsmall hattr
    have hheadLt := cell_lt hstores hsmall hhead
    simp only at hattrLt hheadLt
    have hload : loadExtendedNci { s with file := f' } = some attr := by
      rw [loadExtendedNci, if_pos hh.extendedNci, hh.rfa]
      exact getRecord_eq _ (hstores.holds _ _ hattr) (by omega)
    have hloadHead : loadSegmentHeader f' attr = some shead := by
      rw [loadSegmentHeader, hh.facility]
      exact getRecord_eq _ (hstores.holds _ _ hhead) (by omega)
    simp only [openHeader, hload, hloadHead]
  refine ⟨hopen'.trans hopen.symm, fun j hj hji => ?_⟩
  obtain ⟨hseg, hfilled⟩ := filled_replace L.node hji seg
  refine ⟨?_, ?_, ?_⟩
  · have hdata := (kept_of_laid h').data j hj
    rw [(kept_of_laid h).data j hj, hdata]
    simp only [Layout.setSegment, Node.readData, hseg, hfilled]
    rfl
  · rw [storedDim_eq h hj, storedDim_eq h' hj]
    simp only [Layout.setSegment, Node.storedDim, Node.readData, hseg, hfilled]
    rfl
  · rw [(treeGetSegmentLimits_eq h hj hopen).2, (treeGetSegmentLimits_eq h' hj hopen').2]
    have hat' := h'.working.segment j hj
    have hinfo : (Layout.setSegment { L with cells := cells' } i info seg).info j = L.info j :=
      Function.update_of_ne hji _ _
    have hnode : (Layout.setSegment { L with cells := cells' } i info seg).node.seg j =
        L.node.seg j := hseg
    rw [hinfo, hnode] at hat'
    rw [hinfo]
    exact getSegmentLimits_congr h.working.stores h.working.small hstores hsmall
      (h.working.segment j hj) hat' j

theorem newLimits_untimed (h : Laid S s L) (hi : i < L.node.count) {f' : File}
    {cells' : Key → Option Cell}
    (h' : Laid S { s with file := f' } (Layout.setSegment { L with cells := cells' } i
      (putdimDim S s.file compress start stop dimension (L.info i)).2
      ((L.node.seg i).setDim start stop dimension)))
    (hroom : s.file.size + recordsSize S compress (dimRecords start stop dimension) ≤ rfaLimit)
    (hdim : ∀ l, ((L.node.seg i).setDim start stop dimension).dim ≠ .stamps l) :
    ∃ limits, treeGetSegmentLimits S { s with file := f' } i = .ok limits ∧
      (∀ d, start = some d →
        limits.start = if quadwordOf d = some (-1) then none else some (limitDsc d)) ∧
      ∀ d, stop = some d →
        limits.stop = if quadwordOf d = some (-1) then none else some (limitDsc d) := by
  obtain ⟨attr, shead, _, _, _, hopen, _, _⟩ := openNode h' (by exact Nat.zero_lt_of_lt hi)
  have hlimits := (treeGetSegmentLimits_eq h' hi hopen).2
  have hinfo : (Layout.setSegment { L with cells := cells' } i
      (putdimDim S s.file compress start stop dimension (L.info i)).2
      ((L.node.seg i).setDim start stop dimension)).info i =
      (putdimDim S s.file compress start stop dimension (L.info i)).2 :=
    Function.update_self _ _ _
  have hseg : (Layout.setSegment { L with cells := cells' } i
      (putdimDim S s.file compress start stop dimension (L.info i)).2
      ((L.node.seg i).setDim start stop dimension)).node.seg i =
      (L.node.seg i).setDim start stop dimension := Function.update_self _ _ _
  have hat := h'.working.segment i hi
  rw [hinfo, hseg] at hat
  rw [hinfo, limits_untimed hat hdim] at hlimits
  have hpageOff := (h.working.pageOff_lt (p := i / 128) (by omega)).1
  have hpageSize : 0 < segmentIndex.size := by decide
  have hlimit : rfaLimit < 2 ^ 63 := by simp [rfaLimit]
  rw [dimRecords, recordsSize_append, recordsSize_append] at hroom
  refine ⟨_, hlimits, fun d hd => ?_, fun d hd => ?_⟩
  · subst hd
    have hstart : LimitAt S (cells' (.start i))
        (putLimitByDsc S s.file compress (some d) (L.info i).start).2
        (limitOf (some d) (L.node.seg i).start) := by
      rw [← putdimDim_start S s.file compress (some d) stop dimension]
      exact hat.start
    simp only [putdimDim_start]
    exact getLimit_put h'.working.stores h'.working.small hstart (by omega) (by omega)
  · subst hd
    have hsize : (putLimitByDsc S s.file compress start (L.info i).start).1.size =
        s.file.size + recordsSize S compress (limitRecords start) := putLimit_size _ _ _
    have hstop : LimitAt S (cells' (.stop i)) (putLimitByDsc S
        (putLimitByDsc S s.file compress start (L.info i).start).1 compress (some d)
        (L.info i).stop).2 (limitOf (some d) (L.node.seg i).stop) := by
      rw [← putdimDim_stop S s.file compress start (some d) dimension]
      exact hat.stop
    simp only [putdimDim_stop]
    exact getLimit_put h'.working.stores h'.working.small hstop (by omega) (by omega)

theorem newLimits_timed (hi : i < L.node.count) {f' : File}
    {cells' : Key → Option Cell} {info : SegmentInfo}
    (h' : Laid S { s with file := f' } (Layout.setSegment { L with cells := cells' } i info
      ((L.node.seg i).setDim start stop dimension))) {l : List (BitVec 64)}
    (hdim : ((L.node.seg i).setDim start stop dimension).dim = .stamps l) :
    L.node.filled i ≤ l.length ∧ treeGetSegmentLimits S { s with file := f' } i =
      if (limitOf start (L.node.seg i).start).value = 0 ∧
          (limitOf stop (L.node.seg i).stop).value = 0 then
        if l = [] then .error .undefined
        else .ok ⟨true, some (.quadword (l.getD 0 0)),
          if 0 < L.node.filled i then some (.quadword (l.getD (L.node.filled i - 1) 0)) else none⟩
      else .ok ⟨true, some (.quadword (limitOf start (L.node.seg i).start).value),
        some (.quadword (limitOf stop (L.node.seg i).stop).value)⟩ := by
  obtain ⟨attr, shead, _, _, _, hopen, _, _⟩ := openNode h' (by exact Nat.zero_lt_of_lt hi)
  obtain ⟨hhead, hlimits⟩ := treeGetSegmentLimits_eq h' hi hopen
  have hinfo : (Layout.setSegment { L with cells := cells' } i info
      ((L.node.seg i).setDim start stop dimension)).info i = info := Function.update_self _ _ _
  have hseg : (Layout.setSegment { L with cells := cells' } i info
      ((L.node.seg i).setDim start stop dimension)).node.seg i =
      (L.node.seg i).setDim start stop dimension := Function.update_self _ _ _
  have hat := h'.working.segment i hi
  rw [hinfo, hseg] at hat
  obtain ⟨bytes, hdata⟩ := hat.timed l hdim
  have hrows := rows_of_data h' hi (show _ = Data.rows bytes by rw [hseg]; exact hdata)
  have hfilled := filledAt h' hhead hi hrows
  -- the dimension is the old one, so the rows count as filled as before
  have hsame : (Layout.setSegment { L with cells := cells' } i info
      ((L.node.seg i).setDim start stop dimension)).node.filled i = L.node.filled i := by
    have hclosed : ((L.node.seg i).setDim start stop dimension).closed = (L.node.seg i).closed := by
      cases dimension with
      | none => rfl
      | some d => cases hdim
    simp only [Node.filled, hseg, hclosed]
    rfl
  rw [hseg, hsame] at hfilled
  have hlength := hat.dim
  rw [hdim] at hlength
  refine ⟨by rw [hlength.1]; exact hfilled.le, ?_⟩
  rw [hlimits, hinfo, limits_timed h'.working.stores h'.working.small hat hdim,
    stampLimits_eq h'.working.stores h'.working.small hat hdim hfilled]
  rfl

theorem quadwordOf_of_zero {d : Dsc V} {limit : Limit V}
    (h : (limitOf (some d) limit).value = 0) : quadwordOf d = some 0 := by
  cases hq : quadwordOf d with
  | some q => rw [← h, limitOf_quadword hq]
  | none =>
    rw [limitOf_record hq] at h
    exact absurd h (by decide)

theorem limitDsc_eq_stored {d : Dsc V} {limit : Limit V} :
    some (Dsc.quadword (limitOf (some d) limit).value) = some (limitDsc d) ↔
      (quadwordOf d).isSome := by
  rw [Option.some.injEq, eq_comm, limitDsc_eq_quadword]
  cases hq : quadwordOf d with
  | some q => simp [limitOf_quadword hq]
  | none => simp

theorem newLimits_iff (h : Laid S s L) (hi : i < L.node.count) {f' : File}
    {cells' : Key → Option Cell}
    (h' : Laid S { s with file := f' } (Layout.setSegment { L with cells := cells' } i
      (putdimDim S s.file compress start stop dimension (L.info i)).2
      ((L.node.seg i).setDim start stop dimension)))
    (hroom : s.file.size + recordsSize S compress (dimRecords start stop dimension) ≤ rfaLimit) :
    ((∀ d, start = some d → ∃ limits, treeGetSegmentLimits S { s with file := f' } i = .ok limits ∧
        limits.start = some (limitDsc d)) ∧
      ∀ d, stop = some d → ∃ limits, treeGetSegmentLimits S { s with file := f' } i = .ok limits ∧
        limits.stop = some (limitDsc d)) ↔
    Tellable L.node start stop dimension i := by
  by_cases htimed : ∃ l, ((L.node.seg i).setDim start stop dimension).dim = .stamps l
  · obtain ⟨l, hdim⟩ := htimed
    obtain ⟨hle, hget⟩ := newLimits_timed hi h' hdim
    have hsame : ∀ l', ((L.node.seg i).setDim start stop dimension).dim = .stamps l' → l' = l := by
      intro l' hl'
      rw [hdim] at hl'
      injection hl' with hl'
      exact hl'.symm
    by_cases hzero : (limitOf start (L.node.seg i).start).value = 0 ∧
        (limitOf stop (L.node.seg i).stop).value = 0
    · rw [if_pos hzero] at hget
      have hstart : ∀ d, start = some d → quadwordOf d = some 0 := by
        rintro d rfl
        exact quadwordOf_of_zero hzero.1
      have hstop : ∀ d, stop = some d → quadwordOf d = some 0 := by
        rintro d rfl
        exact quadwordOf_of_zero hzero.2
      constructor
      · rintro ⟨hnewStart, hnewStop⟩
        refine ⟨fun hnot => absurd hdim (hnot l), fun l' _ d hd => ?_, fun l' hl' _ _ => ?_⟩
        · rcases hd with hd | hd
          · rw [hstart d hd, Option.isSome_some]
          · rw [hstop d hd, Option.isSome_some]
        · rw [hsame l' hl']
          have hfirst : ∀ limits, treeGetSegmentLimits S { s with file := f' } i = .ok limits →
              l ≠ [] ∧ limits = ⟨true, some (.quadword (l.getD 0 0)), if 0 < L.node.filled i then
                some (.quadword (l.getD (L.node.filled i - 1) 0)) else none⟩ := by
            intro limits hlimits
            rw [hget, ite_error_eq_ok, Except.ok.injEq] at hlimits
            exact ⟨hlimits.1, hlimits.2.symm⟩
          constructor
          · intro hsome
            obtain ⟨d, hd⟩ := Option.isSome_iff_exists.mp hsome
            obtain ⟨limits, hlimits, hvalue⟩ := hnewStart d hd
            obtain ⟨hne, rfl⟩ := hfirst limits hlimits
            obtain ⟨a, l2, rfl⟩ := List.exists_cons_of_ne_nil hne
            simp only [Option.some.injEq] at hvalue
            have hquad := limitDsc_eq_quadword.mp hvalue.symm
            rw [hstart d hd] at hquad
            exact hquad.symm
          · intro hsome
            obtain ⟨d, hd⟩ := Option.isSome_iff_exists.mp hsome
            obtain ⟨limits, hlimits, hvalue⟩ := hnewStop d hd
            obtain ⟨_, rfl⟩ := hfirst limits hlimits
            simp only at hvalue
            by_cases hpos : 0 < L.node.filled i
            · rw [if_pos hpos, Option.some.injEq] at hvalue
              have hquad := limitDsc_eq_quadword.mp hvalue.symm
              rw [hstop d hd, Option.some.injEq] at hquad
              exact ⟨hpos, hquad.symm⟩
            · rw [if_neg hpos] at hvalue
              cases hvalue
      · intro htell
        obtain ⟨hhead, hlast⟩ := htell.zero l hdim hzero.1 hzero.2
        refine ⟨fun d hd => ?_, fun d hd => ?_⟩
        · have hfirst := hhead (by rw [hd, Option.isSome_some])
          cases l with
          | nil => cases hfirst
          | cons a l2 =>
            rw [if_neg nofun] at hget
            refine ⟨_, hget, ?_⟩
            rw [Option.some.injEq, eq_comm, limitDsc_eq_quadword, hstart d hd]
            exact hfirst.symm
        · obtain ⟨hpos, hvalue⟩ := hlast (by rw [hd, Option.isSome_some])
          have hne : l ≠ [] := by
            rintro rfl
            simp only [List.length_nil] at hle
            omega
          rw [if_neg hne] at hget
          refine ⟨_, hget, ?_⟩
          simp only [if_pos hpos]
          rw [Option.some.injEq, eq_comm, limitDsc_eq_quadword, hstop d hd, hvalue]
    · rw [if_neg hzero] at hget
      constructor
      · rintro ⟨hnewStart, hnewStop⟩
        refine ⟨fun hnot => absurd hdim (hnot l), fun l' _ d hd => ?_,
          fun l' _ hstart hstop => absurd ⟨hstart, hstop⟩ hzero⟩
        rcases hd with rfl | rfl
        · obtain ⟨limits, hlimits, hvalue⟩ := hnewStart d rfl
          obtain rfl := Except.ok.inj (hget.symm.trans hlimits)
          exact limitDsc_eq_stored.mp hvalue
        · obtain ⟨limits, hlimits, hvalue⟩ := hnewStop d rfl
          obtain rfl := Except.ok.inj (hget.symm.trans hlimits)
          exact limitDsc_eq_stored.mp hvalue
      · intro htell
        refine ⟨?_, ?_⟩
        · rintro d rfl
          exact ⟨_, hget, limitDsc_eq_stored.mpr (htell.timed l hdim d (Or.inl rfl))⟩
        · rintro d rfl
          exact ⟨_, hget, limitDsc_eq_stored.mpr (htell.timed l hdim d (Or.inr rfl))⟩
  · have huntimed : ∀ l, ((L.node.seg i).setDim start stop dimension).dim ≠ .stamps l :=
      fun l hl => htimed ⟨l, hl⟩
    obtain ⟨limits, hget, hstart, hstop⟩ := newLimits_untimed h hi h' hroom huntimed
    constructor
    · rintro ⟨hnewStart, hnewStop⟩
      refine ⟨fun _ d hd hminus => ?_, fun l hl => absurd hl (huntimed l),
        fun l hl => absurd hl (huntimed l)⟩
      rcases hd with hd | hd
      · obtain ⟨limits', hget', hvalue⟩ := hnewStart d hd
        obtain rfl := Except.ok.inj (hget.symm.trans hget')
        rw [hstart d hd, if_pos hminus] at hvalue
        cases hvalue
      · obtain ⟨limits', hget', hvalue⟩ := hnewStop d hd
        obtain rfl := Except.ok.inj (hget.symm.trans hget')
        rw [hstop d hd, if_pos hminus] at hvalue
        cases hvalue
    · intro htell
      refine ⟨fun d hd => ⟨limits, hget, ?_⟩, fun d hd => ⟨limits, hget, ?_⟩⟩
      · rw [hstart d hd, if_neg (htell.untimed huntimed d (Or.inl hd))]
      · rw [hstop d hd, if_neg (htell.untimed huntimed d (Or.inr hd))]

/-- Updating a segment of a node, on whichever page it is, leaves the header and all other
segments as they read, and replaces the dimension. The limits given are replaced exactly
when they can be told from what is stored of them. -/
theorem updateSegment_iff {others : ℕ → Option Cell} {node : Node V}
    (h : Lies S others (s, node)) (hi : i < node.count)
    (hwritable : Writable S s compress (dimRecords start stop dimension) 0) :
    ∃ s', updateSegment S s compress start stop dimension i = .ok s' ∧
      (Updated S s s' start stop dimension i node.count ↔
        Tellable node start stop dimension i) := by
  obtain ⟨L, hlaid, rfl, _⟩ := h
  have hroom : s.file.size + 0 + recordsSize S compress (dimRecords start stop dimension) +
      indexBytes ≤ rfaLimit := hwritable.room
  change Laid S s L at hlaid
  change i < L.node.count at hi
  obtain ⟨f', cells', hupdate, hlaid', hkeep⟩ := updateSegment_eq hlaid hi hwritable.fit (by omega)
  obtain ⟨hheader, hothers⟩ := updated_frame hlaid hi hlaid' hkeep
  have hlimits := newLimits_iff hlaid hi hlaid' (by omega)
  refine ⟨_, hupdate, fun hnew => hlimits.mp ⟨hnew.newStart, hnew.newStop⟩, fun htell => ?_⟩
  obtain ⟨hstart, hstop⟩ := hlimits.mpr htell
  refine ⟨hheader, fun j hj hji => (hothers j hj hji).1, fun j hj hji => (hothers j hj hji).2.1,
    fun j hj hji => (hothers j hj hji).2.2, fun d hd => ?_, hstart, hstop⟩
  rw [storedDim_eq hlaid' hi]
  subst hd
  simp only [Layout.setSegment, Node.storedDim, Node.replace, Function.update_self,
    Segment.setDim]

end Update

def stamped : Dimension Unit → Bool
  | .stamps _ => true
  | _ => false

theorem lies_makeTwo : ∃ s node,
    run (withSpec (step unary) applied) (emptyFile, Node.empty) [makeTwo] = .ok (s, node) ∧
    Lies unary (fun _ => none) (s, node) ∧ node.count = 1 ∧ s.file.size < 10000 ∧
    ∀ l, (node.seg 0).dim ≠ .stamps l := by
  obtain ⟨s, node, hrun, hvalue⟩ := exists_run unary emptyFile Node.empty [makeTwo]
    (fun p => (p.2.count, decide (p.1.file.size < 10000), stamped (p.2.seg 0).dim))
    (a := (1, true, false)) (by decide +kernel)
  simp only [Prod.mk.injEq, decide_eq_true_eq] at hvalue
  obtain ⟨hcount, hsize, hdim⟩ := hvalue
  have hadm : Admissible (withSpec (step unary) applied) (SoundRun unary)
      (emptyFile, Node.empty) [makeTwo] := ⟨sound_makeTwo, fun _ _ => trivial⟩
  refine ⟨s, node, hrun, lies_run ⟨emptyLayout, laid_emptyFile unary, rfl, fun _ => rfl⟩ hadm hrun,
    hcount, hsize, fun l hl => ?_⟩
  rw [hl] at hdim
  cases hdim

/-- It gets the limits five and nine. -/
theorem updateSegment_two : ∃ s node s',
    run (withSpec (step unary) applied) (emptyFile, Node.empty) [makeTwo] = .ok (s, node) ∧
    updateSegment unary s (-1) (some (.quadword 5)) (some (.quadword 9)) none 0 = .ok s' ∧
    Updated unary s s' (some (.quadword 5)) (some (.quadword 9)) none 0 node.count := by
  obtain ⟨s, node, hrun, hlies, hcount, hsize, hdim⟩ := lies_makeTwo
  have hlimit : 30000 < rfaLimit := by simp [rfaLimit]
  have hbytes : indexBytes < 20000 := by decide
  have hwritable : Writable unary s (-1)
      (dimRecords (some (.quadword 5)) (some (.quadword 9)) none) 0 := by
    refine ⟨(by rintro _ ⟨⟩), ?_⟩
    change s.file.size + 0 + 0 + indexBytes ≤ rfaLimit
    omega
  obtain ⟨s', hok, hiff⟩ := updateSegment_iff (i := 0) hlies (by omega) hwritable
  refine ⟨s, node, s', hrun, hok, hiff.mpr ⟨fun _ d hd => ?_, fun l hl => absurd hl (hdim l),
    fun l hl => absurd hl (hdim l)⟩⟩
  rcases hd with hd | hd
  · cases hd
    decide
  · cases hd
    decide

/-- An end of all bits set is accepted, and no end is read back. -/
theorem updateSegment_minus_one : ∃ s node s',
    run (withSpec (step unary) applied) (emptyFile, Node.empty) [makeTwo] = .ok (s, node) ∧
    updateSegment unary s (-1) (some (.quadword 5)) (some (.quadword (-1))) none 0 = .ok s' ∧
    (∃ limits, treeGetSegmentLimits unary s' 0 = .ok limits ∧ limits.stop = none) ∧
    ¬ Updated unary s s' (some (.quadword 5)) (some (.quadword (-1))) none 0 node.count := by
  obtain ⟨s, node, hrun, ⟨L, hlaid, rfl, _⟩, hcount, hsize, hdim⟩ := lies_makeTwo
  have hlimit : 30000 < rfaLimit := by simp [rfaLimit]
  have hbytes : indexBytes < 20000 := by decide
  have hrecords : recordsSize unary (-1)
      (dimRecords (some (.quadword 5)) (some (.quadword (-1))) none) = 0 := rfl
  have hi : 0 < L.node.count := by omega
  change Laid unary s L at hlaid
  have hwritable : Writable unary s (-1)
      (dimRecords (some (.quadword 5)) (some (.quadword (-1))) none) 0 := by
    refine ⟨(by rintro _ ⟨⟩), ?_⟩
    rw [hrecords]
    omega
  obtain ⟨f', cells', hupdate, hlaid', _⟩ := updateSegment_eq hlaid hi hwritable.fit (by omega)
  have huntimed : ∀ l, ((L.node.seg 0).setDim (some (.quadword 5)) (some (.quadword (-1)))
      none).dim ≠ .stamps l := hdim
  obtain ⟨limits, hlimits, -, hstop⟩ := newLimits_untimed hlaid hi hlaid' (by omega) huntimed
  have hnone : limits.stop = none := by
    rw [hstop _ rfl]
    exact if_pos rfl
  refine ⟨s, L.node, _, hrun, hupdate, ⟨limits, hlimits, hnone⟩, fun hnew => ?_⟩
  obtain ⟨limits', hlimits', hvalue⟩ := hnew.newStop _ rfl
  obtain rfl := Except.ok.inj (hlimits.symm.trans hlimits')
  rw [hnone] at hvalue
  cases hvalue

end MdsPlus.SegmentUpdates
