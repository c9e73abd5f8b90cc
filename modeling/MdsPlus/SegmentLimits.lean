import MdsPlus.SegmentRuns

/-!
Start and end of a segment. They are stored in its slot as times, or as records where
there is no time; a timestamped segment without stored times has those of its first and
its last filled row.
-/

namespace MdsPlus.SegmentLimits

open ByteFile Datafile SegmentRecords Segments SegmentNode SegmentLayout
  SegmentReads SegmentPages Outcome

variable {V : Type}

/-- The status and the two limits, as far as there are any. -/
structure Limits (V : Type) where
  ok : Bool
  start : Option (Dsc V)
  stop : Option (Dsc V)

/-- A limit as its slot has it. The time of all bits set stands for no time. -/
def getLimit (S : Records V) (f : File) (info : LimitInfo) : Bool × Option (Dsc V) :=
  if info.value ≠ -1 then (true, some (.quadword info.value))
  else if info.length.toInt > 0 ∧ info.offset.toInt > 0 then
    match treeGetDsc S f info.offset info.length.toNat with
    | .ok d => (true, some d)
    | .error _ => (false, none)
  else (true, none)

def stampLimits (f : File) (shead : SegmentHeader) (sinfo : SegmentInfo) (idx : ℤ) :
    Except Status (Limits V) :=
  match readProperty f sinfo.dimensionOffset (sinfo.rows.toInt * 8).toNat with
  | none => .ok ⟨false, none, none⟩
  | some bytes =>
      let stamps := stampsOf bytes
      let filled := getFilledRowsTs shead sinfo idx stamps
      if stamps = [] ∨ filled > stamps.length then .error .undefined
      else .ok ⟨true, some (.quadword (stamps.getD 0 0)),
        if filled > 0 then some (.quadword (stamps.getD (filled.toNat - 1) 0)) else none⟩

/-- Both limits are asked for. The status of the start is lost where the end has no time. -/
def getSegmentLimits (S : Records V) (f : File) (shead : SegmentHeader) (sinfo : SegmentInfo)
    (idx : ℤ) : Except Status (Limits V) :=
  if timestamped sinfo then
    if sinfo.rows.toInt < 0 ∨ ¬ (sinfo.start.value = 0 ∧ sinfo.stop.value = 0) then
      .ok ⟨true, some (.quadword sinfo.start.value), some (.quadword sinfo.stop.value)⟩
    else stampLimits f shead sinfo idx
  else
    let start := getLimit S f sinfo.start
    let stop := getLimit S f sinfo.stop
    .ok ⟨if sinfo.stop.value ≠ -1 then start.1 else stop.1, start.2, stop.2⟩

def treeGetSegmentLimits (S : Records V) (s : State) (idx : ℤ) : Except Status (Limits V) := do
  let v ← getSegment s idx
  getSegmentLimits S s.file v.shead v.sinfo v.idx

/-- What a given limit says: a time, or the record itself. -/
def limitDsc (d : Dsc V) : Dsc V :=
  match quadwordOf d with
  | some q => .quadword q
  | none => d

section Stored

variable {S : Records V} {f f' : File} {cells cells' : Key → Option Cell}
  {shead : SegmentHeader} {shape : Shape} {info : SegmentInfo} {seg : Segment V} {i : ℕ}

theorem getLimit_time {limit : LimitInfo} (h : limit.value ≠ -1) :
    getLimit S f limit = (true, some (.quadword limit.value)) := if_pos h

theorem getLimit_absent {limit : LimitInfo} (h : limit.value = -1) (hoff : limit.offset = -1) :
    getLimit S f limit = (true, none) := by
  have hneg : ¬ (limit.offset.toInt > 0) := by
    rw [hoff]
    decide
  rw [getLimit, if_neg (fun hne => hne h), if_neg (fun hand => hneg hand.2)]

theorem getLimit_record (hstores : Stores f cells) (hsmall : f.size ≤ rfaLimit) {k : Key}
    {limit : LimitInfo} {d : Dsc V} (h : limit.value = -1)
    (hat : RecordAt S (cells k) limit.offset limit.length d) (hpos : limit.offset.toInt > 0) :
    getLimit S f limit = (true, some d) := by
  have hread := treeGetDsc_record hstores hsmall hat
  have hlen : limit.length.toInt > 0 := by
    obtain ⟨_, bytes, _, _, _, hlen, hpos, hlt⟩ := hat
    rw [hlen, toInt_ofNat32 hlt]
    omega
  rw [getLimit, if_neg (fun hne => hne h), if_pos ⟨hlen, hpos⟩, hread]

theorem getLimit_congr (hstores : Stores f cells) (hsmall : f.size ≤ rfaLimit)
    (hstores' : Stores f' cells') (hsmall' : f'.size ≤ rfaLimit) {k : Key} {stored : LimitInfo}
    {limit : Limit V} (h : LimitAt S (cells k) stored limit)
    (h' : LimitAt S (cells' k) stored limit) : getLimit S f' stored = getLimit S f stored := by
  obtain ⟨_, hrecord⟩ := h
  obtain ⟨_, hrecord'⟩ := h'
  cases hlimit : limit.record with
  | none =>
    rw [hlimit] at hrecord
    by_cases hvalue : stored.value = -1
    · rw [getLimit_absent hvalue hrecord, getLimit_absent hvalue hrecord]
    · rw [getLimit_time hvalue, getLimit_time hvalue]
  | some d =>
    rw [hlimit] at hrecord hrecord'
    simp only [getLimit, treeGetDsc_record hstores hsmall hrecord,
      treeGetDsc_record hstores' hsmall' hrecord']

theorem readProperty_stamps (hstores : Stores f cells) (hsmall : f.size ≤ rfaLimit)
    (h : SegmentAt S cells shape info seg i) {l : List (BitVec 64)} (hdim : seg.dim = .stamps l) :
    info.rows.toInt = l.length ∧
      readProperty f info.dimensionOffset (info.rows.toInt * 8).toNat = some (stampBytes l) := by
  obtain ⟨bytes, hdata⟩ := h.timed l hdim
  have hrows := rows_toInt h hdata
  have hat := h.dim
  rw [hdim] at hat
  obtain ⟨hlen, _, off, hcell, hoff⟩ := hat
  have hn : (info.rows.toInt * 8).toNat = (stampBytes l).length := by
    rw [length_stampBytes, hlen, hrows]
    omega
  refine ⟨by rw [hrows, hlen], ?_⟩
  rw [hoff, hn, readProperty_take hstores hsmall hcell _ (Nat.le_refl _), List.take_length]

theorem stamps_of_timestamped (h : SegmentAt S cells shape info seg i)
    (htimed : timestamped info = true) : ∃ l, seg.dim = .stamps l := by
  cases hdim : seg.dim with
  | none =>
    rw [timestamped_none h hdim] at htimed
    cases htimed
  | stamps l => exact ⟨l, rfl⟩
  | record d =>
    rw [timestamped_record h hdim] at htimed
    cases htimed

theorem getSegmentLimits_congr (hstores : Stores f cells) (hsmall : f.size ≤ rfaLimit)
    (hstores' : Stores f' cells') (hsmall' : f'.size ≤ rfaLimit)
    (h : SegmentAt S cells shape info seg i) (h' : SegmentAt S cells' shape info seg i) (idx : ℤ) :
    getSegmentLimits S f' shead info idx = getSegmentLimits S f shead info idx := by
  by_cases htimed : timestamped info = true
  · obtain ⟨l, hdim⟩ := stamps_of_timestamped h htimed
    have hread := (readProperty_stamps hstores hsmall h hdim).2
    have hread' := (readProperty_stamps hstores' hsmall' h' hdim).2
    simp only [getSegmentLimits, htimed, if_true, stampLimits, hread, hread']
  · have hstart := getLimit_congr hstores hsmall hstores' hsmall' h.start h'.start
    have hstop := getLimit_congr hstores hsmall hstores' hsmall' h.stop h'.stop
    simp only [getSegmentLimits, htimed, Bool.false_eq_true, if_false, hstart, hstop]

theorem getFilledRowsTs_eq {l : List (BitVec 64)} (hdim : seg.dim = .stamps l)
    (hrows : info.rows.toInt = l.length) {idx : ℤ} {filled : ℕ}
    (h : FilledAt shead idx seg filled) : getFilledRowsTs shead info idx l = filled := by
  by_cases hidx : idx = shead.idx.toInt
  · have hnext := h.last hidx
    rw [getFilledRowsTs, if_pos hidx.symm, if_neg (by omega), hnext]
  · obtain ⟨hclosed, htold⟩ := h.before hidx
    rw [getFilledRowsTs_before hidx hrows, htold l hdim, hclosed, Segment.closed, hdim]

theorem stampLimits_eq (hstores : Stores f cells) (hsmall : f.size ≤ rfaLimit)
    (h : SegmentAt S cells shape info seg i) {l : List (BitVec 64)} (hdim : seg.dim = .stamps l)
    {idx : ℤ} {filled : ℕ} (hfilled : FilledAt shead idx seg filled) :
    (stampLimits f shead info idx : Except Status (Limits V)) =
      if l = [] then .error .undefined
      else .ok ⟨true, some (.quadword (l.getD 0 0)),
        if 0 < filled then some (.quadword (l.getD (filled - 1) 0)) else none⟩ := by
  obtain ⟨hrows, hread⟩ := readProperty_stamps hstores hsmall h hdim
  have hat := h.dim
  rw [hdim] at hat
  have hle := hfilled.le
  have hnot : ¬ ((filled : ℤ) > l.length) := by
    rw [hat.1]
    omega
  simp only [stampLimits, hread, stampsOf_stampBytes, getFilledRowsTs_eq hdim hrows hfilled,
    Int.toNat_natCast, hnot, or_false]
  by_cases hnil : l = []
  · rw [if_pos hnil, if_pos hnil]
  · rw [if_neg hnil, if_neg hnil]
    by_cases hpos : 0 < filled
    · rw [if_pos hpos, if_pos (by omega)]
    · rw [if_neg hpos, if_neg (by omega)]

end Stored

section Node

variable {S : Records V} {s : State} {L : Layout V}

theorem openHeader_of_getSegment {v : Found} {idx : ℤ} (h : getSegment s idx = .ok v) :
    ∃ attr, openHeader s = .ok (attr, v.shead) := by
  rw [getSegment, bind_eq_ok] at h
  obtain ⟨⟨shead, sindex⟩, hopen, h⟩ := h
  rw [bind_eq_ok] at h
  obtain ⟨⟨page, off⟩, _, h⟩ := h
  simp only [ite_error_eq_ok, Except.ok.injEq] at h
  obtain ⟨_, rfl⟩ := h
  rw [openIndexRead] at hopen
  cases hattr : loadExtendedNci s with
  | none => simp [hattr] at hopen
  | some attr =>
    cases hhead : loadSegmentHeader s.file attr with
    | none => simp [hattr, hhead] at hopen
    | some shead' =>
      cases hindex : loadSegmentIndex s.file shead' with
      | none => simp [hattr, hhead, hindex] at hopen
      | some sindex' =>
        simp only [hattr, hhead, hindex, Except.ok.injEq, Prod.mk.injEq] at hopen
        obtain ⟨rfl, rfl⟩ := hopen
        exact ⟨attr, by simp only [openHeader, hattr, hhead]⟩

theorem treeGetSegmentLimits_eq (h : Laid S s L) {i : ℕ} (hi : i < L.node.count)
    {attr : ExtendedAttributes} {shead : SegmentHeader} (hopen : openHeader s = .ok (attr, shead)) :
    HeaderAt L shead ∧
      treeGetSegmentLimits S s i = getSegmentLimits S s.file shead (L.info i) i := by
  obtain ⟨shead', hh, hget⟩ := getSegment_eq h hi
  obtain ⟨attr', hopen'⟩ := openHeader_of_getSegment hget
  rw [hopen] at hopen'
  simp only [Except.ok.injEq, Prod.mk.injEq] at hopen'
  obtain ⟨_, rfl⟩ := hopen'
  have hslot : Found.sinfo ⟨shead, L.index (i / 128), i⟩ = L.info i := index_slot L hi
  refine ⟨hh, ?_⟩
  simp only [treeGetSegmentLimits, hget, bind, Except.bind, hslot]

end Node

end MdsPlus.SegmentLimits
