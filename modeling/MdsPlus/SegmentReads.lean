import MdsPlus.SegmentLayout

/-!
Reading a segment from its slot gives its contents: the filled rows or the record, and
for a timestamped segment the filled timestamps.
-/

namespace MdsPlus.SegmentReads

open BitMemory ByteFile Datafile SegmentRecords SegmentNode SegmentLayout

variable {V : Type} {S : Records V} {f : File} {cells : Key → Option Cell}

theorem cell_lt (hstores : Stores f cells) (hsmall : f.size ≤ rfaLimit) {k : Key} {c : Cell}
    (hk : cells k = some c) : c.off + c.bytes.length < 2 ^ 63 := by
  have hin := (hstores.holds k c hk).inside
  simp only [rfaLimit] at hsmall
  omega

theorem treeGetDsc_record (hstores : Stores f cells) (hsmall : f.size ≤ rfaLimit) {k : Key}
    {offset : Offset} {length : BitVec 32} {d : Dsc V}
    (h : RecordAt S (cells k) offset length d) :
    treeGetDsc S f offset length.toNat = .ok d := by
  obtain ⟨off, bytes, hcell, hread, rfl, rfl, _, hlt⟩ := h
  have hoff := cell_lt hstores hsmall hcell
  have hholds : Holds f off bytes := hstores.holds _ _ hcell
  have hbytes := readPropertySafe_eq hholds (by simp only at hoff; omega)
  have hlen : (BitVec.ofNat 32 bytes.length).toNat = bytes.length := by
    rw [BitVec.toNat_ofNat, Nat.mod_eq_of_lt (by omega)]
  simp only [treeGetDsc, hlen, hbytes, Option.bind_some, hread]

theorem readProperty_take (hstores : Stores f cells) (hsmall : f.size ≤ rfaLimit) {k : Key}
    {off : ℕ} {bytes : List Byte} (hcell : cells k = some ⟨off, bytes⟩) (n : ℕ)
    (hn : n ≤ bytes.length) :
    readProperty f (BitVec.ofNat 64 off) n = some (bytes.take n) := by
  have hoff := cell_lt hstores hsmall hcell
  simp only at hoff
  have hpart := (hstores.holds _ _ hcell).part 0 n (by simpa using hn)
  have hread := hpart.read_eq
  simp only [Nat.add_zero, List.drop_zero, List.length_take, Nat.min_eq_left hn] at hread
  rw [readProperty, BitVec.toNat_ofNat, Nat.mod_eq_of_lt (by omega), hread]

section Data

variable {shead : SegmentHeader} {shape : Shape} {info : SegmentInfo} {seg : Segment V} {i : ℕ}

theorem rows_toInt {bytes : List Byte} (h : SegmentAt S cells shape info seg i)
    (hdata : seg.data = .rows bytes) : info.rows.toInt = seg.rows := by
  have hat := h.data
  rw [hdata] at hat
  obtain ⟨_, hlt, hrows, _⟩ := hat
  rw [hrows, toInt_ofNat32 hlt]

theorem readData_rows (hstores : Stores f cells) (hsmall : f.size ≤ rfaLimit)
    (h : SegmentAt S cells shape info seg i) (hshape : ShapeAt shead shape) (hsized : Sized shape)
    {bytes : List Byte} (hdata : seg.data = .rows bytes) {filled : ℕ} (hfilled : filled ≤ seg.rows) :
    readData S f shead info filled = .ok (.array (shape.array filled bytes)) := by
  have hrows := rows_toInt h hdata
  have hat := h.data
  rw [hdata] at hat
  obtain ⟨hlen, _, _, off, hcell, hoff⟩ := hat
  have hle : filled * shape.rowBytes ≤ bytes.length := by
    rw [hlen]
    exact Nat.mul_le_mul_right _ hfilled
  have harsize : bytesPerRow shead * (filled : ℤ) = ((filled * shape.rowBytes : ℕ) : ℤ) := by
    rw [bytesPerRow_eq hshape hsized, Nat.cast_mul, mul_comm]
  have hdimct := dimct_toNat hshape hsized
  have hne : shead.dimct ≠ 0 := by
    intro hzero
    rw [hzero] at hdimct
    simp at hdimct
  have hdims : (List.range (shead.dimct.toNat - 1)).map (fun j => (dimAt shead j).toNat) =
      shape.inner := by
    apply List.ext_getElem
    · simp [hdimct]
    · intro j _ hj
      have hlt := hsized.inner_lt _ (List.getElem_mem hj)
      rw [List.getElem_map, List.getElem_range, hshape.dims j hj, BitVec.toNat_ofNat,
        Nat.mod_eq_of_lt (by omega)]
  rw [readData, if_neg (by omega)]
  simp only [harsize, hoff]
  rw [if_neg (by simp only [hne, or_false]; omega), Int.toNat_natCast,
    readProperty_take hstores hsmall hcell _ hle]
  simp only [hdims, hshape.dtype, length_toNat hshape hsized, Int.toNat_natCast, Shape.array]

theorem rows_neg {d : Dsc V} (h : SegmentAt S cells shape info seg i)
    (hdata : seg.data = .record d) : info.rows.toInt < 0 := by
  have hat := h.data
  rw [hdata] at hat
  obtain ⟨length, _, hrows⟩ := hat
  rw [hrows]
  exact recordRows_neg length

theorem readData_record (hstores : Stores f cells) (hsmall : f.size ≤ rfaLimit)
    (h : SegmentAt S cells shape info seg i) {d : Dsc V} (hdata : seg.data = .record d)
    (filled : ℤ) : readData S f shead info filled = .ok d := by
  have hneg := rows_neg h hdata
  have hat := h.data
  rw [hdata] at hat
  obtain ⟨length, hrecord, hrows⟩ := hat
  have hlen : (info.rows &&& 0x7fffffff).toNat = length.toNat := by
    obtain ⟨_, bytes, _, _, _, rfl, _, hlt⟩ := hrecord
    rw [hrows, recordRows_length hlt, BitVec.toNat_ofNat, Nat.mod_eq_of_lt (by omega)]
  rw [readData, if_pos hneg, hlen]
  exact treeGetDsc_record hstores hsmall hrecord

theorem dataOffset_ne (hstores : Stores f cells) (hsmall : f.size ≤ rfaLimit)
    (h : SegmentAt S cells shape info seg i) : info.dataOffset ≠ -1 := by
  have hat := h.data
  cases hdata : seg.data with
  | rows bytes =>
    rw [hdata] at hat
    obtain ⟨_, _, _, off, hcell, hoff⟩ := hat
    have hlt := cell_lt hstores hsmall hcell
    rw [hoff]
    exact ofNat_ne_neg_one (by simp only at hlt; omega)
  | record d =>
    rw [hdata] at hat
    obtain ⟨length, ⟨off, bytes, hcell, _, hoff, _⟩, _⟩ := hat
    have hlt := cell_lt hstores hsmall hcell
    rw [hoff]
    exact ofNat_ne_neg_one (by simp only at hlt; omega)

/-- How many timestamps the code counts once the segment is no longer the last. -/
def filledStamps (l : List (BitVec 64)) : ℕ :=
  if l.length > 1 ∧ (l.getD (l.length - 2) 0).toInt ≥ 0 then dropZeros l l.length else l.length

/-- The timestamps of a segment tell how many of its rows are filled. -/
def Told (seg : Segment V) : Prop := ∀ l, seg.dim = .stamps l → filledStamps l = seg.filled

structure FilledAt (shead : SegmentHeader) (idx : ℤ) (seg : Segment V) (filled : ℕ) : Prop where
  last : idx = shead.idx.toInt → shead.nextRow.toInt = filled
  before : idx ≠ shead.idx.toInt → filled = seg.closed ∧ Told seg
  le : filled ≤ seg.rows

theorem readData_spec (hstores : Stores f cells) (hsmall : f.size ≤ rfaLimit)
    (h : SegmentAt S cells shape info seg i)
    (hshape : ∀ bytes, seg.data = .rows bytes → ShapeAt shead shape ∧ Sized shape)
    {filled : ℕ} {n : ℤ} (hn : ∀ bytes, seg.data = .rows bytes → n = filled ∧ filled ≤ seg.rows) :
    readData S f shead info n = .ok (seg.readData shape filled) := by
  cases hdata : seg.data with
  | rows bytes =>
    obtain ⟨hshape, hsized⟩ := hshape bytes hdata
    obtain ⟨hn, hle⟩ := hn bytes hdata
    rw [hn, readData_rows hstores hsmall h hshape hsized hdata hle, Segment.readData, hdata]
  | record d => rw [readData_record hstores hsmall h hdata, Segment.readData, hdata]

theorem timestamped_iff :
    timestamped info = true ↔ info.dimensionOffset ≠ -1 ∧ info.dimensionLength = 0 := by
  rw [timestamped, Bool.and_eq_true, decide_eq_true_eq, decide_eq_true_eq]

theorem timestamped_stamps (hstores : Stores f cells) (hsmall : f.size ≤ rfaLimit)
    (h : SegmentAt S cells shape info seg i) {l : List (BitVec 64)} (hdim : seg.dim = .stamps l) :
    timestamped info = true := by
  have hat := h.dim
  rw [hdim] at hat
  obtain ⟨_, hzero, off, hcell, hoff⟩ := hat
  have hlt := cell_lt hstores hsmall hcell
  have hne : info.dimensionOffset ≠ -1 := by
    rw [hoff]
    exact ofNat_ne_neg_one (by simp only at hlt; omega)
  exact timestamped_iff.mpr ⟨hne, hzero⟩

theorem timestamped_none (h : SegmentAt S cells shape info seg i) (hdim : seg.dim = .none) :
    timestamped info = false := by
  have hat := h.dim
  rw [hdim] at hat
  rw [Bool.eq_false_iff]
  exact fun htimed => (timestamped_iff.mp htimed).1 hat.1

theorem timestamped_record (h : SegmentAt S cells shape info seg i) {d : Dsc V}
    (hdim : seg.dim = .record d) : timestamped info = false := by
  have hat := h.dim
  rw [hdim] at hat
  obtain ⟨off, bytes, _, _, _, hlen, hpos, hlt⟩ := hat
  have hne : info.dimensionLength ≠ 0 := by
    intro hzero
    rw [hlen] at hzero
    have hval := congrArg BitVec.toInt hzero
    rw [toInt_ofNat32 hlt] at hval
    have : (0 : BitVec 32).toInt = 0 := by decide
    omega
  rw [Bool.eq_false_iff]
  exact fun htimed => hne (timestamped_iff.mp htimed).2

theorem getFilledRowsTs_before {idx : ℤ} {l : List (BitVec 64)} (hidx : idx ≠ shead.idx.toInt)
    (hrows : info.rows.toInt = l.length) : getFilledRowsTs shead info idx l = filledStamps l := by
  rw [getFilledRowsTs, if_neg (fun heq => hidx heq.symm)]
  simp only [hrows, filledStamps, Int.toNat_natCast]
  by_cases h : l.length > 1 ∧ (l.getD (l.length - 2) 0).toInt ≥ 0
  · rw [if_pos h, if_pos ⟨by omega, h.2⟩]
  · rw [if_neg h, if_neg (fun h' => h ⟨by omega, h'.2⟩)]

theorem readSegment_stamps (hstores : Stores f cells) (hsmall : f.size ≤ rfaLimit)
    (h : SegmentAt S cells shape info seg i) (hshape : ShapeAt shead shape) (hsized : Sized shape)
    {l : List (BitVec 64)} (hdim : seg.dim = .stamps l) {idx : ℤ} {filled : ℕ}
    (hfilled : FilledAt shead idx seg filled) (segment dim : Bool) :
    readSegment S true f shead info idx segment dim =
      .ok (if segment then some (seg.readData shape filled) else none,
        if dim then some (.array (stampArray (l.take filled))) else none) := by
  obtain ⟨bytes, hdata⟩ := h.timed l hdim
  have hrows := rows_toInt h hdata
  have htimed := timestamped_stamps hstores hsmall h hdim
  have hat := h.dim
  rw [hdim] at hat
  obtain ⟨hlen, _, off, hcell, hoff⟩ := hat
  have hread : readProperty f info.dimensionOffset ((seg.rows : ℤ) * 8).toNat =
      some (stampBytes l) := by
    have hn : ((seg.rows : ℤ) * 8).toNat = (stampBytes l).length := by
      rw [length_stampBytes, hlen]
      omega
    rw [hoff, hn, readProperty_take hstores hsmall hcell _ (Nat.le_refl _), List.take_length]
  have hstamps : readStamps f true shead info idx seg.rows = .ok ((filled : ℤ), l) := by
    simp only [readStamps, hread, stampsOf_stampBytes, if_true]
    by_cases hidx : idx = shead.idx.toInt
    · rw [if_pos hidx, hfilled.last hidx]
    · obtain ⟨hclosed, htold⟩ := hfilled.before hidx
      rw [Segment.closed, hdim] at hclosed
      rw [if_neg hidx, getFilledRowsTs_before hidx (by rw [hrows, hlen]), htold l hdim, hclosed]
  have hdataOf := readData_rows hstores hsmall h hshape hsized hdata hfilled.le
  have hle := hfilled.le
  rw [readSegment]
  simp only [hrows, if_neg (dataOffset_ne hstores hsmall h), htimed, if_true,
    if_neg (show ¬ (seg.rows : ℤ) < 0 by omega), hstamps, bind, Except.bind]
  rw [if_neg (by omega)]
  cases segment with
  | true =>
    simp only [hdataOf, if_true, Except.map, Int.toNat_natCast, Segment.readData, hdata]
  | false =>
    simp only [Bool.false_eq_true, if_false, Int.toNat_natCast]

theorem untimed_eq (h : SegmentAt S cells shape info seg i) {idx : ℤ} {filled : ℕ}
    (hdim : ∀ l, seg.dim ≠ .stamps l) {bytes : List Byte} (hdata : seg.data = .rows bytes)
    (hfilled : FilledAt shead idx seg filled) :
    (if idx = shead.idx.toInt then shead.nextRow.toInt else info.rows.toInt) = filled := by
  by_cases hidx : idx = shead.idx.toInt
  · rw [if_pos hidx, hfilled.last hidx]
  · have hclosed : seg.closed = seg.rows := by
      cases hd : seg.dim with
      | none => simp only [Segment.closed, hd]
      | stamps l => exact absurd hd (hdim l)
      | record d => simp only [Segment.closed, hd]
    rw [if_neg hidx, rows_toInt h hdata, (hfilled.before hidx).1, hclosed]

theorem readSegment_data (hstores : Stores f cells) (hsmall : f.size ≤ rfaLimit)
    (h : SegmentAt S cells shape info seg i) {idx : ℤ} {filled : ℕ}
    (hrows : ∀ bytes, seg.data = .rows bytes →
      ShapeAt shead shape ∧ Sized shape ∧ FilledAt shead idx seg filled) :
    readSegment S true f shead info idx true false =
      .ok (some (seg.readData shape filled), none) := by
  by_cases hstamps : ∃ l, seg.dim = .stamps l
  · obtain ⟨l, hdim⟩ := hstamps
    obtain ⟨bytes, hdata⟩ := h.timed l hdim
    obtain ⟨hshape, hsized, hfilled⟩ := hrows bytes hdata
    exact readSegment_stamps hstores hsmall h hshape hsized hdim hfilled true false
  · have hdim : ∀ l, seg.dim ≠ .stamps l := fun l hl => hstamps ⟨l, hl⟩
    have huntimed : timestamped info = false := by
      cases hd : seg.dim with
      | none => exact timestamped_none h hd
      | stamps l => exact absurd hd (hdim l)
      | record d => exact timestamped_record h hd
    have hdata : ∀ n : ℤ, (∀ bytes, seg.data = .rows bytes → n = filled) →
        readData S f shead info n = .ok (seg.readData shape filled) := by
      intro n hn
      refine readData_spec hstores hsmall h (fun bytes hb => ?_) fun bytes hb => ?_
      · exact ⟨(hrows bytes hb).1, (hrows bytes hb).2.1⟩
      · exact ⟨hn bytes hb, (hrows bytes hb).2.2.le⟩
    have hn : ∀ rows : ℤ, (0 ≤ info.rows.toInt → rows = info.rows.toInt) →
        ∀ bytes, seg.data = .rows bytes →
        (if idx = shead.idx.toInt then shead.nextRow.toInt else rows) = filled := by
      intro rows hr bytes hb
      have hrows' := rows_toInt h hb
      rw [hr (by omega)]
      exact untimed_eq h hdim hb (hrows bytes hb).2.2
    rw [readSegment]
    simp only [if_neg (dataOffset_ne hstores hsmall h), huntimed, Bool.false_eq_true, if_false,
      if_true, bind, Except.bind, Bool.or_false]
    rw [hdata _ (hn _ fun hpos => if_neg (by omega))]
    by_cases hlength : info.dimensionLength ≠ -1
    · rw [if_pos hlength]
      rfl
    · rw [if_neg hlength]
      simp only [Except.map, false_and, if_false]

theorem readSegment_before (hstores : Stores f cells) (hsmall : f.size ≤ rfaLimit)
    (h : SegmentAt S cells shape info seg i) {idx : ℤ} (hidx : idx ≠ shead.idx.toInt)
    (hrows : ∀ bytes, seg.data = .rows bytes → ShapeAt shead shape ∧ Sized shape)
    (hdim : ∀ l, seg.dim ≠ .stamps l) :
    readSegment S true f shead info idx true true =
      .ok (some (seg.readData shape seg.closed),
        some (match seg.dim with
          | .record d => d
          | _ => seg.readData shape seg.closed)) := by
  have hclosed : seg.closed = seg.rows := by
    cases hd : seg.dim with
    | none => simp only [Segment.closed, hd]
    | stamps l => exact absurd hd (hdim l)
    | record d => simp only [Segment.closed, hd]
  have hdata : ∀ n : ℤ, (0 ≤ info.rows.toInt → n = info.rows.toInt) →
      readData S f shead info n = .ok (seg.readData shape seg.closed) := by
    intro n hn
    refine readData_spec hstores hsmall h hrows fun bytes hb => ?_
    have hrows' := rows_toInt h hb
    rw [hn (by omega), hrows', hclosed]
    exact ⟨rfl, Nat.le_refl _⟩
  cases hd : seg.dim with
  | stamps l => exact absurd hd (hdim l)
  | none =>
    have hat := h.dim
    rw [hd] at hat
    rw [readSegment]
    simp only [if_neg (dataOffset_ne hstores hsmall h), timestamped_none h hd, Bool.false_eq_true,
      if_false, if_true, if_neg hidx, hat.1, hat.2, ne_eq, not_true_eq_false, Bool.or_true,
      bind, Except.bind]
    rw [hdata _ fun hpos => if_neg (by omega)]
    rfl
  | record d =>
    have hat := h.dim
    rw [hd] at hat
    have hrecord := treeGetDsc_record hstores hsmall hat
    have hlength : info.dimensionLength ≠ -1 := by
      obtain ⟨_, bytes, _, _, _, hlen, _, hlt⟩ := hat
      intro hneg1
      rw [hlen] at hneg1
      have hval := congrArg BitVec.toInt hneg1
      rw [toInt_ofNat32 hlt] at hval
      have : (-1 : BitVec 32).toInt = -1 := by decide
      omega
    rw [readSegment]
    simp only [if_neg (dataOffset_ne hstores hsmall h), timestamped_record h hd,
      Bool.false_eq_true, if_false, if_true, if_pos hlength, hrecord, bind, Except.bind, hidx,
      false_and, and_false]
    rw [hdata _ fun hpos => if_neg (by omega)]
    rfl

end Data

end MdsPlus.SegmentReads
