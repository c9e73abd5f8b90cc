import MdsPlus.SegmentBegin

/-!
Compressing the segment before. Its contents go to records at the end of the file and
what they read stays; its old storage becomes the place of the new segment.
-/

namespace MdsPlus.SegmentPack

open BitMemory ByteFile Datafile SegmentRecords Segments SegmentNode SegmentLayout
  SegmentReads SegmentPages SegmentWrites

variable {V : Type}

theorem dropZeros_le (l : List (BitVec 64)) (n : ℕ) : dropZeros l n ≤ n := by
  induction n with
  | zero => exact Nat.le_refl _
  | succ n ih =>
    rw [dropZeros]
    by_cases hzero : l.getD n 0 = 0
    · rw [if_pos hzero]
      omega
    · rw [if_neg hzero]

theorem filledStamps_le (l : List (BitVec 64)) : filledStamps l ≤ l.length := by
  rw [filledStamps]
  by_cases h : l.length > 1 ∧ (l.getD (l.length - 2) 0).toInt ≥ 0
  · rw [if_pos h]
    exact dropZeros_le l l.length
  · rw [if_neg h]

theorem index_setSegment (L : Layout V) {i : ℕ} (hi : i < L.node.count) (info : SegmentInfo)
    (seg : Segment V) :
    (Layout.setSegment L i info seg).index (i / 128) =
      { L.index (i / 128) with
        segment := (L.index (i / 128)).segment.set (slotOf (i : ℤ)) info } := by
  have hslot := slotOf_val i
  rw [SegmentIndex.mk.injEq]
  refine ⟨rfl, rfl, ?_⟩
  apply Vector.ext
  intro j hj
  have hcount : (Layout.setSegment L i info seg).node.count = L.node.count := rfl
  rw [index_getElem, Vector.getElem_set, index_getElem, hcount]
  by_cases hself : (slotOf (i : ℤ)).val = j
  · have hsum : 128 * (i / 128) + j = i := by omega
    rw [if_pos hself, hsum, if_pos hi]
    exact Function.update_self _ _ _
  · have hne : 128 * (i / 128) + j ≠ i := by omega
    rw [if_neg hself]
    by_cases hlt : 128 * (i / 128) + j < L.node.count
    · rw [if_pos hlt, if_pos hlt]
      exact Function.update_of_ne hne _ _
    · rw [if_neg hlt, if_neg hlt]

def packedRecords (node : Node V) : List (Dsc V) :=
  .cons (node.last.readData node.shape node.last.closed)
    (match node.last.dim with
    | .stamps l => [.array (stampArray (l.take node.last.closed))]
    | _ => [])

def recordsSize (S : Records V) (compress : ℤ) (records : List (Dsc V)) : ℕ :=
  (records.map fun d => (S.serializeOut compress d).length).sum

/-- A record is below two gigabytes: its length is an int. -/
def RecordsFit (S : Records V) (compress : ℤ) (records : List (Dsc V)) : Prop :=
  ∀ d ∈ records, (S.serializeOut compress d).length < 2 ^ 31

/-- What compressing the last segment does to a call's variables and to the layout. -/
structure Packing (S : Records V) (vars vars' : Vars) (L L' : Layout V) (a : ArrayDsc) : Prop where
  working : Working S vars'.file L' (some (L.node.count / 128))
  node : L'.node = L.node.replace (L.node.count - 1) (L.node.last.pack L.node.shape)
  pageOff : L'.pageOff = L.pageOff
  sindex : vars'.sindex = L'.index (L.node.count / 128)
  shead : ∃ dataOffset dimOffset, vars'.shead = { vars.shead with dataOffset, dimOffset } ∧
    Place L'.cells (.data L.node.count) a.bytes.length dataOffset ∧
    Place L'.cells (.dim L.node.count) (a.lastDim * 8) dimOffset
  kept : ∀ k, k ≠ .data (L.node.count - 1) → k ≠ .data L.node.count →
    k ≠ .dim (L.node.count - 1) → k ≠ .dim L.node.count → L'.cells k = L.cells k
  size : vars'.file.size = vars.file.size +
    recordsSize S vars.compress (packedRecords L.node)
  rest : vars'.raw = vars.raw ∧ vars'.attr = vars.attr ∧ vars'.attrOffset = vars.attrOffset ∧
    vars'.idx = vars.idx ∧ vars'.compress = vars.compress

section Packing

variable {S : Records V} {vars vars' : Vars} {L : Layout V} {a : ArrayDsc}

theorem stores_reuse {κ : Type} [DecidableEq κ] {f : File} {cells : κ → Option Cell} {k : κ}
    {c : Cell} (h : Stores f cells) (hk : cells k = some c) (k' : κ) (hne : k ≠ k')
    (bytes : List Byte) :
    ∃ cells', Stores (f.write f.size bytes) cells' ∧ cells' k = some ⟨f.size, bytes⟩ ∧
      cells' k' = some c ∧ ∀ j, j ≠ k → j ≠ k' → cells' j = cells j := by
  refine ⟨_, (h.move hk k').append k bytes, Function.update_self _ _ _, ?_, fun j hjk hjk' => ?_⟩
  · rw [Function.update_of_ne hne.symm, Function.update_self]
  · rw [Function.update_of_ne hjk, Function.update_of_ne hjk', Function.update_of_ne hjk]

theorem checkCompressDim_spec (h : Working S vars.file L none)
    (hsindex : vars.sindex = L.index (L.node.count / 128)) (hpage : 0 < L.node.count % 128)
    {bytes : List Byte} (hraw : L.node.last.data = .rows bytes)
    (hdim : ∀ l, L.node.last.dim ≠ .stamps l)
    (hsame : L.node.last.rows * L.node.shape.rowBytes = a.bytes.length)
    (hfit : RecordsFit S vars.compress (packedRecords L.node))
    (hroom : vars.file.size + recordsSize S vars.compress (packedRecords L.node) ≤ rfaLimit)
    (hfresh : vars.shead.dimOffset = -1) {dim : Option (Dsc V)} {init : Initial V}
    (hok : checkCompressDim S vars (slotOf ((L.node.count : ℤ) - 1))
      (some (L.node.last.readData L.node.shape L.node.last.closed)) dim init = .ok vars') :
    ∃ L', Packing S vars vars' L L' a := by
  obtain ⟨n, hn⟩ : ∃ n, L.node.count = n + 1 := ⟨L.node.count - 1, by omega⟩
  have hlastIdx : ((L.node.count : ℤ) - 1) = (n : ℤ) := by omega
  have hlast : L.node.last = L.node.seg n := by rw [Node.last, hn, Nat.add_sub_cancel]
  have hpageEq : n / 128 = L.node.count / 128 := by omega
  have hslot : vars.sindex.segment[slotOf (n : ℤ)] = L.info n := by
    rw [hsindex, ← hpageEq]
    exact index_slot L (by omega)
  obtain ⟨d, hd⟩ : ∃ d, d = L.node.last.readData L.node.shape L.node.last.closed := ⟨_, rfl⟩
  have hrecords : packedRecords L.node = [d] := by
    rw [packedRecords, ← hd]
    cases hdim' : L.node.last.dim with
    | none => rfl
    | stamps l => exact absurd hdim' (hdim l)
    | record d => rfl
  rw [hrecords] at hfit hroom
  have hlt := hfit d (List.mem_singleton.mpr rfl)
  have hsum : recordsSize S vars.compress [d] = (S.serializeOut vars.compress d).length := by
    simp [recordsSize]
  have hseg := h.segment n (by omega)
  have hat := hseg.data
  rw [← hlast, hraw] at hat
  obtain ⟨hlen, _, _, off, hcell, hoff⟩ := hat
  obtain ⟨cells', hstores, hrecord, hplace, hkeep⟩ :=
    stores_reuse h.stores hcell (Key.data L.node.count)
      (fun heq => by injection heq with heq; omega) (S.serializeOut vars.compress d)
  obtain ⟨info, hinfo⟩ : ∃ info : SegmentInfo, info = { L.info n with
    dataOffset := BitVec.ofNat 64 vars.file.size
    rows := BitVec.ofNat 32 (S.serializeOut vars.compress d).length ||| 0x80000000 } := ⟨_, rfl⟩
  have hpack : L.node.last.pack L.node.shape = { L.node.seg n with data := .record d } := by
    rw [Segment.pack, ← hd, hlast]
    cases hdim' : (L.node.seg n).dim with
    | none => simp only [hdim']
    | stamps l => exact absurd (hlast ▸ hdim') (hdim l)
    | record d => simp only [hdim']
  have hsegment : SegmentAt S cells' L.node.shape info
      (L.node.last.pack L.node.shape) n := by
    rw [hpack, hinfo]
    refine ⟨⟨_, ?_, rfl⟩, ?_, ?_, ?_, fun l hl => absurd (hlast ▸ hl) (hdim l)⟩
    · rw [hrecord]
      exact recordAt_put S _ _ d hlt
    · rw [hkeep (.dim n) nofun nofun]
      exact hseg.dim
    · rw [hkeep (.start n) nofun nofun]
      exact hseg.start
    · rw [hkeep (.stop n) nofun nofun]
      exact hseg.stop
  have hsize := write_size vars.file (S.serializeOut vars.compress d)
  have hwork := working_setSegment h (i := n) nofun hstores (by omega)
    (fun k hused hdata _ _ _ => hkeep k hdata fun heq => by
      rw [heq] at hused
      exact Nat.lt_irrefl _ hused) hsegment
  rw [hpageEq] at hwork
  simp only [checkCompressDim, hlastIdx, hslot, putDsc_eq, ← hd, Except.ok.injEq] at hok
  subst hok
  refine ⟨_, hwork, ?_, rfl, ?_, ⟨(L.info n).dataOffset, -1, ?_, ?_, Or.inl rfl⟩, ?_, ?_,
    rfl, rfl, rfl, rfl, rfl⟩
  · simp only [Layout.setSegment, hn, Nat.add_sub_cancel]
  · have hindex := index_setSegment { L with cells := cells' } (i := n)
      (show n < L.node.count by omega) info (L.node.last.pack L.node.shape)
    rw [← hpageEq, hindex, hinfo]
    simp only [Vars.setSlot, hsindex, ← hpageEq]
    rfl
  · simp only [Vars.setSlot, ← hfresh]
  · refine Or.inr ⟨off, bytes, hoff, hplace, ?_⟩
    rw [hlen, hsame]
  · intro k hdata hnew _ _
    rw [hn, Nat.add_sub_cancel] at hdata
    exact hkeep k hdata hnew
  · rw [hrecords, hsum]
    exact hsize

theorem checkCompressTs_spec (h : Working S vars.file L none)
    (hsindex : vars.sindex = L.index (L.node.count / 128)) (hpage : 0 < L.node.count % 128)
    {bytes : List Byte} (hraw : L.node.last.data = .rows bytes) {l : List (BitVec 64)}
    (hdim : L.node.last.dim = .stamps l)
    (hsame : L.node.last.rows * L.node.shape.rowBytes = a.bytes.length)
    (hrows : L.node.last.rows = a.lastDim)
    (hfit : RecordsFit S vars.compress (packedRecords L.node))
    (hroom : vars.file.size + recordsSize S vars.compress (packedRecords L.node) ≤ rfaLimit)
    (hok : checkCompressTs S vars (slotOf ((L.node.count : ℤ) - 1))
      (some (L.node.last.readData L.node.shape L.node.last.closed))
      (some (.array (stampArray (l.take L.node.last.closed)))) (.array a) = .ok vars') :
    ∃ L', Packing S vars vars' L L' a := by
  obtain ⟨n, hn⟩ : ∃ n, L.node.count = n + 1 := ⟨L.node.count - 1, by omega⟩
  have hlastIdx : ((L.node.count : ℤ) - 1) = (n : ℤ) := by omega
  have hlast : L.node.last = L.node.seg n := by rw [Node.last, hn, Nat.add_sub_cancel]
  have hpageEq : n / 128 = L.node.count / 128 := by omega
  have hslot : vars.sindex.segment[slotOf (n : ℤ)] = L.info n := by
    rw [hsindex, ← hpageEq]
    exact index_slot L (by omega)
  obtain ⟨filled, hfilled⟩ : ∃ filled, filled = L.node.last.closed := ⟨_, rfl⟩
  obtain ⟨d, hd⟩ : ∃ d, d = L.node.shape.array filled bytes := ⟨_, rfl⟩
  obtain ⟨t, ht⟩ : ∃ t, t = l.take filled := ⟨_, rfl⟩
  have hread : L.node.last.readData L.node.shape filled = .array d := by
    rw [Segment.readData, hraw, hd]
  have hrecords : packedRecords L.node = [.array d, .array (stampArray t)] := by
    simp only [packedRecords, ← hfilled, hread, hdim, ← ht]
  rw [hrecords] at hfit hroom
  have hlt := hfit (.array d) (by simp)
  have hlt' := hfit (.array (stampArray t)) (by simp)
  have hsum : recordsSize S vars.compress [.array d, .array (stampArray t)] =
      (S.serializeOut vars.compress (.array d)).length +
        (S.serializeOut vars.compress (.array (stampArray t))).length := by
    simp [recordsSize]
  have hseg := h.segment n (by omega)
  have hat := hseg.data
  rw [← hlast, hraw] at hat
  obtain ⟨hlen, _, _, off, hcell, hoff⟩ := hat
  have hat := hseg.dim
  rw [← hlast, hdim] at hat
  obtain ⟨hstamps, _, doff, hdcell, hdoff⟩ := hat
  obtain ⟨cells1, hstores1, hrecord1, hplace1, hkeep1⟩ :=
    stores_reuse h.stores hcell (Key.data L.node.count)
      (fun heq => by injection heq with heq; omega) (S.serializeOut vars.compress (.array d))
  have hdcell1 : cells1 (.dim n) = some ⟨doff, stampBytes l⟩ :=
    (hkeep1 (.dim n) (by rintro ⟨⟩) (by rintro ⟨⟩)).trans hdcell
  obtain ⟨file1, hfile1⟩ : ∃ file1, file1 =
    vars.file.write vars.file.size (S.serializeOut vars.compress (.array d)) := ⟨_, rfl⟩
  rw [← hfile1] at hstores1
  obtain ⟨cells2, hstores2, hrecord2, hplace2, hkeep2⟩ :=
    stores_reuse hstores1 hdcell1 (Key.dim L.node.count)
      (fun heq => by injection heq with heq; omega)
      (S.serializeOut vars.compress (.array (stampArray t)))
  obtain ⟨info, hinfo⟩ : ∃ info : SegmentInfo, info =
    { start := { (L.info n).start with value := t.getD 0 0 }
      stop := { (L.info n).stop with value := t.getD (t.length - 1) 0 }
      dimensionOffset := BitVec.ofNat 64 file1.size
      dimensionLength :=
        BitVec.ofNat 32 (S.serializeOut vars.compress (.array (stampArray t))).length
      dataOffset := BitVec.ofNat 64 vars.file.size
      rows := BitVec.ofNat 32 (S.serializeOut vars.compress (.array d)).length |||
        0x80000000 } := ⟨_, rfl⟩
  have hpack : L.node.last.pack L.node.shape =
      { L.node.seg n with
        data := .record (.array d)
        dim := .record (.array (stampArray t))
        start := { (L.node.seg n).start with value := t.getD 0 0 }
        stop := { (L.node.seg n).stop with value := t.getD (t.length - 1) 0 } } := by
    simp only [Segment.pack, ← hfilled, hread, hdim, ← ht]
    rw [hlast]
  have hsegment : SegmentAt S cells2 L.node.shape info (L.node.last.pack L.node.shape) n := by
    rw [hpack, hinfo]
    refine ⟨⟨_, ?_, rfl⟩, ?_, ⟨rfl, ?_⟩, ⟨rfl, ?_⟩, (by rintro _ ⟨⟩)⟩
    · rw [hkeep2 (.data n) (by rintro ⟨⟩) (by rintro ⟨⟩), hrecord1]
      exact recordAt_put S _ _ _ hlt
    · change RecordAt S (cells2 (.dim n)) _ _ _
      rw [hrecord2]
      exact recordAt_put S _ _ _ hlt'
    · rw [hkeep2 (.start n) (by rintro ⟨⟩) (by rintro ⟨⟩),
        hkeep1 (.start n) (by rintro ⟨⟩) (by rintro ⟨⟩)]
      exact hseg.start.2
    · rw [hkeep2 (.stop n) (by rintro ⟨⟩) (by rintro ⟨⟩),
        hkeep1 (.stop n) (by rintro ⟨⟩) (by rintro ⟨⟩)]
      exact hseg.stop.2
  have hsize1 := write_size vars.file (S.serializeOut vars.compress (.array d))
  rw [← hfile1] at hsize1
  have hsize2 := write_size file1 (S.serializeOut vars.compress (.array (stampArray t)))
  have hwork := working_setSegment h (i := n) (by rintro _ ⟨⟩) hstores2 (by omega)
    (fun k hused hdata hdim _ _ => by
      have hnew : k ≠ .dim L.node.count := by
        intro heq
        rw [heq] at hused
        exact Nat.lt_irrefl _ hused
      have hnew' : k ≠ .data L.node.count := by
        intro heq
        rw [heq] at hused
        exact Nat.lt_irrefl _ hused
      rw [hkeep2 k hdim hnew, hkeep1 k hdata hnew']) hsegment
  rw [hpageEq] at hwork
  have hstampsOf : stampsOf (stampArray t).bytes = t := stampsOf_stampBytes t
  have hlength : (stampArray t).bytes.length / 8 - 1 = t.length - 1 := by
    change (stampBytes t).length / 8 - 1 = _
    rw [length_stampBytes, Nat.mul_div_cancel _ (by decide)]
  rw [← hfilled, hread, ← ht] at hok
  simp only [checkCompressTs, hlastIdx, hslot, putDsc_eq, hstampsOf, hlength, ← hfile1] at hok
  split_ifs at hok with hfull
  cases hok
  refine ⟨_, hwork, ?_, rfl, ?_, ⟨(L.info n).dataOffset, (L.info n).dimensionOffset, rfl, ?_, ?_⟩,
    ?_, ?_, rfl, rfl, rfl, rfl, rfl⟩
  · simp only [Layout.setSegment, hn, Nat.add_sub_cancel]
  · have hindex := index_setSegment { L with cells := cells2 } (i := n)
      (show n < L.node.count by omega) info (L.node.last.pack L.node.shape)
    rw [← hpageEq, hindex, hinfo]
    simp only [Vars.setSlot, hsindex, ← hpageEq]
    rfl
  · refine Or.inr ⟨off, bytes, hoff, ?_, ?_⟩
    · exact (hkeep2 (.data L.node.count) (by rintro ⟨⟩) (by rintro ⟨⟩)).trans hplace1
    · rw [hlen, hsame]
  · refine Or.inr ⟨doff, stampBytes l, hdoff, hplace2, ?_⟩
    rw [length_stampBytes, hstamps, hrows]
  · intro k hdata hnew hdim hnew'
    rw [hn, Nat.add_sub_cancel] at hdata hdim
    exact (hkeep2 k hdim hnew').trans (hkeep1 k hdata hnew)
  · rw [hrecords, hsum]
    change (file1.write file1.size _).size = _
    omega

end Packing

end MdsPlus.SegmentPack
