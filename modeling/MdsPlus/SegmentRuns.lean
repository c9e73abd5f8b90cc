import MdsPlus.SegmentPuts
import Mathlib.Logic.Equiv.List

/-!
Runs of accepted calls on one node. As long as each call keeps to what the segments
have, every segment is found in its own slot and reads what was put into it.
-/

namespace MdsPlus.SegmentRuns

open BitMemory ByteFile Datafile SegmentRecords Segments SegmentNode SegmentLayout
  SegmentReads SegmentPages SegmentWrites SegmentBegin SegmentPack SegmentOpen SegmentMake
  SegmentPuts Outcome

variable {V : Type}

/-- Calls that change the segments of a node. Whether a call compresses depends on flags
of the node, which may change from call to call. -/
inductive Op (V : Type)
  | makeSegment (compress : ℤ) (start stop dimension : Option (Dsc V)) (initialValue : Dsc V)
      (idx rowsFilled : ℤ)
  | makeTimestampedSegment (compress : ℤ) (timestamps : Option (List (BitVec 64)))
      (initialValue : Dsc V) (idx rowsFilled : ℤ)
  | putSegment (startIdx : ℤ) (data : ArrayDsc)
  | putTimestampedSegment (timestamps : List (BitVec 64)) (data : ArrayDsc)
  | updateSegment (compress : ℤ) (start stop dimension : Option (Dsc V)) (idx : ℤ)
  | setRowsFilled (rowsFilled : ℤ)

def step (S : Records V) (s : State) : Op V → Except Status State
  | .makeSegment compress start stop dimension initialValue idx rowsFilled =>
      makeSegment S s compress start stop dimension initialValue idx rowsFilled
  | .makeTimestampedSegment compress timestamps initialValue idx rowsFilled =>
      makeTimestampedSegment S s compress timestamps initialValue idx rowsFilled
  | .putSegment startIdx data => putSegment s startIdx data
  | .putTimestampedSegment timestamps data => putTimestampedSegment s timestamps data
  | .updateSegment compress start stop dimension idx =>
      updateSegment S s compress start stop dimension idx
  | .setRowsFilled rowsFilled => setRowsFilled s rowsFilled

def applied (node : Node V) : Op V → Node V
  | .makeSegment compress start stop dimension initialValue _ rowsFilled =>
      match checkInput initialValue with
      | .ok init => node.close.makeSegment compress start stop dimension init rowsFilled
      | .error _ => node
  | .makeTimestampedSegment compress timestamps initialValue _ rowsFilled =>
      match checkInput initialValue with
      | .ok init => node.close.makeTimestampedSegment compress timestamps init rowsFilled
      | .error _ => node
  | .putSegment startIdx data => node.putSegment startIdx data
  | .putTimestampedSegment timestamps data => node.putTimestampedSegment timestamps data
  | .updateSegment _ start stop dimension idx =>
      node.updateSegment start stop dimension idx.toNat
  | .setRowsFilled rowsFilled => node.setRowsFilled rowsFilled

structure Writable (S : Records V) (s : State) (compress : ℤ) (records : List (Dsc V))
    (bytes : ℕ) : Prop where
  fit : RecordsFit S compress records
  room : s.file.size + bytes + recordsSize S compress records + indexBytes ≤ rfaLimit

/-- A segment may begin: its rows are like those the node has, no more rows are filled
than there are, and the filled rows of the last segment can be told from its timestamps. -/
structure Begins (s : State) (node : Node V) (init : Initial V) (rowsFilled : ℤ) : Prop where
  joins : Joins node init
  filled : Filled init rowsFilled
  told : 0 < node.count → ∀ l, node.last.dim = .stamps l → filledStamps l = node.nextRow
  count_lt : node.count + 1 < 2 ^ 31
  nonempty : ∀ a, init = .array a → 0 < s.file.size + a.bytes.length

/-- Calls under which nothing is lost. The segment before is compressed by a call of its
own kind only, timestamps are put where the segment has timestamps, and the rows said to
be filled are there. -/
def Sound (S : Records V) (s : State) (node : Node V) : Op V → Prop
  | .makeSegment compress start stop dimension initialValue _ rowsFilled =>
      ∀ init, checkInput initialValue = .ok init →
        Begins s node init rowsFilled ∧
        (∀ a l, init = .array a → node.compresses compress a → node.last.dim ≠ .stamps l) ∧
        Writable S s compress (makeRecords node.close compress start stop dimension init)
          init.addLength
  | .makeTimestampedSegment compress _ initialValue _ rowsFilled =>
      ∀ init, checkInput initialValue = .ok init →
        Begins s node init rowsFilled ∧
        (∀ a, init = .array a → node.compresses compress a → ∃ l, node.last.dim = .stamps l) ∧
        Writable S s compress (packedBy node.close compress init ++ initialRecords init)
          (init.addLength + (bare init).rows * 8)
  | .putSegment _ _ => True
  | .putTimestampedSegment _ _ => ∃ l, node.last.dim = .stamps l
  | .updateSegment compress start stop dimension _ =>
      Writable S s compress (dimRecords start stop dimension) 0
  | .setRowsFilled rowsFilled =>
      node.shape.dtype ≠ DTYPE_OPAQUE → rowsFilled ≤ node.last.rows

theorem last_fill (node : Node V) (n : ℕ) :
    (node.fill n).last = { node.last with filled := n } := Function.update_self _ _ _

theorem last_close (node : Node V) :
    node.close.last = { node.last with filled := node.nextRow } := Function.update_self _ _ _

theorem compresses_close (node : Node V) (compress : ℤ) (a : ArrayDsc) :
    node.close.compresses compress a ↔ node.compresses compress a := by
  rw [Node.compresses, last_close]
  exact Iff.rfl

section Steps

variable {S : Records V} {s s' : State} {L : Layout V}

theorem laid_fill (h : Laid S s L) (n : ℕ) : Laid S s { L with node := L.node.fill n } := by
  have hother : ∀ i, i ≠ L.node.count - 1 → (L.node.fill n).seg i = L.node.seg i :=
    fun i hi => Function.update_of_ne hi _ _
  have hlast := last_fill L.node n
  refine ⟨⟨h.working.stores, h.working.small, fun i hi => ?_, h.working.page, h.working.pos,
    h.working.rising, h.working.count_lt⟩, ⟨fun hopaque i hi => ?_, fun hne hpos => ?_,
    h.proper.sized, fun hne hpos => ?_, h.proper.opaque_shape, fun hne hpos => ?_,
    fun i hi => ?_⟩, fun hpos => ?_, fun hzero => ⟨(h.unsegmented hzero).attributes⟩⟩
  · change SegmentAt S L.cells L.node.shape (L.info i) ((L.node.fill n).seg i) i
    have hseg := h.working.segment i hi
    by_cases hi' : i = L.node.count - 1
    · subst hi'
      change SegmentAt S L.cells L.node.shape (L.info (L.node.count - 1)) (L.node.fill n).last _
      rw [hlast]
      exact ⟨hseg.data, hseg.dim, hseg.start, hseg.stop, hseg.timed⟩
    · rw [hother i hi']
      exact hseg
  · obtain ⟨d, hd⟩ := h.proper.opaque_record hopaque i hi
    by_cases hi' : i = L.node.count - 1
    · subst hi'
      refine ⟨d, ?_⟩
      change (L.node.fill n).last.data = _
      rw [hlast]
      exact hd
    · exact ⟨d, by rw [hother i hi']; exact hd⟩
  · obtain ⟨bytes, hb⟩ := h.proper.last_rows hne hpos
    refine ⟨bytes, ?_⟩
    rw [hlast]
    exact hb
  · change L.node.nextRow ≤ (L.node.fill n).last.rows
    rw [hlast]
    exact h.proper.nextRow_le hne hpos
  · change (L.node.fill n).last.rows * L.node.shape.rowBytes < 2 ^ 31
    rw [hlast]
    exact h.proper.size_lt hne hpos
  · change i + 1 < L.node.count at hi
    rw [hother i (by omega)]
    exact h.proper.told i hi
  · obtain ⟨attr, shead, attrOff, headOff, hh⟩ := h.headed hpos
    have hcontent := hh.header_at.content
    refine ⟨attr, shead, attrOff, headOff, hh.extendedNci, hh.rfa, hh.attributes, hh.facility,
      hh.header, ⟨hcontent.dtype, hcontent.dimct, hcontent.idx, hcontent.shape, fun hne => ?_,
      hcontent.nextRow, hcontent.dataOffset, fun l hl => ?_⟩, hh.header_at.indexOffset⟩
    · change _ = BitVec.ofNat 32 (L.node.fill n).last.rows
      rw [hlast]
      exact hcontent.rows hne
    · change (L.node.fill n).last.dim = .stamps l at hl
      rw [hlast] at hl
      exact hcontent.dimOffset l hl

theorem laid_close (h : Laid S s L) : Laid S s { L with node := L.node.close } :=
  laid_fill h L.node.nextRow

theorem told_close {node : Node V}
    (h : 0 < node.count → ∀ l, node.last.dim = .stamps l → filledStamps l = node.nextRow)
    (hpos : 0 < node.close.count) : Told node.close.last := by
  intro l hl
  rw [last_close] at hl ⊢
  exact h hpos l hl

theorem joins_close {node : Node V} {init : Initial V} (h : Joins node init) :
    Joins node.close init := ⟨h.formed, h.length⟩

theorem step_follows (h : Laid S s L) {op : Op V} (hsound : Sound S s L.node op)
    (hok : step S s op = .ok s') : ∃ L', Follows S s s' L L' (applied L.node op) := by
  cases op with
  | makeSegment compress start stop dimension initialValue idx rowsFilled =>
    change makeSegment S s compress start stop dimension initialValue idx rowsFilled = .ok s' at hok
    cases hinit : checkInput initialValue with
    | error e => simp [makeSegment, beginSegment, hinit, bind, Except.bind] at hok
    | ok init =>
      obtain ⟨hbegins, hpack, hwritable⟩ := hsound init hinit
      have hroom := hwritable.room
      obtain ⟨L', hf⟩ := makeSegment_spec (laid_close h) (joins_close hbegins.joins)
        hbegins.count_lt hbegins.filled (told_close hbegins.told)
        (fun a l ha hcomp => by
          rw [last_close]
          exact hpack a l ha ((compresses_close L.node compress a).mp hcomp))
        hwritable.fit (by simp only; omega) hbegins.nonempty hinit hok
      refine ⟨L', hf.laid, ?_, hf.others, ?_⟩
      · rw [hf.node]
        simp only [applied, hinit]
      · simp only [applied, hinit]
        exact hf.raw
  | makeTimestampedSegment compress timestamps initialValue idx rowsFilled =>
    change makeTimestampedSegment S s compress timestamps initialValue idx rowsFilled = .ok s' at hok
    cases hinit : checkInput initialValue with
    | error e => simp [makeTimestampedSegment, beginSegment, hinit, bind, Except.bind] at hok
    | ok init =>
      obtain ⟨hbegins, hpack, hwritable⟩ := hsound init hinit
      have hroom := hwritable.room
      obtain ⟨L', hf⟩ := makeTimestampedSegment_spec (laid_close h) (joins_close hbegins.joins)
        hbegins.count_lt hbegins.filled (told_close hbegins.told)
        (fun a ha hcomp => by
          rw [last_close]
          exact hpack a ha ((compresses_close L.node compress a).mp hcomp))
        hwritable.fit (by simp only; omega) hbegins.nonempty hinit hok
      refine ⟨L', hf.laid, ?_, hf.others, ?_⟩
      · rw [hf.node]
        simp only [applied, hinit]
      · simp only [applied, hinit]
        exact hf.raw
  | putSegment startIdx data => exact (putSegment_spec h hok).2
  | putTimestampedSegment timestamps data => exact (putTimestampedSegment_spec h hsound hok).2
  | updateSegment compress start stop dimension idx =>
    have hroom := hsound.room
    exact (updateSegment_spec h hsound.fit (by omega) hok).2.2
  | setRowsFilled rowsFilled => exact (setRowsFilled_spec h hsound hok).2

end Steps

/-- The pages from one on: the next is 128 segments before, the first starts with
segment zero. -/
def Chain (f : File) : ℕ → Offset → Prop
  | 0, offset => ∃ sindex, getRecord segmentIndex f offset = some sindex ∧
      sindex.firstIdx = 0 ∧ sindex.previousOffset = -1
  | p + 1, offset => ∃ sindex, getRecord segmentIndex f offset = some sindex ∧
      sindex.firstIdx.toInt = 128 * (p + 1) ∧ sindex.previousOffset.toInt > 0 ∧
      Chain f p sindex.previousOffset

structure Kept (S : Records V) (s : State) (node : Node V) : Prop where
  numSegments : treeGetNumSegments s = node.count
  chain : 0 < node.count → ∃ shead sindex, openIndexRead s = .ok (shead, sindex) ∧
    Chain s.file ((node.count - 1) / 128) shead.indexOffset
  slot : ∀ i < node.count, ∃ v, getSegment s i = .ok v ∧ v.idx = i ∧
    v.sindex.firstIdx.toInt + (slotOf v.idx : ℕ) = i
  data : ∀ i < node.count,
    treeGetSegment S s i true false = .ok (some (node.readData i), none)
  both : ∀ i < node.count, (i + 1 < node.count ∨ ∃ l, (node.seg i).dim = .stamps l) →
    treeGetSegment S s i true true = .ok (some (node.readData i), some (node.readDim i))

section Kept

variable {S : Records V} {s : State} {L : Layout V}

theorem chain_page {f : File} (h : Working S f L none) (p : ℕ) (hp : 128 * p < L.node.count) :
    Chain f p (BitVec.ofNat 64 (L.pageOff p)) := by
  induction p with
  | zero => exact ⟨_, h.getRecord_page hp, rfl, rfl⟩
  | succ p ih =>
    obtain ⟨hprevious, hpos⟩ := h.previousOffset_toInt hp
    refine ⟨_, h.getRecord_page hp, ?_, hpos, ?_⟩
    · rw [h.firstIdx_toInt hp]
      push_cast
      rfl
    · rw [hprevious]
      exact ih (by omega)

theorem rows_of_data (h : Laid S s L) {i : ℕ} (hi : i < L.node.count) {bytes : List Byte}
    (hdata : (L.node.seg i).data = .rows bytes) : L.node.shape.dtype ≠ DTYPE_OPAQUE := by
  intro hopaque
  obtain ⟨d, hd⟩ := h.proper.opaque_record hopaque i hi
  rw [hd] at hdata
  cases hdata

theorem closed_le (h : Laid S s L) {i : ℕ} (hi : i + 1 < L.node.count) :
    (L.node.seg i).closed ≤ (L.node.seg i).rows := by
  have hdim := (h.working.segment i (by omega)).dim
  cases hd : (L.node.seg i).dim with
  | none => simp only [Segment.closed, hd, le_refl]
  | record d => simp only [Segment.closed, hd, le_refl]
  | stamps l =>
    rw [hd] at hdim
    have hle := filledStamps_le l
    rw [h.proper.told i hi l hd, hdim.1] at hle
    simp only [Segment.closed, hd]
    exact hle

theorem filledAt (h : Laid S s L) {shead : SegmentHeader} (hh : HeaderAt L shead) {i : ℕ}
    (hi : i < L.node.count) (hrows : L.node.shape.dtype ≠ DTYPE_OPAQUE) :
    FilledAt shead i (L.node.seg i) (L.node.filled i) := by
  have hcount : 0 < L.node.count := by omega
  have hidx := idx_toInt h hcount hh
  by_cases hlast : i + 1 = L.node.count
  · have hi' : i = L.node.count - 1 := by omega
    rw [Node.filled, if_pos hlast]
    refine ⟨fun _ => nextRow_toInt h hcount hrows hh, fun hne => absurd ?_ hne, ?_⟩
    · rw [hidx]
      omega
    · rw [hi']
      exact h.proper.nextRow_le hrows hcount
  · rw [Node.filled, if_neg hlast]
    refine ⟨fun heq => absurd (heq.trans hidx) (by omega), fun _ => ⟨rfl, ?_⟩, ?_⟩
    · exact h.proper.told i (by omega)
    · exact closed_le h (by omega)

theorem kept_of_laid (h : Laid S s L) : Kept S s L.node where
  numSegments := by
    rw [treeGetNumSegments]
    by_cases hcount : L.node.count = 0
    · rw [loadHeader_none h hcount, hcount]
      rfl
    · obtain ⟨attr, shead, attrOff, headOff, hh⟩ := h.headed (by omega)
      obtain ⟨_, _, hattr, hhead⟩ := loadHeader h hh
      have hidx := idx_toInt h (by omega) hh.header_at
      rw [hattr, Option.bind_some, hhead]
      simp only [hidx]
      omega
  chain hcount := by
    obtain ⟨attr, shead, attrOff, headOff, hh⟩ := h.headed hcount
    obtain ⟨_, _, hattr, hhead⟩ := loadHeader h hh
    have hindex := loadIndex h hcount hh.header_at
    refine ⟨shead, L.index ((L.node.count - 1) / 128), ?_, ?_⟩
    · simp only [openIndexRead, hattr, hhead, hindex]
    · rw [hh.header_at.indexOffset]
      exact chain_page h.working _ (by omega)
  slot i hi := by
    obtain ⟨shead, _, hget⟩ := getSegment_eq h hi
    refine ⟨_, hget, rfl, ?_⟩
    have hslot := slotOf_val i
    have hfirst := h.working.firstIdx_toInt (p := i / 128) (by omega)
    simp only [hfirst, hslot]
    push_cast
    omega
  data i hi := by
    obtain ⟨shead, hh, hget⟩ := getSegment_eq h hi
    have hseg := h.working.segment i hi
    have hread : readSegment S true s.file shead (L.info i) i true false =
        .ok (some (L.node.readData i), none) :=
      readSegment_data h.working.stores h.working.small hseg fun bytes hb => by
        have hrows := rows_of_data h hi hb
        exact ⟨hh.content.shape hrows, h.proper.sized hrows (by omega), filledAt h hh hi hrows⟩
    have hslot : Found.sinfo ⟨shead, L.index (i / 128), i⟩ = L.info i := index_slot L hi
    simp only [treeGetSegment, hget, bind, Except.bind, hslot]
    exact hread
  both i hi hwhen := by
    obtain ⟨shead, hh, hget⟩ := getSegment_eq h hi
    have hseg := h.working.segment i hi
    have hslot : Found.sinfo ⟨shead, L.index (i / 128), i⟩ = L.info i := index_slot L hi
    simp only [treeGetSegment, hget, bind, Except.bind, hslot]
    by_cases hstamps : ∃ l, (L.node.seg i).dim = .stamps l
    · obtain ⟨l, hl⟩ := hstamps
      obtain ⟨bytes, hb⟩ := hseg.timed l hl
      have hrows := rows_of_data h hi hb
      have hread := readSegment_stamps h.working.stores h.working.small hseg
        (hh.content.shape hrows) (h.proper.sized hrows (by omega)) hl (filledAt h hh hi hrows)
        true true
      rw [hread, Node.readDim, hl]
      rfl
    · have hbefore : i + 1 < L.node.count := hwhen.resolve_right hstamps
      have hdim : ∀ l, (L.node.seg i).dim ≠ .stamps l := fun l hl => hstamps ⟨l, hl⟩
      have hidx := idx_toInt h (by omega) hh
      have hne : (i : ℤ) ≠ shead.idx.toInt := by
        rw [hidx]
        omega
      have hread := readSegment_before h.working.stores h.working.small hseg hne (fun bytes hb => by
        have hrows := rows_of_data h hi hb
        exact ⟨hh.content.shape hrows, h.proper.sized hrows (by omega)⟩) hdim
      have hfilled : L.node.filled i = (L.node.seg i).closed := by
        rw [Node.filled, if_neg (by omega)]
      rw [hread, Node.readDim, Node.readData, hfilled]
      cases hd : (L.node.seg i).dim with
      | none => rfl
      | stamps l => exact absurd hd (hdim l)
      | record d => rfl

end Kept

section Runs

variable {S : Records V} {s s' : State} {L : Layout V} {ops : List (Op V)} {node : Node V}

/-- The node lies in the file as the contents say, besides the other records. -/
def Lies (S : Records V) (others : ℕ → Option Cell) (p : State × Node V) : Prop :=
  ∃ L, Laid S p.1 L ∧ L.node = p.2 ∧ ∀ k, L.cells (.other k) = others k

/-- Sound steps of a machine that carries the contents along. -/
def SoundRun (S : Records V) (p : State × Node V) (op : Op V) : Prop := Sound S p.1 p.2 op

/-- Where every good call follows the contents, the node lies in its file as they say after an
accepted run of good calls, and the other records of the file are where they were. -/
theorem lies_of_follows {others : ℕ → Option Cell} {spec : Node V → Op V → Node V}
    {good : State × Node V → Op V → Prop} {p p' : State × Node V}
    (hfollows : ∀ s L op s', Laid S s L → good (s, L.node) op → step S s op = .ok s' →
      ∃ L', Follows S s s' L L' (spec L.node op))
    (h : Lies S others p) (hadm : Admissible (withSpec (step S) spec) good p ops)
    (hrun : run (withSpec (step S) spec) p ops = .ok p') : Lies S others p' := by
  refine run_preserves ?_ p ops p' h hadm hrun
  rintro ⟨s1, node⟩ op p2 ⟨L1, hlaid, rfl, hothers⟩ hgood hok
  obtain ⟨hstep, hspec⟩ := withSpec_eq_ok.mp hok
  obtain ⟨L2, hf⟩ := hfollows s1 L1 op p2.1 hlaid hgood hstep
  exact ⟨L2, hf.laid, hf.node.trans hspec.symm, fun k => (hf.others k).trans (hothers k)⟩

theorem lies_run {others : ℕ → Option Cell} {p p' : State × Node V} (h : Lies S others p)
    (hadm : Admissible (withSpec (step S) applied) (SoundRun S) p ops)
    (hrun : run (withSpec (step S) applied) p ops = .ok p') : Lies S others p' :=
  lies_of_follows (fun _ _ _ _ hlaid => step_follows hlaid) h hadm hrun

end Runs

section EmptyFile

/-- A datafile with nothing in it, and a node that was never written. -/
def emptyFile : State := ⟨⟨0, fun _ => 0⟩, false, Vector.replicate 6 0, []⟩

def emptyLayout : Layout V := ⟨fun _ => none, fun _ => 0, fun _ => emptyInfo, Node.empty⟩

theorem laid_emptyFile (S : Records V) : Laid S emptyFile emptyLayout where
  working :=
    { stores := ⟨nofun, nofun⟩
      small := Nat.zero_le _
      segment := fun i hi => absurd hi (Nat.not_lt_zero i)
      page := fun _ hp => absurd hp (Nat.not_lt_zero _)
      pos := fun _ hp => absurd hp (Nat.not_lt_zero _)
      rising := fun _ hp => absurd hp (Nat.not_lt_zero _)
      count_lt := Nat.two_pow_pos 31 }
  proper :=
    { opaque_record := fun _ i hi => absurd hi (Nat.not_lt_zero i)
      last_rows := fun _ hpos => absurd hpos (Nat.lt_irrefl 0)
      sized := fun _ hpos => absurd hpos (Nat.lt_irrefl 0)
      nextRow_le := fun _ hpos => absurd hpos (Nat.lt_irrefl 0)
      opaque_shape := fun _ hpos => absurd hpos (Nat.lt_irrefl 0)
      size_lt := fun _ hpos => absurd hpos (Nat.lt_irrefl 0)
      told := fun _ hi => absurd hi (Nat.not_lt_zero _) }
  headed hpos := absurd hpos (Nat.lt_irrefl 0)
  unsegmented _ := ⟨nofun⟩

instance encodableBitVec (n : ℕ) : Encodable (BitVec n) :=
  Encodable.ofLeftInverse BitVec.toFin BitVec.ofFin fun _ => rfl

instance : Encodable ArrayDsc :=
  Encodable.ofLeftInverse (fun a => (a.dtype, a.length, a.dims, a.bytes))
    (fun p => ⟨p.1, p.2.1, p.2.2.1, p.2.2.2⟩) fun _ => rfl

def sumOf : Dsc Unit → BitVec 64 ⊕ ArrayDsc ⊕ Bool
  | .quadword q => .inl q
  | .array a => .inr (.inl a)
  | .opaqueRecord _ => .inr (.inr true)
  | .other _ => .inr (.inr false)

def ofSum : BitVec 64 ⊕ ArrayDsc ⊕ Bool → Dsc Unit
  | .inl q => .quadword q
  | .inr (.inl a) => .array a
  | .inr (.inr true) => .opaqueRecord ()
  | .inr (.inr false) => .other ()

instance : Encodable (Dsc Unit) :=
  Encodable.ofLeftInverse sumOf ofSum fun d => by cases d <;> rfl

/-- Descriptors in unary: as many bytes as the number of the descriptor says. -/
def unary : Records Unit where
  serializeOut _ d := List.replicate (Encodable.encode d + 1) 0
  serializeIn bytes := Encodable.decode (bytes.length - 1)
  in_out _ d := by rw [List.length_replicate, Nat.add_sub_cancel, Encodable.encodek]
  out_pos _ d := by simp
  trimLastSegment _ d := .ok d

def bytesOf (rows : List Byte) : ArrayDsc := ⟨2, 1, [rows.length], rows⟩

def makeTwo : Op Unit := .makeSegment (-1) none none none (.array (bytesOf [7, 0])) (-1) 1

theorem sound_makeTwo : Sound unary emptyFile Node.empty makeTwo := by
  intro init hinit
  obtain rfl : Initial.array (bytesOf [7, 0]) = init := Except.ok.inj hinit
  refine ⟨⟨⟨fun a ha => ?_, fun a _ hpos => absurd hpos (Nat.lt_irrefl 0)⟩, fun a ha => ?_,
    fun hpos => absurd hpos (Nat.lt_irrefl 0), by decide, fun a ha => ?_⟩,
    fun a l _ hcomp => absurd hcomp.1 (Nat.lt_irrefl 0), nofun, by decide⟩
  · injection ha with ha
    subst ha
    constructor <;> decide
  · injection ha with ha
    subst ha
    decide
  · injection ha with ha
    subst ha
    decide

end EmptyFile

section Main

variable {S : Records V} {s s' : State} {L : Layout V} {ops : List (Op V)} {node : Node V}

/-- The index pages stay well formed, and every segment is found in its own slot and
reads what was last put into it, at any number of segments. -/
theorem readSegment_run (h : Laid S s L)
    (hadm : Admissible (withSpec (step S) applied) (SoundRun S) (s, L.node) ops)
    (hrun : run (withSpec (step S) applied) (s, L.node) ops = .ok (s', node)) :
    Kept S s' node := by
  obtain ⟨L', hlaid, hnode, _⟩ := lies_run ⟨L, h, rfl, fun _ => rfl⟩ hadm hrun
  have hkept := kept_of_laid hlaid
  rw [hnode] at hkept
  exact hkept

theorem exists_run {α : Type} (S : Records V) (s : State) (node : Node V) (ops : List (Op V))
    (value : State × Node V → α) {a : α}
    (h : (run (withSpec (step S) applied) (s, node) ops).toOption.map value = some a) :
    ∃ s' node', run (withSpec (step S) applied) (s, node) ops = .ok (s', node') ∧
      value (s', node') = a := by
  obtain ⟨p, hrun, hvalue⟩ := exists_value value h
  exact ⟨p.1, p.2, hrun, hvalue⟩

def twoRows : List (Op Unit) := [makeTwo, .putSegment (-1) (bytesOf [8]), .setRowsFilled 2]

theorem readSegment_run_two : ∃ s' node,
    run (withSpec (step unary) applied) (emptyFile, Node.empty) twoRows = .ok (s', node) ∧
    Kept unary s' node := by
  obtain ⟨s', node, hrun, _⟩ :=
    exists_run (a := ()) unary emptyFile Node.empty twoRows (fun _ => ()) (by decide +kernel)
  have hadm : Admissible (withSpec (step unary) applied) (SoundRun unary)
      (emptyFile, Node.empty) twoRows := by
    refine ⟨sound_makeTwo, fun p1 hp1 => ⟨trivial, fun p2 hp2 => ⟨fun _ => ?_, fun _ _ => trivial⟩⟩⟩
    obtain ⟨_, hnode1⟩ := withSpec_eq_ok.mp hp1
    obtain ⟨_, hnode2⟩ := withSpec_eq_ok.mp hp2
    rw [hnode2, hnode1]
    decide
  exact ⟨s', node, hrun, readSegment_run (laid_emptyFile unary) hadm hrun⟩

/-- A character string of one letter, then one of two. -/
def letters : List (Op Unit) :=
  [.makeSegment (-1) none none none (.array ⟨14, 1, [1], [65]⟩) (-1) 1,
    .makeSegment (-1) none none none (.array ⟨14, 2, [1], [66, 67]⟩) (-1) 1]

def bytesIn : Dsc Unit → List Byte
  | .array a => a.bytes
  | _ => []

def segmentBytes (s : State) (i : ℤ) : List Byte :=
  match treeGetSegment unary s i true false with
  | .ok (some d, _) => bytesIn d
  | _ => []

/-- The element length of the second segment is taken for the first as well: where one
byte was written two are read. -/
theorem readSegment_run_letters : ∃ s' node,
    run (withSpec (step unary) applied) (emptyFile, Node.empty) letters = .ok (s', node) ∧
    bytesIn (node.readData 0) = [65] ∧ segmentBytes s' 0 = [65, 255] ∧ ¬ Kept unary s' node := by
  obtain ⟨s', node, hrun, hvalue⟩ :=
    exists_run unary emptyFile Node.empty letters
      (fun p => (p.2.count, bytesIn (p.2.readData 0), segmentBytes p.1 0))
      (a := (2, [65], [65, 255])) (by decide +kernel)
  simp only [Prod.mk.injEq] at hvalue
  obtain ⟨hcount, hput, hread⟩ := hvalue
  refine ⟨s', node, hrun, hput, hread, fun hkept => ?_⟩
  have hdata := hkept.data 0 (by omega)
  rw [Nat.cast_zero] at hdata
  rw [segmentBytes, hdata] at hread
  simp only [hput] at hread
  cases hread

/-- The range of a raw write has nothing in common with the record. -/
def Clear (w : ℕ × ℕ) (c : Cell) : Prop := w.1 + w.2 ≤ c.off ∨ c.off + c.bytes.length ≤ w.1

theorem clear_of_inCell {f : File} {cells : Key → Option Cell} (h : Stores f cells) {j k : Key}
    (hjk : j ≠ k) {w : ℕ × ℕ} (hw : InCell cells j w) {c : Cell} (hk : cells k = some c) :
    Clear w c := by
  obtain ⟨d, hd, hlow, hhigh⟩ := hw
  rcases h.disjoint j k d c hjk hd hk with hbefore | hafter
  · exact Or.inl (by omega)
  · exact Or.inr (by omega)

/-- After any accepted run of sound calls, what the next one writes raw is in the storage
of the last segment and clear of every other record in the datafile. -/
theorem rawWrites_run {others : ℕ → Option Cell} {p p' : State × Node V} (h : Lies S others p)
    (hadm : Admissible (withSpec (step S) applied) (SoundRun S) p ops)
    (hrun : run (withSpec (step S) applied) p ops = .ok p') {op : Op V} (hsound : SoundRun S p' op)
    (hok : step S p'.1 op = .ok s') :
    ∃ L new, Laid S s' L ∧ L.node = applied p'.2 op ∧ (∀ k, L.cells (.other k) = others k) ∧
      s'.raw = p'.1.raw ++ new ∧ ∀ w ∈ new, Inside L.cells (L.node.count - 1) w ∧
        ∀ k c, k ≠ .data (L.node.count - 1) → k ≠ .dim (L.node.count - 1) →
          L.cells k = some c → Clear w c := by
  obtain ⟨L1, hlaid, hnode, hothers⟩ := lies_run h hadm hrun
  rw [SoundRun, ← hnode] at hsound
  obtain ⟨L2, hf⟩ := step_follows hlaid hsound hok
  obtain ⟨new, hraw, hinside⟩ := hf.raw
  rw [← hf.node] at hinside
  refine ⟨L2, new, hf.laid, by rw [hf.node, hnode], fun k => (hf.others k).trans (hothers k),
    hraw, fun w hw => ⟨hinside w hw, fun k c hdata hdim hk => ?_⟩⟩
  rcases hinside w hw with hin | hin
  · exact clear_of_inCell hf.laid.working.stores hdata.symm hin hk
  · exact clear_of_inCell hf.laid.working.stores hdim.symm hin hk

theorem rawWrites_run_two : ∃ s1 node s2,
    run (withSpec (step unary) applied) (emptyFile, Node.empty) [makeTwo] = .ok (s1, node) ∧
    step unary s1 (.putSegment (-1) (bytesOf [8])) = .ok s2 ∧
    ∃ L new, Laid unary s2 L ∧ L.node = applied node (.putSegment (-1) (bytesOf [8])) ∧
      (∀ k, L.cells (.other k) = none) ∧
      s2.raw = s1.raw ++ new ∧ ∀ w ∈ new, Inside L.cells (L.node.count - 1) w ∧
        ∀ k c, k ≠ .data (L.node.count - 1) → k ≠ .dim (L.node.count - 1) →
          L.cells k = some c → Clear w c := by
  obtain ⟨s1, node, hrun, hvalue⟩ :=
    exists_run unary emptyFile Node.empty [makeTwo]
      (fun p => (step unary p.1 (.putSegment (-1) (bytesOf [8]))).isOk) (a := true)
      (by decide +kernel)
  cases hok : step unary s1 (.putSegment (-1) (bytesOf [8])) with
  | error e =>
    simp only [hok] at hvalue
    cases hvalue
  | ok s2 =>
    have hlies : Lies unary (fun _ => none) (emptyFile, Node.empty) :=
      ⟨emptyLayout, laid_emptyFile unary, rfl, fun _ => rfl⟩
    have hadm : Admissible (withSpec (step unary) applied) (SoundRun unary)
        (emptyFile, Node.empty) [makeTwo] := ⟨sound_makeTwo, fun _ _ => trivial⟩
    exact ⟨s1, node, s2, hrun, hok, rawWrites_run hlies hadm hrun trivial hok⟩

def strayStamps : List (Op Unit) :=
  [makeTwo, .putTimestampedSegment [5] (bytesOf [8])]

/-- The timestamp is written from byte seven on, where the index page is. -/
theorem rawWrites_run_stray : ∃ s' node shead sindex,
    run (withSpec (step unary) applied) (emptyFile, Node.empty) strayStamps = .ok (s', node) ∧
    openIndexRead s' = .ok (shead, sindex) ∧
    (7, 8) ∈ s'.raw ∧ shead.indexOffset.toNat = 2 ∧ 7 < 2 + segmentIndex.size := by
  obtain ⟨s', node, hrun, hvalue⟩ :=
    exists_run unary emptyFile Node.empty strayStamps
      (fun p => (decide ((7, 8) ∈ p.1.raw),
        (openIndexRead p.1).toOption.map fun r => r.1.indexOffset.toNat))
      (a := (true, some 2)) (by decide +kernel)
  simp only [Prod.mk.injEq, decide_eq_true_eq] at hvalue
  obtain ⟨hraw, hoffset⟩ := hvalue
  cases hopen : openIndexRead s' with
  | error e =>
    rw [hopen] at hoffset
    cases hoffset
  | ok r =>
    rw [hopen] at hoffset
    exact ⟨s', node, r.1, r.2, hrun, hopen, hraw, Option.some.inj hoffset, by decide⟩

end Main

end MdsPlus.SegmentRuns
