import MdsPlus.SegmentRuns

/-!
The next row of the last segment. In a run of accepted sound calls it stays within the rows that
the segment has, so reading ends with the storage of the segment and no negative number of rows
is left to be filled.
-/

namespace MdsPlus.SegmentRows

open ByteFile SegmentRecords Segments SegmentNode SegmentLayout
  SegmentPages SegmentWrites SegmentPuts SegmentRuns Outcome

variable {V : Type} {S : Records V} {s s' : State} {L : Layout V}

structure InRange (shead : SegmentHeader) (sinfo : SegmentInfo) : Prop where
  nonneg : 0 ≤ shead.nextRow.toInt
  le_rows : shead.nextRow.toInt ≤ sinfo.rows.toInt
  remaining : 0 ≤ lastDim shead - shead.nextRow.toInt

/-- The header of a node says no row that its last segment does not have. A segment that is one
record has no rows of its own. -/
def RowsInRange (s : State) : Prop :=
  ∀ shead sindex, openIndexRead s = .ok (shead, sindex) →
    0 ≤ (Found.sinfo ⟨shead, sindex, shead.idx.toInt⟩).rows.toInt →
      InRange shead (Found.sinfo ⟨shead, sindex, shead.idx.toInt⟩)

theorem rows_of_slot {shape : Shape} {cell : Option Cell} {info : SegmentInfo} {rows : ℕ}
    {data : Data V} (h : DataAt S shape cell info rows data) (hrows : 0 ≤ info.rows.toInt) :
    (∃ bytes, data = .rows bytes) ∧ info.rows.toInt = rows := by
  cases data with
  | rows bytes =>
    obtain ⟨-, hlt, hinfo, -⟩ := h
    exact ⟨⟨bytes, rfl⟩, by rw [hinfo, toInt_ofNat32 hlt]⟩
  | record d =>
    obtain ⟨length, -, hinfo⟩ := h
    have hneg := recordRows_neg length
    rw [← hinfo] at hneg
    omega

theorem rowsInRange_of_laid (h : Laid S s L) : RowsInRange s := by
  intro shead sindex hopen hrows
  by_cases hcount : L.node.count = 0
  · have hnone := loadHeader_none h hcount
    unfold openIndexRead at hopen
    cases hattr : loadExtendedNci s with
    | none =>
      rw [hattr] at hopen
      cases hopen
    | some attr =>
      rw [hattr, Option.bind_some] at hnone
      simp only [hattr, hnone] at hopen
      cases hopen
  · have hpos : 0 < L.node.count := Nat.pos_of_ne_zero hcount
    obtain ⟨attr, shead', attrOff, headOff, hh⟩ := h.headed hpos
    obtain ⟨-, -, hattr, hhead⟩ := loadHeader h hh
    have hindex := loadIndex h hpos hh.header_at
    simp only [openIndexRead, hattr, hhead, hindex, Except.ok.injEq, Prod.mk.injEq] at hopen
    obtain ⟨rfl, rfl⟩ := hopen
    have hidx : shead'.idx.toInt = ((L.node.count - 1 : ℕ) : ℤ) := by
      rw [idx_toInt h hpos hh.header_at]
      omega
    have hslot : Found.sinfo ⟨shead', L.index ((L.node.count - 1) / 128),
        ((L.node.count - 1 : ℕ) : ℤ)⟩ = L.info (L.node.count - 1) := index_slot L (by omega)
    rw [hidx, hslot] at hrows ⊢
    have hseg := h.working.segment (L.node.count - 1) (by omega)
    obtain ⟨⟨bytes, hdata⟩, hcounted⟩ := rows_of_slot hseg.data hrows
    have hnot := rows_of_data h (by omega) hdata
    have hnext := nextRow_toInt h hpos hnot hh.header_at
    have hle := h.proper.nextRow_le hnot hpos
    have hlast : lastDim shead' = L.node.last.rows := by
      have hsized := h.proper.sized hnot hpos
      have hdimct := dimct_toNat (hh.header_at.content.shape hnot) hsized
      have hlt := h.proper.rows_lt hnot hpos
      unfold lastDim
      rw [hdimct, Nat.add_sub_cancel, hh.header_at.content.rows hnot, toInt_ofNat32 hlt]
    constructor
    case nonneg =>
      rw [hnext]
      exact Int.natCast_nonneg _
    case le_rows =>
      rw [hnext, hcounted]
      exact_mod_cast hle
    case remaining =>
      rw [hnext, hlast]
      omega

/-- In every state that a run of accepted sound calls reaches, the next row is a row of the last
segment or the one behind them. -/
theorem rowsInRange_run {ops : List (Op V)} {node : Node V} (h : Laid S s L)
    (hadm : Admissible (withSpec (step S) applied) (SoundRun S) (s, L.node) ops)
    (hrun : run (withSpec (step S) applied) (s, L.node) ops = .ok (s', node)) :
    RowsInRange s' := by
  obtain ⟨L', hlaid, -, -⟩ := lies_run ⟨L, h, rfl, fun _ => rfl⟩ hadm hrun
  exact rowsInRange_of_laid hlaid

/-- Two rows, both of them filled by one more call. -/
theorem rowsInRange_run_two : ∃ s' node,
    run (withSpec (step unary) applied) (emptyFile, Node.empty) [makeTwo, .setRowsFilled 2] =
      .ok (s', node) ∧ RowsInRange s' := by
  obtain ⟨s', node, hrun, -⟩ := exists_run (a := ()) unary emptyFile Node.empty
    [makeTwo, .setRowsFilled 2] (fun _ => ()) (by decide +kernel)
  have hadm : Admissible (withSpec (step unary) applied) (SoundRun unary)
      (emptyFile, Node.empty) [makeTwo, .setRowsFilled 2] := by
    refine ⟨sound_makeTwo, fun p hp => ⟨fun _ => ?_, fun _ _ => trivial⟩⟩
    obtain ⟨-, hnode⟩ := withSpec_eq_ok.mp hp
    rw [hnode]
    decide
  exact ⟨s', node, hrun, rowsInRange_run (laid_emptyFile unary) hadm hrun⟩

theorem nine_of_two : ∃ s' node,
    run (withSpec (step unary) applied) (emptyFile, Node.empty) [makeTwo, .setRowsFilled 9] =
      .ok (s', node) ∧ ¬ RowsInRange s' := by
  obtain ⟨s', node, hrun, hvalue⟩ := exists_run unary emptyFile Node.empty
    [makeTwo, .setRowsFilled 9]
    (fun p => (openIndexRead p.1).toOption.map fun r =>
      (r.1.nextRow.toInt, (Found.sinfo ⟨r.1, r.2, r.1.idx.toInt⟩).rows.toInt))
    (a := some (9, 2)) (by decide +kernel)
  refine ⟨s', node, hrun, fun hrange => ?_⟩
  cases hopen : openIndexRead s' with
  | error e =>
    rw [hopen] at hvalue
    cases hvalue
  | ok r =>
    rw [hopen] at hvalue
    obtain ⟨hnext, hrows⟩ := Prod.mk.inj (Option.some.inj hvalue)
    have hin := hrange r.1 r.2 hopen (by rw [hrows]; decide)
    have hle := hin.le_rows
    rw [hnext, hrows] at hle
    exact absurd hle (by decide)

end MdsPlus.SegmentRows
