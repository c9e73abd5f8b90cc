import MdsPlus.RecordParts

/-!
Runs of records that are put into a datafile. Each goes to the end of the file, so that those that
were put before are read as they were.
-/

namespace MdsPlus.DatafileRuns

open BitMemory ByteFile Datafile DatafileRecords RecordParts

/-- A record for a node, with the characteristics that are ready for it. -/
structure Put where
  answers : Answers
  nodenum : BitVec 32
  nci : Nci
  record : List Byte
  oldNci : List Byte

def Put.exec (p : Put) (f : File) : Except Status (File × Nci) :=
  putDatafile p.answers f p.nodenum p.nci p.record p.oldNci

/-- The datafile, and the records that were written with the characteristics that tell where they
are. A datafile that cannot be locked stays as it is. -/
abbrev Store := File × List (Put × Nci)

def step (s : Store) (p : Put) : Except Status Store :=
  match p.exec s.1 with
  | .error .lockFailure => .ok s
  | .error status => .error status
  | .ok (f, nci) => .ok (f, if nci.errorOnPut then s.2 else (p, nci) :: s.2)

/-- The length is that of the record, which fits an int with its headers, and the file is not too
large for an address. -/
structure Fits (s : Store) (p : Put) : Prop where
  location : ∃ rfa, p.nci.dataInfo = .location rfa (BitVec.ofNat 32 p.record.length)
  block : blockLength p.record.length < 2 ^ 31
  room : s.1.size + blockLength p.record.length ≤ rfaLimit

/-- Each record that was written is read, whatever is added to the file. -/
def Kept (s : Store) : Prop :=
  ∀ q ∈ s.2, ∀ g, Grows s.1 g → ReadsBack g q.2 q.1.nodenum q.1.record

variable {answers : Answers} {f f' g : File} {nci nci' : Nci} {oldNci buffer : List Byte} {eof : ℕ}

theorem grows_writeBuffer (h : writeBuffer answers f nci oldNci buffer eof = .ok (f', nci')) :
    Grows f f' := by
  rw [writeBuffer] at h
  dsimp only at h
  split at h
  · split at h
    · cases h
      exact grows_append f buffer
    · split at h
      · cases h
        exact (grows_append f buffer).trans (grows_append _ oldNci)
      · cases h
  · cases h
    exact grows_append f _

theorem grows_exec {p : Put} (h : p.exec f = .ok (f', nci')) : Grows f f' := by
  rw [Put.exec, putDatafile] at h
  dsimp only at h
  repeat' split at h
  all_goals first
    | exact grows_writeBuffer h
    | cases h

theorem restores_of_fits {s : Store} {p : Put} (h : Fits s p) :
    p.record.length = (BitVec.ofNat 32 p.record.length).toNat ∧
      Restores s.1.size (BitVec.ofNat 32 p.record.length) := by
  have hblock := h.block
  have hnat : p.record.length = (BitVec.ofNat 32 p.record.length).toNat := by
    have hlen : p.record.length ≤ blockLength p.record.length := Nat.le_add_right ..
    rw [BitVec.toNat_ofNat, Nat.mod_eq_of_lt (by omega)]
  refine ⟨hnat, ?_⟩
  rcases Nat.eq_zero_or_pos p.record.length with hzero | hpos
  · rw [hzero]
    exact restores_zero s.1.size
  · refine restores_pos (hnat ▸ hpos) (hnat ▸ hblock) ?_
    have hroom := h.room
    have hlast := blockLength_last hpos
    rw [← hnat, lastPart]
    omega

theorem kept_step {s s' : Store} {p : Put} (h : Kept s) (hfits : Fits s p)
    (hstep : step s p = .ok s') : Kept s' := by
  rw [step] at hstep
  split at hstep
  · cases hstep
    exact h
  · cases hstep
  · next f nci hput =>
    cases hstep
    obtain ⟨hlength, hrestores⟩ := restores_of_fits hfits
    have hearlier : ∀ q ∈ s.2, ∀ g, Grows f g → ReadsBack g q.2 q.1.nodenum q.1.record :=
      fun q hq g hg => h q hq g ((grows_exec hput).trans hg)
    unfold Kept
    dsimp only
    split
    · exact hearlier
    · next herror =>
      refine List.forall_mem_cons.2 ⟨?_, hearlier⟩
      exact (hrestores p.answers s.1 p.nodenum p.nci p.record p.oldNci rfl hlength
        hfits.location).2 f nci hput (Bool.eq_false_of_not_eq_true herror)

/-- After any run of puts each record that was written is read from the node's characteristics. -/
theorem run_readsBack {s s' : Store} (hstart : Kept s) {puts : List Put}
    (hfits : Outcome.Admissible step Fits s puts) (hrun : Outcome.run step s puts = .ok s') :
    ∀ q ∈ s'.2, ReadsBack s'.1 q.2 q.1.nodenum q.1.record := by
  have hkept : Kept s' :=
    Outcome.run_preserves (fun _ _ _ h hok hstep => kept_step h hok hstep) s puts s' hstart hfits
      hrun
  exact fun q hq => hkept q hq s'.1 (Grows.refl s'.1)

def letters (record : List Byte) : Put :=
  ⟨⟨true, true, 100, true⟩, 7, fresh (BitVec.ofNat 32 record.length), record, []⟩

theorem run_readsBack_letters : ∃ s',
    Outcome.run step (zeros 0, []) [letters [1, 2], letters [3]] = .ok s' ∧ s'.2.length = 2 ∧
      ∀ q ∈ s'.2, ReadsBack s'.1 q.2 q.1.nodenum q.1.record := by
  obtain ⟨s', hrun, hlength⟩ : ∃ s',
      Outcome.run step (zeros 0, []) [letters [1, 2], letters [3]] = .ok s' ∧ s'.2.length = 2 :=
    ⟨_, rfl, rfl⟩
  have hstart : Kept (zeros 0, []) := by
    intro q hq
    cases hq
  have hfits : Outcome.Admissible step Fits (zeros 0, []) [letters [1, 2], letters [3]] := by
    refine ⟨⟨⟨_, rfl⟩, by decide, by decide⟩, fun s hs => ?_⟩
    cases hs
    exact ⟨⟨⟨_, rfl⟩, by decide, by decide⟩, fun _ _ => trivial⟩
  exact ⟨s', hrun, hlength, run_readsBack hstart hfits hrun⟩

end MdsPlus.DatafileRuns
