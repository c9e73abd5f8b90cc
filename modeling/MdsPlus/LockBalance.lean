import MdsPlus.NciItems
import MdsPlus.RecordPuts

/-!
Whether calls release the locks that they take. A record that is to be put at the end of the
datafile leaves the characteristics locked when the datafile cannot be locked or when the earlier
characteristics are not written; and the datafile is unlocked without a lock when a record of
extended attributes is written although the lock was refused.
-/

namespace MdsPlus.LockBalance

open Characteristics RecordLocks RecordPuts

variable {info : TreeInfo} {held held' base : Held} {locked locked' : ℤ} {status : Status}

/-! ### Writing to the datafile -/

/-- Locks are as before if something is so, and if not there is one less on the datafile. -/
def Kept (p : Prop) (held held' : Held) : Prop :=
  p ∧ held' = held ∨ ¬ p ∧ held' = held.unlockData

theorem unlockData_ne (held : Held) : held.unlockData ≠ held := by
  intro h
  have hdata : held.data - 1 = held.data := congrArg Held.data h
  omega

namespace Kept

variable {p q : Prop}

theorem acquired (h : Kept p held held') (hacq : Acquired info base locked held) :
    ∃ base', Kept p base base' ∧ Acquired info base' locked held' := by
  rcases h with ⟨hp, rfl⟩ | ⟨hp, rfl⟩
  · exact ⟨base, Or.inl ⟨hp, rfl⟩, hacq⟩
  · exact ⟨base.unlockData, Or.inr ⟨hp, rfl⟩, hacq.unlockData⟩

theorem eq_iff (h : Kept p held held') : held' = held ↔ p := by
  rcases h with ⟨hp, rfl⟩ | ⟨hp, rfl⟩
  · exact iff_of_true rfl hp
  · exact iff_of_false (unlockData_ne _) hp

theorem trans_eq_iff {held'' : Held} (h : Kept p held held') (h' : Kept q held' held'') :
    held'' = held ↔ p ∧ q := by
  rcases h with ⟨hp, rfl⟩ | ⟨hp, rfl⟩
  · rw [h'.eq_iff, and_iff_right hp]
  · refine iff_of_false (fun hheld => ?_) (fun hboth => hp hboth.1)
    have hdata : held''.data = held.data := congrArg Held.data hheld
    rcases h' with ⟨-, rfl⟩ | ⟨-, rfl⟩ <;> simp only [Held.unlockData] at hdata <;> omega

end Kept

theorem writeProperty_held (hreadonly : info.readonly = false) {o : WriteAnswers}
    (h : writeProperty info o held = some (status, held')) :
    (status = .success ↔ o.written = true) ∧ Kept (Granted o.attempts) held held' := by
  obtain ⟨⟨lockStatus, gone, held''⟩, hlock, hrest⟩ := Option.bind_eq_some_iff.1 h
  have hgranted := treeLockDatafile_success hreadonly hlock
  simp only [treeUnLockDatafile_eq hreadonly] at hrest
  split at hrest
  · cases hrest
  · simp only [Option.some.injEq, Prod.mk.injEq] at hrest
    obtain ⟨hstatus, rfl⟩ := hrest
    refine ⟨by rw [← hstatus]; by_cases hw : o.written <;> simp [hw], ?_⟩
    rcases treeLockDatafile_spec hreadonly hlock with ⟨hsuccess, -, rfl⟩ | ⟨hfail, rfl⟩
    · exact Or.inl ⟨hgranted.1 hsuccess, Held.unlockData_lockData _⟩
    · exact Or.inr ⟨mt hgranted.2 hfail, rfl⟩

theorem updateParts_held (hreadonly : info.readonly = false) (o : Answers) (bytes turn : ℕ)
    (h : updateParts info o bytes turn held = some (status, held')) : held' = held := by
  induction bytes using Nat.strong_induction_on generalizing turn held with
  | _ bytes ih =>
    cases bytes with
    | zero =>
      rw [updateParts] at h
      simp only [Option.some.injEq, Prod.mk.injEq] at h
      exact h.2.symm
    | succ bytes =>
      rw [updateParts] at h
      obtain ⟨⟨lockStatus, gone, held''⟩, hlock, hrest⟩ := Option.bind_eq_some_iff.1 h
      simp only [treeUnLockDatafile_eq hreadonly] at hrest
      rcases treeLockDatafile_spec hreadonly hlock with ⟨rfl, -, rfl⟩ | ⟨hfail, rfl⟩
      · simp only [ne_eq, not_true, if_false, Held.unlockData_lockData] at hrest
        split at hrest
        · simp only [Option.some.injEq, Prod.mk.injEq] at hrest
          exact hrest.2.symm
        · refine ih _ ?_ _ hrest
          simp only [DatafileRecords.maxPart]
          omega
      · simp only [ne_eq, hfail, not_false_eq_true, if_true, Option.some.injEq,
          Prod.mk.injEq] at hrest
        exact hrest.2.symm

theorem updateDatafile_held (hacq : Acquired info base locked held) {o : Answers} {nci : Nci}
    (h : updateDatafile info o nci locked held = some (status, locked', held')) : held' = base := by
  obtain ⟨⟨status', held''⟩, hparts, heq⟩ := Option.map_eq_some_iff.1 h
  obtain rfl := updateParts_held hacq.writable o _ _ hparts
  have hheld : (treePutNci info o.nci locked held'').2.2 = held' := congrArg (fun r => r.2.2) heq
  rw [← hheld]
  exact hacq.put_held o.nci

/-- The characteristics before a record are not written behind it. -/
def OldNciLost (o : Answers) (nci : Nci) (present : Bool) : Prop :=
  (blen nci present ≤ 0 ∨ o.put.written = true) ∧ nci.has NciM_VERSIONS = true ∧
    o.seekEnd = true ∧ ¬ o.oldNciWritten = true

/-- What a record needs at the end of the datafile: a lock on it, and nothing that keeps the
characteristics locked. -/
structure PutBalanced (info : TreeInfo) (o : Answers) (nci : Nci) (present : Bool) : Prop where
  asked : 0 < blen nci present ∨ nci.has NciM_VERSIONS = true
  granted : info.inMemory = true ∨ Granted o.put.attempts
  kept : info.inMemory = true ∨ ¬ OldNciLost o nci present

theorem Acquired.held_eq_iff (h : Acquired info base locked held) :
    held = base ↔ info.inMemory = true := by
  rw [h.held_eq]
  cases info.inMemory with
  | true => simp
  | false => simpa using base.lockNci_ne

/-- At the end of the datafile one lock on it is released, and that on the characteristics unless
those before are not written. -/
theorem finish_held (hacq : Acquired info base locked held) (o : Answers) (nci : Nci)
    (present : Bool) :
    let done := (putDatafile.finish info o nci locked (decide (blen nci present ≤ 0)) .success held)
    OldNciLost o nci present ∧ done.2.2 = held.unlockData ∨
      ¬ OldNciLost o nci present ∧ done.2.2 = base.unlockData := by
  intro done
  have hdone : done = putDatafile.finish info o nci locked (decide (blen nci present ≤ 0)) .success
    held := rfl
  rw [putDatafile.finish, treeUnLockDatafile_eq hacq.writable] at hdone
  by_cases hlost : OldNciLost o nci present
  · left
    have hlost' := hlost
    rw [OldNciLost, ← decide_eq_true_iff (p := blen nci present ≤ 0)] at hlost'
    rw [if_pos hlost'] at hdone
    simp [hdone, hlost]
  · right
    have hlost' := hlost
    rw [OldNciLost, ← decide_eq_true_iff (p := blen nci present ≤ 0)] at hlost'
    rw [if_neg hlost', if_pos rfl] at hdone
    exact ⟨hlost, by rw [hdone, hacq.unlockData.put_held]⟩

theorem putDatafile_held_iff (hacq : Acquired info base locked held) {o : Answers} {nci : Nci}
    {present : Bool}
    (h : putDatafile info o nci present locked held = some (status, locked', held')) :
    held' = base ↔ PutBalanced info o nci present := by
  rw [putDatafile] at h
  split at h
  · rename_i hempty
    have hnone : ¬ PutBalanced info o nci present := by
      intro hbalanced
      rcases hbalanced.asked with hlen | hversions
      · exact absurd (of_decide_eq_true hempty.1) (not_le.2 hlen)
      · exact hempty.2 hversions
    have hheld : _ = held' := congrArg (fun r => r.2.2) (Option.some.inj h)
    rcases finish_held hacq o nci present with ⟨hlost, -⟩ | ⟨-, hdone⟩
    · exact absurd hlost.2.1 hempty.2
    · rw [← hheld]
      exact iff_of_false (fun hbase => unlockData_ne base (hdone.symm.trans hbase)) hnone
  · rename_i hasked
    have hasked' : 0 < blen nci present ∨ nci.has NciM_VERSIONS = true := by
      by_contra hneither
      rw [not_or, not_lt] at hneither
      exact hasked ⟨decide_eq_true hneither.1, hneither.2⟩
    obtain ⟨⟨lockStatus, gone, held''⟩, hlock, hrest⟩ := Option.bind_eq_some_iff.1 h
    have hgranted := treeLockDatafile_success hacq.writable hlock
    dsimp only at hrest
    split at hrest
    · cases hrest
    split at hrest
    · rename_i hrefused
      have hheld : _ = held' := congrArg (fun r => r.2.2) (Option.some.inj hrest)
      obtain ⟨hsuccess, -⟩ | ⟨-, rfl⟩ := treeLockDatafile_spec hacq.writable hlock
      · exact absurd hsuccess hrefused
      rw [← hheld]
      refine (Acquired.held_eq_iff hacq).trans ⟨fun hmem => ⟨hasked', Or.inl hmem, Or.inl hmem⟩,
        fun hbalanced => hbalanced.granted.resolve_right (mt hgranted.2 hrefused)⟩
    · rename_i hsuccess
      rw [not_not] at hsuccess
      obtain ⟨-, -, rfl⟩ | ⟨hrefused, -⟩ := treeLockDatafile_spec hacq.writable hlock
      swap
      · exact absurd hsuccess hrefused
      have hheld : _ = held' := congrArg (fun r => r.2.2) (Option.some.inj hrest)
      have hbalanced : PutBalanced info o nci present ↔
          info.inMemory = true ∨ ¬ OldNciLost o nci present :=
        ⟨fun hbalanced => hbalanced.kept,
          fun hkept => ⟨hasked', Or.inr (hgranted.1 hsuccess), hkept⟩⟩
      rw [← hheld, hbalanced]
      rcases finish_held hacq.lockData o nci present with ⟨hlost, hdone⟩ | ⟨hkept, hdone⟩
      · rw [Held.unlockData_lockData] at hdone
        refine (Eq.congr_left hdone).trans ((Acquired.held_eq_iff hacq).trans ?_)
        exact ⟨Or.inl, fun hkept => hkept.resolve_right (not_not.2 hlost)⟩
      · rw [Held.unlockData_lockData] at hdone
        exact iff_of_true hdone (Or.inr hkept)

/-! ### Extended attributes -/

/-- There is something to be written once the record is serialized without a place for short
data. -/
def WritesDsc (r : Record) (compress : ℤ) : Prop :=
  (mdsSerializeDscOutZ r compress 0).status = .success ∧
    (mdsSerializeDscOutZ r compress 0).present = true

def WroteDsc (o : Answers) (r : Record) (compress : ℤ) : Prop :=
  (mdsSerializeDscOutZ r compress 0).status = .success ∧
    ((mdsSerializeDscOutZ r compress 0).present = true → o.dsc.written = true)

/-- What a record of extended attributes needs: a lock on the datafile for all that is written. -/
structure ExtendedBalanced (o : Answers) (r : Record) (compress : ℤ) : Prop where
  dsc : WritesDsc r compress → Granted o.dsc.attempts
  attributes : WroteDsc o r compress → Granted o.attributes.attempts

theorem treePutDsc_held (hreadonly : info.readonly = false) {o : Answers} {r : Record}
    {compress : ℤ} {form : Option Form}
    (h : treePutDsc info o r compress held = some (status, form, held')) :
    (status = .success ↔ WroteDsc o r compress) ∧
      Kept (WritesDsc r compress → Granted o.dsc.attempts) held held' := by
  rw [treePutDsc] at h
  dsimp only at h
  split at h
  · rename_i hwrites
    obtain ⟨⟨status', held''⟩, hwrite, heq⟩ := Option.map_eq_some_iff.1 h
    cases heq
    obtain ⟨hstatus, hkept⟩ := writeProperty_held hreadonly hwrite
    have hwrote : WroteDsc o r compress ↔ o.dsc.written = true :=
      ⟨fun h => h.2 hwrites.2, fun h => ⟨hwrites.1, fun _ => h⟩⟩
    have hasked : (WritesDsc r compress → Granted o.dsc.attempts) ↔ Granted o.dsc.attempts :=
      ⟨fun h => h hwrites, fun h _ => h⟩
    exact ⟨hstatus.trans hwrote.symm, by rwa [hasked]⟩
  · rename_i hwrites
    cases h
    have hwrote : WroteDsc o r compress ↔
        (mdsSerializeDscOutZ r compress 0).status = .success :=
      ⟨fun h => h.1, fun h => ⟨h, fun hpresent => absurd ⟨h, hpresent⟩ hwrites⟩⟩
    exact ⟨hwrote.symm, Or.inl ⟨fun h => absurd h hwrites, rfl⟩⟩

theorem putExtended_held_iff (hacq : Acquired info base locked held) {o : Answers} {r : Record}
    {compress : ℤ} {form : Option Form}
    (h : putExtended info o r compress locked held = some (status, form, held')) :
    held' = base ↔ ExtendedBalanced o r compress := by
  obtain ⟨⟨status₁, form₁, held₁⟩, hdsc, hrest⟩ := Option.bind_eq_some_iff.1 h
  obtain ⟨⟨status₂, held₂⟩, hattributes, heq⟩ := Option.map_eq_some_iff.1 hrest
  obtain ⟨hwrote, hkept⟩ := treePutDsc_held hacq.writable hdsc
  obtain ⟨base₁, hbase₁, hacq₁⟩ := hkept.acquired hacq
  have hkept₂ : Kept (WroteDsc o r compress → Granted o.attributes.attempts) held₁ held₂ := by
    split at hattributes
    · rename_i hsuccess
      have hasked := hwrote.1 hsuccess
      have hiff : (WroteDsc o r compress → Granted o.attributes.attempts) ↔
          Granted o.attributes.attempts := ⟨fun h => h hasked, fun h _ => h⟩
      rw [hiff]
      exact (writeProperty_held hacq.writable hattributes).2
    · rename_i hfail
      simp only [Option.some.injEq, Prod.mk.injEq] at hattributes
      exact Or.inl ⟨fun hasked => absurd (hwrote.2 hasked) hfail, hattributes.2.symm⟩
  obtain ⟨base₂, hbase₂, hacq₂⟩ := hkept₂.acquired hacq₁
  have hheld : held' = base₂ := by
    dsimp only at heq
    split at heq
    · exact (congrArg (fun r => r.2.2) heq).symm.trans (hacq₂.put_held o.nci)
    · exact (congrArg (fun r => r.2.2) heq).symm.trans hacq₂.unlock_held
  rw [hheld, hbase₁.trans_eq_iff hbase₂]
  exact ⟨fun h => ⟨h.1, h.2⟩, fun h => ⟨h.dsc, h.attributes⟩⟩

/-! ### Calls -/

variable {db : RecordPuts.Database} {place : Place} {o : Answers} {call : RecordPuts.Call}
  {old : Nci}

def nciOf (db : RecordPuts.Database) (place : Place) (o : Answers) (call : RecordPuts.Call)
    (old : Nci) : Nci :=
  prepared db place call old (isExtended o old)

def recordOf (db : RecordPuts.Database) (place : Place) (o : Answers) (call : RecordPuts.Call)
    (old : Nci) : Serialized :=
  serialized call (nciOf db place o call old) (isExtended o old)

/-- The characteristics as they go with the record. -/
def storedNci (db : RecordPuts.Database) (place : Place) (o : Answers) (call : RecordPuts.Call)
    (old : Nci) : Nci :=
  afterSerialize (nciOf db place o call old) (recordOf db place o call old)

structure Stores (db : RecordPuts.Database) (place : Place) (o : Answers)
    (call : RecordPuts.Call) (old : Nci) : Prop where
  isOpen : db.isOpen = true
  writable : db.openReadonly = false
  numbered : place.numbered = true
  hook : o.hook = true
  locks : Locks place.info o.nci
  opened : place.info.openForWrite = true ∨ o.openDatafile = true
  admitted : checkRecord db place call (nciOf db place o call old)
    (recordOf db place o call old) = .success

def StoreBalanced (db : RecordPuts.Database) (place : Place) (o : Answers)
    (call : RecordPuts.Call) (old : Nci) : Prop :=
  match routeOf call (nciOf db place o call old) (storedNci db place o call old)
      (isExtended o old) with
  | .inline | .update => True
  | .extended =>
      ExtendedBalanced o call.record (compressFlag call (storedNci db place o call old))
  | .put => PutBalanced place.info o (storedNci db place o call old)
      (recordOf db place o call old).present

theorem store_held_iff (hacq : Acquired place.info base locked held) {r : Result}
    (h : store place o call (nciOf db place o call old) (storedNci db place o call old)
      (recordOf db place o call old) (isExtended o old) locked held = some r) :
    r.held = base ↔ StoreBalanced db place o call old := by
  rw [store] at h
  rw [StoreBalanced]
  cases hroute : routeOf call (nciOf db place o call old) (storedNci db place o call old)
      (isExtended o old) with
  | inline =>
    rw [hroute] at h
    rw [← Option.some.inj h]
    exact iff_of_true (hacq.put_held o.nci) trivial
  | extended =>
    rw [hroute] at h
    obtain ⟨⟨status, form, held'⟩, hput, rfl⟩ := Option.map_eq_some_iff.1 h
    exact putExtended_held_iff hacq hput
  | put =>
    rw [hroute] at h
    obtain ⟨⟨status, locked', held'⟩, hput, rfl⟩ := Option.map_eq_some_iff.1 h
    exact putDatafile_held_iff hacq hput
  | update =>
    rw [hroute] at h
    obtain ⟨⟨status, locked', held'⟩, hput, rfl⟩ := Option.map_eq_some_iff.1 h
    exact iff_of_true (updateDatafile_held hacq hput) trivial

theorem putLocked_held (hacq : Acquired place.info base locked held) {r : Result}
    (h : putLocked db place o call old locked held = some r) :
    r.held = base ↔ ((place.info.openForWrite = true ∨ o.openDatafile = true) →
      checkRecord db place call (nciOf db place o call old) (recordOf db place o call old) =
        .success → StoreBalanced db place o call old) := by
  rw [putLocked] at h
  split at h
  · rename_i hclosed
    rw [← Option.some.inj h]
    exact iff_of_true (hacq.put_held o.nci) fun hopen => absurd hopen (not_or.2 hclosed)
  · rename_i hopen
    rw [← not_or, not_not] at hopen
    dsimp only at h
    split at h
    · rename_i hrefused
      rw [← Option.some.inj h]
      exact iff_of_true hacq.unlock_held fun _ hadmit => absurd hadmit hrefused
    · rename_i hadmit
      rw [not_not] at hadmit
      refine (store_held_iff hacq h).trans ⟨fun hstore _ _ => hstore, fun hstore => ?_⟩
      exact hstore hopen hadmit

theorem treePutRecord_held_iff {r : Result}
    (h : treePutRecord db place o call old held = some r) :
    r.held = held ↔ (Stores db place o call old → StoreBalanced db place o call old) := by
  rw [treePutRecord] at h
  split at h
  · rename_i hclosed
    rw [← Option.some.inj h]
    exact iff_of_true rfl fun hstores => absurd hstores.isOpen hclosed
  split at h
  · rename_i hreadonly
    rw [← Option.some.inj h]
    exact iff_of_true rfl fun hstores => by simp [hstores.writable] at hreadonly
  split at h
  · rename_i hnumbered
    rw [← Option.some.inj h]
    exact iff_of_true rfl fun hstores => absurd hstores.numbered hnumbered
  split at h
  · rename_i hhook
    rw [← Option.some.inj h]
    exact iff_of_true rfl fun hstores => absurd hstores.hook hhook
  rename_i hisOpen hwritable hnumbered hhook
  rw [not_not] at hisOpen hnumbered hhook
  obtain ⟨⟨status, locked, held'⟩, hget, hrest⟩ := Option.bind_eq_some_iff.1 h
  have hlocks := treeGetAndLockNci_success hget
  dsimp only at hrest
  rcases treeGetAndLockNci_spec hget with ⟨rfl, hacq⟩ | ⟨hfail, rfl⟩
  · rw [if_neg (fun h => h rfl)] at hrest
    rw [putLocked_held hacq hrest]
    refine ⟨fun hstore hstores => hstore hstores.opened hstores.admitted,
      fun hstore hopened hadmitted => ?_⟩
    exact hstore ⟨hisOpen, by simpa using hwritable, hnumbered, hhook, hlocks.1 rfl, hopened,
      hadmitted⟩
  · rw [if_pos hfail] at hrest
    rw [← Option.some.inj hrest]
    exact iff_of_true rfl fun hstores => absurd (hlocks.2 hstores.locks) hfail

theorem treeSetNci_held {db : NciItems.Database} {numbered hook : Bool} {o : NciAnswers}
    {items : List NciItems.Item} {w : NciItems.Work} {r : NciItems.Result}
    (h : NciItems.treeSetNci db info numbered hook o items w held = some r) : r.held = held := by
  rw [NciItems.treeSetNci] at h
  split at h
  · rw [← Option.some.inj h]
  split at h
  · rw [← Option.some.inj h]
  split at h
  · rw [← Option.some.inj h]
  split at h
  · rw [← Option.some.inj h]
  obtain ⟨⟨status, locked, held'⟩, hget, hrest⟩ := Option.map_eq_some_iff.1 h
  dsimp only at hrest
  rcases treeGetAndLockNci_spec hget with ⟨rfl, hacq⟩ | ⟨hfail, rfl⟩
  · rw [if_neg (fun h => h rfl)] at hrest
    split at hrest
    · rw [← hrest]
      exact hacq.put_held o
    · rw [← hrest]
      exact hacq.unlock_held
  · rw [if_pos hfail] at hrest
    rw [← hrest]

/-- Characteristics that are put without a lock are locked for it, but nothing unlocks a file that
was deleted. -/
theorem treePutNci_held_iff (o : NciAnswers) :
    (treePutNci info o 0 held).2.2 = held ↔ (info.readonly = false → info.inMemory = false →
      o.relock.granted = true → o.relock.deleted = false) := by
  have hne := held.lockNci_ne
  cases hmem : info.inMemory <;> cases hreadonly : info.readonly <;>
    cases hgranted : o.relock.granted <;> cases hdeleted : o.relock.deleted <;>
    simp [treePutNci, treeLockNci, treeUnlockNci, hmem, hreadonly, hgranted, hdeleted, hne]

inductive Call
  | putRecord (db : RecordPuts.Database) (place : Place) (o : Answers) (call : RecordPuts.Call)
      (old : Nci)
  | setNci (db : NciItems.Database) (info : TreeInfo) (numbered hook : Bool) (o : NciAnswers)
      (items : List NciItems.Item) (w : NciItems.Work)
  | putNci (info : TreeInfo) (o : NciAnswers)

/-- The locks after a call, if there is an answer to all that it asks. -/
def Call.run (held : Held) : Call → Option Held
  | putRecord db place o call old => (treePutRecord db place o call old held).map (·.held)
  | setNci db info numbered hook o items w =>
      (NciItems.treeSetNci db info numbered hook o items w held).map (·.held)
  | putNci info o => some (treePutNci info o 0 held).2.2

/-- The calls after which the locks are as before. -/
def Call.Balanced : Call → Prop
  | putRecord db place o call old => Stores db place o call old → StoreBalanced db place o call old
  | setNci .. => True
  | putNci info o => info.readonly = false → info.inMemory = false → o.relock.granted = true →
      o.relock.deleted = false

theorem run_held_eq_iff (c : Call) (h : c.run held = some held') : held' = held ↔ c.Balanced := by
  cases c with
  | putRecord db place o call old =>
    obtain ⟨r, hput, rfl⟩ := Option.map_eq_some_iff.1 h
    exact treePutRecord_held_iff hput
  | setNci db info numbered hook o items w =>
    obtain ⟨r, hset, rfl⟩ := Option.map_eq_some_iff.1 h
    exact iff_of_true (treeSetNci_held hset) trivial
  | putNci info o =>
    rw [← Option.some.inj h]
    exact treePutNci_held_iff o

/-- A record of 40 bytes that goes to the end of the datafile. -/
def longRecord : Record where
  copied := true
  compressible := false
  compresses := fun _ => false
  image := fun _ => ⟨true, none, true, 40, 40, 8, 4⟩

/-- It is put into an empty node of the model, with an attempt to lock the datafile. -/
def putLongRecord (a : Attempt) : Call :=
  .putRecord ⟨true, false, false, false⟩
    ⟨⟨false, false, true, true⟩, true, false, false, fun _ => true⟩
    { hook := true, nci := ⟨true, [⟨true, false, true, false⟩], true, a, true⟩,
      openDatafile := true, attributesRead := true, nonvmsCompatible := false, put := ⟨[a], true⟩,
      seekEnd := true, oldNciWritten := true, update := fun _ => ⟨[a], true⟩,
      headerWritten := fun _ => true, dsc := ⟨[a], true⟩, attributes := ⟨[a], true⟩ }
    ⟨0, ⟨0, 0, 0, 0, 0, 0, 0, 0, 0, 0⟩, false, longRecord⟩
    ⟨⟨0, 0, 0, 0, 0, 0, 0, 0, 0, 0⟩, Vector.replicate 12 0⟩

theorem putLongRecord_balanced :
    (putLongRecord ⟨true, false, true, false⟩).run ⟨0, 0⟩ = some ⟨0, 0⟩ ∧
      (putLongRecord ⟨true, false, true, false⟩).Balanced :=
  have hrun : (putLongRecord ⟨true, false, true, false⟩).run ⟨0, 0⟩ = some ⟨0, 0⟩ := by decide
  ⟨hrun, (run_held_eq_iff _ hrun).1 rfl⟩

/-- The datafile cannot be locked, and the characteristics stay locked. -/
theorem putLongRecord_not_balanced :
    ¬ ∀ (c : Call) (held held' : Held), c.run held = some held' → held' = held := by
  intro h
  have hrun : (putLongRecord ⟨false, false, true, false⟩).run ⟨0, 0⟩ = some ⟨1, 0⟩ := by decide
  exact absurd (h _ _ _ hrun) (by decide)

end MdsPlus.LockBalance
