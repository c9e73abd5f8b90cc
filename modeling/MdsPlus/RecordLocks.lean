import Mathlib.Data.Int.Notation
import Mathlib.Tactic.Common

/-!
The locks on the characteristics and on the datafile. A lock is asked for again when the file
turns out to be deleted and is opened anew. A counter goes with the lock on characteristics: it
is odd while there is a lock on the file. While a tree is edited its new nodes are in memory and
have a counter without a lock. Which call fails is told by the answers of the system.
-/

namespace MdsPlus.RecordLocks

inductive Status
  | success | notOpen | readonly | readonlyTree | invTree | noNode | illegalItem | hookFailed
  | openFailed | lockFailure | reopenFailed | nciRead | noOverwrite | noWriteShot | noWriteModel
  | serializeFailed | invDtpUsg | failure
  deriving DecidableEq, Repr

/-- Locks that were taken on the two files less those that were released. -/
structure Held where
  nci : ℤ
  data : ℤ
  deriving DecidableEq

namespace Held

def lockNci (held : Held) : Held := { held with nci := held.nci + 1 }
def unlockNci (held : Held) : Held := { held with nci := held.nci - 1 }
def lockData (held : Held) : Held := { held with data := held.data + 1 }
def unlockData (held : Held) : Held := { held with data := held.data - 1 }

@[simp] theorem unlockNci_lockNci (held : Held) : held.lockNci.unlockNci = held := by
  simp [lockNci, unlockNci]

@[simp] theorem unlockData_lockData (held : Held) : held.lockData.unlockData = held := by
  simp [lockData, unlockData]

theorem unlockData_lockNci (held : Held) : held.lockNci.unlockData = held.unlockData.lockNci := rfl

theorem lockData_lockNci (held : Held) : held.lockNci.lockData = held.lockData.lockNci := rfl

theorem lockNci_ne (held : Held) : held.lockNci ≠ held := by
  intro h
  have hnci : held.nci + 1 = held.nci := congrArg Held.nci h
  omega

end Held

/-- An attempt to lock a file: whether the lock is granted, whether the file is one that was
deleted, whether it can be opened again, and whether there is no file left if it cannot. -/
structure Attempt where
  granted : Bool
  deleted : Bool
  reopened : Bool
  gone : Bool

/-- What the locks depend on in the block of a tree: its header, whether the characteristics of
the node are in memory, and which files are open. -/
structure TreeInfo where
  readonly : Bool
  inMemory : Bool
  nciOpen : Bool
  openForWrite : Bool

abbrev Locking := Status × ℤ × Held

/-! ### Characteristics -/

/-- Whether the file is deleted is told if `told`; without it a lock on a deleted file counts as
none. -/
def treeLockNci (info : TreeInfo) (a : Attempt) (told deleted : Bool) (locked : ℤ) (held : Held) :
    Status × Bool × ℤ × Held :=
  if info.readonly then (.success, deleted, locked, held)
  else if locked = 0 then
    if ¬ a.granted then (.lockFailure, a.deleted, locked, held)
    else if ¬ a.deleted then (.success, false, 3, held.lockNci)
    else (.success, true, if told then locked else 2, held.lockNci)
  else (.success, if told then false else deleted, locked + 2, held)

def treeUnlockNci (info : TreeInfo) (locked : ℤ) (held : Held) : ℤ × Held :=
  if info.readonly then (locked, held)
  else if locked - 2 = 1 then (0, held.unlockNci)
  else (locked - 2, held)

/-- Locks on a file end when it is closed to be opened again. -/
def lockNciRecord (info : TreeInfo) : List Attempt → ℤ → Held → Option Locking
  | [], _, _ => none
  | a :: attempts, locked, held =>
      match treeLockNci info a true true locked held with
      | (.success, false, locked, held) => some (.success, locked, held)
      | (.success, true, locked, held) =>
          if a.reopened then lockNciRecord info attempts locked held.unlockNci
          else some (.reopenFailed, locked, held.unlockNci)
      | (status, _, locked, held) => some (status, locked, held)

structure NciAnswers where
  opened : Bool
  attempts : List Attempt
  read : Bool
  relock : Attempt
  written : Bool

/-- The characteristics are read once they are locked. A refused lock ends the call at once. -/
def readNci (info : TreeInfo) (o : NciAnswers) : Locking → Locking
  | (.success, locked, held) =>
      if o.read then (.success, locked, held) else (.nciRead, treeUnlockNci info locked held)
  | (.reopenFailed, locked, held) => (.reopenFailed, treeUnlockNci info locked held)
  | (status, locked, held) => (status, locked, held)

def treeGetAndLockNci (info : TreeInfo) (o : NciAnswers) (locked : ℤ) (held : Held) :
    Option Locking :=
  if info.readonly then some (.readonlyTree, locked, held)
  else if info.inMemory then some (.success, locked + 2, held)
  else if ¬ info.nciOpen ∧ ¬ o.opened then some (.openFailed, locked, held)
  else (lockNciRecord info o.attempts locked held).map (readNci info o)

def treePutNci (info : TreeInfo) (o : NciAnswers) (locked : ℤ) (held : Held) : Locking :=
  if info.inMemory then (.success, if locked = 0 then locked - 2 else locked, held)
  else
    let (status, locked, held) :=
      if locked = 0 then
        match treeLockNci info o.relock false true locked held with
        | (status, _, locked, held) => (status, locked, held)
      else (.success, locked, held)
    if status ≠ .success then (status, locked, held)
    else (if o.written then .success else .failure, treeUnlockNci info locked held)

/-! ### The datafile -/

def treeLockDatafile (info : TreeInfo) : List Attempt → Held → Option (Status × Bool × Held)
  | attempts, held =>
      if info.readonly then some (.success, false, held)
      else lock attempts held
where
  /-- The status, and whether there is no file left. -/
  lock : List Attempt → Held → Option (Status × Bool × Held)
    | [], _ => none
    | a :: attempts, held =>
        if ¬ a.granted then some (.lockFailure, false, held)
        else if ¬ a.deleted then some (.success, false, held.lockData)
        else if a.reopened then lock attempts held
        else some (.reopenFailed, a.gone, held)

def treeUnLockDatafile (info : TreeInfo) (held : Held) : Held :=
  if info.readonly then held else held.unlockData

/-- What the system answers when bytes are written to the datafile. -/
structure WriteAnswers where
  attempts : List Attempt
  written : Bool

/-- Bytes are written, and the lock is released, whether or not it was granted. Without a file
there is no answer. -/
def writeProperty (info : TreeInfo) (o : WriteAnswers) (held : Held) : Option (Status × Held) :=
  (treeLockDatafile info o.attempts held).bind fun (_, gone, held) =>
    if gone then none
    else some (if o.written then .success else .failure, treeUnLockDatafile info held)

/-! ### What the locks come to -/

structure Acquired (info : TreeInfo) (held : Held) (locked : ℤ) (held' : Held) : Prop where
  writable : info.readonly = false
  counter : locked = if info.inMemory then 2 else 3
  held_eq : held' = if info.inMemory then held else held.lockNci

variable {info : TreeInfo} {held held' : Held} {locked locked' : ℤ} {status : Status}

theorem treeLockNci_free (hreadonly : info.readonly = false) (a : Attempt) :
    treeLockNci info a true true 0 held =
      if ¬ a.granted then (.lockFailure, a.deleted, 0, held)
      else if ¬ a.deleted then (.success, false, 3, held.lockNci)
      else (.success, true, 0, held.lockNci) := by
  simp [treeLockNci, hreadonly]

theorem lockNciRecord_spec (hreadonly : info.readonly = false) {attempts : List Attempt}
    (h : lockNciRecord info attempts 0 held = some (status, locked', held')) :
    status = .success ∧ locked' = 3 ∧ held' = held.lockNci ∨
      status ≠ .success ∧ locked' = 0 ∧ held' = held := by
  induction attempts with
  | nil => cases h
  | cons a attempts ih =>
    rw [lockNciRecord, treeLockNci_free hreadonly] at h
    by_cases hgranted : a.granted
    · by_cases hdeleted : a.deleted
      · by_cases hreopened : a.reopened
        · simp only [hgranted, hdeleted, hreopened, not_true, if_false, if_true,
            Held.unlockNci_lockNci] at h
          exact ih h
        · simp [hgranted, hdeleted, hreopened] at h
          obtain ⟨rfl, rfl, rfl⟩ := h
          exact Or.inr ⟨by decide, rfl, rfl⟩
      · simp [hgranted, hdeleted] at h
        obtain ⟨rfl, rfl, rfl⟩ := h
        exact Or.inl ⟨rfl, rfl, rfl⟩
    · simp [hgranted] at h
      obtain ⟨rfl, rfl, rfl⟩ := h
      exact Or.inr ⟨by decide, rfl, rfl⟩

theorem treeUnlockNci_zero (hreadonly : info.readonly = false) :
    (treeUnlockNci info 0 held).2 = held := by
  simp [treeUnlockNci, hreadonly]

namespace Acquired

variable (h : Acquired info held locked held')

include h

theorem unlock_held : (treeUnlockNci info locked held').2 = held := by
  obtain ⟨hreadonly, rfl, rfl⟩ := h
  cases hmem : info.inMemory <;> simp [treeUnlockNci, hreadonly]

theorem put_held (o : NciAnswers) : (treePutNci info o locked held').2.2 = held := by
  have hunlock := h.unlock_held
  obtain ⟨hreadonly, rfl, rfl⟩ := h
  cases hmem : info.inMemory with
  | true => simp [treePutNci, hmem]
  | false =>
    simp only [hmem, Bool.false_eq_true, if_false] at hunlock
    simp [treePutNci, hmem, hunlock]

theorem lockData : Acquired info held.lockData locked held'.lockData := by
  obtain ⟨hreadonly, rfl, rfl⟩ := h
  refine ⟨hreadonly, rfl, ?_⟩
  split <;> rfl

theorem unlockData : Acquired info held.unlockData locked held'.unlockData := by
  obtain ⟨hreadonly, rfl, rfl⟩ := h
  refine ⟨hreadonly, rfl, ?_⟩
  split <;> rfl

end Acquired

theorem treeGetAndLockNci_spec {o : NciAnswers}
    (h : treeGetAndLockNci info o 0 held = some (status, locked', held')) :
    status = .success ∧ Acquired info held locked' held' ∨ status ≠ .success ∧ held' = held := by
  unfold treeGetAndLockNci at h
  split at h
  · cases h
    exact Or.inr ⟨by decide, rfl⟩
  rename_i hreadonly
  rw [Bool.not_eq_true] at hreadonly
  split at h
  · rename_i hmem
    cases h
    exact Or.inl ⟨rfl, hreadonly, by simp [hmem], by simp [hmem]⟩
  rename_i hmem
  split at h
  · cases h
    exact Or.inr ⟨by decide, rfl⟩
  obtain ⟨⟨status', locked, held''⟩, hlock, heq⟩ := Option.map_eq_some_iff.1 h
  rcases lockNciRecord_spec hreadonly hlock with ⟨rfl, rfl, rfl⟩ | ⟨hstatus, rfl, rfl⟩
  · have hacq : Acquired info held 3 held.lockNci :=
      ⟨hreadonly, by simp [hmem], by simp [hmem]⟩
    rw [readNci] at heq
    split at heq
    · cases heq
      exact Or.inl ⟨rfl, hacq⟩
    · have hstatus : Status.nciRead = status := congrArg Prod.fst heq
      have hheld : (treeUnlockNci info 3 held.lockNci).2 = held' := congrArg (fun r => r.2.2) heq
      exact Or.inr ⟨by rw [← hstatus]; decide, hheld.symm.trans hacq.unlock_held⟩
  · right
    unfold readNci at heq
    split at heq
    · rename_i hsuccess
      exact absurd (congrArg Prod.fst hsuccess) hstatus
    · rename_i hreopen
      cases hreopen
      have hstatus' : Status.reopenFailed = status := congrArg Prod.fst heq
      have hheld : (treeUnlockNci info 0 held'').2 = held' := congrArg (fun r => r.2.2) heq
      exact ⟨by rw [← hstatus']; decide, hheld.symm.trans (treeUnlockNci_zero hreadonly)⟩
    · rename_i hother
      simp only [Prod.mk.injEq] at hother heq
      obtain ⟨rfl, rfl, rfl⟩ := hother
      obtain ⟨rfl, -, rfl⟩ := heq
      exact ⟨hstatus, rfl⟩

theorem treeLockDatafile_spec (hreadonly : info.readonly = false) {attempts : List Attempt}
    {gone : Bool} (h : treeLockDatafile info attempts held = some (status, gone, held')) :
    status = .success ∧ gone = false ∧ held' = held.lockData ∨
      status ≠ .success ∧ held' = held := by
  simp only [treeLockDatafile, hreadonly, Bool.false_eq_true, if_false] at h
  induction attempts with
  | nil => cases h
  | cons a attempts ih =>
    rw [treeLockDatafile.lock] at h
    split at h
    · cases h
      exact Or.inr ⟨by decide, rfl⟩
    · split at h
      · cases h
        exact Or.inl ⟨rfl, rfl, rfl⟩
      · split at h
        · exact ih h
        · cases h
          exact Or.inr ⟨by decide, rfl⟩

theorem treeUnLockDatafile_eq (hreadonly : info.readonly = false) :
    treeUnLockDatafile info held = held.unlockData := by
  simp [treeUnLockDatafile, hreadonly]

/-- The last attempt is granted on a file that is not deleted, and each before it on one that can
be opened again. -/
def Granted : List Attempt → Prop
  | [] => False
  | a :: attempts => a.granted ∧ (¬ a.deleted ∨ a.reopened ∧ Granted attempts)

theorem treeLockDatafile_success (hreadonly : info.readonly = false) {attempts : List Attempt}
    {gone : Bool} (h : treeLockDatafile info attempts held = some (status, gone, held')) :
    status = .success ↔ Granted attempts := by
  simp only [treeLockDatafile, hreadonly, Bool.false_eq_true, if_false] at h
  induction attempts with
  | nil => cases h
  | cons a attempts ih =>
    rw [treeLockDatafile.lock] at h
    rw [Granted]
    split at h
    · rename_i hgranted
      simp only [Option.some.injEq, Prod.mk.injEq] at h
      simp [← h.1, hgranted]
    · rename_i hgranted
      split at h
      · rename_i hdeleted
        simp only [Option.some.injEq, Prod.mk.injEq] at h
        rw [not_not] at hgranted
        simp [← h.1, hgranted, hdeleted]
      · rename_i hdeleted
        rw [not_not] at hgranted hdeleted
        split at h
        · rename_i hreopened
          simp [ih h, hgranted, hdeleted, hreopened]
        · rename_i hreopened
          simp only [Option.some.injEq, Prod.mk.injEq] at h
          simp [← h.1, hdeleted, hreopened]

theorem lockNciRecord_success (hreadonly : info.readonly = false) {attempts : List Attempt}
    (h : lockNciRecord info attempts 0 held = some (status, locked', held')) :
    status = .success ↔ Granted attempts := by
  induction attempts with
  | nil => cases h
  | cons a attempts ih =>
    rw [lockNciRecord, treeLockNci_free hreadonly] at h
    rw [Granted]
    by_cases hgranted : a.granted
    · by_cases hdeleted : a.deleted
      · by_cases hreopened : a.reopened
        · simp only [hgranted, hdeleted, hreopened, not_true, if_false, if_true,
            Held.unlockNci_lockNci] at h
          simp [ih h, hgranted, hdeleted, hreopened]
        · simp [hgranted, hdeleted, hreopened] at h
          simp [← h.1, hdeleted, hreopened]
      · simp [hgranted, hdeleted] at h
        simp [← h.1, hgranted, hdeleted]
    · simp [hgranted] at h
      simp [← h.1, hgranted]

structure Locks (info : TreeInfo) (o : NciAnswers) : Prop where
  writable : info.readonly = false
  granted : info.inMemory = true ∨ (info.nciOpen = true ∨ o.opened = true) ∧
    Granted o.attempts ∧ o.read = true

theorem treeGetAndLockNci_success {o : NciAnswers}
    (h : treeGetAndLockNci info o 0 held = some (status, locked', held')) :
    status = .success ↔ Locks info o := by
  have hlocks : Locks info o ↔ info.readonly = false ∧ (info.inMemory = true ∨
      (info.nciOpen = true ∨ o.opened = true) ∧ Granted o.attempts ∧ o.read = true) :=
    ⟨fun h => ⟨h.writable, h.granted⟩, fun h => ⟨h.1, h.2⟩⟩
  rw [hlocks]
  unfold treeGetAndLockNci at h
  split at h
  · rename_i hreadonly
    simp only [Option.some.injEq, Prod.mk.injEq] at h
    simp [← h.1, hreadonly]
  rename_i hreadonly
  rw [Bool.not_eq_true] at hreadonly
  split at h
  · rename_i hmem
    simp only [Option.some.injEq, Prod.mk.injEq] at h
    simp [← h.1, hreadonly, hmem]
  rename_i hmem
  split at h
  · rename_i hclosed
    simp only [Option.some.injEq, Prod.mk.injEq] at h
    simp [← h.1, hmem, hclosed]
  rename_i hopen
  have hopen' : info.nciOpen = true ∨ o.opened = true := by
    by_contra hclosed
    exact hopen (not_or.1 hclosed)
  obtain ⟨⟨status', locked, held''⟩, hlock, heq⟩ := Option.map_eq_some_iff.1 h
  rw [← lockNciRecord_success hreadonly hlock]
  have hstatus : (readNci info o (status', locked, held'')).1 = status := congrArg Prod.fst heq
  cases status' <;> simp [readNci] at hstatus <;> simp [← hstatus, hreadonly, hmem, hopen']
  by_cases hread : o.read <;> simp [hread]

end MdsPlus.RecordLocks
