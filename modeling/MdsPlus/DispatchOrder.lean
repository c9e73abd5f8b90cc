import MdsPlus.DispatchPhase
import Mathlib.Data.List.Range

/-!
The order in which a phase is dispatched. Groups of sequential actions are dispatched one after the
other, each when the one before is done.
-/

namespace MdsPlus.DispatchOrder

open DispatchTables DispatchPhase

variable {t : DispatchTable}

/-! ### What threads do -/

def dispatchedSince (t : DispatchTable) : List Event → List ℕ
  | [] => []
  | .began _ :: _ => []
  | .dispatched i :: log =>
      if (t.actions i).isConditional then dispatchedSince t log else i :: dispatchedSince t log
  | .evaluated _ _ _ :: log | .completed _ _ :: log => dispatchedSince t log

def Sound (t : DispatchTable) : Task → Prop
  | .dispatch c => (t.actions c).isConditional = true
  | .references i rest => ∀ c ∈ rest, c ∈ (t.actions i).referencedBy
  | _ => True

structure Settles (t : DispatchTable) (s s' : Shared) : Prop where
  done : ∀ j, (s.flags j).done = true → (s'.flags j).done = true
  pending : ∀ j, pending s' j = true → pending s j = true
  since : dispatchedSince t s'.log = dispatchedSince t s.log
  abort : s'.abort = s.abort

variable {s s' s'' : Shared} {i j : ℕ}

theorem Settles.refl (t : DispatchTable) (s : Shared) : Settles t s s :=
  ⟨fun _ h => h, fun _ h => h, rfl, rfl⟩

theorem Settles.trans (h : Settles t s s') (h' : Settles t s' s'') : Settles t s s'' :=
  ⟨fun j hj => h'.done j (h.done j hj), fun j hj => h.pending j (h'.pending j hj),
    h'.since.trans h.since, h'.abort.trans h.abort⟩

theorem setFlags_same (s : Shared) (i : ℕ) (f : Flags) : (s.setFlags i f).flags i = f := if_pos rfl

theorem setFlags_other (s : Shared) (f : Flags) (h : j ≠ i) :
    (s.setFlags i f).flags j = s.flags j := if_neg h

theorem setFlags_settles (t : DispatchTable) (s : Shared) {f : Flags}
    (hdone : (s.flags i).done = true → f.done = true)
    (hpending : (f.dispatched && !f.done) = true → pending s i = true) :
    Settles t s (s.setFlags i f) := by
  refine ⟨fun j hj => ?_, fun j hj => ?_, rfl, rfl⟩
  · by_cases h : j = i
    · subst h
      rw [setFlags_same]
      exact hdone hj
    · rw [setFlags_other s f h]
      exact hj
  · by_cases h : j = i
    · subst h
      unfold pending at hj
      rw [setFlags_same] at hj
      exact hpending hj
    · unfold pending at hj ⊢
      rw [setFlags_other s f h] at hj
      exact hj

theorem setStatus_settles (t : DispatchTable) (s : Shared) (i : ℕ) (status : ℤ) :
    Settles t s (s.setStatus i status) :=
  setFlags_settles t s (fun h => h) fun h => h

theorem complete_settles (t : DispatchTable) (s : Shared) (i : ℕ) :
    Settles t s (complete t s i) := by
  have hset := setFlags_settles t s (i := i) (f := { s.flags i with done := true })
    (fun _ => rfl) fun h => by
      rw [Bool.not_true, Bool.and_false] at h
      cases h
  exact ⟨hset.done, hset.pending, rfl, rfl⟩

theorem complete_done (t : DispatchTable) (s : Shared) (i : ℕ) :
    ((complete t s i).flags i).done = true := by
  change ((s.setFlags i _).flags i).done = true
  rw [setFlags_same]

theorem reference_settles (t : DispatchTable) (s : Shared) (i c : ℕ) :
    Settles t s (reference t s i c).2 := by
  unfold reference
  split
  · cases evaluate t s c with
    | _ => exact ⟨fun _ h => h, fun _ h => h, rfl, rfl⟩
  · exact Settles.refl t s

theorem send_settles {o : Outcome} {tasks : List Task}
    (h : send o s i = some (tasks, s')) : Settles t s s' := by
  unfold send at h
  cases o with
  | unreachable =>
    cases h
    exact Settles.refl t s
  | noAddress =>
    cases h
    exact Settles.refl t s
  | unsent conid status =>
    dsimp only at h
    split at h
    · cases h
    · cases h
      exact ⟨fun _ h => h, fun _ h => h, rfl, rfl⟩
  | sent conid =>
    cases h
    exact ⟨fun _ h => h, fun _ h => h, rfl, rfl⟩
  | answered => cases h
  | unanswered status => cases h

theorem answer_settles {o : Outcome} {jobid : ℕ} {tasks : List Task}
    (h : answer o s i jobid = some (tasks, s')) : Settles t s s' := by
  unfold answer at h
  cases o with
  | answered =>
    cases h
    exact Settles.refl t s
  | unanswered status =>
    dsimp only at h
    split at h
    · cases h
    · cases h
      exact Settles.refl t s
  | _ => cases h

theorem advance_settles {o : Outcome} {task : Task} {tasks : List Task}
    (h : advance t o task s = some (tasks, s')) (hdispatch : ∀ i, task ≠ .dispatch i) :
    Settles t s s' := by
  cases task with
  | dispatch i => exact absurd rfl (hdispatch i)
  | send i => exact send_settles h
  | answer i jobid => exact answer_settles h
  | failed i status =>
    cases h
    have hset := setFlags_settles t s (i := i)
      (f := { s.flags i with dispatched := false, status }) (fun h => h) fun h => by
        rw [Bool.false_and] at h
        cases h
    exact hset.trans (complete_settles t _ i)
  | cleanup _ _ | lost _ _ =>
    unfold advance at h
    dsimp only at h
    split at h
    · cases h
      exact Settles.refl t s
    · cases h
      exact ⟨fun _ h => h, fun _ h => h, rfl, rfl⟩
  | popped job status =>
    cases h
    exact setStatus_settles t s job.idx status
  | finish jobid status =>
    obtain ⟨⟨job, jobs⟩, -, heq⟩ := Option.map_eq_some_iff.mp h
    cases heq
    have hset := setStatus_settles t s job.idx status
    exact ⟨hset.done, hset.pending, rfl, rfl⟩
  | pop jobid =>
    obtain ⟨⟨job, jobs⟩, -, heq⟩ := Option.map_eq_some_iff.mp h
    cases heq
    exact ⟨fun _ h => h, fun _ h => h, rfl, rfl⟩
  | actionDone i =>
    cases h
    exact complete_settles t s i
  | unlockTable =>
    cases h
    exact Settles.refl t s
  | unlocked i =>
    cases h
    exact Settles.refl t s
  | references i rest =>
    cases rest with
    | nil =>
      cases h
      exact Settles.refl t s
    | cons c rest =>
      cases h
      exact reference_settles t s i c
  | settle c status =>
    cases h
    exact (setStatus_settles t s c status).trans (complete_settles t _ c)
  | relock c => cases h

theorem complete_flags (t : DispatchTable) (s : Shared) (h : j ≠ i) :
    (complete t s i).flags j = s.flags j := if_neg h

theorem dispatch_other (t : DispatchTable) (s : Shared) (h : j ≠ i) :
    (dispatch t s i).2.flags j = s.flags j := by
  unfold dispatch
  dsimp only
  split
  · rw [complete_flags t _ h]
    exact setFlags_other _ _ h
  · exact setFlags_other _ _ h

theorem dispatch_since (t : DispatchTable) (s : Shared) (i : ℕ) :
    dispatchedSince t (dispatch t s i).2.log =
      if (t.actions i).isConditional then dispatchedSince t s.log
      else i :: dispatchedSince t s.log := by
  unfold dispatch
  dsimp only
  split
  · rfl
  · rfl

theorem dispatch_abort (t : DispatchTable) (s : Shared) (i : ℕ) :
    (dispatch t s i).2.abort = s.abort := by
  unfold dispatch
  dsimp only
  split
  · rfl
  · rfl

theorem advance_dispatch {o : Outcome} {tasks : List Task}
    (h : advance t o (.dispatch i) s = some (tasks, s')) :
    tasks = (dispatch t s i).1 ∧ s' = (dispatch t s i).2 := by
  have heq : dispatch t s i = (tasks, s') := Option.some.inj h
  rw [heq]
  exact ⟨rfl, rfl⟩

/-- What is seen of a step with a sound task by sequential actions. -/
structure Mild (t : DispatchTable) (s s' : Shared) : Prop where
  pending : ∀ j, (t.actions j).isConditional = false → pending s' j = true → pending s j = true
  since : dispatchedSince t s'.log = dispatchedSince t s.log
  abort : s'.abort = s.abort

theorem Settles.mild (h : Settles t s s') : Mild t s s' :=
  ⟨fun j _ => h.pending j, h.since, h.abort⟩

theorem advance_mild {o : Outcome} {task : Task} {tasks : List Task}
    (h : advance t o task s = some (tasks, s')) (hsound : Sound t task) : Mild t s s' := by
  by_cases hdispatch : ∃ i, task = .dispatch i
  · obtain ⟨i, rfl⟩ := hdispatch
    obtain ⟨-, rfl⟩ := advance_dispatch h
    have hcond : (t.actions i).isConditional = true := hsound
    refine ⟨fun j hj hpending => ?_, ?_, dispatch_abort t s i⟩
    · have hne : j ≠ i := by
        intro heq
        rw [heq, hcond] at hj
        cases hj
      unfold pending at hpending ⊢
      rw [dispatch_other t s hne] at hpending
      exact hpending
    · rw [dispatch_since, if_pos hcond]
  · exact (advance_settles h fun i hi => hdispatch ⟨i, hi⟩).mild

def Follows (t : DispatchTable) (s : Shared) (task : Task) : Prop :=
  Sound t task ∧ ∀ c, task = .dispatch c → (s.flags c).done = false

theorem follows_of_ne {task : Task} (h : Sound t task) (hne : ∀ c, task ≠ .dispatch c) :
    Follows t s task :=
  ⟨h, fun c heq => absurd heq (hne c)⟩

theorem follows_actionDone {c : Bool} {task : Task}
    (h : task ∈ if c then [Task.actionDone i] else []) : Follows t s task := by
  split at h
  · obtain rfl := List.mem_singleton.mp h
    exact follows_of_ne trivial nofun
  · cases h

theorem follows_pair {u v task : Task} (h : task ∈ [u, v]) (hu : Follows t s u)
    (hv : Follows t s v) : Follows t s task := by
  obtain rfl | h := List.mem_cons.mp h
  · exact hu
  · obtain rfl := List.mem_singleton.mp h
    exact hv

theorem follows_one {u task : Task} (h : task ∈ [u]) (hu : Follows t s u) : Follows t s task := by
  obtain rfl := List.mem_singleton.mp h
  exact hu

theorem send_follows {o : Outcome} {tasks : List Task} (h : send o s i = some (tasks, s')) :
    ∀ task ∈ tasks, Follows t s task := by
  unfold send at h
  intro task htask
  cases o with
  | unreachable =>
    cases h
    exact follows_pair htask (follows_of_ne trivial nofun) (follows_of_ne trivial nofun)
  | noAddress =>
    cases h
    exact follows_pair htask (follows_of_ne trivial nofun) (follows_of_ne trivial nofun)
  | unsent conid status =>
    dsimp only at h
    split at h
    · cases h
    · cases h
      exact follows_pair htask (follows_of_ne trivial nofun) (follows_of_ne trivial nofun)
  | sent conid =>
    cases h
    exact follows_one htask (follows_of_ne trivial nofun)
  | answered => cases h
  | unanswered status => cases h

theorem answer_follows {o : Outcome} {jobid : ℕ} {tasks : List Task}
    (h : answer o s i jobid = some (tasks, s')) : ∀ task ∈ tasks, Follows t s task := by
  unfold answer at h
  intro task htask
  cases o with
  | answered =>
    cases h
    cases htask
  | unanswered status =>
    dsimp only at h
    split at h
    · cases h
    · cases h
      exact follows_pair htask (follows_of_ne trivial nofun) (follows_of_ne trivial nofun)
  | _ => cases h

theorem reference_follows {c : ℕ} (hc : (t.actions c).isConditional = true) {task : Task}
    (h : task ∈ (reference t s i c).1) : Follows t s task := by
  unfold reference at h
  split at h
  · next hfree =>
    obtain ⟨hdone, -⟩ := Bool.and_eq_true_iff.mp hfree
    rw [Bool.not_eq_eq_eq_not, Bool.not_true] at hdone
    cases hvalue : evaluate t s c with
    | ok doit =>
      simp only [hvalue] at h
      obtain rfl := List.mem_singleton.mp h
      split
      · refine ⟨hc, fun d hd => ?_⟩
        obtain rfl := Task.dispatch.inj hd
        exact hdone
      · exact follows_of_ne trivial nofun
    | unknownVar =>
      simp only [hvalue] at h
      cases h
    | failed =>
      simp only [hvalue] at h
      exact follows_one h (follows_of_ne trivial nofun)
  · cases h

theorem advance_follows {o : Outcome} {task u : Task} {tasks : List Task}
    (h : advance t o task s = some (tasks, s'))
    (hsound : ∀ i rest, task = .references i rest → ∀ c ∈ rest, c ∈ (t.actions i).referencedBy)
    (hu : u ∈ tasks) : Follows t s u := by
  cases task with
  | dispatch i =>
    obtain ⟨rfl, -⟩ := advance_dispatch h
    unfold dispatch at hu
    dsimp only at hu
    split at hu
    · exact follows_one hu (follows_of_ne trivial nofun)
    · exact follows_one hu (follows_of_ne trivial nofun)
  | send i => exact send_follows h u hu
  | answer i jobid => exact answer_follows h u hu
  | failed i status =>
    cases h
    exact follows_one hu (follows_of_ne trivial nofun)
  | cleanup _ _ | lost _ _ =>
    unfold advance at h
    dsimp only at h
    split at h
    · cases h
      cases hu
    · cases h
      exact follows_pair hu (follows_of_ne trivial nofun) (follows_of_ne trivial nofun)
  | popped job status =>
    cases h
    exact follows_actionDone hu
  | finish jobid status =>
    obtain ⟨⟨job, jobs⟩, -, heq⟩ := Option.map_eq_some_iff.mp h
    cases heq
    obtain hu | hu := List.mem_append.mp hu
    · exact follows_actionDone hu
    · exact follows_one hu (follows_of_ne trivial nofun)
  | pop jobid =>
    obtain ⟨⟨job, jobs⟩, -, heq⟩ := Option.map_eq_some_iff.mp h
    cases heq
    cases hu
  | actionDone i =>
    cases h
    exact follows_pair hu (follows_of_ne trivial nofun) (follows_of_ne trivial nofun)
  | unlockTable =>
    cases h
    cases hu
  | unlocked i =>
    cases h
    split at hu
    · cases hu
    · exact follows_one hu (follows_of_ne (fun c hc => hc) nofun)
  | references i rest =>
    cases rest with
    | nil =>
      cases h
      cases hu
    | cons c rest =>
      have hin := hsound i (c :: rest) rfl
      cases h
      obtain hu | hu := List.mem_append.mp hu
      · exact reference_follows (t.referenced i c (hin c List.mem_cons_self)) hu
      · exact follows_one hu (follows_of_ne (fun d hd => hin d (List.mem_cons_of_mem c hd)) nofun)
  | settle c status =>
    cases h
    exact follows_one hu (follows_of_ne trivial nofun)
  | relock c => cases h

end MdsPlus.DispatchOrder
