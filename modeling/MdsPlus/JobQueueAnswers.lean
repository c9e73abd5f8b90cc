import MdsPlus.JobQueueRuns

/-!
Answers of the job queue. In runs that do not remove a waiting job, nor cancel the worker
between its answer and the end of the job, each job that is freed has been answered once.
-/

namespace MdsPlus.JobQueueAnswers

open JobQueue JobQueueRuns LinkedLists

/-- What the client of a job is answered: neither that it is being started, nor what monitors
are told. -/
def answers (replies : List Reply) (job : ℕ) : List Reply :=
  replies.filter fun r => r.job = job ∧ r.text = false ∧ r.replyType ≠ .starting

def held : Worker → List ℕ
  | .taken job | .current job | .doing job | .monitors job _ _ | .monitor job _ _ => [job]
  | _ => []

def done : Worker → List ℕ
  | .answered job | .cleared job => [job]
  | _ => []

/-- CurrentJob, left by a worker that was cancelled. -/
def orphaned (s : State) : List ℕ :=
  match s.worker with
  | .exited | .waiting | .taken _ => s.currentJob.toList
  | _ => []

def unanswered (s : State) (q : List ℕ) : List ℕ := q ++ held s.worker ++ orphaned s

def closed (s : State) : List ℕ := done s.worker ++ s.freed

def own (s : State) (j : ℕ) : SrvJob :=
  match s.worker with
  | .monitors job prev _ | .monitor job prev _ =>
      if j = job then { s.jobs j with client := prev } else s.jobs j
  | _ => s.jobs j

structure Fits (started : List ℕ) (job : SrvJob) (r : Reply) : Prop where
  client : r.client = job.client
  jobid : r.jobid = job.jobid
  replyType : r.replyType = .finished ∨ r.replyType = .checkedin ∧ job.checkin
  status : r.status = ServerABORT ∨ r.job ∈ started

def Pending (s : State) (j : ℕ) : Prop :=
  answers s.replies j = [] ∧ s.accepted[j]? = some (own s j)

def Answered (s : State) (j : ℕ) : Prop :=
  ∃ job r, s.accepted[j]? = some job ∧ answers s.replies j = [r] ∧ Fits s.started job r

/-- CurrentJob follows the worker. -/
def FollowsWorker (s : State) : Prop :=
  match s.worker with
  | .current job | .doing job | .monitors job _ _ | .monitor job _ _ | .answered job =>
      s.currentJob = some job
  | .cleared _ => s.currentJob = none
  | _ => True

def begun : Worker → List ℕ
  | .doing job | .monitors job _ _ | .monitor job _ _ => [job]
  | _ => []

structure Settled (s : State) (q : List ℕ) : Prop where
  places : (unanswered s q ++ closed s).Perm (List.range s.accepted.length)
  pending : ∀ j ∈ unanswered s q, Pending s j
  answered : ∀ j ∈ closed s, Answered s j
  current : FollowsWorker s
  started : begun s.worker ⊆ s.started
  addressed : ∀ job ∈ s.accepted, job.client.addr ≠ 0
  replies_lt : ∀ r ∈ s.replies, r.job < s.accepted.length

/-- Steps that leave no job without an answer, and none with two: no waiting job is removed;
the worker is not cancelled when it has answered, nor while its job has the address of a
monitor; and a job that a cancelled worker has left is answered before another is started,
which is not answered for it. -/
def Orderly (s : State) : Step → Prop
  | .removeLast => s.jobQueueNext = none
  | .killWorker =>
      match s.worker with
      | .answered _ => False
      | .monitors job prev _ | .monitor job prev _ => (s.jobs job).client = prev
      | _ => True
  | .abortJobs _ =>
      match s.worker with
      | .current _ | .doing _ | .monitors .. | .monitor .. | .answered _ => False
      | _ => True
  | .setCurrentJob => s.currentJob = none
  | _ => True

variable {s s' : State} {q q' : List ℕ}

theorem answers_append (replies l : List Reply) (j : ℕ) :
    answers (replies ++ l) j = answers replies j ++ answers l j :=
  List.filter_append ..

theorem answers_eq_nil {l : List Reply} {j : ℕ}
    (h : ∀ r ∈ l, r.job = j → r.text = true ∨ r.replyType = .starting) : answers l j = [] := by
  apply List.filter_eq_nil_iff.mpr
  intro r hr
  rw [decide_eq_true_iff]
  intro ⟨hjob, htext, htype⟩
  obtain htrue | hstarting := h r hr hjob
  · rw [htext] at htrue
    cases htrue
  · exact htype hstarting

theorem Settled.move (h : Settled s q)
    (hplaces : (unanswered s' q' ++ closed s').Perm (unanswered s q ++ closed s))
    (hunanswered : unanswered s' q' ⊆ unanswered s q) (hclosed : closed s' ⊆ closed s)
    (haccepted : s'.accepted = s.accepted)
    (hanswers : ∀ j, answers s'.replies j = answers s.replies j)
    (hlt : ∀ r ∈ s'.replies, r ∈ s.replies ∨ r.job < s.accepted.length)
    (hown : ∀ j, own s' j = own s j)
    (hstarted : s.started ⊆ s'.started) (hbegun : begun s'.worker ⊆ s'.started)
    (hcurrent : FollowsWorker s') : Settled s' q' where
  places := by
    rw [haccepted]
    exact hplaces.trans h.places
  pending j hj := by
    obtain ⟨hnone, hjob⟩ := h.pending j (hunanswered hj)
    refine ⟨(hanswers j).trans hnone, ?_⟩
    rw [haccepted, hown]
    exact hjob
  answered j hj := by
    obtain ⟨job, r, hjob, hr, hclient, hjobid, htype, hstatus⟩ := h.answered j (hclosed hj)
    refine ⟨job, r, ?_, (hanswers j).trans hr, hclient, hjobid, htype, ?_⟩
    · rw [haccepted]
      exact hjob
    · exact hstatus.imp_right fun hmem => hstarted hmem
  current := hcurrent
  started := hbegun
  addressed := by
    rw [haccepted]
    exact h.addressed
  replies_lt r hr := by
    rw [haccepted]
    exact (hlt r hr).elim (h.replies_lt r) id

theorem Settled.mem_lt (h : Settled s q) {j : ℕ} (hj : j ∈ unanswered s q ++ closed s) :
    j < s.accepted.length :=
  List.mem_range.mp (h.places.mem_iff.mp hj)

theorem Settled.unanswered_nodup (h : Settled s q) : (unanswered s q).Nodup :=
  (h.places.nodup_iff.mpr List.nodup_range).sublist (List.sublist_append_left _ _)

theorem Settled.answer (h : Settled s q) {job : ℕ} {r : Reply} {jobs : ℕ → SrvJob}
    {l : List Address} (hbegun : begun s.worker = [job]) (hr : r.job = job)
    (htext : r.text = false) (htype : r.replyType ≠ .starting)
    (hjobs : ∀ j, j ≠ job → jobs j = s.jobs j)
    (hfits : ∀ queued, s.accepted[job]? = some queued → Fits s.started queued r) :
    Settled { s with
      jobs := jobs
      replies := s.replies ++ [r]
      monitors := l
      worker := .answered job } q := by
  have hheld : held s.worker = [job] ∧ done s.worker = [] ∧ orphaned s = [] ∧
      s.currentJob = some job ∧ ∀ j, j ≠ job → own s j = s.jobs j := by
    have hcurrent := h.current
    unfold FollowsWorker at hcurrent
    unfold orphaned own
    revert hbegun hcurrent
    cases s.worker with
    | doing j =>
      intro hbegun hcurrent
      cases hbegun
      exact ⟨rfl, rfl, rfl, hcurrent, fun _ _ => rfl⟩
    | monitors j prev left | monitor j prev left =>
      intro hbegun hcurrent
      cases hbegun
      exact ⟨rfl, rfl, rfl, hcurrent, fun i hi => if_neg hi⟩
    | _ =>
      intro hbegun
      cases hbegun
  obtain ⟨hheld, hdone, horphaned, hcurrent, hown⟩ := hheld
  have hunanswered : unanswered s q = q ++ [job] := by
    unfold unanswered
    rw [hheld, horphaned, List.append_nil]
  have hclosed : closed s = s.freed := by
    unfold closed
    rw [hdone, List.nil_append]
  have hnodup := h.unanswered_nodup
  rw [hunanswered] at hnodup
  have hjobq : job ∉ q := fun hmem =>
    (List.nodup_append.mp hnodup).2.2 job hmem job (List.mem_singleton_self job) rfl
  have hjobfreed : job ∉ s.freed := by
    have hall := h.places.nodup_iff.mpr List.nodup_range
    rw [hunanswered, hclosed] at hall
    intro hmem
    exact (List.nodup_append.mp hall).2.2 job
      (List.mem_append_right _ (List.mem_singleton_self job)) job hmem rfl
  have hothers : ∀ j, j ≠ job → answers (s.replies ++ [r]) j = answers s.replies j := by
    intro j hj
    rw [answers_append, answers_eq_nil (l := [r]), List.append_nil]
    intro r' hr' hj'
    rw [List.mem_singleton.mp hr', hr] at hj'
    exact absurd hj'.symm hj
  constructor
  · change ((q ++ [] ++ []) ++ ([job] ++ s.freed)).Perm _
    have := h.places
    rw [hunanswered, hclosed] at this
    simpa only [List.append_nil, List.append_assoc] using this
  · intro j hj
    change j ∈ q ++ [] ++ [] at hj
    rw [List.append_nil, List.append_nil] at hj
    have hne : j ≠ job := fun he => hjobq (he ▸ hj)
    obtain ⟨hnone, hjob⟩ := h.pending j (by rw [hunanswered]; exact List.mem_append_left _ hj)
    refine ⟨(hothers j hne).trans hnone, ?_⟩
    rw [hown j hne] at hjob
    change s.accepted[j]? = some (jobs j)
    rw [hjobs j hne]
    exact hjob
  · intro j hj
    change j ∈ job :: s.freed at hj
    obtain rfl | hj := List.mem_cons.mp hj
    · obtain ⟨hnone, hjob⟩ := h.pending j (by
        rw [hunanswered]
        exact List.mem_append_right _ (List.mem_singleton_self j))
      refine ⟨own s j, r, hjob, ?_, hfits _ hjob⟩
      change answers (s.replies ++ [r]) j = [r]
      rw [answers_append, hnone, List.nil_append]
      apply List.filter_eq_self.mpr
      intro r' hr'
      rw [List.mem_singleton.mp hr']
      exact decide_eq_true ⟨hr, htext, htype⟩
    · obtain ⟨queued, r', hqueued, hr', hfits'⟩ := h.answered j (by rw [hclosed]; exact hj)
      refine ⟨queued, r', hqueued, (hothers j fun he => hjobfreed (he ▸ hj)).trans hr', hfits'⟩
  · exact hcurrent
  · exact List.nil_subset _
  · exact h.addressed
  · intro r' hr'
    obtain hr' | hr' := List.mem_append.mp hr'
    · exact h.replies_lt r' hr'
    · rw [List.mem_singleton.mp hr', hr]
      apply h.mem_lt
      rw [hunanswered]
      exact List.mem_append_left _ (List.mem_append_right _ (List.mem_singleton_self job))

end MdsPlus.JobQueueAnswers
