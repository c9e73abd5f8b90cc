import MdsPlus.JobQueue
import MdsPlus.LinkedLists
import Mathlib.Data.List.Range

/-!
Runs of the job queue. Its links agree in every run, and jobs are started in the order they were
queued. Which jobs are answered depends on what is done to jobs that are removed or
cancelled.
-/

namespace MdsPlus.JobQueueRuns

open JobQueue LinkedLists

def fresh : Worker → List ℕ
  | .taken job | .current job => [job]
  | _ => []

structure Consistent (s : State) (q : List ℕ) : Prop where
  links : Linked s.next s.previous none s.jobQueue q s.jobQueueNext none
  order : (s.started ++ fresh s.worker ++ q).Sublist (List.range s.accepted.length)

variable {s s' : State} {q : List ℕ}

theorem Consistent.nodup (h : Consistent s q) : q.Nodup :=
  List.nodup_range.sublist ((List.sublist_append_right _ _).trans h.order)

theorem Consistent.lt (h : Consistent s q) {j : ℕ} (hj : j ∈ q) : j < s.accepted.length :=
  List.mem_range.mp (h.order.subset (List.mem_append_right _ hj))

theorem Consistent.length_le (h : Consistent s q) : q.length ≤ s.accepted.length := by
  have := ((List.sublist_append_right _ _).trans h.order).length_le
  rwa [List.length_range] at this

def after (s : State) (q : List ℕ) : Step → List ℕ
  | .serverQAction job => if job.client.addr = 0 then q else q ++ [s.accepted.length]
  | .removeLast => q.dropLast
  | .abortJobs flush => if flush then [] else q
  | .nextJob => q.tail
  | _ => q

end MdsPlus.JobQueueRuns
