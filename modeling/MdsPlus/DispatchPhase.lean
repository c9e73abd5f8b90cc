import MdsPlus.DispatchTables

/-!
ServerDispatchPhase. The main thread dispatches actions and waits for them; the receiver thread takes
the replies of servers. A step is what a thread does under one lock, and what it still has to do is a
stack.
-/

namespace MdsPlus.DispatchPhase

open DispatchTables

def notDispatched : ℤ := 0xfe18008

def cantHappen : ℤ := 0xfe1801a

def pathDown : ℤ := 0xfe18042

def socketAddrError : ℤ := 0xfe1804a

/-- What of an action is changed. -/
structure Flags where
  status : ℤ
  done : Bool
  dispatched : Bool
  doing : Bool
deriving DecidableEq

/-- A message to a server with an action to do. The callback is taken once. -/
structure Job where
  jobid : ℕ
  conid : ℕ
  idx : ℕ
  callback : Bool
deriving DecidableEq

/-- What is noted of a run, the last first. When an action is completed its event is sent, if it has
one, and its status is made public. -/
inductive Event
  | began (phase : ℤ)
  | dispatched (i : ℕ)
  | evaluated (c a : ℕ) (published : Published)
  | completed (i : ℕ) (status : ℤ)

structure Shared where
  flags : ℕ → Flags
  published : Published
  jobs : List Job
  nextJob : ℕ
  abort : Bool
  noact : Bool
  log : List Event

/-- What a thread has to do next. -/
inductive Task
  | dispatch (i : ℕ)
  | send (i : ℕ)
  /-- The answer to a message is awaited. -/
  | answer (i jobid : ℕ)
  /-- The error branch of dispatch. -/
  | failed (i : ℕ) (status : ℤ)
  /-- Job_cleanup, and its loop over the jobs of a connection. -/
  | cleanup (status : ℤ) (jobid : ℕ)
  | lost (conid : ℕ) (status : ℤ)
  /-- Job_callback_done of a job that is in the list no more, and of one that is. -/
  | popped (job : Job) (status : ℤ)
  | finish (jobid : ℕ) (status : ℤ)
  | pop (jobid : ℕ)
  /-- action_done, up to its end, where the lock of the table is released. -/
  | actionDone (i : ℕ)
  | unlockTable
  /-- action_done_action_unlocked, and its loop over references. -/
  | unlocked (i : ℕ)
  | references (i : ℕ) (rest : List ℕ)
  /-- A conditional action is completed without being dispatched. -/
  | settle (c : ℕ) (status : ℤ)
  /-- The lock of an action is taken by a thread that has it. -/
  | relock (c : ℕ)
deriving DecidableEq

inductive Outcome
  | unreachable
  | noAddress
  | unsent (conid : ℕ) (status : ℤ)
  | sent (conid : ℕ)
  | answered
  | unanswered (status : ℤ)
deriving DecidableEq

def isOk (status : ℤ) : Bool := status % 2 = 1

def Shared.setFlags (s : Shared) (i : ℕ) (f : Flags) : Shared :=
  { s with flags := fun j => if j = i then f else s.flags j }

def Shared.setStatus (s : Shared) (i : ℕ) (status : ℤ) : Shared :=
  s.setFlags i { s.flags i with status }

variable (t : DispatchTable)

def complete (s : Shared) (i : ℕ) : Shared :=
  let status := (s.flags i).status
  { s.setFlags i { s.flags i with done := true } with
    published := fun nid => if nid = (t.actions i).nid then some status else s.published nid
    log := .completed i status :: s.log }

def Shared.register (s : Shared) (i conid : ℕ) : Shared :=
  { s with jobs := ⟨s.nextJob, conid, i, true⟩ :: s.jobs, nextJob := s.nextJob + 1 }

/-- The first job that meets a condition, and the list without it. -/
def popJob (p : Job → Bool) : List Job → Option (Job × List Job)
  | [] => none
  | j :: jobs =>
      if p j then some (j, jobs) else (popJob p jobs).map fun (k, jobs) => (k, j :: jobs)

def takeCallback (jobid : ℕ) : List Job → Option (Job × List Job)
  | [] => none
  | j :: jobs =>
      if j.jobid = jobid then some (j, { j with callback := false } :: jobs)
      else (takeCallback jobid jobs).map fun (k, jobs) => (k, j :: jobs)

def evaluate (s : Shared) (c : ℕ) : Evaluation :=
  match (t.actions c).condition with
  | some condition => condition s.published
  | none => .failed

/-- dispatch, up to the release of the lock of the action. -/
def dispatch (s : Shared) (i : ℕ) : List Task × Shared :=
  let f : Flags := { s.flags i with done := false, doing := false, dispatched := true }
  let s := { s with log := .dispatched i :: s.log }
  if s.noact then ([.unlocked i], complete t (s.setFlags i { f with status := 1 }) i)
  else ([.send i], s.setFlags i f)

def send (o : Outcome) (s : Shared) (i : ℕ) : Option (List Task × Shared) :=
  match o with
  | .unreachable => some ([.actionDone i, .failed i pathDown], s)
  | .noAddress => some ([.actionDone i, .failed i socketAddrError], s)
  | .unsent conid status =>
      if isOk status then none
      else some ([.cleanup status s.nextJob, .failed i status], s.register i conid)
  | .sent conid => some ([.answer i s.nextJob], s.register i conid)
  | _ => none

def answer (o : Outcome) (s : Shared) (i jobid : ℕ) : Option (List Task × Shared) :=
  match o with
  | .answered => some ([], s)
  | .unanswered status =>
      if isOk status then none else some ([.cleanup status jobid, .failed i status], s)
  | _ => none

/-- One round of the loop of action_done_action_unlocked. -/
def reference (s : Shared) (i c : ℕ) : List Task × Shared :=
  if !(s.flags c).done && !(s.flags c).dispatched then
    let s' := { s with log := .evaluated c i s.published :: s.log }
    match evaluate t s c with
    | .ok doit => ([if doit ≠ 0 then .dispatch c else .settle c notDispatched], s')
    | .unknownVar => ([], s')
    | .failed => ([.relock c], s')
  else ([], s)

/-- What is done of a task, and the tasks that come of it. `none` is for what cannot go on, as there
is no such outcome, a lock is taken twice or a job has been freed. -/
def advance (o : Outcome) (task : Task) (s : Shared) : Option (List Task × Shared) :=
  match task with
  | .dispatch i => some (dispatch t s i)
  | .send i => send o s i
  | .answer i jobid => answer o s i jobid
  | .failed i status =>
      some ([.unlocked i],
        complete t (s.setFlags i { s.flags i with dispatched := false, status }) i)
  | .cleanup status jobid =>
      match popJob (fun j => j.jobid = jobid) s.jobs with
      | none => some ([], s)
      | some (j, jobs) => some ([.popped j status, .lost j.conid status], { s with jobs })
  | .lost conid status =>
      match popJob (fun j => j.conid = conid) s.jobs with
      | none => some ([], s)
      | some (j, jobs) => some ([.popped j status, .lost conid status], { s with jobs })
  | .popped j status =>
      some (if j.callback then [.actionDone j.idx] else [], s.setStatus j.idx status)
  | .finish jobid status =>
      (takeCallback jobid s.jobs).map fun (j, jobs) =>
        ((if j.callback then [.actionDone j.idx] else []) ++ [.pop jobid],
          { s.setStatus j.idx status with jobs })
  | .pop jobid =>
      (popJob (fun j => j.jobid = jobid) s.jobs).map fun (_, jobs) => ([], { s with jobs })
  | .actionDone i => some ([.unlocked i, .unlockTable], complete t s i)
  | .unlockTable => some ([], s)
  | .unlocked i =>
      some (if s.abort then [] else [.references i (t.actions i).referencedBy], s)
  | .references _ [] => some ([], s)
  | .references i (c :: rest) =>
      let (tasks, s) := reference t s i c
      some (tasks ++ [.references i rest], s)
  | .settle c status => some ([.unlocked c], complete t (s.setStatus c status) c)
  | .relock _ => none

/-! ### The main thread -/

/-- Where ServerDispatchPhase is when the main thread has no task. `scan` and `scanAll` are rounds of
check_actions_done in wait_for_actions, with what is still to look at. -/
inductive Place
  | idle
  | group (firstG : ℕ)
  | range (firstG lastG i : ℕ)
  | wait (firstG lastG : ℕ)
  | scan (firstG lastG : ℕ) (rest : List ℕ)
  | ending
  | waitAll
  | scanAll (rest : List ℕ)
  | marking
  | mark (i : ℕ)
  | returned
deriving DecidableEq

structure State where
  shared : Shared
  place : Place
  main : List Task
  receiver : List Task
  phase : ℤ
  sync : ℤ

def pending (s : Shared) (i : ℕ) : Bool := (s.flags i).dispatched && !(s.flags i).done

def State.ranges (s : State) : Ranges := setActionRanges t s.phase

/-- The indices of a range of check_actions_done. -/
def between (first last : ℕ) : List ℕ := List.range' first (last - first)

/-- What the main thread does without a task: its loops over groups, and what follows. After the last
loop the wait is over at once, as an abort is in progress. -/
def proceed (s : State) : Option State :=
  match s.place with
  | .idle | .returned => none
  | .group firstG =>
      if !s.shared.abort && firstG < (s.ranges t).lastS then
        some { s with
          place := .range firstG (setGroup t s.sync firstG (s.ranges t).lastS) firstG }
      else some { s with place := .ending }
  | .range firstG lastG i =>
      if i < lastG then
        some { s with place := .range firstG lastG (i + 1), main := [.dispatch i] }
      else some { s with place := .wait firstG lastG }
  | .wait firstG lastG =>
      some { s with
        place := if s.shared.abort then .group lastG
          else .scan firstG lastG (between firstG lastG) }
  | .scan _ lastG [] => some { s with place := .group lastG }
  | .scan firstG lastG (i :: rest) =>
      some { s with
        place := if pending s.shared i then .wait firstG lastG else .scan firstG lastG rest }
  | .ending => some { s with place := .waitAll, shared := { s.shared with abort := false } }
  | .waitAll =>
      some { s with
        place := if s.shared.abort then .marking
          else .scanAll (between (s.ranges t).firstC (s.ranges t).lastC) }
  | .scanAll [] => some { s with place := .marking }
  | .scanAll (i :: rest) =>
      some { s with place := if pending s.shared i then .waitAll else .scanAll rest }
  | .marking =>
      some { s with
        place := .mark (s.ranges t).firstC, shared := { s.shared with abort := true } }
  | .mark i =>
      if i < (s.ranges t).lastC then
        some { s with
          place := .mark (i + 1)
          shared := if (s.shared.flags i).done then s.shared
            else complete t (s.shared.setStatus i cantHappen) i }
      else some { s with place := .returned }

/-! ### Runs -/

/-- What happens next. The receiver reads a reply or finds a connection closed when it has no task. -/
inductive Move
  | start (phase : ℤ) (noact : Bool) (sync : ℤ)
  | main (o : Outcome)
  | receiver (o : Outcome)
  | finished (jobid : ℕ) (status : ℤ)
  | starting (jobid : ℕ)
  | disconnected (conid : ℕ)
deriving DecidableEq

/-- The task on a stack is done. -/
def advanceFirst (o : Outcome) (tasks : List Task) (s : Shared) : Option (List Task × Shared) :=
  match tasks with
  | [] => none
  | task :: rest => (advance t o task s).map fun (tasks, s) => (tasks ++ rest, s)

/-- ServerDispatchPhase is called; it waits for the lock of the table. -/
def start (s : State) (phase : ℤ) (noact : Bool) (sync : ℤ) : Option State :=
  if (s.place = .idle ∨ s.place = .returned) ∧ .unlockTable ∉ s.receiver then
    let shared := { s.shared with noact, abort := false }
    if 0 < phase then
      some { s with
        place := .group (setActionRanges t phase).firstS, phase, sync
        shared := { shared with log := .began phase :: shared.log } }
    else some { s with shared }
  else none

/-- before. -/
def starting (s : State) (jobid : ℕ) : Option State :=
  if s.receiver = [] then
    some { s with shared :=
      match s.shared.jobs.find? fun j => j.jobid = jobid with
      | some j => s.shared.setFlags j.idx { s.shared.flags j.idx with doing := true }
      | none => s.shared }
  else none

def step (s : State) : Move → Option State
  | .start phase noact sync => start t s phase noact sync
  | .main o =>
      if s.main = [] then proceed t s
      else (advanceFirst t o s.main s.shared).map fun (main, shared) => { s with main, shared }
  | .receiver o =>
      (advanceFirst t o s.receiver s.shared).map fun (receiver, shared) =>
        { s with receiver, shared }
  | .finished jobid status =>
      if s.receiver = [] then
        some { s with receiver :=
          if s.shared.jobs.any fun j => j.jobid = jobid then [.finish jobid status] else [] }
      else none
  | .starting jobid => starting s jobid
  | .disconnected conid =>
      if s.receiver = [] then some { s with receiver := [.lost conid pathDown] } else none

/-- A table that has just been built. -/
def built : State where
  shared := ⟨fun _ => ⟨0, false, false, false⟩, fun _ => none, [], 0, false, false, []⟩
  place := .idle
  main := []
  receiver := []
  phase := 0
  sync := 1

def run (s : State) : List Move → Option State
  | [] => some s
  | move :: moves => (step t s move).bind fun s => run s moves

/-- The states of runs in which every step meets a condition. -/
inductive Reached (meets : State → Move → Prop) : State → Prop
  | built : Reached meets built
  | step {s s' : State} {m : Move} (h : Reached meets s) (hmeets : meets s m)
      (hstep : step t s m = some s') : Reached meets s'

theorem Reached.run {t : DispatchTable} {s s' : State} {moves : List Move}
    (h : Reached t (fun _ _ => True) s) (hrun : DispatchPhase.run t s moves = some s') :
    Reached t (fun _ _ => True) s' := by
  induction moves generalizing s with
  | nil =>
    cases hrun
    exact h
  | cons move moves ih =>
    obtain ⟨u, hstep, hrest⟩ := Option.bind_eq_some_iff.mp hrun
    exact ih (h.step trivial hstep) hrest

end MdsPlus.DispatchPhase
