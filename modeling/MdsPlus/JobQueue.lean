import Mathlib.Data.Int.Notation
import Mathlib.Tactic.Common

/-!
The job queue of an action server. Calls of ServerQAction put jobs into a doubly linked queue
and take them out again; one worker thread takes them from the front, does them and answers
the client. Each part of a call that holds the queue lock is one step, and so is each part of
the worker between two places where it can be cancelled.
-/

namespace MdsPlus.JobQueue

def MDSplusSUCCESS : ℤ := 1

def ServerABORT : ℤ := 266436658

structure Address where
  addr : ℕ
  port : ℕ
deriving DecidableEq

/-- Operations whose jobs are queued. -/
inductive Srv
  | action
  | close
  | createPulse
  | command
  | monitor
deriving DecidableEq

structure SrvJob where
  client : Address
  op : Srv
  flags : ℕ
  jobid : ℤ
  mode : ℤ
deriving DecidableEq

def MonitorCheckin : ℤ := 4

def SrvJob.checkin (job : SrvJob) : Prop := job.op = .monitor ∧ job.mode = MonitorCheckin

instance (job : SrvJob) : Decidable job.checkin := inferInstanceAs (Decidable (_ ∧ _))

/-- SrvJobBEFORE_NOTIFY is the lowest of the flags. -/
def SrvJob.beforeNotify (job : SrvJob) : Prop := job.flags % 2 = 1

instance (job : SrvJob) : Decidable job.beforeNotify := inferInstanceAs (Decidable (_ = _))

inductive ReplyType
  | starting
  | finished
  | checkedin
deriving DecidableEq

/-- A message of send_reply, with the block it was sent for; only what monitors are told has a
text. -/
structure Reply where
  job : ℕ
  client : Address
  jobid : ℤ
  replyType : ReplyType
  status : ℤ
  text : Bool
deriving DecidableEq

inductive Worker
  | exited
  | waiting
  /-- NextJob has returned. -/
  | taken (job : ℕ)
  /-- The job is CurrentJob. -/
  | current (job : ℕ)
  | doing (job : ℕ)
  /-- In SendToMonitors, with the client's own address and the monitors still to be told. -/
  | monitors (job : ℕ) (prev : Address) (left : List Address)
  /-- The job has the address of a monitor that is not told yet. -/
  | monitor (job : ℕ) (prev : Address) (left : List Address)
  /-- The answer has been sent, and CurrentJob is still the job. -/
  | answered (job : ℕ)
  | cleared (job : ℕ)
deriving DecidableEq

/-- Jobs are numbered as they are queued, and a block is never used again. -/
structure State where
  jobs : ℕ → SrvJob
  next : ℕ → Option ℕ
  previous : ℕ → Option ℕ
  jobQueue : Option ℕ
  jobQueueNext : Option ℕ
  currentJob : Option ℕ
  worker : Worker
  monitors : List Address
  /-- Calls that have queued a job and not yet started the worker. -/
  starting : ℕ
  /-- Calls that have cancelled the worker and not yet answered the jobs. -/
  aborting : ℕ
  accepted : List SrvJob
  started : List ℕ
  replies : List Reply
  freed : List ℕ

def noJob : SrvJob := ⟨⟨0, 0⟩, .close, 0, 0, 0⟩

def start : State where
  jobs := fun _ => noJob
  next := fun _ => none
  previous := fun _ => none
  jobQueue := none
  jobQueueNext := none
  currentJob := none
  worker := .exited
  monitors := []
  starting := 0
  aborting := 0
  accepted := []
  started := []
  replies := []
  freed := []

def sendReply (s : State) (job : ℕ) (replyType : ReplyType) (status : ℤ) (text : Bool) : State :=
  let h := s.jobs job
  { s with replies := s.replies ++ [⟨job, h.client, h.jobid, replyType, status, text⟩] }

def freeJob (s : State) (job : ℕ) : State := { s with freed := s.freed ++ [job] }

def abortJob (s : State) (job : ℕ) : State :=
  freeJob (sendReply s job .finished ServerABORT false) job

def qJob (s : State) (job : SrvJob) : State :=
  let qjob := s.accepted.length
  { s with
    jobs := Function.update s.jobs qjob job
    next := Function.update
      (s.jobQueueNext.elim s.next fun t => Function.update s.next t (some qjob)) qjob none
    previous := Function.update s.previous qjob s.jobQueueNext
    jobQueueNext := some qjob
    jobQueue := if s.jobQueue = none then some qjob else s.jobQueue
    starting := s.starting + 1
    accepted := s.accepted ++ [job] }

/-- A job without an address is done by the caller, who sends nothing, and is not queued. -/
def serverQAction (s : State) (job : SrvJob) : State :=
  if job.client.addr = 0 then s else qJob s job

def startWorker (s : State) : Option State :=
  if s.starting = 0 then none
  else
    some { s with
      starting := s.starting - 1
      worker := if s.worker = .exited then .waiting else s.worker }

def removeLast (s : State) : State :=
  match s.jobQueueNext with
  | none => s
  | some job =>
      freeJob { s with
        jobQueueNext := s.previous job
        next := (s.previous job).elim s.next fun t => Function.update s.next t none
        jobQueue := (s.previous job).elim none fun _ => s.jobQueue } job

/-- Cancellation acts where the worker waits for the queue, and in what doing a job calls:
sending ends with another call of send, for no bytes, after the answer has gone. Between the
end of NextJob and CurrentJob being set, and after it has been cleared, it stays pending. -/
def Worker.cancellable : Worker → Prop
  | .exited | .waiting | .current _ | .doing _ | .monitors .. | .monitor .. | .answered _ => True
  | .taken _ | .cleared _ => False

instance (w : Worker) : Decidable w.cancellable := by
  cases w <;> unfold Worker.cancellable <;> infer_instance

/-- First part of SrvAbort: KillWorker returns when the worker, if there is one, has gone. -/
def killWorker (s : State) : Option State :=
  if s.worker.cancellable then
    some { s with worker := .exited, aborting := s.aborting + 1 }
  else none

/-- The loop over the queue of an abort that flushes it. A job is read for the next one before
it is freed. There is a bound on the jobs visited. -/
def abortQueue : ℕ → State → Option ℕ → Option State
  | _, s, none => some s
  | 0, _, some _ => none
  | n + 1, s, some job => abortQueue n (abortJob s job) (s.next job)

/-- Second part of SrvAbort, under the queue lock. -/
def abortJobs (s : State) (flush : Bool) : Option State :=
  if s.aborting = 0 then none
  else
    let s := { s.currentJob.elim s (abortJob s) with
      currentJob := none
      aborting := s.aborting - 1 }
    if flush then
      (abortQueue s.accepted.length s s.jobQueue).map fun s =>
        { s with jobQueueNext := none, jobQueue := none }
    else some s

def nextJob (s : State) : Option State :=
  match s.worker, s.jobQueue with
  | .waiting, some job =>
      some { s with
        jobQueue := s.next job
        previous := (s.next job).elim s.previous fun t => Function.update s.previous t none
        jobQueueNext := (s.next job).elim none fun _ => s.jobQueueNext
        worker := .taken job }
  | _, _ => none

def setCurrentJob (s : State) : Option State :=
  match s.worker with
  | .taken job => some { s with currentJob := some job, worker := .current job }
  | _ => none

def startJob (s : State) : Option State :=
  match s.worker with
  | .current job =>
      let s := if (s.jobs job).beforeNotify then sendReply s job .starting 1 false else s
      some { s with started := s.started ++ [job], worker := .doing job }
  | _ => none

/-- DoSrvAction, DoSrvClose, DoSrvCreatePulse and DoSrvCommand, with the status they end with. -/
def doSrv (s : State) (status : ℤ) : Option State :=
  match s.worker with
  | .doing job =>
      if (s.jobs job).op = .monitor then none
      else
        let s := if (s.jobs job).client.addr = 0 then s
          else sendReply s job .finished status false
        some { s with worker := .answered job }
  | _ => none

/-- DoSrvMonitor of a monitor that checks in. -/
def addMonitorClient (s : State) : Option State :=
  match s.worker with
  | .doing job =>
      if (s.jobs job).checkin then
        let client := (s.jobs job).client
        let s := if client ∈ s.monitors then s else { s with monitors := client :: s.monitors }
        some { sendReply s job .checkedin MDSplusSUCCESS false with worker := .answered job }
      else none
  | _ => none

/-- DoSrvMonitor otherwise goes to SendToMonitors. -/
def sendToMonitors (s : State) : Option State :=
  match s.worker with
  | .doing job =>
      if (s.jobs job).op = .monitor ∧ ¬ (s.jobs job).checkin then
        some { s with worker := .monitors job (s.jobs job).client s.monitors }
      else none
  | _ => none

/-- One pass of the loop in SendToMonitors writes the monitor's address into the job. -/
def nextMonitor (s : State) : Option State :=
  match s.worker with
  | .monitors job prev (m :: left) =>
      some { s with
        jobs := Function.update s.jobs job { s.jobs job with client := m }
        worker := .monitor job prev left }
  | _ => none

/-- A monitor that cannot be told is dropped, and the ones before it with it: the loop never
sets its pointer to the one before. -/
def sendToMonitor (s : State) (sent : Bool) : Option State :=
  match s.worker with
  | .monitor job prev left =>
      let s := sendReply s job .finished 1 true
      some { s with
        monitors := if sent then s.monitors else left
        worker := .monitors job prev left }
  | _ => none

/-- The end of SendToMonitors puts the client's address back. -/
def monitorsTold (s : State) : Option State :=
  match s.worker with
  | .monitors job prev [] =>
      let s := { s with jobs := Function.update s.jobs job { s.jobs job with client := prev } }
      some { sendReply s job .finished MDSplusSUCCESS false with worker := .answered job }
  | _ => none

def clearJob (s : State) : Option State :=
  match s.worker with
  | .answered job => some { s with currentJob := none, worker := .cleared job }
  | _ => none

def endJob (s : State) : Option State :=
  match s.worker with
  | .cleared job => some { freeJob s job with worker := .waiting }
  | _ => none

inductive Step
  | serverQAction (job : SrvJob)
  | startWorker
  | removeLast
  | killWorker
  | abortJobs (flush : Bool)
  | nextJob
  | setCurrentJob
  | startJob
  | doSrv (status : ℤ)
  | addMonitorClient
  | sendToMonitors
  | nextMonitor
  | sendToMonitor (sent : Bool)
  | monitorsTold
  | clearJob
  | endJob
deriving DecidableEq

def step (s : State) : Step → Option State
  | .serverQAction job => some (serverQAction s job)
  | .startWorker => startWorker s
  | .removeLast => some (removeLast s)
  | .killWorker => killWorker s
  | .abortJobs flush => abortJobs s flush
  | .nextJob => nextJob s
  | .setCurrentJob => setCurrentJob s
  | .startJob => startJob s
  | .doSrv status => doSrv s status
  | .addMonitorClient => addMonitorClient s
  | .sendToMonitors => sendToMonitors s
  | .nextMonitor => nextMonitor s
  | .sendToMonitor sent => sendToMonitor s sent
  | .monitorsTold => monitorsTold s
  | .clearJob => clearJob s
  | .endJob => endJob s

def run (s : State) : List Step → Option State
  | [] => some s
  | a :: steps => (step s a).bind fun s => run s steps

end MdsPlus.JobQueue
