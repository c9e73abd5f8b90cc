import MdsPlus.Outcome
import Mathlib.Algebra.Group.Nat.Defs
import Mathlib.Data.List.Nodup

/-!
The jobs of the actions that are sent to servers. A job is finished by the thread that receives
the replies, or by a thread that cleans up after its connection, and it is freed by one of these
or by the thread that waits for it. What a thread does under the lock of the jobs is one step,
and between two steps of a thread the others go on.
-/

namespace MdsPlus.ServerJobs

/-- A job as it was allocated, and what has happened to it: whether it was registered with a
callback, whether it was ever the job of the monitor, how often its callback was invoked, and
whether some thread has got past the place where the callback is invoked. -/
structure Job where
  conid : ℕ
  callbackDone : Bool
  cond : Bool
  condVar : Bool
  freed : Bool
  given : Bool
  monitor : Bool
  called : ℕ
  finished : Bool
deriving DecidableEq

def noJob : Job := ⟨0, false, false, false, false, false, false, 0, false⟩

/-- Where a thread is in `Job_callback_done`: before the callback is taken out of the job, before
it is invoked, and after that. -/
inductive Finishing
  | found
  | taken (isMon callback : Bool)
  | called (isMon : Bool)
deriving DecidableEq

inductive ReplyType
  | starting
  | finished
deriving DecidableEq

/-- What a thread does with the jobs. It waits in `Job_wait_and_pop_locked`, it has a reply for
which there is no job, it is in `Job_callback_before`, in `Job_callback_done` or in the
`Job_pop` at its end, or it removes the jobs of a connection and has one of them in hand. -/
inductive Activity
  | idle
  | asleep (a : ℕ)
  | woken (a : ℕ)
  | unknown (reply : ReplyType)
  | starting (a : ℕ)
  | finishing (a : ℕ) (phase : Finishing)
  | popping (a : ℕ)
  | cleaning (conid : ℕ) (popped : Option (ℕ × Finishing))
deriving DecidableEq

/-- The jobs by the order of their allocation, those that are listed, and the jobs whose waits
have ended. -/
structure Jobs where
  registered : ℕ
  monJob : ℕ
  job : ℕ → Job
  jobs : List ℕ
  thread : ℕ → Activity
  released : List ℕ
  usedFreed : Bool

/-- `JobId` is an `int`, and so is `MonJob`, which starts at -1. -/
def jobid (a : ℕ) : ℕ := a % 2 ^ 32

def noMonJob : ℕ := 2 ^ 32 - 1

def noJobs : Jobs := ⟨0, noMonJob, fun _ => noJob, [], fun _ => .idle, [], false⟩

/-- The thread of `receiver_thread`. -/
def receiver : ℕ := 0

inductive Action
  | register (conid : ℕ) (sync callback : Bool)
  | checkIn (a : ℕ)
  | serverWait (t id : ℕ)
  | wake (t : ℕ)
  | abandon (t : ℕ)
  | reply (id : ℕ) (reply : ReplyType)
  | failedSend (t id : ℕ)
  | disconnect (t conid : ℕ)
  | go (t : ℕ)

/-- The step is not one that can be taken. -/
inductive Disabled
  | disabled

abbrev Step := Except Disabled Jobs

def getByJobid (s : Jobs) (id : ℕ) : Option ℕ := s.jobs.find? fun a => jobid a = id

def getByConid (s : Jobs) (conid : ℕ) : Option ℕ :=
  s.jobs.find? fun a => (s.job a).conid = conid

/-- A job is read or written through its address. -/
def update (s : Jobs) (a : ℕ) (f : Job → Job) : Jobs :=
  { s with
    job := Function.update s.job a (f (s.job a))
    usedFreed := s.usedFreed || (s.job a).freed }

def goes (s : Jobs) (t : ℕ) (x : Activity) : Jobs :=
  { s with thread := Function.update s.thread t x }

/-- `Job_register`; only a synchronous job has a condition. -/
def register (s : Jobs) (conid : ℕ) (sync callback : Bool) : Jobs :=
  { s with
    registered := s.registered + 1
    job := Function.update s.job s.registered
      { noJob with conid := conid, callbackDone := callback, cond := sync, given := callback }
    jobs := s.registered :: s.jobs }

/-- `ServerSendMessage` makes its job that of the monitor. -/
def checkIn (s : Jobs) (a : ℕ) : Step :=
  if a < s.registered then
    .ok { s with
      monJob := jobid a
      job := Function.update s.job a { s.job a with monitor := true } }
  else .error .disabled

/-- `Job_pop_locked`, which frees the job when it finds it. -/
def popLocked (s : Jobs) (a : ℕ) : Jobs :=
  if a ∈ s.jobs then
    { update s a (fun j => { j with freed := true }) with jobs := s.jobs.erase a }
  else s

/-- `Job_wait_and_pop_locked` after the wait. -/
def waited (s : Jobs) (a : ℕ) : Jobs :=
  let s' := popLocked (update s a fun j => { j with cond := false }) a
  { s' with
    released := s'.released ++ [a]
    usedFreed := s'.usedFreed || !(s.job a).cond }

/-- `ServerWait` under the lock. The thread sleeps at most once. -/
def serverWait (s : Jobs) (t id : ℕ) : Step :=
  if s.thread t = .idle then
    match getByJobid s id with
    | none => .ok s
    | some a =>
        if (s.job a).cond then
          if (s.job a).condVar then .ok (waited s a) else .ok (goes s t (.asleep a))
        else .ok s
  else .error .disabled

/-- `pthread_cond_wait` may return without a signal. -/
def wake (s : Jobs) (t : ℕ) : Step :=
  match s.thread t with
  | .asleep a => .ok (goes s t (.woken a))
  | _ => .error .disabled

/-- A thread is cancelled while it waits, and `Job_abandon_locked` is run. -/
def abandon (s : Jobs) (t : ℕ) : Step :=
  match s.thread t with
  | .asleep a | .woken a => .ok (goes (update s a fun j => { j with cond := false }) t .idle)
  | _ => .error .disabled

def replied (a : ℕ) : ReplyType → Activity
  | .starting => .starting a
  | .finished => .finishing a .found

/-- `Client_do_message` looks for the job of a reply. -/
def reply (s : Jobs) (id : ℕ) (r : ReplyType) : Step :=
  if s.thread receiver = .idle then
    match getByJobid s id with
    | none => .ok (goes s receiver (.unknown r))
    | some a => .ok (goes s receiver (replied a r))
  else .error .disabled

/-- A job that is not found gives way to the job of the monitor. -/
def replyMonJob (s : Jobs) (t : ℕ) (r : ReplyType) : Jobs :=
  match getByJobid s s.monJob with
  | none => goes s t .idle
  | some a => goes s t (replied a r)

def pop (s : Jobs) (t a conid : ℕ) : Jobs :=
  goes { s with jobs := s.jobs.erase a } t (.cleaning conid (some (a, .found)))

/-- `Job_cleanup` starts with the job that could not be sent. -/
def failedSend (s : Jobs) (t id : ℕ) : Step :=
  if s.thread t = .idle then
    match getByJobid s id with
    | none => .ok s
    | some a => .ok (pop s t a (s.job a).conid)
  else .error .disabled

/-- `Client_cleanup_jobs`, for whatever reason the client is removed. -/
def disconnect (s : Jobs) (t conid : ℕ) : Step :=
  if s.thread t = .idle then .ok (goes s t (.cleaning conid none)) else .error .disabled

def popByConid (s : Jobs) (t conid : ℕ) : Jobs :=
  match getByConid s conid with
  | none => goes s t .idle
  | some a => pop s t a conid

/-- `Job_callback_done` takes the callback; the job of the monitor keeps it. -/
def takeCallback (s : Jobs) (t a : ℕ) (next : Finishing → Activity) : Jobs :=
  goes (update s a fun j => { j with callbackDone := jobid a = s.monJob && j.callbackDone }) t
    (next (.taken (jobid a = s.monJob) (s.job a).callbackDone))

/-- The callback is invoked, if there is one. What it does itself is up to the other threads. -/
def callCallback (s : Jobs) (t a : ℕ) (isMon callback : Bool) (next : Finishing → Activity) :
    Jobs :=
  goes
    (update s a fun j => { j with called := j.called + callback.toNat, finished := true }) t
    (next (.called isMon))

def broadcast (s : Jobs) (a : ℕ) : Jobs :=
  { s with thread := fun t => if s.thread t = .asleep a then .woken a else s.thread t }

/-- A job with a condition is left to the thread that waits for it. -/
def signal (s : Jobs) (t a : ℕ) : Jobs :=
  if (s.job a).cond then
    broadcast (goes (update s a fun j => { j with condVar := true }) t .idle) a
  else goes (update s a fun j => j) t (.popping a)

def go (s : Jobs) (t : ℕ) : Step :=
  match s.thread t with
  | .idle => .error .disabled
  | .asleep _ => .error .disabled
  | .woken a => .ok (goes (waited s a) t .idle)
  | .unknown r => .ok (replyMonJob s t r)
  | .starting a => .ok (goes (update s a fun j => j) t .idle)
  | .finishing a .found => .ok (takeCallback s t a (.finishing a))
  | .finishing a (.taken isMon callback) =>
      .ok (callCallback s t a isMon callback (.finishing a))
  | .finishing a (.called isMon) => .ok (if isMon then goes s t .idle else signal s t a)
  | .popping a => .ok (goes (popLocked s a) t .idle)
  | .cleaning conid none => .ok (popByConid s t conid)
  | .cleaning conid (some (a, .found)) =>
      .ok (takeCallback s t a fun phase => .cleaning conid (some (a, phase)))
  | .cleaning conid (some (a, .taken isMon callback)) =>
      .ok (callCallback s t a isMon callback fun phase => .cleaning conid (some (a, phase)))
  | .cleaning conid (some (a, .called _)) =>
      .ok (goes (update s a fun j => { j with freed := true }) t (.cleaning conid none))

def step (s : Jobs) : Action → Step
  | .register conid sync callback => .ok (register s conid sync callback)
  | .checkIn a => checkIn s a
  | .serverWait t id => serverWait s t id
  | .wake t => wake s t
  | .abandon t => abandon s t
  | .reply id r => reply s id r
  | .failedSend t id => failedSend s t id
  | .disconnect t conid => disconnect s t conid
  | .go t => go s t

/-! ### What is asked of the jobs -/

namespace Activity

def waitsFor : Activity → Option ℕ
  | asleep a | woken a => some a
  | _ => none

def answers : Activity → Option ℕ
  | starting a | finishing a _ | popping a => some a
  | _ => none

/-- The job that was removed from the list and is not freed yet. -/
def cleans : Activity → Option ℕ
  | cleaning _ (some (a, _)) => some a
  | _ => none

end Activity

/-- The callback of a job that is finished was invoked once, and that of no other job. Only
finished jobs are freed, when no thread holds them or waits for them, and no wait ends before its
job is finished. A job that is not finished can still be found, or a thread that finishes it has
it in hand, and a thread sleeps only for a job that is still to be signalled. -/
structure Sound (s : Jobs) : Prop where
  unfreed : s.usedFreed = false
  once : ∀ a, (s.job a).monitor = false →
    (s.job a).called = ((s.job a).finished && (s.job a).given).toNat
  unheld : ∀ a, (s.job a).freed → (s.job a).finished ∧ ∀ t,
    (s.thread t).waitsFor ≠ some a ∧ (s.thread t).answers ≠ some a ∧ (s.thread t).cleans ≠ some a
  released : ∀ a ∈ s.released, (s.job a).finished
  kept : ∀ a < s.registered, (s.job a).finished = false →
    a ∈ s.jobs ∨ ∃ t, (s.thread t).cleans = some a
  waits : ∀ t a, s.thread t = .asleep a → a ∈ s.jobs ∧ (s.job a).condVar = false

/-- A reply is not about a job that has a condition and was finished before. -/
def Answerable (s : Jobs) (id : ℕ) : Prop :=
  ∀ a, getByJobid s id = some a → (s.job a).cond → (s.job a).condVar = false

def Removable (s : Jobs) (job : Option ℕ) : Prop :=
  ∀ a, job = some a → ∀ t, (s.thread t).waitsFor ≠ some a ∧ (s.thread t).answers ≠ some a

/-- Job ids do not run out, at most one thread waits for a job, and no wait ends by itself. -/
def Allowed (s : Jobs) : Action → Prop
  | .register .. => s.registered < noMonJob
  | .serverWait _ id => ∀ a, getByJobid s id = some a → ∀ t, (s.thread t).waitsFor ≠ some a
  | .wake t => ∀ a, s.thread t = .asleep a → (s.job a).condVar
  | .reply id _ => Answerable s id
  | .failedSend _ id => Removable s (getByJobid s id)
  | .go t =>
      match s.thread t with
      | .unknown _ => Answerable s s.monJob
      | .cleaning conid none => Removable s (getByConid s conid)
      | _ => True
  | _ => True

end MdsPlus.ServerJobs
