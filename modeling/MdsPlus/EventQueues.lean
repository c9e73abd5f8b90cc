import MdsPlus.BitMemory
import MdsPlus.Outcome

/-!
Queues of events. Each event that is queued has a thread that puts its arrivals on the queue,
and any number of calls take them off or wait for them. What a thread does under the lock of
all queues is one step; between two such steps the others go on.
-/

namespace MdsPlus.EventQueues

open BitMemory Outcome

abbrev Data := List Byte

/-- Where a call of `MDSGetEventQueue` waits: on the condition of the queue, with the wait over
and the mutex of the queue to be taken again, or for the lock to look for the queue again. -/
inductive Phase
  | asleep
  | signalled
  | expired
  | retrying
deriving DecidableEq

structure Call where
  eventid : ℕ
  timeout : Int
  phase : Phase
deriving DecidableEq

/-- `MDSEventCan` waits for the thread of the event to end, and then cancels the queue. -/
inductive CancelPhase
  | joining
  | clearing
deriving DecidableEq

structure Cancel where
  eventid : ℕ
  phase : CancelPhase
deriving DecidableEq

/-- What `MDSGetEventQueue` returns: state 1, 0 and 2. -/
inductive Result
  | event (data : Data)
  | nothing
  | noQueue
deriving DecidableEq

structure Events where
  nextId : ℕ
  registered : ℕ → Bool
  callback : ℕ → Option Data
  queue : ℕ → Option (List Data)
  calls : List Call
  cancels : List Cancel
  arrived : ℕ → List Data
  results : List (ℕ × Result)
  usedFreed : Bool

def noEvents : Events :=
  ⟨0, fun _ => false, fun _ => none, fun _ => none, [], [], fun _ => [], [], false⟩

inductive Action
  | queueEvent (id : ℕ)
  | receive (id : ℕ) (data : Data)
  | enqueue (id : ℕ) (woken : Option ℕ)
  | getEvent (id : ℕ) (timeout : Int)
  | wake (k : ℕ)
  | expire (k : ℕ)
  | resume (k : ℕ)
  | retry (k : ℕ)
  | cancel (id : ℕ)
  | join (k : ℕ)
  | clear (k : ℕ) (woken : Option ℕ)

/-- The step is not one that can be taken. -/
inductive Disabled
  | disabled

abbrev Step := Except Disabled Events

def Call.Sleeps (id : ℕ) (c : Call) : Prop := c.eventid = id ∧ c.phase = .asleep

instance (id : ℕ) (c : Call) : Decidable (c.Sleeps id) := inferInstanceAs (Decidable (_ ∧ _))

/-- `pthread_cond_signal` wakes a call that waits, if there is one. -/
def signal (id : ℕ) (calls : List Call) : Option ℕ → Except Disabled (List Call)
  | none => if ∃ c ∈ calls, c.Sleeps id then .error .disabled else .ok calls
  | some k =>
      match calls[k]? with
      | none => .error .disabled
      | some c =>
          if c.Sleeps id then .ok (calls.set k { c with phase := .signalled })
          else .error .disabled

/-- `MDSQueueEvent`: the ids count up, other events take some of them. -/
def queueEvent (s : Events) (id : ℕ) : Step :=
  if id < s.nextId then .error .disabled
  else
    .ok { s with
      nextId := id + 1
      registered := Function.update s.registered id true
      queue := Function.update s.queue id (some []) }

/-- The thread of an event takes a datagram. -/
def receive (s : Events) (id : ℕ) (data : Data) : Step :=
  if s.registered id ∧ s.callback id = none then
    .ok { s with callback := Function.update s.callback id (some data) }
  else .error .disabled

/-- `MDSEventQueue_ast`, which has the queue by its address. -/
def enqueue (s : Events) (id : ℕ) (woken : Option ℕ) : Step :=
  match s.callback id, s.queue id with
  | none, _ => .error .disabled
  | some _, none =>
      .ok { s with callback := Function.update s.callback id none, usedFreed := true }
  | some data, some events =>
      (signal id s.calls woken).map fun calls =>
        { s with
          callback := Function.update s.callback id none
          queue := Function.update s.queue id (some (events ++ [data]))
          arrived := Function.update s.arrived id (s.arrived id ++ [data])
          calls := calls }

def returns (s : Events) (id : ℕ) (r : Result) : Events :=
  { s with results := s.results ++ [(id, r)] }

def takes (s : Events) (id : ℕ) (data : Data) (events : List Data) : Events :=
  { returns s id (.event data) with queue := Function.update s.queue id (some events) }

/-- `MDSGetEventQueue` under the lock, the first time. -/
def getEvent (s : Events) (id : ℕ) (timeout : Int) : Events :=
  match s.queue id with
  | none => returns s id .noQueue
  | some (data :: events) => takes s id data events
  | some [] =>
      if 0 ≤ timeout then { s with calls := s.calls ++ [⟨id, timeout, .asleep⟩] }
      else returns s id .nothing

/-- `MDSGetEventQueue` under the lock, after it has waited. -/
def getAgain (s : Events) (id : ℕ) : Events :=
  match s.queue id with
  | none => returns s id .noQueue
  | some (data :: events) => takes s id data events
  | some [] => returns s id .nothing

/-- A wait may end without a signal. -/
def wake (s : Events) (k : ℕ) (c : Call) : Step :=
  if c.phase = .asleep then .ok { s with calls := s.calls.set k { c with phase := .signalled } }
  else .error .disabled

def expire (s : Events) (k : ℕ) (c : Call) : Step :=
  if c.phase = .asleep ∧ 0 < c.timeout then
    .ok { s with calls := s.calls.set k { c with phase := .expired } }
  else .error .disabled

def touched (s : Events) (id : ℕ) : Events :=
  { s with usedFreed := s.usedFreed || (s.queue id).isNone }

/-- A call whose wait is over takes the mutex of the queue and leaves it. -/
def resume (s : Events) (k : ℕ) (c : Call) : Step :=
  match c.phase with
  | .signalled =>
      .ok { touched s c.eventid with calls := s.calls.set k { c with phase := .retrying } }
  | .expired =>
      .ok { returns (touched s c.eventid) c.eventid .nothing with calls := s.calls.eraseIdx k }
  | _ => .error .disabled

def retry (s : Events) (k : ℕ) (c : Call) : Step :=
  if c.phase = .retrying then .ok { getAgain s c.eventid with calls := s.calls.eraseIdx k }
  else .error .disabled

/-- `MDSUdpEventCan` up to the join; an event that is not registered has no thread to wait for. -/
def cancel (s : Events) (id : ℕ) : Events :=
  { s with
    registered := Function.update s.registered id false
    cancels := s.cancels ++ [⟨id, if s.registered id then .joining else .clearing⟩] }

def join (s : Events) (k : ℕ) (c : Cancel) : Step :=
  if c.phase = .joining ∧ s.callback c.eventid = none then
    .ok { s with cancels := s.cancels.set k { c with phase := .clearing } }
  else .error .disabled

/-- `CancelEventQueue` -/
def clear (s : Events) (k : ℕ) (c : Cancel) (woken : Option ℕ) : Step :=
  if c.phase = .clearing then
    match s.queue c.eventid with
    | none => .ok { s with cancels := s.cancels.eraseIdx k }
    | some _ =>
        (signal c.eventid s.calls woken).map fun calls =>
          { s with
            cancels := s.cancels.eraseIdx k
            queue := Function.update s.queue c.eventid none
            calls := calls }
  else .error .disabled

def withCall (s : Events) (k : ℕ) (f : Call → Step) : Step :=
  match s.calls[k]? with
  | none => .error .disabled
  | some c => f c

def withCancel (s : Events) (k : ℕ) (f : Cancel → Step) : Step :=
  match s.cancels[k]? with
  | none => .error .disabled
  | some c => f c

def step (s : Events) : Action → Step
  | .queueEvent id => queueEvent s id
  | .receive id data => receive s id data
  | .enqueue id woken => enqueue s id woken
  | .getEvent id timeout => .ok (getEvent s id timeout)
  | .wake k => withCall s k (wake s k)
  | .expire k => withCall s k (expire s k)
  | .resume k => withCall s k (resume s k)
  | .retry k => withCall s k (retry s k)
  | .cancel id => .ok (cancel s id)
  | .join k => withCancel s k (join s k)
  | .clear k woken => withCancel s k fun c => clear s k c woken

/-! ### What is asked of the queues -/

def returned (results : List (ℕ × Result)) (id : ℕ) : List Data :=
  results.filterMap fun r =>
    match r with
    | (i, .event data) => if i = id then some data else none
    | _ => none

/-- A call whose wait is over and that has still to look at the queue. -/
def Call.isAwake (id : ℕ) (c : Call) : Bool :=
  c.eventid = id && (c.phase = .signalled || c.phase = .retrying)

def awake (id : ℕ) (calls : List Call) : ℕ := calls.countP (Call.isAwake id)

/-- The events of a queue are what has arrived and was not returned, in order. No call sleeps
while there are more of them than calls on their way to take them. -/
structure Served (s : Events) : Prop where
  unfreed : s.usedFreed = false
  fifo : ∀ id events, s.queue id = some events → s.arrived id = returned s.results id ++ events
  once : ∀ id, returned s.results id <+: s.arrived id
  woken : ∀ id events, s.queue id = some events → (∃ c ∈ s.calls, c.Sleeps id) →
    events.length ≤ awake id s.calls

/-- A queue is cancelled when no call waits on it or has yet to leave it, and its event has been
cancelled and has no callback under way. -/
def Unused (s : Events) (id : ℕ) : Prop :=
  s.queue id = none ∨ s.registered id = false ∧ s.callback id = none ∧
    ∀ c ∈ s.calls, c.eventid = id → c.phase = .retrying

def Allowed (s : Events) : Action → Prop
  | .clear k _ => ∀ c, s.cancels[k]? = some c → Unused s c.eventid
  | _ => True

/-! ### Calls that change -/

section Calls

variable {id k : ℕ} {calls : List Call} {c c' : Call}

theorem awake_set (id : ℕ) (h : calls[k]? = some c) (c' : Call) :
    awake id (calls.set k c') + (c.isAwake id).toNat =
      awake id calls + (c'.isAwake id).toNat := by
  induction calls generalizing k with
  | nil => cases h
  | cons d calls ih =>
    cases k with
    | zero =>
      cases h
      rw [List.set_cons_zero, awake, awake, List.countP_cons, List.countP_cons]
      cases c.isAwake id <;> cases c'.isAwake id <;> simp
    | succ k =>
      have hrest := ih h
      rw [awake] at hrest ⊢
      rw [List.set_cons_succ, List.countP_cons, awake, List.countP_cons]
      rw [awake] at hrest
      omega

theorem awake_eraseIdx (id : ℕ) (h : calls[k]? = some c) :
    awake id (calls.eraseIdx k) + (c.isAwake id).toNat = awake id calls := by
  induction calls generalizing k with
  | nil => cases h
  | cons d calls ih =>
    cases k with
    | zero =>
      cases h
      rw [List.eraseIdx_cons_zero, awake, awake, List.countP_cons]
      cases c.isAwake id <;> simp
    | succ k =>
      have hrest := ih h
      rw [awake, awake] at hrest
      rw [List.eraseIdx_cons_succ, awake, awake, List.countP_cons, List.countP_cons]
      omega

theorem sleeps_of_set (hc' : c'.phase ≠ .asleep)
    (h : ∃ d ∈ calls.set k c', d.Sleeps id) : ∃ d ∈ calls, d.Sleeps id := by
  obtain ⟨d, hd, hsleeps⟩ := h
  obtain hold | rfl := List.mem_or_eq_of_mem_set hd
  · exact ⟨d, hold, hsleeps⟩
  · exact absurd hsleeps.2 hc'

theorem sleeps_of_eraseIdx (h : ∃ d ∈ calls.eraseIdx k, d.Sleeps id) :
    ∃ d ∈ calls, d.Sleeps id := by
  obtain ⟨d, hd, hsleeps⟩ := h
  exact ⟨d, List.mem_of_mem_eraseIdx hd, hsleeps⟩

theorem signal_spec {woken : Option ℕ} {calls' : List Call}
    (h : signal id calls woken = .ok calls') :
    (calls' = calls ∧ ¬ ∃ c ∈ calls, c.Sleeps id) ∨
      ∃ k c, calls[k]? = some c ∧ c.Sleeps id ∧
        calls' = calls.set k { c with phase := .signalled } := by
  cases woken with
  | none =>
    rw [signal] at h
    split at h
    · cases h
    · next hnone =>
      cases h
      exact .inl ⟨rfl, hnone⟩
  | some k =>
    rw [signal] at h
    split at h
    · cases h
    · next c hc =>
      split at h
      · next hsleeps =>
        cases h
        exact .inr ⟨k, c, hc, hsleeps, rfl⟩
      · cases h

end Calls

/-! ### What a step preserves -/

structure Inv (s : Events) : Prop extends Served s where
  queued : ∀ id, s.queue id ≠ none → id < s.nextId
  fresh : ∀ id, s.nextId ≤ id → s.arrived id = [] ∧ returned s.results id = []
  held : ∀ c ∈ s.calls, c.phase ≠ .retrying → s.queue c.eventid ≠ none
  callbacks : ∀ id, s.callback id ≠ none → s.queue id ≠ none
  registers : ∀ id, s.registered id → s.queue id ≠ none

theorem inv_noEvents : Inv noEvents where
  unfreed := rfl
  fifo _ _ h := nomatch h
  once _ := List.prefix_rfl
  woken _ _ h := nomatch h
  queued _ h := absurd rfl h
  fresh _ _ := ⟨rfl, rfl⟩
  held _ h := nomatch h
  callbacks _ h := absurd rfl h
  registers _ h := nomatch h

theorem returned_append (results : List (ℕ × Result)) (i : ℕ) (r : Result) (id : ℕ) :
    returned (results ++ [(i, r)]) id = returned results id ++ returned [(i, r)] id :=
  List.filterMap_append

section Steps

variable {s s' : Events} {id : ℕ}

theorem update_ne_none {queue : ℕ → Option (List Data)} {i : ℕ} (events : List Data)
    (h : queue i ≠ none) : Function.update queue id (some events) i ≠ none := by
  rw [Function.update_apply]
  split
  · exact nofun
  · exact h

theorem ne_none_of_update {queue : ℕ → Option (List Data)} {i : ℕ} {events : List Data}
    (hid : queue id ≠ none) (h : Function.update queue id (some events) i ≠ none) :
    queue i ≠ none := by
  rw [Function.update_apply] at h
  split at h
  · next heq => rwa [heq]
  · exact h

theorem inv_queueEvent (hs : Inv s) (h : queueEvent s id = .ok s') : Inv s' := by
  unfold queueEvent at h
  split at h
  · cases h
  · next hnew =>
    cases h
    constructor
    · refine ⟨hs.unfreed, fun i events hq => ?_, hs.once, fun i events hq hsleeps => ?_⟩
      · simp only [Function.update_apply] at hq
        split at hq
        · cases hq
          obtain ⟨harrived, hreturned⟩ := hs.fresh i (by omega)
          simp only [harrived, hreturned, List.append_nil]
        · exact hs.fifo i events hq
      · simp only [Function.update_apply] at hq
        split at hq
        · cases hq
          exact Nat.zero_le _
        · exact hs.woken i events hq hsleeps
    · intro i hq
      simp only [Function.update_apply] at hq ⊢
      split at hq
      · omega
      · have := hs.queued i hq
        omega
    · intro i hi
      exact hs.fresh i (by simp only at hi; omega)
    · exact fun c hc hphase => update_ne_none [] (hs.held c hc hphase)
    · exact fun i hi => update_ne_none [] (hs.callbacks i hi)
    · intro i hi
      simp only [Function.update_apply] at hi ⊢
      split at hi
      · next heq =>
        rw [if_pos heq]
        exact nofun
      · next hne =>
        rw [if_neg hne]
        exact hs.registers i hi

theorem inv_receive (hs : Inv s) {data : Data} (h : receive s id data = .ok s') : Inv s' := by
  unfold receive at h
  split at h
  · next hready =>
    cases h
    refine { hs with callbacks := fun i hi => ?_ }
    simp only [Function.update_apply] at hi
    split at hi
    · next heq =>
      rw [heq]
      exact hs.registers id hready.1
    · exact hs.callbacks i hi
  · cases h

theorem signal_awake {calls calls' : List Call} {woken : Option ℕ}
    (h : signal id calls woken = .ok calls') :
    (∀ i, (∃ c ∈ calls', c.Sleeps i) → ∃ c ∈ calls, c.Sleeps i) ∧
      (∀ i, awake i calls ≤ awake i calls') ∧
      ((∃ c ∈ calls', c.Sleeps id) → awake id calls' = awake id calls + 1) ∧
      ∀ c ∈ calls', c.phase ≠ .retrying →
        ∃ d ∈ calls, d.phase ≠ .retrying ∧ d.eventid = c.eventid := by
  obtain ⟨rfl, hnone⟩ | ⟨k, c, hk, ⟨hid, hphase⟩, rfl⟩ := signal_spec h
  · exact ⟨fun i h => h, fun i => Nat.le_refl _, fun h => absurd h hnone,
      fun c hc hp => ⟨c, hc, hp, rfl⟩⟩
  · have hcount : ∀ i, awake i (calls.set k { c with phase := .signalled }) =
        awake i calls + (Call.isAwake i { c with phase := .signalled }).toNat := by
      intro i
      have hset := awake_set i hk { c with phase := .signalled }
      have hasleep : c.isAwake i = false := by
        unfold Call.isAwake
        rw [hphase]
        exact Bool.and_false _
      rw [hasleep] at hset
      exact hset
    refine ⟨fun i => sleeps_of_set nofun, fun i => ?_, fun _ => ?_, fun d hd hp => ?_⟩
    · rw [hcount]
      exact Nat.le_add_right _ _
    · rw [hcount, Call.isAwake, hid, decide_eq_true rfl]
      rfl
    · obtain hold | rfl := List.mem_or_eq_of_mem_set hd
      · exact ⟨d, hold, hp, rfl⟩
      · exact ⟨c, List.mem_of_getElem? hk, by rw [hphase]; exact nofun, rfl⟩

theorem inv_enqueue (hs : Inv s) {woken : Option ℕ} (h : enqueue s id woken = .ok s') :
    Inv s' := by
  unfold enqueue at h
  split at h
  · cases h
  · next data hcallback hnone =>
    exact absurd hnone (hs.callbacks id (by rw [hcallback]; exact nofun))
  · next data events hcallback hqueue =>
    cases hsignal : signal id s.calls woken with
    | error e =>
      rw [hsignal] at h
      cases h
    | ok calls =>
      rw [hsignal] at h
      cases h
      have hid : s.queue id ≠ none := by rw [hqueue]; exact nofun
      obtain ⟨hsleeps, hawake, hnew, hheld⟩ := signal_awake hsignal
      constructor
      · constructor
        · exact hs.unfreed
        · intro i es hq
          simp only [Function.update_apply] at hq ⊢
          split at hq
          · next heq =>
            cases hq
            rw [if_pos heq, hs.fifo id events hqueue, List.append_assoc, heq]
          · next hne =>
            rw [if_neg hne]
            exact hs.fifo i es hq
        · intro i
          simp only [Function.update_apply]
          split
          · next heq =>
            rw [heq]
            exact (hs.once id).trans (List.prefix_append _ _)
          · exact hs.once i
        · intro i es hq hasleep
          simp only [Function.update_apply] at hq
          split at hq
          · next heq =>
            cases hq
            subst heq
            have hbefore := hs.woken i events hqueue (hsleeps i hasleep)
            have hafter := hnew hasleep
            simp only [List.length_append, List.length_singleton]
            omega
          · exact Nat.le_trans (hs.woken i es hq (hsleeps i hasleep)) (hawake i)
      · exact fun i hi => hs.queued i (ne_none_of_update hid hi)
      · intro i hi
        have hne : i ≠ id := by
          rintro rfl
          exact absurd (hs.queued i hid) (Nat.not_lt.mpr hi)
        simp only [Function.update_of_ne hne]
        exact hs.fresh i hi
      · intro c hc hphase
        obtain ⟨d, hd, hdphase, hdid⟩ := hheld c hc hphase
        rw [← hdid]
        exact update_ne_none _ (hs.held d hd hdphase)
      · intro i hi
        apply update_ne_none
        apply hs.callbacks
        simp only [Function.update_apply] at hi
        split at hi
        · exact absurd rfl hi
        · exact hi
      · exact fun i hi => update_ne_none _ (hs.registers i hi)

theorem inv_calls (hs : Inv s) {calls : List Call}
    (hwoken : ∀ i events, s.queue i = some events → (∃ c ∈ calls, c.Sleeps i) →
      events.length ≤ awake i calls)
    (hheld : ∀ c ∈ calls, c.phase ≠ .retrying → s.queue c.eventid ≠ none) :
    Inv { s with calls := calls } :=
  { hs with woken := hwoken, held := hheld }

theorem inv_returns (hs : Inv s) (r : Result) (hr : ∀ data, r ≠ .event data) :
    Inv (returns s id r) := by
  have hnone : ∀ i, returned (s.results ++ [(id, r)]) i = returned s.results i := by
    intro i
    rw [returned_append]
    cases r with
    | event data => exact absurd rfl (hr data)
    | nothing => exact List.append_nil _
    | noQueue => exact List.append_nil _
  refine { hs with fifo := ?_, once := ?_, fresh := ?_ }
  · intro i events hq
    simp only [returns, hnone]
    exact hs.fifo i events hq
  · intro i
    simp only [returns, hnone]
    exact hs.once i
  · intro i hi
    simp only [returns, hnone]
    exact hs.fresh i hi

theorem inv_takes (hs : Inv s) {data : Data} {events : List Data}
    (hq : s.queue id = some (data :: events)) : Inv (takes s id data events) := by
  have hid : s.queue id ≠ none := by rw [hq]; exact nofun
  have hself : returned (s.results ++ [(id, .event data)]) id =
      returned s.results id ++ [data] := by
    rw [returned_append]
    simp only [returned, List.filterMap_cons, if_true, List.filterMap_nil]
  have hother : ∀ i, i ≠ id →
      returned (s.results ++ [(id, .event data)]) i = returned s.results i := by
    intro i hi
    rw [returned_append]
    simp only [returned, List.filterMap_cons, if_neg hi.symm, List.filterMap_nil, List.append_nil]
  have hfifo : s.arrived id = returned s.results id ++ [data] ++ events := by
    rw [hs.fifo id _ hq, List.append_assoc]
    rfl
  constructor
  · constructor
    · exact hs.unfreed
    · intro i es hi
      simp only [takes, returns, Function.update_apply] at hi ⊢
      split at hi
      · next heq =>
        cases hi
        rw [heq, hself, hfifo]
      · next hne =>
        rw [hother i hne]
        exact hs.fifo i es hi
    · intro i
      simp only [takes, returns]
      by_cases hi : i = id
      · rw [hi, hself, hfifo]
        exact List.prefix_append _ _
      · rw [hother i hi]
        exact hs.once i
    · intro i es hi hasleep
      simp only [takes, returns, Function.update_apply] at hi hasleep ⊢
      split at hi
      · next heq =>
        cases hi
        subst heq
        have := hs.woken i _ hq hasleep
        rw [List.length_cons] at this
        omega
      · exact hs.woken i es hi hasleep
  · exact fun i hi => hs.queued i (ne_none_of_update hid hi)
  · intro i hi
    have hne : i ≠ id := by
      rintro rfl
      exact absurd (hs.queued i hid) (Nat.not_lt.mpr hi)
    simp only [takes, returns, hother i hne]
    exact hs.fresh i hi
  · exact fun c hc hphase => update_ne_none _ (hs.held c hc hphase)
  · exact fun i hi => update_ne_none _ (hs.callbacks i hi)
  · exact fun i hi => update_ne_none _ (hs.registers i hi)

theorem inv_getEvent (hs : Inv s) (timeout : Int) : Inv (getEvent s id timeout) := by
  unfold getEvent
  split
  · exact inv_returns hs _ nofun
  · next data events hq => exact inv_takes hs hq
  · next hq =>
    split
    · apply inv_calls hs
      · intro i events hi hasleep
        by_cases heq : i = id
        · rw [heq, hq] at hi
          cases hi
          exact Nat.zero_le _
        · obtain ⟨c, hc, hsleeps⟩ := hasleep
          obtain hold | hnew := List.mem_append.mp hc
          · have hbefore := hs.woken i events hi ⟨c, hold, hsleeps⟩
            rw [awake, List.countP_append]
            exact Nat.le_add_right_of_le hbefore
          · obtain rfl := List.mem_singleton.mp hnew
            exact absurd hsleeps.1.symm heq
      · intro c hc hphase
        obtain hold | hnew := List.mem_append.mp hc
        · exact hs.held c hold hphase
        · obtain rfl := List.mem_singleton.mp hnew
          change s.queue id ≠ none
          rw [hq]
          exact nofun
    · exact inv_returns hs _ nofun

theorem inv_set (hs : Inv s) {k : ℕ} {c : Call} (hk : s.calls[k]? = some c)
    (hc : c.phase ≠ .retrying) {phase : Phase} (hphase : phase ≠ .asleep)
    (hawake : c.phase = .signalled → phase = .retrying) :
    Inv { s with calls := s.calls.set k { c with phase := phase } } := by
  apply inv_calls hs
  · intro i events hq hasleep
    have hbefore := hs.woken i events hq (sleeps_of_set hphase hasleep)
    have hset := awake_set i hk { c with phase := phase }
    have hstays : c.isAwake i = true → Call.isAwake i { c with phase := phase } = true := by
      unfold Call.isAwake
      intro h
      rw [Bool.and_eq_true, Bool.or_eq_true, decide_eq_true_eq, decide_eq_true_eq,
        decide_eq_true_eq] at h
      rw [decide_eq_true h.1, hawake (h.2.resolve_right hc)]
      rfl
    cases hb : c.isAwake i with
    | false =>
      rw [hb, Bool.toNat_false] at hset
      omega
    | true =>
      rw [hb, hstays hb] at hset
      omega
  · intro d hd hdphase
    obtain hold | rfl := List.mem_or_eq_of_mem_set hd
    · exact hs.held d hold hdphase
    · exact hs.held c (List.mem_of_getElem? hk) hc

theorem touched_eq (hq : s.queue id ≠ none) : touched s id = s := by
  have hsome : (s.queue id).isNone = false := by
    cases h : s.queue id with
    | none => exact absurd h hq
    | some events => rfl
  unfold touched
  rw [hsome, Bool.or_false]

theorem inv_ends (hs : Inv s) {k : ℕ} {c : Call} (hk : s.calls[k]? = some c)
    (hc : c.phase = .expired) : Inv { s with calls := s.calls.eraseIdx k } := by
  apply inv_calls hs
  · intro i events hq hasleep
    have hbefore := hs.woken i events hq (sleeps_of_eraseIdx hasleep)
    have herase := awake_eraseIdx i hk
    have hno : c.isAwake i = false := by
      unfold Call.isAwake
      rw [hc]
      exact Bool.and_false _
    rw [hno, Bool.toNat_false] at herase
    omega
  · exact fun d hd hdphase => hs.held d (List.mem_of_mem_eraseIdx hd) hdphase

theorem inv_resume (hs : Inv s) {k : ℕ} {c : Call} (hk : s.calls[k]? = some c)
    (h : resume s k c = .ok s') : Inv s' := by
  unfold resume at h
  have hmem := List.mem_of_getElem? hk
  split at h
  · next hphase =>
    cases h
    have hc : c.phase ≠ .retrying := by rw [hphase]; exact nofun
    rw [touched_eq (hs.held c hmem hc)]
    exact inv_set hs hk hc nofun fun _ => rfl
  · next hphase =>
    cases h
    have hc : c.phase ≠ .retrying := by rw [hphase]; exact nofun
    rw [touched_eq (hs.held c hmem hc)]
    exact inv_returns (inv_ends hs hk hphase) .nothing nofun
  · cases h

theorem inv_retry (hs : Inv s) {k : ℕ} {c : Call} (hk : s.calls[k]? = some c)
    (h : retry s k c = .ok s') : Inv s' := by
  unfold retry at h
  split at h
  · next hphase =>
    cases h
    have hawake : c.isAwake c.eventid = true := by
      unfold Call.isAwake
      rw [hphase, decide_eq_true rfl]
      rfl
    have herase : awake c.eventid (s.calls.eraseIdx k) + 1 = awake c.eventid s.calls := by
      have := awake_eraseIdx c.eventid hk
      rwa [hawake] at this
    have hother : ∀ i, i ≠ c.eventid → awake i (s.calls.eraseIdx k) = awake i s.calls := by
      intro i hi
      have := awake_eraseIdx i hk
      have hno : c.isAwake i = false := by
        unfold Call.isAwake
        rw [decide_eq_false hi.symm]
        rfl
      rwa [hno] at this
    have hheld : ∀ d ∈ s.calls.eraseIdx k, d.phase ≠ .retrying → s.queue d.eventid ≠ none :=
      fun d hd hdphase => hs.held d (List.mem_of_mem_eraseIdx hd) hdphase
    unfold getAgain
    split
    · next hq =>
      apply inv_calls (inv_returns hs .noQueue nofun) _ hheld
      intro i events hi hasleep
      have hne : i ≠ c.eventid := by
        rintro rfl
        exact absurd (hq.symm.trans hi) nofun
      rw [hother i hne]
      exact hs.woken i events hi (sleeps_of_eraseIdx hasleep)
    · next data events hq =>
      have htakes := inv_takes hs hq
      apply inv_calls htakes
      · intro i es hi hasleep
        simp only [takes, returns, Function.update_apply] at hi
        split at hi
        · next heq =>
          cases hi
          have hbefore := hs.woken c.eventid _ hq (heq ▸ sleeps_of_eraseIdx hasleep)
          rw [List.length_cons] at hbefore
          rw [heq]
          omega
        · next hne =>
          rw [hother i hne]
          exact hs.woken i es hi (sleeps_of_eraseIdx hasleep)
      · intro d hd hdphase
        exact update_ne_none _ (hheld d hd hdphase)
    · next hq =>
      apply inv_calls (inv_returns hs .nothing nofun) _ hheld
      intro i events hi hasleep
      by_cases hne : i = c.eventid
      · have hnil : some events = some [] := hi.symm.trans (hne ▸ hq)
        cases hnil
        exact Nat.zero_le _
      · rw [hother i hne]
        exact hs.woken i events hi (sleeps_of_eraseIdx hasleep)
  · cases h

theorem inv_cancel (hs : Inv s) : Inv (cancel s id) := by
  refine { hs with registers := fun i hi => ?_ }
  simp only [cancel, Function.update_apply] at hi
  split at hi
  · cases hi
  · exact hs.registers i hi

theorem inv_join (hs : Inv s) {k : ℕ} {c : Cancel} (h : join s k c = .ok s') : Inv s' := by
  unfold join at h
  split at h
  · cases h
    exact { hs with }
  · cases h

theorem inv_clear (hs : Inv s) {k : ℕ} {c : Cancel} {woken : Option ℕ}
    (hunused : Unused s c.eventid) (h : clear s k c woken = .ok s') : Inv s' := by
  unfold clear at h
  split at h
  · split at h
    · cases h
      exact { hs with }
    · next events hq =>
      obtain ⟨hregistered, hcallback, hcalls⟩ := hunused.resolve_left (by rw [hq]; exact nofun)
      have hsame : signal c.eventid s.calls woken = .ok s.calls ∨
          ∃ e, signal c.eventid s.calls woken = .error e := by
        cases hsignal : signal c.eventid s.calls woken with
        | error e => exact .inr ⟨e, rfl⟩
        | ok calls =>
          obtain ⟨rfl, -⟩ | ⟨j, d, hj, ⟨hdid, hdphase⟩, -⟩ := signal_spec hsignal
          · exact .inl rfl
          · have := hcalls d (List.mem_of_getElem? hj) hdid
            rw [hdphase] at this
            cases this
      obtain hsame | ⟨e, herror⟩ := hsame
      · rw [hsame] at h
        cases h
        have hsome : ∀ i events, Function.update s.queue c.eventid none i = some events →
            s.queue i = some events := by
          intro i events hi
          rw [Function.update_apply] at hi
          split at hi
          · cases hi
          · exact hi
        have hkept : ∀ i, i ≠ c.eventid → s.queue i ≠ none →
            Function.update s.queue c.eventid none i ≠ none := by
          intro i hi
          rw [Function.update_of_ne hi]
          exact id
        refine
          { unfreed := hs.unfreed
            fifo := fun i events hi => hs.fifo i events (hsome i events hi)
            once := hs.once
            woken := fun i events hi => hs.woken i events (hsome i events hi)
            queued := fun i hi => ?_
            fresh := hs.fresh
            held := fun d hd hphase => ?_
            callbacks := fun i hi => ?_
            registers := fun i hi => ?_ }
        · obtain ⟨es, hes⟩ := Option.ne_none_iff_exists'.mp hi
          exact hs.queued i (by rw [hsome i es hes]; exact nofun)
        · exact hkept _ (fun heq => hphase (hcalls d hd heq)) (hs.held d hd hphase)
        · exact hkept i (fun heq => hi (heq ▸ hcallback)) (hs.callbacks i hi)
        · refine hkept i (fun heq => ?_) (hs.registers i hi)
          rw [heq] at hi
          exact Bool.false_ne_true (hregistered.symm.trans hi)
      · rw [herror] at h
        cases h
  · cases h

end Steps

theorem step_inv {s s' : Events} {a : Action} (hs : Inv s) (ha : Allowed s a)
    (h : step s a = .ok s') : Inv s' := by
  have hcall : ∀ {k : ℕ} {f : Call → Step}, withCall s k f = .ok s' →
      ∃ c, s.calls[k]? = some c ∧ f c = .ok s' := by
    intro k f hf
    unfold withCall at hf
    split at hf
    · cases hf
    · next c hc => exact ⟨c, hc, hf⟩
  have hcancel : ∀ {k : ℕ} {f : Cancel → Step}, withCancel s k f = .ok s' →
      ∃ c, s.cancels[k]? = some c ∧ f c = .ok s' := by
    intro k f hf
    unfold withCancel at hf
    split at hf
    · cases hf
    · next c hc => exact ⟨c, hc, hf⟩
  cases a with
  | queueEvent id => exact inv_queueEvent hs h
  | receive id data => exact inv_receive hs h
  | enqueue id woken => exact inv_enqueue hs h
  | getEvent id timeout =>
    cases h
    exact inv_getEvent hs timeout
  | wake k =>
    obtain ⟨c, hk, hf⟩ := hcall h
    unfold wake at hf
    split at hf
    · next hphase =>
      cases hf
      exact inv_set hs hk (by rw [hphase]; exact nofun) nofun (by rw [hphase]; exact nofun)
    · cases hf
  | expire k =>
    obtain ⟨c, hk, hf⟩ := hcall h
    unfold expire at hf
    split at hf
    · next hphase =>
      cases hf
      exact inv_set hs hk (by rw [hphase.1]; exact nofun) nofun (by rw [hphase.1]; exact nofun)
    · cases hf
  | resume k =>
    obtain ⟨c, hk, hf⟩ := hcall h
    exact inv_resume hs hk hf
  | retry k =>
    obtain ⟨c, hk, hf⟩ := hcall h
    exact inv_retry hs hk hf
  | cancel id =>
    cases h
    exact inv_cancel hs
  | join k =>
    obtain ⟨c, hk, hf⟩ := hcancel h
    exact inv_join hs hf
  | clear k woken =>
    obtain ⟨c, hk, hf⟩ := hcancel h
    exact inv_clear hs (ha c hk) hf

/-- In every run in which no queue is freed that is still in use, the queues are served. -/
theorem queues_served {actions : List Action} {s : Events}
    (hadm : Admissible step Allowed noEvents actions) (hrun : run step noEvents actions = .ok s) :
    Served s :=
  (run_preserves (fun _ _ _ hs ha h => step_inv hs ha h) noEvents actions s inv_noEvents hadm
    hrun).toServed

/-! ### A call that waits -/

def waitedFor : List Action :=
  [.queueEvent 0, .getEvent 0 0, .receive 0 [1], .enqueue 0 (some 0), .resume 0, .retry 0,
    .cancel 0, .join 0, .clear 0 none]

theorem waitedFor_allowed : Admissible step Allowed noEvents waitedFor := by
  refine ⟨trivial, fun s1 h1 => ?_⟩
  cases h1
  refine ⟨trivial, fun s2 h2 => ?_⟩
  cases h2
  refine ⟨trivial, fun s3 h3 => ?_⟩
  cases h3
  refine ⟨trivial, fun s4 h4 => ?_⟩
  cases h4
  refine ⟨trivial, fun s5 h5 => ?_⟩
  cases h5
  refine ⟨trivial, fun s6 h6 => ?_⟩
  cases h6
  refine ⟨trivial, fun s7 h7 => ?_⟩
  cases h7
  refine ⟨trivial, fun s8 h8 => ?_⟩
  cases h8
  refine ⟨fun c hc => ?_, fun _ _ => trivial⟩
  cases hc
  exact .inr ⟨rfl, rfl, fun _ h => nomatch h⟩

theorem queues_served_waitedFor :
    ∃ s, run step noEvents waitedFor = .ok s ∧ s.results = [(0, .event [1])] ∧ Served s :=
  ⟨_, rfl, rfl, queues_served waitedFor_allowed rfl⟩

/-- A queue is cancelled while a call waits on it. -/
theorem cancelled_freed :
    ¬ ∀ actions s, run step noEvents actions = .ok s → Served s := by
  intro hall
  have hserved := hall [.queueEvent 0, .getEvent 0 0, .cancel 0, .join 0, .clear 0 (some 0),
    .resume 0] _ rfl
  exact Bool.noConfusion (hserved.unfreed : true = false)

end MdsPlus.EventQueues
