import MdsPlus.Outcome

/-!
Waiting for an event. The thread of the event copies the data and signals under a mutex; the caller
waits on the condition, and cancels the event and joins the thread while it holds the mutex.
-/

namespace MdsPlus.EventWaits

open Outcome

/-- Where MDSWfeventTimed is, with the result of the wait: before the wait, in it, woken, without the
mutex again, with it, and after the thread was cancelled. -/
inductive Place
  | registered
  | sleeping
  | woken (ok : Bool)
  | between (ok : Bool)
  | locked (ok : Bool)
  | joining (ok : Bool)
  | returned (ok : Bool)
deriving DecidableEq

/-- The thread of the event is in recvfrom, or calls EventHappened. -/
inductive Thread
  | receiving
  | called (event : List UInt8)
  | ended
deriving DecidableEq

/-- The datagrams that were not taken yet, the buffer and the length of the caller, all arrivals,
and those before the wait was over. -/
structure State where
  place : Place
  thread : Thread
  queue : List (List UInt8)
  data : List UInt8
  datlen : ℕ
  arrived : List (List UInt8)
  early : List (List UInt8)

inductive Step
  | arrive (event : List UInt8)
  | receive
  | happened
  | wait
  | timeout
  | spurious
  | wake
  | lock
  | cancel
  | endThread
  | join

inductive Disabled
  | disabled

/-- The bytes that there is room for. -/
def copy (event data : List UInt8) : List UInt8 :=
  event.take data.length ++ data.drop event.length

/-- EventHappened; after the wait is over the caller has the mutex or has cleared `active`. -/
def happened (s : State) (event : List UInt8) : State :=
  { s with
    thread := .receiving, data := copy event s.data, datlen := event.length
    place := if s.place = .sleeping then .woken true else s.place }

def step (s : State) : Step → Except Disabled State
  | .arrive event =>
      .ok { s with
        queue := s.queue ++ [event], arrived := event :: s.arrived
        early := if s.place = .registered ∨ s.place = .sleeping then event :: s.early else s.early }
  | .receive =>
      match s.thread, s.queue, s.place with
      | _, _, .joining _ => .error .disabled
      | .receiving, event :: queue, _ => .ok { s with thread := .called event, queue }
      | _, _, _ => .error .disabled
  | .happened =>
      match s.thread, s.place with
      | _, .locked _ | _, .joining _ | _, .returned _ => .error .disabled
      | .called event, _ => .ok (happened s event)
      | _, _ => .error .disabled
  | .wait => if s.place = .registered then .ok { s with place := .sleeping } else .error .disabled
  | .timeout =>
      if s.place = .sleeping then .ok { s with place := .woken false } else .error .disabled
  | .spurious =>
      if s.place = .sleeping then .ok { s with place := .woken true } else .error .disabled
  | .wake =>
      match s.place with
      | .woken ok => .ok { s with place := .between ok }
      | _ => .error .disabled
  | .lock =>
      match s.place with
      | .between ok => .ok { s with place := .locked ok }
      | _ => .error .disabled
  | .cancel =>
      match s.place with
      | .locked ok => .ok { s with place := .joining ok }
      | _ => .error .disabled
  | .endThread =>
      match s.place, s.thread with
      | .joining _, .receiving => .ok { s with thread := .ended }
      | _, _ => .error .disabled
  | .join =>
      match s.place, s.thread with
      | .joining ok, .ended => .ok { s with place := .returned ok }
      | _, _ => .error .disabled

/-- The event is registered, and nothing has arrived. -/
def registered (data : List UInt8) (datlen : ℕ) : State :=
  ⟨.registered, .receiving, [], data, datlen, [], []⟩

/-- EventHappened is not in time before the wait, a wait does not end by itself or, with an event on
its way, by the time-out, and no callback is under way when the thread is cancelled. -/
def Timely (s : State) : Step → Prop
  | .happened => s.place ≠ .registered
  | .timeout => s.thread = .receiving ∧ s.queue = []
  | .spurious => False
  | .cancel => ∀ event, s.thread ≠ .called event
  | _ => True

def Gets (s : State) (event : List UInt8) : Prop :=
  s.datlen = event.length ∧ s.data.take event.length = event.take s.data.length

/-- Neither the caller nor the thread can go on. -/
def Quiet (s : State) : Prop :=
  ∀ a ∈ [Step.receive, .happened, .wait, .wake, .lock, .cancel, .endThread, .join],
    ∀ s', step s a ≠ .ok s'

def Deadlocked (s : State) : Prop := ∃ ok event, s.place = .joining ok ∧ s.thread = .called event

structure Right (s : State) : Prop where
  success : s.place = .returned true → ∃ event ∈ s.arrived, Gets s event
  failure : s.place = .returned false → s.early = []
  ends : s.early ≠ [] → Quiet s → s.place = .returned true
  free : ¬ Deadlocked s

/-- What is known of the result of the wait once it is over. -/
def Known (s : State) (ok : Bool) : Prop :=
  if ok then ∃ event ∈ s.arrived, Gets s event else s.early = []

def Phase (s : State) : Prop :=
  match s.place with
  | .registered | .sleeping =>
      s.thread ≠ .ended ∧ (s.early ≠ [] → s.thread = .receiving → s.queue ≠ [])
  | .woken ok | .between ok | .locked ok | .returned ok => Known s ok
  | .joining ok => Known s ok ∧ ∀ event, s.thread ≠ .called event

structure Inv (s : State) : Prop where
  arrived : ∀ event, s.thread = .called event ∨ event ∈ s.queue → event ∈ s.arrived
  phase : Phase s

variable {s s' : State} {a : Step} {ok : Bool}

theorem gets_copy (event data : List UInt8) :
    (copy event data).take event.length = event.take (copy event data).length := by
  by_cases hle : event.length ≤ data.length
  · have hlength : event.length ≤ (copy event data).length := by simp [copy, hle]
    rw [copy, List.take_of_length_le hle, List.take_left, List.take_of_length_le]
    simp [hle]
  · have hdrop : data.drop event.length = [] := List.drop_eq_nil_of_le (by omega)
    rw [copy, hdrop, List.append_nil, List.length_take, Nat.min_eq_left (by omega),
      List.take_of_length_le (Nat.le_trans (List.length_take_le ..) (by omega))]

theorem Known.arrive (h : Known s ok) (event : List UInt8) (queue : List (List UInt8)) :
    Known { s with queue, arrived := event :: s.arrived } ok := by
  cases ok with
  | false => exact h
  | true =>
    obtain ⟨e, he, hgets⟩ := h
    exact ⟨e, List.mem_cons_of_mem _ he, hgets⟩

theorem Known.happened (h : ok = false → s.early = []) {event : List UInt8}
    (harrived : event ∈ s.arrived) : Known (happened s event) ok := by
  cases ok with
  | false => exact h rfl
  | true => exact ⟨event, harrived, rfl, gets_copy event s.data⟩

theorem inv_step (h : Inv s) (ha : Timely s a) (hstep : step s a = .ok s') : Inv s' := by
  obtain ⟨harrived, hphase⟩ := h
  obtain ⟨place, thread, queue, data, datlen, arrived, early⟩ := s
  cases a with
  | arrive event =>
    cases hstep
    refine ⟨fun e he => ?_, ?_⟩
    · simp only [List.mem_append, List.mem_singleton, ← or_assoc] at he
      exact he.elim (fun he => List.mem_cons_of_mem _ (harrived e he))
        fun he => he ▸ List.mem_cons_self
    · cases place with
      | registered | sleeping => exact ⟨hphase.1, by simp⟩
      | joining ok => exact ⟨hphase.1.arrive event _, hphase.2⟩
      | _ => exact Known.arrive hphase event _
  | receive =>
    cases thread <;> cases queue <;> cases place <;> cases hstep
    all_goals
      refine ⟨fun e he => harrived e (Or.inr ?_), ?_⟩
      · rcases he with he | he
        · cases he
          exact List.mem_cons_self
        · exact List.mem_cons_of_mem _ he
      · first
        | exact hphase
        | exact ⟨(by rintro ⟨⟩), (by rintro _ ⟨⟩)⟩
  | happened =>
    cases thread <;> cases place <;> cases hstep
    · exact absurd rfl ha
    all_goals
      refine ⟨fun e he => harrived e (Or.inr (he.resolve_left (by rintro ⟨⟩))), ?_⟩
      refine Known.happened (fun hok => ?_) (harrived _ (Or.inl rfl))
      cases hok
      try exact hphase
  | wait =>
    cases place <;> cases hstep
    exact ⟨harrived, hphase⟩
  | timeout =>
    cases place <;> cases hstep
    refine ⟨harrived, ?_⟩
    by_contra hearly
    exact hphase.2 hearly ha.1 ha.2
  | spurious => exact ha.elim
  | wake | lock =>
    cases place <;> cases hstep
    exact ⟨harrived, hphase⟩
  | cancel =>
    cases place <;> cases hstep
    exact ⟨harrived, hphase, ha⟩
  | endThread =>
    cases thread <;> cases place <;> cases hstep
    exact ⟨fun e he => harrived e (Or.inr (he.resolve_left (by rintro ⟨⟩))), hphase.1,
      by rintro _ ⟨⟩⟩
  | join =>
    cases thread <;> cases place <;> cases hstep
    exact ⟨harrived, hphase.1⟩

theorem right_of_inv (h : Inv s) : Right s := by
  obtain ⟨-, hphase⟩ := h
  obtain ⟨place, thread, queue, data, datlen, arrived, early⟩ := s
  refine ⟨?_, ?_, fun hearly hquiet => ?_, ?_⟩
  · rintro rfl
    exact hphase
  · rintro rfl
    exact hphase
  · simp only [Quiet, List.forall_mem_cons, List.not_mem_nil, false_imp_iff, implies_true,
      and_true] at hquiet
    obtain ⟨hreceive, hhappened, hwait, hwake, hlock, hcancel, hend, hjoin⟩ := hquiet
    cases place with
    | registered => exact (hwait _ rfl).elim
    | sleeping =>
      cases thread with
      | receiving =>
        obtain ⟨e, rest, rfl⟩ := List.exists_cons_of_ne_nil (hphase.2 hearly rfl)
        exact (hreceive _ rfl).elim
      | called event => exact (hhappened _ rfl).elim
      | ended => exact absurd rfl hphase.1
    | woken ok => exact (hwake _ rfl).elim
    | between ok => exact (hlock _ rfl).elim
    | locked ok => exact (hcancel _ rfl).elim
    | joining ok =>
      cases thread with
      | receiving => exact (hend _ rfl).elim
      | called event => exact absurd rfl (hphase.2 event)
      | ended => exact (hjoin _ rfl).elim
    | returned ok =>
      cases ok with
      | true => rfl
      | false => exact absurd hphase hearly
  · rintro ⟨ok, event, rfl, rfl⟩
    exact hphase.2 event rfl

theorem inv_registered (data : List UInt8) (datlen : ℕ) : Inv (registered data datlen) where
  arrived event h := h.elim nofun nofun
  phase := by
    change Thread.receiving ≠ .ended ∧ (([] : List (List UInt8)) ≠ [] → _)
    exact ⟨nofun, fun h => absurd rfl h⟩

/-- In every state of a timely run an event that came before the time-out is not lost, what the call
returns is that of an event, and the caller does not wait for a thread that waits for the mutex. -/
theorem timely_right {data : List UInt8} {datlen : ℕ} {steps : List Step}
    (hadm : Admissible step Timely (registered data datlen) steps)
    (hrun : run step (registered data datlen) steps = .ok s) : Right s :=
  right_of_inv (run_preserves (fun _ _ _ h ha hstep => inv_step h ha hstep) _ steps s
    (inv_registered data datlen) hadm hrun)

/-- One event while the caller waits. -/
theorem timely_right_one :
    ∃ s, run step (registered [0] 0) [.wait, .arrive [7, 8], .receive, .happened, .wake, .lock,
      .cancel, .endThread, .join] = .ok s ∧ Right s := by
  have hadm : Admissible step Timely (registered [0] 0) [.wait, .arrive [7, 8], .receive,
      .happened, .wake, .lock, .cancel, .endThread, .join] := by
    simp [Admissible, step, Timely, registered, happened]
  exact ⟨_, rfl, timely_right hadm rfl⟩

/-- An event is signalled before the caller waits, and the time-out comes. A second event is taken
while the caller is on its way to cancel. -/
theorem signal_lost :
    (∃ s, run step (registered [0] 0) [.arrive [7], .receive, .happened, .wait, .timeout, .wake,
      .lock, .cancel, .endThread, .join] = .ok s ∧ s.place = .returned false ∧ s.early = [[7]]) ∧
    ∃ s, run step (registered [0] 0) [.wait, .arrive [7], .arrive [8], .receive, .happened, .receive,
      .wake, .lock, .cancel] = .ok s ∧ Deadlocked s :=
  ⟨⟨_, rfl, rfl, rfl⟩, _, rfl, true, [8], rfl, rfl⟩

end MdsPlus.EventWaits
