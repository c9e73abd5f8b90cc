import MdsPlus.Outcome
import Mathlib.Data.List.Chain

/-!
Events for other servers. One status, one answer and one number of reconnects serve all servers in
turn; a server whose attempt fails is connected to again and tried once more while there are fewer
than three reconnects. The memory of an answer is freed after each attempt, and the pointer to it
is kept.
-/

namespace MdsPlus.RemoteEvents

/-- A server that events are sent to; without a name it is not connected to again. -/
structure Server where
  id : ℤ
  named : Bool

/-- What a remote call gives: its status and, if that is a success, an answer or none. -/
structure Call where
  status : ℤ
  answer : Option ℤ

structure Env where
  call : ℕ → Call
  connect : ℕ → ℤ

inductive Pointer
  | null
  | live (value : ℤ)
  | freed
  deriving DecidableEq

inductive Fault
  | used | freedTwice

structure State where
  calls : ℕ
  tmpStatus : ℤ
  status : ℤ
  ansarg : Pointer
  freed : ℕ

def reconnectToServer (e : Env) (reconnects : ℕ) (server : Server) : Server :=
  if server.named then { server with id := e.connect reconnects } else server

def mdsValue (call : Call) (ansarg : Pointer) : ℤ × Pointer :=
  (call.status,
    if call.status % 2 = 1 then call.answer.elim .null .live else ansarg)

/-- What is pointed to, and zero if nothing is. -/
def value : Pointer → Except Fault ℤ
  | .null => .ok 0
  | .live v => .ok v
  | .freed => .error .used

def free (s : State) : Except Fault State :=
  match s.ansarg with
  | .null => .ok s
  | .live _ => .ok { s with ansarg := .freed, freed := s.freed + 1 }
  | .freed => .error .freedTwice

/-- Without a connection no call is made. -/
def callServer (e : Env) (server : Server) (s : State) : State :=
  if 0 < server.id then
    let (tmpStatus, ansarg) := mdsValue (e.call s.calls) s.ansarg
    { s with calls := s.calls + 1, tmpStatus, ansarg }
  else s

/-- One round of the loop; a server that gets no call is judged by what was there. -/
def attempt (e : Env) (server : Server) (s : State) : Except Fault State := do
  let s := callServer e server s
  let tmpStatus ← if s.tmpStatus % 2 = 1 then value s.ansarg else .ok s.tmpStatus
  free { s with tmpStatus, status := if tmpStatus % 2 = 1 then s.status else tmpStatus }

structure Attempt where
  call : Option Call
  again : Bool

def callOf (e : Env) (server : Server) (calls : ℕ) : Option Call :=
  if 0 < server.id then some (e.call calls) else none

/-- The rounds of the loop, each with the status that it was judged by. -/
abbrev Result := Except Fault (State × List (Attempt × ℤ))

def sendLoop (e : Env) : List Server → ℕ → State → Result
  | [], _, s => .ok (s, [])
  | server :: rest, reconnects, s =>
      match attempt e server s with
      | .error fault => .error fault
      | .ok s' =>
          if s'.tmpStatus % 2 ≠ 1 ∧ reconnects < 3 then
            (sendLoop e (reconnectToServer e reconnects server :: rest) (reconnects + 1) s').map
              fun r => (r.1, (⟨callOf e server s.calls, true⟩, s'.tmpStatus) :: r.2)
          else
            (sendLoop e rest reconnects s').map
              fun r => (r.1, (⟨callOf e server s.calls, false⟩, s'.tmpStatus) :: r.2)
termination_by servers reconnects => servers.length + (3 - reconnects)
decreasing_by all_goals simp only [List.length_cons]; omega

def start : State := ⟨0, 0, 1, .null, 0⟩

def sendRemoteEvent (e : Env) (servers : List Server) : Result :=
  sendLoop e servers 0 start

/-! ### Servers judged by their own calls -/

def given (a : Attempt) : Bool :=
  a.call.any fun call => decide (call.status % 2 = 1) && call.answer.isSome

def answered (a : Attempt) : Bool := a.call.any fun call => call.status % 2 = 1

def succeeds (a : Attempt) : Bool :=
  a.call.any fun call => decide (call.status % 2 = 1) && call.answer.any fun v => v % 2 = 1

def callsAfter (calls : ℕ) (call : Option Call) : ℕ := calls + if call.isSome then 1 else 0

def attempts (e : Env) : List Server → ℕ → ℕ → List Attempt
  | [], _, _ => []
  | server :: rest, reconnects, calls =>
      if ¬ succeeds ⟨callOf e server calls, false⟩ ∧ reconnects < 3 then
        ⟨callOf e server calls, true⟩ ::
          attempts e (reconnectToServer e reconnects server :: rest) (reconnects + 1)
            (callsAfter calls (callOf e server calls))
      else
        ⟨callOf e server calls, false⟩ ::
          attempts e rest reconnects (callsAfter calls (callOf e server calls))
termination_by servers reconnects => servers.length + (3 - reconnects)
decreasing_by all_goals simp only [List.length_cons]; omega

/-- Nothing is used or freed after it was freed, every answer is freed, each attempt is judged by
its own call, and the result is a success when the last attempt with every server is. -/
def Right (e : Env) (servers : List Server) : Prop :=
  ∃ s judged, sendRemoteEvent e servers = .ok (s, judged) ∧
    s.freed = judged.countP (fun a => given a.1) ∧
    (∀ a ∈ judged, a.2 % 2 = 1 ↔ succeeds a.1) ∧
    (s.status % 2 = 1 ↔ ∀ a ∈ judged, a.1.again = false → succeeds a.1)

/-- A server that comes after one with an answer answers too. -/
def Follows (l : List Attempt) : Prop := l.IsChain fun a b => given a → answered b

variable {e : Env} {server : Server} {servers : List Server} {s : State} {reconnects : ℕ}

/-- Before an attempt nothing is pointed to, or what was freed. -/
def Pointer.Between (p : Pointer) (tmpStatus : ℤ) : Prop :=
  p = .freed ∨ p = .null ∧ tmpStatus % 2 ≠ 1

structure Judged (a : Attempt) (s s' : State) : Prop where
  calls : s'.calls = callsAfter s.calls a.call
  judged : s'.tmpStatus % 2 = 1 ↔ succeeds a
  status : s'.status % 2 = 1 ↔ s.status % 2 = 1 ∧ succeeds a
  freed : s'.freed = s.freed + if given a then 1 else 0
  pointer : s'.ansarg = .freed ↔ given a
  between : s'.ansarg.Between s'.tmpStatus

def Tried (a : Attempt) (s : State) (run : Except Fault State) : Prop :=
  if s.ansarg = .freed ∧ answered a = false then ∃ fault, run = .error fault
  else ∃ s', run = .ok s' ∧ Judged a s s'

theorem attempt_freed (h : (callServer e server s).ansarg = .freed) :
    ∃ fault, attempt e server s = .error fault := by
  by_cases hodd : (callServer e server s).tmpStatus % 2 = 1
  · exact ⟨.used, by simp [attempt, hodd, h, value, bind, Except.bind]⟩
  · exact ⟨.freedTwice, by simp [attempt, hodd, h, free, bind, Except.bind]⟩

theorem attempt_unanswered {a : Attempt} {calls : ℕ} {tmpStatus : ℤ}
    (h : s.ansarg.Between s.tmpStatus)
    (hcalled : callServer e server s = { s with calls, tmpStatus })
    (hcalls : calls = callsAfter s.calls a.call)
    (heven : s.ansarg = .null → tmpStatus % 2 ≠ 1) (hanswered : answered a = false) :
    Tried a s (attempt e server s) := by
  have hsucceeds : succeeds a = false := by
    cases hcall : a.call <;> simp_all [answered, succeeds]
  have hgiven : given a = false := by
    cases hcall : a.call <;> simp_all [answered, given]
  rcases h with h | ⟨h, -⟩
  · rw [Tried, if_pos ⟨h, hanswered⟩]
    exact attempt_freed (hcalled ▸ h)
  · have hodd := heven h
    rw [Tried, if_neg (by simp [h])]
    refine ⟨_, by simp [attempt, hcalled, hodd, h, free, bind, Except.bind]; rfl, ?_⟩
    constructor <;> simp [hsucceeds, hgiven, hcalls, hodd, Pointer.Between]

/-- An attempt is judged by its own call unless it gets none, or one that fails, after an answer. -/
theorem attempt_spec (again : Bool) (h : s.ansarg.Between s.tmpStatus) :
    Tried ⟨callOf e server s.calls, again⟩ s (attempt e server s) := by
  by_cases hid : 0 < server.id
  · have hcall : callOf e server s.calls = some (e.call s.calls) := if_pos hid
    rw [hcall]
    by_cases hodd : (e.call s.calls).status % 2 = 1
    · rw [Tried, if_neg (by simp [answered, hodd])]
      cases hanswer : (e.call s.calls).answer with
      | none =>
        refine ⟨_, by simp [attempt, callServer, hid, mdsValue, hodd, hanswer, value, free, bind,
          Except.bind]; rfl, ?_⟩
        constructor <;> simp [succeeds, given, hanswer, callsAfter, Pointer.Between]
      | some v =>
        refine ⟨_, by simp [attempt, callServer, hid, mdsValue, hodd, hanswer, value, free, bind,
          Except.bind]; rfl, ?_⟩
        constructor <;> simp [succeeds, given, hanswer, hodd, callsAfter, Pointer.Between]
        split <;> simp_all
    · exact attempt_unanswered h (by simp [callServer, hid, mdsValue, hodd, callsAfter]) rfl
        (fun _ => hodd)
        (by simp [answered, hodd])
  · have hcall : callOf e server s.calls = none := if_neg hid
    rw [hcall]
    refine attempt_unanswered h (if_neg hid) rfl (fun hnull => ?_) rfl
    exact (h.resolve_left (by simp [hnull])).2

/-- Every attempt after an answer is answered, and so is the first one after what was freed. -/
def Clear (s : State) (l : List Attempt) : Prop :=
  (∀ a ∈ l.head?, s.ansarg = .freed → answered a) ∧ Follows l

structure Settles (s : State) (l : List Attempt) (run : Result) : Prop where
  right : Clear s l → ∃ s' judged, run = .ok (s', judged) ∧ judged.map Prod.fst = l ∧
    s'.freed = s.freed + l.countP given ∧ (∀ a ∈ judged, a.2 % 2 = 1 ↔ succeeds a.1) ∧
    (s'.status % 2 = 1 ↔ s.status % 2 = 1 ∧ ∀ a ∈ l, succeeds a)
  wrong : ¬ Clear s l → ∃ fault, run = .error fault

theorem clear_cons {a : Attempt} {l : List Attempt} {s' : State}
    (h : s'.ansarg = .freed ↔ given a) :
    Clear s (a :: l) ↔ ¬ (s.ansarg = .freed ∧ answered a = false) ∧ Clear s' l := by
  simp [Clear, Follows, List.isChain_cons, h]

theorem settles_cons {a : Attempt} {l : List Attempt} {run : Result}
    (h : Tried a s (attempt e server s))
    (herror : ∀ fault, attempt e server s = .error fault → run = .error fault)
    (hok : ∀ s', attempt e server s = .ok s' → Judged a s s' →
      ∃ next, run = next.map (fun r => (r.1, (a, s'.tmpStatus) :: r.2)) ∧ Settles s' l next) :
    Settles s (a :: l) run := by
  by_cases hfreed : s.ansarg = .freed ∧ answered a = false
  · rw [Tried, if_pos hfreed] at h
    exact ⟨fun hclear => absurd (hclear.1 a rfl hfreed.1) (by simp [hfreed.2]),
      fun _ => h.imp herror⟩
  · rw [Tried, if_neg hfreed] at h
    obtain ⟨s', hattempt, hjudged⟩ := h
    obtain ⟨next, rfl, hnext⟩ := hok s' hattempt hjudged
    have hclear := clear_cons (s := s) (l := l) hjudged.pointer
    rw [and_iff_right hfreed] at hclear
    constructor
    · intro hall
      obtain ⟨last, judged, rfl, rfl, hcount, hright, hstatus⟩ := hnext.right (hclear.1 hall)
      refine ⟨last, _, rfl, rfl, ?_, List.forall_mem_cons.2 ⟨hjudged.judged, hright⟩, ?_⟩
      · rw [hcount, hjudged.freed, List.countP_cons]
        omega
      · rw [hstatus, hjudged.status, List.forall_mem_cons, and_assoc]
    · intro hnot
      obtain ⟨fault, rfl⟩ := hnext.wrong fun h => hnot (hclear.2 h)
      exact ⟨fault, rfl⟩

theorem sendLoop_settles (h : s.ansarg.Between s.tmpStatus) :
    Settles s (attempts e servers reconnects s.calls) (sendLoop e servers reconnects s) := by
  generalize hcalls : s.calls = calls
  induction servers, reconnects, calls using attempts.induct (e := e) generalizing s with
  | case1 =>
    rw [attempts, sendLoop]
    exact ⟨fun _ => ⟨s, [], rfl, rfl, rfl, nofun, by simp⟩,
      fun h => absurd (by simp [Clear, Follows]) h⟩
  | case2 server rest reconnects calls hagain ih =>
    subst hcalls
    rw [attempts, if_pos hagain, sendLoop]
    refine settles_cons (attempt_spec true h) (fun fault hfault => by rw [hfault]) ?_
    intro s' hattempt hjudged
    have hfails : s'.tmpStatus % 2 ≠ 1 := fun hodd => hagain.1 (hjudged.judged.1 hodd)
    refine ⟨_, ?_, ih hjudged.between hjudged.calls⟩
    rw [hattempt]
    exact if_pos ⟨hfails, hagain.2⟩
  | case3 server rest reconnects calls hlast ih =>
    subst hcalls
    rw [attempts, if_neg hlast, sendLoop]
    refine settles_cons (attempt_spec false h) (fun fault hfault => by rw [hfault]) ?_
    intro s' hattempt hjudged
    refine ⟨_, ?_, ih hjudged.between hjudged.calls⟩
    rw [hattempt]
    exact if_neg fun hagain => hlast ⟨fun hs => hagain.1 (hjudged.judged.2 hs), hagain.2⟩

/-- The event is sent right exactly when a server that comes after one with an answer answers too,
and no attempt fails when the last one with every server is a success. -/
theorem sendRemoteEvent_right_iff (e : Env) (servers : List Server) :
    Right e servers ↔ Follows (attempts e servers 0 0) ∧
      ((∀ a ∈ attempts e servers 0 0, a.again = false → succeeds a) →
        ∀ a ∈ attempts e servers 0 0, succeeds a) := by
  have hsettles : Settles start (attempts e servers 0 0) (sendRemoteEvent e servers) :=
    sendLoop_settles (Or.inr ⟨rfl, by decide⟩)
  have hclear : Clear start (attempts e servers 0 0) ↔ Follows (attempts e servers 0 0) :=
    and_iff_right nofun
  by_cases hfollows : Follows (attempts e servers 0 0)
  · obtain ⟨s, judged, hrun, hjudged, hcount, hright, hstatus⟩ :=
      hsettles.right (hclear.2 hfollows)
    rw [and_iff_right (show start.status % 2 = 1 from rfl)] at hstatus
    rw [and_iff_right hfollows]
    have hlast : (∀ a ∈ judged, a.1.again = false → succeeds a.1) ↔
        ∀ a ∈ attempts e servers 0 0, a.again = false → succeeds a := by
      rw [← hjudged, List.forall_mem_map]
    constructor
    · rintro ⟨s', judged', hrun', -, -, hright'⟩
      obtain ⟨rfl, rfl⟩ := Prod.mk.inj (Except.ok.inj (hrun.symm.trans hrun'))
      rw [hstatus, hlast] at hright'
      exact hright'.2
    · intro hall
      refine ⟨s, judged, hrun, ?_, hright, ?_⟩
      · rw [hcount, ← hjudged, List.countP_map]
        exact Nat.zero_add _
      · rw [hstatus, hlast]
        exact ⟨fun h a ha _ => h a ha, hall⟩
  · refine iff_of_false ?_ fun h => hfollows h.1
    rintro ⟨s, judged, hrun, -⟩
    obtain ⟨fault, hfault⟩ := hsettles.wrong fun h => hfollows (hclear.1 h)
    rw [hfault] at hrun
    cases hrun

/-- A server whose first call fails and that answers once it is connected to again: the event is
sent, and the result is a failure. Two servers of which the second does not answer: the answer of
the first is freed twice. -/
theorem reconnected_not_right :
    ¬ Right ⟨fun k => ⟨if k = 0 then 0 else 1, some 1⟩, fun _ => 4⟩ [⟨3, true⟩] ∧
      sendRemoteEvent ⟨fun k => ⟨if k = 0 then 1 else 0, some 1⟩, fun _ => 4⟩
        [⟨3, true⟩, ⟨5, true⟩] = .error .freedTwice := by
  constructor
  · rintro ⟨s, judged, hrun, -, -, hright⟩
    simp [sendRemoteEvent, sendLoop, start, attempt, callServer, mdsValue, value, free, bind,
      Except.bind, Except.map, reconnectToServer] at hrun
    obtain ⟨rfl, rfl⟩ := hrun
    simp [succeeds, callOf] at hright
  · simp [sendRemoteEvent, sendLoop, start, attempt, callServer, mdsValue, value, free, bind,
      Except.bind, Except.map]

end MdsPlus.RemoteEvents
