import MdsPlus.Outcome
import Mathlib.Data.List.Nodup

/-!
The servers that actions are sent to. For each there is a client, with the connection that the
actions are sent over and, once the server has opened one, the connection that its replies come
in on. The jobs of a server are known by the id of the connection they were sent over.
-/

namespace MdsPlus.ServerClients

open Outcome

structure Server where
  addr : UInt32
  port : UInt16
deriving DecidableEq

structure Client where
  replySock : Option ℕ
  conid : ℕ
  addr : UInt32
  port : UInt16
  freed : Bool
deriving DecidableEq

def Client.server (c : Client) : Server := ⟨c.addr, c.port⟩

structure Job where
  jobid : ℕ
  conid : ℕ
  sync : Bool
  server : Server
deriving DecidableEq

/-- The clients by the order of their allocation and those that are listed, the connections made
to servers, the reply connections with the servers that opened them, the registered jobs, and the
jobs that were failed because a client was removed. -/
structure Clients where
  allocated : ℕ
  client : ℕ → Client
  clients : List ℕ
  conids : ℕ
  connected : ℕ → Bool
  sockets : ℕ
  opener : ℕ → Server
  jobids : ℕ
  monJob : Option ℕ
  jobs : List Job
  failed : List Job
  usedFreed : Bool

def noClient : Client := ⟨none, 0, 0, 0, false⟩

def noClients : Clients :=
  ⟨0, fun _ => noClient, [], 0, fun _ => false, 0, fun _ => ⟨0, 0⟩, 0, none, [], [], false⟩

/-- A server is reached or not, and a message is answered or not. A connection to a server may
end, and a reply connection comes from an address. -/
inductive Action
  | connect (server : Server) (reached : Bool)
  | send (server : Server) (reached sync monitor answered : Bool)
  | lose (conid : ℕ)
  | accept (opener : Server) (addr : UInt32)
  | reply (jobid : ℕ)
  | serverWait (jobid : ℕ)
  | close (sock : ℕ)
  | reset (rep : ℕ) (broken : ℕ → Bool)
  | disconnect (server : Server)

/-- The step is not one that can be taken. -/
inductive Disabled
  | disabled

abbrev Step := Except Disabled Clients

def find (s : Clients) (p : Client → Bool) : Option ℕ := s.clients.find? fun c => p (s.client c)

def walk (s : Clients) (p : Client → Bool) : Clients :=
  let read := (s.clients.takeWhile fun c => !p (s.client c)) ++ (find s p).toList
  { s with usedFreed := s.usedFreed || read.any fun c => (s.client c).freed }

def connectToMds (s : Clients) : Clients :=
  { s with conids := s.conids + 1, connected := Function.update s.connected s.conids true }

/-- `newClient` and `Client_push_locked`, which adds to the tail. -/
def push (s : Clients) (server : Server) (conid : ℕ) : Clients :=
  { s with
    allocated := s.allocated + 1
    client := Function.update s.client s.allocated ⟨none, conid, server.addr, server.port, false⟩
    clients := s.clients ++ [s.allocated] }

def setConid (s : Clients) (c conid : ℕ) : Clients :=
  { s with client := Function.update s.client c { s.client c with conid := conid } }

def serverConnect (s : Clients) (server : Server) (reached : Bool) : Clients × Option ℕ :=
  let s := walk s fun c => c.server = server
  match find s fun c => c.server = server with
  | some c =>
      if s.connected (s.client c).conid then (s, some (s.client c).conid)
      else if reached then (setConid (connectToMds s) c s.conids, some s.conids)
      else (s, none)
  | none =>
      if reached then (push (connectToMds s) server s.conids, some s.conids)
      else (s, none)

def register (s : Clients) (conid : ℕ) (server : Server) (sync monitor : Bool) : Clients :=
  { s with
    jobids := s.jobids + 1
    monJob := if monitor then some s.jobids else s.monJob
    jobs := ⟨s.jobids, conid, sync, server⟩ :: s.jobs }

/-- `Job_cleanup`, which fails the jobs with the status of the message. -/
def cleanup (s : Clients) (conid : ℕ) : Clients :=
  { s with
    connected := Function.update s.connected conid false
    jobs := s.jobs.filter fun j => j.conid ≠ conid }

/-- `ServerSendMessage` -/
def send (s : Clients) (server : Server) (reached sync monitor answered : Bool) : Clients :=
  match serverConnect s server reached with
  | (s, none) => s
  | (s, some conid) =>
      let s := register s conid server sync monitor
      if answered then s else cleanup s conid

/-- `accept_client` -/
def accept (s : Clients) (opener : Server) (addr : UInt32) : Clients :=
  let s := walk s fun c => c.addr = addr && c.replySock = none
  let s' := { s with
    sockets := s.sockets + 1
    opener := Function.update s.opener s.sockets opener }
  match find s fun c => c.addr = addr && c.replySock = none with
  | none => s'
  | some c =>
      { s' with
        client := Function.update s.client c { s.client c with replySock := some s.sockets } }

def reply (s : Clients) (jobid : ℕ) : Clients :=
  match s.jobs.find? fun j => j.jobid = jobid with
  | none => s
  | some j => if j.sync ∨ s.monJob = some jobid then s else { s with jobs := s.jobs.erase j }

def serverWait (s : Clients) (jobid : ℕ) : Clients :=
  match s.jobs.find? fun j => j.jobid = jobid with
  | none => s
  | some j => if j.sync then { s with jobs := s.jobs.erase j } else s

/-- `Client_cleanup_jobs` frees the client and fails the jobs of its connection. -/
def cleanupJobs (s : Clients) (c : ℕ) : Clients :=
  let conid := (s.client c).conid
  { s with
    client := Function.update s.client c { s.client c with freed := true }
    connected := Function.update s.connected conid false
    jobs := s.jobs.filter fun j => j.conid ≠ conid
    failed := s.failed ++ s.jobs.filter fun j => j.conid = conid
    usedFreed := s.usedFreed || (s.client c).freed }

/-- `Client_remove` -/
def remove (s : Clients) (c : ℕ) : Clients :=
  cleanupJobs { s with clients := s.clients.erase c } c

def close (s : Clients) (sock : ℕ) : Step :=
  let s := walk s fun c => c.replySock = some sock
  match find s fun c => c.replySock = some sock with
  | none => .error .disabled
  | some c => .ok (remove s c)

def isBrokenSocket (broken : ℕ → Bool) : Option ℕ → Bool
  | none => true
  | some sock => broken sock

/-- `reset_fdactive` removes clients without taking them off the list, and then walks the list. -/
def reset (s : Clients) (rep : ℕ) (broken : ℕ → Bool) : Clients :=
  let s := walk s fun _ => false
  let s' :=
    if 0 < rep then
      s.clients.foldl
        (fun s c => if isBrokenSocket broken (s.client c).replySock then cleanupJobs s c else s) s
    else s
  walk s' fun _ => false

/-- `ServerDisconnect` -/
def disconnect (s : Clients) (server : Server) : Clients :=
  let s := walk s fun c => c.server = server
  match find s fun c => c.server = server with
  | none => s
  | some c => remove s c

def step (s : Clients) : Action → Step
  | .connect server reached => .ok (serverConnect s server reached).1
  | .send server reached sync monitor answered =>
      .ok (send s server reached sync monitor answered)
  | .lose conid => .ok { s with connected := Function.update s.connected conid false }
  | .accept opener addr => .ok (accept s opener addr)
  | .reply jobid => .ok (reply s jobid)
  | .serverWait jobid => .ok (serverWait s jobid)
  | .close sock => close s sock
  | .reset rep broken => .ok (reset s rep broken)
  | .disconnect server => .ok (disconnect s server)

/-! ### What is asked of the clients -/

structure Live (s : Clients) : Prop where
  unfreed : s.usedFreed = false
  alive : ∀ c ∈ s.clients, (s.client c).freed = false
  nodup : s.clients.Nodup
  distinct : ∀ c ∈ s.clients, ∀ d ∈ s.clients, (s.client c).server = (s.client d).server → c = d

/-- When a reply connection closes, the jobs of the server that opened it are failed, and the
others stay. -/
def FailsItsJobs (s : Clients) : Prop :=
  ∀ sock s', close s sock = .ok s' →
    s'.failed = s.failed ++ s.jobs.filter (fun j => j.server = s.opener sock) ∧
      s'.jobs = s.jobs.filter fun j => j.server ≠ s.opener sock

def Connectable (s : Clients) (server : Server) : Prop :=
  ∀ c, (find s fun c => c.server = server) = some c → s.connected (s.client c).conid = false →
    ∀ j ∈ s.jobs, j.conid ≠ (s.client c).conid

/-- A reply connection goes to the client of the server that opens it, or to none. All clients
have unbroken reply connections when the receiver looks for those that do not. -/
def Allowed (s : Clients) : Action → Prop
  | .connect server reached | .send server reached _ _ _ => reached → Connectable s server
  | .accept opener addr =>
      ∀ c, (find s fun c => c.addr = addr && c.replySock = none) = some c →
        (s.client c).server = opener
  | .reset rep broken =>
      rep = 0 ∨ ∀ c ∈ s.clients, isBrokenSocket broken (s.client c).replySock = false
  | _ => True

/-! ### What a step preserves -/

/-- Clients have connections of their own, a reply connection was opened by the server of its
client, and a job was sent over the connection of the client of its server. -/
structure Inv (s : Clients) : Prop extends Live s where
  known : ∀ c ∈ s.clients, c < s.allocated ∧ (s.client c).conid < s.conids
  apart : ∀ c ∈ s.clients, ∀ d ∈ s.clients, (s.client c).conid = (s.client d).conid → c = d
  opened : ∀ c ∈ s.clients, ∀ k, (s.client c).replySock = some k →
    k < s.sockets ∧ s.opener k = (s.client c).server
  sent : ∀ j ∈ s.jobs, ∃ c ∈ s.clients, (s.client c).conid = j.conid ∧
    (s.client c).server = j.server

theorem inv_noClients : Inv noClients where
  unfreed := rfl
  alive _ h := nomatch h
  nodup := List.nodup_nil
  distinct _ h := nomatch h
  known _ h := nomatch h
  apart _ h := nomatch h
  opened _ h := nomatch h
  sent _ h := nomatch h

section Steps

variable {s s' : Clients} {c : ℕ} {server : Server} {p : Client → Bool}

theorem find_mem (h : find s p = some c) : c ∈ s.clients := List.mem_of_find?_eq_some h

theorem find_spec (h : find s p = some c) : p (s.client c) = true := by
  have hfound := List.find?_some h
  exact hfound

theorem not_of_find (h : find s p = none) {d : ℕ} (hd : d ∈ s.clients) :
    p (s.client d) = false := by
  have hnot := List.find?_eq_none.mp h d hd
  exact eq_false_of_ne_true hnot

theorem walk_eq (hs : Live s) (p : Client → Bool) : walk s p = s := by
  have hread : ((s.clients.takeWhile fun c => !p (s.client c)) ++ (find s p).toList).any
      (fun c => (s.client c).freed) = false := by
    apply List.any_eq_false.mpr
    intro d hd
    have hmem : d ∈ s.clients := by
      obtain hd | hd := List.mem_append.mp hd
      · exact List.takeWhile_subset _ hd
      · exact find_mem (Option.mem_toList.mp hd)
    rw [hs.alive d hmem]
    exact Bool.false_ne_true
  simp only [walk, hread, Bool.or_false]

theorem inv_fewer {jobs : List Job} (hs : Inv s) (h : ∀ j ∈ jobs, j ∈ s.jobs)
    (connected : ℕ → Bool) : Inv { s with connected := connected, jobs := jobs } :=
  { hs with sent := fun j hj => hs.sent j (h j hj) }

theorem inv_register {conid : ℕ} (hs : Inv s) (hc : c ∈ s.clients)
    (hconid : (s.client c).conid = conid) (hserver : (s.client c).server = server)
    (sync monitor : Bool) : Inv (register s conid server sync monitor) := by
  refine { hs with sent := fun j hj => ?_ }
  obtain rfl | hj := List.mem_cons.mp hj
  · exact ⟨c, hc, hconid, hserver⟩
  · exact hs.sent j hj

theorem inv_setConid (hs : Inv s) (hc : c ∈ s.clients)
    (hjobs : ∀ j ∈ s.jobs, j.conid ≠ (s.client c).conid) :
    Inv (setConid (connectToMds s) c s.conids) := by
  have hself : (setConid (connectToMds s) c s.conids).client c =
      { s.client c with conid := s.conids } := Function.update_self c _ s.client
  have hold : ∀ d, d ≠ c → (setConid (connectToMds s) c s.conids).client d = s.client d :=
    fun d hd => Function.update_of_ne hd _ s.client
  have hserver : ∀ d, ((setConid (connectToMds s) c s.conids).client d).server =
      (s.client d).server := by
    intro d
    by_cases hd : d = c
    · rw [hd, hself]
      rfl
    · rw [hold d hd]
  have hsame : ∀ d, ((setConid (connectToMds s) c s.conids).client d).freed =
      (s.client d).freed ∧ ((setConid (connectToMds s) c s.conids).client d).replySock =
        (s.client d).replySock := by
    intro d
    by_cases hd : d = c
    · rw [hd, hself]
      exact ⟨rfl, rfl⟩
    · rw [hold d hd]
      exact ⟨rfl, rfl⟩
  -- the new id is that of no connection so far
  have hfresh : ∀ d ∈ s.clients, d ≠ c →
      ((setConid (connectToMds s) c s.conids).client d).conid ≠ s.conids := by
    intro d hd hdc
    rw [hold d hdc]
    exact Nat.ne_of_lt (hs.known d hd).2
  constructor
  · refine ⟨hs.unfreed, fun d hd => (hsame d).1.trans (hs.alive d hd), hs.nodup, ?_⟩
    intro d hd e he heq
    rw [hserver, hserver] at heq
    exact hs.distinct d hd e he heq
  · intro d hd
    refine ⟨(hs.known d hd).1, ?_⟩
    by_cases hdc : d = c
    · rw [hdc, hself]
      exact Nat.lt_succ_self _
    · rw [hold d hdc]
      exact Nat.lt_succ_of_lt (hs.known d hd).2
  · intro d hd e he heq
    by_cases hdc : d = c
    · by_cases hec : e = c
      · exact hdc.trans hec.symm
      · rw [hdc, hself] at heq
        exact absurd heq.symm (hfresh e he hec)
    · by_cases hec : e = c
      · rw [hec, hself] at heq
        exact absurd heq (hfresh d hd hdc)
      · rw [hold d hdc, hold e hec] at heq
        exact hs.apart d hd e he heq
  · intro d hd k hk
    rw [(hsame d).2] at hk
    rw [hserver]
    exact hs.opened d hd k hk
  · intro j hj
    obtain ⟨d, hd, hconid, hdserver⟩ := hs.sent j hj
    have hdc : d ≠ c := by
      rintro rfl
      exact hjobs j hj hconid.symm
    refine ⟨d, hd, ?_⟩
    rw [hold d hdc]
    exact ⟨hconid, hdserver⟩

theorem inv_push (hs : Inv s) (hnew : ∀ d ∈ s.clients, (s.client d).server ≠ server) :
    Inv (push (connectToMds s) server s.conids) := by
  have hself : (push (connectToMds s) server s.conids).client s.allocated =
      ⟨none, s.conids, server.addr, server.port, false⟩ :=
    Function.update_self s.allocated _ s.client
  have hold : ∀ d ∈ s.clients,
      (push (connectToMds s) server s.conids).client d = s.client d :=
    fun d hd => Function.update_of_ne (Nat.ne_of_lt (hs.known d hd).1) _ s.client
  have hmem : ∀ d, d ∈ (push (connectToMds s) server s.conids).clients →
      d ∈ s.clients ∨ d = s.allocated := by
    intro d hd
    exact (List.mem_append.mp hd).imp_right List.mem_singleton.mp
  constructor
  · constructor
    · exact hs.unfreed
    · intro d hd
      obtain hd | rfl := hmem d hd
      · rw [hold d hd]
        exact hs.alive d hd
      · rw [hself]
    · apply List.nodup_append.mpr
      refine ⟨hs.nodup, List.nodup_singleton _, fun d hd e he => ?_⟩
      rw [List.mem_singleton.mp he]
      exact Nat.ne_of_lt (hs.known d hd).1
    · intro d hd e he heq
      obtain hd | rfl := hmem d hd
      · obtain he | rfl := hmem e he
        · rw [hold d hd, hold e he] at heq
          exact hs.distinct d hd e he heq
        · rw [hold d hd, hself] at heq
          exact absurd heq (hnew d hd)
      · obtain he | rfl := hmem e he
        · rw [hself, hold e he] at heq
          exact absurd heq.symm (hnew e he)
        · rfl
  · intro d hd
    obtain hd | rfl := hmem d hd
    · rw [hold d hd]
      exact ⟨Nat.lt_succ_of_lt (hs.known d hd).1, Nat.lt_succ_of_lt (hs.known d hd).2⟩
    · rw [hself]
      exact ⟨Nat.lt_succ_self _, Nat.lt_succ_self _⟩
  · intro d hd e he heq
    obtain hd | rfl := hmem d hd
    · obtain he | rfl := hmem e he
      · rw [hold d hd, hold e he] at heq
        exact hs.apart d hd e he heq
      · rw [hold d hd, hself] at heq
        exact absurd heq (Nat.ne_of_lt (hs.known d hd).2)
    · obtain he | rfl := hmem e he
      · rw [hself, hold e he] at heq
        exact absurd heq.symm (Nat.ne_of_lt (hs.known e he).2)
      · rfl
  · intro d hd k hk
    obtain hd | rfl := hmem d hd
    · rw [hold d hd] at hk ⊢
      exact hs.opened d hd k hk
    · rw [hself] at hk
      cases hk
  · intro j hj
    obtain ⟨d, hd, hconid⟩ := hs.sent j hj
    refine ⟨d, List.mem_append_left _ hd, ?_⟩
    rw [hold d hd]
    exact hconid

theorem inv_serverConnect {reached : Bool} (hs : Inv s)
    (hallowed : reached = true → Connectable s server) :
    Inv (serverConnect s server reached).1 ∧
      ∀ conid, (serverConnect s server reached).2 = some conid →
        ∃ c ∈ (serverConnect s server reached).1.clients,
          ((serverConnect s server reached).1.client c).conid = conid ∧
            ((serverConnect s server reached).1.client c).server = server := by
  unfold serverConnect
  rw [walk_eq hs.toLive]
  simp only
  split
  · next c hfound =>
    have hc := find_mem hfound
    have hserver : (s.client c).server = server := of_decide_eq_true (find_spec hfound)
    split
    · refine ⟨hs, fun conid hconid => ?_⟩
      cases hconid
      exact ⟨c, hc, rfl, hserver⟩
    · next hlost =>
      cases reached with
      | false => exact ⟨hs, nofun⟩
      | true =>
        have hjobs := hallowed rfl c hfound (eq_false_of_ne_true hlost)
        refine ⟨inv_setConid hs hc hjobs, fun conid hconid => ?_⟩
        cases hconid
        refine ⟨c, hc, ?_⟩
        have hself : (setConid (connectToMds s) c s.conids).client c =
            { s.client c with conid := s.conids } := Function.update_self c _ s.client
        rw [if_pos rfl, hself]
        exact ⟨rfl, hserver⟩
  · next hnone =>
    cases reached with
    | false => exact ⟨hs, nofun⟩
    | true =>
      have hnew : ∀ d ∈ s.clients, (s.client d).server ≠ server :=
        fun d hd => of_decide_eq_false (not_of_find hnone hd)
      refine ⟨inv_push hs hnew, fun conid hconid => ?_⟩
      cases hconid
      refine ⟨s.allocated, List.mem_append_right _ (List.mem_singleton_self _), ?_⟩
      have hself : (push (connectToMds s) server s.conids).client s.allocated =
          ⟨none, s.conids, server.addr, server.port, false⟩ :=
        Function.update_self s.allocated _ s.client
      rw [if_pos rfl, hself]
      exact ⟨rfl, rfl⟩

theorem inv_send {reached sync monitor answered : Bool} (hs : Inv s)
    (hallowed : reached = true → Connectable s server) :
    Inv (send s server reached sync monitor answered) := by
  obtain ⟨hconnect, hclient⟩ := inv_serverConnect hs hallowed
  unfold send
  split
  · next s1 heq =>
    rw [heq] at hconnect
    exact hconnect
  · next s1 conid heq =>
    rw [heq] at hconnect hclient
    obtain ⟨c, hc, hconid, hserver⟩ := hclient conid rfl
    have hregister := inv_register hconnect hc hconid hserver sync monitor
    simp only
    split
    · exact hregister
    · exact inv_fewer hregister (fun j hj => (List.mem_filter.mp hj).1) _

theorem inv_opens (hs : Inv s) (opener : Server) :
    Inv { s with
      sockets := s.sockets + 1
      opener := Function.update s.opener s.sockets opener } := by
  refine { hs with opened := fun d hd k hk => ?_ }
  obtain ⟨hlt, hopener⟩ := hs.opened d hd k hk
  simp only
  rw [Function.update_of_ne (Nat.ne_of_lt hlt)]
  exact ⟨Nat.lt_succ_of_lt hlt, hopener⟩

theorem inv_setReplySock {k : ℕ} (hs : Inv s) (hk : k < s.sockets)
    (hopener : s.opener k = (s.client c).server) :
    Inv { s with
      client := Function.update s.client c { s.client c with replySock := some k } } := by
  have hself : Function.update s.client c { s.client c with replySock := some k } c =
      { s.client c with replySock := some k } := Function.update_self c _ s.client
  have hold : ∀ d, d ≠ c →
      Function.update s.client c { s.client c with replySock := some k } d = s.client d :=
    fun d hd => Function.update_of_ne hd _ s.client
  -- only the reply connection of the client is another one
  have hsame : ∀ d, ∃ sock,
      Function.update s.client c { s.client c with replySock := some k } d =
        { s.client d with replySock := sock } := by
    intro d
    by_cases hd : d = c
    · rw [hd, hself]
      exact ⟨some k, rfl⟩
    · rw [hold d hd]
      exact ⟨(s.client d).replySock, rfl⟩
  constructor
  · refine ⟨hs.unfreed, fun d hd => ?_, hs.nodup, fun d hd e he heq => ?_⟩
    · obtain ⟨sock, hsock⟩ := hsame d
      simp only
      rw [hsock]
      exact hs.alive d hd
    · obtain ⟨sock, hsock⟩ := hsame d
      obtain ⟨sock', hsock'⟩ := hsame e
      simp only at heq
      rw [hsock, hsock'] at heq
      exact hs.distinct d hd e he heq
  · intro d hd
    obtain ⟨sock, hsock⟩ := hsame d
    simp only
    rw [hsock]
    exact hs.known d hd
  · intro d hd e he heq
    obtain ⟨sock, hsock⟩ := hsame d
    obtain ⟨sock', hsock'⟩ := hsame e
    simp only at heq
    rw [hsock, hsock'] at heq
    exact hs.apart d hd e he heq
  · intro d hd i hi
    simp only at hi ⊢
    by_cases hdc : d = c
    · rw [hdc, hself] at hi ⊢
      cases hi
      exact ⟨hk, hopener⟩
    · rw [hold d hdc] at hi ⊢
      exact hs.opened d hd i hi
  · intro j hj
    obtain ⟨d, hd, hconid⟩ := hs.sent j hj
    refine ⟨d, hd, ?_⟩
    obtain ⟨sock, hsock⟩ := hsame d
    simp only
    rw [hsock]
    exact hconid

theorem inv_accept {opener : Server} {addr : UInt32} (hs : Inv s)
    (hallowed : ∀ c, (find s fun c => c.addr = addr && c.replySock = none) = some c →
      (s.client c).server = opener) : Inv (accept s opener addr) := by
  unfold accept
  rw [walk_eq hs.toLive]
  have hopens := inv_opens hs opener
  simp only
  split
  · exact hopens
  · next c hfound =>
    apply inv_setReplySock hopens (Nat.lt_succ_self _)
    simp only [Function.update_self]
    exact (hallowed c hfound).symm

theorem inv_erase {j : Job} (hs : Inv s) : Inv { s with jobs := s.jobs.erase j } :=
  inv_fewer hs (fun _ hi => List.mem_of_mem_erase hi) s.connected

theorem inv_reply (hs : Inv s) (jobid : ℕ) : Inv (reply s jobid) := by
  unfold reply
  split
  · exact hs
  · split
    · exact hs
    · exact inv_erase hs

theorem inv_serverWait (hs : Inv s) (jobid : ℕ) : Inv (serverWait s jobid) := by
  unfold serverWait
  split
  · exact hs
  · split
    · exact inv_erase hs
    · exact hs

theorem inv_remove (hs : Inv s) (hc : c ∈ s.clients) : Inv (remove s c) := by
  have hold : ∀ d ∈ s.clients.erase c, (remove s c).client d = s.client d := by
    intro d hd
    have hdc : d ≠ c := by
      rintro rfl
      exact hs.nodup.not_mem_erase hd
    exact Function.update_of_ne hdc _ s.client
  have hmem : ∀ d ∈ s.clients.erase c, d ∈ s.clients := fun d hd => List.mem_of_mem_erase hd
  constructor
  · constructor
    · change (s.usedFreed || (s.client c).freed) = false
      rw [hs.unfreed, hs.alive c hc, Bool.or_false]
    · intro d hd
      rw [hold d hd]
      exact hs.alive d (hmem d hd)
    · exact hs.nodup.erase c
    · intro d hd e he heq
      rw [hold d hd, hold e he] at heq
      exact hs.distinct d (hmem d hd) e (hmem e he) heq
  · intro d hd
    rw [hold d hd]
    exact hs.known d (hmem d hd)
  · intro d hd e he heq
    rw [hold d hd, hold e he] at heq
    exact hs.apart d (hmem d hd) e (hmem e he) heq
  · intro d hd k hk
    rw [hold d hd] at hk ⊢
    exact hs.opened d (hmem d hd) k hk
  · intro j hj
    obtain ⟨hj, hconid⟩ := List.mem_filter.mp hj
    obtain ⟨d, hd, hdconid, hdserver⟩ := hs.sent j hj
    have hdc : d ≠ c := by
      rintro rfl
      exact of_decide_eq_true hconid hdconid.symm
    have hd' : d ∈ s.clients.erase c := (List.mem_erase_of_ne hdc).mpr hd
    refine ⟨d, hd', ?_⟩
    rw [hold d hd']
    exact ⟨hdconid, hdserver⟩

theorem Inv.conid_iff (hs : Inv s) (hc : c ∈ s.clients) {j : Job} (hj : j ∈ s.jobs) :
    j.conid = (s.client c).conid ↔ j.server = (s.client c).server := by
  obtain ⟨d, hd, hconid, hserver⟩ := hs.sent j hj
  constructor
  · intro h
    have hdc := hs.apart d hd c hc (hconid.trans h)
    rw [← hserver, hdc]
  · intro h
    have hdc := hs.distinct d hd c hc (hserver.trans h)
    rw [← hconid, hdc]

theorem Inv.failsItsJobs (hs : Inv s) : FailsItsJobs s := by
  intro sock s' h
  unfold close at h
  rw [walk_eq hs.toLive] at h
  simp only at h
  split at h
  · cases h
  · next c hfound =>
    cases h
    have hc := find_mem hfound
    have hsock : (s.client c).replySock = some sock := of_decide_eq_true (find_spec hfound)
    have hopener := (hs.opened c hc sock hsock).2
    constructor
    · change s.failed ++ s.jobs.filter (fun j => j.conid = (s.client c).conid) = _
      congr 1
      apply List.filter_congr
      intro j hj
      rw [hopener]
      exact decide_eq_decide.mpr (hs.conid_iff hc hj)
    · change s.jobs.filter (fun j => j.conid ≠ (s.client c).conid) = _
      apply List.filter_congr
      intro j hj
      rw [hopener]
      exact decide_eq_decide.mpr (not_congr (hs.conid_iff hc hj))

theorem inv_close {sock : ℕ} (hs : Inv s) (h : close s sock = .ok s') : Inv s' := by
  unfold close at h
  rw [walk_eq hs.toLive] at h
  simp only at h
  split at h
  · cases h
  · next c hfound =>
    cases h
    exact inv_remove hs (find_mem hfound)

theorem inv_disconnect (hs : Inv s) (server : Server) : Inv (disconnect s server) := by
  unfold disconnect
  rw [walk_eq hs.toLive]
  simp only
  split
  · exact hs
  · next c hfound => exact inv_remove hs (find_mem hfound)

theorem reset_unbroken {broken : ℕ → Bool} (clients : List ℕ)
    (h : ∀ c ∈ clients, isBrokenSocket broken (s.client c).replySock = false) :
    clients.foldl
      (fun s c => if isBrokenSocket broken (s.client c).replySock then cleanupJobs s c else s) s =
        s := by
  induction clients with
  | nil => rfl
  | cons c clients ih =>
    rw [List.foldl_cons, h c List.mem_cons_self, if_neg Bool.false_ne_true]
    exact ih fun d hd => h d (List.mem_cons_of_mem _ hd)

theorem reset_eq {rep : ℕ} {broken : ℕ → Bool} (hs : Live s)
    (hallowed : rep = 0 ∨
      ∀ c ∈ s.clients, isBrokenSocket broken (s.client c).replySock = false) :
    reset s rep broken = s := by
  unfold reset
  rw [walk_eq hs]
  simp only
  split
  · next hrep =>
    rw [reset_unbroken s.clients (hallowed.resolve_left (Nat.ne_of_gt hrep))]
    exact walk_eq hs _
  · exact walk_eq hs _

theorem step_inv {op : Action} (hs : Inv s) (hallowed : Allowed s op) (h : step s op = .ok s') :
    Inv s' := by
  cases op with
  | connect server reached =>
    cases h
    exact (inv_serverConnect hs hallowed).1
  | send server reached sync monitor answered =>
    cases h
    exact inv_send hs hallowed
  | lose conid =>
    cases h
    exact inv_fewer hs (fun _ hj => hj) _
  | accept opener addr =>
    cases h
    exact inv_accept hs hallowed
  | reply jobid =>
    cases h
    exact inv_reply hs jobid
  | serverWait jobid =>
    cases h
    exact inv_serverWait hs jobid
  | close sock => exact inv_close hs h
  | reset rep broken =>
    cases h
    rw [reset_eq hs.toLive hallowed]
    exact hs
  | disconnect server =>
    cases h
    exact inv_disconnect hs server

/-- In every run in which reply connections go to the clients of the servers that open them, no
connection is lost and made again while there are jobs of it, and the receiver has no clients to
remove by itself, the clients are live and each answers for its own jobs. -/
theorem clients_live {actions : List Action} {s : Clients}
    (hadm : Admissible step Allowed noClients actions)
    (hrun : run step noClients actions = .ok s) : Live s ∧ FailsItsJobs s := by
  have hinv := run_preserves (fun _ _ _ hs ha h => step_inv hs ha h) noClients actions s
    inv_noClients hadm hrun
  exact ⟨hinv.toLive, hinv.failsItsJobs⟩

end Steps

/-! ### Two servers on one host -/

def serverA : Server := ⟨1, 8000⟩

def serverB : Server := ⟨1, 8001⟩

/-- Each server opens its reply connection before the next one is sent a job. -/
def inTurn : List Action :=
  [.send serverA true false false true, .accept serverA 1, .send serverB true false false true,
    .accept serverB 1]

theorem inTurn_allowed : Admissible step Allowed noClients inTurn := by
  refine ⟨fun _ c hc => absurd hc nofun, fun s1 h1 => ?_⟩
  cases h1
  refine ⟨fun c hc => ?_, fun s2 h2 => ?_⟩
  · cases hc
    rfl
  cases h2
  refine ⟨fun _ c hc => absurd hc nofun, fun s3 h3 => ?_⟩
  cases h3
  refine ⟨fun c hc => ?_, fun _ _ => trivial⟩
  cases hc
  rfl

theorem clients_live_inTurn :
    ∃ s, run step noClients inTurn = .ok s ∧ s.clients = [0, 1] ∧ Live s ∧ FailsItsJobs s :=
  ⟨_, rfl, rfl, clients_live inTurn_allowed rfl⟩

/-- Both are sent a job, and the second is the first to open its reply connection, which the
client of the first one gets. -/
def crossed : List Action :=
  [.send serverA true false false true, .send serverB true false false true, .accept serverB 1]

/-- A client whose server has not opened its reply connection is freed by `reset_fdactive` and
stays in the list. The job of one server is failed when another one closes its connection. -/
theorem clients_freed_crossed :
    (¬ ∀ actions s, run step noClients actions = .ok s → Live s) ∧
      ¬ ∀ actions s, run step noClients actions = .ok s → FailsItsJobs s := by
  constructor
  · intro hall
    have hlive := hall [.connect serverA true, .reset 1 fun _ => false] _ rfl
    exact Bool.noConfusion (hlive.unfreed : true = false)
  · intro hall
    have hfailed := (hall crossed _ rfl 0 _ rfl).1
    exact absurd (congrArg (List.map Job.server) hfailed) (by decide)

end MdsPlus.ServerClients
