import MdsPlus.Outcome
import MdsPlus.ServerClients
import MdsPlus.Traversals

/-!
The monitors of a server, in a linked list. A message is sent to each of them, and an entry whose
message could not be sent is taken out of the list while the list is walked.
-/

namespace MdsPlus.MonitorList

open Outcome ServerClients Traversals

structure Monitor where
  addr : UInt32
  port : UInt16
  next : Option ℕ

def Monitor.server (m : Monitor) : Server := ⟨m.addr, m.port⟩

/-- The entries by their pointers, the first of the list, the address in the job, and where
messages have been sent to. -/
structure State where
  heap : ℕ → Option Monitor
  monitors : Option ℕ
  job : Server
  sent : List Server

inductive Fault
  | freed | endless

def State.load (s : State) (m : ℕ) : Except Fault Monitor :=
  match s.heap m with
  | some entry => .ok entry
  | none => .error .freed

def State.store (s : State) (m : ℕ) (entry : Option Monitor) : State :=
  { s with heap := Function.update s.heap m entry }

def sendToMonitor (fails : ℕ → Bool) (m : ℕ) (prev : Option ℕ) (s : State) :
    Except Fault State := do
  let s := { s with sent := s.sent ++ [s.job] }
  if fails m then do
    let entry ← s.load m
    let s ←
      match prev with
      | some p => do
          let before ← s.load p
          .ok (s.store p (some { before with next := entry.next }))
      | none => .ok { s with monitors := entry.next }
    .ok (s.store m none)
  else .ok s

def sendLoop (fails : ℕ → Bool) (prev : Option ℕ) :
    ℕ → Option ℕ → State → Except Fault State
  | _, none, s => .ok s
  | 0, some _, _ => .error .endless
  | fuel + 1, some m, s => do
      let entry ← s.load m
      let s ← sendToMonitor fails m prev { s with job := entry.server }
      sendLoop fails prev fuel entry.next s

def sendToMonitors (fails : ℕ → Bool) (fuel : ℕ) (s : State) : Except Fault State := do
  let sent ← sendLoop fails none fuel s.monitors s
  .ok { sent with job := s.job }

/-! ### The list -/

def State.next (s : State) (m : ℕ) : Option (Option ℕ) := (s.heap m).map Monitor.next

/-- The entries of the list in order. None of them is freed. -/
def Listed (s : State) (l : List ℕ) : Prop := Chain s.next s.monitors l

def State.serverOf (s : State) (m : ℕ) : Option Server := (s.heap m).map Monitor.server

variable {fails : ℕ → Bool} {s s' : State} {start : Option ℕ} {l kept rest : List ℕ} {m : ℕ}

theorem load_of_chain (h : Chain s.next start (m :: rest)) :
    start = some m ∧ ∃ entry, s.heap m = some entry ∧ s.load m = .ok entry ∧
      Chain s.next entry.next rest := by
  obtain ⟨hstart, after, hafter, hrest⟩ := h
  obtain ⟨entry, hentry, rfl⟩ := Option.map_eq_some_iff.1 hafter
  refine ⟨hstart, entry, hentry, ?_, hrest⟩
  rw [State.load, hentry]

theorem heap_store_of_ne {a : ℕ} (entry : Option Monitor) (ha : a ≠ m) :
    (s.store m entry).heap a = s.heap a :=
  Function.update_of_ne ha ..

theorem chain_store {entry : Option Monitor} (h : Chain s.next start l) (hm : m ∉ l) :
    Chain (s.store m entry).next start l := by
  refine h.congr fun a ha => ?_
  have hne : a ≠ m := fun heq => hm (heq ▸ ha)
  rw [State.next, heap_store_of_ne entry hne, State.next]

/-! ### The walk -/

/-- The entries from behind the last one that was freed; the first list is what has been
walked since. -/
def left (fails : ℕ → Bool) : List ℕ → List ℕ → List ℕ
  | kept, [] => kept
  | kept, m :: rest => if fails m then left fails [] rest else left fails (kept ++ [m]) rest

structure Walked (fails : ℕ → Bool) (s s' : State) (l rest : List ℕ) : Prop where
  sent : s'.sent.map some = s.sent.map some ++ rest.map s.serverOf
  listed : Listed s' l
  freed : ∀ m ∈ rest, fails m = true → s'.heap m = none
  others : ∀ m, (m ∈ rest → fails m = false) → s'.heap m = s.heap m

theorem sendToMonitor_ok {entry : Monitor} (hload : s.heap m = some entry) :
    sendToMonitor fails m none { s with job := entry.server } =
      .ok (if fails m then
        { heap := Function.update s.heap m none, monitors := entry.next, job := entry.server,
          sent := s.sent ++ [entry.server] }
      else { s with job := entry.server, sent := s.sent ++ [entry.server] }) := by
  have hentry : ({ s with job := entry.server, sent := s.sent ++ [entry.server] } : State).load m =
      .ok entry := by
    rw [State.load, hload]
  cases hfails : fails m with
  | true =>
    simp only [sendToMonitor, hfails, if_true]
    rw [hentry]
    rfl
  | false =>
    simp only [sendToMonitor, hfails, Bool.false_eq_true, if_false]

theorem sendLoop_step {entry : Monitor} (hload : s.heap m = some entry) (fuel : ℕ) :
    sendLoop fails none (fuel + 1) (some m) s =
      sendLoop fails none fuel entry.next (if fails m then
        { heap := Function.update s.heap m none, monitors := entry.next, job := entry.server,
          sent := s.sent ++ [entry.server] }
      else { s with job := entry.server, sent := s.sent ++ [entry.server] }) := by
  have hentry : s.load m = .ok entry := by rw [State.load, hload]
  rw [sendLoop, hentry, ok_bind, sendToMonitor_ok hload, ok_bind]

theorem sendLoop_walked (hlisted : Listed s (kept ++ rest)) (hchain : Chain s.next start rest) :
    ∃ s', (∀ fuel ≥ rest.length, sendLoop fails none fuel start s = .ok s') ∧
      Walked fails s s' (left fails kept rest) rest := by
  induction rest generalizing kept start s with
  | nil =>
    obtain rfl : start = none := hchain
    rw [List.append_nil] at hlisted
    refine ⟨s, fun fuel _ => ?_, ?_, hlisted, nofun, fun _ _ => rfl⟩
    · cases fuel <;> rfl
    · simp
  | cons m rest ih =>
    obtain ⟨rfl, entry, hentry, -, hrest⟩ := load_of_chain hchain
    have hserver : s.serverOf m = some entry.server := congrArg (Option.map Monitor.server) hentry
    have hm : m ∉ rest := (List.nodup_cons.1 hchain.nodup).1
    have hturn : ∀ {s' : State}, (∀ fuel ≥ rest.length, sendLoop fails none fuel entry.next
        (if fails m then ⟨Function.update s.heap m none, entry.next, entry.server,
            s.sent ++ [entry.server]⟩
          else { s with job := entry.server, sent := s.sent ++ [entry.server] }) = .ok s') →
        ∀ fuel ≥ (m :: rest).length, sendLoop fails none fuel (some m) s = .ok s' := by
      intro s' hok fuel hfuel
      obtain ⟨n, rfl⟩ :=
        Nat.exists_eq_add_of_le' (Nat.le_trans (Nat.le_add_left 1 rest.length) hfuel)
      rw [sendLoop_step hentry]
      exact hok n (Nat.le_of_succ_le_succ hfuel)
    rw [left]
    cases hfails : fails m with
    | true =>
      -- the list begins behind the entry that is freed
      rw [hfails] at hturn
      have hfresh : Chain (s.store m none).next entry.next rest := chain_store hrest hm
      obtain ⟨s', hok, hwalked⟩ := ih
        (s := ⟨Function.update s.heap m none, entry.next, entry.server, s.sent ++ [entry.server]⟩)
        (show Listed _ ([] ++ rest) from hfresh) hfresh
      have hsame : ∀ a, a ≠ m → Function.update s.heap m none a = s.heap a :=
        fun a ha => Function.update_of_ne ha ..
      refine ⟨s', hturn hok, ?_, hwalked.listed, ?_, ?_⟩
      · have hservers : rest.map (State.serverOf ⟨Function.update s.heap m none, entry.next,
            entry.server, s.sent ++ [entry.server]⟩) = rest.map s.serverOf := by
          refine List.map_congr_left fun a ha => ?_
          have hne : a ≠ m := fun heq => hm (heq ▸ ha)
          exact congrArg (Option.map Monitor.server) (hsame a hne)
        rw [hwalked.sent, hservers, List.map_append, List.append_assoc, List.map_cons,
          List.map_cons, hserver]
        rfl
      · intro a ha hfail
        rcases List.mem_cons.1 ha with rfl | ha
        · rw [hwalked.others a fun hmem => absurd hmem hm]
          exact Function.update_self ..
        · exact hwalked.freed a ha hfail
      · intro a ha
        have hne : a ≠ m := by
          rintro rfl
          rw [ha List.mem_cons_self] at hfails
          cases hfails
        rw [hwalked.others a fun hmem => ha (List.mem_cons_of_mem m hmem)]
        exact hsame a hne
    | false =>
      rw [hfails] at hturn
      have hagain : Chain s.next s.monitors ((kept ++ [m]) ++ rest) := by
        rw [List.append_assoc]
        exact hlisted
      obtain ⟨s', hok, hwalked⟩ := ih
        (s := { s with job := entry.server, sent := s.sent ++ [entry.server] })
        (show Listed _ ((kept ++ [m]) ++ rest) from hagain) hrest
      refine ⟨s', hturn hok, ?_, hwalked.listed, ?_, ?_⟩
      · have hfirst : (m :: rest).map s.serverOf = some entry.server :: rest.map s.serverOf := by
          rw [List.map_cons, hserver]
        rw [hwalked.sent, List.map_append, List.append_assoc]
        exact congrArg (s.sent.map some ++ ·) hfirst.symm
      · intro a ha hfail
        rcases List.mem_cons.1 ha with rfl | ha
        · rw [hfails] at hfail
          cases hfail
        · exact hwalked.freed a ha hfail
      · intro a ha
        rw [hwalked.others a fun hmem => ha (List.mem_cons_of_mem m hmem)]

/-! ### What is left -/

theorem left_suffix (kept rest : List ℕ) :
    left fails kept rest <:+ kept ++ rest.filter fun m => !fails m := by
  induction rest generalizing kept with
  | nil => exact ⟨[], (List.append_nil kept).symm⟩
  | cons m rest ih =>
    rw [left]
    cases hfails : fails m with
    | true =>
      rw [if_pos rfl, List.filter_cons_of_neg (by simp [hfails])]
      exact (ih []).trans (List.suffix_append kept _)
    | false =>
      have hrest := ih (kept ++ [m])
      rw [List.append_assoc, List.singleton_append] at hrest
      rw [if_neg Bool.false_ne_true, List.filter_cons_of_pos (by simp [hfails])]
      exact hrest

theorem left_eq_iff (kept rest : List ℕ) :
    left fails kept rest = (kept ++ rest.filter fun m => !fails m) ↔
      (kept ≠ [] → ∀ m ∈ rest, fails m = false) ∧
        rest.Pairwise fun a b => fails b = true → fails a = true := by
  induction rest generalizing kept with
  | nil => simp [left]
  | cons m rest ih =>
    rw [left, List.pairwise_cons]
    cases hfails : fails m with
    | true =>
      rw [if_pos rfl, List.filter_cons_of_neg (by simp [hfails])]
      constructor
      · intro heq
        have hle := (@left_suffix fails [] rest).length_le
        rw [heq, List.nil_append, List.length_append] at hle
        have hnone : kept = [] := List.length_eq_zero_iff.1 (by omega)
        subst hnone
        exact ⟨fun hne => absurd rfl hne, fun b _ _ => rfl, ((ih []).1 heq).2⟩
      · rintro ⟨hkept, -, hrest⟩
        have hnone : kept = [] := by
          by_contra hne
          have hnot := hkept hne m List.mem_cons_self
          rw [hfails] at hnot
          cases hnot
        subst hnone
        exact (ih []).2 ⟨fun hne => absurd rfl hne, hrest⟩
    | false =>
      have hall := ih (kept ++ [m])
      rw [List.append_assoc, List.singleton_append] at hall
      rw [if_neg Bool.false_ne_true, List.filter_cons_of_pos (by simp [hfails]), hall]
      constructor
      · rintro ⟨hkept, hrest⟩
        have hok := hkept (by simp)
        refine ⟨fun _ a ha => ?_, fun b hb hfail => ?_, hrest⟩
        · rcases List.mem_cons.1 ha with rfl | ha
          · exact hfails
          · exact hok a ha
        · rw [hok b hb] at hfail
          cases hfail
      · rintro ⟨-, hfirst, hrest⟩
        refine ⟨fun _ b hb => ?_, hrest⟩
        by_contra hfail
        have hno := hfirst b hb (by simpa using hfail)
        cases hno

/-- One message has gone to each entry in order, those that failed are freed, and the list is of
the others, as they were. -/
structure Delivered (fails : ℕ → Bool) (s s' : State) (l : List ℕ) : Prop where
  sent : s'.sent.map some = s.sent.map some ++ l.map s.serverOf
  listed : Listed s' (l.filter fun m => !fails m)
  freed : ∀ m ∈ l, fails m = true → s'.heap m = none
  same : ∀ m ∈ l, fails m = false → s'.serverOf m = s.serverOf m
  job : s'.job = s.job

/-- The messages are delivered, and the list is of those that did not fail, exactly when no
entry that fails comes behind one that does not. -/
theorem sendToMonitors_iff (h : Listed s l) :
    (∃ s' n, (∀ fuel ≥ n, sendToMonitors fails fuel s = .ok s') ∧ Delivered fails s s' l) ↔
      l.Pairwise fun a b => fails b = true → fails a = true := by
  obtain ⟨s1, hloop, hwalked⟩ := @sendLoop_walked fails s s.monitors [] l h h
  have hrun : ∀ fuel ≥ l.length,
      sendToMonitors fails fuel s = .ok { s1 with job := s.job } := by
    intro fuel hfuel
    rw [sendToMonitors, hloop fuel hfuel, ok_bind]
  have hiff := @left_eq_iff fails [] l
  rw [List.nil_append] at hiff
  constructor
  · rintro ⟨s', n, hall, hdelivered⟩
    have hok := hrun (max n l.length) (le_max_right _ _)
    obtain rfl := Except.ok.inj ((hall _ (le_max_left _ _)).symm.trans hok)
    exact (hiff.1 (hwalked.listed.unique hdelivered.listed)).2
  · intro hpairs
    have hleft := hiff.2 ⟨fun hne => absurd rfl hne, hpairs⟩
    have hlisted := hwalked.listed
    rw [hleft] at hlisted
    refine ⟨_, l.length, hrun, hwalked.sent, hlisted, hwalked.freed, fun m hm hok => ?_, rfl⟩
    exact congrArg (Option.map Monitor.server) (hwalked.others m fun _ => hok)

def two : State where
  heap := fun m => if m = 1 then some ⟨16, 8000, some 2⟩ else if m = 2 then some ⟨17, 8000, none⟩
    else none
  monitors := some 1
  job := ⟨1, 1⟩
  sent := []

theorem listed_two : Listed two [1, 2] := ⟨rfl, some 2, rfl, rfl, none, rfl, rfl⟩

theorem sendToMonitors_first : ∃ s' n,
    (∀ fuel ≥ n, sendToMonitors (fun m => m == 1) fuel two = .ok s') ∧
      Delivered (fun m => m == 1) two s' [1, 2] := by
  refine (sendToMonitors_iff listed_two).2 ?_
  simp

theorem second_loses_first : ∃ s',
    (∀ fuel ≥ 2, sendToMonitors (fun m => m == 2) fuel two = .ok s') ∧ Listed s' [] ∧
      ¬ Delivered (fun m => m == 2) two s' [1, 2] := by
  obtain ⟨s1, hloop, hwalked⟩ :=
    @sendLoop_walked (fun m => m == 2) two two.monitors [] [1, 2] listed_two listed_two
  refine ⟨{ s1 with job := two.job }, fun fuel hfuel => ?_, hwalked.listed, fun hdelivered => ?_⟩
  · rw [sendToMonitors, hloop fuel hfuel, ok_bind]
  · have hnone := hwalked.listed.unique hdelivered.listed
    cases hnone

/-! ### Runs of jobs -/

def findMonitor (s : State) (server : Server) : ℕ → Option ℕ → Except Fault Bool
  | _, none => .ok false
  | 0, some _ => .error .endless
  | fuel + 1, some m => do
      let entry ← s.load m
      if server = entry.server then .ok true else findMonitor s server fuel entry.next

/-- The entry is what `malloc` gives. -/
def addMonitorClient (server : Server) (m : ℕ) (fuel : ℕ) (s : State) : Except Fault State := do
  if ← findMonitor s server fuel s.monitors then .ok s
  else
    .ok { s.store m (some ⟨server.addr, server.port, s.monitors⟩) with monitors := some m }

inductive Job
  | checkin (server : Server) (m : ℕ)
  | message (fails : ℕ → Bool)

def doSrvMonitor (fuel : ℕ) (s : State) : Job → Except Fault State
  | .checkin server m => addMonitorClient server m fuel s
  | .message fails => sendToMonitors fails fuel s

/-- The memory of a new entry is that of no other. -/
def Fresh (s : State) : Job → Prop
  | .checkin _ m => s.heap m = none
  | .message _ => True

/-- No two entries are of the same monitor. -/
structure Registered (s : State) (l : List ℕ) : Prop where
  listed : Listed s l
  servers : (l.map s.serverOf).Nodup

theorem findMonitor_eq (server : Server) (h : Chain s.next start l) {fuel : ℕ}
    (hfuel : l.length ≤ fuel) :
    findMonitor s server fuel start = .ok (decide (some server ∈ l.map s.serverOf)) := by
  induction l generalizing start fuel with
  | nil =>
    obtain rfl : start = none := h
    cases fuel <;> rfl
  | cons m rest ih =>
    obtain ⟨rfl, entry, hentry, hload, hrest⟩ := load_of_chain h
    obtain ⟨n, rfl⟩ := Nat.exists_eq_add_of_le' (Nat.le_trans (Nat.le_add_left 1 _) hfuel)
    have hserver : s.serverOf m = some entry.server := congrArg (Option.map Monitor.server) hentry
    rw [findMonitor, hload, ok_bind, List.map_cons, hserver]
    by_cases hsame : server = entry.server
    · simp [hsame]
    · rw [if_neg hsame, ih hrest (Nat.le_of_succ_le_succ hfuel)]
      simp [hsame]

theorem registered_checkin (h : Registered s l) {fuel : ℕ} (hfuel : l.length ≤ fuel)
    (server : Server) (hm : s.heap m = none) :
    ∃ s' l', addMonitorClient server m fuel s = .ok s' ∧ Registered s' l' ∧
      l'.length ≤ l.length + 1 := by
  rw [addMonitorClient, findMonitor_eq server h.listed hfuel, ok_bind]
  by_cases hknown : some server ∈ l.map s.serverOf
  · exact ⟨s, l, by simp [hknown], h, Nat.le_succ _⟩
  · have hout : m ∉ l := by
      intro hin
      obtain ⟨before, rest, -, hchain⟩ := h.listed.exists_suffix hin
      obtain ⟨-, entry, hentry, -⟩ := load_of_chain hchain
      rw [hm] at hentry
      cases hentry
    obtain ⟨added, hadded⟩ : ∃ t : State, t =
        { s.store m (some ⟨server.addr, server.port, s.monitors⟩) with monitors := some m } :=
      ⟨_, rfl⟩
    have hself : added.heap m = some ⟨server.addr, server.port, s.monitors⟩ := by
      rw [hadded]
      exact Function.update_self ..
    have hservers : l.map added.serverOf = l.map s.serverOf := by
      refine List.map_congr_left fun a ha => ?_
      have hne : a ≠ m := fun heq => hout (heq ▸ ha)
      rw [hadded]
      exact congrArg (Option.map Monitor.server) (heap_store_of_ne _ hne)
    have hrest : Chain added.next s.monitors l := by
      rw [hadded]
      exact chain_store h.listed hout
    have hserver : added.serverOf m = some server := congrArg (Option.map Monitor.server) hself
    rw [if_neg (by simpa using hknown), ← hadded]
    refine ⟨added, m :: l, rfl, ⟨⟨by rw [hadded], s.monitors, ?_, hrest⟩, ?_⟩, Nat.le_refl _⟩
    · exact congrArg (Option.map Monitor.next) hself
    · rw [List.map_cons, hservers, hserver]
      exact List.nodup_cons.2 ⟨hknown, h.servers⟩

theorem registered_message (h : Registered s l) {fuel : ℕ} (hfuel : l.length ≤ fuel)
    (fails : ℕ → Bool) :
    ∃ s' l', sendToMonitors fails fuel s = .ok s' ∧ Registered s' l' ∧ l'.length ≤ l.length := by
  obtain ⟨s1, hloop, hwalked⟩ := @sendLoop_walked fails s s.monitors [] l h.listed h.listed
  have hsub := (@left_suffix fails [] l).sublist.trans List.filter_sublist
  refine ⟨{ s1 with job := s.job }, left fails [] l, ?_, ⟨hwalked.listed, ?_⟩, hsub.length_le⟩
  · rw [sendToMonitors, hloop fuel hfuel, ok_bind]
  · have hsame : ∀ m ∈ left fails [] l,
        State.serverOf { s1 with job := s.job } m = s.serverOf m := by
      intro m hm
      have hok := (List.mem_filter.1 ((@left_suffix fails [] l).subset hm)).2
      refine congrArg (Option.map Monitor.server) (hwalked.others m fun _ => ?_)
      simpa using hok
    rw [List.map_congr_left hsame]
    exact h.servers.sublist (hsub.map _)

/-- Whatever fails, no job looks at an entry that is freed or goes round for ever, and no monitor
is registered twice. -/
theorem run_registered {jobs : List Job} {fuel : ℕ} (h : Registered s l)
    (hfuel : l.length + jobs.length ≤ fuel) (hfresh : Admissible (doSrvMonitor fuel) Fresh s jobs) :
    ∃ s' l', run (doSrvMonitor fuel) s jobs = .ok s' ∧ Registered s' l' := by
  induction jobs generalizing s l with
  | nil => exact ⟨s, l, rfl, h⟩
  | cons job jobs ih =>
    rw [List.length_cons] at hfuel
    obtain ⟨hjob, hrest⟩ := hfresh
    obtain ⟨s1, l1, hstep, hs1, hlength⟩ : ∃ s' l', doSrvMonitor fuel s job = .ok s' ∧
        Registered s' l' ∧ l'.length ≤ l.length + 1 := by
      cases job with
      | checkin server m => exact registered_checkin h (by omega) server hjob
      | message fails =>
        have hle : l.length ≤ fuel := by omega
        obtain ⟨s1, l1, hstep, hs1, hlength⟩ := registered_message h hle fails
        exact ⟨s1, l1, hstep, hs1, Nat.le_succ_of_le hlength⟩
    obtain ⟨s', l', hrun, hs'⟩ := ih hs1 (by omega) (hrest s1 hstep)
    exact ⟨s', l', by rw [run, hstep]; exact hrun, hs'⟩

theorem run_registered_two : ∃ s' l', run (doSrvMonitor 4) two
    [.checkin ⟨18, 8000⟩ 3, .message fun m => m == 2] = .ok s' ∧ Registered s' l' :=
  run_registered ⟨listed_two, by decide⟩ (by decide) ⟨rfl, fun _ _ => ⟨trivial, fun _ _ => trivial⟩⟩

end MdsPlus.MonitorList
