import MdsPlus.DispatchTables
import MdsPlus.Outcome
import Mathlib.Algebra.GroupWithZero.Nat
import Mathlib.Data.Finset.Card
import Mathlib.Data.Fintype.Basic
import Mathlib.Data.Prod.Lex

/-!
What follows the completion of an action in the thread that completes it: the dependents are
dispatched or completed in turn, and so on. The lock of an action is taken and released in between,
and what a thread still has to do is a stack.
-/

namespace MdsPlus.CascadeLocks

open DispatchTables Outcome

structure Flags where
  done : Bool
  dispatched : Bool

/-- The flags of the actions, and the locks that the thread holds. -/
structure State (num : ℕ) where
  flags : Fin num → Flags
  held : Fin num → Bool

inductive Fault
  | takenTwice

/-- A message is taken by a server, or jobs end and the error is returned; of a job the status is
written first, unless there is no connection. -/
inductive Sent (num : ℕ)
  | accepted
  | refused (ended : List (Fin num × Bool))

structure Outcome (num : ℕ) where
  abort : Bool
  noact : Bool
  evaluation : Evaluation
  sent : Sent num

inductive Task (num : ℕ)
  /-- The call of ServerDispatchAction. -/
  | send (i : Fin num)
  /-- The error branch of dispatch. -/
  | failed (i : Fin num)
  /-- The end of a job, with action_done. -/
  | finish (i : Fin num) (w : Bool)
  /-- action_done_action_unlocked, and its loop over references. -/
  | unlocked (i : Fin num)
  | references (rest : List (Fin num))

variable {num : ℕ} (referencedBy : Fin num → List (Fin num))

def State.setFlags (s : State num) (i : Fin num) (f : Flags) : State num :=
  { s with flags := Function.update s.flags i f }

/-- A lock that the thread has is not to be taken again. -/
def lock (i : Fin num) (s : State num) : Except Fault (State num) :=
  if s.held i then .error .takenTwice else .ok { s with held := Function.update s.held i true }

def unlock (i : Fin num) (s : State num) : State num :=
  { s with held := Function.update s.held i false }

def locked (i : Fin num) (f : Flags → Flags) (s : State num) : Except Fault (State num) := do
  let s ← lock i s
  .ok (unlock i (s.setFlags i (f (s.flags i))))

/-- action_done_action_locked, and then the dependents. -/
def complete (i : Fin num) (s : State num) : Except Fault (List (Task num) × State num) := do
  let s ← locked i (fun f => { f with done := true }) s
  .ok ([.unlocked i], s)

def dispatch (o : Outcome num) (i : Fin num) (s : State num) :
    Except Fault (List (Task num) × State num) := do
  let s ← locked i (fun _ => ⟨o.noact, true⟩) s
  .ok ([if o.noact then .unlocked i else .send i], s)

/-- One round of the loop of action_done_action_unlocked. -/
def reference (o : Outcome num) (c : Fin num) (s : State num) :
    Except Fault (List (Task num) × State num) := do
  let s ← lock c s
  if !(s.flags c).done && !(s.flags c).dispatched then
    match o.evaluation with
    | .ok doit =>
        let s := unlock c s
        if doit ≠ 0 then dispatch o c s else complete c s
    | .unknownVar => .ok ([], s)
    | .failed => do
        let s ← lock c (unlock c s)
        -- This is action_done.
        let (tasks, s) ← complete c s
        .ok (tasks ++ [.unlocked c], unlock c s)
  else .ok ([], unlock c s)

def written (w : Bool) (i : Fin num) (s : State num) : Except Fault (State num) :=
  if w then locked i id s else .ok s

def advance (o : Outcome num) (task : Task num) (s : State num) :
    Except Fault (List (Task num) × State num) :=
  match task with
  | .send i =>
      match o.sent with
      | .accepted => .ok ([], s)
      | .refused ended => .ok (ended.map (fun j => .finish j.1 j.2) ++ [.failed i], s)
  | .failed i => do
      let s ← locked i (fun _ => ⟨true, false⟩) s
      .ok ([.unlocked i], s)
  | .finish i w => do
      let s ← written w i s
      complete i s
  | .unlocked i => .ok (if o.abort then [] else [.references (referencedBy i)], s)
  | .references [] => .ok ([], s)
  | .references (c :: rest) => do
      let (tasks, s) ← reference o c s
      .ok (tasks ++ [.references rest], s)

abbrev Config (num : ℕ) := List (Task num) × State num

def step (o : Outcome num) : Config num → Except Fault (Config num)
  | ([], s) => .ok ([], s)
  | (task :: rest, s) => do
      let (tasks, s) ← advance referencedBy o task s
      .ok (tasks ++ rest, s)

def run (o : ℕ → Outcome num) : ℕ → Config num → Except Fault (Config num)
  | 0, c => .ok c
  | n + 1, c => do
      let c ← run o n c
      step referencedBy (o n) c

/-- The work comes to an end, no lock was taken by a thread that had it, and all are released. -/
def Balanced (o : ℕ → Outcome num) (c : Config num) : Prop :=
  ∃ n s, run referencedBy o n c = .ok ([], s) ∧ ∀ i, s.held i = false

def Known (o : Outcome num) (c : Config num) : Prop :=
  ∀ i rest tasks, c.1 = .references (i :: rest) :: tasks →
    (c.2.flags i).done = false → (c.2.flags i).dispatched = false → ∃ doit, o.evaluation = .ok doit

variable {referencedBy} {o : Outcome num} {i c : Fin num} {s s' : State num} {task : Task num}

theorem lock_of_free (h : s.held i = false) :
    lock i s = .ok { s with held := Function.update s.held i true } := by
  simp [lock, h]

theorem update_held (h : s.held i = false) :
    Function.update (Function.update s.held i true) i false = s.held := by
  rw [Function.update_idem, ← h, Function.update_eq_self]

theorem locked_of_free (h : s.held i = false) (f : Flags → Flags) :
    locked i f s = .ok (s.setFlags i (f (s.flags i))) := by
  rw [locked, lock_of_free h, ok_bind, unlock, State.setFlags, State.setFlags]
  simp only [update_held h]

/-! ### The end of a cascade -/

/-- The action may still be dispatched or completed by the loop over references. -/
def isOpen (f : Flags) : Bool := !f.done && !f.dispatched

def opens (s : State num) : Finset (Fin num) := Finset.univ.filter fun i => isOpen (s.flags i)

def isSend : Task num → Bool
  | .send _ => true
  | _ => false

/-- The rounds that are left of a task without messages and open dependents. -/
def weight (referencedBy : Fin num → List (Fin num)) : Task num → ℕ
  | .send _ => 0
  | .failed i | .finish i _ => (referencedBy i).length + 3
  | .unlocked i => (referencedBy i).length + 2
  | .references rest => rest.length + 1

def size (referencedBy : Fin num → List (Fin num)) (c : Config num) : ℕ × ℕ :=
  (2 * (opens c.2).card + c.1.countP isSend, (c.1.map (weight referencedBy)).sum)

def Smaller (p q : ℕ × ℕ) : Prop := p.1 < q.1 ∨ p.1 ≤ q.1 ∧ p.2 < q.2

theorem opens_setFlags {f : Flags} (hf : isOpen f = false) :
    opens (s.setFlags i f) = (opens s).erase i := by
  ext j
  rw [opens, opens, Finset.mem_erase, Finset.mem_filter, Finset.mem_filter]
  by_cases hji : j = i
  · simp [State.setFlags, hji, hf]
  · simp [State.setFlags, hji]

theorem reference_of_open (hheld : s.held c = false) (hopen : isOpen (s.flags c) = true) {doit : ℤ}
    (hdoit : o.evaluation = .ok doit) :
    ∃ task f, reference o c s = .ok ([task], s.setFlags c f) ∧ isOpen f = false := by
  have hfree : unlock c { s with held := Function.update s.held c true } = s := by
    rw [unlock, update_held hheld]
  have hopen' : (!(s.flags c).done && !(s.flags c).dispatched) = true := hopen
  rw [reference, lock_of_free hheld, ok_bind, if_pos hopen', hdoit]
  dsimp only
  rw [hfree]
  split
  · rw [dispatch, locked_of_free hheld]
    exact ⟨_, _, rfl, by simp [isOpen]⟩
  · rw [complete, locked_of_free hheld]
    exact ⟨_, _, rfl, by simp [isOpen]⟩

theorem reference_of_not_open (hheld : s.held c = false) (hopen : isOpen (s.flags c) = false) :
    reference o c s = .ok ([], s) := by
  have hopen' : (!(s.flags c).done && !(s.flags c).dispatched) = false := hopen
  rw [reference, lock_of_free hheld, ok_bind, if_neg (by simp [hopen']), unlock, update_held hheld]

/-- A step without unknown dependents releases what it takes and leaves less to do. -/
theorem advance_spec {rest : List (Task num)} (hheld : ∀ i, s.held i = false)
    (hknown : Known o (task :: rest, s)) :
    ∃ tasks s', advance referencedBy o task s = .ok (tasks, s') ∧ (∀ i, s'.held i = false) ∧
      Smaller (size referencedBy (tasks, s')) (size referencedBy ([task], s)) := by
  have hset : ∀ {i f}, isOpen f = false →
      2 * (opens (s.setFlags i f)).card ≤ 2 * (opens s).card :=
    fun hf => Nat.mul_le_mul_left 2 ((opens_setFlags hf).symm ▸ Finset.card_erase_le)
  cases task with
  | send i =>
    rw [advance]
    cases o.sent with
    | accepted => exact ⟨_, _, rfl, hheld, Or.inl (by simp [size, isSend])⟩
    | refused ended =>
      refine ⟨_, _, rfl, hheld, Or.inl ?_⟩
      simp [size, isSend, Function.comp_def]
  | failed i =>
    rw [advance, locked_of_free (hheld i)]
    refine ⟨_, _, rfl, hheld, Or.inr ⟨?_, by simp [size, weight]⟩⟩
    simpa [size, isSend] using hset (i := i) (f := ⟨true, false⟩) rfl
  | finish i w =>
    have hwritten : written w i s = .ok s := by
      rw [written, locked_of_free (hheld i), id, State.setFlags, Function.update_eq_self, ite_self]
    rw [advance, hwritten, ok_bind, complete, locked_of_free (hheld i)]
    refine ⟨_, _, rfl, hheld, Or.inr ⟨?_, by simp [size, weight]⟩⟩
    simpa [size, isSend] using
      hset (i := i) (f := { s.flags i with done := true }) (by simp [isOpen])
  | unlocked i =>
    refine ⟨_, _, rfl, hheld, Or.inr ?_⟩
    cases o.abort <;> simp [size, isSend, weight]
  | references l =>
    cases l with
    | nil => exact ⟨_, _, rfl, hheld, Or.inr (by simp [size, isSend, weight])⟩
    | cons c l =>
      rw [advance]
      cases hopen : isOpen (s.flags c) with
      | false =>
        rw [reference_of_not_open (hheld c) hopen]
        exact ⟨_, _, rfl, hheld, Or.inr (by simp [size, isSend, weight])⟩
      | true =>
        have hflags : (s.flags c).done = false ∧ (s.flags c).dispatched = false := by
          simpa [isOpen] using hopen
        obtain ⟨doit, hdoit⟩ := hknown c l rest rfl hflags.1 hflags.2
        obtain ⟨task, f, hrun, hf⟩ := reference_of_open (hheld c) hopen hdoit
        have hless := Finset.card_erase_lt_of_mem (s := opens s) (a := c) (by simp [opens, hopen])
        rw [hrun]
        refine ⟨_, _, rfl, hheld, Or.inl ?_⟩
        have hone : [task, .references l].countP isSend ≤ 1 := by
          cases task <;> simp [isSend, List.countP_cons]
        change 2 * (opens (s.setFlags c f)).card + [task, .references l].countP isSend <
          2 * (opens s).card + 0
        rw [opens_setFlags hf]
        omega

/-! ### Runs -/

theorem step_spec {tasks : List (Task num)} (hheld : ∀ i, s.held i = false)
    (hknown : Known o (tasks, s)) (htasks : tasks ≠ []) :
    ∃ c', step referencedBy o (tasks, s) = .ok c' ∧ (∀ i, c'.2.held i = false) ∧
      Smaller (size referencedBy c') (size referencedBy (tasks, s)) := by
  obtain ⟨task, rest, rfl⟩ := List.exists_cons_of_ne_nil htasks
  obtain ⟨tasks, s', hadvance, hfree, hsmaller⟩ := advance_spec hheld hknown
  refine ⟨(tasks ++ rest, s'), by rw [step, hadvance]; rfl, hfree, ?_⟩
  simp only [Smaller, size, List.countP_append, List.countP_cons, List.countP_nil, List.map_append,
    List.map_cons, List.map_nil, List.sum_append, List.sum_cons, List.sum_nil] at hsmaller ⊢
  omega

theorem wellFounded_smaller : WellFounded Smaller := by
  refine Subrelation.wf (fun {p q} h => Prod.lex_def.2 ?_)
    (WellFounded.prod_lex Nat.lt_wfRel.wf Nat.lt_wfRel.wf)
  change p.1 < q.1 ∨ p.1 = q.1 ∧ p.2 < q.2
  rw [Smaller] at h
  omega

theorem run_ends {o : ℕ → Outcome num} {start : Config num}
    (hknown : ∀ n c, run referencedBy o n start = .ok c → Known (o n) c) (c : Config num) (n : ℕ)
    (hrun : run referencedBy o n start = .ok c) (hheld : ∀ i, c.2.held i = false) :
    Balanced referencedBy o start := by
  generalize hp : size referencedBy c = p
  induction p using wellFounded_smaller.induction generalizing c n with
  | _ p ih =>
    obtain ⟨tasks, s⟩ := c
    by_cases htasks : tasks = []
    · subst htasks
      exact ⟨n, s, hrun, hheld⟩
    · obtain ⟨c', hstep, hfree, hsmaller⟩ : ∃ c', step referencedBy (o n) (tasks, s) = .ok c' ∧ _ :=
        step_spec hheld (hknown n _ hrun) htasks
      refine ih _ (hp ▸ hsmaller) c' (n + 1) ?_ hfree rfl
      rw [run, hrun, ok_bind, hstep]

/-- Whatever depends on whatever, the cascade ends and takes and releases each lock in turn, as long
as no dependent that is looked at is unknown or cannot be evaluated. -/
theorem cascade_balanced {o : ℕ → Outcome num} {start : Config num}
    (hheld : ∀ i, start.2.held i = false)
    (hknown : ∀ n c, run referencedBy o n start = .ok c → Known (o n) c) :
    Balanced referencedBy o start :=
  run_ends hknown start 0 rfl hheld

/-- An action that depends on itself. -/
theorem cascade_balanced_self :
    Balanced (fun _ => [0]) (fun _ => ⟨false, false, .ok 1, .refused [(0, true)]⟩)
      (([.finish 0 true], ⟨fun _ => ⟨false, false⟩, fun _ => false⟩) : Config 1) :=
  cascade_balanced (fun _ => rfl) fun _ _ _ _ _ _ _ _ _ => ⟨1, rfl⟩

/-- A dependent that is not known yet: its lock is kept. One that cannot be evaluated: its lock is
taken by the thread that has it. -/
theorem unknown_kept :
    (∃ s, run (fun _ => [1]) (fun _ => ⟨false, false, .unknownVar, .accepted⟩) 4
      (([.finish 0 true], ⟨fun _ => ⟨false, false⟩, fun _ => false⟩) : Config 2) = .ok ([], s) ∧
      s.held 1 = true) ∧
    run (fun _ => [1]) (fun _ => ⟨false, false, .failed, .accepted⟩) 3
      (([.finish 0 true], ⟨fun _ => ⟨false, false⟩, fun _ => false⟩) : Config 2) =
        .error .takenTwice := by
  constructor
  · exact ⟨_, rfl, rfl⟩
  · rfl

end MdsPlus.CascadeLocks
