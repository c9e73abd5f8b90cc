import MdsPlus.DispatchTables
import MdsPlus.Outcome

/-!
A dispatch table that may be disarmed and freed while a phase is being dispatched. The main thread
takes the lock of the table for each of its steps but for the look at the actions that it waits for.
-/

namespace MdsPlus.DisarmedTables

open DispatchTables Outcome

/-- The waits of ServerDispatchPhase: for a group, for all, and for all once more. -/
inductive Wait
  | group (firstG lastG : ℤ)
  | all
  | last
deriving DecidableEq

/-- Where ServerDispatchPhase is. `scan` is a round of check_actions_done, with what is still to look
at; `crashed` is where the table was used though there is none. -/
inductive Place
  | ranges
  | group (firstG : ℤ)
  | dispatching (firstG lastG i : ℤ)
  | waiting (w : Wait)
  | conditionals (w : Wait)
  | scan (w : Wait) (rest : List ℤ)
  | ending
  | aborting
  | marking
  | recording
  | returned
  | crashed
deriving DecidableEq

/-- A use of the table: under its lock or not, and while there is one or not. -/
structure Access where
  locked : Bool
  armed : Bool

/-- The table is there or not; of the actions it matters which are dispatched and not done. -/
structure State where
  armed : Bool
  pending : ℤ → Bool
  abort : Bool
  ranges : Ranges
  place : Place
  accesses : List Access

/-- A step of the main thread, whose wait may end with an error, the completion of an action, the
dispatch of one that its completion causes, or a call that disarms the table and frees it. -/
inductive Step
  | main (failed : Bool)
  | completed (i : ℤ)
  | dispatched (i : ℤ)
  | disarm

inductive Disabled
  | disabled

variable (t : DispatchTable) (phase sync : ℤ)

/-- The table is used under its lock if it is there. -/
def State.use (s : State) : State :=
  if s.armed then { s with accesses := ⟨true, true⟩ :: s.accesses } else s

/-- The table is used whether it is there or not. -/
def State.useAnyway (s : State) (locked : Bool) (place : Place) : State :=
  { s with
    accesses := ⟨locked, s.armed⟩ :: s.accesses
    place := if s.armed then place else .crashed }

def setRanges (s : State) : State :=
  let ranges := if s.armed then setActionRanges t phase else ⟨0, 0, 0, 0⟩
  { s.use with ranges, place := .group ranges.firstS }

/-- set_group; without a table the group ends before it begins. -/
def lastOf (s : State) (firstG : ℤ) : ℤ :=
  if s.armed then setGroup t sync firstG.toNat s.ranges.lastS else firstG - 1

def setPending (s : State) (i : ℤ) (b : Bool) : State :=
  if s.armed then { s.use with pending := Function.update s.pending i b } else s

/-- What is not done of the conditional actions is done with. -/
def markConditionals (s : State) : State :=
  if s.armed then
    { s.use with pending := fun i => s.pending i && !(s.ranges.firstC ≤ i && i < s.ranges.lastC) }
  else s

/-- check_actions_done takes the actions of the table before it looks at those from `first`. -/
def look (s : State) (w : Wait) (first last : ℤ) : State :=
  s.useAnyway false (.scan w ((List.range (last - first).toNat).map fun (j : ℕ) => first + j))

def afterWait : Wait → Place
  | .group _ lastG => .group lastG
  | .all => .marking
  | .last => .recording

def main (failed : Bool) (s : State) : Except Disabled State :=
  match s.place with
  | .ranges => .ok (setRanges t phase s)
  | .group firstG =>
      if !s.abort && firstG < s.ranges.lastS then
        .ok { s.use with place := .dispatching firstG (lastOf t sync s firstG) firstG }
      else .ok { s with place := .ending }
  | .dispatching firstG lastG i =>
      if i < lastG then .ok { setPending s i true with place := .dispatching firstG lastG (i + 1) }
      else .ok { s with place := .waiting (.group firstG lastG) }
  | .waiting w =>
      if s.abort then .ok { s with place := afterWait w }
      else match w with
        | .group firstG lastG => .ok (look s w firstG lastG)
        -- the last group is over, so its range is empty
        | .all | .last => .ok (s.useAnyway false (.conditionals w))
  | .conditionals w => .ok (look s w s.ranges.firstC s.ranges.lastC)
  | .scan w [] => .ok { s with place := afterWait w }
  | .scan w (i :: rest) =>
      let place := if !s.pending i then .scan w rest
        else if failed then afterWait w else .waiting w
      .ok (s.useAnyway false place)
  | .ending =>
      .ok { s with abort := false, place := if s.abort then .aborting else .waiting .all }
  | .aborting => .ok (s.useAnyway true (.waiting .all))
  | .marking => .ok { markConditionals s with abort := true, place := .waiting .last }
  | .recording => .ok { s.use with place := .returned }
  | .returned | .crashed => .error .disabled

def step (s : State) : Step → Except Disabled State
  | .main failed => main t phase sync failed s
  | .completed i => .ok (setPending s i false)
  | .dispatched i => .ok (setPending s i true)
  | .disarm => .ok { s with armed := false }

/-- ServerDispatchPhase has noted the table; without a phase it returns. -/
def start (pending : ℤ → Bool) : State :=
  ⟨true, pending, false, ⟨0, 0, 0, 0⟩, if 0 < phase then .ranges else .returned, [⟨true, true⟩]⟩

/-- The call has returned, and has used the table only under its lock and while it was there. -/
def Kept (s : State) : Prop :=
  s.place = .returned ∧ ∀ a ∈ s.accesses, a.locked = true ∧ a.armed = true

/-! ### Every phase -/

/-- The places that come after a look at the actions. -/
def late : Place → Bool
  | .conditionals _ | .scan _ _ | .waiting .last | .marking | .recording | .returned => true
  | _ => false

def final : Place → Bool
  | .waiting .last | .recording | .returned => true
  | _ => false

/-- Every way to the end leads over a look at the actions: an abort is noticed only after that. -/
structure Inv (s : State) : Prop where
  looked : late s.place → ∃ a ∈ s.accesses, a.locked = false
  abort : s.abort = true → final s.place

variable {t phase sync} {s s' : State} {a : Step}

structure Checked (s : State) (accesses : List Access) : Prop where
  kept : ∀ a ∈ s.accesses, a ∈ accesses
  added : ∀ a ∈ accesses, a ∈ s.accesses ∨ a = ⟨true, true⟩

theorem use_eq (s : State) : ∃ accesses, Checked s accesses ∧ s.use = { s with accesses } := by
  unfold State.use
  split
  · exact ⟨_, ⟨fun a => List.mem_cons_of_mem _, fun a ha => (List.mem_cons.mp ha).symm⟩, rfl⟩
  · exact ⟨_, ⟨fun a ha => ha, fun a => Or.inl⟩, rfl⟩

theorem setPending_eq (s : State) (i : ℤ) (b : Bool) :
    ∃ accesses pending, Checked s accesses ∧
      setPending s i b = { s with accesses, pending } := by
  obtain ⟨accesses, hchecked, huse⟩ := use_eq s
  unfold setPending
  split
  · exact ⟨accesses, _, hchecked, by rw [huse]⟩
  · exact ⟨_, _, ⟨fun a ha => ha, fun a => Or.inl⟩, rfl⟩

theorem Inv.mono (h : Inv s) (haccesses : ∀ a ∈ s.accesses, a ∈ s'.accesses)
    (hlate : late s'.place → late s.place) (habort : s'.abort = true → final s'.place) :
    Inv s' := by
  refine ⟨fun hs => ?_, habort⟩
  obtain ⟨a, ha, hlocked⟩ := h.looked (hlate hs)
  exact ⟨a, haccesses a ha, hlocked⟩

theorem inv_useAnyway {place : Place} (habort : s.abort = false) :
    Inv (s.useAnyway false place) :=
  ⟨fun _ => ⟨_, List.mem_cons_self, rfl⟩, fun h => by cases habort.symm.trans h⟩

theorem Inv.setPending (h : Inv s) (i : ℤ) (b : Bool) : Inv (setPending s i b) := by
  obtain ⟨accesses, pending, hchecked, heq⟩ := setPending_eq s i b
  rw [heq]
  exact h.mono hchecked.kept id h.abort

theorem inv_main {failed : Bool} (h : Inv s) (hstep : main t phase sync failed s = .ok s') :
    Inv s' := by
  obtain ⟨accesses, hchecked, huse⟩ := use_eq s
  obtain ⟨armed, pending, abort, ranges, place, before⟩ := s
  have hquiet (hfinal : final place = false) : abort = false := by
    cases abort with
    | false => rfl
    | true => exact absurd (h.abort rfl) (by simp [hfinal])
  have habort (hfinal : final place = false) {p : Prop} (hb : abort = true) : p := by
    cases (hquiet hfinal).symm.trans hb
  cases place with
  | ranges =>
    simp only [main, setRanges, huse, Except.ok.injEq] at hstep
    subst hstep
    exact h.mono hchecked.kept nofun (habort rfl)
  | group firstG =>
    simp only [main, huse] at hstep
    split at hstep <;> cases hstep
    · exact h.mono hchecked.kept nofun (habort rfl)
    · exact h.mono (fun a ha => ha) nofun (habort rfl)
  | dispatching firstG lastG i =>
    simp only [main] at hstep
    split at hstep <;> cases hstep
    · obtain ⟨accesses, pending, hchecked, heq⟩ := setPending_eq _ i true
      rw [heq]
      exact h.mono hchecked.kept nofun (habort rfl)
    · exact h.mono (fun a ha => ha) nofun (habort rfl)
  | waiting w =>
    simp only [main] at hstep
    split at hstep
    next hb =>
      cases hstep
      have hfinal := h.abort hb
      cases w with
      | last => exact h.mono (fun a ha => ha) (fun _ => rfl) fun _ => rfl
      | _ => cases hfinal
    next hb =>
      cases w <;> cases hstep <;> exact inv_useAnyway (by simpa using hb)
  | conditionals w =>
    cases hstep
    exact inv_useAnyway (hquiet rfl)
  | scan w rest =>
    cases rest with
    | nil =>
      cases hstep
      exact h.mono (fun a ha => ha) (fun _ => rfl) (habort rfl)
    | cons i rest =>
      cases hstep
      exact inv_useAnyway (hquiet rfl)
  | ending =>
    cases hquiet rfl
    cases hstep
    exact h.mono (fun a ha => ha) nofun nofun
  | aborting =>
    cases hstep
    refine h.mono (fun a => List.mem_cons_of_mem _) (fun hlate => ?_) (habort rfl)
    cases armed <;> cases hlate
  | marking =>
    simp only [main, markConditionals, huse, Except.ok.injEq] at hstep
    subst hstep
    refine h.mono (fun a ha => ?_) (fun _ => rfl) fun _ => rfl
    cases armed with
    | false => exact ha
    | true => exact hchecked.kept a ha
  | recording =>
    simp only [main, huse, Except.ok.injEq] at hstep
    subst hstep
    exact h.mono hchecked.kept (fun _ => rfl) fun _ => rfl
  | returned | crashed => cases hstep

theorem inv_step (h : Inv s) (hstep : step t phase sync s a = .ok s') : Inv s' := by
  cases a with
  | main failed => exact inv_main h hstep
  | completed i | dispatched i =>
    cases hstep
    exact h.setPending i _
  | disarm =>
    cases hstep
    exact ⟨h.looked, h.abort⟩

theorem kept_step (h : Kept s) (hstep : step t phase sync s a = .ok s') : Kept s' := by
  obtain ⟨hplace, hall⟩ := h
  cases a with
  | main failed => simp [step, main, hplace] at hstep
  | completed i | dispatched i =>
    simp only [step, Except.ok.injEq] at hstep
    obtain ⟨accesses, pending, hchecked, heq⟩ := setPending_eq s i _
    rw [← hstep, heq]
    refine ⟨hplace, fun a ha => ?_⟩
    rcases hchecked.added a ha with ha | rfl
    · exact hall a ha
    · exact ⟨rfl, rfl⟩
  | disarm =>
    cases hstep
    exact ⟨hplace, hall⟩

theorem admissible (s : State) (steps : List Step) :
    Admissible (step t phase sync) (fun _ _ => True) s steps := by
  induction steps generalizing s with
  | nil => trivial
  | cons a steps ih => exact ⟨trivial, fun s' _ => ih s'⟩

theorem kept_iff (t : DispatchTable) (phase sync : ℤ) (pending : ℤ → Bool) (steps : List Step)
    (s : State) (hrun : run (step t phase sync) (start phase pending) steps = .ok s) :
    Kept s ↔ ¬ 0 < phase := by
  have hinit : ∀ a ∈ (start phase pending).accesses, a.locked = true ∧ a.armed = true := by
    simp [start]
  constructor
  · rintro ⟨hplace, hall⟩ hphase
    have hstart : Inv (start phase pending) := by
      rw [start, if_pos hphase]
      exact ⟨nofun, nofun⟩
    have hinv := run_preserves (fun _ _ _ h _ => inv_step h) _ steps s hstart (admissible ..) hrun
    obtain ⟨a, ha, hlocked⟩ := hinv.looked (by rw [hplace]; rfl)
    cases hlocked.symm.trans (hall a ha).1
  · intro hphase
    have hstart : Kept (start phase pending) := ⟨by rw [start, if_neg hphase], hinit⟩
    exact run_preserves (fun _ _ _ h _ => kept_step h) _ steps s hstart (admissible ..) hrun

def single : DispatchTable where
  num := 1
  actions i := ⟨i, 1, 1, true, none, []⟩
  on _ _ := rfl
  sorted _ _ _ _ := by simp [compareActions]
  conditional _ h := by cases h
  sequential _ _ _ _ := Int.one_pos
  referenced _ _ h := by cases h
  nids _ _ h := h

def next : Step := .main false

/-- The call waits until the action has completed. -/
theorem kept_iff_single :
    ∃ s, run (step single 1 1) (start 1 fun _ => false)
        (List.replicate 4 next ++ .completed 0 :: List.replicate 11 next) = .ok s ∧
      s.place = .returned ∧ (Kept s ↔ ¬ (0 : ℤ) < 1) :=
  ⟨_, rfl, rfl, kept_iff single 1 1 (fun _ => false)
    (List.replicate 4 next ++ .completed 0 :: List.replicate 11 next) _ rfl⟩

/-- The table goes while the action is waited for. -/
theorem disarmed_crash :
    ¬ ∀ (t : DispatchTable) (phase sync : ℤ) (pending : ℤ → Bool) (steps : List Step) (s : State),
      run (step t phase sync) (start phase pending) steps = .ok s →
        s.place ≠ .crashed ∧ ∀ a ∈ s.accesses, a.locked = true ∧ a.armed = true := fun h =>
  (h single 1 1 (fun _ => false) (List.replicate 4 next ++ [.disarm, next]) _ rfl).1 rfl

end MdsPlus.DisarmedTables
