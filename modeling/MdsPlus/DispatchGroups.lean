import MdsPlus.DispatchOrder
import Mathlib.Data.List.Sort

/-!
The runs of a phase, by where the main thread is in it: what it has dispatched, which groups are done,
and which conditional actions have been marked.
-/

namespace MdsPlus.DispatchGroups

open DispatchTables DispatchPhase DispatchOrder

variable {t : DispatchTable}

/-! ### Where the main thread is -/

/-- The sequential actions up to an index have been dispatched in this phase. -/
def Sent (t : DispatchTable) (s : State) (n : ℕ) : Prop :=
  dispatchedSince t s.shared.log = (between (s.ranges t).firstS n).reverse

/-- None of these is on its way. -/
def Quiet (t : DispatchTable) (s : State) (n : ℕ) : Prop :=
  ∀ j, (s.ranges t).firstS ≤ j → j < n → pending s.shared j = false

/-- Conditional actions up to an index are done, and the receiver will not dispatch them. -/
def Marked (t : DispatchTable) (s : State) (n : ℕ) : Prop :=
  ∀ c, (s.ranges t).firstC ≤ c → c < n →
    (s.shared.flags c).done = true ∧ Task.dispatch c ∉ s.receiver

/-- A group of the phase, with those before it done. -/
structure Stage (t : DispatchTable) (s : State) (firstG lastG : ℕ) : Prop where
  first : (s.ranges t).firstS ≤ firstG
  last : lastG ≤ (s.ranges t).lastS
  same : ∀ k, firstG ≤ k → k < lastG → group t s.sync k = group t s.sync firstG
  quiet : Quiet t s firstG

def Position (t : DispatchTable) (s : State) : Prop :=
  match s.place with
  | .idle => Sent t s (s.ranges t).firstS
  | .group g => (s.ranges t).firstS ≤ g ∧ g ≤ (s.ranges t).lastS ∧ Quiet t s g ∧ Sent t s g
  | .range f l i => Stage t s f l ∧ f ≤ i ∧ i ≤ l ∧
      ((∃ k, i = k + 1 ∧ f ≤ k ∧ s.main = [.dispatch k] ∧ Sent t s k) ∨
        (∀ task ∈ s.main, Sound t task) ∧ Sent t s i)
  | .wait f l => Stage t s f l ∧ f ≤ l ∧ Sent t s l
  | .scan f l rest => Stage t s f l ∧ f ≤ l ∧ Sent t s l ∧
      ∀ j, f ≤ j → j < l → j ∉ rest → pending s.shared j = false
  | .ending | .waitAll | .scanAll _ | .marking => Sent t s (s.ranges t).lastS
  | .mark i => Sent t s (s.ranges t).lastS ∧ Marked t s i
  | .returned => Sent t s (s.ranges t).lastS ∧ Marked t s (s.ranges t).lastC

/-- The places at which no abort is in progress. -/
def Place.isOn : Place → Bool
  | .group _ | .range .. | .wait .. | .scan .. | .ending | .waitAll | .scanAll _ => true
  | _ => false

structure Ordered (t : DispatchTable) (s : State) : Prop where
  receiver : ∀ task ∈ s.receiver, Sound t task
  busy : s.main ≠ [] → ∃ f l i, s.place = .range f l i
  abort : Place.isOn s.place = true → s.shared.abort = false
  position : s.phase < misplaced → Position t s

/-! ### Steps of the threads -/

variable {s : State} {shared : Shared} {receiver : List Task} {n : ℕ}

theorem sequential_of_range (hphase : s.phase < misplaced) {j : ℕ}
    (h : (s.ranges t).firstS ≤ j) (h' : j < (s.ranges t).lastS) :
    (t.actions j).isConditional = false :=
  ((ranges_spec hphase j).2.mp ⟨h, h'⟩).2.2

theorem Quiet.mono (h : Quiet t s n) (hphase : s.phase < misplaced)
    (hn : n ≤ (s.ranges t).lastS) (hmild : Mild t s.shared shared) :
    Quiet t { s with shared, receiver } n := by
  intro j hj hjn
  apply eq_false_of_ne_true
  intro hpending
  have hold := hmild.pending j (sequential_of_range hphase hj (Nat.lt_of_lt_of_le hjn hn)) hpending
  rw [h j hj hjn] at hold
  cases hold

theorem Sent.mono (h : Sent t s n) (hmild : Mild t s.shared shared) :
    Sent t { s with shared, receiver } n :=
  hmild.since.trans h

theorem Stage.mono {f l : ℕ} (h : Stage t s f l) (hfl : f ≤ l) (hphase : s.phase < misplaced)
    (hmild : Mild t s.shared shared) : Stage t { s with shared, receiver } f l :=
  ⟨h.first, h.last, h.same, h.quiet.mono hphase (Nat.le_trans hfl h.last) hmild⟩

theorem Position.mono (h : Position t s) (hphase : s.phase < misplaced)
    (hmild : Mild t s.shared shared)
    (hmarked : s.main = [] → ∀ n, Marked t s n → Marked t { s with shared, receiver } n)
    (hbusy : s.main ≠ [] → ∃ f l i, s.place = .range f l i) :
    Position t { s with shared, receiver } := by
  have hmain : (∀ f l i, s.place ≠ .range f l i) → s.main = [] := by
    intro hne
    by_contra hcon
    obtain ⟨f, l, i, heq⟩ := hbusy hcon
    exact hne f l i heq
  unfold Position at h ⊢
  dsimp only
  split
  · next heq =>
    rw [heq] at h
    exact h.mono hmild
  · next g heq =>
    rw [heq] at h
    obtain ⟨hfirst, hlast, hquiet, hsent⟩ := h
    exact ⟨hfirst, hlast, hquiet.mono hphase hlast hmild, hsent.mono hmild⟩
  · next f l i heq =>
    rw [heq] at h
    obtain ⟨hstage, hfi, hil, hmain⟩ := h
    refine ⟨hstage.mono (Nat.le_trans hfi hil) hphase hmild, hfi, hil, ?_⟩
    obtain ⟨k, hk, hfk, hmain, hsent⟩ | ⟨hsound, hsent⟩ := hmain
    · exact Or.inl ⟨k, hk, hfk, hmain, hsent.mono hmild⟩
    · exact Or.inr ⟨hsound, hsent.mono hmild⟩
  · next f l heq =>
    rw [heq] at h
    obtain ⟨hstage, hfl, hsent⟩ := h
    exact ⟨hstage.mono hfl hphase hmild, hfl, hsent.mono hmild⟩
  · next f l rest heq =>
    rw [heq] at h
    obtain ⟨hstage, hfl, hsent, hscanned⟩ := h
    refine ⟨hstage.mono hfl hphase hmild, hfl, hsent.mono hmild, ?_⟩
    intro j hfj hjl hrest
    apply eq_false_of_ne_true
    intro hpending
    have hcond := sequential_of_range hphase (Nat.le_trans hstage.first hfj)
      (Nat.lt_of_lt_of_le hjl hstage.last)
    have hold := hmild.pending j hcond hpending
    rw [hscanned j hfj hjl hrest] at hold
    cases hold
  · next heq =>
    rw [heq] at h
    exact h.mono hmild
  · next heq =>
    rw [heq] at h
    exact h.mono hmild
  · next heq =>
    rw [heq] at h
    exact h.mono hmild
  · next heq =>
    rw [heq] at h
    exact h.mono hmild
  · next i heq =>
    rw [heq] at h
    exact ⟨h.1.mono hmild, hmarked (hmain fun f l k => by simp only [heq, ne_eq, reduceCtorEq,
      not_false_eq_true]) i h.2⟩
  · next heq =>
    rw [heq] at h
    exact ⟨h.1.mono hmild, hmarked (hmain fun f l k => by simp only [heq, ne_eq, reduceCtorEq,
      not_false_eq_true]) _ h.2⟩

theorem advanceFirst_cases {o : Outcome} {tasks tasks' : List Task} {sh sh' : Shared}
    (h : advanceFirst t o tasks sh = some (tasks', sh')) :
    ∃ task rest new, tasks = task :: rest ∧ advance t o task sh = some (new, sh') ∧
      tasks' = new ++ rest := by
  cases tasks with
  | nil => cases h
  | cons task rest =>
    obtain ⟨⟨new, sh''⟩, hadvance, heq⟩ := Option.map_eq_some_iff.mp h
    cases heq
    exact ⟨task, rest, new, rfl, hadvance, rfl⟩

theorem advance_done {o : Outcome} {task : Task} {new : List Task} {sh sh' : Shared} {c : ℕ}
    (h : advance t o task sh = some (new, sh')) (hne : task ≠ .dispatch c)
    (hdone : (sh.flags c).done = true) : (sh'.flags c).done = true := by
  by_cases hdispatch : ∃ i, task = .dispatch i
  · obtain ⟨i, rfl⟩ := hdispatch
    obtain ⟨-, rfl⟩ := advance_dispatch h
    have hci : c ≠ i := by
      intro heq
      exact hne (by rw [heq])
    rw [dispatch_other t sh hci]
    exact hdone
  · exact (advance_settles h fun i hi => hdispatch ⟨i, hi⟩).done c hdone

theorem advance_sound {o : Outcome} {task : Task} {new : List Task} {sh sh' : Shared}
    (h : advance t o task sh = some (new, sh')) (hsound : Sound t task) :
    ∀ u ∈ new, Follows t sh u := by
  intro u hu
  apply advance_follows h _ hu
  intro i rest heq
  rw [heq] at hsound
  exact hsound

theorem Ordered.receiver_step (h : Ordered t s) {o : Outcome}
    (hstep : advanceFirst t o s.receiver s.shared = some (receiver, shared)) :
    Ordered t { s with shared, receiver } := by
  obtain ⟨task, rest, new, htasks, hadvance, rfl⟩ := advanceFirst_cases hstep
  have hin : ∀ u ∈ task :: rest, Sound t u := by
    rw [← htasks]
    exact h.receiver
  have hsound := hin task List.mem_cons_self
  have hmild := advance_mild hadvance hsound
  have hnew := advance_sound hadvance hsound
  refine ⟨?_, h.busy, fun hon => hmild.abort.trans (h.abort hon), fun hphase => ?_⟩
  · intro u hu
    obtain hu | hu := List.mem_append.mp hu
    · exact (hnew u hu).1
    · exact hin u (List.mem_cons_of_mem task hu)
  · refine (h.position hphase).mono hphase hmild (fun _ n hmarked c hc hcn => ?_) h.busy
    obtain ⟨hdone, hnot⟩ := hmarked c hc hcn
    rw [htasks, List.mem_cons, not_or] at hnot
    refine ⟨advance_done hadvance (Ne.symm hnot.1) hdone, ?_⟩
    intro hmem
    obtain hmem | hmem := List.mem_append.mp hmem
    · have hfree := (hnew _ hmem).2 c rfl
      rw [hdone] at hfree
      cases hfree
    · exact hnot.2 hmem

theorem Ordered.receiver_start (h : Ordered t s) {tasks : List Task}
    (hsettles : Settles t s.shared shared)
    (hsound : ∀ task ∈ tasks, Sound t task ∧ ∀ c, task ≠ .dispatch c) :
    Ordered t { s with shared, receiver := tasks } := by
  refine ⟨fun task htask => (hsound task htask).1, h.busy,
    fun hon => hsettles.abort.trans (h.abort hon), fun hphase => ?_⟩
  refine (h.position hphase).mono hphase hsettles.mild (fun _ n hmarked c hc hcn => ?_) h.busy
  refine ⟨hsettles.done c (hmarked c hc hcn).1, fun hmem => ?_⟩
  exact (hsound _ hmem).2 c rfl

/-! ### Steps of the main thread -/

theorem Ordered.main_step (h : Ordered t s) {o : Outcome} {main : List Task}
    (hstep : advanceFirst t o s.main s.shared = some (main, shared)) :
    Ordered t { s with shared, main } := by
  obtain ⟨task, rest, new, htasks, hadvance, rfl⟩ := advanceFirst_cases hstep
  obtain ⟨f, l, i, hplace⟩ := h.busy (by
    rw [htasks]
    exact List.cons_ne_nil _ _)
  have habort : shared.abort = s.shared.abort := by
    by_cases hdispatch : ∃ i, task = .dispatch i
    · obtain ⟨i, rfl⟩ := hdispatch
      obtain ⟨-, rfl⟩ := advance_dispatch hadvance
      exact dispatch_abort t s.shared i
    · exact (advance_settles hadvance fun i hi => hdispatch ⟨i, hi⟩).abort
  refine ⟨h.receiver, fun _ => ⟨f, l, i, hplace⟩, fun hon => habort.trans (h.abort hon),
    fun hphase => ?_⟩
  have hposition := h.position hphase
  unfold Position at hposition ⊢
  dsimp only
  rw [hplace] at hposition ⊢
  dsimp only at hposition ⊢
  obtain ⟨hstage, hfi, hil, hmain⟩ := hposition
  rw [htasks] at hmain
  obtain ⟨k, rfl, hfk, hmain, hsent⟩ | ⟨hsound, hsent⟩ := hmain
  · -- the dispatch of the next sequential action
    obtain ⟨rfl, rfl⟩ := List.cons.inj hmain
    have hlk : k < (s.ranges t).lastS := Nat.lt_of_lt_of_le hil hstage.last
    have hfirst := Nat.le_trans hstage.first hfk
    have hcond := sequential_of_range hphase hfirst hlk
    have hnew : ∀ u ∈ new ++ [], Sound t u := by
      intro u hu
      rw [List.append_nil] at hu
      exact (advance_follows hadvance nofun hu).1
    obtain ⟨-, rfl⟩ := advance_dispatch hadvance
    refine ⟨⟨hstage.first, hstage.last, hstage.same, ?_⟩, hfi, hil, Or.inr ⟨hnew, ?_⟩⟩
    · intro j hj hjf
      have hjk : j ≠ k := by omega
      unfold pending
      dsimp only
      rw [dispatch_other t s.shared hjk]
      exact hstage.quiet j hj hjf
    · unfold Sent at hsent ⊢
      dsimp only
      rw [dispatch_since, if_neg (by rw [hcond]; exact Bool.false_ne_true), hsent]
      unfold between
      have hlen : k + 1 - (s.ranges t).firstS = k - (s.ranges t).firstS + 1 := by omega
      have hlast : (s.ranges t).firstS + (k - (s.ranges t).firstS) = k := by omega
      change _ = (List.range' (s.ranges t).firstS (k + 1 - (s.ranges t).firstS)).reverse
      rw [hlen, List.range'_1_concat, hlast, List.reverse_append]
      rfl
  · have htask := hsound task List.mem_cons_self
    have hmild := advance_mild hadvance htask
    have hquiet : Quiet t { s with shared, receiver := s.receiver } f :=
      hstage.quiet.mono hphase (Nat.le_trans (Nat.le_trans hfi hil) hstage.last) hmild
    refine ⟨⟨hstage.first, hstage.last, hstage.same, hquiet⟩, hfi, hil,
      Or.inr ⟨?_, hmild.since.trans hsent⟩⟩
    intro u hu
    obtain hu | hu := List.mem_append.mp hu
    · exact (advance_sound hadvance htask u hu).1
    · exact hsound u (List.mem_cons_of_mem task hu)

theorem sequentialRange_le (t : DispatchTable) (phase : ℤ) (i : ℕ) :
    (sequentialRange t phase i).1 ≤ (sequentialRange t phase i).2 := by
  unfold sequentialRange
  split
  · next h =>
    obtain ⟨hle, -, -, -⟩ := findNextAction_spec (show i + 1 ≤ t.num from h.1)
      fun i => (t.actions i).phase ≠ phase
    exact Nat.le_of_succ_le hle
  · exact Nat.le_refl _

theorem ranges_le (t : DispatchTable) (phase : ℤ) :
    (setActionRanges t phase).firstS ≤ (setActionRanges t phase).lastS := by
  unfold setActionRanges
  dsimp only
  split
  · split
    · exact sequentialRange_le t phase _
    · exact sequentialRange_le t phase _
  · exact Nat.le_refl _

theorem mem_between {first last j : ℕ} : j ∈ between first last ↔ first ≤ j ∧ j < last := by
  unfold between
  rw [List.mem_range'_1]
  omega

theorem Ordered.start_step (h : Ordered t s) {phase : ℤ} {noact : Bool} {sync : ℤ} {s' : State}
    (hstep : start t s phase noact sync = some s') : Ordered t s' := by
  unfold start at hstep
  split at hstep
  · next hready =>
    have hmain : s.main = [] := by
      by_contra hne
      obtain ⟨f, l, i, hplace⟩ := h.busy hne
      simp only [hplace, reduceCtorEq, or_self, false_and] at hready
    dsimp only at hstep
    split at hstep
    · cases hstep
      refine ⟨h.receiver, fun hne => absurd hmain hne, fun _ => rfl, fun hphase => ?_⟩
      refine ⟨Nat.le_refl _, ranges_le t phase, fun j hj hlt => by
        change (setActionRanges t phase).firstS ≤ j at hj
        omega, ?_⟩
      unfold Sent between
      dsimp only
      change [] = (List.range' (setActionRanges t phase).firstS
        ((setActionRanges t phase).firstS - (setActionRanges t phase).firstS)).reverse
      rw [Nat.sub_self]
      rfl
    · cases hstep
      refine ⟨h.receiver, h.busy, fun _ => rfl, fun hphase => ?_⟩
      have hposition := h.position hphase
      obtain hplace | hplace := hready.1
      · unfold Position at hposition ⊢
        dsimp only
        rw [hplace] at hposition ⊢
        exact hposition
      · unfold Position at hposition ⊢
        dsimp only
        rw [hplace] at hposition ⊢
        exact hposition
  · cases hstep

/-! ### Runs -/

def Settled (t : DispatchTable) (s : State) : Move → Prop
  | .main _ => ∀ i, s.place = .mark i → i < (s.ranges t).lastC → Task.dispatch i ∉ s.receiver
  | _ => True

theorem Ordered.proceed (h : Ordered t s) (hmain : s.main = [])
    (hsettled : ∀ i, s.place = .mark i → i < (s.ranges t).lastC → Task.dispatch i ∉ s.receiver)
    {s' : State} (hstep : DispatchPhase.proceed t s = some s') : Ordered t s' := by
  have hidle : ∀ P : Prop, s.main ≠ [] → P := fun P hne => absurd hmain hne
  have hposition := h.position
  unfold Position at hposition
  unfold DispatchPhase.proceed at hstep
  split at hstep
  · cases hstep
  · cases hstep
  · next g hplace =>
    have habort := h.abort (by rw [hplace]; rfl)
    split at hstep
    · next hgo =>
      cases hstep
      refine ⟨h.receiver, hidle _, fun _ => habort, fun hphase => ?_⟩
      rw [hplace] at hposition
      obtain ⟨hfirst, hlast, hquiet, hsent⟩ := hposition hphase
      simp only [Bool.and_eq_true, decide_eq_true_eq] at hgo
      obtain ⟨hlt, hle, hsame⟩ := setGroup_spec (t := t) s.sync hgo.2
      refine ⟨⟨hfirst, hle, hsame, hquiet⟩, Nat.le_refl _, Nat.le_of_lt hlt, Or.inr ⟨?_, hsent⟩⟩
      intro task htask
      simp only [hmain, List.not_mem_nil] at htask
    · next hgo =>
      cases hstep
      refine ⟨h.receiver, hidle _, fun _ => habort, fun hphase => ?_⟩
      rw [hplace] at hposition
      obtain ⟨hfirst, hlast, hquiet, hsent⟩ := hposition hphase
      simp only [habort, Bool.not_false, Bool.true_and, decide_eq_true_eq, not_lt] at hgo
      obtain rfl := Nat.le_antisymm hlast hgo
      exact hsent
  · next f l i hplace =>
    have habort := h.abort (by rw [hplace]; rfl)
    split at hstep
    · next hil =>
      cases hstep
      refine ⟨h.receiver, fun _ => ⟨f, l, i + 1, rfl⟩, fun _ => habort, fun hphase => ?_⟩
      rw [hplace] at hposition
      obtain ⟨hstage, hfi, -, hsent⟩ := hposition hphase
      obtain ⟨k, -, -, hcon, -⟩ | ⟨-, hsent⟩ := hsent
      · rw [hmain] at hcon
        cases hcon
      · exact ⟨⟨hstage.first, hstage.last, hstage.same, hstage.quiet⟩, Nat.le_succ_of_le hfi, hil,
          Or.inl ⟨i, rfl, hfi, rfl, hsent⟩⟩
    · next hil =>
      cases hstep
      refine ⟨h.receiver, hidle _, fun _ => habort, fun hphase => ?_⟩
      rw [hplace] at hposition
      obtain ⟨hstage, hfi, hle, hsent⟩ := hposition hphase
      obtain rfl := Nat.le_antisymm hle (Nat.le_of_not_lt hil)
      obtain ⟨k, -, -, hcon, -⟩ | ⟨-, hsent⟩ := hsent
      · rw [hmain] at hcon
        cases hcon
      · exact ⟨⟨hstage.first, hstage.last, hstage.same, hstage.quiet⟩, hfi, hsent⟩
  · next f l hplace =>
    have habort := h.abort (by rw [hplace]; rfl)
    cases hstep
    rw [habort, if_neg Bool.false_ne_true]
    refine ⟨h.receiver, hidle _, fun _ => habort, fun hphase => ?_⟩
    rw [hplace] at hposition
    obtain ⟨hstage, hfl, hsent⟩ := hposition hphase
    refine ⟨⟨hstage.first, hstage.last, hstage.same, hstage.quiet⟩, hfl, hsent, ?_⟩
    intro j hfj hjl hrest
    exact absurd (mem_between.mpr ⟨hfj, hjl⟩) hrest
  · next f l hplace =>
    have habort := h.abort (by rw [hplace]; rfl)
    cases hstep
    refine ⟨h.receiver, hidle _, fun _ => habort, fun hphase => ?_⟩
    rw [hplace] at hposition
    obtain ⟨hstage, hfl, hsent, hscanned⟩ := hposition hphase
    refine ⟨Nat.le_trans hstage.first hfl, hstage.last, ?_, hsent⟩
    intro j hj hjl
    obtain hjf | hfj := Nat.lt_or_ge j f
    · exact hstage.quiet j hj hjf
    · exact hscanned j hfj hjl List.not_mem_nil
  · next f l i rest hplace =>
    have habort := h.abort (by rw [hplace]; rfl)
    cases hstep
    refine ⟨h.receiver, hidle _, fun _ => habort, fun hphase => ?_⟩
    have hposition := h.position hphase
    unfold Position at hposition ⊢
    rw [hplace] at hposition
    obtain ⟨hstage, hfl, hsent, hscanned⟩ := hposition
    dsimp only
    cases hpending : pending s.shared i with
    | true =>
      rw [if_pos rfl]
      exact ⟨⟨hstage.first, hstage.last, hstage.same, hstage.quiet⟩, hfl, hsent⟩
    | false =>
      rw [if_neg Bool.false_ne_true]
      refine ⟨⟨hstage.first, hstage.last, hstage.same, hstage.quiet⟩, hfl, hsent, ?_⟩
      intro j hfj hjl hrest
      by_cases hji : j = i
      · rw [hji]
        exact hpending
      · exact hscanned j hfj hjl fun hmem => (List.mem_cons.mp hmem).elim hji hrest
  · next hplace =>
    cases hstep
    refine ⟨h.receiver, hidle _, fun _ => rfl, fun hphase => ?_⟩
    rw [hplace] at hposition
    exact hposition hphase
  · next hplace =>
    have habort := h.abort (by rw [hplace]; rfl)
    cases hstep
    rw [habort, if_neg Bool.false_ne_true]
    refine ⟨h.receiver, hidle _, fun _ => habort, fun hphase => ?_⟩
    rw [hplace] at hposition
    exact hposition hphase
  · next hplace =>
    cases hstep
    refine ⟨h.receiver, hidle _, nofun, fun hphase => ?_⟩
    rw [hplace] at hposition
    exact hposition hphase
  · next i rest hplace =>
    have habort := h.abort (by rw [hplace]; rfl)
    cases hstep
    refine ⟨h.receiver, hidle _, fun _ => habort, fun hphase => ?_⟩
    have hposition := h.position hphase
    unfold Position at hposition ⊢
    rw [hplace] at hposition
    cases hpending : pending s.shared i with
    | true => exact hposition
    | false => exact hposition
  · next hplace =>
    cases hstep
    refine ⟨h.receiver, hidle _, nofun, fun hphase => ?_⟩
    have hposition := hposition hphase
    rw [hplace] at hposition
    refine ⟨hposition, fun c hc hlt => ?_⟩
    change (setActionRanges t s.phase).firstC ≤ c at hc
    exact absurd hlt (Nat.not_lt_of_le hc)
  · next i hplace =>
    split at hstep
    · next hlt =>
      cases hstep
      refine ⟨h.receiver, hidle _, nofun, fun hphase => ?_⟩
      rw [hplace] at hposition
      obtain ⟨hsent, hmarked⟩ := hposition hphase
      have hnot := hsettled i hplace hlt
      have hsettles : Settles t s.shared (if (s.shared.flags i).done then s.shared
          else complete t (s.shared.setStatus i cantHappen) i) := by
        split
        · exact Settles.refl t s.shared
        · exact (setStatus_settles t s.shared i cantHappen).trans (complete_settles t _ i)
      refine ⟨hsettles.since.trans hsent, fun c hc hlt => ?_⟩
      obtain hci | rfl := Nat.lt_succ_iff_lt_or_eq.mp hlt
      · obtain ⟨hdone, hnot⟩ := hmarked c hc hci
        exact ⟨hsettles.done c hdone, hnot⟩
      · refine ⟨?_, hnot⟩
        dsimp only
        split
        · next hdone => exact hdone
        · exact complete_done t _ c
    · next hge =>
      cases hstep
      refine ⟨h.receiver, hidle _, nofun, fun hphase => ?_⟩
      have hposition := hposition hphase
      rw [hplace] at hposition
      refine ⟨hposition.1, fun c hc hlt => hposition.2 c hc ?_⟩
      exact Nat.lt_of_lt_of_le hlt (Nat.le_of_not_lt hge)

theorem Ordered.step (h : Ordered t s) {move : Move} (hsettled : Settled t s move) {s' : State}
    (hstep : step t s move = some s') : Ordered t s' := by
  cases move with
  | start phase noact sync => exact h.start_step hstep
  | main o =>
    unfold DispatchPhase.step at hstep
    dsimp only at hstep
    split at hstep
    · next hmain => exact h.proceed hmain hsettled hstep
    · obtain ⟨⟨main, shared⟩, hadvance, rfl⟩ := Option.map_eq_some_iff.mp hstep
      exact h.main_step hadvance
  | receiver o =>
    obtain ⟨⟨receiver, shared⟩, hadvance, rfl⟩ := Option.map_eq_some_iff.mp hstep
    exact h.receiver_step hadvance
  | finished jobid status =>
    unfold DispatchPhase.step at hstep
    dsimp only at hstep
    split at hstep
    · cases hstep
      apply h.receiver_start (Settles.refl t s.shared)
      intro task htask
      split at htask
      · obtain rfl := List.mem_singleton.mp htask
        exact ⟨trivial, (by rintro _ ⟨⟩)⟩
      · cases htask
    · cases hstep
  | starting jobid =>
    unfold DispatchPhase.step starting at hstep
    dsimp only at hstep
    split at hstep
    · next hidle =>
      cases hstep
      have hnone : ∀ task ∈ s.receiver, Sound t task ∧ ∀ c, task ≠ .dispatch c := by
        intro task htask
        rw [hidle] at htask
        cases htask
      refine h.receiver_start ?_ hnone
      split
      · exact setFlags_settles t s.shared (fun h => h) fun h => h
      · exact Settles.refl t s.shared
    · cases hstep
  | disconnected conid =>
    unfold DispatchPhase.step at hstep
    dsimp only at hstep
    split at hstep
    · cases hstep
      apply h.receiver_start (Settles.refl t s.shared)
      intro task htask
      obtain rfl := List.mem_singleton.mp htask
      exact ⟨trivial, (by rintro _ ⟨⟩)⟩
    · cases hstep

theorem ordered_built (t : DispatchTable) : Ordered t built := by
  refine ⟨nofun, fun hne => absurd rfl hne, nofun, fun _ => ?_⟩
  change [] = (List.range' (setActionRanges t 0).firstS
    ((setActionRanges t 0).firstS - (setActionRanges t 0).firstS)).reverse
  rw [Nat.sub_self]
  rfl

theorem ordered_of_reached (h : Reached t (Settled t) s) : Ordered t s := by
  induction h with
  | built => exact ordered_built t
  | step _ hsettled hstep ih => exact ih.step hsettled hstep

def sequentialActions (t : DispatchTable) (phase : ℤ) : List ℕ :=
  (List.range t.num).filter fun i =>
    (t.actions i).phase = phase && !(t.actions i).isConditional

theorem mem_sequentialActions {phase : ℤ} {i : ℕ} : i ∈ sequentialActions t phase ↔
    i < t.num ∧ (t.actions i).phase = phase ∧ (t.actions i).isConditional = false := by
  unfold sequentialActions
  simp only [List.mem_filter, List.mem_range, Bool.and_eq_true, decide_eq_true_eq,
    Bool.not_eq_eq_eq_not, Bool.not_true]

theorem between_eq (phase : ℤ) (hphase : phase < misplaced) :
    between (setActionRanges t phase).firstS (setActionRanges t phase).lastS =
      sequentialActions t phase := by
  apply List.SortedLT.eq_of_mem_iff
  · exact (List.pairwise_lt_range').sortedLT
  · exact ((List.pairwise_lt_range).filter _).sortedLT
  · intro i
    rw [mem_between, mem_sequentialActions]
    exact (ranges_spec hphase i).2

theorem between_prefix {first n last : ℕ} (h : n ≤ last) :
    between first n <+: between first last := by
  unfold between
  have hsum : last - first = n - first + (last - first - (n - first)) := by omega
  rw [hsum, ← List.range'_append_1]
  exact List.prefix_append _ _

theorem Position.sent (h : Position t s) : ∃ n, n ≤ (s.ranges t).lastS ∧ Sent t s n := by
  unfold Position at h
  split at h
  · exact ⟨_, ranges_le t s.phase, h⟩
  · next g _ => exact ⟨g, h.2.1, h.2.2.2⟩
  · next f l i _ =>
    obtain ⟨hstage, -, hil, hsent⟩ := h
    have hi := Nat.le_trans hil hstage.last
    obtain ⟨k, rfl, -, -, hsent⟩ | ⟨-, hsent⟩ := hsent
    · exact ⟨k, Nat.le_of_succ_le hi, hsent⟩
    · exact ⟨i, hi, hsent⟩
  · next f l _ => exact ⟨l, h.1.last, h.2.2⟩
  · next f l rest _ => exact ⟨l, h.1.last, h.2.2.1⟩
  · exact ⟨_, Nat.le_refl _, h⟩
  · exact ⟨_, Nat.le_refl _, h⟩
  · exact ⟨_, Nat.le_refl _, h⟩
  · exact ⟨_, Nat.le_refl _, h⟩
  · exact ⟨_, Nat.le_refl _, h.1⟩
  · exact ⟨_, Nat.le_refl _, h.1⟩

theorem Stage.earlier {f l i j : ℕ} (h : Stage t s f l) (hphase : s.phase < misplaced)
    (hfi : f ≤ i) (hil : i < l) (hj : j < t.num) (hpj : (t.actions j).phase = s.phase)
    (hlt : group t s.sync j < group t s.sync i) : j < f := by
  apply Nat.lt_of_not_le
  intro hfj
  have hfl : f < l := Nat.lt_of_le_of_lt hfi hil
  obtain ⟨hf, hpf, hcf⟩ := (ranges_spec hphase f).2.mp ⟨h.first, Nat.lt_of_lt_of_le hfl h.last⟩
  have hseq := sequence_mono hfj hj (hpf.trans hpj.symm)
  have hpos := t.sequential f hf hcf (by
    rw [hpf]
    exact hphase)
  have hgroup := group_mono s.sync hseq (Int.le_of_lt hpos)
  rw [← h.same i hfi hil] at hgroup
  exact absurd hlt (Int.not_lt.mpr hgroup)

/-- When a sequential action is dispatched, those of earlier groups that were dispatched are done. They
are dispatched once each, by their places in the table and so by sequence, and when the phase returns
all of them were, and all conditional actions are done. -/
theorem phase_ordered (h : Reached t (Settled t) s) (hphase : s.phase < misplaced) :
    (∀ i rest, (s.main = .dispatch i :: rest ∨ s.receiver = .dispatch i :: rest) →
      (t.actions i).isConditional = false → ∀ j ∈ sequentialActions t s.phase,
        group t s.sync j < group t s.sync i → (s.shared.flags j).dispatched = true →
          (s.shared.flags j).done = true) ∧
    (dispatchedSince t s.shared.log).reverse <+: sequentialActions t s.phase ∧
    (sequentialActions t s.phase).Pairwise (fun i j =>
      i < j ∧ (t.actions i).sequence ≤ (t.actions j).sequence) ∧
    (s.place = .returned →
      (dispatchedSince t s.shared.log).reverse = sequentialActions t s.phase ∧
        ∀ c < t.num, (t.actions c).phase = s.phase → (t.actions c).isConditional = true →
          (s.shared.flags c).done = true) := by
  have hordered := ordered_of_reached h
  have hposition := hordered.position hphase
  refine ⟨?_, ?_, ?_, ?_⟩
  · intro i rest hdispatch hcond j hj hgroup hdispatched
    obtain ⟨hjn, hpj, -⟩ := mem_sequentialActions.mp hj
    obtain hmain | hreceiver := hdispatch
    · obtain ⟨f, l, n, hplace⟩ := hordered.busy (by
        rw [hmain]
        exact List.cons_ne_nil _ _)
      unfold Position at hposition
      rw [hplace] at hposition
      obtain ⟨hstage, -, hnl, hsent⟩ := hposition
      rw [hmain] at hsent
      obtain ⟨k, rfl, hfk, heq, -⟩ | ⟨hsound, -⟩ := hsent
      · obtain ⟨hik, -⟩ := List.cons.inj heq
        obtain rfl := Task.dispatch.inj hik
        have hquiet := hstage.quiet j ((ranges_spec hphase j).2.mpr (mem_sequentialActions.mp hj)).1
          (hstage.earlier hphase hfk hnl hjn hpj hgroup)
        unfold pending at hquiet
        rw [hdispatched, Bool.true_and, Bool.not_eq_eq_eq_not, Bool.not_false] at hquiet
        exact hquiet
      · have hcon : (t.actions i).isConditional = true := hsound _ List.mem_cons_self
        rw [hcond] at hcon
        cases hcon
    · have hcon : (t.actions i).isConditional = true := by
        apply hordered.receiver (.dispatch i)
        rw [hreceiver]
        exact List.mem_cons_self
      rw [hcond] at hcon
      cases hcon
  · obtain ⟨n, hn, hsent⟩ := hposition.sent
    rw [hsent, List.reverse_reverse, ← between_eq s.phase hphase]
    exact between_prefix hn
  · have hsorted : (sequentialActions t s.phase).Pairwise (· < ·) :=
      (List.pairwise_lt_range).filter _
    refine hsorted.imp_of_mem fun {i j} hi hj hlt => ⟨hlt, ?_⟩
    obtain ⟨-, hpi, -⟩ := mem_sequentialActions.mp hi
    obtain ⟨hjn, hpj, -⟩ := mem_sequentialActions.mp hj
    exact sequence_mono (Nat.le_of_lt hlt) hjn (hpi.trans hpj.symm)
  · intro hplace
    unfold Position at hposition
    rw [hplace] at hposition
    obtain ⟨hsent, hmarked⟩ := hposition
    refine ⟨?_, fun c hc hpc hcond => ?_⟩
    · rw [hsent, List.reverse_reverse]
      exact between_eq s.phase hphase
    · obtain ⟨hfirst, hlast⟩ := (ranges_spec hphase c).1.mpr ⟨hc, hpc, hcond⟩
      exact (hmarked c hfirst hlast).1

def wentWell (nid : ℕ) (published : Published) : Evaluation :=
  match published nid with
  | some status => .ok (if isOk status then 1 else 0)
  | none => .unknownVar

/-- A conditional action that goes by the status of a sequential one. -/
def pair : DispatchTable where
  num := 2
  actions i := ⟨100 + i, if i < 2 then 1 else 0, if i = 1 then 10 else 0, i < 2,
    if i = 0 then some (wentWell 101) else none, if i = 1 then [0] else []⟩
  on := by decide
  sorted := by
    intro i j hij hj
    have hall : ∀ i < 2, ∀ j < 2, i ≤ j → compareActions
        ⟨100 + i, if i < 2 then 1 else 0, if i = 1 then 10 else 0, i < 2, none, []⟩
        ⟨100 + j, if j < 2 then 1 else 0, if j = 1 then 10 else 0, j < 2, none, []⟩ ≤ 0 := by
      decide
    exact hall i (Nat.lt_of_le_of_lt hij hj) j hj hij
  conditional := by
    intro i hi
    by_cases h : i = 0
    · subst h
      rfl
    · unfold ActionInfo.isConditional at hi
      simp only [if_neg h, Option.isSome_none, Bool.false_eq_true] at hi
  sequential := by decide
  referenced := by
    intro i c hc
    by_cases h : i = 1
    · simp only [if_pos h, List.mem_singleton] at hc
      subst hc
      rfl
    · simp only [if_neg h, List.not_mem_nil] at hc
  nids i j hij := Nat.add_left_cancel hij

theorem phase_ordered_pair : ∃ s, Reached pair (Settled pair) s ∧ s.main = [.dispatch 1] ∧
    (dispatchedSince pair s.shared.log).reverse <+: sequentialActions pair s.phase := by
  have hbegun : Reached pair (Settled pair) _ :=
    Reached.built.step (m := .start 1 false 1) trivial rfl
  have hgroup : Reached pair (Settled pair) _ :=
    hbegun.step (m := .main .answered) nofun rfl
  have hreached : Reached pair (Settled pair) _ :=
    hgroup.step (m := .main .answered) nofun rfl
  obtain ⟨-, hprefix, -⟩ := phase_ordered hreached (by decide)
  exact ⟨_, hreached, rfl, hprefix⟩

/-- The sequential action is dispatched, and done. The receiver finds that the conditional one is to be
dispatched, the main thread marks it, and returns after the receiver has dispatched it. -/
def overtaken : List Move :=
  [.start 1 false 1, .main .answered, .main .answered, .main .answered, .main (.sent 5),
    .main .answered, .finished 0 1] ++ List.replicate 4 (.receiver .answered) ++
    List.replicate 11 (.main .answered) ++ [.receiver .answered, .main .answered]

theorem phase_overtaken : ¬ ∀ s, Reached pair (fun _ _ => True) s → s.phase < misplaced →
    s.place = .returned → ∀ c < pair.num, (pair.actions c).phase = s.phase →
      (pair.actions c).isConditional = true → (s.shared.flags c).done = true := by
  intro hall
  have hruns : (run pair built overtaken).map (fun s =>
      (s.phase, s.place, (s.shared.flags 0).done)) = some (1, .returned, false) := rfl
  obtain ⟨s, hrun, heq⟩ := Option.map_eq_some_iff.mp hruns
  obtain ⟨hphase, heq⟩ := Prod.mk.inj heq
  obtain ⟨hplace, hdone⟩ := Prod.mk.inj heq
  have hcon := hall s (Reached.built.run hrun) (by rw [hphase]; decide) hplace 0 (by decide)
    (by rw [hphase]; rfl) rfl
  rw [hdone] at hcon
  cases hcon

/-! ### The groups of a phase -/

theorem setGroup_next (sync : ℤ) {firstG lastS : ℕ} (h : firstG < lastS)
    (hnext : setGroup t sync firstG lastS < lastS) :
    group t sync (setGroup t sync firstG lastS) ≠ group t sync firstG := by
  unfold setGroup at hnext ⊢
  rw [if_neg (Nat.ne_of_lt h)] at hnext ⊢
  exact of_decide_eq_true ((findNextAction_spec h _).2.2.2 hnext)

/-- The groups that are set in turn when nothing is aborted. -/
def groups (t : DispatchTable) (sync : ℤ) (firstG lastS : ℕ) : List (List ℕ) :=
  if _h : firstG < lastS then
    between firstG (setGroup t sync firstG lastS) ::
      groups t sync (setGroup t sync firstG lastS) lastS
  else []
termination_by lastS - firstG
decreasing_by
  have hspec := setGroup_spec (t := t) sync _h
  omega

/-- Groups hold the actions from the first to the last in order, by rising numbers. -/
structure Grouped (t : DispatchTable) (sync : ℤ) (actions : List ℕ) (gs : List (List ℕ)) :
    Prop where
  all : gs.flatten = actions
  alike : ∀ g ∈ gs, ∀ i ∈ g, ∀ j ∈ g, group t sync i = group t sync j
  apart : gs.Pairwise fun g g' => ∀ i ∈ g, ∀ j ∈ g', group t sync i < group t sync j

theorem grouped_groups (sync : ℤ) (first last : ℕ)
    (hmono : ∀ i j, first ≤ i → i ≤ j → j < last → group t sync i ≤ group t sync j) :
    Grouped t sync (between first last) (groups t sync first last) := by
  induction first using groups.induct t sync last with
  | case1 first h ih =>
    obtain ⟨hlt, hle, hsame⟩ := setGroup_spec (t := t) sync h
    have hnext := setGroup_next (t := t) sync h
    rw [groups, dif_pos h]
    generalize setGroup t sync first last = next at *
    obtain ⟨hall, halike, hapart⟩ := ih fun i j hi hij hj => hmono i j (by omega) hij hj
    have hgroup : ∀ i ∈ between first next, group t sync i = group t sync first := by
      intro i hi
      obtain ⟨hi, hin⟩ := mem_between.1 hi
      exact hsame i hi hin
    refine ⟨?_, ?_, List.pairwise_cons.2 ⟨?_, hapart⟩⟩
    · rw [List.flatten_cons, hall]
      unfold between
      rw [show last - first = next - first + (last - next) by omega, ← List.range'_append_1,
        show first + (next - first) = next by omega]
    · refine List.forall_mem_cons.2 ⟨fun i hi j hj => ?_, halike⟩
      rw [hgroup i hi, hgroup j hj]
    · intro g hg i hi j hj
      have hin : j ∈ (groups t sync next last).flatten := List.mem_flatten.2 ⟨g, hg, hj⟩
      rw [hall, mem_between] at hin
      have hup := hmono first next (Nat.le_refl _) (by omega) (by omega)
      have hfurther := hmono next j (by omega) hin.1 hin.2
      have hne := hnext (by omega)
      rw [hgroup i hi]
      omega
  | case2 first h =>
    rw [groups, dif_neg h]
    refine ⟨?_, fun g hg => absurd hg List.not_mem_nil, List.Pairwise.nil⟩
    unfold between
    rw [show last - first = 0 by omega]
    rfl

theorem phase_grouped {phase : ℤ} (hphase : phase < misplaced) (sync : ℤ) :
    Grouped t sync (sequentialActions t phase)
      (groups t sync (setActionRanges t phase).firstS (setActionRanges t phase).lastS) := by
  rw [← between_eq phase hphase]
  refine grouped_groups sync _ _ fun i j hi hij hj => ?_
  obtain ⟨hin, hpi, hci⟩ := (ranges_spec hphase i).2.1 ⟨hi, by omega⟩
  obtain ⟨hjn, hpj, -⟩ := (ranges_spec hphase j).2.1 ⟨by omega, hj⟩
  refine group_mono sync (sequence_mono hij hjn (hpi.trans hpj.symm)) (Int.le_of_lt ?_)
  exact t.sequential i hin hci (by omega)

/-- The groups of the phase that is run. -/
def State.groups (t : DispatchTable) (s : State) : List (List ℕ) :=
  DispatchGroups.groups t s.sync (s.ranges t).firstS (s.ranges t).lastS

/-- The group that the main thread is at, and those behind it, are the last ones. -/
def InTurn (t : DispatchTable) (s : State) : Prop :=
  match s.place with
  | .group g => groups t s.sync g (s.ranges t).lastS <:+ State.groups t s
  | .range f l _ | .wait f l | .scan f l _ =>
      between f l :: groups t s.sync l (s.ranges t).lastS <:+ State.groups t s
  | _ => True

theorem InTurn.proceed (h : InTurn t s) {s' : State} (hstep : proceed t s = some s') :
    InTurn t s' := by
  unfold InTurn at h
  unfold DispatchPhase.proceed at hstep
  split at hstep
  · cases hstep
  · cases hstep
  · next g hplace =>
    rw [hplace] at h
    split at hstep
    · next hgo =>
      cases hstep
      rw [Bool.and_eq_true, decide_eq_true_eq] at hgo
      dsimp only at h
      rw [groups, dif_pos hgo.2] at h
      exact h
    · cases hstep
      trivial
  · next f l i hplace =>
    rw [hplace] at h
    split at hstep <;> cases hstep <;> exact h
  · next f l hplace =>
    rw [hplace] at h
    cases hstep
    unfold InTurn
    dsimp only
    cases s.shared.abort with
    | true => exact (List.suffix_cons _ _).trans h
    | false => exact h
  · next f l hplace =>
    rw [hplace] at h
    cases hstep
    exact (List.suffix_cons _ _).trans h
  · next f l i rest hplace =>
    rw [hplace] at h
    cases hstep
    unfold InTurn
    dsimp only
    cases pending s.shared i <;> exact h
  · cases hstep
    trivial
  · cases hstep
    unfold InTurn
    dsimp only
    cases s.shared.abort <;> trivial
  · cases hstep
    trivial
  · next i rest hplace =>
    cases hstep
    unfold InTurn
    dsimp only
    cases pending s.shared i <;> trivial
  · cases hstep
    trivial
  · split at hstep <;> cases hstep <;> trivial

theorem InTurn.step (h : InTurn t s) {move : Move} {s' : State}
    (hstep : step t s move = some s') : InTurn t s' := by
  cases move with
  | start phase noact sync =>
    unfold DispatchPhase.step start at hstep
    dsimp only at hstep
    split at hstep
    · split at hstep <;> cases hstep
      · exact List.suffix_refl _
      · exact h
    · cases hstep
  | main o =>
    unfold DispatchPhase.step at hstep
    dsimp only at hstep
    split at hstep
    · exact h.proceed hstep
    · obtain ⟨p, -, rfl⟩ := Option.map_eq_some_iff.1 hstep
      exact h
  | receiver o =>
    obtain ⟨p, -, rfl⟩ := Option.map_eq_some_iff.1 hstep
    exact h
  | _ =>
    unfold DispatchPhase.step at hstep
    dsimp only [starting] at hstep
    split at hstep <;> cases hstep
    exact h

/-- In every run the groups of a phase hold its sequential actions, each once and in order. Those that
have one quotient of their sequence are together, behind those with lower ones, and the group that is
dispatched is one of these. -/
theorem run_grouped {meets : State → Move → Prop} (h : Reached t meets s)
    (hphase : s.phase < misplaced) :
    Grouped t s.sync (sequentialActions t s.phase) (State.groups t s) ∧
      ∀ f l i, s.place = .range f l i → between f l ∈ State.groups t s := by
  refine ⟨phase_grouped hphase s.sync, fun f l i hplace => ?_⟩
  have hinTurn : InTurn t s := by
    clear hphase hplace
    induction h with
    | built => trivial
    | step _ _ hstep ih => exact ih.step hstep
  unfold InTurn at hinTurn
  rw [hplace] at hinTurn
  exact hinTurn.subset List.mem_cons_self

theorem run_grouped_pair : ∃ s, Reached pair (fun _ _ => True) s ∧ s.place = .range 1 2 1 ∧
    between 1 2 ∈ State.groups pair s := by
  have hreached : Reached pair (fun _ _ => True) _ :=
    (Reached.built.step (m := .start 1 false 1) trivial rfl).step (m := .main .answered) trivial rfl
  exact ⟨_, hreached, rfl, (run_grouped hreached (by decide)).2 1 2 1 rfl⟩

end MdsPlus.DispatchGroups
