import Mathlib.Data.Int.Init
import Mathlib.Order.Basic
import Mathlib.Tactic.Common

/-!
Dispatch tables. Actions are sorted by phase and sequence, so that the conditional actions of a
phase, whose sequence is zero, stand before the sequential ones.
-/

namespace MdsPlus.DispatchTables

inductive Evaluation
  | ok (doit : ℤ) | unknownVar | failed
deriving DecidableEq

/-- The public variables _ACTION_nid with the statuses of actions; `none` is undefined. -/
abbrev Published := ℕ → Option ℤ

structure ActionInfo where
  nid : ℕ
  phase : ℤ
  sequence : ℤ
  on : Bool
  condition : Option (Published → Evaluation)
  referencedBy : List ℕ

def ActionInfo.isConditional (a : ActionInfo) : Bool := a.condition.isSome

def compareActions (a b : ActionInfo) : ℤ :=
  if a.on = b.on then
    if a.phase = b.phase then a.sequence - b.sequence else a.phase - b.phase
  else b.on.toNat - a.on.toNat

/-- From here on phases are for actions that cannot be dispatched. -/
def misplaced : ℤ := 0x10000001

/-- What ServerBuildDispatchTable makes: sorted, with the actions that are on first, and with
references by conditional actions only. -/
structure DispatchTable where
  num : ℕ
  actions : ℕ → ActionInfo
  on : ∀ i < num, (actions i).on = true
  sorted : ∀ i j, i ≤ j → j < num → compareActions (actions i) (actions j) ≤ 0
  conditional : ∀ i, (actions i).isConditional = true → (actions i).sequence = 0
  sequential : ∀ i < num, (actions i).isConditional = false → (actions i).phase < misplaced →
    0 < (actions i).sequence
  referenced : ∀ i, ∀ c ∈ (actions i).referencedBy, (actions c).isConditional = true
  nids : Function.Injective fun i => (actions i).nid

def findNext (condition : ℕ → Bool) : ℕ → ℕ → ℕ
  | 0, i => i
  | n + 1, i => if condition i then i else findNext condition n (i + 1)

def findNextAction (first last : ℕ) (condition : ℕ → Bool) : ℕ :=
  findNext condition (last - first) first

structure Ranges where
  firstC : ℕ
  lastC : ℕ
  firstS : ℕ
  lastS : ℕ
deriving DecidableEq

variable (t : DispatchTable) (phase : ℤ)

def sequentialRange (i : ℕ) : ℕ × ℕ :=
  if i < t.num ∧ (t.actions i).phase = phase then
    (i, findNextAction (i + 1) t.num fun i => (t.actions i).phase ≠ phase)
  else (t.num, t.num)

def setActionRanges : Ranges :=
  let i := findNextAction 0 t.num fun i => (t.actions i).phase = phase
  if i < t.num then
    if (t.actions i).isConditional then
      let firstC := i
      let i := findNextAction (firstC + 1) t.num fun i =>
        (t.actions i).phase ≠ phase || !(t.actions i).isConditional
      let s := sequentialRange t phase i
      ⟨firstC, i, s.1, s.2⟩
    else
      let s := sequentialRange t phase i
      ⟨t.num, t.num, s.1, s.2⟩
  else ⟨t.num, t.num, t.num, t.num⟩

def group (sync : ℤ) (i : ℕ) : ℤ := (t.actions i).sequence.tdiv (if sync < 1 then 1 else sync)

def setGroup (sync : ℤ) (firstG lastS : ℕ) : ℕ :=
  if firstG = lastS then lastS
  else findNextAction (firstG + 1) lastS fun i => group t sync i ≠ group t sync firstG

/-! ### Ranges -/

variable {t phase} {i j : ℕ}

theorem findNext_spec (condition : ℕ → Bool) (n i : ℕ) :
    i ≤ findNext condition n i ∧ findNext condition n i ≤ i + n ∧
      (∀ k, i ≤ k → k < findNext condition n i → condition k = false) ∧
        (findNext condition n i < i + n → condition (findNext condition n i) = true) := by
  induction n generalizing i with
  | zero => exact ⟨Nat.le_refl _, Nat.le_refl _, fun k h h' => absurd h' (by
      unfold findNext
      omega), fun h => absurd h (by
      unfold findNext
      omega)⟩
  | succ n ih =>
    unfold findNext
    split
    · next htrue => exact ⟨Nat.le_refl _, by omega, fun k h h' => by omega, fun _ => htrue⟩
    · next hfalse =>
      obtain ⟨hle, hlast, hall, hfound⟩ := ih (i + 1)
      refine ⟨by omega, by omega, ?_, fun h => hfound (by omega)⟩
      intro k hk hlt
      obtain heq | hgt := Nat.eq_or_lt_of_le hk
      · subst heq
        exact eq_false_of_ne_true hfalse
      · exact hall k hgt hlt

theorem findNextAction_spec {first last : ℕ} (h : first ≤ last) (condition : ℕ → Bool) :
    first ≤ findNextAction first last condition ∧ findNextAction first last condition ≤ last ∧
      (∀ k, first ≤ k → k < findNextAction first last condition → condition k = false) ∧
        (findNextAction first last condition < last →
          condition (findNextAction first last condition) = true) := by
  have hspec := findNext_spec condition (last - first) first
  have hsum : first + (last - first) = last := by omega
  rw [hsum] at hspec
  exact hspec

theorem phase_mono (h : i ≤ j) (hj : j < t.num) : (t.actions i).phase ≤ (t.actions j).phase := by
  have hsorted := t.sorted i j h hj
  have hi := t.on i (by omega)
  have hj := t.on j hj
  unfold compareActions at hsorted
  rw [hi, hj, if_pos rfl] at hsorted
  split at hsorted
  · next heq => exact Int.le_of_eq heq
  · omega

theorem sequence_mono (h : i ≤ j) (hj : j < t.num)
    (hphase : (t.actions i).phase = (t.actions j).phase) :
    (t.actions i).sequence ≤ (t.actions j).sequence := by
  have hsorted := t.sorted i j h hj
  have hi := t.on i (by omega)
  have hj := t.on j hj
  unfold compareActions at hsorted
  rw [hi, hj, if_pos rfl, if_pos hphase] at hsorted
  omega

theorem sequential_after (hphase : phase < misplaced) (h : i ≤ j) (hj : j < t.num)
    (hpi : (t.actions i).phase = phase) (hpj : (t.actions j).phase = phase)
    (hi : (t.actions i).isConditional = false) : (t.actions j).isConditional = false := by
  have hseq := sequence_mono h hj (hpi.trans hpj.symm)
  have hpos := t.sequential i (by omega) hi (by omega)
  cases hc : (t.actions j).isConditional with
  | false => rfl
  | true =>
    have hzero := t.conditional j hc
    omega

theorem mem_sequentialRange (hphase : phase < misplaced)
    (hfirst : i < t.num → (t.actions i).phase = phase → (t.actions i).isConditional = false)
    (hbelow : ∀ k < i, (t.actions k).phase = phase → (t.actions k).isConditional = true)
    (hnext : i < t.num → phase ≤ (t.actions i).phase) :
    (sequentialRange t phase i).1 ≤ j ∧ j < (sequentialRange t phase i).2 ↔
      j < t.num ∧ (t.actions j).phase = phase ∧ (t.actions j).isConditional = false := by
  unfold sequentialRange
  split
  · next hin =>
    obtain ⟨hlt, hp⟩ := hin
    obtain ⟨hle, hlast, hall, hfound⟩ := findNextAction_spec (show i + 1 ≤ t.num from hlt)
      fun i => (t.actions i).phase ≠ phase
    simp only [decide_eq_false_iff_not, not_not, decide_eq_true_eq] at hall hfound
    dsimp only
    constructor
    · intro ⟨hij, hj⟩
      have hpj : (t.actions j).phase = phase := by
        obtain rfl | hij := Nat.eq_or_lt_of_le hij
        · exact hp
        · exact hall j hij hj
      have hjn := Nat.lt_of_lt_of_le hj hlast
      exact ⟨hjn, hpj, sequential_after hphase hij hjn hp hpj (hfirst hlt hp)⟩
    · intro ⟨hj, hpj, hcj⟩
      have hij : i ≤ j := by
        apply Nat.le_of_not_lt
        intro hji
        rw [hbelow j hji hpj] at hcj
        cases hcj
      refine ⟨hij, ?_⟩
      apply Nat.lt_of_not_le
      intro hge
      have hk := hfound (Nat.lt_of_le_of_lt hge hj)
      have hup := phase_mono (t := t) (i := i) (by omega) (Nat.lt_of_le_of_lt hge hj)
      have hdown := phase_mono hge hj
      omega
  · next hout =>
    dsimp only
    constructor
    · intro ⟨h, h'⟩
      omega
    · intro ⟨hj, hpj, hcj⟩
      exfalso
      obtain hji | hij := Nat.lt_or_ge j i
      · rw [hbelow j hji hpj] at hcj
        cases hcj
      · have hlt := Nat.lt_of_le_of_lt hij hj
        have hge := hnext hlt
        have hmono := phase_mono hij hj
        exact hout ⟨hlt, by omega⟩

theorem ranges_spec (hphase : phase < misplaced) (i : ℕ) :
    ((setActionRanges t phase).firstC ≤ i ∧ i < (setActionRanges t phase).lastC ↔
      i < t.num ∧ (t.actions i).phase = phase ∧ (t.actions i).isConditional = true) ∧
    ((setActionRanges t phase).firstS ≤ i ∧ i < (setActionRanges t phase).lastS ↔
      i < t.num ∧ (t.actions i).phase = phase ∧ (t.actions i).isConditional = false) := by
  obtain ⟨-, hlast, hall, hfound⟩ := findNextAction_spec (Nat.zero_le t.num)
    fun i => (t.actions i).phase = phase
  simp only [decide_eq_false_iff_not, decide_eq_true_eq] at hall hfound
  unfold setActionRanges
  generalize hfirst : findNextAction 0 t.num (fun i => (t.actions i).phase = phase) = first at *
  have hbelow : ∀ k < first, (t.actions k).phase ≠ phase := fun k hk => hall k (Nat.zero_le k) hk
  dsimp only
  split
  · next hlt =>
    have hp := hfound hlt
    split
    · next hcond =>
      obtain ⟨hle, hcl, hcs, hend⟩ := findNextAction_spec hlt fun i =>
        (t.actions i).phase ≠ phase || !(t.actions i).isConditional
      generalize findNextAction (first + 1) t.num (fun i => (t.actions i).phase ≠ phase ||
        !(t.actions i).isConditional) = last at *
      simp only [Bool.or_eq_false_iff, decide_eq_false_iff_not, not_not, Bool.not_eq_eq_eq_not,
        Bool.not_false, Bool.or_eq_true, decide_eq_true_eq, Bool.not_true] at hcs hend
      have hin : ∀ k, first ≤ k → k < last →
          (t.actions k).phase = phase ∧ (t.actions k).isConditional = true := by
        intro k hk hkl
        obtain rfl | hgt := Nat.eq_or_lt_of_le hk
        · exact ⟨hp, hcond⟩
        · exact hcs k hgt hkl
      have hat : last < t.num → (t.actions last).phase = phase →
          (t.actions last).isConditional = false := by
        intro hl hpl
        obtain hne | hf := hend hl
        · exact absurd hpl hne
        · exact hf
      have hup : last < t.num → phase ≤ (t.actions last).phase := by
        intro hl
        have hmono := phase_mono (t := t) (i := first) (j := last) (by omega) hl
        omega
      dsimp only
      constructor
      · constructor
        · intro ⟨hfi, hil⟩
          exact ⟨by omega, hin i hfi hil⟩
        · intro ⟨hi, hpi, hci⟩
          have hfi : first ≤ i := by
            apply Nat.le_of_not_lt
            intro hif
            exact hbelow i hif hpi
          refine ⟨hfi, ?_⟩
          apply Nat.lt_of_not_le
          intro hli
          have hl := Nat.lt_of_le_of_lt hli hi
          have hmono := phase_mono hli hi
          have hpl : (t.actions last).phase = phase := by
            have hge := hup hl
            omega
          have hfalse := sequential_after hphase hli hi hpl hpi (hat hl hpl)
          rw [hci] at hfalse
          cases hfalse
      · apply mem_sequentialRange hphase hat _ hup
        intro k hk hpk
        have hfk : first ≤ k := by
          apply Nat.le_of_not_lt
          intro hkf
          exact hbelow k hkf hpk
        exact (hin k hfk hk).2
    · next hcond =>
      have hfalse := eq_false_of_ne_true hcond
      dsimp only
      constructor
      · refine iff_of_false (fun h => by omega) ?_
        intro ⟨hi, hpi, hci⟩
        have hfi : first ≤ i := by
          apply Nat.le_of_not_lt
          intro hif
          exact hbelow i hif hpi
        have hnot := sequential_after hphase hfi hi hp hpi hfalse
        rw [hci] at hnot
        cases hnot
      · apply mem_sequentialRange hphase (fun _ _ => hfalse) _ (fun _ => Int.le_of_eq hp.symm)
        intro k hk hpk
        exact absurd hpk (hbelow k hk)
  · next hge =>
    have hnone : ¬ (i < t.num ∧ (t.actions i).phase = phase) := by
      intro ⟨hi, hpi⟩
      exact hbelow i (by omega) hpi
    dsimp only
    constructor
    · exact iff_of_false (fun h => by omega) fun ⟨hi, hpi, _⟩ => hnone ⟨hi, hpi⟩
    · exact iff_of_false (fun h => by omega) fun ⟨hi, hpi, _⟩ => hnone ⟨hi, hpi⟩

/-! ### Groups -/

theorem group_mono (sync : ℤ) (h : (t.actions i).sequence ≤ (t.actions j).sequence)
    (hi : 0 ≤ (t.actions i).sequence) : group t sync i ≤ group t sync j := by
  unfold group
  have hpos : (0 : ℤ) < if sync < 1 then 1 else sync := by
    split
    · omega
    · omega
  rw [Int.tdiv_eq_ediv_of_nonneg hi, Int.tdiv_eq_ediv_of_nonneg (Int.le_trans hi h)]
  exact Int.ediv_le_ediv hpos h

theorem setGroup_spec (sync : ℤ) {firstG lastS : ℕ} (h : firstG < lastS) :
    firstG < setGroup t sync firstG lastS ∧ setGroup t sync firstG lastS ≤ lastS ∧
      ∀ k, firstG ≤ k → k < setGroup t sync firstG lastS →
        group t sync k = group t sync firstG := by
  unfold setGroup
  rw [if_neg (Nat.ne_of_lt h)]
  obtain ⟨hle, hlast, hall, -⟩ := findNextAction_spec h
    fun i => group t sync i ≠ group t sync firstG
  simp only [decide_eq_false_iff_not, not_not] at hall
  refine ⟨hle, hlast, ?_⟩
  intro k hk hlt
  obtain rfl | hgt := Nat.eq_or_lt_of_le hk
  · rfl
  · exact hall k hgt hlt

end MdsPlus.DispatchTables
