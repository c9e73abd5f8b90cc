import MdsPlus.DispatchTables
import MdsPlus.Outcome
import Mathlib.Data.List.Nodup
import Mathlib.Data.List.Perm.Basic
import Mathlib.Data.List.TakeWhile
import Mathlib.Data.Int.Order.Basic

/-!
Building a dispatch table. The action nodes of a tree are collected in a list of fixed size and
classified, the entries are sorted, and each condition adds its entry to the references of the
actions that it mentions.
-/

namespace MdsPlus.DispatchBuild

open Outcome
open DispatchTables (misplaced)

inductive Fault
  | overrun | overflow
deriving DecidableEq

/-! ### The tree -/

/-- A condition with what it is made of, down to nodes and paths. -/
inductive Condition (Path : Type)
  | nid (nid : ℕ)
  | path (path : Path)
  | other
  | parts (parts : List (Condition Path))

mutual

/-- The nodes and paths in the order in which a copy comes to them. -/
def Condition.leaves {Path : Type} : Condition Path → List (ℕ ⊕ Path)
  | .nid nid => [.inl nid]
  | .path path => [.inr path]
  | .other => []
  | .parts parts => leavesOf parts

def leavesOf {Path : Type} : List (Condition Path) → List (ℕ ⊕ Path)
  | [] => []
  | c :: cs => c.leaves ++ leavesOf cs

end

/-- The dispatch of an action: whether it is sequential, its phase, if there is one, its sequence or
else its condition, and whether there is a server. -/
structure Dispatch (Path : Type) where
  scheduled : Bool
  phase : Option ℤ
  sequence : ℤ ⊕ Condition Path
  ident : Bool

structure Tree (Path : Type) where
  name : List ℕ
  shot : ℤ
  found : List ℕ
  isOn : ℕ → Bool
  dispatchOf : ℕ → Option (Dispatch Path)
  /-- Whether the data of a node are of DTYPE_ACTION. -/
  isAction : ℕ → Bool
  findNode : Path → Option ℕ
  no_zero : 0 ∉ name
  nodup : found.Nodup

structure Action (Path : Type) where
  nid : ℕ
  on : Bool
  phase : ℤ
  sequence : ℤ
  condition : Option (Condition Path)
  referencedBy : List ℕ

structure Table (Path : Type) where
  tree : List ℕ
  shot : ℤ
  num : ℕ
  actions : List (Action Path)

variable {Path : Type}

/-! ### The name -/

def nameBuffer (name : List ℕ) : List ℕ :=
  if name.length < 12 then name ++ 0 :: List.replicate (11 - name.length) 32 else name.take 12

/-- A zero is written at the first blank, or behind twelve bytes. -/
def copyName (name : List ℕ) : Except Fault (List ℕ) :=
  let i := (nameBuffer name).findIdx (· = 32)
  if i < 12 then .ok (((nameBuffer name).take i).takeWhile (· ≠ 0)) else .error .overrun

/-! ### Collecting -/

def maxActions : ℕ := 10000

/-- A node that is found is written behind those before it, and then counted if there is room for
it. -/
def collect : List ℕ → List ℕ → Except Fault (List ℕ)
  | nids, [] => .ok nids
  | nids, n :: found =>
      if nids.length < maxActions then collect (nids ++ [n]) found else .error .overrun

/-- Phases of errors, from `misplaced` on. -/
def noPhase : ℤ := misplaced

def noSequence : ℤ := misplaced + 1

def noServer : ℤ := misplaced + 2

def notScheduled : ℤ := misplaced + 3

def noDispatch : ℤ := misplaced + 4

def errorMarkers : List ℤ := [noPhase, noSequence, noServer, notScheduled, noDispatch]

def sequenced (action : Action Path) : ℤ ⊕ Condition Path → Action Path
  | .inr condition => { action with sequence := 0, condition := some condition }
  | .inl sequence =>
      if sequence ≤ 0 then { action with sequence, phase := noSequence }
      else { action with sequence }

def dispatched (action : Action Path) (d : Dispatch Path) : Action Path :=
  if d.scheduled then
    let action := sequenced { action with phase := d.phase.getD noPhase } d.sequence
    if d.ident then action else { action with phase := noServer }
  else { action with phase := notScheduled }

def classify (t : Tree Path) (nid : ℕ) : Action Path :=
  let action : Action Path := ⟨nid, t.isOn nid, 0, 0, none, []⟩
  if t.isOn nid then
    match t.dispatchOf nid with
    | none => { action with phase := noDispatch }
    | some d => dispatched action d
  else action

/-! ### Sorting -/

/-- compare_actions, before the difference is taken to an int. -/
def compareActions (a b : Action Path) : ℤ :=
  if a.on = b.on then
    if a.phase = b.phase then a.sequence - b.sequence else a.phase - b.phase
  else b.on.toNat - a.on.toNat

/-- The difference is an int. -/
def Comparable (a b : Action Path) : Prop :=
  -2147483648 ≤ compareActions a b ∧ compareActions a b ≤ 2147483647

instance (a b : Action Path) : Decidable (Comparable a b) := inferInstanceAs (Decidable (_ ∧ _))

/-- What qsort does: it compares some of the entries with each other, and if all differences are
ints the result is in order. -/
structure QSort (Path : Type) where
  compared : List (Action Path) → List (Action Path × Action Path)
  sorted : List (Action Path) → List (Action Path)
  compared_mem : ∀ l, ∀ p ∈ compared l, p.1 ∈ l ∧ p.2 ∈ l
  perm : ∀ l, (∀ a ∈ l, ∀ b ∈ l, Comparable a b) → (sorted l).Perm l
  ordered : ∀ l, (∀ a ∈ l, ∀ b ∈ l, Comparable a b) →
    (sorted l).Pairwise fun a b => compareActions a b ≤ 0

def QSort.run (q : QSort Path) (l : List (Action Path)) : Except Fault (List (Action Path)) :=
  if ∀ p ∈ q.compared l, Comparable p.1 p.2 then .ok (q.sorted l) else .error .overflow

/-! ### References -/

def ifAddReference (idx nid : ℕ) : List (Action Path) → List (Action Path)
  | [] => []
  | a :: actions =>
      if a.nid = nid then
        (if idx ∈ a.referencedBy then a else { a with referencedBy := a.referencedBy ++ [idx] }) ::
          actions
      else a :: ifAddReference idx nid actions

def fixupNid (t : Tree Path) (idx : ℕ) (actions : List (Action Path)) (nid : ℕ) :
    List (Action Path) :=
  if t.isAction nid then ifAddReference idx nid actions else actions

def fixup (t : Tree Path) (idx : ℕ) (actions : List (Action Path)) : ℕ ⊕ Path → List (Action Path)
  | .inl nid => fixupNid t idx actions nid
  | .inr path =>
      match t.findNode path with
      | some nid => fixupNid t idx actions nid
      | none => actions

/-- link_conditions, with the conditions from an index on. A copy comes to each leaf twice. -/
def linkConditions (t : Tree Path) :
    ℕ → List (Option (Condition Path)) → List (Action Path) → List (Action Path)
  | _, [], actions => actions
  | i, none :: conditions, actions => linkConditions t (i + 1) conditions actions
  | i, some c :: conditions, actions =>
      linkConditions t (i + 1) conditions ((c.leaves ++ c.leaves).foldl (fixup t i) actions)

def serverBuildDispatchTable (q : QSort Path) (t : Tree Path) :
    Except Fault (Option (Table Path)) := do
  let tree ← copyName t.name
  if t.shot = -1 then .ok none
  else
    let nids ← collect [] t.found
    if nids = [] then .ok none
    else
      let actions ← q.run (nids.map (classify t))
      let num := (actions.takeWhile Action.on).length
      .ok (some ⟨tree, t.shot, num,
        linkConditions t 0 (actions.map Action.condition) actions⟩)

/-! ### What is asked for -/

/-- The node that a leaf of a condition stands for. -/
def Tree.target (t : Tree Path) : ℕ ⊕ Path → Option ℕ
  | .inl nid => some nid
  | .inr path => t.findNode path

def Mentions (t : Tree Path) (a : Action Path) (nid : ℕ) : Prop :=
  ∃ c ∈ a.condition, ∃ leaf ∈ c.leaves, t.target leaf = some nid

/-- Within a phase, conditional actions stand first and sequential ones by sequence. -/
def InOrder (a b : Action Path) : Prop :=
  a.phase ≤ b.phase ∧ (a.phase = b.phase → a.phase ∉ errorMarkers →
    (b.condition ≠ none → a.condition ≠ none) ∧
      (a.condition = none → b.condition = none → a.sequence ≤ b.sequence))

/-- An entry before references are added. -/
def bare (a : Action Path) : Action Path := { a with referencedBy := [] }

structure Built (t : Tree Path) (table : Table Path) : Prop where
  collected : (table.actions.map Action.nid).Perm (t.found.take maxActions)
  classified : ∀ a ∈ table.actions, bare a = classify t a.nid
  on : ∀ i a, table.actions[i]? = some a → (a.on = true ↔ i < table.num)
  ordered : (table.actions.take table.num).Pairwise InOrder
  referenced : ∀ (i j : ℕ) (a b : Action Path), table.actions[i]? = some a → table.actions[j]? = some b →
    (i ∈ b.referencedBy ↔ Mentions t a b.nid)

/-- Nothing is written elsewhere, and a table that is made is what is asked for. -/
def Holds (q : QSort Path) (t : Tree Path) : Prop :=
  ∃ r, serverBuildDispatchTable q t = .ok r ∧ ∀ table ∈ r, Built t table

/-- The name leaves room for two bytes, the nodes for one more if there is one, the differences of
phases and sequences are ints, and only actions are mentioned. -/
structure Fits (t : Tree Path) : Prop where
  name : t.name.length < 11 ∨ 32 ∈ t.name.take 12
  found : t.shot = -1 ∨ t.found.length ≤ maxActions ∧
    (∀ n ∈ t.found, ∀ m ∈ t.found, Comparable (classify t n) (classify t m)) ∧
    ∀ n ∈ t.found, ∀ m ∈ t.found, Mentions t (classify t n) m → t.isAction m = true

/-! ### The name and the nodes -/

variable {t : Tree Path} {q : QSort Path} {l : List (Action Path)} {a b : Action Path}
  {i j idx n nid : ℕ}

theorem copyName_iff (name : List ℕ) :
    (∃ tree, copyName name = .ok tree) ↔ name.length < 11 ∨ 32 ∈ name.take 12 := by
  have hlength : (nameBuffer name).length = 12 := by
    rw [nameBuffer]
    split
    · rw [List.length_append, List.length_cons, List.length_replicate]
      omega
    · rw [List.length_take]
      omega
  have hblank : (nameBuffer name).findIdx (· = 32) < 12 ↔ 32 ∈ nameBuffer name := by
    rw [← hlength, List.findIdx_lt_length]
    simp
  have hmem : 32 ∈ nameBuffer name ↔ name.length < 11 ∨ 32 ∈ name.take 12 := by
    rw [nameBuffer]
    split
    · rename_i hlt
      have hroom : 11 - name.length ≠ 0 ↔ name.length < 11 := by omega
      have hzero : ¬ (32 : ℕ) = 0 := by omega
      rw [List.take_of_length_le (by omega), List.mem_append, List.mem_cons, List.mem_replicate,
        or_iff_right hzero, and_iff_left rfl, hroom, or_comm]
    · rename_i hge
      rw [or_iff_right (by omega)]
  rw [← hmem, ← hblank, copyName]
  constructor
  · rintro ⟨tree, htree⟩
    by_contra hnot
    simp only [if_neg hnot] at htree
    cases htree
  · intro hlt
    simp only [if_pos hlt]
    exact ⟨_, rfl⟩

theorem collect_eq (nids found : List ℕ) (h : nids.length ≤ maxActions) :
    collect nids found =
      if nids.length + found.length ≤ maxActions then .ok (nids ++ found) else .error .overrun := by
  induction found generalizing nids with
  | nil => rw [collect, List.length_nil, Nat.add_zero, if_pos h, List.append_nil]
  | cons n found ih =>
    rw [collect, List.length_cons]
    by_cases hlt : nids.length < maxActions
    · rw [if_pos hlt, ih _ (by rw [List.length_append]; exact hlt), List.length_append,
        List.append_assoc, List.length_singleton, List.singleton_append, Nat.add_assoc,
        Nat.add_comm 1]
    · rw [if_neg hlt, if_neg (by omega)]

/-! ### References -/

/-- An entry for the node lists the index. -/
def Refers (l : List (Action Path)) (i n : ℕ) : Prop := ∃ b ∈ l, b.nid = n ∧ i ∈ b.referencedBy

theorem refers_cons : Refers (a :: l) i n ↔ a.nid = n ∧ i ∈ a.referencedBy ∨ Refers l i n := by
  rw [Refers, Refers, List.exists_mem_cons_iff]

theorem map_bare_ifAddReference (idx nid : ℕ) (l : List (Action Path)) :
    (ifAddReference idx nid l).map bare = l.map bare := by
  induction l with
  | nil => rfl
  | cons a l ih =>
    rw [ifAddReference]
    split
    · rw [List.map_cons, List.map_cons]
      split <;> rfl
    · rw [List.map_cons, List.map_cons, ih]

theorem map_nid (l : List (Action Path)) : l.map Action.nid = (l.map bare).map Action.nid := by
  rw [List.map_map]
  rfl

theorem refers_ifAddReference : Refers (ifAddReference idx nid l) i n ↔
    Refers l i n ∨ i = idx ∧ n = nid ∧ nid ∈ l.map Action.nid := by
  induction l with
  | nil => simp [ifAddReference, Refers]
  | cons a l ih =>
    rw [ifAddReference, List.map_cons, List.mem_cons]
    by_cases hnid : a.nid = nid
    · rw [if_pos hnid, refers_cons, refers_cons]
      by_cases hidx : idx ∈ a.referencedBy
      · rw [if_pos hidx]
        constructor
        · exact Or.inl
        · rintro (h | ⟨rfl, rfl, -⟩)
          · exact h
          · exact Or.inl ⟨hnid, hidx⟩
      · rw [if_neg hidx]
        simp only [List.mem_append, List.mem_singleton, hnid, true_or, and_true]
        constructor
        · rintro (⟨rfl, h | rfl⟩ | h)
          · exact Or.inl (Or.inl ⟨rfl, h⟩)
          · exact Or.inr ⟨rfl, rfl⟩
          · exact Or.inl (Or.inr h)
        · rintro ((⟨rfl, h⟩ | h) | ⟨rfl, rfl⟩)
          · exact Or.inl ⟨rfl, Or.inl h⟩
          · exact Or.inr h
          · exact Or.inl ⟨rfl, Or.inr rfl⟩
    · have hne : nid ≠ a.nid := fun heq => hnid heq.symm
      rw [if_neg hnid, refers_cons, refers_cons, ih, or_assoc, or_iff_right hne]

theorem map_bare_fixupNid (t : Tree Path) (idx nid : ℕ) (l : List (Action Path)) :
    (fixupNid t idx l nid).map bare = l.map bare := by
  rw [fixupNid]
  split
  · exact map_bare_ifAddReference idx nid l
  · rfl

theorem refers_fixupNid : Refers (fixupNid t idx l nid) i n ↔
    Refers l i n ∨ i = idx ∧ n = nid ∧ t.isAction n = true ∧ n ∈ l.map Action.nid := by
  rw [fixupNid]
  by_cases haction : t.isAction nid = true
  · rw [if_pos haction, refers_ifAddReference]
    refine or_congr_right (and_congr_right fun _ => and_congr_right ?_)
    rintro rfl
    rw [and_iff_right haction]
  · rw [if_neg haction, iff_self_or]
    rintro ⟨-, rfl, hn, -⟩
    exact absurd hn haction

theorem fixup_eq (t : Tree Path) (idx : ℕ) (l : List (Action Path)) (leaf : ℕ ⊕ Path) :
    fixup t idx l leaf = match t.target leaf with
      | some nid => fixupNid t idx l nid
      | none => l := by
  cases leaf with
  | inl nid => rfl
  | inr path => rfl

theorem map_bare_fixup (t : Tree Path) (idx : ℕ) (l : List (Action Path)) (leaf : ℕ ⊕ Path) :
    (fixup t idx l leaf).map bare = l.map bare := by
  rw [fixup_eq]
  cases t.target leaf with
  | none => rfl
  | some nid => exact map_bare_fixupNid t idx nid l

theorem refers_fixup {leaf : ℕ ⊕ Path} : Refers (fixup t idx l leaf) i n ↔
    Refers l i n ∨
      i = idx ∧ t.target leaf = some n ∧ t.isAction n = true ∧ n ∈ l.map Action.nid := by
  rw [fixup_eq]
  cases t.target leaf with
  | none =>
    rw [iff_self_or]
    rintro ⟨-, hnone, -⟩
    cases hnone
  | some nid =>
    have hsome : some nid = some n ↔ n = nid := by rw [Option.some.injEq, eq_comm]
    rw [hsome]
    exact refers_fixupNid

theorem map_bare_fold (t : Tree Path) (idx : ℕ) (leaves : List (ℕ ⊕ Path))
    (l : List (Action Path)) : (leaves.foldl (fixup t idx) l).map bare = l.map bare := by
  induction leaves generalizing l with
  | nil => rfl
  | cons leaf leaves ih => exact (ih _).trans (map_bare_fixup t idx l leaf)

theorem refers_fold {leaves : List (ℕ ⊕ Path)} : Refers (leaves.foldl (fixup t idx) l) i n ↔
    Refers l i n ∨ i = idx ∧ (∃ leaf ∈ leaves, t.target leaf = some n) ∧
      t.isAction n = true ∧ n ∈ l.map Action.nid := by
  induction leaves generalizing l with
  | nil => simp
  | cons leaf leaves ih =>
    have hnids : (fixup t idx l leaf).map Action.nid = l.map Action.nid := by
      rw [map_nid, map_bare_fixup, ← map_nid]
    rw [List.foldl_cons, ih, refers_fixup, hnids, List.exists_mem_cons_iff]
    tauto

theorem map_bare_linkConditions (t : Tree Path) (k : ℕ)
    (conditions : List (Option (Condition Path))) (l : List (Action Path)) :
    (linkConditions t k conditions l).map bare = l.map bare := by
  induction conditions generalizing k l with
  | nil => rfl
  | cons c conditions ih =>
    cases c with
    | none => exact ih _ _
    | some c => exact (ih _ _).trans (map_bare_fold t k _ l)

theorem refers_linkConditions {k : ℕ} {conditions : List (Option (Condition Path))} :
    Refers (linkConditions t k conditions l) i n ↔
      Refers l i n ∨ (∃ m c, conditions[m]? = some (some c) ∧ i = k + m ∧
        ∃ leaf ∈ c.leaves, t.target leaf = some n) ∧
          t.isAction n = true ∧ n ∈ l.map Action.nid := by
  induction conditions generalizing k l with
  | nil => simp [linkConditions]
  | cons c conditions ih =>
    -- the first condition, or one further on
    have hsplit : (∃ m c', (c :: conditions)[m]? = some (some c') ∧ i = k + m ∧
        ∃ leaf ∈ c'.leaves, t.target leaf = some n) ↔
        (∃ c', c = some c' ∧ i = k ∧ ∃ leaf ∈ c'.leaves, t.target leaf = some n) ∨
          ∃ m c', conditions[m]? = some (some c') ∧ i = k + 1 + m ∧
            ∃ leaf ∈ c'.leaves, t.target leaf = some n := by
      rw [← Nat.or_exists_add_one]
      simp only [List.getElem?_cons_zero, List.getElem?_cons_succ, Option.some.injEq, Nat.add_zero,
        Nat.add_right_comm k, Nat.add_assoc]
    rw [hsplit]
    cases c with
    | none =>
      rw [linkConditions, ih]
      simp
    | some c =>
      have hnids : ((c.leaves ++ c.leaves).foldl (fixup t k) l).map Action.nid =
          l.map Action.nid := by
        rw [map_nid, map_bare_fold, ← map_nid]
      have htwice : (∃ leaf ∈ c.leaves ++ c.leaves, t.target leaf = some n) ↔
          ∃ leaf ∈ c.leaves, t.target leaf = some n := by
        simp only [List.mem_append, or_self]
      rw [linkConditions, ih, refers_fold, hnids, htwice]
      simp only [Option.some.injEq, exists_eq_left']
      rw [or_assoc, or_and_right, and_assoc (a := i = k)]

/-! ### Order -/

theorem sequenced_spec (action : Action Path) (s : ℤ ⊕ Condition Path) :
    (sequenced action s).nid = action.nid ∧ (sequenced action s).on = action.on ∧
      (sequenced action s).referencedBy = action.referencedBy := by
  cases s with
  | inr condition => exact ⟨rfl, rfl, rfl⟩
  | inl sequence =>
    rw [sequenced]
    split
    · exact ⟨rfl, rfl, rfl⟩
    · exact ⟨rfl, rfl, rfl⟩

theorem dispatched_spec (action : Action Path) (d : Dispatch Path) :
    (dispatched action d).nid = action.nid ∧ (dispatched action d).on = action.on ∧
      (dispatched action d).referencedBy = action.referencedBy := by
  have hsequenced := sequenced_spec { action with phase := d.phase.getD noPhase } d.sequence
  rw [dispatched]
  split
  · simp only
    split
    · exact hsequenced
    · exact hsequenced
  · exact ⟨rfl, rfl, rfl⟩

theorem classify_spec (t : Tree Path) (n : ℕ) :
    (classify t n).nid = n ∧ (classify t n).on = t.isOn n ∧
      (classify t n).referencedBy = [] := by
  rw [classify]
  simp only
  split
  · cases t.dispatchOf n with
    | none => exact ⟨rfl, rfl, rfl⟩
    | some d => exact dispatched_spec _ d
  · exact ⟨rfl, rfl, rfl⟩

theorem markers_mem : noSequence ∈ errorMarkers ∧ noServer ∈ errorMarkers ∧
    notScheduled ∈ errorMarkers ∧ noDispatch ∈ errorMarkers := by decide

theorem classify_sequence (hon : t.isOn n = true) (hphase : (classify t n).phase ∉ errorMarkers) :
    ((classify t n).condition ≠ none → (classify t n).sequence = 0) ∧
      ((classify t n).condition = none → 0 < (classify t n).sequence) := by
  obtain ⟨hsequence, hserver, hscheduled, hdispatch⟩ := markers_mem
  rw [classify, if_pos hon] at hphase ⊢
  cases hd : t.dispatchOf n with
  | none =>
    rw [hd] at hphase
    exact absurd hdispatch hphase
  | some d =>
    rw [hd] at hphase
    simp only [dispatched] at hphase ⊢
    by_cases hsched : d.scheduled = true
    · rw [if_pos hsched] at hphase ⊢
      by_cases hident : d.ident = true
      · rw [if_pos hident] at hphase ⊢
        cases hs : d.sequence with
        | inr condition => exact ⟨fun _ => rfl, nofun⟩
        | inl sequence =>
          rw [hs, sequenced] at hphase
          rw [sequenced]
          by_cases hle : sequence ≤ 0
          · rw [if_pos hle] at hphase
            exact absurd hsequence hphase
          · rw [if_neg hle]
            exact ⟨fun h => absurd rfl h, fun _ => not_le.1 hle⟩
      · rw [if_neg hident] at hphase
        exact absurd hserver hphase
    · rw [if_neg hsched] at hphase
      exact absurd hscheduled hphase

theorem inOrder_of_le {m : ℕ} (hn : (classify t n).on = true) (hm : (classify t m).on = true)
    (h : compareActions (classify t n) (classify t m) ≤ 0) :
    InOrder (classify t n) (classify t m) := by
  have hon : t.isOn n = true := (classify_spec t n).2.1 ▸ hn
  have hom : t.isOn m = true := (classify_spec t m).2.1 ▸ hm
  rw [compareActions, if_pos (hn.trans hm.symm)] at h
  by_cases hphase : (classify t n).phase = (classify t m).phase
  · rw [if_pos hphase] at h
    refine ⟨hphase.le, fun _ hmarker => ?_⟩
    obtain ⟨-, hpositive⟩ := classify_sequence hon hmarker
    obtain ⟨hzero, -⟩ := classify_sequence hom (hphase ▸ hmarker)
    refine ⟨fun hcondition hnone => ?_, fun _ _ => by omega⟩
    have := hpositive hnone
    have := hzero hcondition
    omega
  · rw [if_neg hphase] at h
    exact ⟨by omega, fun heq => absurd heq hphase⟩

theorem on_iff_lt (h : l.Pairwise fun a b => compareActions a b ≤ 0) :
    ∀ i a, l[i]? = some a → (a.on = true ↔ i < (l.takeWhile Action.on).length) := by
  induction l with
  | nil => exact fun i a ha => nomatch ha
  | cons c l ih =>
    obtain ⟨hc, hl⟩ := List.pairwise_cons.1 h
    intro i a ha
    by_cases hon : c.on = true
    · rw [List.takeWhile_cons_of_pos hon, List.length_cons]
      cases i with
      | zero =>
        cases ha
        exact iff_of_true hon (Nat.succ_pos _)
      | succ i =>
        rw [ih hl i a ha]
        omega
    · rw [List.takeWhile_cons_of_neg hon]
      refine iff_of_false ?_ (Nat.not_lt_zero i)
      cases i with
      | zero =>
        cases ha
        exact hon
      | succ i =>
        intro ha'
        have hle := hc a (List.mem_of_getElem? ha)
        have hoff := eq_false_of_ne_true hon
        rw [compareActions, if_neg (by rw [hoff, ha']; decide), hoff, ha'] at hle
        exact absurd hle (by decide)

/-! ### The table -/

theorem linked_getElem {l' : List (Action Path)} (h : l'.map bare = l) (ha : l'[i]? = some a) :
    l[i]? = some (bare a) := by
  rw [← h, List.getElem?_map, ha]
  rfl

theorem refers_iff (hnodup : (l.map Action.nid).Nodup) (hb : b ∈ l) :
    Refers l i b.nid ↔ i ∈ b.referencedBy := by
  constructor
  · rintro ⟨c, hc, hnid, hi⟩
    rwa [← List.inj_on_of_nodup_map hnodup hc hb hnid]
  · exact fun hi => ⟨b, hb, rfl, hi⟩

section Linked

variable (hfound : t.found.length ≤ maxActions) (hperm : l.Perm (t.found.map (classify t)))
  (hordered : l.Pairwise fun a b => compareActions a b ≤ 0)

include hperm

theorem sorted_mem (ha : a ∈ l) : ∃ n ∈ t.found, classify t n = a :=
  List.mem_map.1 (hperm.mem_iff.1 ha)

theorem sorted_bare : l.map bare = l := by
  have hall : ∀ a ∈ l, bare a = id a := by
    intro a ha
    obtain ⟨n, -, rfl⟩ := sorted_mem hperm ha
    have hnone := (classify_spec t n).2.2
    rw [bare, ← hnone]
    rfl
  rw [List.map_congr_left hall, List.map_id]

theorem sorted_nids : (l.map Action.nid).Perm t.found := by
  have hnids : (t.found.map (classify t)).map Action.nid = t.found := by
    rw [List.map_map]
    exact (List.map_congr_left fun n _ => (classify_spec t n).1).trans (List.map_id _)
  exact hnids ▸ hperm.map Action.nid

theorem sorted_not_refers : ¬ Refers l i n := by
  intro ⟨c, hc, _, hi⟩
  obtain ⟨m, -, rfl⟩ := sorted_mem hperm hc
  rw [(classify_spec t m).2.2] at hi
  cases hi

theorem isAction_of_built {num m : ℕ} {tree : List ℕ}
    (h : Built t ⟨tree, t.shot, num, linkConditions t 0 (l.map Action.condition) l⟩)
    (hn : n ∈ t.found) (hm : m ∈ t.found) (hmention : Mentions t (classify t n) m) :
    t.isAction m = true := by
  have hbare : (linkConditions t 0 (l.map Action.condition) l).map bare = l :=
    (map_bare_linkConditions t 0 _ l).trans (sorted_bare hperm)
  have hlisted : ∀ k ∈ t.found, ∃ (i : ℕ) (a : Action Path),
      (linkConditions t 0 (l.map Action.condition) l)[i]? = some a ∧ bare a = classify t k := by
    intro k hk
    have hmem := hperm.mem_iff.2 (List.mem_map_of_mem hk)
    rw [← hbare] at hmem
    obtain ⟨a, ha, heq⟩ := List.mem_map.1 hmem
    obtain ⟨i, hi⟩ := List.mem_iff_getElem?.1 ha
    exact ⟨i, a, hi, heq⟩
  obtain ⟨i, a, hi, ha⟩ := hlisted n hn
  obtain ⟨j, b, hj, hb⟩ := hlisted m hm
  have hnid : b.nid = m := by
    rw [← (classify_spec t m).1, ← hb]
    rfl
  have hmentions : Mentions t a b.nid := by
    rw [hnid]
    rwa [← ha] at hmention
  have hrefers : Refers (linkConditions t 0 (l.map Action.condition) l) i m :=
    ⟨b, List.mem_of_getElem? hj, hnid, (h.referenced i j a b hi hj).2 hmentions⟩
  exact ((refers_linkConditions.1 hrefers).resolve_left (sorted_not_refers hperm)).2.1

include hordered

theorem sorted_inOrder :
    (l.take (l.takeWhile Action.on).length).Pairwise InOrder := by
  have htake : l.take (l.takeWhile Action.on).length = l.takeWhile Action.on :=
    (List.prefix_iff_eq_take.1 (List.takeWhile_prefix Action.on)).symm
  rw [htake]
  refine (hordered.sublist (List.takeWhile_sublist Action.on)).imp_of_mem ?_
  intro a b ha hb hle
  obtain ⟨n, -, rfl⟩ := sorted_mem hperm ((List.takeWhile_sublist Action.on).subset ha)
  obtain ⟨m, -, rfl⟩ := sorted_mem hperm ((List.takeWhile_sublist Action.on).subset hb)
  exact inOrder_of_le (List.mem_takeWhile_imp ha) (List.mem_takeWhile_imp hb) hle

include hfound

theorem built_of_sorted
    (hactions : ∀ n ∈ t.found, ∀ m ∈ t.found, Mentions t (classify t n) m → t.isAction m = true)
    (tree : List ℕ) : Built t ⟨tree, t.shot, (l.takeWhile Action.on).length,
      linkConditions t 0 (l.map Action.condition) l⟩ := by
  have hbare : (linkConditions t 0 (l.map Action.condition) l).map bare = l :=
    (map_bare_linkConditions t 0 _ l).trans (sorted_bare hperm)
  have hnids := sorted_nids hperm
  have hlinked : (linkConditions t 0 (l.map Action.condition) l).map Action.nid =
      l.map Action.nid := by
    rw [map_nid, hbare]
  refine ⟨?_, ?_, ?_, ?_, ?_⟩
  · rw [List.take_of_length_le hfound, hlinked]
    exact hnids
  · intro a ha
    have hmem : bare a ∈ l := hbare ▸ List.mem_map_of_mem ha
    obtain ⟨n, -, heq⟩ := sorted_mem hperm hmem
    have hnid : n = a.nid := by rw [← (classify_spec t n).1, heq]; rfl
    rw [← heq, hnid]
  · intro i a ha
    exact on_iff_lt hordered i (bare a) (linked_getElem hbare ha)
  · have htake : ((linkConditions t 0 (l.map Action.condition) l).take
        (l.takeWhile Action.on).length).map bare = l.take (l.takeWhile Action.on).length := by
      rw [List.map_take, hbare]
    have horder := sorted_inOrder hperm hordered
    rw [← htake, List.pairwise_map] at horder
    exact horder
  · intro i j a b ha hb
    have hai := linked_getElem hbare ha
    have hbj := linked_getElem hbare hb
    obtain ⟨n, hn, hna⟩ := sorted_mem hperm (List.mem_of_getElem? hai)
    have hbnid : b.nid ∈ l.map Action.nid :=
      List.mem_map.2 ⟨bare b, List.mem_of_getElem? hbj, rfl⟩
    have hcondition : (l.map Action.condition)[i]? = some a.condition := by
      rw [List.getElem?_map, hai]
      rfl
    rw [← refers_iff (hlinked ▸ hnids.nodup_iff.2 t.nodup) (List.mem_of_getElem? hb),
      refers_linkConditions, or_iff_right (sorted_not_refers hperm)]
    constructor
    · rintro ⟨⟨m, c, hc, rfl, hleaf⟩, -⟩
      rw [Nat.zero_add, hc] at hcondition
      exact ⟨c, (Option.some.inj hcondition).symm, hleaf⟩
    · rintro ⟨c, hc, hleaf⟩
      have hmention : Mentions t (classify t n) b.nid := hna ▸ ⟨c, hc, hleaf⟩
      refine ⟨⟨i, c, ?_, (Nat.zero_add i).symm, hleaf⟩, ?_, hbnid⟩
      · rw [hcondition, hc]
      · exact hactions n hn b.nid (hnids.mem_iff.1 hbnid) hmention

end Linked

/-! ### Any sort -/

theorem compareActions_total (a b : Action Path) :
    compareActions a b ≤ 0 ∨ compareActions b a ≤ 0 := by
  rw [compareActions, compareActions]
  by_cases hon : a.on = b.on
  · rw [if_pos hon, if_pos hon.symm]
    by_cases hphase : a.phase = b.phase
    · rw [if_pos hphase, if_pos hphase.symm]
      omega
    · rw [if_neg hphase, if_neg (Ne.symm hphase)]
      omega
  · rw [if_neg hon, if_neg (Ne.symm hon)]
    omega

theorem compareActions_trans {a b c : Action Path} (hab : compareActions a b ≤ 0)
    (hbc : compareActions b c ≤ 0) : compareActions a c ≤ 0 := by
  have hkey : ∀ a b : Action Path, compareActions a b ≤ 0 ↔
      b.on.toNat < a.on.toNat ∨ b.on.toNat = a.on.toNat ∧
        (a.phase < b.phase ∨ a.phase = b.phase ∧ a.sequence ≤ b.sequence) := by
    intro a b
    rw [compareActions]
    by_cases hon : a.on = b.on
    · rw [if_pos hon, hon]
      split <;> omega
    · have hne : b.on.toNat ≠ a.on.toNat := by
        revert hon
        cases a.on <;> cases b.on <;> decide
      rw [if_neg hon]
      omega
  rw [hkey] at hab hbc ⊢
  omega

def cautious : QSort Path where
  compared l := l.flatMap fun a => l.map fun b => (a, b)
  sorted l := l.mergeSort fun a b => compareActions a b ≤ 0
  compared_mem := by
    intro l p hp
    obtain ⟨a, ha, hp⟩ := List.mem_flatMap.1 hp
    obtain ⟨b, hb, rfl⟩ := List.mem_map.1 hp
    exact ⟨ha, hb⟩
  perm l _ := List.mergeSort_perm l _
  ordered l _ := by
    have htrans : ∀ a b c : Action Path, decide (compareActions a b ≤ 0) = true →
        decide (compareActions b c ≤ 0) = true → decide (compareActions a c ≤ 0) = true := by
      intro a b c hab hbc
      exact decide_eq_true (compareActions_trans (of_decide_eq_true hab) (of_decide_eq_true hbc))
    have htotal : ∀ a b : Action Path,
        (decide (compareActions a b ≤ 0) || decide (compareActions b a ≤ 0)) = true := by
      intro a b
      rw [Bool.or_eq_true, decide_eq_true_eq, decide_eq_true_eq]
      exact compareActions_total a b
    exact (List.pairwise_mergeSort htrans htotal l).imp fun h => of_decide_eq_true h

theorem run_cautious : (∃ r, cautious.run l = .ok r) ↔ ∀ a ∈ l, ∀ b ∈ l, Comparable a b := by
  have hall : (∀ p ∈ cautious.compared l, Comparable p.1 p.2) ↔
      ∀ a ∈ l, ∀ b ∈ l, Comparable a b := by
    constructor
    · intro h a ha b hb
      exact h (a, b) (List.mem_flatMap.2 ⟨a, ha, List.mem_map_of_mem hb⟩)
    · intro h p hp
      obtain ⟨ha, hb⟩ := cautious.compared_mem l p hp
      exact h _ ha _ hb
  rw [← hall, QSort.run]
  by_cases hp : ∀ p ∈ cautious.compared l, Comparable p.1 p.2
  · rw [if_pos hp]
    exact iff_of_true ⟨_, rfl⟩ hp
  · rw [if_neg hp]
    exact iff_of_false (fun ⟨r, hr⟩ => nomatch hr) hp

theorem run_ok (q : QSort Path) (h : ∀ a ∈ l, ∀ b ∈ l, Comparable a b) :
    q.run l = .ok (q.sorted l) := by
  apply if_pos
  intro p hp
  obtain ⟨ha, hb⟩ := q.compared_mem l p hp
  exact h _ ha _ hb

/-! ### When a table is what is asked for -/

theorem Fits.holds (h : Fits t) (q : QSort Path) : Holds q t := by
  obtain ⟨tree, htree⟩ := (copyName_iff t.name).2 h.name
  rw [Holds, serverBuildDispatchTable, htree, ok_bind]
  by_cases hshot : t.shot = -1
  · rw [if_pos hshot]
    exact ⟨none, rfl, nofun⟩
  obtain ⟨hlength, hcomparable, hactions⟩ := h.found.resolve_left hshot
  rw [if_neg hshot, collect_eq _ _ (Nat.zero_le _), List.length_nil, Nat.zero_add,
    if_pos hlength, ok_bind, List.nil_append]
  by_cases hnil : t.found = []
  · rw [if_pos hnil]
    exact ⟨none, rfl, nofun⟩
  have hall : ∀ a ∈ t.found.map (classify t), ∀ b ∈ t.found.map (classify t), Comparable a b := by
    intro a ha b hb
    obtain ⟨n, hn, rfl⟩ := List.mem_map.1 ha
    obtain ⟨m, hm, rfl⟩ := List.mem_map.1 hb
    exact hcomparable n hn m hm
  rw [if_neg hnil, run_ok q hall, ok_bind]
  refine ⟨_, rfl, ?_⟩
  intro table htable
  cases htable
  exact built_of_sorted hlength (q.perm _ hall) (q.ordered _ hall) hactions tree

theorem Fits.of_holds (h : Holds cautious t) : Fits t := by
  obtain ⟨r, hr, hbuilt⟩ := h
  rw [serverBuildDispatchTable] at hr
  obtain ⟨tree, htree, hr⟩ := bind_eq_ok.1 hr
  refine ⟨(copyName_iff t.name).1 ⟨tree, htree⟩, ?_⟩
  by_cases hshot : t.shot = -1
  · exact Or.inl hshot
  right
  rw [if_neg hshot] at hr
  obtain ⟨nids, hnids, hr⟩ := bind_eq_ok.1 hr
  rw [collect_eq _ _ (Nat.zero_le _), List.length_nil, Nat.zero_add, List.nil_append] at hnids
  by_cases hlength : t.found.length ≤ maxActions
  · rw [if_pos hlength] at hnids
    cases hnids
    refine ⟨hlength, ?_⟩
    by_cases hnil : t.found = []
    · rw [hnil]
      exact ⟨nofun, nofun⟩
    rw [if_neg hnil] at hr
    obtain ⟨actions, hrun, hr⟩ := bind_eq_ok.1 hr
    have hall := run_cautious.1 ⟨actions, hrun⟩
    have hmem : ∀ n ∈ t.found, classify t n ∈ t.found.map (classify t) :=
      fun n hn => List.mem_map_of_mem hn
    refine ⟨fun n hn m hm => hall _ (hmem n hn) _ (hmem m hm), ?_⟩
    intro n hn m hm hmention
    rw [run_ok cautious hall] at hrun
    cases hrun
    cases hr
    exact isAction_of_built (cautious.perm _ hall) (hbuilt _ rfl) hn hm hmention
  · rw [if_neg hlength] at hnids
    cases hnids

/-- With every sort the table that is made is what is asked for, exactly if the tree fits. -/
theorem serverBuild_holds_iff (t : Tree Path) : (∀ q : QSort Path, Holds q t) ↔ Fits t :=
  ⟨fun h => Fits.of_holds (h cautious), Fits.holds⟩

def plainTree (name : List ℕ) (h : 0 ∉ name) : Tree Unit where
  name := name
  shot := 1
  found := [1]
  isOn _ := false
  dispatchOf _ := none
  isAction _ := true
  findNode _ := none
  no_zero := h
  nodup := List.nodup_singleton 1

/-- A name of eleven characters leaves no room for the zero that is put behind twelve bytes. -/
theorem longName_overruns :
    serverBuildDispatchTable cautious (plainTree (List.replicate 11 65) (by decide)) =
        .error .overrun ∧
      ¬ Holds cautious (plainTree (List.replicate 11 65) (by decide)) :=
  ⟨rfl, fun ⟨_, hr, _⟩ => nomatch hr⟩

end MdsPlus.DispatchBuild
