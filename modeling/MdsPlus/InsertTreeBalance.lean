import MdsPlus.InsertTreeRuns
import Mathlib.Data.List.Induction
import Mathlib.Data.List.Pairwise

/-!
Balances. They should be the differences of the heights of subtrees, but stay zero. So they
are right for a tree of one node, and wrong from the second node on.
-/

namespace MdsPlus.InsertTreeBalance

open InsertTree InsertTreeRuns

variable {κ : Type*}

def height : LibTreeNode κ → ℕ
  | .empty => 0
  | .node _ _ _ left right => max (height left) (height right) + 1

def Balanced : LibTreeNode κ → Prop
  | .empty => True
  | .node _ _ bal left right =>
      bal = (height right : ℤ) - height left ∧ -1 ≤ bal ∧ bal ≤ 1 ∧ Balanced left ∧ Balanced right

def leaf (block : ℕ) (key : κ) : LibTreeNode κ := .node block key 0 .empty .empty

theorem balanced_leaf (block : ℕ) (key : κ) : Balanced (leaf block key) :=
  ⟨rfl, by decide, by decide, trivial, trivial⟩

/-- Two calls after which there is one node: an allocation fails, or the second finds the
first. -/
def Once (c d : Call κ) : Prop :=
  c.allocates = true → d.allocates = true → c.key = d.key ∧ d.flags % 2 = 0

def OneNode (head : LibTreeNode κ) (calls : List (Call κ)) : Prop :=
  (head = .empty ∧ ∀ c ∈ calls, c.allocates = false) ∨
    ∃ block, ∃ c ∈ calls, c.allocates = true ∧ head = leaf block c.key

theorem OneNode.balanced {head : LibTreeNode κ} {calls : List (Call κ)} (h : OneNode head calls) :
    Balanced head := by
  rcases h with ⟨rfl, -⟩ | ⟨block, c, -, -, rfl⟩
  · trivial
  · exact balanced_leaf block c.key

theorem key_eq_of_once {calls : List (Call κ)} (h : calls.Pairwise Once) {c d : Call κ}
    (hc : c ∈ calls) (hd : d ∈ calls) (hca : c.allocates = true) (hda : d.allocates = true) :
    c.key = d.key := by
  have hsymm : Std.Symm fun c d : Call κ =>
      c.allocates = true → d.allocates = true → c.key = d.key :=
    ⟨fun _ _ h hd hc => (h hc hd).symm⟩
  have hkeys : calls.Pairwise fun c d : Call κ =>
      c.allocates = true → d.allocates = true → c.key = d.key :=
    h.imp fun h hc hd => (h hc hd).1
  exact hkeys.forall_of_forall (fun _ _ _ _ => rfl) hc hd hca hda

variable [LinearOrder κ] (cmp : Comparison κ)

theorem not_balanced_second (key : κ) (next block : ℕ) (k : κ) :
    ¬ Balanced (plain cmp.compare key next (leaf block k)) := by
  unfold plain leaf
  simp only
  split
  · rintro ⟨hbal, -⟩
    simp [plain, height] at hbal
  · rintro ⟨hbal, -⟩
    simp [plain, height] at hbal

theorem run_append {s t : State κ} {calls more : List (Call κ)} {replies : List Reply}
    (hrun : run cmp.compare s calls = some (t, replies)) :
    run cmp.compare s (calls ++ more) =
      (run cmp.compare t more).map fun p => (p.1, replies ++ p.2) := by
  induction calls generalizing s replies with
  | nil =>
    cases hrun
    simp
  | cons c calls ih =>
    obtain ⟨u, reply, hstep, -⟩ := step_effect cmp s c
    simp only [run, hstep, Option.bind_some, Option.map_eq_some_iff] at hrun
    obtain ⟨⟨v, rest⟩, hrest, heq⟩ := hrun
    cases heq
    simp only [List.cons_append, run, hstep, Option.bind_some, ih hrest, Option.map_map]
    rfl

theorem lookup_leaf (block : ℕ) (key : κ) :
    libLookupTree cmp.compare key (leaf block key) = some block := by
  unfold libLookupTree leaf
  exact if_pos ((cmp.zero key key).2 rfl)

theorem lookup_leaf_ne {key k : κ} (block : ℕ) (hne : key ≠ k) :
    libLookupTree cmp.compare key (leaf block k) = none := by
  unfold leaf
  simp only [libLookupTree, if_neg (fun h => hne ((cmp.zero key k).1 h)), ite_self]

theorem OneNode.step {s s' : State κ} {calls : List (Call κ)} {d : Call κ} {reply : Reply}
    (h : OneNode s.head calls) (honce : ∀ c ∈ calls, Once c d)
    (heffect : Effect cmp s d s' reply) : OneNode s'.head (calls ++ [d]) := by
  have hd : d ∈ calls ++ [d] := List.mem_append_right _ List.mem_cons_self
  have hkeep : ∀ c ∈ calls, c ∈ calls ++ [d] := fun c hc => List.mem_append_left _ hc
  rcases h with ⟨hempty, hnone⟩ | ⟨block, c, hc, halloc, hhead⟩
  · cases heffect with
    | present block hflags hfound =>
      rw [hempty] at hfound
      cases hfound
    | failed hnew hno =>
      refine Or.inl ⟨hempty, ?_⟩
      intro c hc
      rcases List.mem_append.1 hc with hc | hc
      · exact hnone c hc
      · rw [List.mem_singleton.1 hc]
        exact hno
    | inserted hnew hyes =>
      refine Or.inr ⟨s.next, d, hd, hyes, ?_⟩
      rw [hempty]
      rfl
  · cases heffect with
    | present _ hflags hfound => exact Or.inr ⟨block, c, hkeep c hc, halloc, hhead⟩
    | failed hnew hno => exact Or.inr ⟨block, c, hkeep c hc, halloc, hhead⟩
    | inserted hnew hyes =>
      obtain ⟨hkey, hflags⟩ := honce c hc halloc hyes
      have hlookup := hnew hflags
      rw [hhead, ← hkey, lookup_leaf] at hlookup
      cases hlookup

theorem oneNode_run {calls : List (Call κ)} (h : calls.Pairwise Once) :
    ∃ s replies, run cmp.compare start calls = some (s, replies) ∧ OneNode s.head calls := by
  induction calls using List.reverseRec with
  | nil => exact ⟨start, [], rfl, Or.inl ⟨rfl, fun c hc => by cases hc⟩⟩
  | append_singleton calls d ih =>
    obtain ⟨hcalls, -, honce⟩ := List.pairwise_append.1 h
    obtain ⟨s, replies, hrun, hone⟩ := ih hcalls
    obtain ⟨s', reply, hstep, heffect⟩ := step_effect cmp s d
    refine ⟨s', replies ++ [reply], ?_, ?_⟩
    · rw [run_append cmp hrun]
      simp only [run, hstep, Option.bind_some, Option.map_some]
    · exact hone.step cmp (fun c hc => honce c hc d List.mem_cons_self) heffect

/-- The balances are right after every call if and only if no two calls make a node each. -/
theorem balanced_run (calls : List (Call κ)) :
    (∀ n s replies, run cmp.compare start (calls.take n) = some (s, replies) → Balanced s.head) ↔
      calls.Pairwise Once := by
  constructor
  · intro h
    induction calls using List.reverseRec with
    | nil => exact List.Pairwise.nil
    | append_singleton calls d ih =>
      have hcalls : calls.Pairwise Once := by
        refine ih fun n s replies hrun => ?_
        refine h (min n calls.length) s replies ?_
        rwa [List.take_append_of_le_length (by omega), ← List.take_eq_take_min]
      refine List.pairwise_append.2 ⟨hcalls, List.pairwise_singleton _ _, ?_⟩
      intro c hc e he hca hea
      obtain rfl := List.mem_singleton.1 he
      obtain ⟨s, replies, hrun, hone⟩ := oneNode_run cmp hcalls
      rcases hone with ⟨-, hnone⟩ | ⟨block, c', hc', hca', hhead⟩
      · rw [hnone c hc] at hca
        cases hca
      · by_contra hnot
        have hkey := key_eq_of_once hcalls hc hc' hca hca'
        have hnew : e.flags % 2 = 0 → libLookupTree cmp.compare e.key s.head = none := by
          intro hflags
          rw [hhead]
          refine lookup_leaf_ne cmp block fun heq => hnot ⟨?_, hflags⟩
          rw [hkey, heq]
        have hstep := step_new cmp hnew
        rw [if_pos hea, hhead] at hstep
        have hrun' : run cmp.compare start ((calls ++ [e]).take (calls.length + 1)) =
            some (⟨plain cmp.compare e.key s.next (leaf block c'.key), s.next + 1⟩,
              replies ++ [⟨some s.next, .inserted⟩]) := by
          rw [List.take_of_length_le (by simp), run_append cmp hrun]
          simp only [run, hstep, Option.bind_some, Option.map_some]
        exact not_balanced_second cmp e.key s.next block c'.key (h _ _ _ hrun')
  · intro h n s replies hrun
    obtain ⟨s', replies', hrun', hone⟩ :=
      oneNode_run cmp (h.sublist (List.take_sublist n calls))
    obtain ⟨rfl, -⟩ := Prod.mk.inj (Option.some.inj (hrun.symm.trans hrun'))
    exact hone.balanced

def twoKeys : List (Call ℤ) := [⟨1, 0, true⟩, ⟨2, 0, true⟩]

/-- The balance of the first node stays zero when the second is put to its right. -/
theorem not_balanced_twoKeys : ∃ s replies,
    run (fun a b => a - b) start twoKeys = some (s, replies) ∧ ¬ Balanced s.head := by
  refine ⟨⟨.node 0 1 0 .empty (.node 1 2 0 .empty .empty), 2⟩,
    [⟨some 0, .inserted⟩, ⟨some 1, .inserted⟩], by decide, ?_⟩
  rintro ⟨hbal, -⟩
  simp [height] at hbal

end MdsPlus.InsertTreeBalance
