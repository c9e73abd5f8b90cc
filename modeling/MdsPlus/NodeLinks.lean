import MdsPlus.BitMemory
import MdsPlus.NodeTree
import MdsPlus.Subtrees
import MdsPlus.Traversals

/-!
The links between the nodes of the trees that are open. Within a tree a link is the distance to
the other node; a reference has the node identifier of the top node of its subtree as child, and
this has those of the parent and of the brother of the reference. In the place of a reference one
comes to the top node.
-/

namespace MdsPlus.NodeLinks

open BitMemory Traversals
open NodeTree (Kind)
open Subtrees (Address Nid maxNodes)

def TreeUSAGE_SUBTREE : Byte := 11
def TreeUSAGE_SUBTREE_REF : Byte := 14
def TreeUSAGE_SUBTREE_TOP : Byte := 15

def nodeSize : ℤ := 36

/-- A name of twelve characters, four links and the usage. -/
structure Node where
  name : List Byte
  parent : BitVec 32
  member : BitVec 32
  brother : BitVec 32
  child : BitVec 32
  usage : Byte

/-- The numbers of nodes in the headers of the trees, and the node tables. -/
structure Store where
  nodes : List ℕ
  node : Address → Node

def nidOf (link : BitVec 32) : Nid := ⟨link.toNat / maxNodes, link.toNat % maxNodes⟩

def nidToNode (s : Store) (nid : Nid) : Option Address :=
  match s.nodes[nid.tree]? with
  | some nodes => if nid.node ≤ nodes then some (nid.tree, nid.node) else none
  | none => none

def behind (a : Address) (offset : BitVec 32) : Address :=
  (a.1, ((a.2 : ℤ) + offset.toInt / nodeSize).toNat)

def parentOf (s : Store) (a : Address) : Option Address :=
  if (s.node a).usage = TreeUSAGE_SUBTREE_TOP then nidToNode s (nidOf (s.node a).parent)
  else if (s.node a).parent ≠ 0 then some (behind a (s.node a).parent)
  else none

def memberOf (s : Store) (a : Address) : Option Address :=
  if (s.node a).member ≠ 0 then some (behind a (s.node a).member) else none

/-- The top node in the place of a reference. -/
def resolve (s : Store) (a : Address) : Option Address :=
  if (s.node a).usage = TreeUSAGE_SUBTREE_REF then nidToNode s (nidOf (s.node a).child) else some a

def childOf (s : Store) (a : Address) : Option Address :=
  if (s.node a).child ≠ 0 then
    if (s.node a).usage = TreeUSAGE_SUBTREE_REF then
      (nidToNode s (nidOf (s.node a).child)).bind (resolve s)
    else resolve s (behind a (s.node a).child)
  else none

def brotherOf (s : Store) (a : Address) : Option Address :=
  if (s.node a).brother ≠ 0 then
    if (s.node a).usage = TreeUSAGE_SUBTREE_TOP then
      (nidToNode s (nidOf (s.node a).brother)).bind (resolve s)
    else (resolve s (behind a (s.node a).brother)).bind (resolve s)
  else none

def descendantOf (s : Store) (a : Address) : Option Address :=
  match memberOf s a with
  | some m => some m
  | none => childOf s a

def isMember (s : Store) (fuel : ℕ) (a : Address) : Option Bool :=
  match parentOf s a with
  | none => some false
  | some p => reaches (brotherOf s) a fuel (memberOf s p)

/-- Behind the last member come the children. -/
def siblingOf (s : Store) (fuel : ℕ) (a : Address) : Option (Option Address) :=
  match brotherOf s a with
  | some b => some (some b)
  | none => (isMember s fuel a).map fun member =>
      if member then (parentOf s a).bind (childOf s) else none

def brothers (s : Store) (a : Address) : Option (Option Address) := some (brotherOf s a)

/-- Trees that are open: the nodes that belong to them, the others being free, and for each of
them the lists of members and of children that the links run through. No name has a star. -/
structure OpenTrees where
  store : Store
  nodes : Address → Prop
  kids : Kind → Address → List Address
  inside : ∀ {k p c}, c ∈ kids k p → nodes p ∧ nodes c
  members : ∀ a, nodes a → Chain (brothers store) (memberOf store a) (kids .member a)
  children : ∀ a, nodes a → Chain (brothers store) (childOf store a) (kids .child a)
  parent : ∀ {k p c}, c ∈ kids k p → parentOf store c = some p
  apart : ∀ {p c}, c ∈ kids .member p → c ∉ kids .child p
  ends : WellFounded fun c p => ∃ k, c ∈ kids k p
  named : ∀ a, nodes a → 42 ∉ (store.node a).name

namespace OpenTrees

variable (T : OpenTrees) {a p c : Address}

theorem kids_nodup (k : Kind) (p : Address) : (T.kids k p).Nodup := by
  cases hkids : T.kids k p with
  | nil => exact List.nodup_nil
  | cons c l =>
    have hp : T.nodes p := (T.inside (k := k) (c := c) (by simp [hkids])).1
    rw [← hkids]
    cases k with
    | child => exact (T.children p hp).nodup
    | member => exact (T.members p hp).nodup

theorem ends_of_subset {kids : Address → List Address}
    (h : ∀ p, ∀ c ∈ kids p, ∃ k, c ∈ T.kids k p) : WellFounded fun c p => c ∈ kids p :=
  Subrelation.wf (fun {c p} hc => h p c hc) T.ends

theorem parent_unique {j k : Kind} {q : Address} (hp : c ∈ T.kids j p) (hq : c ∈ T.kids k q) :
    p = q :=
  Option.some.inj ((T.parent hp).symm.trans (T.parent hq))

def forest (k : Kind) : Forest Address where
  kids := T.kids k
  nodup := T.kids_nodup k
  once := T.parent_unique
  ends := T.ends_of_subset fun _ _ hc => ⟨k, hc⟩

def allKids (p : Address) : List Address := T.kids .member p ++ T.kids .child p

theorem mem_allKids : c ∈ T.allKids p ↔ ∃ k, c ∈ T.kids k p := by
  rw [allKids, List.mem_append]
  constructor
  · rintro (h | h)
    · exact ⟨.member, h⟩
    · exact ⟨.child, h⟩
  · rintro ⟨k, h⟩
    cases k with
    | child => exact Or.inr h
    | member => exact Or.inl h

def bothForest : Forest Address where
  kids := T.allKids
  nodup p := List.nodup_append'.2 ⟨T.kids_nodup .member p, T.kids_nodup .child p,
    fun _ hmember hchild => T.apart hmember hchild⟩
  once hp hq := by
    obtain ⟨j, hj⟩ := T.mem_allKids.1 hp
    obtain ⟨k, hk⟩ := T.mem_allKids.1 hq
    exact T.parent_unique hj hk
  ends := T.ends_of_subset fun _ _ hc => T.mem_allKids.1 hc

theorem isMember_eq {fuel : ℕ} (hc : c ∈ T.allKids p)
    (hfuel : (T.kids .member p).length ≤ fuel) :
    isMember T.store fuel c = some (decide (c ∈ T.kids .member p)) := by
  obtain ⟨k, hk⟩ := T.mem_allKids.1 hc
  rw [isMember, T.parent hk]
  exact (reaches_eq (T.members p (T.inside hk).1) c hfuel).trans
    (congrArg some (decide_eq_decide.2 Iff.rfl))

theorem siblingOf_eq {fuel : ℕ} (hc : c ∈ T.allKids p)
    (hfuel : (T.kids .member p).length ≤ fuel) :
    siblingOf T.store fuel c = some (match brotherOf T.store c with
      | some b => some b
      | none => if c ∈ T.kids .member p then childOf T.store p else none) := by
  obtain ⟨k, hk⟩ := T.mem_allKids.1 hc
  rw [siblingOf]
  cases hbrother : brotherOf T.store c with
  | some b => rfl
  | none =>
    rw [T.isMember_eq hc hfuel, T.parent hk]
    by_cases hmember : c ∈ T.kids .member p <;> simp [hmember]

theorem chain_children {fuel : ℕ} (hp : T.nodes p)
    (hfuel : (T.kids .member p).length ≤ fuel) :
    Chain (siblingOf T.store fuel) (childOf T.store p) (T.kids .child p) := by
  refine (T.children p hp).congr fun c hc => ?_
  have hnot : c ∉ T.kids .member p := fun hmember => T.apart hmember hc
  rw [T.siblingOf_eq (T.mem_allKids.2 ⟨_, hc⟩) hfuel, if_neg hnot, brothers]
  cases brotherOf T.store c <;> rfl

theorem chain_allKids {fuel : ℕ} (hp : T.nodes p) (hfuel : (T.kids .member p).length ≤ fuel) :
    Chain (siblingOf T.store fuel) (descendantOf T.store p) (T.allKids p) := by
  have hchildren := T.chain_children hp hfuel
  have hsuffix : ∀ l start, Chain (brothers T.store) start l → l ≠ [] →
      (∀ c ∈ l, c ∈ T.kids .member p) →
      Chain (siblingOf T.store fuel) start (l ++ T.kids .child p) := by
    intro l
    induction l with
    | nil => exact fun start _ hne _ => absurd rfl hne
    | cons c l ih =>
      rintro start ⟨rfl, after, hafter, hrest⟩ - hmembers
      have hc := hmembers c List.mem_cons_self
      obtain rfl : brotherOf T.store c = after := Option.some.inj hafter
      refine ⟨rfl, _, T.siblingOf_eq (T.mem_allKids.2 ⟨_, hc⟩) hfuel, ?_⟩
      cases l with
      | nil =>
        have hnone : brotherOf T.store c = none := hrest
        rw [hnone, if_pos hc]
        exact hchildren
      | cons d l =>
        have hbrother : brotherOf T.store c = some d := hrest.1
        rw [hbrother]
        rw [hbrother] at hrest
        exact ih (some d) hrest (List.cons_ne_nil d l) fun e he =>
          hmembers e (List.mem_cons_of_mem c he)
  have hmembers := T.members p hp
  rw [descendantOf, hmembers.start_eq]
  cases hkids : T.kids .member p with
  | nil =>
    rw [allKids, hkids]
    exact hchildren
  | cons c l =>
    rw [allKids, ← hkids]
    rw [hmembers.start_eq, hkids] at hmembers
    rw [hkids]
    exact hsuffix (c :: l) (some c) hmembers (List.cons_ne_nil c l) fun d hd => hkids ▸ hd

end OpenTrees

end MdsPlus.NodeLinks
