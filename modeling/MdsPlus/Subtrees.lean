import Mathlib.Algebra.Group.Nat.Defs
import Mathlib.Data.List.Infix
import Mathlib.Logic.Relation

/-!
The trees that a tree is opened with. A tree file has references to other trees; the files
of these are mapped, and a reference is linked with the top node of the tree that it names.
Connecting a tree calls itself for its references: a call is what is left of the references
that it goes through.
-/

namespace MdsPlus.Subtrees

abbrev Name := List Char

/-- A node by the position of its tree in the list of tree infos and by its number. -/
abbrev Address := ℕ × ℕ

/-- A node identifier, eight bits for the tree and twenty-four for the node. -/
structure Nid where
  tree : ℕ
  node : ℕ
  deriving DecidableEq

def Nid.zero : Nid := ⟨0, 0⟩

def maxSubtrees : ℕ := 256
def maxNodes : ℕ := 2 ^ 24

/-- A tree file as far as references go. Links are within the file; every node but the top
has a parent and may have a brother. -/
structure TreeFile where
  nodes : ℕ
  name : ℕ → Name
  isSubtree : ℕ → Bool
  parent : ℕ → Option ℕ
  brother : ℕ → Option ℕ
  child : ℕ → Option ℕ
  externals : List ℕ
  nodes_le : nodes ≤ maxNodes
  parent_top : parent 0 = none
  parent_external : ∀ n ∈ externals, n ≠ 0 → ∃ p < nodes, parent n = some p
  brother_external : ∀ n ∈ externals, ∀ b, brother n = some b → b < nodes ∧ b ≠ 0 ∧ b ≠ n

structure World where
  files : List (Name × TreeFile)
  subtreeList : Option Name

def World.file (W : World) (tree : Name) : Option TreeFile :=
  (W.files.find? fun p => p.1 = tree).map Prod.snd

def World.inList (W : World) (tree : Name) : Bool :=
  match W.subtreeList with
  | none => true
  | some list => decide ((',' :: tree ++ [',']) <:+: (',' :: list ++ [',']))

/-- The trees that are mapped, the main tree first. References that are linked have a node
identifier as child, and top nodes of subtrees have two as parent and brother. -/
structure State where
  infos : List (Name × TreeFile)
  child : Address → Option Nid
  top : ℕ → Option (Nid × Nid)

def State.file (s : State) (i : ℕ) : Option TreeFile := (s.infos[i]?).map Prod.snd

def State.treeName (s : State) (a : Address) : Name :=
  match s.file a.1 with
  | some f => (f.name a.2).takeWhile (· ≠ ' ')
  | none => []

def nidToNode (s : State) (nid : Nid) : Option Address :=
  match s.file nid.tree with
  | some f => if nid.node ≤ f.nodes then some (nid.tree, nid.node) else none
  | none => none

def nodeToNid : Option Address → Nid
  | some a => ⟨a.1 % maxSubtrees, a.2 % maxNodes⟩
  | none => .zero

/-- The links of a top node that is connected. -/
def State.topOf (s : State) (a : Address) : Option (Nid × Nid) :=
  if a.2 = 0 then s.top a.1 else none

def parentOf (s : State) (a : Address) : Option Address :=
  match s.topOf a with
  | some (parent, _) => nidToNode s parent
  | none => ((s.file a.1).bind fun f => f.parent a.2).map fun n => (a.1, n)

/-- In the place of a reference there is the top node of its tree. -/
def resolve (s : State) (a : Address) : Option Address :=
  match s.child a with
  | some nid => nidToNode s nid
  | none => some a

def brotherOf (s : State) (a : Address) : Option Address :=
  match s.topOf a with
  | some (_, brother) => if brother = .zero then none else (nidToNode s brother).bind (resolve s)
  | none =>
      (((s.file a.1).bind fun f => f.brother a.2).bind fun n => resolve s (a.1, n)).bind (resolve s)

def childOf (s : State) (a : Address) : Option Address :=
  match s.child a with
  | some nid => if nid = .zero then none else (nidToNode s nid).bind (resolve s)
  | none => ((s.file a.1).bind fun f => f.child a.2).bind fun n => resolve s (a.1, n)

/-- The node has the usage of a reference that is not linked. -/
def State.isReference (s : State) (a : Address) : Bool :=
  match s.file a.1 with
  | some f => f.isSubtree a.2 && (s.child a).isNone && (s.topOf a).isNone
  | none => false

def subtreeNodeConnect (s : State) (a : Address) (j : ℕ) : State :=
  { s with
    child := Function.update s.child a (some (nodeToNid (some (j, 0))))
    top := Function.update s.top j (some (nodeToNid (parentOf s a), nodeToNid (brotherOf s a))) }

def findInfo (s : State) (tree : Name) : Option ℕ := s.infos.findIdx? fun p => p.1 = tree

def externals (f : TreeFile) (i : ℕ) : List Address := f.externals.map fun n => (i, n)

def mapTree (s : State) (a : Address) (f : TreeFile) : State :=
  subtreeNodeConnect { s with infos := s.infos ++ [(s.treeName a, f)] } a s.infos.length

/-- Connect the tree that a reference names; what is left to do are its own references. -/
def connectTree (W : World) (s : State) (a : Address) : State × List Address :=
  if s.isReference a && W.inList (s.treeName a) then
    match findInfo s (s.treeName a) with
    | some j => (s, ((s.file j).map fun f => externals f j).getD [])
    | none =>
        match W.file (s.treeName a) with
        | some f => (mapTree s a f, externals f s.infos.length)
        | none => (s, [])
  else (s, [])

/-- What is open and the calls that have not returned, the last one first. -/
abbrev Config := State × List (List Address)

def step (W : World) : Config → Config
  | (s, []) => (s, [])
  | (s, [] :: calls) => (s, calls)
  | (s, (a :: frame) :: calls) => ((connectTree W s a).1, (connectTree W s a).2 :: frame :: calls)

def unmapped : State := ⟨[], fun _ => none, fun _ => none⟩

def start (W : World) (main : Name) : Config :=
  if W.inList main then
    match W.file main with
    | some f => ({ unmapped with infos := [(main, f)] }, [externals f 0])
    | none => (unmapped, [])
  else (unmapped, [])

def run (W : World) (main : Name) (n : ℕ) : Config := (step W)^[n] (start W main)

/-- References that are linked have the top node of the tree that they name as child, and
this has their parent and their brother. -/
def Linked (s : State) : Prop :=
  ∀ a, s.child a ≠ none → ∃ j f, s.infos[j]? = some (s.treeName a, f) ∧
    childOf s a = some (j, 0) ∧ parentOf s (j, 0) = parentOf s a ∧ brotherOf s (j, 0) = brotherOf s a

/-- The tree is opened: all calls return, no tree is mapped twice, and references are linked. -/
def Opened (W : World) (main : Name) : Prop :=
  ∃ n, (run W main n).2 = [] ∧ ((run W main n).1.infos.map Prod.fst).Nodup ∧
    Linked (run W main n).1

def External (s : State) (a : Address) : Prop := ∃ f, s.file a.1 = some f ∧ a.2 ∈ f.externals

def LeftOver (W : World) (s : State) (a : Address) (j : ℕ) : Prop :=
  External s a ∧ s.isReference a ∧ W.inList (s.treeName a) ∧ findInfo s (s.treeName a) = some j

/-- A reference of one tree to another is left over. -/
def Unconnected (W : World) (s : State) (i j : ℕ) : Prop := ∃ n, LeftOver W s (i, n) j

/-- The references that are left over close no cycle of trees, the trees have different
numbers, and the main tree is no reference itself. -/
structure Fine (W : World) (s : State) : Prop where
  acyclic : ∀ i, ¬ Relation.TransGen (Unconnected W s) i i
  trees : s.infos.length ≤ maxSubtrees
  main : s.child (0, 0) = none

/-! ### What a call does -/

theorem connectTree_cases (W : World) (s : State) (a : Address) :
    connectTree W s a = (s, []) ∨
    (∃ j f, s.isReference a ∧ W.inList (s.treeName a) ∧ findInfo s (s.treeName a) = some j ∧
      s.file j = some f ∧ connectTree W s a = (s, externals f j)) ∨
    (∃ f, s.isReference a ∧ findInfo s (s.treeName a) = none ∧
      connectTree W s a = (mapTree s a f, externals f s.infos.length) ∧
      W.file (s.treeName a) = some f) := by
  unfold connectTree
  split
  · rename_i h
    simp only [Bool.and_eq_true] at h
    obtain ⟨href, hlist⟩ := h
    split
    · rename_i j hj
      rcases hfile : s.file j with _ | f
      · left
        simp
      · right
        left
        exact ⟨j, f, href, hlist, hj, hfile, by simp⟩
    · rename_i hnone
      split
      · rename_i f hf
        right
        right
        exact ⟨f, href, hnone, rfl, hf⟩
      · left
        rfl
  · left
    rfl

end MdsPlus.Subtrees
