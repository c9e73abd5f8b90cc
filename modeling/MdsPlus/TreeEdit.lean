import MdsPlus.ParentState
import MdsPlus.Outcome

/-!
Editing a tree: nodes are added, renamed to another place, and turned on and off. Paths
are given as they were looked up. A new node takes the first slot of the free list.
-/

namespace MdsPlus.TreeEdit

open NodeTree ParentState

def TreeUSAGE_ANY : ℤ := 0
def TreeUSAGE_STRUCTURE : ℤ := 1
def TreeUSAGE_SUBTREE : ℤ := 11
def TreeUSAGE_MAXIMUM : ℤ := 13

def EXTEND_NODES : ℕ := 512

inductive Status
  | success | alreadyOn | alreadyOff | parentOff | alreadyThere | nodeNotFound | invPath | invTree
  | searchFailed
  deriving DecidableEq, Repr

/-- What the code does not notice: a name that runs over the links behind it, or a node
put below itself. -/
inductive Fault
  | overrun | cycle
  deriving DecidableEq, Repr

structure State where
  tree : Tree
  /-- Characteristics by node number. -/
  nci : ℕ → Flags
  /-- Slots, free or not. -/
  nodes : ℕ
  free : List ℕ
  sortChildren : Bool
  sortMembers : Bool
  conglomerateSize : BitVec 16
  conglomerateIndex : BitVec 16
  conglomerateElt : ℕ → BitVec 16

/-- How the search for a path ends. -/
inductive Search
  | found | notFound | failed
  deriving DecidableEq

/-- A path as it was looked up: whether its node is there, and the node it is to be put
under, by which separator and with which name. -/
structure Place where
  search : Search
  parent : Option ℕ
  isChild : Bool
  name : Name

def newTree : State where
  tree := topTree [84, 79, 80, 32, 32, 32, 32, 32, 32, 32, 32, 32] TreeUSAGE_SUBTREE
  nci _ := ⟨false, false⟩
  nodes := 14
  free := List.range' 1 13
  sortChildren := true
  sortMembers := true
  conglomerateSize := 0
  conglomerateIndex := 0
  conglomerateElt _ := 0

def isOn (nci : ℕ → Flags) (n : ℕ) : Bool := !(nci n).state && !(nci n).parentState

def turnOn (s : State) (n : ℕ) : State × Status :=
  if (s.nci n).state then
    let nci := Function.update s.nci n { s.nci n with state := false }
    if ¬ (s.nci n).parentState then
      let nci := setParentState s.tree (s.tree.kids .child n) false nci
      ({ s with nci := setParentState s.tree (s.tree.kids .member n) false nci }, .success)
    else ({ s with nci }, .parentOff)
  else (s, .alreadyOn)

def turnOff (s : State) (n : ℕ) : State × Status :=
  if ¬ (s.nci n).state then
    let nci := Function.update s.nci n { s.nci n with state := true }
    if ¬ (s.nci n).parentState then
      let nci := setParentState s.tree (s.tree.kids .child n) true nci
      ({ s with nci := setParentState s.tree (s.tree.kids .member n) true nci }, .success)
    else ({ s with nci }, .success)
  else (s, .alreadyOff)

def treeExpandNodes (s : State) : State :=
  { s with
    nodes := s.nodes + EXTEND_NODES
    free := s.free ++ List.range' s.nodes EXTEND_NODES }

/-- The first slot of the free list, which is expanded when it is empty. -/
def treeNewNode (s : State) : State × ℕ :=
  let s := if s.free = [] then treeExpandNodes s else s
  ({ s with free := s.free.tail }, s.free.headD 0)

/-- Twelve characters of a name: cut, or filled up with blanks. -/
def padName (name : Name) : Name := (name ++ List.replicate 12 32).take 12

def State.sorts (s : State) : Kind → Bool
  | .child => s.sortChildren
  | .member => s.sortMembers

/-- Put a node that is in no list into a list of its new parent. -/
def insertInto (s : State) (k : Kind) (p c : ℕ) : Except Fault State :=
  if h : s.tree.Fits p c then .ok { s with tree := s.tree.attach (s.sorts k) k p c h }
  else .error .cycle

/-- The list a new node goes to; the separator of the path decides only for usage any. -/
def kindOf (isChild : Bool) (usage : ℤ) : Kind :=
  if isChild ∧ usage = TreeUSAGE_ANY ∨ usage = TreeUSAGE_STRUCTURE ∨ usage = TreeUSAGE_SUBTREE then
    .child
  else .member

def usageOf (k : Kind) (usage : ℤ) : ℤ :=
  match k with
  | .child => if usage = TreeUSAGE_SUBTREE then TreeUSAGE_SUBTREE else TreeUSAGE_STRUCTURE
  | .member => if usage < TreeUSAGE_MAXIMUM ∧ 0 ≤ usage then usage else TreeUSAGE_ANY

/-- The node itself, once its place is found. -/
def addNewNode (s : State) (parent : ℕ) (isChild : Bool) (name : Name) (usage : ℤ) :
    Except Fault State := do
  let (s, c) := treeNewNode s
  let k := kindOf isChild usage
  let s ← insertInto
    { s with
      tree := { s.tree with
        name := Function.update s.tree.name c (padName name)
        usage := Function.update s.tree.usage c (usageOf k usage) }
      conglomerateElt := Function.update s.conglomerateElt c s.conglomerateIndex } k parent c
  .ok { s with nci := Function.update s.nci c ⟨false, !isOn s.nci parent⟩ }

def treeAddNode (s : State) (place : Place) (usage : ℤ) : Except Fault (State × Status) :=
  match place.parent, place.search with
  | none, _ => .ok (s, .nodeNotFound)
  | some _, .found => .ok (s, .alreadyThere)
  | some _, .failed => .ok (s, .searchFailed)
  | some parent, .notFound =>
      let s :=
        if s.conglomerateSize ≠ 0 then { s with conglomerateIndex := s.conglomerateIndex + 1 }
        else s
      if s.conglomerateSize ≠ 0 ∧ s.conglomerateIndex.toInt > s.conglomerateSize.toInt then
        -- the conglomerate is full and ends
        .ok ({ s with conglomerateSize := 0, conglomerateIndex := 0 }, .invPath)
      else (addNewNode s parent place.isChild place.name usage).map fun s => (s, .success)

/-- Give the moved node, and the brothers behind it, what the new parent makes them. -/
def fixParentState (s : State) (parent child : ℕ) (brothers : List ℕ) : State :=
  let parentState := isOn s.nci parent
  let childParentState := !(s.nci child).parentState
  if childParentState ≠ parentState then
    { s with nci := setParentState s.tree brothers (!parentState) s.nci }
  else s

/-- Where the links of a node record are, behind twelve bytes of name. -/
def parentOffset : ℕ := 12
def memberOffset : ℕ := parentOffset + 4

/-- Characters of a new name that do no harm. Those past the name run over the link to the
parent, which is set next; the link to the members behind it is not. -/
def maxRename : ℕ := memberOffset

/-- Take a node out of its list and put it under its new parent. -/
def moveNode (s : State) (n parent : ℕ) (k : Kind) (name : Name) : Except Fault State := do
  let tree := s.tree.detach n
  let s ← insertInto
    { s with tree := { tree with name := Function.update tree.name n (padName name) } } k parent n
  .ok (fixParentState s parent n ((s.tree.kids k parent).dropWhile fun x => x ≠ n))

def renameUnder (s : State) (n parent : ℕ) (isChild : Bool) (name : Name) :
    Except Fault (State × Status) :=
  if n ∈ s.tree.lineage parent then .ok (s, .invPath)
  else if isChild ∧ s.tree.usage n ≠ TreeUSAGE_STRUCTURE then .ok (s, .invPath)
  else if s.tree.parent n = none then .ok (s, .invTree)
  else if maxRename < name.length then .error .overrun
  else (moveNode s n parent (if isChild then .child else .member) name).map fun s => (s, .success)

def treeRenameNode (s : State) (n : ℕ) (place : Place) : Except Fault (State × Status) :=
  match place.search, place.parent with
  | .found, _ => .ok (s, .alreadyThere)
  | _, none => .ok (s, .nodeNotFound)
  | _, some parent => renameUnder s n parent place.isChild place.name

end MdsPlus.TreeEdit
