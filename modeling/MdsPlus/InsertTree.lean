import Mathlib.Algebra.Group.Int.Defs
import Mathlib.Order.Lattice
import Mathlib.Tactic.Common

/-!
The balanced trees of the run-time library. Insertion goes down by comparisons and changes
links and balances on the way back. Whether a subtree has grown higher is told by the status
that the call for it returns.
-/

namespace MdsPlus.InsertTree

def statusCode (facility value severity : ℤ) : ℤ := facility * 2 ^ 16 + value * 2 ^ 3 + severity

def MDSplusSUCCESS : ℤ := statusCode 1 1 1
def MDSplusERROR : ℤ := statusCode 1 2 2

/-- A comparison of keys, as a total order gives it. -/
structure Comparison (κ : Type*) [LinearOrder κ] where
  compare : κ → κ → ℤ
  neg : ∀ a b, compare a b < 0 ↔ a < b
  zero : ∀ a b, compare a b = 0 ↔ a = b

inductive LibTreeNode (κ : Type*)
  | empty
  | node (block : ℕ) (key : κ) (bal : ℤ) (left right : LibTreeNode κ)
  deriving DecidableEq

variable {κ : Type*}

/-- What insertion finds: nothing to put a key in, a new node, or a node that is there. -/
inductive Found
  | failed | inserted | present
  deriving DecidableEq

structure Result (κ : Type*) where
  current : LibTreeNode κ
  newNode : Option ℕ
  found : Found
  status : ℤ
  deriving DecidableEq

/-- The left subtree is told to have grown. `none` where a link that is followed is empty. -/
def leftGrown (block : ℕ) (key : κ) (bal : ℤ) (left right : LibTreeNode κ) :
    Option (LibTreeNode κ × ℤ) :=
  if bal - 1 = 0 then some (.node block key 0 left right, MDSplusSUCCESS)
  else if (bal - 1) % 2 = 1 then some (.node block key (bal - 1) left right, MDSplusERROR)
  else
    match left with
    | .empty => none
    | .node b k n l r =>
        if n < 0 then some (.node b k 0 l (.node block key 0 r right), MDSplusSUCCESS)
        else
          match r with
          | .empty => none
          | .node b' k' n' l' r' =>
              some (.node b' k' 0 (.node b k (if 0 < n' then -1 else 0) l l')
                (.node block key (if n' < 0 then 1 else 0) r' right), MDSplusSUCCESS)

def rightGrown (block : ℕ) (key : κ) (bal : ℤ) (left right : LibTreeNode κ) :
    Option (LibTreeNode κ × ℤ) :=
  if bal + 1 = 0 then some (.node block key 0 left right, MDSplusSUCCESS)
  else if (bal + 1) % 2 = 1 then some (.node block key (bal + 1) left right, MDSplusERROR)
  else
    match right with
    | .empty => none
    | .node b k n l r =>
        if 0 < n then some (.node b k 0 (.node block key 0 left l) r, MDSplusSUCCESS)
        else
          match l with
          | .empty => none
          | .node b' k' n' l' r' =>
              some (.node b' k' 0 (.node block key (if 0 < n' then -1 else 0) left l')
                (.node b k (if n' < 0 then 1 else 0) r' r), MDSplusSUCCESS)

/-- `alloc` is the place that the allocation routine gives. -/
def mdsInsertTree (compare : κ → κ → ℤ) (key : κ) (flags : ℤ) (alloc : Option ℕ) :
    LibTreeNode κ → Option (Result κ)
  | .empty =>
      match alloc with
      | none => some ⟨.empty, none, .failed, MDSplusERROR⟩
      | some block => some ⟨.node block key 0 .empty .empty, some block, .inserted, MDSplusERROR⟩
  | .node block k bal left right =>
      if compare key k ≤ 0 then
        if compare key k = 0 ∧ flags % 2 = 0 then
          some ⟨.node block k bal left right, some block, .present, MDSplusSUCCESS⟩
        else
          (mdsInsertTree compare key flags alloc left).bind fun r =>
            if r.found = .present ∨ r.found = .failed then
              some { r with status := MDSplusSUCCESS }
            else if r.status ≠ 0 then
              some { r with
                current := .node block k bal r.current right
                status := MDSplusSUCCESS }
            else
              (leftGrown block k bal r.current right).map fun grown =>
                { r with current := grown.1, status := grown.2 }
      else
        (mdsInsertTree compare key flags alloc right).bind fun r =>
          if r.found = .present ∨ r.found = .failed then
            some { r with status := MDSplusSUCCESS }
          else if r.status ≠ 0 then
            some { r with
              current := .node block k bal left r.current
              status := MDSplusSUCCESS }
          else
            (rightGrown block k bal left r.current).map fun grown =>
              { r with current := grown.1, status := grown.2 }

def libInsertTree (compare : κ → κ → ℤ) (key : κ) (flags : ℤ) (alloc : Option ℕ)
    (head : LibTreeNode κ) : Option (LibTreeNode κ × Option ℕ × Found) :=
  (mdsInsertTree compare key flags alloc head).map fun r =>
    (if r.found = .inserted then r.current else head, r.newNode, r.found)

/-- The place of a node with the key; `none` stands for key not found. -/
def libLookupTree (compare : κ → κ → ℤ) (key : κ) : LibTreeNode κ → Option ℕ
  | .empty => none
  | .node block k _ left right =>
      if compare key k = 0 then some block
      else if compare key k < 0 then libLookupTree compare key left
      else libLookupTree compare key right

/-- The user routine changes a state and returns a status; traversal ends at the first that is
not odd. -/
def libTraverseTree {σ : Type*} (rtn : ℕ × κ → σ → σ × ℤ) : LibTreeNode κ → σ → σ × ℤ
  | .empty, x => (x, MDSplusSUCCESS)
  | .node block k _ left right, x =>
      let (x, status) := libTraverseTree rtn left x
      if status % 2 ≠ 1 then (x, status)
      else
        let (x, status) := rtn (block, k) x
        if status % 2 ≠ 1 then (x, status)
        else libTraverseTree rtn right x

/-! ### Runs -/

/-- A call of LibInsertTree, and whether memory can be allocated for it. -/
structure Call (κ : Type*) where
  key : κ
  flags : ℤ
  allocates : Bool
  deriving DecidableEq

structure State (κ : Type*) where
  head : LibTreeNode κ
  next : ℕ
  deriving DecidableEq

structure Reply where
  block : Option ℕ
  found : Found
  deriving DecidableEq

def step (compare : κ → κ → ℤ) (s : State κ) (c : Call κ) : Option (State κ × Reply) :=
  (libInsertTree compare c.key c.flags (if c.allocates then some s.next else none) s.head).map
    fun (head, block, found) =>
      (⟨head, if found = .inserted then s.next + 1 else s.next⟩, ⟨block, found⟩)

def run (compare : κ → κ → ℤ) (s : State κ) : List (Call κ) → Option (State κ × List Reply)
  | [] => some (s, [])
  | c :: calls =>
      (step compare s c).bind fun (s, reply) =>
        (run compare s calls).map fun (s, replies) => (s, reply :: replies)

def start : State κ := ⟨.empty, 0⟩

end MdsPlus.InsertTree
