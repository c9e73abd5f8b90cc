import MdsPlus.Characteristics
import MdsPlus.Marking
import MdsPlus.NodeTree
import MdsPlus.Subtrees
import MdsPlus.TagTable

/-!
The list of the nodes that are to be deleted: a bit for each node. With a node are marked its
members and children, and the elements of its conglomerate, and with these what is below them.
The elements of a conglomerate are counted from its first node on.
-/

namespace MdsPlus.DeleteList

open BitMemory Characteristics Marking NodeTree
open Subtrees (maxNodes)

/-- The tree that is open for edit, by the numbers of its nodes. The tag tables are lost when they
were read outside. Characteristics are in memory from the first new node on. -/
structure Database where
  openForEdit : Bool
  nodes : ℕ
  parent : ℕ → Option ℕ
  member : ℕ → Option ℕ
  brother : ℕ → Option ℕ
  child : ℕ → Option ℕ
  name : ℕ → Name
  usage : ℕ → Byte
  conglomerateElt : ℕ → BitVec 16
  externals : List ℕ
  tags : Except TagTable.Fault TagTable.Tables
  nci : ℕ → Nci
  firstInMem : ℕ
  deletedNids : List ℕ
  modified : Bool
  deleteList : List Byte

inductive Status
  | success | noEdit
  deriving DecidableEq, Repr

/-! ### The bits -/

def getbit (list : List Byte) (bitnum : ℕ) : Bool :=
  (list[bitnum / 8]?.getD 0).getLsbD (bitnum % 8)

def setbit (list : List Byte) (bitnum : ℕ) : List Byte :=
  list.modify (bitnum / 8) fun b => b ||| 1 <<< (bitnum % 8)

@[simp] theorem setbit_length (list : List Byte) (bitnum : ℕ) :
    (setbit list bitnum).length = list.length := List.length_modify ..

theorem getbit_setbit {list : List Byte} {a b : ℕ} (ha : a / 8 < list.length) :
    getbit (setbit list a) b = (decide (b = a) || getbit list b) := by
  have hbit : ∀ i < 8, ∀ j < 8, (1 <<< i : Byte).getLsbD j = decide (j = i) := by decide
  rw [getbit, setbit, List.getElem?_modify, getbit]
  by_cases hbyte : b / 8 = a / 8
  · rw [hbyte, List.getElem?_eq_getElem ha]
    have hiff : b % 8 = a % 8 ↔ b = a := by omega
    simp only [if_true, Option.map_eq_map, Option.map_some, Option.getD_some,
      BitVec.getLsbD_or]
    rw [hbit _ (Nat.mod_lt _ (by decide)) _ (Nat.mod_lt _ (by decide)), Bool.or_comm]
    simp only [hiff]
  · have hne : b ≠ a := fun hab => hbyte (congrArg (· / 8) hab)
    simp [Ne.symm hbyte, hne]

def vmNeeded (nodes : ℕ) : ℕ := nodes / 8 + 4

/-- The list for as many nodes as there are, emptied or with the bits it had. -/
def allocate (vm : ℕ) (reset : Bool) (list : List Byte) : List Byte :=
  if vm ≠ list.length then
    if reset then List.replicate vm 0 else list.take vm ++ List.replicate (vm - list.length) 0
  else if reset then List.replicate list.length 0 else list

theorem allocate_length (vm : ℕ) (reset : Bool) (list : List Byte) :
    (allocate vm reset list).length = vm := by
  rw [allocate]
  split
  · split
    · exact List.length_replicate
    · rw [List.length_append, List.length_take, List.length_replicate]
      omega
  · rename_i h
    rw [Decidable.not_not] at h
    split
    · rw [List.length_replicate, h]
    · exact h.symm

theorem getbit_replicate (k n : ℕ) : getbit (List.replicate k 0) n = false := by
  rw [getbit, List.getElem?_replicate]
  split <;> exact BitVec.getLsbD_zero

theorem getbit_allocate (vm : ℕ) (reset : Bool) (list : List Byte) {n : ℕ} (hn : n / 8 < vm) :
    getbit (allocate vm reset list) n = (!reset && getbit list n) := by
  rw [allocate]
  cases reset with
  | true =>
    split <;> exact getbit_replicate ..
  | false =>
    split
    · rw [if_neg Bool.false_ne_true, getbit, getbit]
      by_cases hlength : n / 8 < list.length
      · rw [List.getElem?_append_left (by rw [List.length_take]; omega),
          List.getElem?_take_of_lt hn]
        rfl
      · rw [List.getElem?_append_right (by rw [List.length_take]; omega),
          List.getElem?_replicate, List.getElem?_eq_none (by omega)]
        split <;> rfl
    · rfl

/-! ### Marking -/

structure Marks where
  list : List Byte
  count : Option ℤ

def Marks.mark (m : Marks) (n : ℕ) : Marks := ⟨setbit m.list n, m.count.map (· + 1)⟩

/-- The nodes that follow each other, as long as they are numbered. -/
def eachElement (db : Database) (f : Marks → ℕ → Option Marks) :
    ℕ → Marks → ℕ → ℕ → Option Marks
  | 0, _, _, _ => none
  | fuel + 1, m, elt, num =>
      if (db.conglomerateElt elt).toInt = num ∧ elt < db.nodes then
        (f m elt).bind fun m => eachElement db f fuel m (elt + 1) (num + 1)
      else some m

/-- The first node of the conglomerate: a short is taken from the number of the node, and
twenty-four bits are kept. -/
def firstElement (db : Database) (n : ℕ) : ℕ :=
  (((n : ℤ) - (db.conglomerateElt n).toInt + 1) % maxNodes).toNat

/-- `none` when a node is read that is not there, or when the fuel runs out. -/
def checkNid (db : Database) : ℕ → Marks → ℕ → Option Marks
  | 0, _, _ => none
  | fuel + 1, m, n =>
      if getbit m.list n then some m
      else if db.nodes < n then none
      else
        (follow db.brother (checkNid db fuel) db.nodes (m.mark n) (db.member n)).bind fun m =>
          (follow db.brother (checkNid db fuel) db.nodes m (db.child n)).bind fun m =>
            if db.conglomerateElt n = 0 then some m
            else if db.nodes < firstElement db n then none
            else eachElement db (checkNid db fuel) (db.nodes + 1) m (firstElement db n) 1

structure Result where
  db : Database
  count : Option ℤ
  status : Status

/-- Node 0 stands for none. -/
def treeDeleteNodeInitialize (fuel : ℕ) (db : Database) (nid : ℕ) (count : Option ℤ)
    (reset : Bool) : Option Result :=
  if ¬ db.openForEdit then some ⟨db, count, .noEdit⟩
  else
    let list := allocate (vmNeeded db.nodes) reset db.deleteList
    let count := if reset then count.map fun _ => 0 else count
    (if nid ≠ 0 then checkNid db fuel ⟨list, count⟩ nid else some ⟨list, count⟩).map fun m =>
      ⟨{ db with deleteList := m.list }, m.count, .success⟩

def nextMarked (list : List Byte) : ℕ → ℕ → Option ℕ
  | 0, _ => none
  | fuel + 1, i => if getbit list i then some i else nextMarked list fuel (i + 1)

/-- The next node to be deleted; `none` is TreeNMN. -/
def treeDeleteNodeGetNid (db : Database) (nid : ℕ) : Option ℕ :=
  nextMarked db.deleteList (db.nodes - (nid + 1)) (nid + 1)

/-- The nodes that one gets one after another. -/
def enumerate (db : Database) : ℕ → ℕ → List ℕ
  | 0, _ => []
  | fuel + 1, nid =>
      match treeDeleteNodeGetNid db nid with
      | some n => n :: enumerate db fuel n
      | none => []

end MdsPlus.DeleteList
