import MdsPlus.ExternalTrees
import MdsPlus.NciItems
import MdsPlus.TagInvariant

/-!
The calls that change the structure of a tree, with what makes them fail. Most of them look whether
the tree is open for edit before anything else, and end before their first change when something is
wrong. Two things are done after it: the characteristics of a node that was added or moved are
set, and memory is asked for the block of a tag that is in the index. The usage of a node is set
item by item, whether or not the tree is open for edit.
-/

namespace MdsPlus.EditCalls

open Characteristics NodeTree TreeEdit ParentState
open BitMemory (Byte)
open NciItems (Item)
open TagTable (CString Tables)

/-- A tree with its external trees and its tags, where it is said whether it is open for edit. -/
structure Session where
  isOpen : Bool
  openReadonly : Bool
  state : State
  externals : List ℕ
  tags : Tables

/-- A call, with what comes of its parts that may fail: the characteristics as a failure leaves
them, or whether there is memory. -/
inductive Call
  | addNode (place : Place) (usage : ℤ) (failure : Option (ℕ → Flags))
  | renameNode (n : ℕ) (place : Place) (failure : Option (ℕ → Flags))
  | delete (marked : List ℕ)
  | addTag (nid : ℕ) (tagnam : CString) (indexMemory infoMemory : Bool)
  | removeTag (name : CString)
  | setNci (n : ℕ) (hook : Bool) (read : Option Nci) (items : List Item) (written : Bool)
  | setSubtree (n : ℕ) (memory : Bool)

/-- The tree is changed first, and then the characteristics are. -/
def Session.settle (s : Session) (failure : Option (ℕ → Flags)) :
    State × TreeEdit.Status → Session × Bool
  | (state, .success) =>
      ({ s with
          state := { state with nci := failure.getD state.nci }
          tags := { s.tags with nodes := state.nodes } }, failure.isNone)
  | (state, _) => ({ s with state, tags := { s.tags with nodes := state.nodes } }, false)

def treeAddNode (s : Session) (place : Place) (usage : ℤ) (failure : Option (ℕ → Flags)) :
    Option (Session × Bool) :=
  if ¬ s.tags.openForEdit then some (s, false)
  else (TreeEdit.treeAddNode s.state place usage).toOption.map (s.settle failure)

def treeRenameNode (s : Session) (n : ℕ) (place : Place) (failure : Option (ℕ → Flags)) :
    Option (Session × Bool) :=
  if ¬ s.tags.openForEdit then some (s, false)
  else (TreeEdit.treeRenameNode s.state n place).toOption.map (s.settle failure)

/-- There is no status that tells whether nodes were deleted. -/
def treeDeleteNodeExecute (s : Session) (marked : List ℕ) : Option (Session × Bool) :=
  if ¬ s.tags.openForEdit then some (s, false)
  else
    let removeTags := fun tags n => (TagTable.removeNodesTags tags n).map Prod.fst
    (marked.foldlM removeTags s.tags).toOption.map fun tags =>
      let r := ExternalTrees.treeDeleteNodeExecute ⟨s.state, s.externals⟩ marked
      ({ s with state := r.state, externals := r.externals, tags }, true)

/-- A table is allocated anew when its pages do not hold one more entry. -/
def Grows (size tags pages : ℕ) : Prop :=
  TagTable.pagesFor size (tags + 1) > max (TagTable.pagesFor size tags) pages

instance (size tags pages : ℕ) : Decidable (Grows size tags pages) :=
  inferInstanceAs (Decidable (_ > _))

def addTag (s : Tables) (nid : ℕ) (tagnam : CString) (indexMemory infoMemory : Bool) :
    Except TagTable.Fault (Tables × Bool) :=
  if ¬ s.openForEdit then .ok (s, false)
  else if tagnam.strlen < 1 ∨ tagnam.strlen > TagTable.tagNameSize then .ok (s, false)
  else if ¬ TagTable.legal (tagnam.chars.map TagTable.toupper) then .ok (s, false)
  else do
    let tag := TagTable.blankFilled tagnam.chars
    match ← TagTable.findSlot s tag s.tags 0 with
    | none => .ok (s, false)
    | some slot =>
        if Grows 4 s.tags s.tagsPages ∧ indexMemory = false then .ok (s, false)
        else do
          let s ← TagTable.insertIndex s slot
          let link ← s.loadNodeLink nid
          if Grows TagTable.tagInfoSize s.tags s.tagInfoPages ∧ infoMemory = false then
            .ok (s, false)
          else do
            let s ← TagTable.appendInfo s ⟨tag, nid, link⟩
            let tags := s.tags + 1
            .ok ({ s with nodeLink := Function.update s.nodeLink nid tags, tags := tags }, true)

def treeAddTag (s : Session) (nid : ℕ) (tagnam : CString) (indexMemory infoMemory : Bool) :
    Option (Session × Bool) :=
  (addTag s.tags nid tagnam indexMemory infoMemory).toOption.map fun r =>
    ({ s with tags := r.1 }, r.2)

def treeRemoveTag (s : Session) (name : CString) : Option (Session × Bool) :=
  (TagTable.removeTag s.tags name).toOption.map fun r =>
    ({ s with tags := r.1 }, decide (r.2 = .success))

def Session.usage (s : Session) (n : ℕ) : Byte := BitVec.ofInt 8 (s.state.tree.usage n)

def Session.setUsage (s : Session) (n : ℕ) (usage : Byte) : Session :=
  if usage = s.usage n then s
  else
    { s with
      state := { s.state with
        tree := { s.state.tree with
          usage := Function.update s.state.tree.usage n usage.toNat } } }

/-- The characteristics are read if the hook allows it, and put back after the items. -/
def treeSetNci (s : Session) (n : ℕ) (hook : Bool) (read : Option Nci) (items : List Item)
    (written : Bool) : Session × Bool :=
  if ¬ s.isOpen ∨ s.openReadonly ∨ ¬ hook then (s, false)
  else
    match read with
    | none => (s, false)
    | some nci =>
        let (status, w) := NciItems.setItems ⟨nci, s.usage n, false, false⟩ items
        (s.setUsage n w.usage, decide (status = .success ∧ (w.putnci → written)))

/-- Memory is needed only for a node that is not listed. -/
def treeSetSubtree (s : Session) (n : ℕ) (memory : Bool) : Session × Bool :=
  if ¬ s.tags.openForEdit then (s, false)
  else
    let r := ExternalTrees.treeSetSubtree ⟨s.state, s.externals⟩ n
    if r.2 = .success ∧ n ∉ s.externals ∧ ¬ memory then (s, false)
    else ({ s with state := r.1.state, externals := r.1.externals }, decide (r.2 = .success))

/-- A call and whether its status is a success; none where the code runs out of its tables. -/
def exec (s : Session) : Call → Option (Session × Bool)
  | .addNode place usage failure => treeAddNode s place usage failure
  | .renameNode n place failure => treeRenameNode s n place failure
  | .delete marked => treeDeleteNodeExecute s marked
  | .addTag nid tagnam indexMemory infoMemory => treeAddTag s nid tagnam indexMemory infoMemory
  | .removeTag name => treeRemoveTag s name
  | .setNci n hook read items written => some (treeSetNci s n hook read items written)
  | .setSubtree n memory => some (treeSetSubtree s n memory)

structure SameNodes (s s' : State) : Prop where
  tree : s'.tree = s.tree
  nodes : s'.nodes = s.nodes
  free : s'.free = s.free
  sorts : s'.sorts = s.sorts
  conglomerateElt : s'.conglomerateElt = s.conglomerateElt

structure SameTags (t t' : Tables) : Prop where
  tags : t'.tags = t.tags
  index : ∀ i, i < t.tags → t'.index i = t.index i
  info : ∀ i, i < t.tags → t'.info i = t.info i
  nodeLink : t'.nodeLink = t.nodeLink

structure Same (s s' : Session) : Prop where
  nodes : SameNodes s.state s'.state
  externals : s'.externals = s.externals
  tags : SameTags s.tags s'.tags

theorem SameNodes.refl (s : State) : SameNodes s s := ⟨rfl, rfl, rfl, rfl, rfl⟩

theorem SameTags.refl (t : Tables) : SameTags t t := ⟨rfl, fun _ _ => rfl, fun _ _ => rfl, rfl⟩

theorem Same.refl (s : Session) : Same s s := ⟨.refl s.state, rfl, .refl s.tags⟩

/-! ### The calls that spoil the tree -/

/-- A node is added unless its path is wrong or a conglomerate is full. -/
def Adds (s : State) (place : Place) : Prop :=
  place.parent.isSome ∧ place.search = .notFound ∧ ¬ ConglomerateNodes.Full s

/-- A node is moved to a place where there is none, that is not below it, and where its usage fits.
A name that runs over the links of the node has no outcome. -/
structure Moves (s : State) (n : ℕ) (place : Place) (p : ℕ) : Prop where
  parent : place.parent = some p
  search : place.search ≠ .found
  not_below : n ∉ s.tree.lineage p
  usage : place.isChild = true → s.tree.usage n = TreeUSAGE_STRUCTURE
  listed : s.tree.parent n ≠ none
  name : place.name.length ≤ maxRename

/-- It is put back where it was, under its old name. -/
structure Stays (s : State) (n : ℕ) (place : Place) (p : ℕ) : Prop where
  parent : s.tree.parent n = some p
  name : s.tree.name n = padName place.name
  kids : insertNode (s.sorts (if place.isChild then .child else .member)) s.tree.name n
      ((s.tree.kids (if place.isChild then .child else .member) p).erase n) =
    s.tree.kids (if place.isChild then .child else .member) p

structure HalfAdded (t : Tables) (tagnam : CString) (indexMemory infoMemory : Bool) : Prop where
  accepted : TagInvariant.Accepted tagnam
  fresh : ∀ i, i < t.tags → (t.info i).name ≠ TagTable.blankFilled tagnam.chars
  indexed : Grows 4 t.tags t.tagsPages → indexMemory = true
  grows : Grows TagTable.tagInfoSize t.tags t.tagInfoPages
  memory : infoMemory = false
  before : ∃ i, i < t.tags ∧ TagTable.blankFilled tagnam.chars < (t.info i).name

def usageLeft (usage : Byte) : List Item → Byte
  | [] => usage
  | .illegal :: _ => usage
  | .usage usage :: items => usageLeft usage items
  | _ :: items => usageLeft usage items

/-- Whether an item changes the characteristics. -/
def puts : Item → Bool
  | .usage _ => false
  | .illegal => false
  | _ => true

/-- Items that are all known, with the characteristics written if any of them changes these. -/
def Completes (items : List Item) (written : Bool) : Prop :=
  Item.illegal ∉ items ∧ (items.any puts = true → written = true)

instance (items : List Item) (written : Bool) : Decidable (Completes items written) :=
  inferInstanceAs (Decidable (_ ∧ _))

/-- The calls that change the tree although it is not open for edit, or before they fail. -/
def Spoils (s : Session) : Call → Prop
  | .addNode place _ failure =>
      s.tags.openForEdit = true ∧ Adds s.state place ∧ failure.isSome = true
  | .renameNode n place failure =>
      s.tags.openForEdit = true ∧ failure.isSome = true ∧
        ∃ p, Moves s.state n place p ∧ ¬ Stays s.state n place p
  | .addTag _ tagnam indexMemory infoMemory =>
      s.tags.openForEdit = true ∧ HalfAdded s.tags tagnam indexMemory infoMemory
  | .setNci n hook read items written =>
      s.isOpen = true ∧ s.openReadonly = false ∧ hook = true ∧ read.isSome = true ∧
        usageLeft (s.usage n) items ≠ s.usage n ∧
        ¬ (s.tags.openForEdit = true ∧ Completes items written)
  | _ => False

/-- The links and slots are as editing keeps them, whatever the characteristics are. -/
structure Placed (s : State) : Prop where
  rooted : s.tree.Rooted
  slot : ∀ n, s.tree.In n → n < s.nodes
  free_lt : ∀ n ∈ s.free, n < s.nodes
  free_out : ∀ n ∈ s.free, ¬ s.tree.In n
  free_nodup : s.free.Nodup

structure Sound (s : Session) : Prop where
  placed : Placed s.state
  count : s.tags.nodes = s.state.nodes
  tags : s.tags.openForEdit = true → TagInvariant.Consistent s.tags

/-- The nodes and the places that a call is given are in the tree. -/
def Fits (s : Session) : Call → Prop
  | .addNode place _ _ => ∀ p, place.parent = some p → s.state.tree.In p
  | .renameNode n place _ => s.state.tree.In n ∧ ∀ p, place.parent = some p → s.state.tree.In p
  | .delete marked => ∀ n ∈ marked, s.state.tree.In n
  | .addTag nid _ _ _ => s.state.tree.In nid
  | .removeTag _ => True
  | .setNci n _ _ _ _ => s.state.tree.In n
  | .setSubtree n _ => s.state.tree.In n

def Atomic (s : Session) (c : Call) : Prop :=
  ∀ r, exec s c = some r → s.tags.openForEdit = false ∨ r.2 = false → Same s r.1

end MdsPlus.EditCalls
