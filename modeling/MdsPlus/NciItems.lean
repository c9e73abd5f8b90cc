import MdsPlus.Characteristics
import MdsPlus.RecordLocks

/-!
Setting characteristics from a list of items. Each item changes the characteristics that were
read, or the usage of the node in the tree itself; the characteristics are put back at the end.
-/

namespace MdsPlus.NciItems

open BitMemory Characteristics RecordLocks

/-- An item that is known, with its value, or another. -/
inductive Item
  | setFlags (flags : BitVec 32)
  | clearFlags (flags : BitVec 32)
  | status (status : BitVec 32)
  | usage (usage : Byte)
  | compressionMethod (method : Byte)
  | illegal
  deriving DecidableEq

/-- What the items work on: the characteristics, the usage of the node, whether the tree is
modified, and whether the characteristics are to be put back. -/
structure Work where
  nci : Nci
  usage : Byte
  modified : Bool
  putnci : Bool

/-- Whether the tree is open for edit is looked at for a usage, but the status that says so is
set again to success. -/
def setItem (w : Work) : Item → Status × Work
  | .setFlags flags => (.success, { w with nci.flags := w.nci.flags ||| flags, putnci := true })
  | .clearFlags flags =>
      (.success, { w with nci.flags := w.nci.flags &&& ~~~flags, putnci := true })
  | .status status => (.success, { w with nci.status := status, putnci := true })
  | .usage usage => (.success, if w.usage ≠ usage then { w with usage, modified := true } else w)
  | .compressionMethod method =>
      (.success, { w with nci.compressionMethod := method, putnci := true })
  | .illegal => (.illegalItem, w)

def setItems : Work → List Item → Status × Work
  | w, [] => (.success, w)
  | w, item :: items =>
      match setItem w item with
      | (.success, w) => setItems w items
      | (status, w) => (status, w)

structure Database where
  isOpen : Bool
  openReadonly : Bool

structure Result where
  status : Status
  work : Work
  held : Held

/-- The usage and the mark that the tree is modified are in memory, so they stay. -/
def treeSetNci (db : Database) (info : TreeInfo) (numbered hook : Bool) (o : NciAnswers)
    (items : List Item) (w : Work) (held : Held) : Option Result :=
  if ¬ db.isOpen then some ⟨.notOpen, w, held⟩
  else if db.openReadonly then some ⟨.readonly, w, held⟩
  else if ¬ numbered then some ⟨.noNode, w, held⟩
  else if ¬ hook then some ⟨.hookFailed, w, held⟩
  else
    (treeGetAndLockNci info o 0 held).map fun (status, locked, held) =>
      if status ≠ .success then ⟨status, w, held⟩
      else
        let (status, w) := setItems { w with putnci := false } items
        if status = .success ∧ w.putnci then
          let (status, _, held) := treePutNci info o locked held
          ⟨status, w, held⟩
        else ⟨status, w, (treeUnlockNci info locked held).2⟩

end MdsPlus.NciItems
