import MdsPlus.Datafile
import MdsPlus.Outcome

/-!
Extended attributes of a node by name. The names and the places of the values are in
index pages chained from the newest to the oldest; a deleted attribute keeps its
slot. How a value becomes bytes is a parameter.
-/

namespace MdsPlus.NamedAttributes

open BitMemory Codec ByteFile Datafile

def NAMED_ATTRIBUTE_NAME_SIZE : ℕ := 64
def NAMED_ATTRIBUTES_PER_INDEX : ℕ := 128

theorem name_pos : 0 < NAMED_ATTRIBUTE_NAME_SIZE := by decide

structure NamedAttribute where
  name : Vector Byte NAMED_ATTRIBUTE_NAME_SIZE
  offset : Offset
  length : BitVec 32

structure NamedAttributesIndex where
  previousOffset : Offset
  attributes : Vector NamedAttribute NAMED_ATTRIBUTES_PER_INDEX

def byteFormat : Format Byte := int 1

def namedAttribute : Format NamedAttribute :=
  view (pair (table byteFormat NAMED_ATTRIBUTE_NAME_SIZE) (pair int64 int32))
    { toFun := fun a => (a.name, a.offset, a.length)
      invFun := fun p => ⟨p.1, p.2.1, p.2.2⟩
      left_inv := fun _ => rfl
      right_inv := fun _ => rfl }

def namedAttributesIndex : Format NamedAttributesIndex :=
  view (pair int64 (table namedAttribute NAMED_ATTRIBUTES_PER_INDEX))
    { toFun := fun i => (i.previousOffset, i.attributes)
      invFun := fun p => ⟨p.1, p.2⟩
      left_inv := fun _ => rfl
      right_inv := fun _ => rfl }

/-- An attribute name as passed in: at least one character, no terminator inside. -/
structure Name where
  chars : List Byte
  noNul : ∀ c ∈ chars, c ≠ 0

/-- The ordinary data of a node that has no extended attributes yet: none, a value in
the characteristics record itself, or a record of the datafile that may not be
readable. -/
inductive OldRecord (V : Type)
  | empty
  | inAttBlock (value : V)
  | inDatafile (value : Option V)

/-- The fields of the node characteristics that decide where the attributes are. -/
structure Nci (V : Type) where
  extendedNci : Bool
  rfa : Rfa
  oldRecord : OldRecord V
  compress : ℤ

structure State (V : Type) where
  file : File
  nci : Nci V

inductive Status
  | failure | badrecord | endless
  deriving DecidableEq, Repr

/-- TreeSUCCESS with a value, or with the list of names. -/
inductive Found (V : Type)
  | value (v : V)
  | names (rows : List (List Byte))

variable {V : Type}

/-- Read a descriptor into one that may hold a value already; the status of a failed
read is lost when it does. -/
def getDsc (S : Serializer V) (f : File) (offset : Offset) (length : BitVec 32)
    (dsc : Option V) : Option V :=
  match (readPropertySafe f offset length.toNat).bind S.serializeIn with
  | some v => some v
  | none => dsc

def tolower (c : Byte) : Byte := if 65 ≤ c.toNat ∧ c.toNat ≤ 90 then c + 32 else c

/-- The character at a place of the name field; the field is not terminated when it
is full, and the place after it is the first byte of the offset. -/
def charAt (a : NamedAttribute) (j : ℕ) : Byte :=
  if h : j < NAMED_ATTRIBUTE_NAME_SIZE then a.name[j] else a.offset.extractLsb' 0 8

def sameName (xnci : Name) (a : NamedAttribute) : Bool :=
  ((List.range xnci.chars.length).all fun j =>
    tolower (xnci.chars.getD j 0) = tolower (charAt a j)) && charAt a xnci.chars.length = 0

def findName (xnci : Name) (index : NamedAttributesIndex) :
    Option (Fin NAMED_ATTRIBUTES_PER_INDEX) :=
  (List.finRange NAMED_ATTRIBUTES_PER_INDEX).find? fun i => sameName xnci index.attributes[i]

def search (f : File) (xnci : Name) : ℕ → NamedAttributesIndex → Offset →
    Except Status (Option (NamedAttributesIndex × Offset × Fin NAMED_ATTRIBUTES_PER_INDEX))
  | 0, _, _ => .error .endless
  | fuel + 1, index, offset =>
      match findName xnci index with
      | some i => .ok (some (index, offset, i))
      | none =>
          if index.previousOffset = -1 then .ok none
          else
            match getRecord namedAttributesIndex f index.previousOffset with
            | none => .ok none
            | some previous => search f xnci fuel previous index.previousOffset

def getTopIndex (f : File) (attr : ExtendedAttributes) : Option NamedAttributesIndex :=
  if attr.facilityOffset[NAMED_ATTRIBUTES_FACILITY] = -1 then none
  else getRecord namedAttributesIndex f attr.facilityOffset[NAMED_ATTRIBUTES_FACILITY]

/-- The name in its field, as strcpy leaves it in a slot; a name that fills the field
puts its terminator into the offset, which is assigned afterwards. -/
def nameField (xnci : Name) : Vector Byte NAMED_ATTRIBUTE_NAME_SIZE :=
  Vector.ofFn fun i => xnci.chars.getD i 0

def emptyAttribute : NamedAttribute := ⟨Vector.replicate _ 0, 0, 0⟩

def freeSlot (index : NamedAttributesIndex) : Option (Fin NAMED_ATTRIBUTES_PER_INDEX) :=
  (List.finRange NAMED_ATTRIBUTES_PER_INDEX).find? fun i => index.attributes[i].name[0] = 0

def NamedAttributesIndex.store (index : NamedAttributesIndex)
    (i : Fin NAMED_ATTRIBUTES_PER_INDEX) (a : NamedAttribute) : NamedAttributesIndex :=
  { index with attributes := index.attributes.set i a i.isLt }

/-- A page with one attribute and a link to the page before it. -/
def newIndex (previousOffset : Offset) (a : NamedAttribute) : NamedAttributesIndex where
  previousOffset := previousOffset
  attributes := (Vector.replicate _ emptyAttribute).set 0 a

/-- What set_xnci works on: the file, the characteristics, the extended attributes
with their place, and whether they have to be written. -/
structure Vars (V : Type) where
  file : File
  nci : Nci V
  attr : ExtendedAttributes
  attrOffset : Offset
  attrUpdate : Bool

/-- Move the ordinary data of the node under the standard record facility. -/
def keepOldRecord (S : Serializer V) (vars : Vars V) : Vars V :=
  let keep (v : V) : Vars V :=
    let (file, offset, length) := putDsc S vars.file vars.nci.compress v
    { vars with
      file
      attr := { vars.attr with
        facilityOffset := vars.attr.facilityOffset.set STANDARD_RECORD_FACILITY offset standard_lt
        facilityLength := vars.attr.facilityLength.set STANDARD_RECORD_FACILITY length standard_lt }
      attrUpdate := true }
  if vars.nci.extendedNci then vars
  else
    match vars.nci.oldRecord with
    | .empty => vars
    | .inAttBlock v => keep v
    | .inDatafile none => { vars with nci := { vars.nci with oldRecord := .empty } }
    | .inDatafile (some v) => keep v

/-- Enter the place of a value under a name in the index pages. -/
def setIndex (vars : Vars V) (xnci : Name) (offset : Offset) (length : BitVec 32) :
    Except Status (Vars V) :=
  let a : NamedAttribute := ⟨nameField xnci, offset, length⟩
  let top := vars.attr.facilityOffset[NAMED_ATTRIBUTES_FACILITY]
  let setTop (file : File) (top : Offset) (attrUpdate : Bool) : Vars V :=
    { vars with
      file
      attr := { vars.attr with
        facilityOffset := vars.attr.facilityOffset.set NAMED_ATTRIBUTES_FACILITY top named_lt }
      attrUpdate }
  match getTopIndex vars.file vars.attr with
  | none =>
      let (file, top) := putRecord namedAttributesIndex vars.file (-1) (newIndex (-1) a)
      .ok (setTop file top true)
  | some topIndex => do
      match ← search vars.file xnci (vars.file.size + 1) topIndex top with
      | some (index, indexOffset, i) =>
          -- the name exists: only its value is replaced
          let old := index.attributes[i]
          let index := index.store i { old with offset, length }
          let (file, _) := putRecord namedAttributesIndex vars.file indexOffset index
          .ok { vars with file }
      | none =>
          if length = 0 then .ok vars
          else
            match freeSlot topIndex with
            | some i =>
                let (file, top) :=
                  putRecord namedAttributesIndex vars.file top (topIndex.store i a)
                .ok (setTop file top vars.attrUpdate)
            | none =>
                let (file, top) :=
                  putRecord namedAttributesIndex vars.file (-1) (newIndex top a)
                .ok (setTop file top true)

def putValue (S : Serializer V) (vars : Vars V) : Option V → File × Offset × BitVec 32
  | some v => putDsc S vars.file vars.nci.compress v
  | none => (vars.file, -1, 0)

def setXnci (S : Serializer V) (vars : Vars V) (xnci : Name) (value : Option V) :
    Except Status (Vars V) :=
  let (file, offset, length) := putValue S vars value
  let vars := { vars with file }
  if vars.attrOffset = -1 then
    if length = 0 then .ok vars
    else setIndex (keepOldRecord S vars) xnci offset length
  else setIndex { vars with attrOffset := rfaToSeek vars.nci.rfa } xnci offset length

/-- The attributes of the node, or empty ones with no place yet. -/
def beginExtendedNci (s : State V) : Vars V :=
  match
    if s.nci.extendedNci then getRecord extendedAttributes s.file (rfaToSeek s.nci.rfa)
    else none with
  | some attr => ⟨s.file, s.nci, attr, rfaToSeek s.nci.rfa, false⟩
  | none => ⟨s.file, s.nci, .none, -1, false⟩

def nameTooLong (xnci : Name) : Bool :=
  xnci.chars.length < 1 || xnci.chars.length > NAMED_ATTRIBUTE_NAME_SIZE

def treeSetXNci (S : Serializer V) (s : State V) (xnci : Name) (value : Option V) :
    Except Status (State V) :=
  if nameTooLong xnci then .error .failure
  else do
    let vars ← setXnci S (beginExtendedNci s) xnci value
    if vars.attrUpdate then
      let (file, attrOffset) :=
        putRecord extendedAttributes vars.file vars.attrOffset vars.attr
      .ok ⟨file, { vars.nci with rfa := seekToRfa attrOffset, extendedNci := true }⟩
    else .ok ⟨vars.file, s.nci⟩

def XNCI_ATTRIBUTE_NAMES : List Byte :=
  [97, 116, 116, 114, 105, 98, 117, 116, 101, 110, 97, 109, 101, 115]

def getXnciNames (f : File) (attr : ExtendedAttributes) : Option (List (List Byte)) :=
  match getTopIndex f attr with
  | none => none
  | some index =>
      let used := index.attributes.toList.filter fun a => a.name[0] ≠ 0 ∧ a.length ≠ -1
      let strlen (a : NamedAttribute) : ℕ := (a.name.toList.takeWhile (· ≠ 0)).length
      let longest := (used.map strlen).foldl max 0
      let row (a : NamedAttribute) : List Byte :=
        (a.name.toList.take longest).mapIdx fun i c => if 1 ≤ i ∧ c = 0 then 32 else c
      if used = [] then none else some (used.reverse.map row)

def getXnci (S : Serializer V) (f : File) (attr : ExtendedAttributes) (xnci : Name)
    (dsc : Option V) : Except Status V :=
  match getTopIndex f attr with
  | none => .error .failure
  | some topIndex => do
      match ← search f xnci (f.size + 1) topIndex
          attr.facilityOffset[NAMED_ATTRIBUTES_FACILITY] with
      | none => .error .failure
      | some (index, _, i) =>
          if index.attributes[i].length = -1 then .error .badrecord
          else
            match getDsc S f index.attributes[i].offset index.attributes[i].length dsc with
            | some v => .ok v
            | none => .error .failure

def treeGetXNci (S : Serializer V) (s : State V) (xnci : Name) (dsc : Option V) :
    Except Status (Found V) :=
  if nameTooLong xnci then .error .failure
  else
    match
      if s.nci.extendedNci then getRecord extendedAttributes s.file (rfaToSeek s.nci.rfa)
      else none with
    | none => .error .failure
    | some attr =>
        if xnci.chars.map tolower = XNCI_ATTRIBUTE_NAMES then
          match getXnciNames s.file attr with
          | some rows => .ok (.names rows)
          | none => .error .failure
        else do
          let v ← getXnci S s.file attr xnci dsc
          .ok (.value v)

end MdsPlus.NamedAttributes
