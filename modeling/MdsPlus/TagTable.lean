import MdsPlus.BinarySearch
import MdsPlus.OwnerChain
import Mathlib.Algebra.GroupWithZero.Nat
import Mathlib.Data.Fintype.Basic

/-!
The tag tables of a tree open for edit: tag information blocks in the order they
were added, an index of them sorted by name, and for every node the link to its
newest tag. Tag links are one more than an index and zero ends a chain. Reading or
writing outside a table is a fault.
-/

namespace MdsPlus.TagTable

open BinarySearch

abbrev CChar := Fin 256

instance neZero_chars : NeZero 256 := ⟨by decide⟩

/-- A terminated character string: the characters before the terminator. -/
structure CString where
  chars : List CChar
  noNul : ∀ c ∈ chars, c ≠ 0

def CString.strlen (s : CString) : ℕ := s.chars.length

def tagNameSize : ℕ := 24
def tagInfoSize : ℕ := 32

structure TagInfo where
  name : List CChar
  nodeIdx : ℕ
  tagLink : ℕ

/-- The arrays behind TREE_INFO with the room they have; `nodes` and `tags` are the
counts in the header, the page counts are those of the edit block. There is one
tree, so nodes are numbered within it. -/
structure Tables where
  openForEdit : Bool
  root : ℕ
  nodes : ℕ
  nodeLink : ℕ → ℕ
  tags : ℕ
  index : ℕ → ℕ
  indexRoom : ℕ
  tagsPages : ℕ
  info : ℕ → TagInfo
  infoRoom : ℕ
  tagInfoPages : ℕ

inductive Fault
  | outOfRange
  | endless
  deriving DecidableEq, Repr

inductive Status
  | success | noedit | tagnamlen | invtag | duptag | tnf
  deriving DecidableEq, Repr

namespace Tables

def loadIndex (s : Tables) (i : ℕ) : Except Fault ℕ :=
  if i < s.indexRoom then .ok (s.index i) else .error .outOfRange

def loadInfo (s : Tables) (i : ℕ) : Except Fault TagInfo :=
  if i < s.infoRoom then .ok (s.info i) else .error .outOfRange

def loadNodeLink (s : Tables) (n : ℕ) : Except Fault ℕ :=
  if n < s.nodes then .ok (s.nodeLink n) else .error .outOfRange

end Tables

def toupper (c : CChar) : CChar := if 97 ≤ c ∧ c ≤ 122 then c - 32 else c

/-- Difference at the first place where the arrays differ, within `n` characters. -/
def strncmp : ℕ → List CChar → List CChar → ℤ
  | n + 1, a :: as, b :: bs =>
      if a ≠ b then (a : ℤ) - b else if a = 0 then 0 else strncmp n as bs
  | _, _, _ => 0

def blankFilled (chars : List CChar) : List CChar :=
  chars.map toupper ++ List.replicate (tagNameSize - chars.length) 32

def isAlpha (c : CChar) : Bool := 65 ≤ c && c ≤ 90

def isTagChar (c : CChar) : Bool := isAlpha c || (48 ≤ c && c ≤ 57) || c = 95

/-- An alphabetic character followed by alphanumerics or underscores. -/
def legal : List CChar → Bool
  | [] => false
  | c :: cs => isAlpha c && cs.all isTagChar

/-- Where the new name goes in the sorted index; `none` when it is there already. -/
def findSlot (s : Tables) (tag : List CChar) : ℕ → ℕ → Except Fault (Option ℕ)
  | 0, tidx => .ok (some tidx)
  | left + 1, tidx => do
      let idx ← s.loadIndex tidx
      let defined ← s.loadInfo idx
      let cmp := strncmp tagNameSize tag defined.name
      if cmp = 0 then .ok none
      else if cmp < 0 then .ok (some tidx)
      else findSlot s tag left (tidx + 1)

def pagesFor (size count : ℕ) : ℕ := (count * size + 511) / 512

def insertIndex (s : Tables) (slot : ℕ) : Except Fault Tables :=
  let needed := pagesFor 4 (s.tags + 1)
  let allocated := max (pagesFor 4 s.tags) s.tagsPages
  let moved (rest : ℕ → ℕ) : ℕ → ℕ := fun i =>
    if i < slot then s.index i
    else if i = slot then s.tags
    else if i ≤ s.tags then s.index (i - 1) else rest i
  if s.indexRoom < s.tags then .error .outOfRange
  else if needed > allocated then
    .ok { s with index := moved fun _ => 0, indexRoom := 128 * needed, tagsPages := needed }
  else if s.indexRoom ≤ s.tags then .error .outOfRange
  else .ok { s with index := moved s.index }

def appendInfo (s : Tables) (new : TagInfo) : Except Fault Tables :=
  let needed := pagesFor tagInfoSize (s.tags + 1)
  let allocated := max (pagesFor tagInfoSize s.tags) s.tagInfoPages
  let blank : TagInfo := ⟨List.replicate tagNameSize 0, 0, 0⟩
  if s.infoRoom < s.tags then .error .outOfRange
  else if needed > allocated then
    .ok { s with
      info := fun i => if i < s.tags then s.info i else if i = s.tags then new else blank
      infoRoom := 16 * (needed + 31), tagInfoPages := needed + 31 }
  else if s.infoRoom ≤ s.tags then .error .outOfRange
  else .ok { s with info := Function.update s.info s.tags new }

def addTag (s : Tables) (nid : ℕ) (tagnam : CString) : Except Fault (Tables × Status) :=
  if ¬ s.openForEdit then .ok (s, .noedit)
  else if tagnam.strlen < 1 ∨ tagnam.strlen > tagNameSize then .ok (s, .tagnamlen)
  else if ¬ legal (tagnam.chars.map toupper) then .ok (s, .invtag)
  else do
    let tag := blankFilled tagnam.chars
    match ← findSlot s tag s.tags 0 with
    | none => .ok (s, .duptag)
    | some slot => do
        let s ← insertIndex s slot
        let link ← s.loadNodeLink nid
        let s ← appendInfo s ⟨tag, nid, link⟩
        let tags := s.tags + 1
        .ok ({ s with nodeLink := Function.update s.nodeLink nid tags, tags := tags }, .success)

/-- The walk along a chain to the entry that links to `tagidx`, or to its end. -/
def findLink (s : Tables) (tagidx : ℕ) : ℕ → ℕ → Except Fault ℕ
  | 0, _ => .error .endless
  | fuel + 1, i => do
      let info ← s.loadInfo i
      if info.tagLink ≠ tagidx ∧ info.tagLink > 0 then findLink s tagidx fuel (info.tagLink - 1)
      else .ok i

def unlink (s : Tables) (tagidx : ℕ) (removed : TagInfo) : Except Fault Tables := do
  let link ← s.loadNodeLink removed.nodeIdx
  if link = tagidx then
    .ok { s with nodeLink := Function.update s.nodeLink removed.nodeIdx removed.tagLink }
  else if link = 0 then .error .outOfRange
  else do
    let i ← findLink s tagidx (s.infoRoom + 1) (link - 1)
    let info ← s.loadInfo i
    if info.tagLink = tagidx then
      .ok { s with info := Function.update s.info i { info with tagLink := removed.tagLink } }
    else .ok s

/-- Links at or above a value move down by one. -/
def lower (tagidx link : ℕ) : ℕ := if link ≥ tagidx then link - 1 else link

/-- The last place in the first `n` of the index that holds a value. -/
def lastPlace (index : ℕ → ℕ) (v : ℕ) : ℕ → Option ℕ
  | 0 => none
  | n + 1 => if index n = v then some n else lastPlace index v n

def removeTagIdx (s : Tables) (tagidx : ℕ) : Except Fault Tables :=
  if s.tags ≤ 0 then .ok s
  else if tagidx = 0 ∨ s.infoRoom < s.tags ∨ s.indexRoom < s.tags then .error .outOfRange
  else do
    let removed ← s.loadInfo (tagidx - 1)
    let s ← unlink s tagidx removed
    let info := fun i =>
      if i < s.tags then { s.info i with tagLink := lower tagidx (s.info i).tagLink } else s.info i
    let nodeLink := fun n => if n < s.nodes then lower tagidx (s.nodeLink n) else s.nodeLink n
    let index := fun i => if i < s.tags then lower tagidx (s.index i) else s.index i
    let s := { s with info, nodeLink }
    match lastPlace s.index (tagidx - 1) s.tags with
    | none => .ok { s with index, tags := s.tags - 1 }
    | some place =>
        -- the move up by one starts from the place and ends with the entry past the last
        if s.indexRoom ≤ s.tags then .error .outOfRange
        else
          .ok { s with
            index := fun i => if place ≤ i ∧ i < s.tags then index (i + 1) else index i
            info := fun i =>
              if tagidx - 1 ≤ i ∧ i < s.tags - 1 then info (i + 1) else info i
            tags := s.tags - 1 }

def shortOf (n : ℕ) : ℤ := (n + 32768) % 65536 - 32768

/-- The name looked for: as many characters as the length says, at most a tag name. -/
def searchName (tagnam : CString) : List CChar :=
  blankFilled (tagnam.chars.take (min (shortOf tagnam.strlen) tagNameSize).toNat)

def top : List CChar := [84, 79, 80]

def isTop (tagnam : CString) : Prop :=
  shortOf tagnam.strlen = 3 ∧ strncmp 3 tagnam.chars top = 0

instance (tagnam : CString) : Decidable (isTop tagnam) := inferInstanceAs (Decidable (_ ∧ _))

def bsearchCompare (s : Tables) (tag : List CChar) (i : ℕ) : Except Fault ℤ := do
  let idx ← s.loadIndex i
  let info ← s.loadInfo idx
  .ok (strncmp tagNameSize tag info.name)

/-- The node and the tag index of a name in the named tree; `none` is TreeTNF. -/
def findTag (s : Tables) (tagnam : CString) : Except Fault (Option (ℕ × ℕ)) :=
  let tag := searchName tagnam
  if isTop tagnam then .ok (some (s.root, 0))
  else if s.tags = 0 then .ok none
  else if s.tags = 1 then do
    let cmp ← bsearchCompare s tag 0
    if cmp = 0 then do
      let info ← s.loadInfo 0
      .ok (some (info.nodeIdx, 1))
    else .ok none
  else do
    match ← bsearch (bsearchCompare s tag) s.tags 0 s.tags with
    | none => .ok none
    | some i => do
        let idx ← s.loadIndex i
        let info ← s.loadInfo idx
        .ok (some (info.nodeIdx, idx + 1))

def removeTag (s : Tables) (name : CString) : Except Fault (Tables × Status) :=
  if ¬ s.openForEdit then .ok (s, .noedit)
  else do
    match ← findTag s name with
    | none => .ok (s, .tnf)
    | some (_, idx) => do
        let s ← removeTagIdx s idx
        .ok (s, .success)

def removeChain : ℕ → Tables → ℕ → Except Fault Tables
  | 0, _, _ => .error .endless
  | fuel + 1, s, tagidx =>
      if tagidx = 0 then .ok s
      else do
        let info ← s.loadInfo (tagidx - 1)
        let s ← removeTagIdx s tagidx
        removeChain fuel s info.tagLink

def removeNodesTags (s : Tables) (nid : ℕ) : Except Fault (Tables × Status) :=
  if ¬ s.openForEdit then .ok (s, .noedit)
  else do
    let tagidx ← s.loadNodeLink nid
    let s ← removeChain (s.infoRoom + 1) s tagidx
    .ok (s, .success)

inductive Op
  | addTag (nid : ℕ) (tagnam : CString)
  | removeTag (name : CString)
  | removeNodesTags (nid : ℕ)

/-- One call of the edit session; its status does not matter to the tables. -/
def exec (s : Tables) : Op → Except Fault Tables
  | .addTag nid tagnam => do
      let r ← addTag s nid tagnam
      .ok r.1
  | .removeTag name => do
      let r ← removeTag s name
      .ok r.1
  | .removeNodesTags nid => do
      let r ← removeNodesTags s nid
      .ok r.1

end MdsPlus.TagTable
