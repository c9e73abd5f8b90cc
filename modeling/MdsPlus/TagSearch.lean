import Mathlib.Data.List.DropRight
import MdsPlus.StrMatchWild
import MdsPlus.Subtrees
import MdsPlus.TagInvariant

/-!
Searching the tags of the trees that are open. A pattern names trees and tags; a context keeps
what it is split into and the place of the next tag, and each call gives an answer with the
name of the tree and of the tag. Used as a pattern without its backslash an answer is found
again; with it the length of the tree name is one too many.
-/

namespace MdsPlus.TagSearch

open StrMatchWild Subtrees TagTable TagInvariant

def treeNameSize : ℕ := 12

/-- A tree that is open. Its name is made of the characters of names, and its tags are those
that were added, in the order of their names. -/
structure OpenTree where
  treenam : List CChar
  tables : Tables
  named : ∀ c ∈ treenam, isTagChar c = true
  short : treenam.length ≤ treeNameSize
  tagged : ∀ i < tables.tags, ∃ tag, legal tag = true ∧ tag.length ≤ tagNameSize ∧
    nameAt tables i = blankFilled tag
  sorted : ∀ i j, i < j → j < tables.tags → nameAt tables i < nameAt tables j

structure Database where
  trees : List OpenTree
  nodup : (trees.map OpenTree.treenam).Nodup

structure Search where
  searchTree : List CChar
  searchTag : List CChar
  topMatch : Bool

/-- The tree that is searched, those behind it, and the next tag; the reserved tag comes before
those of the table. -/
structure Position where
  index : ℕ
  tree : OpenTree
  rest : List OpenTree
  nextTag : Option ℕ

abbrev Context := Search × Position

structure Answer where
  text : List CChar
  nid : Nid
  deriving DecidableEq

/-! ### Splitting the pattern -/

def findColons : List CChar → Option ℕ
  | a :: b :: rest =>
      if a = 58 ∧ b = 58 then some 0 else (findColons (b :: rest)).map (· + 1)
  | _ => none

def copyChars (s : List CChar) (start length : ℕ) : Except Fault (List CChar) :=
  if start + length ≤ s.length + 1 then .ok (((s ++ [0]).drop start).take length)
  else .error .outOfRange

def lengthOf (n : ℤ) : ℕ := (n % 65536).toNat

def star : List CChar := [42]

def newTagSearch (tagnam : CString) : Except Fault Search := do
  let skipped := if tagnam.chars.head? = some 92 then 1 else 0
  let pointer := tagnam.chars.drop skipped
  let length := lengthOf (tagnam.strlen - skipped)
  let (tree, start, length) ←
    match findColons tagnam.chars with
    | some colons => do
        let treeLen := lengthOf colons
        let tree ← copyChars pointer 0 treeLen
        .ok (tree, treeLen + 2, lengthOf (length - treeLen - 2))
    | none => .ok (star, 0, length)
  let tag ← if length = 0 then .ok star else copyChars pointer start length
  let searchTag := tag.map toupper
  .ok ⟨tree.map toupper, searchTag, matchWild top searchTag⟩

/-! ### The search -/

/-- Blanks and tabs at the end of a name are left out. -/
def strTrim (name : List CChar) : List CChar := name.rdropWhile fun c => c = 32 ∨ c = 9

def tagName (t : OpenTree) : Option ℕ → List CChar
  | none => top
  | some i => strTrim (nameAt t.tables i)

def tagNode (t : OpenTree) : Option ℕ → ℕ
  | none => 0
  | some i => (t.tables.info (t.tables.index i)).nodeIdx

def nextTagTree (s : Search) : ℕ → List OpenTree → Option Position
  | _, [] => none
  | i, t :: rest =>
      if matchWild t.treenam s.searchTree then some ⟨i, t, rest, none⟩
      else nextTagTree s (i + 1) rest

theorem nextTagTree_rest {s : Search} {i : ℕ} {trees : List OpenTree} {p : Position}
    (h : nextTagTree s i trees = some p) : p.rest.length < trees.length := by
  induction trees generalizing i with
  | nil => cases h
  | cons t rest ih =>
    rw [nextTagTree] at h
    split at h
    · cases h
      simp
    · exact Nat.lt_succ_of_lt (ih h)

def findTagFrom (s : Search) (t : OpenTree) (i : ℕ) : Option ℕ :=
  (List.range' i (t.tables.tags - i)).find? fun i =>
    matchWild (strTrim (nameAt t.tables i)) s.searchTag

def findInTree (s : Search) (t : OpenTree) : Option ℕ → Option (Option ℕ)
  | none => if s.topMatch then some none else (findTagFrom s t 0).map some
  | some i => (findTagFrom s t i).map some

def findtag (s : Search) (p : Position) : Option Position :=
  match findInTree s p.tree p.nextTag with
  | some nextTag => some { p with nextTag }
  | none =>
      match _h : nextTagTree s (p.index + 1) p.rest with
      | none => none
      | some p => findtag s p
termination_by p.rest.length
decreasing_by exact nextTagTree_rest _h

theorem findtag_eq (s : Search) (p : Position) :
    findtag s p =
      match findInTree s p.tree p.nextTag with
      | some nextTag => some { p with nextTag }
      | none => (nextTagTree s (p.index + 1) p.rest).bind (findtag s) := by
  rw [findtag]
  split
  · rfl
  · split <;> simp [*]

/-- Trees are numbered with eight bits, nodes with twenty-four. -/
def answerAt (p : Position) : Answer where
  text := 92 :: p.tree.treenam ++ [58, 58] ++ tagName p.tree p.nextTag
  nid := nodeToNid (some (p.index, tagNode p.tree p.nextTag))

def nextPlace : Option ℕ → Option ℕ
  | none => some 0
  | some i => some (i + 1)

/-- A call with the context of the one before, if there is one. After the last answer the
context is gone. -/
def treeFindTagWild (db : Database) (wild : CString) (ctx : Option Context) :
    Except Fault (Option (Answer × Context)) := do
  let found ←
    match ctx with
    | none => do
        let s ← newTagSearch wild
        .ok ((nextTagTree s 0 db.trees).bind fun p => (findtag s p).map fun p => (s, p))
    | some (s, p) => .ok ((findtag s p).map fun p => (s, p))
  .ok (found.map fun (s, p) => (answerAt p, s, { p with nextTag := nextPlace p.nextTag }))

inductive Returned (db : Database) : Answer → Context → Prop
  | first {wild : CString} {a : Answer} {ctx : Context} :
      treeFindTagWild db wild none = .ok (some (a, ctx)) → Returned db a ctx
  | next {wild : CString} {a b : Answer} {ctx ctx' : Context} :
      Returned db a ctx → treeFindTagWild db wild (some ctx) = .ok (some (b, ctx')) →
        Returned db b ctx'

def firstAnswer (db : Database) (wild : CString) : Except Fault (Option Answer) := do
  let r ← treeFindTagWild db wild none
  .ok (r.map Prod.fst)

end MdsPlus.TagSearch
