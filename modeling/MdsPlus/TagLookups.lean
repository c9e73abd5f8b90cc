import MdsPlus.NameMatching
import MdsPlus.TagAnswers

/-!
Tags as a search for nodes looks them up, in the order of their blocks. The reserved name comes
first, and when it goes with the pattern no other is looked at. Each name is copied without its
blanks into one buffer and compared.
-/

namespace MdsPlus.TagLookups

open NameMatching NodeLinks NodeSearch StrMatchWild TagAnswers TagInvariant TagNames TagSearch
open TagTable Wildcards
open BitMemory (Byte)
open Subtrees (Address Nid nodeToNid)

def byte (c : CChar) : Byte := BitVec.ofNat 8 c.val

def bytes (chars : List CChar) : List Byte := chars.map byte

def alphaplus (c : CChar) : Bool := isTagChar (toupper c) || c = 42 || c = 63 || c = 37

/-- A name of a tag in a path, or a pattern of names. -/
structure Term where
  text : CString
  length : 1 ≤ text.strlen ∧ text.strlen ≤ tagNameSize
  chars : ∀ c ∈ text.chars, alphaplus c = true

def Term.term (q : Term) : List CChar := q.text.chars.map toupper

def isWild2 (str : List CChar) : Bool := str.any fun c => c = 42 || c = 37

/-- The blocks from one on whose names go with the pattern, the first only if it is not wild. -/
def foundFrom (t : Tables) (tagname : List CChar) : ℕ → ℕ → List Byte → List (Option ℕ)
  | 0, _, _ => []
  | left + 1, i, trimmed =>
      let trimmed := trimCpy trimmed (bytes (t.info i).name)
      if matchNames (bytes tagname) trimmed then
        some i :: if isWild2 tagname then foundFrom t tagname left (i + 1) trimmed else []
      else foundFrom t tagname left (i + 1) trimmed

/-- The tags that are found: the reserved one, or blocks. What is behind the reserved name and
what is in the buffer before are read as well. -/
def foundTags (t : Tables) (tagname : List CChar) (behind stack : List Byte) : List (Option ℕ) :=
  if matchNames (bytes tagname) (bytes top ++ 0#8 :: behind) then [none]
  else foundFrom t tagname t.tags 0 stack

def nodeOf (t : Tables) : Option ℕ → ℕ
  | none => 0
  | some i => (t.info i).nodeIdx

/-- In the place of a reference one comes to the top node of its subtree. -/
def nodeFound (s : Store) (treenum n : ℕ) : Option Address :=
  if (s.node (treenum, n)).usage = TreeUSAGE_SUBTREE_REF then childOf s (treenum, n)
  else some (treenum, n)

def findTags (s : Store) (t : Tables) (treenum : ℕ) (tagname : List CChar)
    (behind stack : List Byte) : List (Option Address) :=
  (foundTags t tagname behind stack).map fun tag => nodeFound s treenum (nodeOf t tag)

/-- The answers of a sequence of calls, up to the first that gives none. -/
def answersOf (db : Database) (wild : CString) : ℕ → Option Context → Except Fault (List Answer)
  | 0, _ => .ok []
  | fuel + 1, ctx => do
      match ← treeFindTagWild db wild ctx with
      | none => .ok []
      | some (a, ctx) => do
          let rest ← answersOf db wild fuel (some ctx)
          .ok (a :: rest)

/-! ### What the lookups should give -/

def Tagged (t : Tables) (name : List CChar) (n : ℕ) : Prop :=
  name = top ∧ n = 0 ∨ ∃ i, i < t.tags ∧ strTrim (t.info i).name = name ∧ (t.info i).nodeIdx = n

/-- Every node with a tag that matches is there once, and no other is. -/
def Lists {α : Type*} (t : Tables) (matched : List CChar → Prop) (place : ℕ → α)
    (answers : List α) : Prop :=
  answers.Nodup ∧ ∀ a, a ∈ answers ↔ ∃ name n, Tagged t name n ∧ matched name ∧ place n = a

/-- An index of tags in memory that has each of them once, in the order of their names. -/
structure Indexed (t : OpenTree) : Prop where
  index_lt : ∀ i, i < t.tables.tags → t.tables.index i < t.tables.tags
  index_room : t.tables.tags ≤ t.tables.indexRoom
  info_room : t.tables.tags ≤ t.tables.infoRoom
  root : t.tables.root = 0

def alone (t : OpenTree) : Database := ⟨[t], List.nodup_singleton _⟩

def nidOf (n : ℕ) : Nid := nodeToNid (some (0, n))

/-- The three lookups give the same nodes. -/
def Agree (s : Store) (t : OpenTree) (q : Term) (behind stack : List Byte) : Prop :=
  ∃ nodes : List ℕ,
    findTags s t.tables 0 q.term behind stack = nodes.map (fun n => some (0, n)) ∧
    (∃ r, findTag t.tables q.text = .ok r ∧ (r.map Prod.fst).toList = nodes) ∧
    ∃ answers, answersOf (alone t) q.text (t.tables.tags + 2) none = .ok answers ∧
      answers.map Answer.nid = nodes.map nidOf

/-! ### Names in the buffer -/

/-- What is in the buffer after the names of some blocks were copied. -/
def buffer (t : Tables) (stack : List Byte) : ℕ → List Byte
  | 0 => stack
  | i + 1 => trimCpy (buffer t stack i) (bytes (t.info i).name)

/-- Whether a tag goes with the pattern as its name is read. -/
def hit (t : Tables) (tagname : List CChar) (behind stack : List Byte) : Option ℕ → Bool
  | none => matchNames (bytes tagname) (bytes top ++ 0#8 :: behind)
  | some i => matchNames (bytes tagname) (buffer t stack (i + 1))

/-- The tags that are answered: the reserved one alone, or those that are hit, up to the first when
the pattern is not wild. -/
def Answered (t : Tables) (tagname : List CChar) (behind stack : List Byte) : Option ℕ → Prop
  | none => hit t tagname behind stack none = true
  | some i =>
      hit t tagname behind stack none = false ∧ i < t.tags ∧
        hit t tagname behind stack (some i) = true ∧
        (isWild2 tagname = true ∨ ∀ j < i, hit t tagname behind stack (some j) = false)

section Found

variable {t : Tables} {tagname : List CChar} {behind stack : List Byte}

end Found

/-! ### Lists of nodes -/

section Table

variable {t : OpenTree} (h : Indexed t)

include h

theorem Indexed.ordered : Ordered t.tables where
  named i hi := by
    obtain ⟨tag, hlegal, hlen, hname⟩ := t.tagged i hi
    rw [hname]
    exact tagName_blankFilled tag hlen fun c hc => (isTagChar_ne (legal_named hlegal c hc)).1
  index_lt := h.index_lt
  sorted := t.sorted
  index_room := h.index_room
  info_room := h.info_room

theorem Indexed.block {i : ℕ} (hi : i < t.tables.tags) :
    Named (strTrim (t.tables.info i).name) ∧
      (t.tables.info i).name = blankFilled (strTrim (t.tables.info i).name) := by
  obtain ⟨place, hplace, rfl⟩ := h.ordered.exists_place hi
  obtain ⟨hlegal, -, hname⟩ := legal_tagName hplace
  exact ⟨legal_named hlegal, hname⟩

def tagOf (t : Tables) : Option ℕ → List CChar
  | none => top
  | some i => strTrim (t.info i).name

variable {pat : List CChar} {behind stack : List Byte}

end Table

section Table

variable {t : OpenTree} (h : Indexed t) {pat : List CChar} {behind stack : List Byte}

include h

end Table

/-! ### The wildcard search -/

section Calls

variable {s : Search} {t : OpenTree}

end Calls

/-! ### Literal names -/

section Literal

variable {s : Store} {t : OpenTree} {q : Term} {behind stack : List Byte}

end Literal

/-! ### All lookups -/

section Lookups

variable {s : Store} {t : OpenTree} {q : Term} {behind stack : List Byte}

end Lookups

end MdsPlus.TagLookups
