import Mathlib.Data.Int.Notation
import Mathlib.Tactic.Common

/-!
The list of databases of a context, the current one first. Calls open a tree in an entry
for it, or close it. What the file operations of a call do is given to it.
-/

namespace MdsPlus.DatabaseList

def treeStatus (value severity : ℤ) : ℤ := 4049 * 65536 + value * 8 + severity

def TreeNOTALLSUBS : ℤ := treeStatus 4100 3
def TreeALREADY_OPEN : ℤ := treeStatus 4103 3
def TreeNOT_OPEN : ℤ := treeStatus 4117 0
def TreeMAXOPENEDIT : ℤ := treeStatus 4123 2
def TreeWRITEFIRST : ℤ := treeStatus 4139 2
def TreeSUCCESS : ℤ := treeStatus 4296 1
def TreeUNSUPTHICKOP : ℤ := treeStatus 4497 0
def TreeINVSHOT : ℤ := treeStatus 4603 2
def TreeNOPATH : ℤ := treeStatus 4606 2
def TreeNOCURRENT : ℤ := treeStatus 4609 2

def isOk (status : ℤ) : Bool := status % 2 = 1

abbrev Name := List Char

/-- An entry of the list. The trees are those of its tree infos, the main tree first. -/
structure Database where
  isOpen : Bool
  openForEdit : Bool
  openReadonly : Bool
  modified : Bool
  remote : Bool
  shotid : ℤ
  mainTreenam : Option Name
  trees : List Name
  stackSize : ℤ
  deriving DecidableEq

def defaultStackLimit : ℤ := 8

/-- A new entry, in which nothing is open. -/
def newDbid : Database := ⟨false, false, false, false, false, 0, none, [], defaultStackLimit⟩

abbrev Failure := {status : ℤ // isOk status = false}

inductive Writing
  | done | notCreated | failed

/-- What the environment does during a call: shot numbers and paths of trees, how the files
of the main tree are mapped or created, which subtrees are connected and whether these are
all, and what a server answers. -/
structure World where
  currentShotId : Name → ℤ
  treePath : Name → Option Name
  mapTree : Option Failure
  subtrees : List Name
  allSubtrees : Bool
  connectRemote : Option Failure
  closeRemote : ℤ
  writing : Writing

/-- The only fault is to compare with a name that is not there, or to read an entry that is
not there. -/
inductive Fault
  | null
  deriving DecidableEq

/-- What a call leaves and returns, and the trees that it writes. -/
structure Result where
  dblist : List Database
  status : ℤ
  written : List (Option Name × ℤ)

def isSpace (c : Char) : Bool := c = ' ' || (9 ≤ c.toNat && c.toNat ≤ 13)

def removeBlanksAndUpcase (tree : Name) : Name := (tree.filter (!isSpace ·)).map Char.toUpper

/-- Tokens between commas; empty ones are passed. -/
def tokens (tree : Name) : List Name := (tree.splitOn ',').filter (!·.isEmpty)

def replaceAliasTree (w : World) (tree : Name) : Name :=
  match w.treePath tree with
  | some path => if 5 < path.length ∧ path.take 5 = "ALIAS".toList then path.drop 5 else tree
  | none => tree

def replaceAliasTrees (w : World) (tree : Name) : Name :=
  ((List.intercalate [','] ((tokens tree).map (replaceAliasTree w)))).map Char.toUpper

def findOpen (tree : Name) (shot : ℤ) :
    List Database → Except Fault (Option (List Database × Database × List Database))
  | [] => .ok none
  | db :: rest =>
      if db.isOpen then
        if db.shotid = shot then
          match db.mainTreenam with
          | none => .error .null
          | some name =>
              if name = tree then .ok (some ([], db, rest))
              else do
                let found ← findOpen tree shot rest
                pure (found.map fun p => (db :: p.1, p.2))
        else do
          let found ← findOpen tree shot rest
          pure (found.map fun p => (db :: p.1, p.2))
      else .ok none

def findClosed : List Database → Option (List Database × Database × List Database)
  | [] => none
  | db :: rest =>
      if db.isOpen then (findClosed rest).map fun p => (db :: p.1, p.2) else some ([], db, rest)

/-- The last entry that may be closed for another tree. -/
def findUseable : List Database → Option (List Database × Database × List Database)
  | [] => none
  | db :: rest =>
      match findUseable rest with
      | some p => some (db :: p.1, p.2)
      | none => if db.openForEdit && db.modified then none else some ([], db, rest)

def moveToTop (p : List Database × Database × List Database) : List Database :=
  p.2.1 :: p.1 ++ p.2.2

/-- The answer does not matter to what is given up. -/
def closeTreeRemote (w : World) (db : Database) : Database × ℤ :=
  ({ db with trees := [], mainTreenam := none, remote := false },
    if w.closeRemote = TreeNOT_OPEN then TreeSUCCESS else w.closeRemote)

def closeTopTree (w : World) (db : Database) : Database × ℤ :=
  if db.remote then closeTreeRemote w db
  else ({ db with
    isOpen := false, openForEdit := false, modified := false, remote := false,
    mainTreenam := none, trees := [] }, TreeSUCCESS)

def setTop (tree : Name) (shot stackSize : ℤ) (db : Database) : Database :=
  { db with shotid := shot, mainTreenam := some tree, stackSize }

def closeAtTop (w : World) (tree : Name) (shot stackSize : ℤ)
    (p : List Database × Database × List Database) : List Database :=
  setTop tree shot stackSize (closeTopTree w p.2.1).1 :: p.1 ++ p.2.2

def topStackSize (s : List Database) : ℤ := (s.head?.map (·.stackSize)).getD defaultStackLimit

def newSlot (w : World) (s : List Database) (tree : Name) (shot : ℤ) : List Database × ℤ :=
  match findClosed s with
  | some p => (setTop tree shot (topStackSize s) p.2.1 :: p.1 ++ p.2.2, TreeSUCCESS)
  | none =>
      if topStackSize s ≤ s.length then
        match findUseable s with
        | some p => (closeAtTop w tree shot (topStackSize s) p, TreeSUCCESS)
        | none => (s, TreeMAXOPENEDIT)
      else (setTop tree shot (topStackSize s) newDbid :: s, TreeSUCCESS)

def createDbSlot (w : World) (s : List Database) (tree : Name) (shot : ℤ) (editting : Bool) :
    Except Fault (List Database × ℤ) := do
  match ← findOpen tree shot s with
  | some p =>
      if editting then
        if p.2.1.openForEdit then pure (moveToTop p, TreeALREADY_OPEN)
        else pure (closeAtTop w tree shot (topStackSize s) p, TreeSUCCESS)
      else if p.2.1.openForEdit then
        if p.2.1.modified then pure (s, TreeWRITEFIRST)
        else pure (closeAtTop w tree shot (topStackSize s) p, TreeSUCCESS)
      else pure (moveToTop p, TreeALREADY_OPEN)
  | none => pure (newSlot w s tree shot)

def freeTopDb : List Database → List Database
  | _ :: db :: rest => db :: rest
  | s => s

def connectTree (w : World) (tree : Name) (db : Database) : Database × ℤ :=
  let status := if w.allSubtrees then TreeSUCCESS else TreeNOTALLSUBS
  if tree ∈ db.trees then ({ db with trees := db.trees ++ w.subtrees }, status)
  else match w.mapTree with
    | some failure => (db, failure)
    | none => ({ db with trees := tree :: w.subtrees, remote := false }, status)

def connectTreeRemote (w : World) (tree : Name) (db : Database) : Database × ℤ :=
  match w.connectRemote with
  | some failure => (db, failure)
  | none => ({ db with trees := [tree], remote := true }, TreeSUCCESS)

def connect (w : World) (tree path : Name) (db : Database) : Database × ℤ :=
  let r := connectTree w tree db
  if r.2 = TreeUNSUPTHICKOP ∧ 2 < path.length ∧ path.drop (path.length - 2) = "::".toList then
    connectTreeRemote w tree r.1
  else r

def openTop (w : World) (tree path : Name) (readOnly : Bool) : List Database → Except Fault Result
  | [] => .error .null
  | db :: rest =>
      let r := connect w tree path db
      if r.2 = TreeSUCCESS ∨ r.2 = TreeNOTALLSUBS then
        .ok ⟨{ r.1 with isOpen := true, openReadonly := readOnly } :: rest, r.2, []⟩
      else .ok ⟨freeTopDb (r.1 :: rest), r.2, []⟩

def mainTree (w : World) (tree : Name) : Name :=
  (replaceAliasTrees w (removeBlanksAndUpcase tree)).takeWhile (· ≠ ',')

def shotOf (w : World) (tree : Name) (shot : ℤ) : ℤ := if shot = 0 then w.currentShotId tree else shot

def treeOpen (w : World) (s : List Database) (tree : Name) (shot : ℤ) (readOnly : Bool) :
    Except Fault Result := do
  let main := mainTree w tree
  let shot := shotOf w main shot
  if shot < -1 then pure ⟨s, TreeINVSHOT, []⟩
  else if shot = 0 then pure ⟨s, TreeNOCURRENT, []⟩
  else match w.treePath main with
    | none => pure ⟨s, TreeNOPATH, []⟩
    | some path => do
        let r ← createDbSlot w s main shot false
        if r.2 = TreeSUCCESS ∨ r.2 = TreeALREADY_OPEN then openTop w main path readOnly r.1
        else pure ⟨r.1, r.2, []⟩

def editTop (w : World) (tree : Name) : List Database → Except Fault Result
  | [] => .error .null
  | db :: rest =>
      match w.mapTree with
      | some failure => .ok ⟨freeTopDb (db :: rest), failure, []⟩
      | none => .ok ⟨{ db with
          trees := [tree], isOpen := true, openForEdit := true, openReadonly := false } :: rest,
          TreeSUCCESS, []⟩

def openEditSlot (w : World) (s : List Database) (tree : Name) (shot : ℤ) : Except Fault Result := do
  let tree := removeBlanksAndUpcase tree
  let shot := shotOf w tree shot
  if shot < -1 then pure ⟨s, TreeINVSHOT, []⟩
  else if shot = 0 then pure ⟨s, TreeNOCURRENT, []⟩
  else do
    let r ← createDbSlot w s tree shot true
    if r.2 = TreeSUCCESS then editTop w tree r.1 else pure ⟨r.1, r.2, []⟩

def treeOpenEdit (w : World) (s : List Database) (tree : Name) (shot : ℤ) : Except Fault Result :=
  openEditSlot w s tree shot

/-- Modifications are given up also when the new file is not created. -/
def afterWriting (w : World) (db : Database) : Database :=
  match w.writing with
  | .failed => db
  | .done | .notCreated => { db with modified := false }

def treeWriteTree (w : World) : List Database → List Database × List (Option Name × ℤ)
  | [] => ([], [])
  | db :: rest =>
      if db.isOpen && db.openForEdit then (afterWriting w db :: rest, [(db.mainTreenam, db.shotid)])
      else (db :: rest, [])

def treeOpenNew (w : World) (s : List Database) (tree : Name) (shot : ℤ) : Except Fault Result := do
  let r ← openEditSlot w s tree shot
  if isOk r.status then
    let (dblist, written) := treeWriteTree w r.dblist
    pure { r with dblist, written }
  else pure r

def closeTop (w : World) : List Database → Result
  | [] => ⟨[], TreeNOT_OPEN, []⟩
  | db :: rest =>
      if db.modified then ⟨db :: rest, TreeWRITEFIRST, []⟩
      else if db.isOpen then
        let r := closeTopTree w db
        if isOk r.2 then ⟨freeTopDb (r.1 :: rest), r.2, []⟩ else ⟨r.1 :: rest, r.2, []⟩
      else ⟨db :: rest, TreeNOT_OPEN, []⟩

def treeClose (w : World) (s : List Database) (tree : Option Name) (shot : ℤ) : Except Fault Result :=
  match s, tree with
  | [], _ => .ok ⟨[], TreeNOT_OPEN, []⟩
  | s, none => .ok (closeTop w s)
  | s, some tree => do
      match ← findOpen ((tree.take 12).map Char.toUpper) (shotOf w tree shot) s with
      | some p => pure (closeTop w (moveToTop p))
      | none => pure ⟨s, TreeNOT_OPEN, []⟩

/-- All entries get the size; that of the top is returned. -/
def treeSetStackSize (s : List Database) (size : ℤ) : Except Fault Result :=
  match s with
  | [] => .error .null
  | db :: rest =>
      .ok ⟨(db :: rest).map fun db => { db with stackSize := if 0 < size then size else 1 },
        db.stackSize, []⟩

def edit : List Database → List Database
  | db :: rest => if db.isOpen && db.openForEdit then { db with modified := true } :: rest else db :: rest
  | [] => []

inductive Op
  | open (tree : Name) (shot : ℤ) (readOnly : Bool)
  | openEdit (tree : Name) (shot : ℤ)
  | openNew (tree : Name) (shot : ℤ)
  | close (tree : Option Name) (shot : ℤ)
  | setStackSize (size : ℤ)
  | edit

def call (s : List Database) : Op × World → Except Fault Result
  | (.open tree shot readOnly, w) => treeOpen w s tree shot readOnly
  | (.openEdit tree shot, w) => treeOpenEdit w s tree shot
  | (.openNew tree shot, w) => treeOpenNew w s tree shot
  | (.close tree shot, w) => treeClose w s tree shot
  | (.setStackSize size, _) => treeSetStackSize s size
  | (.edit, _) => .ok ⟨edit s, TreeSUCCESS, []⟩

def step (s : List Database) (op : Op × World) : Except Fault (List Database) := do
  let r ← call s op
  pure r.dblist

end MdsPlus.DatabaseList
