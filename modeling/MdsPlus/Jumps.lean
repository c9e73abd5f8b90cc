import MdsPlus.Statements

/-!
Jumps as they are meant. A jump looks for its label in the innermost list that is being
run, also in the blocks of the list, and goes on from the labelled statement; if the list
has no such label the jump goes to the list around it. Labels that a list begins with are
known in it. Every jump is noted down with the list it came to.
-/

namespace MdsPlus.Jumps

open Statements

variable {ε ν υ σ α β : Type}

/-- The way to a statement: its place in a list, its place in the block there, and so on. -/
abbrev Path := List ℕ

section Find

variable [DecidableEq ν] (x : ν)

mutual

def findIn : Stmt ε ν → Option Path
  | .label _ body | .case _ body | .default body | .statement body => find body
  | .expr _ | .goto _ | .ifElse .. | .switch .. => none

/-- The first statement that carries the label. -/
def find : List (Stmt ε ν) → Option Path
  | [] => none
  | s :: rest =>
      if s.isLabel x then some [0]
      else match findIn s with
        | some path => some (0 :: path)
        | none => match find rest with
          | some (n :: path) => some ((n + 1) :: path)
          | other => other

end

end Find

structure Jump (ε ν : Type) where
  front : List ν
  list : List (Stmt ε ν)
  label : Option ν

def Jump.target [DecidableEq ν] (j : Jump ε ν) : Option Path :=
  match j.label with
  | none => none
  | some x => match find x j.list with
    | some path => some path
    | none => if j.list ≠ [] ∧ x ∈ j.front then some [] else none

/-- A jump to the very front of its list. -/
def Jump.Leads [DecidableEq ν] (j : Jump ε ν) : Prop :=
  ∃ path, j.target = some path ∧ ∀ k ∈ path, k = 0

instance [DecidableEq ν] (j : Jump ε ν) : Decidable j.Leads :=
  match h : j.target with
  | none => isFalse fun ⟨path, hpath, _⟩ => by rw [h] at hpath; cases hpath
  | some path => decidable_of_iff (∀ k ∈ path, k = 0)
      ⟨fun hzero => ⟨path, h, hzero⟩, fun ⟨_, hpath, hzero⟩ => by
        rw [h] at hpath
        cases hpath
        exact hzero⟩

/-- Calls of one depth that may start within a list, along a path. -/
structure Calls (ε ν υ σ : Type) where
  evaluate : List ν → Path → Stmt ε ν → StateM σ (υ × ℤ)
  statement : List ν → Path → List (Stmt ε ν) → StateM σ (υ × ℤ)
  intrinsic : List ν → Path → Stmt ε ν → StateM σ (υ × ℤ)

/-- The statements of a list along a path. Only the first one begins what the list begins. -/
def evaluateFrom (evaluate : List ν → Path → Stmt ε ν → StateM σ (υ × ℤ)) (front : List ν)
    (path : Path) (list : List (Stmt ε ν)) (r : υ × ℤ) : StateM σ (υ × ℤ) :=
  match list.drop (path.headD 0) with
  | [] => pure r
  | s :: rest =>
      if isOk r.2 then do
        let r ← evaluate (if path.headD 0 = 0 then front else []) path.tail s
        evaluateAll (evaluate [] []) rest r
      else pure r

section Ideal

/-- An expression that leaves the notes alone. -/
def unnoted (m : StateM σ α) : StateM (σ × List (Jump ε ν)) α :=
  fun s => ((m s.1).1, (m s.1).2, s.2)

/-- The rest of the language, beside notes. -/
def noting (S : Exprs ε ν υ σ) : Exprs ε ν υ (σ × List (Jump ε ν)) where
  nothing := S.nothing
  evaluate d e := unnoted (S.evaluate d e)
  getLong d e := unnoted (S.getLong d e)
  long := S.long
  text := S.text
  range := S.range
  compare c d a b := unnoted (S.compare c d a b)

variable [DecidableEq ν] (S : Exprs ε ν υ σ) (rounds : ℕ)

def note (j : Jump ε ν) : StateM (σ × List (Jump ε ν)) Unit := fun s => ((), s.1, j :: s.2)

def goOnAt (l : Calls ε ν υ (σ × List (Jump ε ν))) (j : Jump ε ν) (out : υ) :
    StateM (σ × List (Jump ε ν)) (υ × ℤ) :=
  match j.target with
  | none => pure (out, SsINTERNAL)
  | some path => l.statement j.front path j.list

def resume (l : Calls ε ν υ (σ × List (Jump ε ν))) (front : List ν) (list : List (Stmt ε ν))
    (out : υ) : StateM (σ × List (Jump ε ν)) (υ × ℤ) := do
  let j : Jump ε ν := ⟨front, list, (S.text out).toOption⟩
  note j
  goOnAt l j out

def handle (l : Calls ε ν υ (σ × List (Jump ε ν))) (front : List ν) (list : List (Stmt ε ν))
    (r : υ × ℤ) : StateM (σ × List (Jump ε ν)) (υ × ℤ) := do
  let r ← whileGoto rounds (resume S l front list) r
  pure (notFound r)

def runStatement (l : Calls ε ν υ (σ × List (Jump ε ν))) (front : List ν) (path : Path)
    (list : List (Stmt ε ν)) : StateM (σ × List (Jump ε ν)) (υ × ℤ) := do
  handle S rounds l front list
    (← evaluateFrom l.evaluate front path list (S.nothing, MDSplusSUCCESS))

def runArm (l : Calls ε ν υ (σ × List (Jump ε ν))) (arm : Stmt ε ν) (status : ℤ) :
    StateM (σ × List (Jump ε ν)) (υ × ℤ) := do
  handle S rounds l [] [arm] (← evaluateAll (l.evaluate [] []) [arm] (S.nothing, status))

def runIf (d : ℕ) (l : Calls ε ν υ (σ × List (Jump ε ν))) (test : ε) (yes : Stmt ε ν)
    (no : Option (Stmt ε ν)) : StateM (σ × List (Jump ε ν)) (υ × ℤ) := do
  let (value, status) ← (noting S).getLong d test
  if isOk (value.getD 0) then runArm S rounds l yes status
  else match no with
    | some no => runArm S rounds l no status
    | none => pure (notFound (S.nothing, status))

def runSwitch (d : ℕ) (l : Calls ε ν υ (σ × List (Jump ε ν))) (test : ε)
    (body : List (Stmt ε ν)) : StateM (σ × List (Jump ε ν)) (υ × ℤ) := do
  let r ← switchBody (noting S) (l.evaluate [] []) d test body
  if r.2 = TdiBREAK then pure (r.1, MDSplusSUCCESS) else handle S rounds l [] body r

def makeCalls (depth : ℕ) (below : Option (ℕ × Calls ε ν υ (σ × List (Jump ε ν)))) :
    Calls ε ν υ (σ × List (Jump ε ν)) where
  evaluate front path
    | .expr e => (noting S).evaluate depth e
    | s => tdiIntrinsic (noting S) 1 1 1 (below.map fun p => p.2.intrinsic front path s)
  statement front path list := tdiIntrinsic (noting S) 0 254 list.length
    (below.map fun p => runStatement S rounds p.2 front path list)
  intrinsic front path
    | .expr e => (noting S).evaluate depth e
    | .goto e => tdiIntrinsic (noting S) 1 1 1 (below.map fun p => tdi1Goto (noting S) p.1 e)
    | .label x body => tdiIntrinsic (noting S) 2 254 (body.length + 1)
        (below.map fun p => p.2.statement (x :: front) path body)
    | .case _ body => tdiIntrinsic (noting S) 2 254 (body.length + 1)
        (below.map fun p => p.2.statement front path body)
    | .default body => tdiIntrinsic (noting S) 1 254 body.length
        (below.map fun p => p.2.statement front path body)
    | .statement body => tdiIntrinsic (noting S) 0 254 body.length
        (below.map fun p => runStatement S rounds p.2 front path body)
    | .ifElse test yes no => tdiIntrinsic (noting S) 2 3 (if no.isSome then 3 else 2)
        (below.map fun p => runIf S rounds p.1 p.2 test yes no)
    | .switch test body => tdiIntrinsic (noting S) 2 254 (body.length + 1)
        (below.map fun p => runSwitch S rounds p.1 p.2 test body)

/-- The calls as they are meant, that may go so many calls deeper. -/
def calls : ℕ → Calls ε ν υ (σ × List (Jump ε ν))
  | 0 => makeCalls S rounds 0 none
  | d + 1 => makeCalls S rounds (d + 1) (some (d, calls d))

end Ideal

end MdsPlus.Jumps
