import Mathlib.Data.Int.Notation
import Mathlib.Tactic.Common

/-!
Statements of the expression language. A statement leaves a result and ends with a
status; odd ones are successes. Lists of statements are run until one does not succeed. A
jump is a status on its way to a list, with the label as result. Calls are counted, and
one that is too deep fails.
-/

namespace MdsPlus.Statements

def SsINTERNAL : ℤ := -1
def MDSplusSUCCESS : ℤ := 1 * 65536 + 1 * 8 + 1

def tdiStatus (value severity : ℤ) : ℤ := 4051 * 65536 + value * 8 + severity

def TdiBREAK : ℤ := tdiStatus 4097 0
def TdiCASE : ℤ := tdiStatus 4098 0
def TdiCONTINUE : ℤ := tdiStatus 4099 0
def TdiRETURN : ℤ := tdiStatus 4101 0
def TdiEXTRA_ARG : ℤ := tdiStatus 4105 2
def TdiGOTO : ℤ := tdiStatus 4106 2
def TdiMISS_ARG : ℤ := tdiStatus 4113 2
def TdiRECURSIVE : ℤ := tdiStatus 4121 2

def isOk (status : ℤ) : Bool := status % 2 = 1

variable {ε ν υ σ : Type}

/-- What a CASE is compared with. -/
inductive CaseValue (ε : Type)
  | value (e : ε)
  | comma (list : List (CaseValue ε))

/-- Statements by their functions; all others are expressions. -/
inductive Stmt (ε ν : Type)
  | expr (e : ε)
  | goto (label : ε)
  | label (x : ν) (body : List (Stmt ε ν))
  | case (value : CaseValue ε) (body : List (Stmt ε ν))
  | default (body : List (Stmt ε ν))
  | statement (body : List (Stmt ε ν))
  | ifElse (test : ε) (yes : Stmt ε ν) (no : Option (Stmt ε ν))
  | switch (test : ε) (body : List (Stmt ε ν))

inductive Comparison
  | eq | ge | le

/-- The rest of the language: expressions and results, which may depend on how deep the
call is. -/
structure Exprs (ε ν υ σ : Type) where
  nothing : υ
  evaluate : ℕ → ε → StateM σ (υ × ℤ)
  /-- The value as a longword, which is left alone on failure, and the status. -/
  getLong : ℕ → ε → StateM σ (Option ℤ × ℤ)
  long : υ → Option ℤ × ℤ
  /-- The label that a result is, or why it is none. -/
  text : υ → Except ℤ ν
  range : υ → Option (Option υ × Option υ)
  compare : Comparison → ℕ → υ → υ → StateM σ (υ × ℤ)

variable (S : Exprs ε ν υ σ)

/-- Statements one after the other, as long as they succeed. -/
def evaluateAll (evaluate : Stmt ε ν → StateM σ (υ × ℤ)) :
    List (Stmt ε ν) → υ × ℤ → StateM σ (υ × ℤ)
  | [], r => pure r
  | s :: rest, r => if isOk r.2 then do evaluateAll evaluate rest (← evaluate s) else pure r

/-- Results get out of a call with these only. -/
def getsOut (status : ℤ) : Bool :=
  isOk status || status = TdiBREAK || status = TdiCONTINUE || status = TdiGOTO ||
    status = TdiRETURN

def leave (r : υ × ℤ) : υ × ℤ := if getsOut r.2 then r else (S.nothing, r.2)

/-- A call of a function, unless it has too few or too many arguments or is too deep. -/
def tdiIntrinsic (least most narg : ℕ) (f1 : Option (StateM σ (υ × ℤ))) : StateM σ (υ × ℤ) :=
  if narg < least then pure (S.nothing, TdiMISS_ARG)
  else if most < narg then pure (S.nothing, TdiEXTRA_ARG)
  else match f1 with
    | none => pure (S.nothing, TdiRECURSIVE)
    | some f1 => do
        let r ← f1
        pure (leave S r)

def tdi1Goto (d : ℕ) (label : ε) : StateM σ (υ × ℤ) := do
  let (out, status) ← S.evaluate d label
  if isOk status then
    match S.text out with
    | .error code => pure (out, code)
    | .ok _ => pure (out, TdiGOTO)
  else pure (out, status)

/-- Repeat while the status is that of a jump, so many times. -/
def whileGoto : ℕ → (υ → StateM σ (υ × ℤ)) → υ × ℤ → StateM σ (υ × ℤ)
  | 0, _, r => pure r
  | n + 1, f, r => if r.2 = TdiGOTO then do whileGoto n f (← f r.1) else pure r

/-- The internal status is for the search only. -/
def notFound (r : υ × ℤ) : υ × ℤ := if r.2 = SsINTERNAL then (r.1, TdiGOTO) else r

section Goto

variable [DecidableEq ν]

def Stmt.isLabel (x : ν) : Stmt ε ν → Bool
  | .label y _ => y = x
  | _ => false

variable (statement : List (Stmt ε ν) → StateM σ (υ × ℤ)) (x : ν)

def goOn (r : List (Stmt ε ν) × υ × ℤ) : StateM σ (υ × ℤ) :=
  if isOk r.2.2 && !r.1.isEmpty then statement r.1 else pure r.2

mutual

def searchBlock : Stmt ε ν → υ × ℤ → StateM σ (υ × ℤ)
  | .label _ body, r => do goOn statement (← search body (r.1, SsINTERNAL))
  | .case _ body, r => do goOn statement (← search body (r.1, SsINTERNAL))
  | .default body, r => do goOn statement (← search body (r.1, SsINTERNAL))
  | .statement body, r => do goOn statement (← search body (r.1, SsINTERNAL))
  | .expr _, r | .goto _, r | .ifElse .., r | .switch .., r => pure r

/-- The search of a list, which goes on while the status is zero. -/
def search : List (Stmt ε ν) → υ × ℤ → StateM σ (List (Stmt ε ν) × υ × ℤ)
  | [], r => pure ([], r)
  | s :: rest, r =>
      if r.2 = 0 then
        if s.isLabel x then pure (s :: rest, r)
        else do search rest (← searchBlock s r)
      else pure (s :: rest, r)

end

/-- Find the label that a jump goes to, and run the statements from it on. -/
def goto1 (list : List (Stmt ε ν)) (out : υ) : StateM σ (υ × ℤ) := do
  match S.text out with
  | .ok x => goOn statement (← search statement x list (out, SsINTERNAL))
  | .error _ => goOn statement (list, out, SsINTERNAL)

end Goto

section Switch

/-- The test is read from the last result. -/
def getTest (r : ℤ × υ × ℤ) : ℤ × υ × ℤ :=
  if isOk r.2.2 then ((S.long r.2.1).1.getD r.1, r.2.1, (S.long r.2.1).2) else r

def compareTo (d : ℕ) (c : Comparison) (ptest value : υ) (r : ℤ × υ × ℤ) :
    StateM σ (ℤ × υ × ℤ) := do
  let (out, status) ← S.compare c d ptest value
  pure (r.1, out, status)

/-- The lower end of a range; a missing one is passed. -/
def compareBegin (d : ℕ) (ptest : υ) (r : ℤ × υ × ℤ) : Option υ → StateM σ (ℤ × υ × ℤ)
  | some begin => do
      let r ← compareTo S d .ge ptest begin r
      pure (getTest S r)
  | none => pure (1, r.2)

/-- The upper end of a range, with a missing one nothing is compared. -/
def compareEnd (d : ℕ) (ptest : υ) (r : ℤ × υ × ℤ) : Option υ → StateM σ (ℤ × υ × ℤ)
  | some ending => if isOk r.2.2 && isOk r.1 then compareTo S d .le ptest ending r else pure r
  | none => pure r

def compareValue (d : ℕ) (ptest xd : υ) (r : ℤ × υ × ℤ) : StateM σ (ℤ × υ × ℤ) :=
  match S.range xd with
  | some (begin, ending) => do compareEnd S d ptest (← compareBegin S d ptest r begin) ending
  | none => compareTo S d .eq ptest xd r

/-- Compare with a value, with the values of a list or with a range. The test is read from
the last result, also where nothing has been compared. -/
def switchCase (d : ℕ) (ptest : υ) : CaseValue ε → ℤ → υ → StateM σ (ℤ × υ × ℤ)
  | .comma list, test, out => cases list (test, out, MDSplusSUCCESS)
  | .value e, test, out => do
      let (xd, status) ← S.evaluate d e
      if isOk status then
        let r ← compareValue S d ptest xd (test, out, status)
        pure (getTest S r)
      else pure (test, out, status)
where
  cases : List (CaseValue ε) → ℤ × υ × ℤ → StateM σ (ℤ × υ × ℤ)
    | [], r => pure r
    | v :: rest, r =>
        if isOk r.2.2 && !isOk r.1 then do cases rest (← switchCase d ptest v r.1 r.2.1)
        else pure r

/-- The state of the search for a case, with the statements from the last default on. -/
structure Scan (ε ν υ : Type) where
  test : ℤ
  jdefault : List (Stmt ε ν)
  out : υ
  status : ℤ

inductive Stop
  | here | behind | on

variable (evaluate : Stmt ε ν → StateM σ (υ × ℤ))

def runMatch (rest : List (Stmt ε ν)) (r : Scan ε ν υ) : StateM σ (Scan ε ν υ) :=
  if isOk r.status && rest.isEmpty then pure { r with status := TdiCASE }
  else do
    let (out, status) ← evaluateAll evaluate rest (r.out, r.status)
    pure { r with jdefault := [], out, status }

/-- The search of a block starts with a test of its own. -/
def Scan.inner (r : Scan ε ν υ) : Scan ε ν υ := { r with test := 0, status := MDSplusSUCCESS }

def leaveBlock (r : Scan ε ν υ) (inner : List (Stmt ε ν) × Scan ε ν υ) :
    StateM σ (Stop × Scan ε ν υ) := do
  let inner ← runMatch evaluate inner.1 inner.2
  if isOk inner.status then pure (.behind, { inner with test := r.test })
  else if inner.status = TdiCASE then
    pure (.on, { inner with test := r.test, status := MDSplusSUCCESS })
  else pure (.on, { inner with test := r.test })

mutual

/-- One statement of the search; `here` are the statements from it on. -/
def scanStmt (d : ℕ) (ptest : υ) (here : List (Stmt ε ν)) :
    Stmt ε ν → Scan ε ν υ → StateM σ (Stop × Scan ε ν υ)
  | .case value body, r => do
      let (test, out, status) ← switchCase S d ptest value r.test r.out
      let r := { r with test, out, status }
      if isOk status && isOk test then pure (.here, { r with jdefault := [] })
      else if isOk status then leaveBlock evaluate r (← scan d ptest body r.inner)
      else pure (.on, r)
  | .default body, r => do
      let r := { r with jdefault := here }
      leaveBlock evaluate r (← scan d ptest body r.inner)
  | .statement body, r => do leaveBlock evaluate r (← scan d ptest body r.inner)
  | .expr _, r | .goto _, r | .label .., r | .ifElse .., r | .switch .., r => pure (.on, r)

def scan (d : ℕ) (ptest : υ) : List (Stmt ε ν) → Scan ε ν υ →
    StateM σ (List (Stmt ε ν) × Scan ε ν υ)
  | [], r => pure ([], r)
  | s :: rest, r =>
      if isOk r.status then do
        let (stop, r) ← scanStmt d ptest (s :: rest) s r
        match stop with
        | .here => pure (s :: rest, r)
        | .behind => pure (rest, r)
        | .on => scan d ptest rest r
      else pure (s :: rest, r)

end

def switch1 (d : ℕ) (ptest : υ) (body : List (Stmt ε ν)) : StateM σ (Scan ε ν υ) := do
  let (rest, r) ← scan S evaluate d ptest body ⟨0, [], S.nothing, MDSplusSUCCESS⟩
  runMatch evaluate rest r

/-- When no case has matched, the statements from the default on. -/
def runDefault (r : Scan ε ν υ) : StateM σ (υ × ℤ) :=
  if r.status = TdiCASE then evaluateAll evaluate r.jdefault (r.out, MDSplusSUCCESS)
  else pure (r.out, r.status)

def switchBody (d : ℕ) (test : ε) (body : List (Stmt ε ν)) : StateM σ (υ × ℤ) := do
  let (tmp, status) ← S.evaluate d test
  if isOk status then runDefault evaluate (← switch1 S evaluate d tmp body)
  else runDefault evaluate ⟨0, [], S.nothing, status⟩

end Switch

theorem search_internal [DecidableEq ν] (statement : List (Stmt ε ν) → StateM σ (υ × ℤ)) (x : ν)
    (list : List (Stmt ε ν)) (out : υ) :
    search statement x list (out, SsINTERNAL) = pure (list, out, SsINTERNAL) := by
  cases list with
  | nil => rfl
  | cons s rest => exact if_neg (show ¬ SsINTERNAL = 0 by decide)

/-- The internal status is odd and not zero: no label is searched for, and the list is run
from its first statement on. -/
theorem goto1_eq [DecidableEq ν] (statement : List (Stmt ε ν) → StateM σ (υ × ℤ))
    (list : List (Stmt ε ν)) (out : υ) :
    goto1 S statement list out = if list = [] then pure (out, SsINTERNAL) else statement list := by
  have hgoOn : goOn statement (list, out, SsINTERNAL) =
      if list = [] then pure (out, SsINTERNAL) else statement list := by
    cases list <;> rfl
  rw [goto1]
  cases S.text out with
  | ok x =>
    simp only [search_internal, pure_bind]
    exact hgoOn
  | error code => exact hgoOn

section Calls

variable [DecidableEq ν] (rounds : ℕ)

structure Level (ε ν υ σ : Type) where
  evaluate : Stmt ε ν → StateM σ (υ × ℤ)
  statement : List (Stmt ε ν) → StateM σ (υ × ℤ)
  intrinsic : Stmt ε ν → StateM σ (υ × ℤ)

/-- Jumps within a list of statements, until one leaves it. -/
def handleGoto (l : Level ε ν υ σ) (list : List (Stmt ε ν)) (r : υ × ℤ) : StateM σ (υ × ℤ) := do
  let r ← whileGoto rounds (goto1 S l.statement list) r
  pure (notFound r)

def tdi1Statement (l : Level ε ν υ σ) (list : List (Stmt ε ν)) : StateM σ (υ × ℤ) := do
  handleGoto S rounds l list (← evaluateAll l.evaluate list (S.nothing, MDSplusSUCCESS))

/-- One of the two statements of an IF. -/
def ifArm (l : Level ε ν υ σ) (arm : Stmt ε ν) (status : ℤ) : StateM σ (υ × ℤ) := do
  handleGoto S rounds l [arm] (← evaluateAll l.evaluate [arm] (S.nothing, status))

def tdi1If (d : ℕ) (l : Level ε ν υ σ) (test : ε) (yes : Stmt ε ν) (no : Option (Stmt ε ν)) :
    StateM σ (υ × ℤ) := do
  let (value, status) ← S.getLong d test
  if isOk (value.getD 0) then ifArm S rounds l yes status
  else match no with
    | some no => ifArm S rounds l no status
    | none => pure (notFound (S.nothing, status))

def tdi1Switch (d : ℕ) (l : Level ε ν υ σ) (test : ε) (body : List (Stmt ε ν)) :
    StateM σ (υ × ℤ) := do
  let r ← switchBody S l.evaluate d test body
  if r.2 = TdiBREAK then pure (r.1, MDSplusSUCCESS) else handleGoto S rounds l body r

def makeLevel (depth : ℕ) (below : Option (ℕ × Level ε ν υ σ)) : Level ε ν υ σ where
  evaluate
    | .expr e => S.evaluate depth e
    | s => tdiIntrinsic S 1 1 1 (below.map fun p => p.2.intrinsic s)
  statement list := tdiIntrinsic S 0 254 list.length
    (below.map fun p => tdi1Statement S rounds p.2 list)
  intrinsic
    | .expr e => S.evaluate depth e
    | .goto e => tdiIntrinsic S 1 1 1 (below.map fun p => tdi1Goto S p.1 e)
    | .label _ body => tdiIntrinsic S 2 254 (body.length + 1) (below.map fun p => p.2.statement body)
    | .case _ body => tdiIntrinsic S 2 254 (body.length + 1) (below.map fun p => p.2.statement body)
    | .default body => tdiIntrinsic S 1 254 body.length (below.map fun p => p.2.statement body)
    | .statement body => tdiIntrinsic S 0 254 body.length
        (below.map fun p => tdi1Statement S rounds p.2 body)
    | .ifElse test yes no => tdiIntrinsic S 2 3 (if no.isSome then 3 else 2)
        (below.map fun p => tdi1If S rounds p.1 p.2 test yes no)
    | .switch test body => tdiIntrinsic S 2 254 (body.length + 1)
        (below.map fun p => tdi1Switch S rounds p.1 p.2 test body)

def level : ℕ → Level ε ν υ σ
  | 0 => makeLevel S rounds 0 none
  | d + 1 => makeLevel S rounds (d + 1) (some (d, level d))

end Calls

end MdsPlus.Statements
