import MdsPlus.Statements

/-!
Loops of the expression language. Expressions are any functions on a state that end with a
status; control is passed on by statuses too. Beside the code there is what C gives for the
same statements, with an outcome in the place of the status.
-/

namespace MdsPlus.Loops

open Statements (SsINTERNAL MDSplusSUCCESS TdiBREAK TdiCONTINUE TdiRETURN TdiGOTO TdiEXTRA_ARG
  TdiMISS_ARG TdiRECURSIVE isOk)

variable {ε σ : Type}

/-- Statements without jumps to labels. An expression may be missing in some places. -/
inductive Stmt (ε : Type)
  | null
  | expr (e : ε)
  | statement (body : List (Stmt ε))
  | ifElse (test : ε) (yes : Stmt ε) (no : Option (Stmt ε))
  | whileLoop (test : ε) (body : List (Stmt ε))
  | forLoop (init test update : Option ε) (body : List (Stmt ε))
  | doLoop (test : ε) (body : List (Stmt ε))
  | breakStmt
  | continueStmt
  | returnStmt (value : Option ε)

/-- Expressions leave a status, and as a test also a longword. -/
structure Exprs (ε σ : Type) where
  evaluate : ε → σ → ℤ × σ
  getLong : ε → σ → (ℤ × ℤ) × σ

abbrev Run (σ α : Type) := StateT σ Option α

variable (S : Exprs ε σ)

def Exprs.value (e : ε) : Run σ ℤ := fun s => some (S.evaluate e s)

def Exprs.test (e : ε) : Run σ (ℤ × ℤ) := fun s => some (S.getLong e s)

structure Level (ε σ : Type) where
  evaluate : Stmt ε → Run σ ℤ
  statement : List (Stmt ε) → Run σ ℤ
  intrinsic : Stmt ε → Run σ ℤ

/-- A call of a function, unless it has too few or too many arguments or is too deep. -/
def tdiIntrinsic (least most narg : ℕ) (f1 : Option (Run σ ℤ)) : Run σ ℤ :=
  if narg < least then pure TdiMISS_ARG
  else if most < narg then pure TdiEXTRA_ARG
  else f1.getD (pure TdiRECURSIVE)

def evaluateAll (evaluate : Stmt ε → Run σ ℤ) : List (Stmt ε) → ℤ → Run σ ℤ
  | [], status => pure status
  | s :: rest, status =>
      if isOk status then do evaluateAll evaluate rest (← evaluate s) else pure status

def goto1 (l : Level ε σ) (list : List (Stmt ε)) : Run σ ℤ :=
  if list.isEmpty then pure SsINTERNAL else l.statement list

/-- The internal status is for the search only. -/
def notFound (status : ℤ) : ℤ := if status = SsINTERNAL then TdiGOTO else status

/-- Jumps out of a list, so many times. -/
def handleGoto (l : Level ε σ) (list : List (Stmt ε)) : ℕ → ℤ → Run σ ℤ
  | 0, status => if status = TdiGOTO then failure else pure (notFound status)
  | n + 1, status =>
      if status = TdiGOTO then do handleGoto l list n (← goto1 l list)
      else pure (notFound status)

def tdi1Statement (fuel : ℕ) (l : Level ε σ) (list : List (Stmt ε)) : Run σ ℤ := do
  handleGoto l list fuel (← evaluateAll l.evaluate list MDSplusSUCCESS)

def tdi1If (fuel : ℕ) (l : Level ε σ) (test : ε) (yes : Stmt ε) (no : Option (Stmt ε)) :
    Run σ ℤ := do
  let (value, status) ← S.test test
  if isOk value then handleGoto l [yes] fuel (← evaluateAll l.evaluate [yes] status)
  else match no with
    | some no => handleGoto l [no] fuel (← evaluateAll l.evaluate [no] status)
    | none => pure (notFound status)

def endLoop (status : ℤ) : ℤ := if status = TdiBREAK then MDSplusSUCCESS else status

/-- Loops end as soon as their status does not let them go on; else they need fuel. -/
def whileStatus (l : Level ε σ) (test : ε) (body : List (Stmt ε)) : ℕ → ℤ → Run σ ℤ
  | 0, status => if isOk status || status = TdiCONTINUE then failure else pure status
  | n + 1, status =>
      if isOk status || status = TdiCONTINUE then do
        let (value, status) ← S.test test
        if !isOk status || !isOk value then pure status
        else whileStatus l test body n (← l.statement body)
      else pure status

def tdi1While (fuel : ℕ) (l : Level ε σ) (test : ε) (body : List (Stmt ε)) : Run σ ℤ := do
  let status ← whileStatus S l test body fuel MDSplusSUCCESS
  pure (endLoop status)

/-- An expression that is missing is no error. -/
def evaluateOpt (l : Level ε σ) (e : Option ε) : Run σ ℤ :=
  l.evaluate (match e with | some e => .expr e | none => .null)

/-- The test of a FOR, which is passed if it is missing. -/
def testOpt (status : ℤ) : Option ε → Run σ (ℤ × ℤ)
  | some test => S.test test
  | none => pure (1, status)

def forStatus (l : Level ε σ) (test update : Option ε) (body : List (Stmt ε)) : ℕ → ℤ → Run σ ℤ
  | 0, status => if isOk status then failure else pure status
  | n + 1, status =>
      if isOk status then do
        let (value, status) ← testOpt S status test
        if !isOk status || !isOk value then pure status
        else do
          let status ← l.statement body
          if isOk status || status = TdiCONTINUE then
            forStatus l test update body n (← evaluateOpt l update)
          else forStatus l test update body n status
      else pure status

/-- An expression that is not evaluated if it is missing. -/
def evaluateIf (l : Level ε σ) : Option ε → Run σ ℤ
  | some e => l.evaluate (.expr e)
  | none => pure MDSplusSUCCESS

def tdi1For (fuel : ℕ) (l : Level ε σ) (init test update : Option ε) (body : List (Stmt ε)) :
    Run σ ℤ := do
  let status ← evaluateIf l init
  let status ← forStatus S l test update body fuel status
  pure (endLoop status)

def doStatus (l : Level ε σ) (test : ε) (body : List (Stmt ε)) : ℕ → Run σ ℤ
  | 0 => failure
  | n + 1 => do
      let status ← l.statement body
      if isOk status || status = TdiCONTINUE then do
        let (value, status) ← S.test test
        if isOk status && isOk value then doStatus l test body n else pure status
      else pure status

def tdi1Do (fuel : ℕ) (l : Level ε σ) (test : ε) (body : List (Stmt ε)) : Run σ ℤ := do
  let status ← doStatus S l test body fuel
  pure (endLoop status)

def tdi1Return (l : Level ε σ) (value : Option ε) : Run σ ℤ := do
  let status ← evaluateIf l value
  pure (if isOk status then TdiRETURN else status)

/-- The calls of one depth from those of the depth below. -/
def makeLevel (fuel : ℕ) (below : Option (Level ε σ)) : Level ε σ where
  evaluate
    | .null => tdiIntrinsic 1 1 1 (below.map fun _ => pure MDSplusSUCCESS)
    | .expr e => tdiIntrinsic 1 1 1 (below.map fun _ => S.value e)
    | s => tdiIntrinsic 1 1 1 (below.map fun l => l.intrinsic s)
  statement list := tdiIntrinsic 0 254 list.length (below.map fun l => tdi1Statement fuel l list)
  intrinsic
    | .null => pure MDSplusSUCCESS
    | .expr e => S.value e
    | .statement body =>
        tdiIntrinsic 0 254 body.length (below.map fun l => tdi1Statement fuel l body)
    | .ifElse test yes no => tdiIntrinsic 2 3 (if no.isSome then 3 else 2)
        (below.map fun l => tdi1If S fuel l test yes no)
    | .whileLoop test body => tdiIntrinsic 2 254 (body.length + 1)
        (below.map fun l => tdi1While S fuel l test body)
    | .forLoop init test update body => tdiIntrinsic 4 254 (body.length + 3)
        (below.map fun l => tdi1For S fuel l init test update body)
    | .doLoop test body => tdiIntrinsic 2 254 (body.length + 1)
        (below.map fun l => tdi1Do S fuel l test body)
    | .breakStmt => tdiIntrinsic 0 0 0 (below.map fun _ => pure TdiBREAK)
    | .continueStmt => tdiIntrinsic 0 0 0 (below.map fun _ => pure TdiCONTINUE)
    | .returnStmt value => tdiIntrinsic 0 1 (if value.isSome then 1 else 0)
        (below.map fun l => tdi1Return l value)

def level (fuel : ℕ) : ℕ → Level ε σ
  | 0 => makeLevel S fuel none
  | d + 1 => makeLevel S fuel (some (level fuel d))

def maxDepth : ℕ := 1801

/-! ### The statements of C -/

inductive Outcome
  | normal
  | broke
  | continued
  | returned
  | failed (status : ℤ)
  deriving DecidableEq

def cExpr (e : ε) : Run σ Outcome := do
  let status ← S.value e
  pure (if isOk status then .normal else .failed status)

def cTest (e : ε) : Run σ (Except ℤ Bool) := do
  let (value, status) ← S.test e
  pure (if isOk status then .ok (isOk value) else .error status)

/-- What follows the body of a loop: the loop goes on, or it ends. -/
def afterBody (outcome : Outcome) (goOn : Run σ Outcome) : Run σ Outcome :=
  match outcome with
  | .normal | .continued => goOn
  | .broke => pure .normal
  | .returned => pure .returned
  | .failed status => pure (.failed status)

def afterTest (test : Except ℤ Bool) (yes no : Run σ Outcome) : Run σ Outcome :=
  match test with
  | .error status => pure (.failed status)
  | .ok true => yes
  | .ok false => no

def cWhile (test : Run σ (Except ℤ Bool)) (body : Run σ Outcome) : ℕ → Run σ Outcome
  | 0 => failure
  | n + 1 => do
      afterTest (← test) (do afterBody (← body) (cWhile test body n)) (pure .normal)

def cDo (test : Run σ (Except ℤ Bool)) (body : Run σ Outcome) : ℕ → Run σ Outcome
  | 0 => failure
  | n + 1 => do
      afterBody (← body) (do afterTest (← test) (cDo test body n) (pure .normal))

def afterExpr (outcome : Outcome) (goOn : Run σ Outcome) : Run σ Outcome :=
  if outcome = .normal then goOn else pure outcome

def cFor (test : Run σ (Except ℤ Bool)) (update body : Run σ Outcome) : ℕ → Run σ Outcome
  | 0 => failure
  | n + 1 => do
      afterTest (← test)
        (do afterBody (← body) (do afterExpr (← update) (cFor test update body n)))
        (pure .normal)

def cExprOpt : Option ε → Run σ Outcome
  | some e => cExpr S e
  | none => pure .normal

def cTestOpt : Option ε → Run σ (Except ℤ Bool)
  | some e => cTest S e
  | none => pure (.ok true)

variable (fuel : ℕ)

mutual

def c : Stmt ε → Run σ Outcome
  | .null => pure .normal
  | .expr e => cExpr S e
  | .statement body => cAll body
  | .ifElse test yes no => do afterTest (← cTest S test) (c yes) (cElse no)
  | .whileLoop test body => cWhile (cTest S test) (cAll body) fuel
  | .forLoop init test update body => do
      afterExpr (← cExprOpt S init)
        (cFor (cTestOpt S test) (cExprOpt S update) (cAll body) fuel)
  | .doLoop test body => cDo (cTest S test) (cAll body) fuel
  | .breakStmt => pure .broke
  | .continueStmt => pure .continued
  | .returnStmt value => do afterExpr (← cExprOpt S value) (pure .returned)

def cElse : Option (Stmt ε) → Run σ Outcome
  | some no => c no
  | none => pure .normal

def cAll : List (Stmt ε) → Run σ Outcome
  | [] => pure .normal
  | s :: rest => do afterExpr (← c s) (cAll rest)

end

def Outcome.ofStatus (status : ℤ) : Outcome :=
  if isOk status then .normal
  else if status = TdiBREAK then .broke
  else if status = TdiCONTINUE then .continued
  else if status = TdiRETURN then .returned
  else .failed status

mutual

/-- Calls are not nested too deep, and have as many arguments as the functions take. -/
def Fits : ℕ → Stmt ε → Prop
  | d, .null | d, .expr _ => 1 ≤ d
  | d, .statement body => 2 ≤ d ∧ body.length ≤ 254 ∧ FitsAll (d - 2) body
  | d, .ifElse _ yes no => 2 ≤ d ∧ Fits (d - 2) yes ∧ FitsElse (d - 2) no
  | d, .whileLoop _ body | d, .doLoop _ body =>
      3 ≤ d ∧ 1 ≤ body.length ∧ body.length ≤ 253 ∧ FitsAll (d - 3) body
  | d, .forLoop _ _ _ body =>
      3 ≤ d ∧ 1 ≤ body.length ∧ body.length ≤ 251 ∧ FitsAll (d - 3) body
  | d, .breakStmt | d, .continueStmt => 2 ≤ d
  | d, .returnStmt _ => 3 ≤ d

def FitsElse : ℕ → Option (Stmt ε) → Prop
  | _, none => True
  | d, some no => Fits d no

def FitsAll : ℕ → List (Stmt ε) → Prop
  | _, [] => True
  | d, s :: rest => Fits d s ∧ FitsAll d rest

end

/-- Expressions do not fail with the statuses that pass on control. -/
def Plain (status : ℤ) : Prop :=
  status ≠ TdiBREAK ∧ status ≠ TdiCONTINUE ∧ status ≠ TdiRETURN ∧ status ≠ TdiGOTO ∧
    status ≠ SsINTERNAL

def Exprs.Plain (S : Exprs ε σ) : Prop :=
  ∀ e s, Loops.Plain (S.evaluate e s).1 ∧ Loops.Plain (S.getLong e s).1.2

end MdsPlus.Loops
