import MdsPlus.VariableNames

/-!
Private and public variables. Each block is a tree of nodes by name; functions get a new tree of
private variables, in the same zones of memory. What is evaluated on the way is a list of operations
on variables itself.
-/

namespace MdsPlus.Variables

open InsertTree (LibTreeNode libInsertTree libLookupTree)
open VariableNames

inductive Failure
  | nullPtr | invDtyDsc | invClaDty | invClaDsc | missArg | extraArg | invOpc | unknownVar
  | tdiReturn
  /-- Any other status that is no success. -/
  | other
deriving DecidableEq

/-- `none` is a success. -/
abbrev Status := Option Failure

variable {α : Type}

/-- Data of a node: a class of zero, or a descriptor that may have no data. -/
abbrev Xd (α : Type) := Option (Option α)

structure Block (α : Type) where
  head : LibTreeNode Name
  /-- Places below are given out. -/
  next : ℕ
  xd : ℕ → Xd α

inductive Which
  | priv | pub
deriving DecidableEq

/-- The variables that a thread sees, and how often the lock of the public ones was taken and
released. -/
structure Vars (α : Type) where
  priv : Block α
  pub : Block α
  taken : ℕ
  released : ℕ
  narg : ℕ

def Vars.block (s : Vars α) : Which → Block α
  | .priv => s.priv
  | .pub => s.pub

def Vars.setBlock (s : Vars α) (b : Block α) : Which → Vars α
  | .priv => { s with priv := b }
  | .pub => { s with pub := b }

def Vars.setHead (s : Vars α) (head : LibTreeNode Name) : Vars α :=
  { s with priv := { s.priv with head } }

def Vars.lock (s : Vars α) : Vars α := { s with taken := s.taken + 1 }

def Vars.unlock (s : Vars α) : Vars α := { s with released := s.released + 1 }

/-! ### Nodes -/

def lookup (b : Block α) (key : Name) : Option ℕ := libLookupTree strCaseBlindCompare key b.head

/-- The node, unless its class is zero. -/
def lookupDefined (b : Block α) (key : Name) : Option ℕ :=
  (lookup b key).filter fun node => (b.xd node).isSome

def writeXd (b : Block α) (node : ℕ) (xd : Xd α) : Block α :=
  { b with xd := fun p => if p = node then xd else b.xd p }

/-- Whether there is memory for a node and for a copy of data. -/
structure Memory where
  allocates : Bool
  copies : Bool
deriving DecidableEq

/-- Data are copied to a node, or it is left without a class. -/
def writeData (b : Block α) (node : ℕ) (data : Option (Option α)) (memory : Memory) :
    Block α × Status :=
  match data with
  | none => (writeXd b node none, none)
  | some v =>
      if memory.copies then (writeXd b node (some v), none)
      else (writeXd b node (some none), some .other)

def putNode (b : Block α) (key : Name) (data : Option (Option α)) (memory : Memory) :
    Option (Block α × Status) :=
  (libInsertTree strCaseBlindCompare key 0 (if memory.allocates then some b.next else none)
    b.head).map fun (head, node, found) =>
      match node with
      | none => ({ b with head }, some .other)
      | some node =>
          writeData { b with head, next := if found = .inserted then b.next + 1 else b.next }
            node data memory

/-- The data of the nodes under a head are freed, and the nodes too. -/
def freeNodes : LibTreeNode Name → (ℕ → Xd α) → (ℕ → Xd α)
  | .empty, xd => xd
  | .node block _ _ left right, xd =>
      freeNodes right (freeNodes left fun p => if p = block then none else xd p)

def freeAll (b : Block α) : Block α := { b with head := .empty, xd := freeNodes b.head b.xd }

def freeOne (pattern : Name) (node : ℕ × Name) (x : (ℕ → Xd α) × ℕ) : ((ℕ → Xd α) × ℕ) × ℤ :=
  if (x.1 node.1).isNone then (x, InsertTree.MDSplusSUCCESS)
  else if pattern.isEmpty || strMatchWild node.2 pattern then
    ((fun p => if p = node.1 then none else x.1 p, x.2 + 1), InsertTree.MDSplusSUCCESS)
  else (x, InsertTree.MDSplusSUCCESS)

def nodeAt : LibTreeNode Name → ℕ → Option (ℕ × Name)
  | .empty, _ => none
  | .node block key _ left right, p =>
      if block = p then some (block, key) else (nodeAt left p).or (nodeAt right p)

def freeMatching (b : Block α) (pattern : Name) (all : Bool) (count : ℕ) : Block α × ℕ :=
  if all then
    let (xd, count) := (InsertTree.libTraverseTree (freeOne pattern) b.head (b.xd, count)).1
    ({ b with xd }, count)
  else
    match (lookup b pattern).bind (nodeAt b.head) with
    | none => (b, count)
    | some node =>
        let (xd, count) := (freeOne pattern node (b.xd, count)).1
        ({ b with xd }, count)

/-! ### Identifiers -/

/-- Opcodes that modify a formal argument. -/
inductive Code
  | optional | input | inout | output | asIs | publicly | privately | other
deriving DecidableEq

inductive Formal
  | null
  | ident (name : Name)
  | text (name : Name)
  | modified (code : Code) (arg : Formal)
  | bad (failure : Failure)
deriving DecidableEq

mutual

/-- A variable as find_ident is given it. An argument that is evaluated is what its evaluation does
to variables, with the status or the data that come out. -/
inductive Ident (α : Type)
  | missing
  | bad (failure : Failure)
  | name (name : Name)
  | publicly (ident : Ident α)
  | privately (ident : Ident α)
  | assigned (evaluation : List (Op α)) (status : Status) (ident : Ident α)
  | var (evaluation : List (Op α)) (name : Except Failure Name)

/-- An actual argument, as a variable, as data that are copied and as data that are evaluated. -/
inductive Actual (α : Type)
  | omitted
  | given (isIdent : Bool) (ident : Ident α) (copy : Except Failure α)
      (evaluation : List (Op α)) (value : Except Failure (Option α)) (bound sent : Memory)

/-- Operations on variables. Of a put, the data are none where a null pointer is given. -/
inductive Op (α : Type)
  | get (ident : Ident α)
  | getPrivate (name : Name)
  | getPublic (name : Name)
  | put (ident : Ident α) (data : Option (Option α)) (memory : Memory)
  | present (ident : Ident α)
  | allocated (ident : Ident α)
  | deallocate (args : List (Ident α))
  /-- A function that has been found, with its formal arguments, and what its body does. -/
  | call (formals : List Formal) (actuals : List (Actual α)) (body : List (Op α))
      (result : Status)

end

def Ident.isMissing : Ident α → Bool
  | .missing => true
  | _ => false

inductive Reply (α : Type)
  | status (status : Status)
  | value (value : Except Failure (Option α))
  | flag (flag : Except Failure Bool)
  | count (count : Except Failure ℕ)
deriving DecidableEq

/-- 1, 2 and 4 of the search mode of find_ident. -/
structure Search where
  priv : Bool
  pub : Bool
  check : Bool
deriving DecidableEq

inductive Ptr
  | unset | null | to (which : Which)
deriving DecidableEq

inductive Key
  | unset | freed | text (name : Name)
deriving DecidableEq

structure Found where
  status : Status
  key : Key
  node : Option (Which × ℕ)
  block : Ptr
deriving DecidableEq

/-- The branch of find_ident for names; `wants` tells whether there is a pointer to return the block
in. The lock is kept if the public block is returned. -/
def findName (search : Search) (name : Name) (key : Key) (wants : Bool) (block : Ptr)
    (s : Vars α) : Vars α × Found :=
  let returned (which : Which) : Ptr := if wants then .to which else block
  if search.priv && !search.check then (s, ⟨none, key, none, returned .priv⟩)
  else
    match if search.priv then lookupDefined s.priv name else none with
    | some node => (s, ⟨none, key, some (.priv, node), returned .priv⟩)
    | none =>
        let status : Status := if search.priv then some .unknownVar else none
        if search.pub then
          if search.check then
            let s := s.lock
            match lookupDefined s.pub name with
            | some node =>
                (if wants then s else s.unlock, ⟨none, key, some (.pub, node), returned .pub⟩)
            | none =>
                (if wants && block == .to .pub then s else s.unlock,
                  ⟨some .unknownVar, key, none, block⟩)
          else if wants then (s.lock, ⟨status, key, none, .to .pub⟩)
          else (s, ⟨status, key, none, block⟩)
        else (s, ⟨status, key, none, block⟩)

/-- What find_ident returns for a status of what it calls. The name is not set then. -/
def failing (failure : Failure) (wants : Bool) (block : Ptr) : Found :=
  if failure = .unknownVar then ⟨some failure, .unset, none, block⟩
  else ⟨some failure, .unset, none, if wants then .null else block⟩

def Vars.data (s : Vars α) (node : Which × ℕ) : Option α := ((s.block node.1).xd node.2).getD none

def getFound (s : Vars α) (f : Found) : Option (Vars α × Except Failure (Option α)) :=
  let unlocked := if f.block = .to .pub then s.unlock else s
  match f.status, f.node with
  | some failure, _ => some (unlocked, .error failure)
  | none, some node => some (unlocked, .ok (s.data node))
  | none, none => none

def Found.name (f : Found) (before : Key) : Key :=
  if f.status = none ∨ f.status = some .unknownVar then f.key else before

/-- The end of put_ident_inner; the name is empty if none is returned. -/
def putFound (data : Option (Option α)) (memory : Memory) (s : Vars α) (f : Found) :
    Option (Vars α × Status) :=
  match f.name (.text []), f.status, f.block with
  | .text name, none, .to which =>
      (putNode (s.block which) (strUpcase name) data memory).map fun (b, status) =>
        let s := s.setBlock b which
        (if which = .pub then s.unlock else s, status)
  | .text _, some failure, block =>
      some (if block = .to .pub then s.unlock else s, some failure)
  | _, _, _ => none

/-- The end of Tdi1Allocated and Tdi1Present. The pointer to the block was not set before. -/
def flagFound (isFound : Block α → ℕ → Bool) (s : Vars α) (f : Found) :
    Option (Vars α × Except Failure Bool) :=
  match f.name (.text []), f.status, f.block with
  | .text name, none, .to which =>
      let found := (lookup (s.block which) name).any (isFound (s.block which))
      some (if which = .pub then s.unlock else s, .ok found)
  | .text _, some .unknownVar, .null => some (s, .ok false)
  | .text _, some failure, .null => some (s, .error failure)
  | .text _, some failure, .to which =>
      some (if which = .pub then s.unlock else s,
        if failure = .unknownVar then .ok false else .error failure)
  | _, _, _ => none

structure User where
  block : Ptr
  pattern : Key
  count : ℕ
deriving DecidableEq

def wildFound (user : User) (s : Vars α) (f : Found) : Option (Vars α × User × Status) :=
  match f.name user.pattern, f.status, f.block with
  | .text name, none, .to which =>
      let (b, count) := freeMatching (s.block which) (strUpcase name) (isWild (strUpcase name))
        user.count
      let s := s.setBlock b which
      some (if which = .pub then s.unlock else s, ⟨f.block, .text (strUpcase name), count⟩, none)
  | pattern, some failure, block =>
      some (if block = .to .pub then s.unlock else s, ⟨block, pattern, user.count⟩, some failure)
  | _, _, _ => none

/-! ### Formal arguments -/

def findFormal (search : Search) (wants : Bool) (s : Vars α) : Formal → Vars α × Found
  | .null => (s, failing .nullPtr wants .null)
  | .ident name | .text name => findName search name (.text name) wants .null s
  | .modified .publicly arg => findFormal { search with priv := false } wants s arg
  | .modified .privately arg => findFormal { search with pub := false } wants s arg
  | .modified _ _ => (s, failing .invOpc wants .null)
  | .bad failure => (s, failing failure wants .null)

/-- The keywords of a formal argument, and the variable that is left. -/
structure Prototype where
  opt : Bool
  code : Option Code
  formal : Formal
deriving DecidableEq

/-- OPTIONAL is taken off. -/
def Formal.prototype : Formal → Prototype
  | .modified .optional arg =>
      match arg with
      | .modified code _ => ⟨true, some code, arg⟩
      | _ => ⟨true, none, arg⟩
  | .modified code arg => ⟨false, some code, .modified code arg⟩
  | formal => ⟨false, none, formal⟩

/-- IN, INOUT, OUT and AS_IS are taken off, and others are errors. `none` if a null pointer is
followed. -/
def Formal.check (formal : Formal) : Option (Except Failure Prototype) :=
  if formal = .null then some (.error .nullPtr)
  else
    let p := formal.prototype
    match p.opt, p.code, p.formal with
    | true, _, .null => some (.error .nullPtr)
    | _, some .input, .modified _ arg | _, some .inout, .modified _ arg
    | _, some .output, .modified _ arg =>
        match arg with
        | .null => none
        | .text name => some (.ok { p with formal := .text name })
        | _ => some (.error .invDtyDsc)
    | _, some .asIs, .modified _ arg => some (.ok { p with formal := arg })
    | _, _, .ident name => some (.ok { p with formal := .ident name })
    | true, _, .text name => some (.ok { p with formal := .text name })
    | _, _, _ => some (.error .invDtyDsc)

def checkRest : List Formal → Option Status
  | [] => some none
  | formal :: formals =>
      formal.check.bind fun
        | .error failure => some (some failure)
        | .ok p => if p.opt then checkRest formals else some (some .missArg)

def Formal.sentBack (formal : Formal) : Option Formal :=
  let p := formal.prototype
  match p.code, p.formal with
  | some .inout, .modified _ arg | some .output, .modified _ arg => some arg
  | _, _ => none

/-! ### Operations -/

def getMode : Search := ⟨true, true, true⟩

def putMode : Search := ⟨true, true, false⟩

/-- What the loops over the arguments of a function leave: the other head of the private
variables, and a status. -/
structure Scope where
  head : LibTreeNode Name
  status : Status

def bindFormal (newHead : LibTreeNode Name) (s : Vars α) (formal : Formal)
    (data : Option (Option α)) (memory : Memory) : Option (Vars α × Scope) :=
  if formal = .null then none
  else
    let oldHead := s.priv.head
    let (s, f) := findFormal putMode true (s.setHead newHead) formal
    (putFound data memory s f).map fun (s, status) =>
      (s.setHead oldHead, ⟨s.priv.head, status⟩)

/-- Tdi1Deallocate without arguments. -/
def deallocateAll (s : Vars α) : Vars α × Reply α :=
  match s.priv.head with
  | .node .. => ({ s with priv := freeAll s.priv }, .status none)
  | .empty => (s, .count (.ok 0))

def Vars.enter (s : Vars α) (newHead : LibTreeNode Name) (narg : ℕ) : Vars α :=
  { s.setHead newHead with narg }

/-- The variables of a function are deallocated, and those of the caller are back. -/
def leave (narg : ℕ) (p : Vars α × Scope) : Vars α × Reply α :=
  ({ (deallocateAll p.1).1.setHead p.2.head with narg }, .status p.2.status)

def returned (status : Status) : Status := if status = some .tdiReturn then none else status

mutual

def findIdent (search : Search) (wants : Bool) (block : Ptr) (s : Vars α) :
    Ident α → Option (Vars α × Found)
  | .missing => some (s, failing .nullPtr wants block)
  | .bad failure => some (s, failing failure wants block)
  | .name name => some (findName search name (.text name) wants block s)
  | .publicly ident => findIdent { search with priv := false } wants block s ident
  | .privately ident => findIdent { search with pub := false } wants block s ident
  | .assigned evaluation status ident =>
      (runOps s evaluation).bind fun (s, _) =>
        match status with
        | none => findIdent search wants block s ident
        | some failure => some (s, failing failure wants block)
  | .var evaluation name =>
      (runOps s evaluation).bind fun (s, _) =>
        match name with
        | .ok name => some (findName search name .freed wants block s)
        | .error failure => some (s, failing failure wants block)

/-- The loop of wild over the arguments. -/
def wildArgs (user : User) (s : Vars α) : List (Ident α) → Option (Vars α × User × Status)
  | [] => some (s, user, none)
  | arg :: args =>
      ((findIdent putMode true user.block s arg).bind fun (s, f) => wildFound user s f).bind
        fun (s, user, status) =>
          if status = none then wildArgs user s args else some (s, user, status)

def bindActuals (newHead : LibTreeNode Name) (s : Vars α) (formals : List Formal) :
    List (Actual α) → Option (Vars α × Scope)
  | [] => (checkRest formals).map fun status => (s, ⟨newHead, status⟩)
  | actual :: actuals =>
      (formals.headD .null).check.bind fun
        | .error failure => some (s, ⟨newHead, some failure⟩)
        | .ok p =>
            (bindActual newHead s p actual).bind fun (s, scope) =>
              if scope.status = none then bindActuals scope.head s formals.tail actuals
              else some (s, scope)

/-- An actual argument is put in a variable of the function. OUT arguments are not evaluated. -/
def bindActual (newHead : LibTreeNode Name) (s : Vars α) (p : Prototype) :
    Actual α → Option (Vars α × Scope)
  | .omitted => some (s, ⟨newHead, if p.opt then none else some .missArg⟩)
  | .given isIdent ident copy evaluation value bound _ =>
      if p.code = some .output then bindFormal newHead s p.formal none bound
      else if p.code = some .asIs then
        match copy with
        | .ok v => bindFormal newHead s p.formal (some (some v)) bound
        | .error failure => some (s, ⟨newHead, some failure⟩)
      else if isIdent then
        ((findIdent getMode true .null s ident).bind fun (s, f) => getFound s f).bind
          fun (s, value) =>
            match value with
            | .ok v => bindFormal newHead s p.formal (some v) bound
            | .error failure =>
                if p.opt ∧ failure = .unknownVar then
                  bindFormal newHead s p.formal (some none) bound
                else some (s, ⟨newHead, some failure⟩)
      else
        (runOps s evaluation).bind fun (s, _) =>
          match value with
          | .ok v =>
              if v.isNone ∧ ¬ p.opt then some (s, ⟨newHead, some .missArg⟩)
              else bindFormal newHead s p.formal (some v) bound
          | .error failure => some (s, ⟨newHead, some failure⟩)

/-- The loop that sends outputs back, with the variables of the caller under the other head. -/
def sendBack (oldHead : LibTreeNode Name) (s : Vars α) (formals : List Formal) :
    List (Actual α) → Option (Vars α × Scope)
  | [] => some (s, ⟨oldHead, none⟩)
  | actual :: actuals =>
      (sendOne oldHead s (formals.headD .null) actual).bind fun (s, scope) =>
        if scope.status = none then sendBack scope.head s formals.tail actuals
        else some (s, scope)

def sendOne (oldHead : LibTreeNode Name) (s : Vars α) (formal : Formal) :
    Actual α → Option (Vars α × Scope)
  | .omitted => some (s, ⟨oldHead, none⟩)
  | .given _ ident _ _ _ _ sent =>
      match formal.sentBack with
      | none => some (s, ⟨oldHead, none⟩)
      | some arg =>
          let (s, f) := findFormal getMode false s arg
          match f.status, f.node with
          | some failure, _ => some (s, ⟨oldHead, some failure⟩)
          | none, none => none
          | none, some node =>
              let newHead := s.priv.head
              (findIdent putMode true .null (s.setHead oldHead) ident).bind fun (s, g) =>
                (putFound (some (s.data node)) sent s g).map fun (s, status) =>
                  (s.setHead newHead, ⟨s.priv.head, status⟩)

def runOp (s : Vars α) : Op α → Option (Vars α × Reply α)
  | .get ident =>
      ((findIdent getMode true .null s ident).bind fun (s, f) => getFound s f).map
        fun (s, value) => (s, .value value)
  | .getPrivate name =>
      some (s, .value (match lookup s.priv name with
        | some node => .ok (s.data (.priv, node))
        | none => .error .unknownVar))
  | .getPublic name =>
      some (s.lock.unlock, .value (match lookup s.pub name with
        | some node => .ok (s.data (.pub, node))
        | none => .error .unknownVar))
  | .put ident data memory =>
      ((findIdent putMode true .null s ident).bind fun (s, f) => putFound data memory s f).map
        fun (s, status) => (s, .status status)
  | .present ident =>
      ((findIdent putMode true .unset s ident).bind fun (s, f) =>
        flagFound (fun _ _ => true) s f).map fun (s, flag) => (s, .flag flag)
  | .allocated ident =>
      ((findIdent putMode true .unset s ident).bind fun (s, f) =>
        flagFound (fun b node => (b.xd node).isSome) s f).map fun (s, flag) => (s, .flag flag)
  | .deallocate [] => some (deallocateAll s)
  | .deallocate (arg :: args) =>
      if arg.isMissing then
        let (b, count) := freeMatching s.priv [] true 0
        some ({ s with priv := b }, .count (.ok count))
      else
        (wildArgs ⟨.to .priv, .text [], 0⟩ s (arg :: args)).bind fun (s, user, status) =>
          match status with
          | none => some (s, .count (.ok user.count))
          | some failure =>
              if user.pattern = .unset then none else some (s, .count (.error failure))
  | .call formals actuals body result =>
      if formals.length < actuals.length then some (s, .status (some .extraArg))
      else
        (bindActuals .empty s formals actuals).bind fun (s', scope) =>
          ((if scope.status = none then
            (runOps (s'.enter scope.head actuals.length) body).map
              fun (s, _) => (s, returned result)
          else some (s'.enter scope.head actuals.length, scope.status)).bind
            fun (t, status) =>
              if status = none then sendBack s'.priv.head t formals actuals
              else some (t, ⟨s'.priv.head, status⟩)).map (leave s.narg)

def runOps (s : Vars α) : List (Op α) → Option (Vars α × List (Reply α))
  | [] => some (s, [])
  | op :: ops =>
      (runOp s op).bind fun (s, reply) =>
        (runOps s ops).map fun (s, replies) => (s, reply :: replies)

end

end MdsPlus.Variables
