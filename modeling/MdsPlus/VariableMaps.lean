import MdsPlus.VariableKeys

/-!
Operations on variables as operations on two finite maps, from names in lower case. The lock is
released as often as it is taken, unless a name is not set or its text is freed.
-/

namespace MdsPlus.VariableMaps

open InsertTree (LibTreeNode)
open VariableKeys VariableNames Variables

variable {α : Type}

abbrev Map (α : Type) := Name → Option (Xd α)

structure Scopes (α : Type) where
  priv : Map α
  pub : Map α

def Scopes.map (m : Scopes α) : Which → Map α
  | .priv => m.priv
  | .pub => m.pub

def Scopes.setMap (m : Scopes α) (map : Map α) : Which → Scopes α
  | .priv => { m with priv := map }
  | .pub => { m with pub := map }

/-- Data of private variables come before those of public ones. -/
def Scopes.value (m : Scopes α) (search : Search) (name : Name) : Except Failure (Option α) :=
  if search.priv && valued (m.priv (fold name)) then .ok (((m.priv (fold name)).getD none).getD none)
  else if search.pub && valued (m.pub (fold name)) then
    .ok (((m.pub (fold name)).getD none).getD none)
  else .error .unknownVar

/-- Variables are private unless they are said to be public. -/
def target (search : Search) : Which := if search.priv then .priv else .pub

def Map.put (map : Map α) (name : Name) (data : Option (Option α)) (memory : Memory) :
    Map α × Status :=
  (Function.update map (fold name) (putSlot (map (fold name)) data memory).1,
    (putSlot (map (fold name)) data memory).2)

/-- Names selected lose their data; those that had some are counted. -/
noncomputable def Map.free (map : Map α) (sel : Name → Bool) : Map α × ℕ :=
  (fun k => if sel (strUpcase k) then freeSlot (map k) else map k,
    {k | IsKey k ∧ sel (strUpcase k) = true ∧ valued (map k) = true}.ncard)

def Map.Empty (map : Map α) : Prop := ∀ k, IsKey k → map k = none

open Classical in
noncomputable def deallocateMap (m : Scopes α) : Scopes α × Reply α :=
  if m.priv.Empty then (m, .count (.ok 0)) else ({ m with priv := fun _ => none }, .status none)

def flagOf (m : Scopes α) (isFound : Option (Xd α) → Bool) :
    Except Failure (Search × Name) → Except Failure Bool
  | .ok (search, name) => .ok (isFound (m.map (target search) (fold name)))
  | .error .unknownVar => .ok false
  | .error failure => .error failure

mutual

noncomputable def addressed (search : Search) (m : Scopes α) :
    Ident α → Scopes α × Except Failure (Search × Name)
  | .missing => (m, .error .nullPtr)
  | .bad failure => (m, .error failure)
  | .name name => (m, .ok (search, name))
  | .publicly ident => addressed { search with priv := false } m ident
  | .privately ident => addressed { search with pub := false } m ident
  | .assigned evaluation status ident =>
      let m := (operateAll m evaluation).1
      match status with
      | none => addressed search m ident
      | some failure => (m, .error failure)
  | .var evaluation name =>
      let m := (operateAll m evaluation).1
      (m, name.map fun name => (search, name))

noncomputable def freeArgs (count : ℕ) (m : Scopes α) :
    List (Ident α) → Scopes α × Except Failure ℕ
  | [] => (m, .ok count)
  | arg :: args =>
      match addressed putMode m arg with
      | (m, .error failure) => (m, .error failure)
      | (m, .ok (search, name)) =>
          let (map, freed) := (m.map (target search)).free
            (selects (strUpcase name) (isWild (strUpcase name)))
          freeArgs (count + freed) (m.setMap map (target search)) args

/-- An operation on the maps. Calls of functions are left out. -/
noncomputable def operate (m : Scopes α) : Op α → Scopes α × Reply α
  | .get ident =>
      let (m, address) := addressed getMode m ident
      (m, .value (address.bind fun (search, name) => m.value search name))
  | .getPrivate name =>
      (m, .value (match m.priv (fold name) with
        | some xd => .ok (xd.getD none)
        | none => .error .unknownVar))
  | .getPublic name =>
      (m, .value (match m.pub (fold name) with
        | some xd => .ok (xd.getD none)
        | none => .error .unknownVar))
  | .put ident data memory =>
      match addressed putMode m ident with
      | (m, .error failure) => (m, .status (some failure))
      | (m, .ok (search, name)) =>
          let (map, status) := (m.map (target search)).put name data memory
          (m.setMap map (target search), .status status)
  | .present ident =>
      let (m, address) := addressed putMode m ident
      (m, .flag (flagOf m Option.isSome address))
  | .allocated ident =>
      let (m, address) := addressed putMode m ident
      (m, .flag (flagOf m valued address))
  | .deallocate [] => deallocateMap m
  | .deallocate (arg :: args) =>
      if arg.isMissing then
        let (map, freed) := m.priv.free (selects [] true)
        ({ m with priv := map }, .count (.ok freed))
      else
        let (m, count) := freeArgs 0 m (arg :: args)
        (m, .count count)
  | .call .. => (m, .status none)

noncomputable def operateAll (m : Scopes α) : List (Op α) → Scopes α × List (Reply α)
  | [] => (m, [])
  | op :: ops =>
      let (m, reply) := operate m op
      let (m, replies) := operateAll m ops
      (m, reply :: replies)

end

/-! ### Names that are set -/

mutual

/-- A variable is named, and in a block. Where the name is used after find_ident, it is not found by
VAR and the evaluation of an argument does not end with an unknown variable. -/
def Ident.Sound (uses : Bool) (search : Search) : Ident α → Prop
  | .missing => True
  | .bad failure => uses = true → failure ≠ .unknownVar
  | .name name => 0 ∉ name ∧ (search.priv || search.pub) = true
  | .publicly ident => Ident.Sound uses { search with priv := false } ident
  | .privately ident => Ident.Sound uses { search with pub := false } ident
  | .assigned evaluation status ident =>
      AllSound evaluation ∧
        match status with
        | none => Ident.Sound uses search ident
        | some failure => uses = true → failure ≠ .unknownVar
  | .var evaluation name =>
      AllSound evaluation ∧
        match name with
        | .ok name => uses = false ∧ 0 ∉ name ∧ (search.priv || search.pub) = true
        | .error failure => uses = true → failure ≠ .unknownVar

def ArgsSound : List (Ident α) → Prop
  | [] => True
  | arg :: args => Ident.Sound true putMode arg ∧ ArgsSound args

def Op.Sound : Op α → Prop
  | .get ident => Ident.Sound false getMode ident
  | .getPrivate name | .getPublic name => 0 ∉ name
  | .put ident _ _ | .present ident | .allocated ident => Ident.Sound true putMode ident
  | .deallocate [] => True
  | .deallocate (arg :: args) => arg.isMissing = true ∨ ArgsSound (arg :: args)
  | .call .. => False

def AllSound : List (Op α) → Prop
  | [] => True
  | op :: ops => Op.Sound op ∧ AllSound ops

end

/-! ### The maps -/

variable {m : Scopes α}

end MdsPlus.VariableMaps
