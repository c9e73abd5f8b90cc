import MdsPlus.VariableFrames
import MdsPlus.VariableRuns

/-!
Calls of functions. The variables of the caller are left alone, but for the evaluation of the actual
arguments and for what is put back in them: private data of the formal arguments, unless a public
variable stands in for one of them.
-/

namespace MdsPlus.FunctionCalls

open InsertTree (LibTreeNode)
open InsertTreeRuns VariableFrames VariableNames Variables

variable {α : Type}

/-! ### Two trees in one zone -/

def SameBlock (b b' : Block α) : Prop :=
  b'.head = b.head ∧ ∀ p ∈ blocks b.head, b'.xd p = b.xd p

/-- The private variables are the same: the tree, and the data at its nodes. -/
def Same (s t : Vars α) : Prop := SameBlock s.priv t.priv

structure Apart (b : Block α) (tree : LibTreeNode Name) : Prop where
  own : ∀ p ∈ blocks b.head, p < b.next
  given : ∀ p ∈ blocks tree, p < b.next
  disjoint : ∀ p ∈ blocks b.head, p ∉ blocks tree

variable {b b' : Block α} {tree : LibTreeNode Name}

theorem Apart.swap (h : Apart b tree) : Apart { b with head := tree } b.head :=
  ⟨h.given, h.own, fun p hp hin => h.disjoint p hin hp⟩

theorem Apart.kept (h : Apart b tree) (hkept : Kept b.next b b') :
    Apart b' tree ∧ ∀ p ∈ blocks tree, b'.xd p = b.xd p := by
  refine ⟨⟨?_, ?_, ?_⟩, ?_⟩
  · intro p hp
    obtain hin | ⟨-, hlt⟩ := hkept.head p hp
    · exact Nat.lt_of_lt_of_le (h.own p hin) hkept.next
    · exact hlt
  · intro p hp
    exact Nat.lt_of_lt_of_le (h.given p hp) hkept.next
  · intro p hp htree
    obtain hin | ⟨hle, -⟩ := hkept.head p hp
    · exact h.disjoint p hin htree
    · exact Nat.not_le_of_lt (h.given p htree) hle
  · intro p hp
    exact hkept.xd p (h.given p hp) fun hin => h.disjoint p hin hp

theorem Apart.aside (h : Apart b tree) (hkept : Kept b.next { b with head := tree } b') :
    Apart { b' with head := b.head } b'.head ∧ SameBlock b { b' with head := b.head } := by
  obtain ⟨hapart, hxd⟩ := h.swap.kept hkept
  exact ⟨hapart.swap, rfl, hxd⟩

theorem SameBlock.refl (b : Block α) : SameBlock b b := ⟨rfl, fun _ _ => rfl⟩

theorem SameBlock.trans {b'' : Block α} (h : SameBlock b b') (h' : SameBlock b' b'') :
    SameBlock b b'' := by
  refine ⟨h'.1.trans h.1, fun p hp => ?_⟩
  have hp' : p ∈ blocks b'.head := by
    rw [h.1]
    exact hp
  exact (h'.2 p hp').trans (h.2 p hp)

/-! ### Steps of the caller and of the function -/

/-- What a function does with its own variables. -/
inductive Works (body : List (Op α)) (s : Vars α) : Vars α → Prop
  | bind {formal : Formal} {data : Option (Option α)} {memory : Memory} {t : Vars α}
      {status : Status} (h : putFound data memory (findFormal putMode true s formal).1
        (findFormal putMode true s formal).2 = some (t, status)) : Works body s t
  | run {t : Vars α} {replies : List (Reply α)} (h : runOps s body = some (t, replies)) :
      Works body s t
  | find (formal : Formal) : Works body s (findFormal getMode false s formal).1
  | leave : Works body s (deallocateAll s).1

/-- A step of a function, with its variables in the place of those of the caller. These are the same
after it. -/
def Aside (body : List (Op α)) (s t : Vars α) : Prop :=
  (∃ head narg narg' u, Works body (s.enter head narg) u ∧ t = u.enter s.priv.head narg') ∧
    Same s t

/-- Operations of the caller one after the other, with steps of a function between them. -/
def Through (body : List (Op α)) : List (List (Op α)) → Vars α → Vars α → Prop
  | [], s, u => Relation.ReflTransGen (Aside body) s u
  | ops :: rest, s, u => ∃ t t' replies, Relation.ReflTransGen (Aside body) s t ∧
      runOps t ops = some (t', replies) ∧ Through body rest t' u

variable {body : List (Op α)} {s t u : Vars α}

theorem through_refl (body : List (Op α)) (s : Vars α) : Through body [] s s :=
  Relation.ReflTransGen.refl

theorem Aside.through (h : Aside body s t) : Through body [] s t :=
  Relation.ReflTransGen.single h

theorem Through.after {steps : List (List (Op α))} (h : Relation.ReflTransGen (Aside body) s t)
    (hsteps : Through body steps t u) : Through body steps s u := by
  cases steps with
  | nil => exact h.trans hsteps
  | cons ops rest =>
    obtain ⟨v, v', replies, haside, hrun, hrest⟩ := hsteps
    exact ⟨v, v', replies, h.trans haside, hrun, hrest⟩

theorem Through.append {steps steps' : List (List (Op α))} (h : Through body steps s t)
    (h' : Through body steps' t u) : Through body (steps ++ steps') s u := by
  induction steps generalizing s with
  | nil => exact h'.after h
  | cons ops rest ih =>
    obtain ⟨v, v', replies, haside, hrun, hrest⟩ := h
    exact ⟨v, v', replies, haside, hrun, ih hrest⟩

theorem through_run (body : List (Op α)) {ops : List (Op α)} {replies : List (Reply α)}
    (h : runOps s ops = some (t, replies)) : Through body [ops] s t :=
  ⟨s, t, replies, Relation.ReflTransGen.refl, h, Relation.ReflTransGen.refl⟩

theorem Through.same (h : Through body [] s t) : Same s t := by
  induction h with
  | refl => exact SameBlock.refl s.priv
  | tail _ haside ih => exact ih.trans haside.2

/-! ### What the caller does -/

def evaluated (code : Option Code) : Actual α → List (List (Op α))
  | .omitted => []
  | .given isIdent ident _ evaluation _ _ _ =>
      if code = some .output ∨ code = some .asIs then []
      else if isIdent then [[.get ident]]
      else [evaluation]

def evaluations (formals : List Formal) : List (Actual α) → List (List (Op α))
  | [] => []
  | actual :: actuals =>
      (match (formals.headD .null).check with
        | some (.ok p) => evaluated p.code actual
        | _ => []) ++ evaluations formals.tail actuals

def privateData (b : Block α) : Formal → Option (Option α)
  | .text name => (lookupDefined b name).map fun p => (b.xd p).getD none
  | _ => none

def sent (b : Block α) (formal : Formal) : Actual α → List (List (Op α))
  | .omitted => []
  | .given _ ident _ _ _ _ memory =>
      match formal.sentBack.bind (privateData b) with
      | some v => [[.put ident (some v) memory]]
      | none => []

def sends (b : Block α) (formals : List Formal) : List (Actual α) → List (List (Op α))
  | [] => []
  | actual :: actuals => sent b (formals.headD .null) actual ++ sends b formals.tail actuals

def sendsAfter (s : Vars α) (formals : List Formal) (actuals : List (Actual α))
    (body : List (Op α)) : List (List (Op α)) :=
  ((bindActuals .empty s formals actuals).bind fun (t, scope) =>
    (runOps (t.enter scope.head actuals.length) body).map fun (w, _) =>
      sends w.priv formals actuals).getD []

/-! ### Arguments -/

variable {newHead : LibTreeNode Name} {scope : Scope}

theorem bindFormal_aside (body : List (Op α)) (hapart : Apart s.priv newHead) {formal : Formal}
    {data : Option (Option α)} {memory : Memory}
    (h : bindFormal newHead s formal data memory = some (t, scope)) :
    Aside body s t ∧ Apart t.priv scope.head := by
  obtain ⟨b', hkept, hpriv, hhead, -⟩ := bindFormal_inner (Nat.le_refl _) h
  obtain ⟨hnew, hsame⟩ := hapart.aside hkept
  simp only [← hpriv, ← hhead] at hnew hsame
  refine ⟨⟨?_, hsame⟩, hnew⟩
  unfold bindFormal at h
  split at h
  · cases h
  · cases hfound : findFormal putMode true (s.setHead newHead) formal with
    | mk v f =>
      simp only [hfound] at h
      obtain ⟨⟨u, status⟩, hput, heq⟩ := Option.map_eq_some_iff.mp h
      cases heq
      have hworks : Works body (s.enter newHead s.narg) u := by
        have hbind : putFound data memory (findFormal putMode true (s.setHead newHead) formal).1
            (findFormal putMode true (s.setHead newHead) formal).2 = some (u, status) := by
          rw [hfound]
          exact hput
        exact Works.bind hbind
      exact ⟨newHead, s.narg, u.narg, u, hworks, rfl⟩

theorem runOps_apart (hapart : Apart s.priv newHead) {ops : List (Op α)}
    {replies : List (Reply α)} (h : runOps s ops = some (t, replies)) : Apart t.priv newHead :=
  (hapart.kept (runOps_kept ops (Nat.le_refl _) t replies h).1).1

theorem bindActual_through (body : List (Op α)) (hapart : Apart s.priv newHead) {p : Prototype}
    {actual : Actual α} (h : bindActual newHead s p actual = some (t, scope)) :
    Through body (evaluated p.code actual) s t ∧ Apart t.priv scope.head := by
  cases actual with
  | omitted =>
    unfold bindActual at h
    cases h
    exact ⟨through_refl body s, hapart⟩
  | given isIdent ident copy evaluation value bound memory =>
    unfold bindActual at h
    unfold evaluated
    dsimp only
    split at h
    · next hcode =>
      obtain ⟨haside, hnew⟩ := bindFormal_aside body hapart h
      rw [if_pos (Or.inl hcode)]
      exact ⟨haside.through, hnew⟩
    · next hout =>
      split at h
      · next hcode =>
        rw [if_pos (Or.inr hcode)]
        cases copy with
        | ok v =>
          obtain ⟨haside, hnew⟩ := bindFormal_aside body hapart h
          exact ⟨haside.through, hnew⟩
        | error failure =>
          cases h
          exact ⟨through_refl body s, hapart⟩
      · next has =>
        rw [if_neg (not_or.mpr ⟨hout, has⟩)]
        split at h
        · next hident =>
          rw [if_pos hident]
          obtain ⟨⟨v, x⟩, hget, hbind⟩ := Option.bind_eq_some_iff.mp h
          have hrun : runOps s [.get ident] = some (v, [.value x]) := by
            unfold runOps runOp
            rw [hget]
            rfl
          have hv := runOps_apart hapart hrun
          have hthrough := through_run body hrun
          cases x with
          | ok data =>
            obtain ⟨haside, hnew⟩ := bindFormal_aside body hv hbind
            exact ⟨hthrough.append haside.through, hnew⟩
          | error failure =>
            dsimp only at hbind
            split at hbind
            · obtain ⟨haside, hnew⟩ := bindFormal_aside body hv hbind
              exact ⟨hthrough.append haside.through, hnew⟩
            · cases hbind
              exact ⟨hthrough, hv⟩
        · next hident =>
          rw [if_neg hident]
          obtain ⟨⟨v, replies⟩, hrun, hbind⟩ := Option.bind_eq_some_iff.mp h
          have hv := runOps_apart hapart hrun
          have hthrough := through_run body hrun
          cases value with
          | ok data =>
            dsimp only at hbind
            split at hbind
            · cases hbind
              exact ⟨hthrough, hv⟩
            · obtain ⟨haside, hnew⟩ := bindFormal_aside body hv hbind
              exact ⟨hthrough.append haside.through, hnew⟩
          | error failure =>
            cases hbind
            exact ⟨hthrough, hv⟩

def Checked (formals : List Formal) : List (Actual α) → Prop
  | [] => True
  | _ :: actuals =>
      (∃ p, (formals.headD .null).check = some (.ok p)) ∧ Checked formals.tail actuals

theorem bindActuals_through (body : List (Op α)) :
    ∀ (actuals : List (Actual α)) {formals : List Formal} {newHead : LibTreeNode Name}
      {s t : Vars α} {scope : Scope}, Apart s.priv newHead →
      bindActuals newHead s formals actuals = some (t, scope) →
        ∃ steps, steps <+: evaluations formals actuals ∧ Through body steps s t ∧
          Apart t.priv scope.head ∧
            (scope.status = none → steps = evaluations formals actuals ∧ Checked formals actuals)
  | [], formals, newHead, s, t, scope, hapart, h => by
    unfold bindActuals at h
    obtain ⟨status, -, heq⟩ := Option.map_eq_some_iff.mp h
    cases heq
    exact ⟨[], List.prefix_rfl, through_refl body s, hapart, fun _ => ⟨rfl, trivial⟩⟩
  | actual :: actuals, formals, newHead, s, t, scope, hapart, h => by
    unfold bindActuals at h
    unfold evaluations
    obtain ⟨checked, hcheck, hbind⟩ := Option.bind_eq_some_iff.mp h
    cases checked with
    | error failure =>
      cases hbind
      exact ⟨[], List.nil_prefix, through_refl body s, hapart, fun hstatus => by cases hstatus⟩
    | ok p =>
      simp only [hcheck]
      obtain ⟨⟨u, scope'⟩, hactual, hrest⟩ := Option.bind_eq_some_iff.mp hbind
      obtain ⟨hthrough, hu⟩ := bindActual_through body hapart hactual
      dsimp only at hrest
      split at hrest
      · obtain ⟨steps, hprefix, hsteps, ht, hall⟩ := bindActuals_through body actuals hu hrest
        refine ⟨evaluated p.code actual ++ steps, (List.prefix_append_right_inj _).mpr hprefix,
          hthrough.append hsteps, ht, fun hstatus => ?_⟩
        obtain ⟨hsame, hchecked⟩ := hall hstatus
        rw [hsame]
        exact ⟨rfl, ⟨p, hcheck⟩, hchecked⟩
      · next hfailed =>
        cases hrest
        exact ⟨evaluated p.code actual, List.prefix_append _ _, hthrough, hu,
          fun hstatus => absurd hstatus hfailed⟩

/-! ### Sending back -/

theorem text_of_sentBack {formal arg : Formal} {p : Prototype}
    (hcheck : formal.check = some (.ok p)) (hsent : formal.sentBack = some arg) :
    ∃ name, arg = .text name := by
  unfold Formal.sentBack at hsent
  unfold Formal.check at hcheck
  split at hcheck
  · cases hcheck
  · dsimp only at hsent hcheck
    split at hsent
    all_goals simp_all only [Option.some.injEq, reduceCtorEq]
    all_goals
      cases arg with
      | text name => exact ⟨name, rfl⟩
      | _ => cases hcheck

def Owned (s : Vars α) (formal : Formal) : Actual α → Prop
  | .omitted => True
  | .given .. => ∀ name, formal.sentBack = some (.text name) →
      lookupDefined s.priv name = none → lookupDefined s.pub name = none

/-- So at each formal argument that is sent back. -/
def OwnedSends (oldHead : LibTreeNode Name) (s : Vars α) (formals : List Formal) :
    List (Actual α) → Prop
  | [] => True
  | actual :: actuals => Owned s (formals.headD .null) actual ∧
      ∀ t scope, sendOne oldHead s (formals.headD .null) actual = some (t, scope) →
        OwnedSends scope.head t formals.tail actuals

theorem findName_private {name : Name} {p : ℕ} (h : lookupDefined s.priv name = some p)
    (key : Key) (wants : Bool) (block : Ptr) :
    findName getMode name key wants block s =
      (s, ⟨none, key, some (.priv, p), if wants then .to .priv else block⟩) := by
  unfold findName getMode
  simp only [h, Bool.not_true, Bool.and_false, Bool.false_eq_true, if_false, if_true]

theorem findName_unknown {name : Name} (h : lookupDefined s.priv name = none)
    (hpub : lookupDefined s.pub name = none) (key : Key) (block : Ptr) :
    findName getMode name key false block s =
      (s.lock.unlock, ⟨some .unknownVar, key, none, block⟩) := by
  have hlocked : lookupDefined s.lock.pub name = none := hpub
  unfold findName getMode
  simp only [h, hlocked, Bool.not_true, Bool.and_false, Bool.false_eq_true, if_false, if_true,
    Bool.false_and]

theorem mem_blocks_of_lookupDefined {name : Name} {p : ℕ} (h : lookupDefined b name = some p) :
    p ∈ blocks b.head := by
  obtain ⟨hlookup, -⟩ := Option.filter_eq_some_iff.mp h
  exact mem_blocks_of_lookup hlookup

theorem privateData_congr (h : SameBlock b b') (formal : Formal) :
    privateData b' formal = privateData b formal := by
  cases formal with
  | text name =>
    have hlookup : lookup b' name = lookup b name := by
      unfold lookup
      rw [h.1]
    unfold privateData lookupDefined
    dsimp only
    rw [hlookup]
    cases hp : lookup b name with
    | none => rfl
    | some p =>
      have hxd := h.2 p (mem_blocks_of_lookup hp)
      simp only [Option.filter, hxd]
      split
      · simp only [Option.map_some, hxd]
      · rfl
  | _ => rfl

theorem sends_congr (h : SameBlock b b') (actuals : List (Actual α)) (formals : List Formal) :
    sends b' formals actuals = sends b formals actuals := by
  have hdata : privateData b' = privateData b := funext (privateData_congr h)
  have hsent : sent b' = sent b := by
    funext formal actual
    cases actual with
    | omitted => rfl
    | given =>
      unfold sent
      rw [hdata]
  induction actuals generalizing formals with
  | nil => rfl
  | cons actual actuals ih =>
    unfold sends
    rw [ih, hsent]

theorem sendOne_through (body : List (Op α)) {oldHead : LibTreeNode Name} {formal : Formal}
    {actual : Actual α} (hapart : Apart s.priv oldHead)
    (hcheck : ∃ p, formal.check = some (.ok p)) (hown : Owned s formal actual)
    (h : sendOne oldHead s formal actual = some (t, scope)) :
    Through body (sent s.priv formal actual) (s.setHead oldHead) (t.setHead scope.head) ∧
      Apart t.priv scope.head ∧ SameBlock s.priv t.priv := by
  cases actual with
  | omitted =>
    unfold sendOne at h
    cases h
    exact ⟨through_refl body _, hapart, SameBlock.refl s.priv⟩
  | given isIdent ident copy evaluation value bound memory =>
    unfold sendOne at h
    unfold sent
    cases hback : formal.sentBack with
    | none =>
      rw [hback] at h
      cases h
      exact ⟨through_refl body _, hapart, SameBlock.refl s.priv⟩
    | some arg =>
      obtain ⟨p, hp⟩ := hcheck
      obtain ⟨name, rfl⟩ := text_of_sentBack hp hback
      rw [hback] at h
      dsimp only [findFormal, Option.bind_some] at h ⊢
      cases hnode : lookupDefined s.priv name with
      | none =>
        have hdata : privateData s.priv (.text name) = none := by
          unfold privateData
          dsimp only
          rw [hnode]
          rfl
        rw [hdata]
        rw [findName_unknown hnode (hown name hback hnode)] at h
        cases h
        have hfind : Works body s (findFormal getMode false s (.text name)).1 := Works.find _
        unfold findFormal at hfind
        rw [findName_unknown hnode (hown name hback hnode)] at hfind
        have haside : Aside body (s.setHead oldHead) (s.lock.unlock.setHead oldHead) :=
          ⟨⟨s.priv.head, s.narg, s.narg, s.lock.unlock, hfind, rfl⟩, SameBlock.refl _⟩
        exact ⟨haside.through, hapart, SameBlock.refl s.priv⟩
      | some q =>
        have hdata : privateData s.priv (.text name) = some ((s.priv.xd q).getD none) := by
          unfold privateData
          dsimp only
          rw [hnode]
          rfl
        rw [hdata]
        rw [findName_private hnode] at h
        dsimp only at h
        obtain ⟨⟨u, g⟩, hfind, hmap⟩ := Option.bind_eq_some_iff.mp h
        obtain ⟨⟨u', status⟩, hput, heq⟩ := Option.map_eq_some_iff.mp hmap
        cases heq
        have hfound := (findIdent_kept ident putMode true .null (Nat.le_refl _) u g hfind).1
        have hxd := (hapart.swap.kept hfound).2 q (mem_blocks_of_lookupDefined hnode)
        have hrun : runOps (s.setHead oldHead)
            [.put ident (some ((s.priv.xd q).getD none)) memory] =
              some (u', [.status status]) := by
          have hsame : u.data (.priv, q) = (s.priv.xd q).getD none := by
            change (u.priv.xd q).getD none = _
            rw [hxd]
          rw [hsame] at hput
          unfold runOps runOp
          rw [hfind]
          simp only [Option.bind_some, hput, Option.map_some]
          rfl
        have hkept := (runOps_kept _ (Nat.le_refl _) u' _ hrun).1
        obtain ⟨hnew, hsame⟩ := hapart.aside hkept
        exact ⟨through_run body hrun, hnew, hsame⟩

theorem sendBack_through (body : List (Op α)) :
    ∀ (actuals : List (Actual α)) {formals : List Formal} {oldHead : LibTreeNode Name}
      {s t : Vars α} {scope : Scope}, Apart s.priv oldHead → Checked formals actuals →
      OwnedSends oldHead s formals actuals →
      sendBack oldHead s formals actuals = some (t, scope) →
        ∃ steps, steps <+: sends s.priv formals actuals ∧
          Through body steps (s.setHead oldHead) (t.setHead scope.head) ∧
            Apart t.priv scope.head ∧
              (scope.status = none → steps = sends s.priv formals actuals)
  | [], formals, oldHead, s, t, scope, hapart, _, _, h => by
    unfold sendBack at h
    cases h
    exact ⟨[], List.prefix_rfl, through_refl body _, hapart, fun _ => rfl⟩
  | actual :: actuals, formals, oldHead, s, t, scope, hapart, hchecked, hown, h => by
    unfold sendBack at h
    unfold sends
    obtain ⟨⟨u, scope'⟩, hone, hrest⟩ := Option.bind_eq_some_iff.mp h
    obtain ⟨hthrough, hu, hsame⟩ := sendOne_through body hapart hchecked.1 hown.1 hone
    dsimp only at hrest
    split at hrest
    · obtain ⟨steps, hprefix, hsteps, ht, hall⟩ :=
        sendBack_through body actuals hu hchecked.2 (hown.2 u scope' hone) hrest
      simp only [sends_congr hsame] at hprefix hall
      refine ⟨sent s.priv (formals.headD .null) actual ++ steps,
        (List.prefix_append_right_inj _).mpr hprefix, hthrough.append hsteps, ht,
        fun hstatus => ?_⟩
      rw [hall hstatus]
    · next hfailed =>
      cases hrest
      exact ⟨sent s.priv (formals.headD .null) actual, List.prefix_append _ _, hthrough, hu,
        fun hstatus => absurd hstatus hfailed⟩

/-! ### Calls -/

/-- What is sent back when a function has done its body, with what it has of its own. -/
def OwnedAfter (s : Vars α) (formals : List Formal) (actuals : List (Actual α))
    (body : List (Op α)) : Prop :=
  ∀ t scope w replies, bindActuals .empty s formals actuals = some (t, scope) →
    runOps (t.enter scope.head actuals.length) body = some (w, replies) →
      OwnedSends t.priv.head w formals actuals

/-- The states in which operations are done: those of a run, those between the arguments of a
function, in its body, and between the outputs that it sends back. -/
inductive Reached : Vars α → Prop
  | start : Reached VariableRuns.start
  | step {s t : Vars α} {op : Op α} {reply : Reply α} (h : Reached s)
      (hrun : runOp s op = some (t, reply)) : Reached t
  | bound {s t : Vars α} {formals : List Formal} {actuals : List (Actual α)} {scope : Scope}
      (h : Reached s) (hbind : bindActuals .empty s formals actuals = some (t, scope)) : Reached t
  | entered {s t : Vars α} {formals : List Formal} {actuals : List (Actual α)} {scope : Scope}
      (h : Reached s) (hbind : bindActuals .empty s formals actuals = some (t, scope)) (narg : ℕ) :
      Reached (t.enter scope.head narg)
  | back {s t w v : Vars α} {formals formals' : List Formal} {actuals actuals' : List (Actual α)}
      {scope scope' : Scope} {narg : ℕ} {body : List (Op α)} {replies : List (Reply α)}
      (h : Reached s) (hbind : bindActuals .empty s formals actuals = some (t, scope))
      (hrun : runOps (t.enter scope.head narg) body = some (w, replies))
      (hback : sendBack t.priv.head w formals' actuals' = some (v, scope')) :
      Reached (v.setHead scope'.head)

theorem apart_empty (h : ∀ p ∈ blocks b.head, p < b.next) : Apart b .empty :=
  ⟨h, fun _ hp => absurd hp List.not_mem_nil, fun _ _ => List.not_mem_nil⟩

theorem body_aside (hapart : Apart s.priv newHead) {narg : ℕ} {replies : List (Reply α)}
    (hrun : runOps (s.enter newHead narg) body = some (t, replies)) :
    Aside body s (t.setHead s.priv.head) ∧ Apart t.priv s.priv.head := by
  have hkept := (runOps_kept body (Nat.le_refl _) t replies hrun).1
  obtain ⟨hnew, hsame⟩ := hapart.aside hkept
  exact ⟨⟨⟨newHead, narg, t.narg, t, Works.run hrun, rfl⟩, hsame⟩, hnew.swap⟩

theorem Reached.apart (h : Reached s) : Apart s.priv .empty := by
  induction h with
  | start => exact apart_empty fun _ hp => absurd hp List.not_mem_nil
  | step _ hrun ih =>
    have hkept := (runOp_kept _ (Nat.le_refl _) _ _ hrun).1
    exact (ih.kept hkept).1
  | bound _ hbind ih =>
    obtain ⟨-, -, -, hnew, -⟩ := bindActuals_through [] _ ih hbind
    exact apart_empty hnew.own
  | entered _ hbind _ ih =>
    obtain ⟨-, -, -, hnew, -⟩ := bindActuals_through [] _ ih hbind
    exact apart_empty hnew.swap.own
  | back _ hbind hrun hback ih =>
    obtain ⟨-, -, -, hnew, -⟩ := bindActuals_through [] _ ih hbind
    have hw := (body_aside hnew hrun).2
    have hkept := (sendBack_kept _ _ (Nat.le_refl _) _ _ hback).1
    exact apart_empty (hw.swap.kept hkept).1.own

theorem leave_aside (body : List (Op α)) (hapart : Apart s.priv newHead) (narg narg' : ℕ)
    (status : Status) :
    Aside body s (leave narg' (s.enter newHead narg, ⟨s.priv.head, status⟩)).1 := by
  have hkept := (deallocateAll_kept s.priv.next (s.enter newHead narg)).1
  obtain ⟨-, hsame⟩ := hapart.aside hkept
  exact ⟨⟨newHead, narg, narg', (deallocateAll (s.enter newHead narg)).1, Works.leave, rfl⟩, hsame⟩

/-- A call leaves the variables of the caller alone, but for the evaluation of the actual arguments
and for the private data of formal ones that are put back, up to an error. -/
theorem call_framed {formals : List Formal} {actuals : List (Actual α)} {result : Status}
    {s' : Vars α} {reply : Reply α} (hs : Reached s)
    (hcall : runOp s (.call formals actuals body result) = some (s', reply))
    (hown : OwnedAfter s formals actuals body) :
    ∃ evals backs, evals <+: evaluations formals actuals ∧
      backs <+: sendsAfter s formals actuals body ∧ Through body (evals ++ backs) s s' ∧
        s'.narg = s.narg ∧ (reply = .status none → evals = evaluations formals actuals ∧
          backs = sendsAfter s formals actuals body) := by
  unfold runOp at hcall
  split at hcall
  · cases hcall
    exact ⟨[], [], List.nil_prefix, List.nil_prefix, through_refl body s, rfl,
      fun hreply => by cases hreply⟩
  · obtain ⟨⟨t, scope⟩, hbind, hrest⟩ := Option.bind_eq_some_iff.mp hcall
    obtain ⟨⟨v, back⟩, hbody, hleave⟩ := Option.map_eq_some_iff.mp hrest
    obtain ⟨⟨w, status⟩, hrun, hsend⟩ := Option.bind_eq_some_iff.mp hbody
    cases hleave
    obtain ⟨evals, hevals, hthrough, hnew, hall⟩ :=
      bindActuals_through body actuals hs.apart hbind
    dsimp only at hrun hsend
    split at hrun
    · next hstatus =>
      obtain ⟨hwhole, hchecked⟩ := hall hstatus
      obtain ⟨⟨w', replies⟩, hops, hpair⟩ := Option.map_eq_some_iff.mp hrun
      cases hpair
      obtain ⟨haside, hw⟩ := body_aside hnew hops
      have hafter : sendsAfter s formals actuals body = sends w'.priv formals actuals := by
        unfold sendsAfter
        simp only [hbind, hops, Option.bind_some, Option.map_some, Option.getD_some]
      rw [hafter]
      split at hsend
      · obtain ⟨backs, hbacks, hsteps, hv, hdone⟩ :=
          sendBack_through body actuals hw hchecked (hown t scope w' replies hbind hops) hsend
        refine ⟨evals, backs, hevals, hbacks, ?_, rfl, fun hreply => ?_⟩
        · have hrest := haside.through.append hsteps
          have hleft := leave_aside (s := v.setHead back.head) body hv.swap v.narg s.narg
            back.status
          have hend := hrest.append hleft.through
          rw [List.nil_append, List.append_nil] at hend
          exact hthrough.append hend
        · exact ⟨hwhole, hdone (Reply.status.inj hreply)⟩
      · next hfailed =>
        cases hsend
        refine ⟨evals, [], hevals, List.nil_prefix, ?_, rfl, fun hreply => ?_⟩
        · have hleft := leave_aside (s := w'.setHead t.priv.head) body hw.swap w'.narg s.narg
            (returned result)
          exact hthrough.append (haside.through.append hleft.through)
        · exact absurd (Reply.status.inj hreply) hfailed
    · next hstatus =>
      cases hrun
      rw [if_neg hstatus] at hsend
      cases hsend
      refine ⟨evals, [], hevals, List.nil_prefix, ?_, rfl, fun hreply => ?_⟩
      · have hleft := leave_aside body hnew actuals.length s.narg scope.status
        exact hthrough.append hleft.through
      · exact absurd (Reply.status.inj hreply) hstatus

def lowerY : Name := [95, 121]

def outX : List Formal := [.modified .output (.text VariableRuns.lowerX)]

def argY : List (Actual ℕ) :=
  [.given true (.name lowerY) (.error .other) [] (.error .other) VariableRuns.enough
    VariableRuns.enough]

def assignX : List (Op ℕ) :=
  [.put (.name VariableRuns.lowerX) (some (some 6)) VariableRuns.enough]

/-- A function of OUT _x that assigns 6 to it is called with _y, which gets the 6. -/
theorem call_framed_assignX : ∃ s' : Vars ℕ,
    runOp VariableRuns.start (.call outX argY assignX none) = some (s', .status none) ∧
      Through assignX [[.put (.name lowerY) (some (some 6)) VariableRuns.enough]]
        VariableRuns.start s' := by
  refine ⟨_, rfl, ?_⟩
  have hown : OwnedAfter VariableRuns.start outX argY assignX := by
    intro t scope w replies hbind hrun
    cases hbind
    cases hrun
    refine ⟨?_, fun _ _ _ => trivial⟩
    intro name hname hnone
    obtain rfl := Formal.text.inj (Option.some.inj hname)
    cases hnone
  have hcall : runOp VariableRuns.start (.call outX argY assignX none) =
      some (_, .status none) := rfl
  obtain ⟨evals, backs, -, -, hthrough, -, hwhole⟩ := call_framed Reached.start hcall hown
  obtain ⟨rfl, rfl⟩ := hwhole rfl
  exact hthrough

def publicX : Op ℕ :=
  .put (.publicly (.name VariableRuns.lowerX)) (some (some 7)) VariableRuns.enough

/-- A function of OUT _x that does nothing is called with _y after PUBLIC _x = 7: _y gets the 7. -/
theorem public_delivered : ¬ ∀ (formals : List Formal) (actuals : List (Actual ℕ))
    (body : List (Op ℕ)) (result : Status) (s s' : Vars ℕ) (reply : Reply ℕ), Reached s →
    runOp s (.call formals actuals body result) = some (s', reply) →
      ∃ evals backs, evals <+: evaluations formals actuals ∧
        backs <+: sendsAfter s formals actuals body ∧ Through body (evals ++ backs) s s' := by
  intro hall
  have hput : runOp VariableRuns.start publicX = some (_, .status none) := rfl
  have hpublic := Reached.start.step hput
  obtain ⟨evals, backs, hevals, hbacks, hthrough⟩ := hall outX argY [] none _ _ _ hpublic rfl
  obtain rfl := List.prefix_nil.mp hevals
  obtain rfl := List.prefix_nil.mp hbacks
  have hhead := hthrough.same.1
  cases hhead

end MdsPlus.FunctionCalls
