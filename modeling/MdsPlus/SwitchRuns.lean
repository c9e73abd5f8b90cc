import MdsPlus.Restarts
import MdsPlus.SwitchPlan

/-!
The code of SWITCH runs the statements of the plan. What it does with the rest of a list,
after the search of a block in it, is taken as a continuation; it carries out the plan for
the lists around the block.
-/

namespace MdsPlus.SwitchRuns

open Statements Restarts SwitchPlan

variable {ε ν κ σ : Type}

def TdiNULL_PTR : ℤ := tdiStatus 4120 2

/-- Results as far as a search can tell them apart. -/
inductive Value (κ : Type)
  | nothing
  | logical (b : Bool)
  | scalar (k : κ)
  | range (first last : Option κ)
  deriving DecidableEq

def Label.value : Label κ → Value κ
  | .scalar k => .scalar k
  | .range first last => .range first last

def Comparison.holds [LinearOrder κ] : Comparison → κ → κ → Bool
  | .eq, x, k => x = k
  | .ge, x, k => k ≤ x
  | .le, x, k => x ≤ k

theorem isOpen_iff (l : Label κ) : l.isOpen = true ↔ l = .range none none := by
  cases l with
  | scalar k => simp only [Label.isOpen, Bool.false_eq_true, reduceCtorEq]
  | range first last =>
    cases first <;> cases last <;>
      simp only [Label.isOpen, Bool.false_eq_true, Label.range.injEq, reduceCtorEq, and_false,
        false_and, and_self]

section Scalars

variable (label : ε → Label κ) (long : Value κ → Option ℤ × ℤ) (text : Value κ → Except ℤ ν)

/-- Without a value there is no number; that of a comparison is one or zero. -/
def toLong : Value κ → Option ℤ × ℤ
  | .nothing => (none, TdiNULL_PTR)
  | .logical b => (some (if b then 1 else 0), MDSplusSUCCESS)
  | value => long value

def rangeOf : Value κ → Option (Option (Value κ) × Option (Value κ))
  | .range first last => some (first.map .scalar, last.map .scalar)
  | _ => none

def compareScalars [LinearOrder κ] (c : Comparison) : Value κ → Value κ → Value κ × ℤ
  | .scalar x, .scalar k => (.logical (Comparison.holds c x k), MDSplusSUCCESS)
  | _, _ => (.nothing, TdiNULL_PTR)

/-- Expressions that have scalars and ranges as their values. -/
def scalars [LinearOrder κ] : Exprs ε ν (Value κ) σ where
  nothing := .nothing
  evaluate _ e := pure (Label.value (label e), MDSplusSUCCESS)
  getLong _ e := pure (toLong long (Label.value (label e)))
  long := toLong long
  text := text
  range := rangeOf
  compare c _ x k := pure (compareScalars c x k)

end Scalars

section Compare

variable [LinearOrder κ] {label : ε → Label κ} {long : Value κ → Option ℤ × ℤ}
  {text : Value κ → Except ℤ ν} {x : κ} {quiet : Prop}

/-- The last comparison can be read from a result. Where there is none, the result is
nothing if statements do not leave any. -/
def Reads (quiet : Prop) : Option Bool → Value κ → Prop
  | some b, out => out = .logical b
  | none, out => quiet → out = .nothing

/-- The comparison as a result: the test is the logical that is left. -/
def decided (b : Bool) : ℤ × Value κ × ℤ := (if b then 1 else 0, .logical b, MDSplusSUCCESS)

theorem isOk_test (b : Bool) : isOk (if b then 1 else 0) = b := by
  cases b <;> rfl

theorem compareEnd_decided (d : ℕ) (b : Bool) (ending : Option κ) :
    compareEnd (scalars (σ := σ) label long text) d (.scalar x) (decided b) (ending.map .scalar) =
      pure (if b then 1 else 0, .logical (b && ending.all (x ≤ ·)), MDSplusSUCCESS) := by
  cases ending with
  | none =>
    rw [Option.all_none, Bool.and_true]
    rfl
  | some last => cases b <;> rfl

theorem compareValue_scalar (d : ℕ) (test : ℤ) (k : κ) (out : Value κ) :
    compareValue (scalars (σ := σ) label long text) d (.scalar x) (.scalar k)
      (test, out, MDSplusSUCCESS) =
        pure (test, .logical (decide (x = k)), MDSplusSUCCESS) := rfl

theorem compareValue_range (d : ℕ) (test : ℤ) (first : κ) (last : Option κ) (out : Value κ) :
    compareValue (scalars (σ := σ) label long text) d (.scalar x) (.range (some first) last)
      (test, out, MDSplusSUCCESS) =
        pure (if decide (first ≤ x) then 1 else 0,
          .logical (decide (first ≤ x) && last.all (x ≤ ·)), MDSplusSUCCESS) :=
  compareEnd_decided d _ last

theorem switchCase_evaluated (d : ℕ) (ptest : Value κ) (e : ε) (test : ℤ) (out : Value κ) :
    switchCase (scalars (σ := σ) label long text) d ptest (.value e) test out =
      compareValue (scalars label long text) d ptest (Label.value (label e))
        (test, out, MDSplusSUCCESS) >>= fun r =>
          pure (getTest (scalars (σ := σ) label long text) r) := by
  unfold switchCase
  rw [show (scalars (σ := σ) label long text).evaluate d e =
    pure (Label.value (label e), MDSplusSUCCESS) from rfl, pure_bind]
  exact if_pos (show isOk MDSplusSUCCESS = true by decide)

theorem switchCase_value (d : ℕ) (e : ε) (hopen : (label e).isOpen = false) (test : ℤ)
    (out : Value κ) :
    switchCase (scalars (σ := σ) label long text) d (.scalar x) (.value e) test out =
      pure (decided ((label e).matches x)) := by
  rw [switchCase_evaluated]
  cases hlabel : label e with
  | scalar k =>
    rw [Label.value, compareValue_scalar]
    rfl
  | range first last =>
    cases first with
    | some first =>
      rw [Label.value, compareValue_range]
      rfl
    | none =>
      cases last with
      | some last => rfl
      | none =>
        rw [hlabel, Label.isOpen] at hopen
        cases hopen

theorem switchCase_open (d : ℕ) (e : ε) (hopen : label e = .range none none) (test : ℤ)
    (out : Value κ) :
    switchCase (scalars (σ := σ) label long text) d (.scalar x) (.value e) test out =
      pure ((toLong long out).1.getD 1, out, (toLong long out).2) := by
  rw [switchCase_evaluated, hopen]
  rfl

/-- How a case has been compared in the code, given how it should be. -/
def Compares (quiet : Prop) (m : StateM σ (ℤ × Value κ × ℤ)) : Option (Bool × Option Bool) → Prop
  | some (b, last) => ∃ test out, m = pure (test, out, MDSplusSUCCESS) ∧ isOk test = b ∧
      Reads quiet last out
  | none => quiet → ∃ test out, m = pure (test, out, TdiNULL_PTR)

mutual

theorem switchCase_compares (d : ℕ) (v : CaseValue ε) (test : ℤ) (last : Option Bool)
    (out : Value κ) (htest : isOk test = false) (hreads : Reads quiet last out) :
    Compares quiet (switchCase (scalars (σ := σ) label long text) d (.scalar x) v test out)
      (compared label x v last) := by
  cases v with
  | comma list => exact cases_compares d list test last out htest hreads
  | value e =>
    unfold compared
    cases hopen : (label e).isOpen with
    | false =>
      rw [if_neg Bool.false_ne_true, switchCase_value d e hopen]
      exact ⟨_, _, rfl, isOk_test _, rfl⟩
    | true =>
      rw [if_pos rfl, switchCase_open d e ((isOpen_iff _).mp hopen)]
      cases last with
      | none =>
        intro hquiet
        rw [hreads hquiet]
        exact ⟨_, _, rfl⟩
      | some b =>
        obtain rfl : out = .logical b := hreads
        exact ⟨_, _, rfl, isOk_test b, rfl⟩

theorem cases_compares (d : ℕ) (list : List (CaseValue ε)) (test : ℤ) (last : Option Bool)
    (out : Value κ) (htest : isOk test = false) (hreads : Reads quiet last out) :
    Compares quiet (switchCase.cases (scalars (σ := σ) label long text) d (.scalar x) list
      (test, out, MDSplusSUCCESS)) (comparedAny label x list last) := by
  cases list with
  | nil =>
    rw [comparedAny, switchCase.cases]
    exact ⟨_, _, rfl, htest, hreads⟩
  | cons v rest =>
    have hv := switchCase_compares d v test last out htest hreads
    have hcases : switchCase.cases (scalars (σ := σ) label long text) d (.scalar x) (v :: rest)
        (test, out, MDSplusSUCCESS) =
          switchCase (scalars (σ := σ) label long text) d (.scalar x) v test out >>=
            switchCase.cases (scalars (σ := σ) label long text) d (.scalar x) rest := by
      rw [switchCase.cases, if_pos]
      simp only [htest]
      rfl
    rw [comparedAny, hcases]
    cases hcompared : compared label x v last with
    | none =>
      rw [hcompared] at hv
      intro hquiet
      obtain ⟨test', out', hm⟩ := hv hquiet
      refine ⟨test', out', ?_⟩
      rw [hm]
      cases rest <;> rfl
    | some t =>
      obtain ⟨b, last'⟩ := t
      rw [hcompared] at hv
      obtain ⟨test', out', hm, hb, hreads'⟩ := hv
      rw [hm, pure_bind]
      cases b with
      | false => exact cases_compares d rest test' last' out' hb hreads'
      | true =>
        refine ⟨test', out', ?_, hb, hreads'⟩
        cases rest with
        | nil => rfl
        | cons w rest =>
          rw [switchCase.cases, if_neg]
          simp only [hb, Bool.not_true, Bool.and_false, Bool.false_eq_true, not_false_eq_true]

end

end Compare

section Runs

/-- Successes, without the internal one. -/
def succeeds (status : ℤ) : Bool := isOk status && status ≠ SsINTERNAL

def told (status : ℤ) : ℤ := if succeeds status then MDSplusSUCCESS else status

/-- What a switch sees of statements: the state that they leave, how they fail, and the
label of a jump. -/
def observe (q : (Value κ × ℤ) × σ) : Option (Value κ) × ℤ × σ :=
  (if q.1.2 = TdiGOTO then some q.1.1 else none, told q.1.2, q.2)

def Same (m m' : StateM σ (Value κ × ℤ)) : Prop := ∀ st, observe (m st) = observe (m' st)

/-- Statements that end with a status of the language. -/
structure WellBehaved (evaluate : Stmt ε ν → StateM σ (Value κ × ℤ)) : Prop where
  not_case : ∀ s st, (evaluate s st).1.2 ≠ TdiCASE
  not_internal : ∀ s st, (evaluate s st).1.2 ≠ SsINTERNAL

/-- Statements that leave no result. -/
def Quiet (evaluate : Stmt ε ν → StateM σ (Value κ × ℤ)) : Prop :=
  ∀ s st, (evaluate s st).1.1 = .nothing

variable (evaluate : Stmt ε ν → StateM σ (Value κ × ℤ))

def executeFrom (p : Plan ε ν) (r : Value κ × ℤ) : StateM σ (Value κ × ℤ) := do
  let r ← evaluateAll evaluate p.run r
  pure (if isOk r.2 && p.fails then (.nothing, TdiNULL_PTR) else r)

def execute (p : Plan ε ν) : StateM σ (Value κ × ℤ) :=
  executeFrom evaluate p (.nothing, MDSplusSUCCESS)

variable {evaluate}

theorem isOk_of_succeeds {status : ℤ} (h : succeeds status) : isOk status := by
  unfold succeeds at h
  exact (Bool.and_eq_true_iff.mp h).1

theorem succeeds_of_isOk {status : ℤ} (h : isOk status) (hne : status ≠ SsINTERNAL) :
    succeeds status := by
  simp only [succeeds, h, hne, ne_eq, not_false_eq_true, decide_true, Bool.and_self]

theorem observe_ok {r r' : Value κ × ℤ} (hr : succeeds r.2) (hr' : succeeds r'.2) (st : σ) :
    observe (r, st) = observe (r', st) := by
  have hne {status : ℤ} (h : succeeds status) : status ≠ TdiGOTO := by
    rintro rfl
    exact absurd h (by decide)
  unfold observe told
  rw [if_neg (hne hr), if_neg (hne hr'), if_pos hr, if_pos hr']

theorem evaluateAll_append (list rest : List (Stmt ε ν)) (r : Value κ × ℤ) :
    evaluateAll evaluate (list ++ rest) r =
      evaluateAll evaluate list r >>= evaluateAll evaluate rest := by
  induction list generalizing r with
  | nil => rfl
  | cons s list ih =>
    rw [List.cons_append, evaluateAll, evaluateAll]
    by_cases hr : isOk r.2
    · rw [if_pos hr, if_pos hr, bind_assoc]
      exact bind_congr fun r => ih r
    · rw [if_neg hr, if_neg hr, pure_bind]
      cases rest with
      | nil => rfl
      | cons s rest => rw [evaluateAll, if_neg hr]

theorem evaluateAll_failed (list : List (Stmt ε ν)) {r : Value κ × ℤ} (hr : ¬ isOk r.2) :
    evaluateAll evaluate list r = pure r := by
  cases list with
  | nil => rfl
  | cons s rest => rw [evaluateAll, if_neg hr]

theorem evaluateAll_cons {r : Value κ × ℤ} (s : Stmt ε ν) (list : List (Stmt ε ν)) (hr : isOk r.2) :
    evaluateAll evaluate (s :: list) r = evaluate s >>= evaluateAll evaluate list := by
  rw [evaluateAll, if_pos hr]

theorem evaluateAll_quiet (hquiet : Quiet evaluate) (list : List (Stmt ε ν)) {r : Value κ × ℤ}
    (hr : r.1 = .nothing) (st : σ) : (evaluateAll evaluate list r st).1.1 = .nothing := by
  induction list generalizing r st with
  | nil => exact hr
  | cons s rest ih =>
    rw [evaluateAll]
    by_cases hok : isOk r.2
    · rw [if_pos hok]
      exact ih (hquiet s st) _
    · rw [if_neg hok]
      exact hr

theorem bind_apply {α β : Type} (m : StateM σ α) (k : α → StateM σ β) (st : σ) :
    (m >>= k) st = k (m st).1 (m st).2 := rfl

theorem observe_executeFrom (p : Plan ε ν) {r : Value κ × ℤ} (hr : succeeds r.2) (st : σ) :
    observe (executeFrom evaluate p r st) = observe (execute evaluate p st) := by
  obtain ⟨run, fails⟩ := p
  cases run with
  | nil =>
    change observe ((if isOk r.2 && fails then _ else r), st) = observe ((if _ then _ else _), st)
    rw [isOk_of_succeeds hr]
    cases fails with
    | true => rfl
    | false => exact observe_ok hr rfl st
  | cons s rest =>
    unfold execute executeFrom
    rw [evaluateAll_cons s rest (isOk_of_succeeds hr), evaluateAll_cons s rest rfl]

theorem executeFrom_failed (p : Plan ε ν) {r : Value κ × ℤ} (hr : ¬ isOk r.2) :
    executeFrom evaluate p r = pure r := by
  unfold executeFrom
  rw [evaluateAll_failed _ hr, pure_bind, if_neg]
  simp only [hr, Bool.false_and, Bool.false_eq_true, not_false_eq_true]

theorem execute_after (p : Plan ε ν) (s : Stmt ε ν) (rest : List (Stmt ε ν)) {r : Value κ × ℤ}
    (hr : isOk r.2) :
    execute evaluate (p.after (s :: rest)) =
      evaluateAll evaluate (s :: rest) r >>= executeFrom evaluate p := by
  unfold execute executeFrom Plan.after
  rw [evaluateAll_append, bind_assoc, evaluateAll_cons s rest hr, evaluateAll_cons s rest rfl]

theorem runMatch_failed (rest : List (Stmt ε ν)) {r : Scan ε ν (Value κ)} (hr : ¬ isOk r.status) :
    runMatch evaluate rest r = pure { r with jdefault := [] } := by
  unfold runMatch
  rw [if_neg (by simp only [hr, Bool.false_and, Bool.false_eq_true, not_false_eq_true]),
    evaluateAll_failed _ hr]
  rfl

theorem execute_meant (list : List (Stmt ε ν)) :
    execute evaluate ⟨list, false⟩ = evaluateAll evaluate list (.nothing, MDSplusSUCCESS) := by
  unfold execute executeFrom
  simp only [Bool.and_false, Bool.false_eq_true, if_false, bind_pure]

end Runs

section Continuations

variable [LinearOrder κ] (label : ε → Label κ) (long : Value κ → Option ℤ × ℤ)
  (text : Value κ → Except ℤ ν) (x : κ)
  (evaluate : Stmt ε ν → StateM σ (Value κ × ℤ)) (quiet : Prop)

/-- A continuation carries out the plan for some lists. -/
structure Implements (K : Scan ε ν (Value κ) → StateM σ (Value κ × ℤ)) (R : Stack ε ν) : Prop where
  ran : ∀ r, succeeds r.status → r.jdefault = [] → (quiet → r.out = .nothing) →
    ((plan label x .running R).fails → quiet) →
    Same (K r) (execute evaluate (plan label x .running R))
  searched : ∀ r last, r.status = TdiCASE → Reads quiet last r.out →
    ((plan label x (.searching last r.jdefault) R).fails → quiet) →
    Same (K r) (execute evaluate (plan label x (.searching last r.jdefault) R))
  failed : ∀ r, ¬ isOk r.status → r.status ≠ TdiCASE → Same (K r) (pure (r.out, r.status))

def searchOn (d : ℕ) (K : Scan ε ν (Value κ) → StateM σ (Value κ × ℤ)) (list : List (Stmt ε ν))
    (r : Scan ε ν (Value κ)) : StateM σ (Value κ × ℤ) :=
  scan (scalars label long text) evaluate d (.scalar x) list r >>= fun p =>
    runMatch evaluate p.1 p.2 >>= K

def Searches (d : ℕ) (list : List (Stmt ε ν)) : Prop :=
  ∀ R K, Implements label x evaluate quiet K R → ∀ r last, isOk r.status → isOk r.test = false →
    Reads quiet last r.out →
    ((plan label x (.searching last r.jdefault) (list :: R)).fails → quiet) →
    Same (searchOn label long text x evaluate d K list r)
      (execute evaluate (plan label x (.searching last r.jdefault) (list :: R)))

/-- What comes behind a block, in the list that it is in. -/
def resume (d : ℕ) (K : Scan ε ν (Value κ) → StateM σ (Value κ × ℤ)) (rest : List (Stmt ε ν))
    (test : ℤ) (r : Scan ε ν (Value κ)) : StateM σ (Value κ × ℤ) :=
  if isOk r.status then runMatch evaluate rest { r with test } >>= K
  else searchOn label long text x evaluate d K rest
    { r with test, status := if r.status = TdiCASE then MDSplusSUCCESS else r.status }

end Continuations

section Continue

variable [LinearOrder κ] {label : ε → Label κ} {long : Value κ → Option ℤ × ℤ}
  {text : Value κ → Except ℤ ν} {x : κ}
  {evaluate : Stmt ε ν → StateM σ (Value κ × ℤ)} {quiet : Prop}
  {K : Scan ε ν (Value κ) → StateM σ (Value κ × ℤ)} {R : Stack ε ν}

theorem Implements.runMatch_cons (hK : Implements label x evaluate quiet K R)
    (hev : WellBehaved evaluate) (hquiet : quiet → Quiet evaluate) (s : Stmt ε ν)
    (rest : List (Stmt ε ν)) (r : Scan ε ν (Value κ)) (hr : isOk r.status)
    (hfails : (plan label x .running R).fails → quiet) :
    Same (runMatch evaluate (s :: rest) r >>= K)
      (execute evaluate ((plan label x .running R).after (s :: rest))) := by
  intro st
  have hrun : runMatch evaluate (s :: rest) r >>= K =
      evaluateAll evaluate (s :: rest) (r.out, r.status) >>= fun q =>
        K { r with jdefault := [], out := q.1, status := q.2 } := by
    unfold runMatch
    rw [if_neg (by simp), bind_assoc]
    rfl
  rw [execute_after (r := (r.out, r.status)) _ s rest hr, hrun, bind_apply, bind_apply]
  have hne {code : ℤ} (h : ∀ s st, (evaluate s st).1.2 ≠ code) :
      (evaluateAll evaluate (s :: rest) (r.out, r.status) st).1.2 ≠ code := by
    rw [evaluateAll_cons s rest hr]
    exact evaluateAll_ne h rest (h s st) _
  have hout (h : quiet) : (evaluateAll evaluate (s :: rest) (r.out, r.status) st).1.1 = .nothing := by
    rw [evaluateAll_cons s rest hr]
    exact evaluateAll_quiet (hquiet h) rest (hquiet h s st) _
  by_cases hok : isOk (evaluateAll evaluate (s :: rest) (r.out, r.status) st).1.2
  · have hsucceeds := succeeds_of_isOk hok (hne hev.not_internal)
    rw [observe_executeFrom _ hsucceeds]
    exact hK.ran _ hsucceeds rfl hout hfails _
  · rw [executeFrom_failed _ hok]
    exact hK.failed _ hok (hne hev.not_case) _

theorem searchOn_failed (d : ℕ) (rest : List (Stmt ε ν)) {r : Scan ε ν (Value κ)}
    (hr : ¬ isOk r.status) :
    searchOn label long text x evaluate d K rest r = K { r with jdefault := [] } := by
  unfold searchOn
  cases rest with
  | nil =>
    rw [scan, pure_bind, runMatch_failed _ hr, pure_bind]
  | cons s rest =>
    rw [scan, if_neg hr, pure_bind, runMatch_failed _ hr, pure_bind]

theorem resume_implements (hK : Implements label x evaluate quiet K R)
    (hev : WellBehaved evaluate) (hquiet : quiet → Quiet evaluate) (d : ℕ)
    {rest : List (Stmt ε ν)} (hrest : Searches label long text x evaluate quiet d rest) {test : ℤ}
    (htest : isOk test = false) :
    Implements label x evaluate quiet (resume label long text x evaluate d K rest test)
      (rest :: R) where
  ran := by
    intro r hr hjdefault hout hfails
    unfold resume
    rw [if_pos (isOk_of_succeeds hr)]
    cases rest with
    | nil =>
      rw [plan] at hfails ⊢
      have hrun : runMatch evaluate [] { r with test } =
          pure { r with test, status := TdiCASE } := by
        unfold runMatch
        rw [if_pos (by simp only [isOk_of_succeeds hr, List.isEmpty_nil, Bool.and_self])]
      rw [hrun, pure_bind]
      rw [← hjdefault] at hfails ⊢
      exact hK.searched _ none rfl hout hfails
    | cons s rest =>
      rw [plan] at hfails ⊢
      exact hK.runMatch_cons hev hquiet s rest _ (isOk_of_succeeds hr) hfails
  searched := by
    intro r last hr hreads hfails
    unfold resume
    rw [if_neg (by rw [hr]; decide), if_pos hr]
    exact hrest R K hK _ last rfl htest hreads hfails
  failed := by
    intro r hr hcase
    unfold resume
    have hstop : searchOn label long text x evaluate d K rest { r with test } = _ :=
      searchOn_failed d rest hr
    rw [if_neg hr, if_neg hcase, hstop]
    exact hK.failed _ hr hcase

theorem searchOn_block (d : ℕ) (s : Stmt ε ν) (rest body : List (Stmt ε ν))
    (r r' : Scan ε ν (Value κ)) (hr : isOk r.status)
    (hs : scanStmt (scalars (σ := σ) label long text) evaluate d (.scalar x) (s :: rest) s r =
      scan (scalars label long text) evaluate d (.scalar x) body r'.inner >>= leaveBlock evaluate r') :
    searchOn label long text x evaluate d K (s :: rest) r =
      searchOn label long text x evaluate d (resume label long text x evaluate d K rest r'.test) body
        r'.inner := by
  unfold searchOn
  rw [scan, if_pos hr, hs, bind_assoc, bind_assoc]
  refine bind_congr fun p => ?_
  unfold leaveBlock
  rw [bind_assoc]
  refine bind_congr fun u => ?_
  unfold resume
  by_cases hok : isOk u.status
  · rw [if_pos hok, if_pos hok, pure_bind]
    rfl
  · rw [if_neg hok, if_neg hok]
    by_cases hcase : u.status = TdiCASE
    · rw [if_pos hcase, if_pos hcase, pure_bind]
      rfl
    · rw [if_neg hcase, if_neg hcase, pure_bind]
      rfl

theorem searchOn_leaf (d : ℕ) (s : Stmt ε ν) (rest : List (Stmt ε ν)) (r : Scan ε ν (Value κ))
    (hr : isOk r.status)
    (hs : scanStmt (scalars (σ := σ) label long text) evaluate d (.scalar x) (s :: rest) s r =
      pure (.on, r)) :
    searchOn label long text x evaluate d K (s :: rest) r =
      searchOn label long text x evaluate d K rest r := by
  unfold searchOn
  rw [scan, if_pos hr, hs, pure_bind]

theorem searches_case (hev : WellBehaved evaluate) (hquiet : quiet → Quiet evaluate) (d : ℕ)
    (v : CaseValue ε) {body rest : List (Stmt ε ν)}
    (hbody : Searches label long text x evaluate quiet d body)
    (hrest : Searches label long text x evaluate quiet d rest) :
    Searches label long text x evaluate quiet d (.case v body :: rest) := by
  intro R K hK r last hr htest hreads hfails
  have hv : Compares quiet (switchCase (scalars (σ := σ) label long text) d (.scalar x) v r.test r.out)
      (compared label x v last) := switchCase_compares d v r.test last r.out htest hreads
  rw [plan] at hfails ⊢
  cases hcompared : compared label x v last with
  | none =>
    rw [hcompared] at hfails hv
    obtain ⟨test, out, hm⟩ := hv (hfails rfl)
    have hs : scanStmt (scalars (σ := σ) label long text) evaluate d (.scalar x)
        (.case v body :: rest) (.case v body) r =
          pure (.on, { r with test, out, status := TdiNULL_PTR }) := by
      rw [scanStmt, hm]
      rfl
    have hstop : searchOn label long text x evaluate d K (.case v body :: rest) r =
        searchOn label long text x evaluate d K rest
          { r with test, out, status := TdiNULL_PTR } := by
      unfold searchOn
      rw [scan, if_pos hr, hs, pure_bind]
    have hnull : ¬ isOk TdiNULL_PTR := by decide
    rw [hstop, searchOn_failed d rest hnull]
    exact fun st => hK.failed _ hnull (show TdiNULL_PTR ≠ TdiCASE by decide) st
  | some t =>
    obtain ⟨b, last'⟩ := t
    rw [hcompared] at hfails hv
    obtain ⟨test, out, hm, hb, hreads'⟩ := hv
    cases b with
    | true =>
      have hhere : searchOn label long text x evaluate d K (.case v body :: rest) r =
          runMatch evaluate (.case v body :: rest)
            ⟨test, [], out, MDSplusSUCCESS⟩ >>= K := by
        unfold searchOn
        rw [scan, if_pos hr, scanStmt, hm, pure_bind]
        simp only [hb]
        rfl
      rw [hhere]
      exact hK.runMatch_cons hev hquiet _ rest _ rfl hfails
    | false =>
      rw [searchOn_block d _ rest body r ⟨test, r.jdefault, out, MDSplusSUCCESS⟩ hr]
      · exact hbody _ _ (resume_implements hK hev hquiet d hrest hb) _ last' rfl rfl hreads' hfails
      · rw [scanStmt, hm, pure_bind]
        simp only [hb]
        rfl

mutual

theorem searches_cons (hev : WellBehaved evaluate) (hquiet : quiet → Quiet evaluate) (d : ℕ)
    (s : Stmt ε ν) (rest : List (Stmt ε ν))
    (hrest : Searches label long text x evaluate quiet d rest) :
    Searches label long text x evaluate quiet d (s :: rest) := by
  intro R K hK r last hr htest hreads hfails
  cases s with
  | case v body =>
    exact searches_case hev hquiet d v (searches hev hquiet d body) hrest R K hK r last hr htest
      hreads hfails
  | default body =>
    have hbody := searches hev hquiet d body
    rw [searchOn_block d _ rest body r { r with jdefault := .default body :: rest } hr
      (by rw [scanStmt])]
    rw [plan] at hfails ⊢
    exact hbody _ _ (resume_implements hK hev hquiet d hrest htest) _ last rfl rfl hreads hfails
  | statement body =>
    have hbody := searches hev hquiet d body
    rw [searchOn_block d _ rest body r r hr (by rw [scanStmt])]
    rw [plan] at hfails ⊢
    exact hbody _ _ (resume_implements hK hev hquiet d hrest htest) _ last rfl rfl hreads hfails
  | expr _ | goto _ | label _ _ | ifElse _ _ _ | switch _ _ =>
    rw [searchOn_leaf d _ rest r hr (by rw [scanStmt])]
    rw [plan] at hfails ⊢
    exact hrest R K hK r last hr htest hreads hfails

theorem searches (hev : WellBehaved evaluate) (hquiet : quiet → Quiet evaluate) (d : ℕ)
    (list : List (Stmt ε ν)) : Searches label long text x evaluate quiet d list := by
  cases list with
  | cons s rest => exact searches_cons hev hquiet d s rest (searches hev hquiet d rest)
  | nil =>
    intro R K hK r last hr htest hreads hfails
    rw [plan] at hfails ⊢
    unfold searchOn runMatch
    rw [scan, pure_bind, if_pos (by simp only [hr, List.isEmpty_nil, Bool.and_self]), pure_bind]
    exact hK.searched _ last rfl hreads hfails

end

end Continue

section Finish

/-- Statements that only note that they are run. -/
def noting : Level ε ν (Value κ) (List (Stmt ε ν)) where
  evaluate s := do
    modify (· ++ [s])
    pure (.nothing, MDSplusSUCCESS)
  statement _ := pure (.nothing, MDSplusSUCCESS)
  intrinsic _ := pure (.nothing, MDSplusSUCCESS)

theorem evaluateAll_noting (list : List (Stmt ε ν)) {r : Value κ × ℤ} (hr : succeeds r.2)
    (st : List (Stmt ε ν)) :
    (evaluateAll noting.evaluate list r st).2 = st ++ list ∧
      succeeds (evaluateAll noting.evaluate list r st).1.2 := by
  induction list generalizing r st with
  | nil => exact ⟨(List.append_nil st).symm, hr⟩
  | cons s rest ih =>
    rw [evaluateAll_cons s rest (isOk_of_succeeds hr), bind_apply]
    have h := ih (r := (.nothing, MDSplusSUCCESS)) rfl (st ++ [s])
    rw [List.append_assoc] at h
    exact h

theorem noting_wellBehaved : WellBehaved (κ := κ) (noting (ε := ε) (ν := ν)).evaluate where
  not_case _ _ := show MDSplusSUCCESS ≠ TdiCASE by decide
  not_internal _ _ := show MDSplusSUCCESS ≠ SsINTERNAL by decide

variable [DecidableEq ν] (rounds : ℕ)

/-- What is done with the result of the statements: a break ends the switch, and jumps are
those of its list. -/
def finish (S : Exprs ε ν (Value κ) σ) (l : Level ε ν (Value κ) σ) (body : List (Stmt ε ν))
    (r : Value κ × ℤ) : StateM σ (Value κ × ℤ) :=
  if r.2 = TdiBREAK then pure (r.1, MDSplusSUCCESS) else handleGoto S rounds l body r

/-- How a computation ends and the state that it leaves. -/
def outcome (m : StateM σ (Value κ × ℤ)) (st : σ) : ℤ × σ := (told (m st).1.2, (m st).2)

theorem succeeds_told (status : ℤ) : succeeds (told status) = succeeds status := by
  unfold told
  cases h : succeeds status with
  | true => rfl
  | false => exact h

variable {rounds}

theorem finish_succeeds (S : Exprs ε ν (Value κ) σ) (l : Level ε ν (Value κ) σ)
    (body : List (Stmt ε ν)) {r : Value κ × ℤ} (hr : succeeds r.2) :
    finish rounds S l body r = pure r := by
  have hok := isOk_of_succeeds hr
  have hne {status : ℤ} (hstatus : succeeds status = false) : r.2 ≠ status := by
    intro h
    rw [← h, hr] at hstatus
    cases hstatus
  unfold finish handleGoto
  rw [if_neg (hne (by decide)), whileGoto_of_ne _ _ (hne (by decide)), pure_bind, notFound,
    if_neg (hne (by decide))]

theorem finish_failed (S : Exprs ε ν (Value κ) σ) (l : Level ε ν (Value κ) σ)
    (body : List (Stmt ε ν)) {r r' : Value κ × ℤ} (hr : r.2 = r'.2)
    (hout : r.2 = TdiGOTO → r.1 = r'.1) (st : σ) :
    outcome (finish rounds S l body r) st = outcome (finish rounds S l body r') st := by
  by_cases hgoto : r.2 = TdiGOTO
  · rw [show r = r' from Prod.ext (hout hgoto) hr]
  unfold finish handleGoto
  rw [whileGoto_of_ne _ _ hgoto, whileGoto_of_ne _ _ (hr ▸ hgoto), pure_bind, pure_bind, notFound,
    notFound, ← hr]
  by_cases hbreak : r.2 = TdiBREAK
  · rw [if_pos hbreak, if_pos hbreak]
    rfl
  · rw [if_neg hbreak, if_neg hbreak]
    change (told (if _ then _ else _ : Value κ × ℤ).2, st) = (told (if _ then _ else _ : Value κ × ℤ).2, st)
    by_cases hinternal : r.2 = SsINTERNAL
    · rw [if_pos hinternal, if_pos hinternal]
    · rw [if_neg hinternal, if_neg hinternal, hr]

theorem finish_congr (S : Exprs ε ν (Value κ) σ) (l : Level ε ν (Value κ) σ) (body : List (Stmt ε ν))
    {q q' : (Value κ × ℤ) × σ} (h : observe q = observe q') :
    outcome (finish rounds S l body q.1) q.2 = outcome (finish rounds S l body q'.1) q'.2 := by
  obtain ⟨r, st⟩ := q
  obtain ⟨r', st'⟩ := q'
  simp only [observe, Prod.mk.injEq] at h
  obtain ⟨hout, htold, rfl⟩ := h
  have hsucceeds : succeeds r.2 = succeeds r'.2 := by
    rw [← succeeds_told r.2, htold, succeeds_told]
  cases hr : succeeds r.2 with
  | true =>
    rw [finish_succeeds S l body hr, finish_succeeds S l body (hsucceeds ▸ hr)]
    exact congrArg (fun status => (status, st)) htold
  | false =>
    unfold told at htold
    rw [← hsucceeds, hr, if_neg Bool.false_ne_true, if_neg Bool.false_ne_true] at htold
    refine finish_failed S l body htold (fun hgoto => ?_) st
    rw [if_pos hgoto, if_pos (htold ▸ hgoto)] at hout
    exact Option.some.inj hout

theorem outcome_noting (S : Exprs ε ν (Value κ) (List (Stmt ε ν))) (body : List (Stmt ε ν))
    (p : Plan ε ν) :
    outcome (execute noting.evaluate p >>= finish rounds S noting body) [] =
      (if p.fails then TdiNULL_PTR else MDSplusSUCCESS, p.run) := by
  obtain ⟨hrun, hsucceeds⟩ :=
    evaluateAll_noting p.run (r := ((.nothing, MDSplusSUCCESS) : Value κ × ℤ)) rfl []
  rw [List.nil_append] at hrun
  have hexecute : execute (κ := κ) noting.evaluate p [] = (if p.fails then (.nothing, TdiNULL_PTR) else
      (evaluateAll noting.evaluate p.run (.nothing, MDSplusSUCCESS) []).1, p.run) := by
    unfold execute executeFrom
    rw [bind_apply, isOk_of_succeeds hsucceeds, Bool.true_and, hrun]
    rfl
  unfold outcome
  rw [bind_apply, hexecute]
  cases hfails : p.fails with
  | false =>
    rw [if_neg Bool.false_ne_true, if_neg Bool.false_ne_true, finish_succeeds S noting body hsucceeds]
    exact congrArg (fun status => (status, p.run)) (if_pos hsucceeds)
  | true =>
    unfold finish handleGoto
    rw [if_pos rfl, if_pos rfl, if_neg (show TdiNULL_PTR ≠ TdiBREAK by decide),
      whileGoto_of_ne _ _ (show TdiNULL_PTR ≠ TdiGOTO by decide), pure_bind]
    rfl

end Finish

section Switch

variable [LinearOrder κ] [DecidableEq ν] (label : ε → Label κ) (long : Value κ → Option ℤ × ℤ)
  (text : Value κ → Except ℤ ν) (rounds : ℕ)

def meantSwitch (S : Exprs ε ν (Value κ) σ) (l : Level ε ν (Value κ) σ) (x : κ)
    (body : List (Stmt ε ν)) : StateM σ (Value κ × ℤ) :=
  evaluateAll l.evaluate (meant label x body) (.nothing, MDSplusSUCCESS) >>= finish rounds S l body

/-- The code runs the statements that it should, whatever they do. -/
def RunsAsMeant (d : ℕ) (x : κ) (test : ε) (body : List (Stmt ε ν)) : Prop :=
  ∀ (σ : Type) (l : Level ε ν (Value κ) σ), WellBehaved l.evaluate → ∀ st,
    outcome (tdi1Switch (scalars label long text) rounds d l test body) st =
      outcome (meantSwitch label rounds (scalars label long text) l x body) st

end Switch

section SwitchCode

variable [LinearOrder κ] {label : ε → Label κ} {long : Value κ → Option ℤ × ℤ}
  {text : Value κ → Except ℤ ν} {x : κ}
  {quiet : Prop} {evaluate : Stmt ε ν → StateM σ (Value κ × ℤ)}

theorem runDefault_implements (label : ε → Label κ) (x : κ) :
    Implements label x evaluate quiet (runDefault evaluate) [] where
  ran := by
    intro r hr _ _ _ st
    have hcase : r.status ≠ TdiCASE := by
      intro h
      rw [h] at hr
      exact absurd hr (by decide)
    unfold runDefault
    rw [if_neg hcase, plan]
    exact observe_ok (r := (r.out, r.status)) hr rfl st
  searched := by
    intro r last hr _ _ st
    unfold runDefault
    rw [if_pos hr, plan, ← observe_executeFrom (r := (r.out, MDSplusSUCCESS)) _ rfl]
    unfold executeFrom
    simp only [Bool.and_false, Bool.false_eq_true, if_false, bind_pure]
  failed := by
    intro r _ hcase st
    unfold runDefault
    rw [if_neg hcase]

theorem switchBody_same (quiet : Prop) (hev : WellBehaved evaluate)
    (hquiet : quiet → Quiet evaluate) (d : ℕ)
    {test : ε} (htest : label test = .scalar x) {body : List (Stmt ε ν)}
    (hfails : (plan label x (.searching none []) [body]).fails → quiet) :
    Same (switchBody (scalars label long text) evaluate d test body)
      (execute evaluate (plan label x (.searching none []) [body])) := by
  have hbody : switchBody (scalars label long text) evaluate d test body =
      searchOn label long text x evaluate d (runDefault evaluate) body
        ⟨0, [], .nothing, MDSplusSUCCESS⟩ := by
    unfold switchBody searchOn switch1
    rw [show (scalars (σ := σ) label long text).evaluate d test =
      pure (.scalar x, MDSplusSUCCESS) from congrArg (fun v => pure (Label.value v, _)) htest]
    rw [pure_bind]
    refine (if_pos (show isOk MDSplusSUCCESS = true by decide)).trans ?_
    rw [bind_assoc]
    rfl
  rw [hbody]
  exact searches hev hquiet d body [] _ (runDefault_implements label x) _ none rfl rfl (fun _ => rfl)
    hfails

variable [DecidableEq ν] {rounds : ℕ}

/-- The code of a switch on a scalar runs the statements that it should exactly for these
switches. -/
theorem runsAsMeant_iff (d : ℕ) {test : ε} (htest : label test = .scalar x)
    (body : List (Stmt ε ν)) :
    RunsAsMeant label long text rounds d x test body ↔ Right label x body := by
  rw [← plan_iff]
  constructor
  · intro h
    have hbehaved := noting_wellBehaved (ε := ε) (ν := ν) (κ := κ)
    have hsame : Same (switchBody (scalars label long text) noting.evaluate d test body) _ :=
      switchBody_same True hbehaved (fun _ _ _ => rfl) d htest fun _ => trivial
    have hcode : outcome (tdi1Switch (scalars label long text) rounds d noting test body) [] =
        outcome (execute noting.evaluate (plan label x (.searching none []) [body]) >>=
          finish rounds (scalars label long text) noting body) [] :=
      finish_congr _ noting body (hsame [])
    have hmeant : outcome (meantSwitch label rounds (scalars label long text) noting x body) [] =
        outcome (execute noting.evaluate ⟨meant label x body, false⟩ >>=
          finish rounds (scalars label long text) noting body) [] := by
      rw [execute_meant]
      rfl
    have hnoting := h _ noting hbehaved []
    rw [hcode, hmeant, outcome_noting, outcome_noting] at hnoting
    obtain ⟨hfails, hrun⟩ := Prod.mk.inj hnoting
    refine Plan.eq_iff.mpr ⟨hrun, ?_⟩
    cases hp : (plan label x (.searching none []) [body]).fails with
    | false => rfl
    | true =>
      rw [hp] at hfails
      exact absurd hfails (show TdiNULL_PTR ≠ MDSplusSUCCESS by decide)
  · intro hplan σ l hev st
    have hsame : Same (switchBody (scalars label long text) l.evaluate d test body) _ :=
      switchBody_same False hev False.elim d htest (by rw [hplan]; exact Bool.false_ne_true)
    rw [hplan, execute_meant] at hsame
    exact finish_congr _ l body (hsame st)

end SwitchCode

section Bodies

def value (k : ℤ) : CaseValue (Label ℤ) := .value (.scalar k)

def marked (k : ℤ) : Stmt (Label ℤ) ℕ := .expr (.scalar k)

/-- A switch as it is written most of the time. -/
theorem runsAsMeant_plain :
    RunsAsMeant (ν := ℕ) id (fun _ => (none, TdiNULL_PTR)) (fun _ => .error TdiNULL_PTR) 1 0 2
      (.scalar 2) [.case (value 1) [marked 1, .case (value 2) [marked 2], .default [marked 3]]] := by
  have htest : id (Label.scalar (2 : ℤ)) = .scalar 2 := rfl
  refine (runsAsMeant_iff 0 htest _).mpr ?_
  simp [Right, fromMatch, MatchRight, FallsThrough, value, marked, isMatch, compared, Label.matches,
    Label.isOpen]

/-- The fourth case ends the third, which ends the second: the statement behind the second
is not run. -/
theorem runsAsMeant_nested :
    ¬ RunsAsMeant (ν := ℕ) id (fun _ => (none, TdiNULL_PTR)) (fun _ => .error TdiNULL_PTR) 1 0 4
      (.scalar 4) [.case (value 1) [marked 1, .case (value 2) [marked 2, .case (value 3) [marked 3,
        .case (value 4) [marked 4]]], marked 5]] := by
  intro h
  have hnoting := h _ noting noting_wellBehaved []
  have hmeant : meant id (4 : ℤ) [.case (value 1) [marked 1, .case (value 2) [marked 2,
      .case (value 3) [marked 3, .case (value 4) [marked 4]]], marked 5]] =
        [.case (value 4) [marked 4], marked 5] := by
    simp [meant, fromMatch, value, marked, isMatch, Label.matches]
  unfold meantSwitch at hnoting
  rw [hmeant] at hnoting
  have hlength := congrArg (fun q => q.2.length) hnoting
  exact absurd hlength (by decide +kernel)

end Bodies

end MdsPlus.SwitchRuns
