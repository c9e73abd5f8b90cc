import MdsPlus.Statements
import Mathlib.Data.Bool.AllAny
import Mathlib.Order.Lattice

/-!
The statements that a SWITCH over a scalar runs when all of them succeed. The search works
on the lists it has entered and not yet left, the innermost first. The code goes back to
searching when it has run a block that is the last of its list; it should go on running.
-/

namespace MdsPlus.SwitchPlan

open Statements

variable {ε ν κ : Type} [LinearOrder κ]

/-- A value of a case: a scalar, or a range that may have an end missing. -/
inductive Label (κ : Type)
  | scalar (k : κ)
  | range (first last : Option κ)

def Label.isOpen : Label κ → Bool
  | .range none none => true
  | _ => false

def Label.matches (x : κ) : Label κ → Bool
  | .scalar k => x = k
  | .range first last => first.all (· ≤ x) && last.all (x ≤ ·)

section Cases

variable (label : ε → Label κ) (x : κ)

mutual

def isMatch : CaseValue ε → Bool
  | .value e => (label e).matches x
  | .comma list => anyMatch list

def anyMatch : List (CaseValue ε) → Bool
  | [] => false
  | v :: rest => isMatch v || anyMatch rest

end

mutual

/-- How the code compares, given the last comparison: whether the case matches, and the
last comparison then; `none` when there is none to read. -/
def compared : CaseValue ε → Option Bool → Option (Bool × Option Bool)
  | .value e, last =>
      if (label e).isOpen then last.map fun b => (b, some b)
      else some ((label e).matches x, some ((label e).matches x))
  | .comma list, last => comparedAny list last

def comparedAny : List (CaseValue ε) → Option Bool → Option (Bool × Option Bool)
  | [], last => some (false, last)
  | v :: rest, last =>
      match compared v last with
      | some (false, last) => comparedAny rest last
      | other => other

end

end Cases

section Stack

mutual

def size : Stmt ε ν → ℕ
  | .label _ body | .case _ body | .default body | .statement body => 1 + sizes body
  | .expr _ | .goto _ | .ifElse .. | .switch .. => 1

def sizes : List (Stmt ε ν) → ℕ
  | [] => 0
  | s :: rest => size s + sizes rest

end

/-- The lists that a search has entered: what is left of each, the innermost first. -/
abbrev Stack (ε ν : Type) := List (List (Stmt ε ν))

theorem sizes_append (list rest : List (Stmt ε ν)) :
    sizes (list ++ rest) = sizes list + sizes rest := by
  induction list with
  | nil => simp [sizes]
  | cons s list ih => simp only [List.cons_append, sizes, ih]; omega

/-- Searching and entering make this smaller. -/
def weight : Stack ε ν → ℕ
  | [] => 0
  | list :: R => 1 + 2 * sizes list + weight R

end Stack

section Plan

variable (label : ε → Label κ) (x : κ)

/-- Statements to be run, and whether the search fails after them. -/
structure Plan (ε ν : Type) where
  run : List (Stmt ε ν)
  fails : Bool

def Plan.after (list : List (Stmt ε ν)) (p : Plan ε ν) : Plan ε ν := ⟨list ++ p.run, p.fails⟩

/-- The code is running the rest of the lists, or it is searching, with the last comparison
and the statements of the last default. -/
inductive Mode (ε ν : Type)
  | running
  | searching (last : Option Bool) (jdefault : List (Stmt ε ν))

def plan : Mode ε ν → Stack ε ν → Plan ε ν
  | .running, [] => ⟨[], false⟩
  | .running, [] :: R => plan (.searching none []) R
  | .running, (s :: rest) :: R => (plan .running R).after (s :: rest)
  | .searching _ jdefault, [] => ⟨jdefault, false⟩
  | .searching last jdefault, [] :: R => plan (.searching last jdefault) R
  | .searching last jdefault, (.case v body :: rest) :: R =>
      match compared label x v last with
      | none => ⟨[], true⟩
      | some (true, _) => (plan .running R).after (.case v body :: rest)
      | some (false, last) => plan (.searching last jdefault) (body :: rest :: R)
  | .searching last _, (.default body :: rest) :: R =>
      plan (.searching last (.default body :: rest)) (body :: rest :: R)
  | .searching last jdefault, (.statement body :: rest) :: R =>
      plan (.searching last jdefault) (body :: rest :: R)
  | .searching last jdefault, (.expr _ :: rest) :: R
  | .searching last jdefault, (.goto _ :: rest) :: R
  | .searching last jdefault, (.label _ _ :: rest) :: R
  | .searching last jdefault, (.ifElse _ _ _ :: rest) :: R
  | .searching last jdefault, (.switch _ _ :: rest) :: R =>
      plan (.searching last jdefault) (rest :: R)
termination_by _ R => weight R
decreasing_by
  all_goals simp only [weight, sizes, size]; omega

def fromMatch : Stack ε ν → Option (List (Stmt ε ν))
  | [] => none
  | [] :: R => fromMatch R
  | (.case v body :: rest) :: R =>
      if isMatch label x v then some (.case v body :: rest ++ R.flatten)
      else fromMatch (body :: rest :: R)
  | (.default body :: rest) :: R => fromMatch (body :: rest :: R)
  | (.statement body :: rest) :: R => fromMatch (body :: rest :: R)
  | (.expr _ :: rest) :: R | (.goto _ :: rest) :: R | (.label _ _ :: rest) :: R
  | (.ifElse _ _ _ :: rest) :: R | (.switch _ _ :: rest) :: R => fromMatch (rest :: R)
termination_by R => weight R
decreasing_by
  all_goals simp only [weight, sizes, size]; omega

def fromDefault : Stack ε ν → Option (List (Stmt ε ν))
  | [] => none
  | [] :: R => fromDefault R
  | (.default body :: rest) :: R =>
      some ((fromDefault (body :: rest :: R)).getD (.default body :: rest ++ R.flatten))
  | (.case _ body :: rest) :: R => fromDefault (body :: rest :: R)
  | (.statement body :: rest) :: R => fromDefault (body :: rest :: R)
  | (.expr _ :: rest) :: R | (.goto _ :: rest) :: R | (.label _ _ :: rest) :: R
  | (.ifElse _ _ _ :: rest) :: R | (.switch _ _ :: rest) :: R => fromDefault (rest :: R)
termination_by R => weight R
decreasing_by
  all_goals simp only [weight, sizes, size]; omega

def meant (body : List (Stmt ε ν)) : List (Stmt ε ν) :=
  (fromMatch label x [body]).getD ((fromDefault [body]).getD [])

def DefaultRight : Option Bool → Stack ε ν → Prop
  | _, [] => True
  | last, [] :: R => DefaultRight last R
  | last, (.case v body :: rest) :: R =>
      match compared label x v last with
      | some (false, last) => DefaultRight last (body :: rest :: R)
      | _ => False
  | last, (.default body :: rest) :: R =>
      (fromDefault (body :: rest :: R) = none → R.flatten = []) ∧
        DefaultRight last (body :: rest :: R)
  | last, (.statement body :: rest) :: R => DefaultRight last (body :: rest :: R)
  | last, (.expr _ :: rest) :: R | last, (.goto _ :: rest) :: R | last, (.label _ _ :: rest) :: R
  | last, (.ifElse _ _ _ :: rest) :: R | last, (.switch _ _ :: rest) :: R =>
      DefaultRight last (rest :: R)
termination_by _ R => weight R
decreasing_by
  all_goals simp only [weight, sizes, size]; omega

/-- The lists are run to their ends. Behind a list of which nothing is left the code searches
again, and has to hit on the first statement there is. -/
def FallsThrough : Bool → Stack ε ν → Prop
  | _, [] => True
  | _, [] :: R => FallsThrough true R
  | false, (_ :: _) :: R => FallsThrough false R
  | true, (.case v _ :: _) :: R =>
      (∃ last, compared label x v none = some (true, last)) ∧ FallsThrough false R
  | true, (.default body :: rest) :: R =>
      R.flatten = [] ∧ fromDefault (body :: rest :: R) = none ∧
        DefaultRight label x none (body :: rest :: R)
  | true, _ :: _ => False

/-- The cases are compared rightly up to the first match, and the lists around it are run to
their ends. -/
def MatchRight : Option Bool → Stack ε ν → Prop
  | _, [] => False
  | last, [] :: R => MatchRight last R
  | last, (.case v body :: rest) :: R =>
      match compared label x v last, isMatch label x v with
      | some (true, _), true => FallsThrough label x false R
      | some (false, last), false => MatchRight last (body :: rest :: R)
      | _, _ => False
  | last, (.default body :: rest) :: R => MatchRight last (body :: rest :: R)
  | last, (.statement body :: rest) :: R => MatchRight last (body :: rest :: R)
  | last, (.expr _ :: rest) :: R | last, (.goto _ :: rest) :: R | last, (.label _ _ :: rest) :: R
  | last, (.ifElse _ _ _ :: rest) :: R | last, (.switch _ _ :: rest) :: R =>
      MatchRight last (rest :: R)
termination_by _ R => weight R
decreasing_by
  all_goals simp only [weight, sizes, size]; omega

/-- The switches that the code runs rightly. -/
def Right (body : List (Stmt ε ν)) : Prop :=
  if (fromMatch label x [body]).isSome then MatchRight label x none [body]
  else DefaultRight label x none [body]

end Plan

section Sizes

variable {label : ε → Label κ} {x : κ}

theorem sizes_flatten_cons (s : Stmt ε ν) (rest : List (Stmt ε ν)) (R : Stack ε ν) :
    sizes (List.flatten ((s :: rest) :: R)) = size s + sizes rest + sizes R.flatten := by
  simp only [List.flatten_cons, List.cons_append, sizes, sizes_append]
  omega

theorem sizes_flatten_enter (body rest : List (Stmt ε ν)) (R : Stack ε ν) :
    sizes (List.flatten (body :: rest :: R)) = sizes body + sizes rest + sizes R.flatten := by
  simp only [List.flatten_cons, sizes_append]
  omega

/-- What is run is found in the lists, or is the default of before. -/
def Mode.Within (R : Stack ε ν) (p : Plan ε ν) : Mode ε ν → Prop
  | .running => sizes p.run ≤ sizes R.flatten
  | .searching _ jdefault => p.run = jdefault ∨ sizes p.run ≤ sizes R.flatten

theorem Mode.Within.mono {m : Mode ε ν} {R R' : Stack ε ν} {p : Plan ε ν} (h : m.Within R p)
    (hR : sizes R.flatten ≤ sizes R'.flatten) : m.Within R' p := by
  cases m with
  | running => exact Nat.le_trans h hR
  | searching last jdefault => exact h.imp_right fun h => Nat.le_trans h hR

theorem Mode.Within.after {s : Stmt ε ν} {rest : List (Stmt ε ν)} {R : Stack ε ν} {p : Plan ε ν}
    (h : Mode.running.Within R p) : Mode.running.Within ((s :: rest) :: R) (p.after (s :: rest)) := by
  change sizes (s :: rest ++ p.run) ≤ _
  have h : sizes p.run ≤ sizes R.flatten := h
  rw [sizes_append, sizes_flatten_cons, sizes]
  omega

theorem plan_within (m : Mode ε ν) (R : Stack ε ν) : m.Within R (plan label x m R) := by
  fun_induction plan label x m R with
  | case1 => exact Nat.le_refl _
  | case2 R ih =>
    obtain h | h := ih
    · change sizes (plan label x _ R).run ≤ _
      rw [h]
      exact Nat.zero_le _
    · exact h
  | case3 s rest R ih => exact Mode.Within.after ih
  | case4 last jdefault => exact .inl rfl
  | case5 last jdefault R ih => exact ih
  | case6 last jdefault v body rest R h => exact .inr (Nat.zero_le _)
  | case7 last jdefault v body rest R last' h ih => exact .inr (Mode.Within.after ih)
  | case8 last jdefault v body rest R last' h ih =>
    refine ih.mono ?_
    rw [sizes_flatten_cons, sizes_flatten_enter, size]
    omega
  | case9 last jdefault body rest R ih =>
    right
    rw [sizes_flatten_cons, size]
    obtain h | h := ih
    · rw [h, sizes, size]
      omega
    · rw [sizes_flatten_enter] at h
      omega
  | case10 last jdefault body rest R ih =>
    refine ih.mono ?_
    rw [sizes_flatten_cons, sizes_flatten_enter, size]
    omega
  | case11 | case12 | case13 | case14 | case15 =>
    rename_i ih
    refine ih.mono ?_
    rw [sizes_flatten_cons, List.flatten_cons, sizes_append]
    omega

end Sizes

section Heads

variable {label : ε → Label κ} {x : κ}

theorem fromMatch_head (R : Stack ε ν) {list : List (Stmt ε ν)}
    (h : fromMatch label x R = some list) :
    ∃ v body rest, list = .case v body :: rest ∧ isMatch label x v = true := by
  fun_induction fromMatch label x R with
  | case1 => cases h
  | case3 v body rest R hv =>
    cases h
    exact ⟨v, body, _, rfl, hv⟩
  | case2 _ ih | case4 _ _ _ _ _ ih | case5 _ _ _ ih | case6 _ _ _ ih | case7 _ _ _ ih
  | case8 _ _ _ ih | case9 _ _ _ _ ih | case10 _ _ _ _ _ ih | case11 _ _ _ _ ih => exact ih h

theorem fromDefault_head (R : Stack ε ν) {list : List (Stmt ε ν)}
    (h : fromDefault R = some list) : ∃ body rest, list = .default body :: rest := by
  fun_induction fromDefault R generalizing list with
  | case1 => cases h
  | case3 body rest R ih =>
    cases h
    cases hin : fromDefault (body :: rest :: R) with
    | none => exact ⟨body, _, rfl⟩
    | some list => exact ih hin
  | case2 _ ih | case4 _ _ _ _ ih | case5 _ _ _ ih | case6 _ _ _ ih | case7 _ _ _ ih
  | case8 _ _ _ _ ih | case9 _ _ _ _ _ ih | case10 _ _ _ _ ih => exact ih h

/-- Statements to be kept for a default do not begin with a case. -/
def NoCase (jdefault : List (Stmt ε ν)) : Prop := ∀ v body rest, jdefault ≠ .case v body :: rest

end Heads

section Right

variable {label : ε → Label κ} {x : κ}

theorem Plan.eq_iff {p : Plan ε ν} {list : List (Stmt ε ν)} :
    p = ⟨list, false⟩ ↔ p.run = list ∧ p.fails = false := by
  cases p
  simp only [Plan.mk.injEq]

theorem Plan.after_eq_iff {p : Plan ε ν} {list rest : List (Stmt ε ν)} :
    p.after list = ⟨list ++ rest, false⟩ ↔ p = ⟨rest, false⟩ := by
  rw [Plan.eq_iff, Plan.eq_iff]
  exact and_congr_left' (List.append_right_inj list)

theorem Plan.after_ne {v : CaseValue ε} {body rest list : List (Stmt ε ν)} (p : Plan ε ν)
    (h : NoCase list) : p.after (.case v body :: rest) ≠ ⟨list, false⟩ :=
  fun heq => h v body _ (Plan.eq_iff.mp heq).1.symm

theorem plan_ne_of_lt {last : Option Bool} {jdefault list : List (Stmt ε ν)} {R : Stack ε ν}
    (hne : jdefault ≠ list) (hlist : sizes R.flatten < sizes list) :
    plan label x (.searching last jdefault) R ≠ ⟨list, false⟩ := by
  intro heq
  have hrun := (Plan.eq_iff.mp heq).1
  have hwithin : Mode.Within R (plan label x (.searching last jdefault) R) _ := plan_within _ R
  obtain h | h := hwithin
  · exact hne (h.symm.trans hrun)
  · rw [hrun] at h
    omega

theorem plan_quiet_iff (last : Option Bool) (R : Stack ε ν) {jdefault : List (Stmt ε ν)}
    (hsize : sizes R.flatten < sizes jdefault) :
    plan label x (.searching last jdefault) R = ⟨jdefault, false⟩ ↔
      fromDefault R = none ∧ DefaultRight label x last R := by
  fun_induction DefaultRight label x last R generalizing jdefault with
  | case1 last => simp only [plan, fromDefault, and_self]
  | case2 last R ih =>
    rw [plan, fromDefault]
    exact ih hsize
  | case3 last v body rest R last' hcompared ih =>
    rw [sizes_flatten_cons, size] at hsize
    rw [plan, hcompared, fromDefault]
    exact ih (by rw [sizes_flatten_enter]; omega)
  | case4 last v body rest R hne =>
    rw [and_false, iff_false, plan]
    split
    · simp only [Plan.mk.injEq, Bool.true_eq_false, and_false, not_false_eq_true]
    · intro heq
      have hwithin : Mode.running.Within R (plan label x .running R) := plan_within _ R
      have hrun : sizes ((plan label x .running R).after (.case v body :: rest)).run ≤ _ :=
        hwithin.after
      rw [(Plan.eq_iff.mp heq).1] at hrun
      omega
    · rename_i last' hlast'
      exact absurd hlast' (hne last')
  | case5 last body rest R ih =>
    rw [sizes_flatten_cons, size] at hsize
    rw [plan, fromDefault]
    refine iff_of_false ?_ fun h => by cases h.1
    refine plan_ne_of_lt (fun h => ?_) (by rw [sizes_flatten_enter]; omega)
    rw [← h, sizes, size] at hsize
    omega
  | case6 last body rest R ih =>
    rw [sizes_flatten_cons, size] at hsize
    rw [plan, fromDefault]
    exact ih (by rw [sizes_flatten_enter]; omega)
  | case7 | case8 | case9 | case10 | case11 =>
    rename_i ih
    rw [sizes_flatten_cons] at hsize
    rw [plan, fromDefault]
    exact ih (by rw [List.flatten_cons, sizes_append]; omega)

theorem plan_default_iff (last : Option Bool) (R : Stack ε ν) {jdefault : List (Stmt ε ν)}
    (hjdefault : NoCase jdefault) :
    plan label x (.searching last jdefault) R = ⟨(fromDefault R).getD jdefault, false⟩ ↔
      DefaultRight label x last R := by
  fun_induction DefaultRight label x last R generalizing jdefault with
  | case1 last => simp only [plan, fromDefault, Option.getD_none]
  | case2 last R ih =>
    rw [plan, fromDefault]
    exact ih hjdefault
  | case3 last v body rest R last' hcompared ih =>
    rw [plan, hcompared, fromDefault]
    exact ih hjdefault
  | case4 last v body rest R hne =>
    rw [iff_false, plan, fromDefault]
    split
    · simp only [Plan.mk.injEq, Bool.true_eq_false, and_false, not_false_eq_true]
    · refine Plan.after_ne _ fun v' body' rest' heq => ?_
      cases hin : fromDefault (body :: rest :: R) with
      | none =>
        rw [hin] at heq
        exact hjdefault _ _ _ heq
      | some list =>
        obtain ⟨body'', rest'', rfl⟩ := fromDefault_head _ hin
        rw [hin, Option.getD_some] at heq
        cases heq
    · rename_i last' hlast'
      exact absurd hlast' (hne last')
  | case5 last body rest R ih =>
    have hdefault : NoCase (.default body :: rest) := fun _ _ _ h => by cases h
    rw [plan, fromDefault, Option.getD_some]
    cases hin : fromDefault (body :: rest :: R) with
    | some list =>
      rw [hin] at ih
      simp only [reduceCtorEq, false_implies, true_and, Option.getD_some]
      exact ih hdefault
    | none =>
      simp only [true_implies, Option.getD_none]
      have hsize : sizes (body :: rest :: R).flatten < sizes (.default body :: rest ++ R.flatten) := by
        rw [sizes_flatten_enter, sizes_append, sizes, size]
        omega
      by_cases hR : R.flatten = []
      · rw [hR, List.append_nil] at hsize ⊢
        rw [plan_quiet_iff last _ hsize, hin]
        simp only [true_and]
      · refine iff_of_false (plan_ne_of_lt (fun h => ?_) hsize) fun h => hR h.1
        exact hR (List.self_eq_append_right.mp h)
  | case6 last body rest R ih =>
    rw [plan, fromDefault]
    exact ih hjdefault
  | case7 | case8 | case9 | case10 | case11 =>
    rename_i ih
    rw [plan, fromDefault]
    exact ih hjdefault

theorem plan_resumed_iff (s : Stmt ε ν) (rest : List (Stmt ε ν)) (R : Stack ε ν)
    (ih : plan label x .running R = ⟨R.flatten, false⟩ ↔ FallsThrough label x false R) :
    plan label x (.searching none []) ((s :: rest) :: R) =
      ⟨List.flatten ((s :: rest) :: R), false⟩ ↔ FallsThrough label x true ((s :: rest) :: R) := by
  have hsmall {last : Option Bool} {list : Stack ε ν}
      (hlist : sizes list.flatten < sizes (List.flatten ((s :: rest) :: R))) :
      plan label x (.searching last []) list ≠ ⟨List.flatten ((s :: rest) :: R), false⟩ :=
    plan_ne_of_lt (by simp only [List.flatten_cons, List.cons_append, ne_eq, reduceCtorEq,
      not_false_eq_true]) hlist
  rw [sizes_flatten_cons] at hsmall
  cases s with
  | case v body =>
    rw [plan, FallsThrough]
    split
    · rename_i hcompared
      simp only [Plan.mk.injEq, Bool.true_eq_false, and_false, hcompared, reduceCtorEq,
        exists_const, false_and]
    · rename_i last' hcompared
      rw [List.flatten_cons, Plan.after_eq_iff, ih, hcompared]
      simp only [Option.some.injEq, Prod.mk.injEq, true_and, exists_eq']
    · rename_i last' hcompared
      refine iff_of_false ?_ fun h => ?_
      · refine hsmall ?_
        rw [sizes_flatten_enter, size]
        omega
      · obtain ⟨⟨last, h⟩, -⟩ := h
        cases hcompared.symm.trans h
  | default body =>
    have hsize : sizes (body :: rest :: R).flatten < sizes (.default body :: rest ++ R.flatten) := by
      rw [sizes_flatten_enter, sizes_append, sizes, size]
      omega
    rw [plan, FallsThrough, List.flatten_cons]
    by_cases hR : R.flatten = []
    · rw [hR, List.append_nil] at hsize ⊢
      rw [plan_quiet_iff none _ hsize]
      simp only [true_and]
    · refine iff_of_false (plan_ne_of_lt (fun h => ?_) hsize) fun h => hR h.1
      exact hR (List.self_eq_append_right.mp h)
  | statement body =>
    rw [plan]
    refine iff_of_false (hsmall ?_) id
    rw [sizes_flatten_enter, size]
    omega
  | expr _ | goto _ | label _ _ | ifElse _ _ _ | switch _ _ =>
    rw [plan]
    refine iff_of_false (hsmall ?_) id
    rw [List.flatten_cons, sizes_append, size]
    omega

theorem plan_running_iff (R : Stack ε ν) :
    (plan label x .running R = ⟨R.flatten, false⟩ ↔ FallsThrough label x false R) ∧
      (plan label x (.searching none []) R = ⟨R.flatten, false⟩ ↔ FallsThrough label x true R) := by
  induction R with
  | nil => simp only [plan, FallsThrough, List.flatten_nil, and_self]
  | cons list R ih =>
    cases list with
    | nil =>
      simp only [plan, FallsThrough, List.flatten_cons, List.nil_append]
      exact ⟨ih.2, ih.2⟩
    | cons s rest =>
      refine ⟨?_, plan_resumed_iff s rest R ih.1⟩
      rw [plan, FallsThrough, List.flatten_cons, Plan.after_eq_iff]
      exact ih.1

theorem plan_match_iff (last : Option Bool) (R : Stack ε ν) {jdefault list : List (Stmt ε ν)}
    (hjdefault : NoCase jdefault) (hlist : fromMatch label x R = some list) :
    plan label x (.searching last jdefault) R = ⟨list, false⟩ ↔ MatchRight label x last R := by
  fun_induction MatchRight label x last R generalizing jdefault with
  | case1 last =>
    rw [fromMatch] at hlist
    cases hlist
  | case2 last R ih =>
    rw [fromMatch] at hlist
    rw [plan]
    exact ih hjdefault hlist
  | case3 last v body rest R last' hv hcompared =>
    rw [fromMatch, if_pos hv] at hlist
    cases hlist
    rw [plan, hcompared]
    exact Plan.after_eq_iff.trans (plan_running_iff R).1
  | case4 last v body rest R last' hv hcompared ih =>
    rw [fromMatch, if_neg (by simp only [hv, Bool.false_eq_true, not_false_eq_true])] at hlist
    rw [plan, hcompared]
    exact ih hjdefault hlist
  | case5 last v body rest R htrue hfalse =>
    rw [iff_false, plan]
    split
    · simp only [Plan.mk.injEq, Bool.true_eq_false, and_false, not_false_eq_true]
    · rename_i last' hcompared
      have hv : ¬ isMatch label x v = true := htrue last' hcompared
      rw [fromMatch, if_neg hv] at hlist
      obtain ⟨v', body', rest', rfl, hv'⟩ := fromMatch_head _ hlist
      intro heq
      have hrun := (Plan.eq_iff.mp heq).1
      obtain ⟨rfl, -⟩ : v = v' ∧ body = body' := by
        simpa only [Stmt.case.injEq] using (List.cons.inj hrun).1
      exact hv hv'
    · rename_i last' hcompared
      have hv : isMatch label x v = true := by
        cases hv : isMatch label x v with
        | true => rfl
        | false => exact absurd hv (hfalse last' hcompared)
      rw [fromMatch, if_pos hv] at hlist
      cases hlist
      refine plan_ne_of_lt (hjdefault _ _ _) ?_
      rw [sizes_flatten_enter, sizes_append, sizes, size]
      omega
  | case6 last body rest R ih =>
    rw [fromMatch] at hlist
    rw [plan]
    exact ih (fun _ _ _ h => by cases h) hlist
  | case7 last body rest R ih =>
    rw [fromMatch] at hlist
    rw [plan]
    exact ih hjdefault hlist
  | case8 | case9 | case10 | case11 | case12 =>
    rename_i ih
    rw [fromMatch] at hlist
    rw [plan]
    exact ih hjdefault hlist

theorem plan_iff (body : List (Stmt ε ν)) :
    plan label x (.searching none []) [body] = ⟨meant label x body, false⟩ ↔ Right label x body := by
  have hnil : NoCase ([] : List (Stmt ε ν)) := fun _ _ _ h => by cases h
  unfold Right meant
  cases hlist : fromMatch label x [body] with
  | some list =>
    rw [if_pos Option.isSome_some]
    exact plan_match_iff none _ hnil hlist
  | none =>
    rw [if_neg (by simp only [Option.isSome_none, Bool.false_eq_true, not_false_eq_true])]
    exact plan_default_iff none _ hnil

end Right

end MdsPlus.SwitchPlan
