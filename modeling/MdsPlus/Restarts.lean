import MdsPlus.Statements

/-!
What the code does with a jump: the list that it came to is run again from its first
statement. That run handles the jumps in it, so that one round is enough.
-/

namespace MdsPlus.Restarts

open Statements

variable {ε ν υ σ : Type}

theorem whileGoto_of_ne (f : υ → StateM σ (υ × ℤ)) (n : ℕ) {r : υ × ℤ} (hr : r.2 ≠ TdiGOTO) :
    whileGoto n f r = pure r := by
  cases n with
  | zero => rfl
  | succ n => exact if_neg hr

theorem leave_status (S : Exprs ε ν υ σ) (r : υ × ℤ) : (leave S r).2 = r.2 := by
  rw [leave]
  split <;> rfl

theorem notFound_ne (r : υ × ℤ) : (notFound r).2 ≠ SsINTERNAL := by
  rw [notFound]
  by_cases hr : r.2 = SsINTERNAL
  · rw [if_pos hr]
    exact show TdiGOTO ≠ SsINTERNAL by decide
  · rw [if_neg hr]
    exact hr

theorem tdiIntrinsic_ne {S : Exprs ε ν υ σ} {code : ℤ} (hcode : code ≠ TdiMISS_ARG ∧ code ≠ TdiEXTRA_ARG ∧
    code ≠ TdiRECURSIVE) (least most narg : ℕ) {f1 : Option (StateM σ (υ × ℤ))}
    (h : ∀ m, f1 = some m → ∀ st, (m st).1.2 ≠ code) (st : σ) :
    (tdiIntrinsic S least most narg f1 st).1.2 ≠ code := by
  unfold tdiIntrinsic
  by_cases hleast : narg < least
  · rw [if_pos hleast]
    exact hcode.1.symm
  rw [if_neg hleast]
  by_cases hmost : most < narg
  · rw [if_pos hmost]
    exact hcode.2.1.symm
  rw [if_neg hmost]
  cases f1 with
  | none => exact hcode.2.2.symm
  | some m =>
    have hm := h m rfl st
    change (leave S (m st).1).2 ≠ code
    rw [leave_status]
    exact hm

theorem evaluateAll_ne {evaluate : Stmt ε ν → StateM σ (υ × ℤ)} {code : ℤ}
    (h : ∀ s st, (evaluate s st).1.2 ≠ code) (list : List (Stmt ε ν)) {r : υ × ℤ} (hr : r.2 ≠ code)
    (st : σ) : (evaluateAll evaluate list r st).1.2 ≠ code := by
  induction list generalizing r st with
  | nil => exact hr
  | cons s rest ih =>
    rw [evaluateAll]
    by_cases hok : isOk r.2
    · rw [if_pos hok]
      exact ih (h s st) _
    · rw [if_neg hok]
      exact hr

variable [DecidableEq ν]

theorem tdi1Statement_restart (S : Exprs ε ν υ σ) (rounds : ℕ)
    {l : Level ε ν υ σ}
    {list : List (Stmt ε ν)} (hlist : list ≠ []) {s s' : σ} {out : υ}
    (hjump : evaluateAll l.evaluate list (S.nothing, MDSplusSUCCESS) s = ((out, TdiGOTO), s'))
    (hne : (l.statement list s').1.2 ≠ TdiGOTO) :
    tdi1Statement S (rounds + 1) l list s =
      (notFound (l.statement list s').1, (l.statement list s').2) := by
  have hgoto : goto1 S l.statement list out = l.statement list := by
    rw [goto1_eq, if_neg hlist]
  change handleGoto S (rounds + 1) l list _ _ = _
  rw [hjump]
  have hhandle (r : υ × ℤ) (s : σ) : handleGoto S (rounds + 1) l list r s =
      (notFound (whileGoto (rounds + 1) (goto1 S l.statement list) r s).1,
        (whileGoto (rounds + 1) (goto1 S l.statement list) r s).2) := rfl
  have hwhile : whileGoto (rounds + 1) (goto1 S l.statement list) (out, TdiGOTO) s' =
      whileGoto rounds (goto1 S l.statement list) (l.statement list s').1 (l.statement list s').2 := by
    rw [whileGoto, if_pos rfl, hgoto]
    rfl
  rw [hhandle, hwhile, whileGoto_of_ne _ rounds hne]
  rfl

section Rounds

variable {S : Exprs ε ν υ σ}

/-- The internal status stays within the search for a label. -/
structure NoInternal (S : Exprs ε ν υ σ) : Prop where
  evaluate : ∀ d e s, (S.evaluate d e s).1.2 ≠ SsINTERNAL
  text : ∀ v code, S.text v = .error code → code ≠ SsINTERNAL

/-- Calls of statements never end with the internal status, and those of lists with a
statement never with a jump. -/
structure Settled (l : Level ε ν υ σ) : Prop where
  evaluate : ∀ s st, (l.evaluate s st).1.2 ≠ SsINTERNAL
  statement : ∀ list st, (l.statement list st).1.2 ≠ SsINTERNAL
  intrinsic : ∀ s st, (l.intrinsic s st).1.2 ≠ SsINTERNAL
  ends : ∀ list, list ≠ [] → ∀ st, (l.statement list st).1.2 ≠ TdiGOTO

theorem handleGoto_rounds {l : Level ε ν υ σ} (hl : Settled l) (n : ℕ) (list : List (Stmt ε ν))
    {r : υ × ℤ} (hr : list ≠ [] ∨ r.2 ≠ TdiGOTO) :
    handleGoto S (n + 1) l list r = handleGoto S 1 l list r := by
  have hwhile : whileGoto (n + 1) (goto1 S l.statement list) r =
      whileGoto 1 (goto1 S l.statement list) r := by
    by_cases hgoto : r.2 = TdiGOTO
    · have hlist := hr.resolve_right (not_not.mpr hgoto)
      funext st
      rw [whileGoto, whileGoto, if_pos hgoto, if_pos hgoto, goto1_eq, if_neg hlist]
      change whileGoto n (goto1 S l.statement list) (l.statement list st).1 (l.statement list st).2 =
        whileGoto 0 (goto1 S l.statement list) (l.statement list st).1 (l.statement list st).2
      rw [whileGoto_of_ne _ n (hl.ends list hlist st),
        whileGoto_of_ne _ 0 (hl.ends list hlist st)]
    · rw [whileGoto_of_ne _ _ hgoto, whileGoto_of_ne _ _ hgoto]
  rw [handleGoto, handleGoto, hwhile]

theorem handleGoto_ne (hl : Settled l) {list : List (Stmt ε ν)} (hlist : list ≠ []) {r : υ × ℤ}
    (hr : r.2 ≠ SsINTERNAL) (st : σ) : (handleGoto S 1 l list r st).1.2 ≠ TdiGOTO := by
  have hkeep (r : υ × ℤ) (hr : r.2 ≠ SsINTERNAL) : notFound r = r := if_neg hr
  change (notFound (whileGoto 1 (goto1 S l.statement list) r st).1).2 ≠ TdiGOTO
  by_cases hgoto : r.2 = TdiGOTO
  · have hround : whileGoto 1 (goto1 S l.statement list) r st = l.statement list st := by
      rw [whileGoto, if_pos hgoto, goto1_eq, if_neg hlist]
      rfl
    rw [hround, hkeep _ (hl.statement list st)]
    exact hl.ends list hlist st
  · rw [whileGoto_of_ne _ _ hgoto]
    change (notFound r).2 ≠ TdiGOTO
    rw [hkeep r hr]
    exact hgoto

theorem settled_makeLevel (hS : NoInternal S) (depth : ℕ) {below : Option (ℕ × Level ε ν υ σ)}
    (h : ∀ b, below = some b → Settled b.2) : Settled (makeLevel S 1 depth below) := by
  have hcode : SsINTERNAL ≠ TdiMISS_ARG ∧ SsINTERNAL ≠ TdiEXTRA_ARG ∧ SsINTERNAL ≠ TdiRECURSIVE := by
    decide
  have hcall (f1 : ℕ × Level ε ν υ σ → StateM σ (υ × ℤ))
      (hf1 : ∀ d l, Settled l → ∀ st, (f1 (d, l) st).1.2 ≠ SsINTERNAL) (least most narg : ℕ) (st : σ) :
      (tdiIntrinsic S least most narg (below.map f1) st).1.2 ≠ SsINTERNAL := by
    refine tdiIntrinsic_ne hcode least most narg (fun m hm => ?_) st
    obtain ⟨⟨d, l⟩, hb, rfl⟩ := Option.map_eq_some_iff.mp hm
    exact hf1 d l (h _ hb)
  have hstatement (l : Level ε ν υ σ) (list : List (Stmt ε ν)) (st : σ) :
      (tdi1Statement S 1 l list st).1.2 ≠ SsINTERNAL := notFound_ne _
  have hintrinsic (s : Stmt ε ν) (st : σ) :
      ((makeLevel S 1 depth below).intrinsic s st).1.2 ≠ SsINTERNAL := by
    cases s with
    | expr e => exact hS.evaluate depth e st
    | goto e =>
      refine hcall (fun p => tdi1Goto S p.1 e) (fun d l _ st => ?_) 1 1 1 st
      have he := hS.evaluate d e st
      rcases hr : S.evaluate d e st with ⟨⟨out, status⟩, st'⟩
      rw [hr] at he
      simp only [tdi1Goto, bind, StateT.bind, hr]
      split
      · cases htext : S.text out with
        | ok x => exact show TdiGOTO ≠ SsINTERNAL by decide
        | error code => exact hS.text out code htext
      · exact he
    | label x body =>
      exact hcall (fun p => p.2.statement body) (fun _ _ hl => hl.statement body) 2 254 _ st
    | case v body =>
      exact hcall (fun p => p.2.statement body) (fun _ _ hl => hl.statement body) 2 254 _ st
    | default body =>
      exact hcall (fun p => p.2.statement body) (fun _ _ hl => hl.statement body) 1 254 _ st
    | statement body =>
      exact hcall (fun p => tdi1Statement S 1 p.2 body) (fun _ l _ => hstatement l body) 0 254 _ st
    | ifElse test yes no =>
      refine hcall (fun p => tdi1If S 1 p.1 p.2 test yes no) (fun d l _ st => ?_) 2 3 _ st
      simp only [tdi1If, bind, StateT.bind]
      obtain ⟨⟨⟨value, status⟩, st'⟩, hr⟩ : ∃ r, r = S.getLong d test st := ⟨_, rfl⟩
      rw [← hr]
      by_cases hvalue : isOk (value.getD 0)
      · simp only [if_pos hvalue]
        exact notFound_ne _
      · simp only [if_neg hvalue]
        cases no with
        | none => exact notFound_ne _
        | some no => exact notFound_ne _
    | switch test body =>
      refine hcall (fun p => tdi1Switch S 1 p.1 p.2 test body) (fun d l _ st => ?_) 2 254 _ st
      simp only [tdi1Switch, bind, StateT.bind]
      obtain ⟨⟨r, st'⟩, hr⟩ : ∃ r, r = switchBody S l.evaluate d test body st := ⟨_, rfl⟩
      rw [← hr]
      by_cases hbreak : r.2 = TdiBREAK
      · simp only [if_pos hbreak]
        exact show MDSplusSUCCESS ≠ SsINTERNAL by decide
      · simp only [if_neg hbreak]
        exact notFound_ne _
  refine ⟨fun s st => ?_, fun list st => ?_, hintrinsic, fun list hlist st => ?_⟩
  · cases s with
    | expr e => exact hS.evaluate depth e st
    | _ => exact hcall (fun p => p.2.intrinsic _) (fun _ _ hl => hl.intrinsic _) 1 1 1 st
  · exact hcall (fun p => tdi1Statement S 1 p.2 list) (fun _ l _ => hstatement l list) 0 254 _ st
  · refine tdiIntrinsic_ne (by decide) 0 254 list.length (fun m hm st => ?_) st
    obtain ⟨⟨d, l⟩, hb, rfl⟩ := Option.map_eq_some_iff.mp hm
    have hl := h _ hb
    exact handleGoto_ne hl hlist (evaluateAll_ne hl.evaluate list
      (show MDSplusSUCCESS ≠ SsINTERNAL by decide) st) _

theorem settled_level (hS : NoInternal S) (d : ℕ) : Settled (level S 1 d) := by
  induction d with
  | zero => exact settled_makeLevel hS 0 nofun
  | succ d ih =>
    refine settled_makeLevel hS (d + 1) fun b hb => ?_
    cases hb
    exact ih

theorem tdi1Statement_rounds {l : Level ε ν υ σ} (hl : Settled l) (n : ℕ) :
    tdi1Statement S (n + 1) l = tdi1Statement S 1 l := by
  funext list st
  by_cases hlist : list = []
  · subst hlist
    change handleGoto S (n + 1) l [] (S.nothing, MDSplusSUCCESS) st =
      handleGoto S 1 l [] (S.nothing, MDSplusSUCCESS) st
    rw [handleGoto_rounds hl n [] (Or.inr (show MDSplusSUCCESS ≠ TdiGOTO by decide))]
  · change handleGoto S (n + 1) l list _ _ = handleGoto S 1 l list _ _
    rw [handleGoto_rounds hl n list (Or.inl hlist)]

theorem tdi1If_rounds {l : Level ε ν υ σ} (hl : Settled l) (n d : ℕ) :
    tdi1If S (n + 1) d l = tdi1If S 1 d l := by
  have harm : ifArm S (n + 1) l = ifArm S 1 l := by
    funext arm status st
    change handleGoto S (n + 1) l [arm] _ _ = handleGoto S 1 l [arm] _ _
    rw [handleGoto_rounds hl n [arm] (Or.inl (List.cons_ne_nil _ _))]
  funext test yes no
  rw [tdi1If, tdi1If, harm]

theorem tdi1Switch_rounds {l : Level ε ν υ σ} (hl : Settled l) (n d : ℕ) (test : ε)
    {body : List (Stmt ε ν)} (hbody : body ≠ []) :
    tdi1Switch S (n + 1) d l test body = tdi1Switch S 1 d l test body := by
  simp only [tdi1Switch, handleGoto_rounds hl n body (Or.inl hbody)]

/-- More rounds change nothing, whatever the depth of the calls. -/
theorem level_rounds (hS : NoInternal S) (n d : ℕ) : level S (n + 1) d = level S 1 d := by
  induction d with
  | zero => rfl
  | succ d ih =>
    have hl := settled_level hS d
    rw [level, level, ih, makeLevel, makeLevel]
    simp only [Option.map_some, tdi1Statement_rounds hl, tdi1If_rounds hl]
    congr 1
    funext s
    cases s with
    | switch test body =>
      by_cases hbody : body = []
      · -- an argument is missing
        subst hbody
        rfl
      · simp only [tdi1Switch_rounds hl n d test hbody]
    | _ => rfl

def numbers : Exprs ℕ ℕ ℕ Unit where
  nothing := 0
  evaluate _ e := pure (e, 1)
  getLong _ e := pure (some e, 1)
  long v := (some v, 1)
  text v := .ok v
  range _ := none
  compare _ _ v w := pure (if v = w then 1 else 0, 1)

theorem level_rounds_numbers : level numbers 3 2 = level numbers 1 2 := by
  have hnumbers : NoInternal numbers :=
    ⟨fun d e s => show (1 : ℤ) ≠ SsINTERNAL by decide, fun v code h => by cases h⟩
  exact level_rounds hnumbers 2 2

end Rounds

end MdsPlus.Restarts
