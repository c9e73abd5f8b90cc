import MdsPlus.Jumps
import MdsPlus.Restarts

/-!
The code runs a list again from its first statement, whatever label a jump goes to. Where
every jump leads there anyhow it runs the statements that it should.
-/

namespace MdsPlus.JumpRuns

open Statements Restarts Jumps

variable {ε ν υ σ α β : Type} [DecidableEq ν]

/-- A computation with notes only adds to them. Under a condition it does what another does,
if all jumps noted down lead. -/
def Follows (p : Prop) (m' : StateM (σ × List (Jump ε ν)) α) (m : StateM σ α) : Prop :=
  ∀ s notes, notes <:+ (m' (s, notes)).2.2 ∧
    (p → (∀ j ∈ (m' (s, notes)).2.2, j.Leads) →
      m s = ((m' (s, notes)).1, (m' (s, notes)).2.1))

variable {p : Prop}

namespace Follows

theorem pure (a : α) : Follows p (Pure.pure a : StateM (σ × List (Jump ε ν)) α) (Pure.pure a) :=
  fun _ _ => ⟨List.suffix_rfl, fun _ _ => rfl⟩

theorem bind {m' : StateM (σ × List (Jump ε ν)) α} {m : StateM σ α}
    {k' : α → StateM (σ × List (Jump ε ν)) β} {k : α → StateM σ β} (h : Follows p m' m)
    (hk : ∀ a, Follows p (k' a) (k a)) : Follows p (m' >>= k') (m >>= k) := by
  intro s notes
  obtain ⟨hnotes, heq⟩ := h s notes
  obtain ⟨hnotes', heq'⟩ := hk (m' (s, notes)).1 (m' (s, notes)).2.1 (m' (s, notes)).2.2
  refine ⟨hnotes.trans hnotes', fun hp hleads => ?_⟩
  have hm : m s = _ := heq hp fun j hj => hleads j (hnotes'.subset hj)
  have hk' : k _ _ = _ := heq' hp hleads
  change (m >>= k) s = _
  rw [show (m >>= k) s = k (m s).1 (m s).2 from rfl, hm]
  exact hk'

theorem unnoted (m : StateM σ α) : Follows p (Jumps.unnoted m : StateM (σ × List (Jump ε ν)) α) m :=
  fun _ _ => ⟨List.suffix_rfl, fun _ _ => rfl⟩

theorem imp {q : Prop} {m' : StateM (σ × List (Jump ε ν)) α} {m : StateM σ α}
    (h : Follows p m' m) (hq : q → p) : Follows q m' m :=
  fun s notes => ⟨(h s notes).1, fun hp => (h s notes).2 (hq hp)⟩

theorem of_not {m' : StateM (σ × List (Jump ε ν)) α} {m₁ m₂ : StateM σ α}
    (h : Follows p m' m₁) (hp : ¬ p) : Follows p m' m₂ :=
  fun s notes => ⟨(h s notes).1, fun h => absurd h hp⟩

theorem ite {c : Prop} [Decidable c] {a' b' : StateM (σ × List (Jump ε ν)) α} {a b : StateM σ α}
    (ha : Follows p a' a) (hb : Follows p b' b) :
    Follows p (if c then a' else b') (if c then a else b) := by
  by_cases hc : c
  · rwa [if_pos hc, if_pos hc]
  · rwa [if_neg hc, if_neg hc]

end Follows

section Lists

variable {S : Exprs ε ν υ σ} {evaluate' : Stmt ε ν → StateM (σ × List (Jump ε ν)) (υ × ℤ)}
  {evaluate : Stmt ε ν → StateM σ (υ × ℤ)}

theorem evaluateAll_follows (h : ∀ s, Follows p (evaluate' s) (evaluate s)) (list : List (Stmt ε ν))
    (r : υ × ℤ) : Follows p (evaluateAll evaluate' list r) (evaluateAll evaluate list r) := by
  induction list generalizing r with
  | nil => exact .pure r
  | cons s rest ih => exact .ite ((h s).bind ih) (.pure r)

theorem runMatch_follows (h : ∀ s, Follows p (evaluate' s) (evaluate s)) (rest : List (Stmt ε ν))
    (r : Scan ε ν υ) : Follows p (runMatch evaluate' rest r) (runMatch evaluate rest r) :=
  .ite (.pure _) ((evaluateAll_follows h rest _).bind fun _ => .pure _)

theorem compareTo_follows (d : ℕ) (c : Comparison) (ptest value : υ) (r : ℤ × υ × ℤ) :
    Follows p (compareTo (noting S) d c ptest value r) (compareTo S d c ptest value r) :=
  (Follows.unnoted _).bind fun _ => .pure _

theorem compareBegin_follows (d : ℕ) (ptest : υ) (r : ℤ × υ × ℤ) (begin : Option υ) :
    Follows p (compareBegin (noting S) d ptest r begin) (compareBegin S d ptest r begin) := by
  cases begin with
  | none => exact .pure _
  | some begin => exact (compareTo_follows d .ge ptest begin r).bind fun t => .pure _

theorem compareEnd_follows (d : ℕ) (ptest : υ) (r : ℤ × υ × ℤ) (ending : Option υ) :
    Follows p (compareEnd (noting S) d ptest r ending) (compareEnd S d ptest r ending) := by
  cases ending with
  | none => exact .pure _
  | some ending => exact .ite (compareTo_follows d .le ptest ending r) (.pure _)

theorem compareValue_follows (d : ℕ) (ptest xd : υ) (r : ℤ × υ × ℤ) :
    Follows p (compareValue (noting S) d ptest xd r) (compareValue S d ptest xd r) := by
  rw [compareValue, compareValue, show (noting S).range xd = S.range xd from rfl]
  cases S.range xd with
  | none => exact compareTo_follows d .eq ptest xd r
  | some ends =>
    exact (compareBegin_follows d ptest r ends.1).bind fun t => compareEnd_follows d ptest t ends.2

mutual

theorem switchCase_follows (d : ℕ) (ptest : υ) (v : CaseValue ε) (test : ℤ) (out : υ) :
    Follows p (switchCase (noting S) d ptest v test out) (switchCase S d ptest v test out) := by
  cases v with
  | comma list => exact cases_follows d ptest list _
  | value e =>
    exact (Follows.unnoted _).bind fun r =>
      .ite ((compareValue_follows d ptest r.1 _).bind fun t => .pure _) (.pure _)

theorem cases_follows (d : ℕ) (ptest : υ) (list : List (CaseValue ε)) (r : ℤ × υ × ℤ) :
    Follows p (switchCase.cases (noting S) d ptest list r) (switchCase.cases S d ptest list r) := by
  cases list with
  | nil => exact .pure r
  | cons v rest =>
    exact .ite ((switchCase_follows d ptest v _ _).bind fun r => cases_follows d ptest rest r) (.pure r)

end

theorem leaveBlock_follows (h : ∀ s, Follows p (evaluate' s) (evaluate s)) (r : Scan ε ν υ)
    (inner : List (Stmt ε ν) × Scan ε ν υ) :
    Follows p (leaveBlock evaluate' r inner) (leaveBlock evaluate r inner) :=
  (runMatch_follows h _ _).bind fun _ => .ite (.pure _) (.ite (.pure _) (.pure _))

mutual

theorem scanStmt_follows (h : ∀ s, Follows p (evaluate' s) (evaluate s)) (d : ℕ) (ptest : υ)
    (here : List (Stmt ε ν)) (s : Stmt ε ν) (r : Scan ε ν υ) :
    Follows p (scanStmt (noting S) evaluate' d ptest here s r) (scanStmt S evaluate d ptest here s r) := by
  cases s with
  | case v body =>
    refine (switchCase_follows d ptest v _ _).bind fun t => .ite (.pure _) (.ite ?_ (.pure _))
    exact (scan_follows h d ptest body _).bind fun u => leaveBlock_follows h _ u
  | default body => exact (scan_follows h d ptest body _).bind fun u => leaveBlock_follows h _ u
  | statement body => exact (scan_follows h d ptest body _).bind fun u => leaveBlock_follows h _ u
  | expr _ | goto _ | label _ _ | ifElse _ _ _ | switch _ _ => exact .pure _

theorem scan_follows (h : ∀ s, Follows p (evaluate' s) (evaluate s)) (d : ℕ) (ptest : υ)
    (list : List (Stmt ε ν)) (r : Scan ε ν υ) :
    Follows p (scan (noting S) evaluate' d ptest list r) (scan S evaluate d ptest list r) := by
  cases list with
  | nil => exact .pure _
  | cons s rest =>
    refine .ite ((scanStmt_follows h d ptest _ s r).bind fun t => ?_) (.pure _)
    obtain ⟨stop, r'⟩ := t
    cases stop with
    | here => exact .pure _
    | behind => exact .pure _
    | on => exact scan_follows h d ptest rest r'

end

theorem runDefault_follows (h : ∀ s, Follows p (evaluate' s) (evaluate s)) (r : Scan ε ν υ) :
    Follows p (runDefault evaluate' r) (runDefault evaluate r) :=
  .ite (evaluateAll_follows h _ _) (.pure _)

theorem switchBody_follows (h : ∀ s, Follows p (evaluate' s) (evaluate s)) (d : ℕ) (test : ε)
    (body : List (Stmt ε ν)) :
    Follows p (switchBody (noting S) evaluate' d test body) (switchBody S evaluate d test body) := by
  refine (Follows.unnoted _).bind fun t => .ite ?_ (runDefault_follows h _)
  refine Follows.bind ?_ fun r => runDefault_follows h r
  exact (scan_follows h d t.1 body _).bind fun u => runMatch_follows h _ _

theorem tdiIntrinsic_follows (least most narg : ℕ)
    {f1' : Option (StateM (σ × List (Jump ε ν)) (υ × ℤ))} {f1 : Option (StateM σ (υ × ℤ))}
    (h : Option.Rel (Follows p) f1' f1) :
    Follows p (tdiIntrinsic (noting S) least most narg f1') (tdiIntrinsic S least most narg f1) := by
  refine .ite (.pure _) (.ite (.pure _) ?_)
  cases h with
  | none => exact .pure _
  | some h => exact h.bind fun r => .pure _

theorem tdi1Goto_follows (d : ℕ) (label : ε) :
    Follows p (tdi1Goto (noting S) d label) (tdi1Goto S d label) := by
  refine (Follows.unnoted _).bind fun r => ?_
  have htext : (noting S : Exprs ε ν υ (σ × List (Jump ε ν))).text = S.text := rfl
  show Follows p (ite _ _ _) (ite _ _ _)
  refine .ite ?_ (.pure _)
  rw [htext]
  cases S.text r.1 with
  | ok x => exact .pure _
  | error code => exact .pure _

end Lists

section Levels

variable {S : Exprs ε ν υ σ} {rounds : ℕ}

/-- Along a path to the front the calls do what those of the code do. -/
structure LevelFollows (l' : Calls ε ν υ (σ × List (Jump ε ν))) (l : Level ε ν υ σ) : Prop where
  evaluate : ∀ front path s, Follows (∀ k ∈ path, k = 0) (l'.evaluate front path s) (l.evaluate s)
  statement : ∀ front path list,
    Follows (∀ k ∈ path, k = 0) (l'.statement front path list) (l.statement list)
  intrinsic : ∀ front path s,
    Follows (∀ k ∈ path, k = 0) (l'.intrinsic front path s) (l.intrinsic s)

variable {l' : Calls ε ν υ (σ × List (Jump ε ν))} {l : Level ε ν υ σ}

theorem LevelFollows.evaluate_any (h : LevelFollows l' l) (s : Stmt ε ν) :
    Follows p (l'.evaluate [] [] s) (l.evaluate s) :=
  (h.evaluate [] [] s).imp fun _ => nofun

theorem goOnAt_follows (h : LevelFollows l' l) (j : Jump ε ν) (out : υ) :
    Follows j.Leads (goOnAt l' j out) (l.statement j.list) := by
  rw [goOnAt]
  cases htarget : j.target with
  | none =>
    refine (Follows.pure (out, SsINTERNAL)).of_not ?_
    rintro ⟨path, hpath, _⟩
    rw [htarget] at hpath
    cases hpath
  | some path =>
    refine (h.statement j.front path j.list).imp ?_
    rintro ⟨_, hpath, hzero⟩
    rw [htarget] at hpath
    cases hpath
    exact hzero

theorem resume_follows (h : LevelFollows l' l) (front : List ν) (list : List (Stmt ε ν))
    (hlist : list ≠ []) (out : υ) :
    Follows p (resume S l' front list out) (goto1 S l.statement list out) := by
  rw [goto1_eq, if_neg hlist]
  intro s notes
  obtain ⟨j, hj⟩ : ∃ j : Jump ε ν, j = ⟨front, list, (S.text out).toOption⟩ := ⟨_, rfl⟩
  have hlist' : list = j.list := by rw [hj]
  have hresume : resume S l' front list out (s, notes) = goOnAt l' j out (s, j :: notes) := by
    rw [hj]
    rfl
  obtain ⟨hnotes, heq⟩ := goOnAt_follows h j out s (j :: notes)
  rw [hresume, hlist']
  exact ⟨(List.suffix_cons j notes).trans hnotes,
    fun _ hleads => heq (hleads j (hnotes.subset List.mem_cons_self)) hleads⟩

theorem whileGoto_follows {f' : υ → StateM (σ × List (Jump ε ν)) (υ × ℤ)}
    {f : υ → StateM σ (υ × ℤ)} (h : ∀ out, Follows p (f' out) (f out)) (n : ℕ) (r : υ × ℤ) :
    Follows p (whileGoto n f' r) (whileGoto n f r) := by
  induction n generalizing r with
  | zero => exact .pure r
  | succ n ih => exact .ite ((h r.1).bind ih) (.pure r)

theorem handle_follows (h : LevelFollows l' l) (front : List ν) (list : List (Stmt ε ν))
    (hlist : list ≠ []) (r : υ × ℤ) :
    Follows p (handle S rounds l' front list r) (handleGoto S rounds l list r) :=
  (whileGoto_follows (resume_follows h front list hlist) rounds r).bind fun _ => .pure _

theorem evaluateFrom_follows (h : LevelFollows l' l) (front : List ν) (path : Path)
    (list : List (Stmt ε ν)) (r : υ × ℤ) : Follows (∀ k ∈ path, k = 0)
      (evaluateFrom l'.evaluate front path list r) (evaluateAll l.evaluate list r) := by
  have hdrop (hpath : ∀ k ∈ path, k = 0) : list.drop (path.headD 0) = list := by
    cases path with
    | nil => rfl
    | cons k path => rw [List.headD_cons, hpath k List.mem_cons_self, List.drop_zero]
  have htail (hpath : ∀ k ∈ path, k = 0) : ∀ k ∈ path.tail, k = 0 :=
    fun k hk => hpath k (List.mem_of_mem_tail hk)
  suffices hfrom : Follows (∀ k ∈ path, k = 0) (evaluateFrom l'.evaluate front path list r)
      (evaluateAll l.evaluate (list.drop (path.headD 0)) r) by
    by_cases hpath : ∀ k ∈ path, k = 0
    · rwa [hdrop hpath] at hfrom
    · exact hfrom.of_not hpath
  rw [evaluateFrom]
  cases list.drop (path.headD 0) with
  | nil => exact .pure r
  | cons s rest =>
    exact .ite (((h.evaluate _ path.tail s).imp htail).bind fun r =>
      evaluateAll_follows h.evaluate_any rest r) (.pure r)

theorem runStatement_follows (h : LevelFollows l' l) (front : List ν) (path : Path)
    (list : List (Stmt ε ν)) : Follows (∀ k ∈ path, k = 0)
      (runStatement S rounds l' front path list) (tdi1Statement S rounds l list) := by
  by_cases hlist : list = []
  · -- no statement, no jump
    subst hlist
    have hfrom : evaluateFrom l'.evaluate front path [] (S.nothing, MDSplusSUCCESS) =
        Pure.pure (S.nothing, MDSplusSUCCESS) := by
      rw [evaluateFrom, List.drop_nil]
    have hne : (S.nothing, MDSplusSUCCESS).2 ≠ TdiGOTO :=
      show MDSplusSUCCESS ≠ TdiGOTO by decide
    have hrun : runStatement S rounds l' front path [] =
        Pure.pure (notFound (S.nothing, MDSplusSUCCESS)) := by
      rw [runStatement, hfrom]
      simp only [pure_bind, handle, whileGoto_of_ne _ rounds hne]
    have hcode : tdi1Statement S rounds l [] =
        Pure.pure (notFound (S.nothing, MDSplusSUCCESS)) := by
      simp only [tdi1Statement, evaluateAll, pure_bind, handleGoto, whileGoto_of_ne _ rounds hne]
    rw [hrun, hcode]
    exact .pure _
  · exact (evaluateFrom_follows h front path list _).bind fun r =>
      handle_follows h front list hlist r

theorem runArm_follows (h : LevelFollows l' l) (arm : Stmt ε ν) (status : ℤ) :
    Follows p (runArm S rounds l' arm status) (ifArm S rounds l arm status) :=
  (evaluateAll_follows h.evaluate_any [arm] _).bind fun r =>
    handle_follows h [] [arm] (List.cons_ne_nil _ _) r

theorem runIf_follows (h : LevelFollows l' l) (d : ℕ) (test : ε) (yes : Stmt ε ν)
    (no : Option (Stmt ε ν)) :
    Follows p (runIf S rounds d l' test yes no) (tdi1If S rounds d l test yes no) := by
  refine (Follows.unnoted _).bind fun t => .ite (runArm_follows h yes t.2) ?_
  cases no with
  | none => exact .pure _
  | some no => exact runArm_follows h no t.2

theorem runSwitch_follows (h : LevelFollows l' l) (d : ℕ) (test : ε) (body : List (Stmt ε ν))
    (hbody : body ≠ []) :
    Follows p (runSwitch S rounds d l' test body) (tdi1Switch S rounds d l test body) :=
  (switchBody_follows h.evaluate_any d test body).bind fun r =>
    .ite (.pure _) (handle_follows h [] body hbody r)

def BelowFollows (below' : Option (ℕ × Calls ε ν υ (σ × List (Jump ε ν))))
    (below : Option (ℕ × Level ε ν υ σ)) : Prop :=
  Option.Rel (fun b' b => b'.1 = b.1 ∧ LevelFollows b'.2 b.2) below' below

theorem below_follows {below' : Option (ℕ × Calls ε ν υ (σ × List (Jump ε ν)))}
    {below : Option (ℕ × Level ε ν υ σ)} (h : BelowFollows below' below)
    {f1' : ℕ × Calls ε ν υ (σ × List (Jump ε ν)) → StateM (σ × List (Jump ε ν)) (υ × ℤ)}
    {f1 : ℕ × Level ε ν υ σ → StateM σ (υ × ℤ)}
    (hf1 : ∀ d l' l, LevelFollows l' l → Follows p (f1' (d, l')) (f1 (d, l))) (least most narg : ℕ) :
    Follows p (tdiIntrinsic (noting S) least most narg (below'.map f1'))
      (tdiIntrinsic S least most narg (below.map f1)) := by
  refine tdiIntrinsic_follows least most narg ?_
  cases h with
  | none => exact .none
  | @some b' b hb =>
    obtain ⟨d, l'⟩ := b'
    obtain ⟨_, l⟩ := b
    obtain ⟨rfl, hl⟩ := hb
    exact .some (hf1 d l' l hl)

theorem makeCalls_follows (depth : ℕ)
    {below' : Option (ℕ × Calls ε ν υ (σ × List (Jump ε ν)))} {below : Option (ℕ × Level ε ν υ σ)}
    (h : BelowFollows below' below) :
    LevelFollows (makeCalls S rounds depth below') (makeLevel S rounds depth below) where
  evaluate front path s := by
    cases s with
    | expr e => exact .unnoted _
    | _ => exact below_follows h (fun _ _ _ hl => hl.intrinsic front path _) 1 1 1
  statement front path list :=
    below_follows h (fun _ _ _ hl => runStatement_follows hl front path list) 0 254 list.length
  intrinsic front path s := by
    cases s with
    | expr e => exact .unnoted _
    | goto e => exact below_follows h (fun d _ _ _ => tdi1Goto_follows d e) 1 1 1
    | label x body =>
      exact below_follows h (fun _ _ _ hl => hl.statement (x :: front) path body) 2 254 _
    | case v body => exact below_follows h (fun _ _ _ hl => hl.statement front path body) 2 254 _
    | default body => exact below_follows h (fun _ _ _ hl => hl.statement front path body) 1 254 _
    | statement body =>
      exact below_follows h (fun _ _ _ hl => runStatement_follows hl front path body) 0 254 _
    | ifElse test yes no =>
      exact below_follows h (fun d _ _ hl => runIf_follows hl d test yes no) 2 3 _
    | switch test body =>
      by_cases hbody : body = []
      · -- an argument is missing
        subst hbody
        exact .pure _
      · exact below_follows h (fun d _ _ hl => runSwitch_follows hl d test body hbody) 2 254 _

end Levels

variable (S : Exprs ε ν υ σ) (rounds : ℕ)

theorem calls_follows (d : ℕ) : LevelFollows (calls S rounds d) (level S rounds d) := by
  induction d with
  | zero => exact makeCalls_follows 0 .none
  | succ d ih => exact makeCalls_follows (d + 1) (.some ⟨rfl, ih⟩)

def asMeant (d : ℕ) (list : List (Stmt ε ν)) (s : σ) : ((υ × ℤ) × σ) × List (Jump ε ν) :=
  let r := (calls S rounds d).statement [] [] list (s, [])
  ((r.1, r.2.1), r.2.2)

theorem statement_run (d : ℕ) (list : List (Stmt ε ν)) (s : σ)
    (h : ∀ j ∈ (asMeant S rounds d list s).2, j.Leads) :
    (level S rounds d).statement list s = (asMeant S rounds d list s).1 :=
  (((calls_follows S rounds d).statement [] [] list) s []).2 nofun h

/-- Expressions that count: 1 adds one, 2 returns, 3 asks for three, the rest are labels. -/
def counting : Exprs ℕ ℕ ℕ ℕ where
  nothing := 0
  evaluate _ e := fun n =>
    ((e, if e = 2 then TdiRETURN else MDSplusSUCCESS), if e = 1 then n + 1 else n)
  getLong _ e := fun n => ((some (if n = e then 1 else 0), MDSplusSUCCESS), n)
  long v := (some v, MDSplusSUCCESS)
  text v := .ok v
  range _ := none
  compare _ _ a b := fun n => ((if a = b then 1 else 0, MDSplusSUCCESS), n)

/-- Count, return at three, else back to the label 7. -/
def backward : List (Stmt ℕ ℕ) :=
  [.label 7 [.expr 1, .ifElse 3 (.expr 2) none, .goto 7]]

theorem statement_run_backward :
    (level counting 2 1801).statement backward 0 = (asMeant counting 2 1801 backward 0).1 :=
  statement_run counting 2 1801 backward 0 (by decide +kernel)

/-- Count, and jump over another count to the label on the last statement. -/
def forward : List (Stmt ℕ ℕ) := [.expr 1, .goto 7, .expr 1, .label 7 [.expr 4]]

theorem statement_forward (d n : ℕ) :
    ((level counting 2 d).statement forward n).1.2 = TdiRECURSIVE := by
  induction d using Nat.strongRecOn generalizing n with
  | _ d ih =>
    match d with
    | 0 => rfl
    | 1 => rfl
    | 2 => rfl
    | d + 3 =>
      have hagain := ih (d + 2) (by omega) (n + 1)
      have hjump : evaluateAll (level counting 2 (d + 2)).evaluate forward (0, MDSplusSUCCESS) n =
          ((7, TdiGOTO), n + 1) := rfl
      have hrun := tdi1Statement_restart counting 1 (show forward ≠ [] from List.cons_ne_nil _ _) hjump
        (by rw [hagain]; decide)
      have hstatement : (level counting 2 (d + 3)).statement forward n =
          (leave counting (tdi1Statement counting 2 (level counting 2 (d + 2)) forward n).1,
            (tdi1Statement counting 2 (level counting 2 (d + 2)) forward n).2) := rfl
      rw [hstatement, hrun]
      change (leave counting (notFound _)).2 = TdiRECURSIVE
      rw [leave_status, notFound, if_neg (by rw [hagain]; decide)]
      exact hagain

/-- The code never comes to the label: it counts on until the calls are too deep. -/
theorem statement_run_forward :
    ((level counting 2 1801).statement forward 0).1.2 = TdiRECURSIVE ∧
    (asMeant counting 2 1801 forward 0).1 = ((4, MDSplusSUCCESS), 1) :=
  ⟨statement_forward 1801 0, by decide +kernel⟩

end MdsPlus.JumpRuns
