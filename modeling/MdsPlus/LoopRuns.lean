import MdsPlus.Loops

/-!
The loops of the language are those of C. A run of the code and one of C agree if they end
with the same state, with a status that stands for the outcome; binding keeps this, so that
the constructs are compared one by one.
-/

namespace MdsPlus.LoopRuns

open Loops
open Statements (SsINTERNAL MDSplusSUCCESS TdiBREAK TdiCONTINUE TdiRETURN TdiGOTO TdiEXTRA_ARG
  TdiMISS_ARG TdiRECURSIVE isOk)

variable {ε σ α β γ δ : Type}

/-- Two runs that end in the same states, with results that are related. -/
def Agree (R : α → β → Prop) (m : Run σ α) (r : Run σ β) : Prop :=
  ∀ s, Option.Rel (fun a b => R a.1 b.1 ∧ a.2 = b.2) (m s) (r s)

theorem Agree.pure {R : α → β → Prop} {a : α} {b : β} (h : R a b) :
    Agree R (pure a : Run σ α) (pure b) := fun _ => Option.Rel.some ⟨h, rfl⟩

theorem Agree.failure {R : α → β → Prop} : Agree R (failure : Run σ α) failure :=
  fun _ => Option.Rel.none

theorem Agree.bind {R : α → β → Prop} {Q : γ → δ → Prop} {m : Run σ α} {r : Run σ β}
    {f : α → Run σ γ} {g : β → Run σ δ} (h : Agree R m r)
    (hnext : ∀ a b, R a b → Agree Q (f a) (g b)) : Agree Q (m >>= f) (r >>= g) := by
  intro s
  have hs := h s
  change Option.Rel _ ((m s).bind fun p => f p.1 p.2) ((r s).bind fun p => g p.1 p.2)
  generalize m s = x at hs
  generalize r s = y at hs
  cases hs with
  | none => exact Option.Rel.none
  | some hab =>
    rename_i a b
    obtain ⟨hR, hstate⟩ := hab
    have := hnext _ _ hR b.2
    rw [Option.bind_some, Option.bind_some, hstate]
    exact this

inductive Means : ℤ → Outcome → Prop
  | normal {status : ℤ} (hok : isOk status = true) (h : status ≠ SsINTERNAL) :
      Means status .normal
  | broke : Means TdiBREAK .broke
  | continued : Means TdiCONTINUE .continued
  | returned : Means TdiRETURN .returned
  | failed {status : ℤ} (hok : isOk status = false) (h : Plain status) :
      Means status (.failed status)

inductive ExprMeans : ℤ → Outcome → Prop
  | normal {status : ℤ} (hok : isOk status = true) (h : Plain status) : ExprMeans status .normal
  | failed {status : ℤ} (hok : isOk status = false) (h : Plain status) :
      ExprMeans status (.failed status)

inductive TestMeans : ℤ × ℤ → Except ℤ Bool → Prop
  | ok {value status : ℤ} (hok : isOk status = true) (h : Plain status) :
      TestMeans (value, status) (.ok (isOk value))
  | error {value status : ℤ} (hok : isOk status = false) (h : Plain status) :
      TestMeans (value, status) (.error status)

theorem ExprMeans.means {status : ℤ} {o : Outcome} (h : ExprMeans status o) : Means status o := by
  cases h with
  | normal hok h => exact .normal hok h.2.2.2.2
  | failed hok h => exact .failed hok h

theorem means_success : Means MDSplusSUCCESS .normal := .normal (by decide) (by decide)

theorem plain_success : Plain MDSplusSUCCESS := by
  unfold Plain
  decide

theorem Means.ne_goto {status : ℤ} {o : Outcome} (h : Means status o) :
    status ≠ TdiGOTO ∧ status ≠ SsINTERNAL := by
  cases h with
  | normal hok h =>
    refine ⟨?_, h⟩
    rintro rfl
    exact absurd hok (by decide)
  | broke => decide
  | continued => decide
  | returned => decide
  | failed hok h => exact ⟨h.2.2.2.1, h.2.2.2.2⟩

theorem Means.ofStatus {status : ℤ} {o : Outcome} (h : Means status o) :
    Outcome.ofStatus status = o := by
  unfold Outcome.ofStatus
  cases h with
  | normal hok h => rw [if_pos hok]
  | broke => decide
  | continued => decide
  | returned => decide
  | failed hok h =>
    obtain ⟨hbreak, hcontinue, hreturn, -⟩ := h
    rw [if_neg (by rw [hok]; decide), if_neg hbreak, if_neg hcontinue, if_neg hreturn]

/-! ### Expressions -/

section Code

variable {S : Exprs ε σ} (hplain : S.Plain)

include hplain

theorem agree_value (e : ε) : Agree ExprMeans (S.value e) (cExpr S e) := by
  intro s
  have h := (hplain e s).1
  refine Option.Rel.some ⟨?_, rfl⟩
  by_cases hok : isOk (S.evaluate e s).1
  · rw [if_pos hok]
    exact .normal hok h
  · rw [if_neg hok]
    exact .failed (Bool.eq_false_iff.2 hok) h

theorem agree_test (e : ε) : Agree TestMeans (S.test e) (cTest S e) := by
  intro s
  have h := (hplain e s).2
  refine Option.Rel.some ⟨?_, rfl⟩
  change TestMeans ((S.getLong e s).1.1, (S.getLong e s).1.2) _
  by_cases hok : isOk (S.getLong e s).1.2
  · simp only [if_pos hok]
    exact .ok hok h
  · simp only [if_neg hok]
    exact .error (Bool.eq_false_iff.2 hok) h

end Code

/-! ### The constructs -/

theorem handleGoto_of_means {l : Level ε σ} {list : List (Stmt ε)} {n : ℕ} {status : ℤ}
    {o : Outcome} (h : Means status o) : handleGoto l list n status = pure status := by
  obtain ⟨hgoto, hinternal⟩ := h.ne_goto
  have hfound : notFound status = status := if_neg hinternal
  cases n with
  | zero => rw [handleGoto, if_neg hgoto, hfound]
  | succ n => rw [handleGoto, if_neg hgoto, hfound]

theorem agree_handleGoto {l : Level ε σ} {list : List (Stmt ε)} {n : ℕ} {m : Run σ ℤ}
    {r : Run σ Outcome} (h : Agree Means m r) :
    Agree Means (m >>= handleGoto l list n) r := by
  rw [← bind_pure r]
  refine h.bind fun status o hmeans => ?_
  rw [handleGoto_of_means hmeans]
  exact Agree.pure hmeans

section Level

variable {S : Exprs ε σ} {fuel : ℕ} {l : Level ε σ}

theorem agree_evaluateAll {list : List (Stmt ε)}
    (h : ∀ s ∈ list, Agree Means (l.evaluate s) (c S fuel s)) {status : ℤ} {o : Outcome}
    (hmeans : Means status o) :
    Agree Means (evaluateAll l.evaluate list status) (afterExpr o (cAll S fuel list)) := by
  induction list generalizing status o with
  | nil =>
    unfold evaluateAll cAll afterExpr
    split
    · rename_i ho
      rw [← ho]
      exact Agree.pure hmeans
    · exact Agree.pure hmeans
  | cons s rest ih =>
    unfold evaluateAll cAll
    cases hmeans with
    | normal hok hne =>
      rw [if_pos hok]
      refine (h s List.mem_cons_self).bind fun st o hst => ?_
      exact ih (fun s hs => h s (List.mem_cons_of_mem _ hs)) hst
    | broke => exact Agree.pure .broke
    | continued => exact Agree.pure .continued
    | returned => exact Agree.pure .returned
    | failed hok hne =>
      rw [if_neg (by rw [hok]; decide)]
      exact Agree.pure (.failed hok hne)

theorem agree_tdi1Statement {list : List (Stmt ε)}
    (h : ∀ s ∈ list, Agree Means (l.evaluate s) (c S fuel s)) :
    Agree Means (tdi1Statement fuel l list) (cAll S fuel list) :=
  agree_handleGoto (agree_evaluateAll h means_success)

theorem agree_arm {arm : Stmt ε} (h : Agree Means (l.evaluate arm) (c S fuel arm)) {status : ℤ}
    (hok : isOk status = true) :
    Agree Means (evaluateAll l.evaluate [arm] status >>= handleGoto l [arm] fuel)
      (c S fuel arm) := by
  refine agree_handleGoto ?_
  unfold evaluateAll
  rw [if_pos hok, ← bind_pure (c S fuel arm)]
  exact h.bind fun st o hst => Agree.pure hst

theorem evaluateAll_of_failed {evaluate : Stmt ε → Run σ ℤ} {list : List (Stmt ε)} {status : ℤ}
    (hok : isOk status = false) : evaluateAll evaluate list status = pure status := by
  cases list with
  | nil => rfl
  | cons s rest =>
    unfold evaluateAll
    rw [if_neg (by rw [hok]; decide)]

theorem agree_tdi1If (hplain : S.Plain) {test : ε} {yes : Stmt ε} {no : Option (Stmt ε)}
    (hyes : Agree Means (l.evaluate yes) (c S fuel yes))
    (hno : ∀ s, no = some s → Agree Means (l.evaluate s) (c S fuel s)) :
    Agree Means (tdi1If S fuel l test yes no) (c S fuel (.ifElse test yes no)) := by
  unfold tdi1If c
  refine (agree_test hplain test).bind ?_
  rintro ⟨value, status⟩ b hb
  cases hb with
  | ok hok hst =>
    by_cases hvalue : isOk value = true
    · simp only [hvalue, afterTest]
      exact agree_arm hyes hok
    · simp only [Bool.eq_false_iff.2 hvalue, afterTest]
      cases no with
      | none =>
        have hfound : notFound status = status := if_neg hst.2.2.2.2
        simp only [hfound, cElse]
        exact Agree.pure (.normal hok hst.2.2.2.2)
      | some no => exact agree_arm (hno no rfl) hok
  | error hok hst =>
    have hmeans : Means status (.failed status) := .failed hok hst
    have harm (arm : Stmt ε) : Agree Means
        (evaluateAll l.evaluate [arm] status >>= handleGoto l [arm] fuel)
        (pure (.failed status)) := by
      rw [evaluateAll_of_failed hok, pure_bind, handleGoto_of_means hmeans]
      exact Agree.pure hmeans
    by_cases hvalue : isOk value
    · simp only [if_pos hvalue]
      exact harm yes
    · simp only [if_neg hvalue]
      cases no with
      | none =>
        have hfound : notFound status = status := if_neg hst.2.2.2.2
        simp only [hfound]
        exact Agree.pure hmeans
      | some no => exact harm no

theorem endLoop_of_plain {status : ℤ} (h : Plain status) : endLoop status = status := if_neg h.1

theorem agree_endLoop {status : ℤ} {o : Outcome} (h : Means status o)
    (hend : o ≠ .normal ∧ o ≠ .continued) (goOn : Run σ Outcome) :
    Agree Means (pure status >>= fun st => (pure (endLoop st) : Run σ ℤ)) (afterBody o goOn) := by
  rw [pure_bind]
  cases h with
  | normal hok hne => exact absurd rfl hend.1
  | broke => exact Agree.pure means_success
  | continued => exact absurd rfl hend.2
  | returned => exact Agree.pure .returned
  | failed hok hst =>
    rw [endLoop_of_plain hst]
    exact Agree.pure (.failed hok hst)

theorem Means.goesOn {status : ℤ} {o : Outcome} (h : Means status o) :
    (isOk status || decide (status = TdiCONTINUE)) = true ∧ (o = .normal ∨ o = .continued) ∨
      (isOk status || decide (status = TdiCONTINUE)) = false ∧ o ≠ .normal ∧ o ≠ .continued := by
  cases h with
  | normal hok hne => exact Or.inl ⟨by rw [hok]; rfl, Or.inl rfl⟩
  | broke => exact Or.inr (by decide)
  | continued => exact Or.inl (by decide)
  | returned => exact Or.inr (by decide)
  | failed hok hst =>
    refine Or.inr ⟨?_, by simp, by simp⟩
    rw [hok, Bool.false_or, decide_eq_false_iff_not]
    exact hst.2.1

theorem afterBody_goOn {o : Outcome} (h : o = .normal ∨ o = .continued) (goOn : Run σ Outcome) :
    afterBody o goOn = goOn := by
  rcases h with rfl | rfl <;> rfl

theorem agree_afterTest {value status : ℤ} {b : Except ℤ Bool} (h : TestMeans (value, status) b)
    {goOn : Run σ ℤ} {yes : Run σ Outcome}
    (hyes : Agree Means (goOn >>= fun st => pure (endLoop st)) yes) :
    Agree Means ((if !isOk status || !isOk value then pure status else goOn) >>=
        fun st => pure (endLoop st)) (afterTest b yes (pure .normal)) := by
  cases h with
  | ok hok hst =>
    rcases hvalue : isOk value with _ | _
    · rw [if_pos (by simp), pure_bind, endLoop_of_plain hst]
      exact Agree.pure (.normal hok hst.2.2.2.2)
    · rw [if_neg (by simp [hok])]
      exact hyes
  | error hok hst =>
    rw [if_pos (by simp [hok]), pure_bind, endLoop_of_plain hst]
    exact Agree.pure (.failed hok hst)

theorem agree_whileStatus (hplain : S.Plain) {test : ε} {body : List (Stmt ε)}
    (hbody : Agree Means (l.statement body) (cAll S fuel body)) (n : ℕ) {status : ℤ} {o : Outcome}
    (h : Means status o) :
    Agree Means (whileStatus S l test body n status >>= fun st => pure (endLoop st))
      (afterBody o (cWhile (cTest S test) (cAll S fuel body) n)) := by
  induction n generalizing status o with
  | zero =>
    unfold whileStatus cWhile
    rcases h.goesOn with ⟨hgo, ho⟩ | ⟨hgo, ho⟩
    · rw [if_pos hgo, afterBody_goOn ho]
      exact Agree.failure
    · rw [if_neg (by rw [hgo]; decide)]
      exact agree_endLoop h ho _
  | succ n ih =>
    unfold whileStatus cWhile
    rcases h.goesOn with ⟨hgo, ho⟩ | ⟨hgo, ho⟩
    · rw [if_pos hgo, afterBody_goOn ho, bind_assoc]
      refine (agree_test hplain test).bind ?_
      rintro ⟨value, st⟩ b hb
      refine agree_afterTest hb ?_
      rw [bind_assoc]
      exact hbody.bind fun st' o' hst' => ih hst'
    · rw [if_neg (by rw [hgo]; decide)]
      exact agree_endLoop h ho _

theorem agree_doStatus (hplain : S.Plain) {test : ε} {body : List (Stmt ε)}
    (hbody : Agree Means (l.statement body) (cAll S fuel body)) (n : ℕ) :
    Agree Means (doStatus S l test body n >>= fun st => pure (endLoop st))
      (cDo (cTest S test) (cAll S fuel body) n) := by
  induction n with
  | zero =>
    unfold doStatus cDo
    exact Agree.failure
  | succ n ih =>
    unfold doStatus cDo
    rw [bind_assoc]
    refine hbody.bind fun status o h => ?_
    rcases h.goesOn with ⟨hgo, ho⟩ | ⟨hgo, ho⟩
    · rw [if_pos hgo, afterBody_goOn ho, bind_assoc]
      refine (agree_test hplain test).bind ?_
      rintro ⟨value, st⟩ b hb
      have hswap : (if isOk st && isOk value then doStatus S l test body n else pure st) =
          if !isOk st || !isOk value then pure st else doStatus S l test body n := by
        cases isOk st <;> cases isOk value <;> rfl
      simp only [hswap]
      exact agree_afterTest hb ih
    · rw [if_neg (by rw [hgo]; decide)]
      exact agree_endLoop h ho _

theorem agree_forStatus (hplain : S.Plain) {test update : Option ε} {body : List (Stmt ε)}
    (hbody : Agree Means (l.statement body) (cAll S fuel body))
    (hupdate : Agree ExprMeans (evaluateOpt l update) (cExprOpt S update)) (n : ℕ) {status : ℤ}
    {o : Outcome} (h : ExprMeans status o) :
    Agree Means (forStatus S l test update body n status >>= fun st => pure (endLoop st))
      (afterExpr o (cFor (cTestOpt S test) (cExprOpt S update) (cAll S fuel body) n)) := by
  have hfailed (n : ℕ) {st : ℤ} (hst : isOk st = false) :
      forStatus S l test update body n st = pure st := by
    cases n with
    | zero => rw [forStatus, if_neg (by rw [hst]; decide)]
    | succ n => rw [forStatus, if_neg (by rw [hst]; decide)]
  induction n generalizing status o with
  | zero =>
    cases h with
    | normal hok hst =>
      unfold forStatus cFor
      rw [if_pos hok]
      exact Agree.failure
    | failed hok hst =>
      rw [hfailed 0 hok, pure_bind, endLoop_of_plain hst]
      exact Agree.pure (.failed hok hst)
  | succ n ih =>
    cases h with
    | failed hok hst =>
      rw [hfailed (n + 1) hok, pure_bind, endLoop_of_plain hst]
      exact Agree.pure (.failed hok hst)
    | normal hok hst =>
      have htest : Agree TestMeans (testOpt S status test) (cTestOpt S test) := by
        cases test with
        | some e => exact agree_test hplain e
        | none => exact Agree.pure (.ok hok hst)
      unfold forStatus cFor
      rw [if_pos hok, bind_assoc]
      refine htest.bind ?_
      rintro ⟨value, st⟩ b hb
      refine agree_afterTest hb ?_
      rw [bind_assoc]
      refine hbody.bind fun st' o' hst' => ?_
      rcases hst'.goesOn with ⟨hgo, ho⟩ | ⟨hgo, ho⟩
      · rw [if_pos hgo, afterBody_goOn ho, bind_assoc]
        exact hupdate.bind fun st'' o'' hst'' => ih hst''
      · have hnot : isOk st' = false := (Bool.or_eq_false_iff.1 hgo).1
        rw [if_neg (by rw [hgo]; decide), hfailed n hnot]
        exact agree_endLoop hst' ho _

theorem agree_evaluateIf (hexpr : ∀ e, Agree ExprMeans (l.evaluate (.expr e)) (cExpr S e))
    (value : Option ε) : Agree ExprMeans (evaluateIf l value) (cExprOpt S value) := by
  cases value with
  | some e => exact hexpr e
  | none => exact Agree.pure (.normal (by decide) plain_success)

theorem agree_tdi1For (hplain : S.Plain) {init test update : Option ε} {body : List (Stmt ε)}
    (hexpr : ∀ e, Agree ExprMeans (l.evaluate (.expr e)) (cExpr S e))
    (hnull : Agree ExprMeans (l.evaluate .null) (pure .normal))
    (hbody : Agree Means (l.statement body) (cAll S fuel body)) :
    Agree Means (tdi1For S fuel l init test update body)
      (c S fuel (.forLoop init test update body)) := by
  have hupdate : Agree ExprMeans (evaluateOpt l update) (cExprOpt S update) := by
    cases update with
    | some e => exact hexpr e
    | none => exact hnull
  unfold tdi1For c
  exact (agree_evaluateIf hexpr init).bind fun status o h => agree_forStatus hplain hbody hupdate fuel h

theorem agree_tdi1Return {value : Option ε}
    (hexpr : ∀ e, Agree ExprMeans (l.evaluate (.expr e)) (cExpr S e)) :
    Agree Means (tdi1Return l value) (c S fuel (.returnStmt value)) := by
  unfold tdi1Return c
  refine (agree_evaluateIf hexpr value).bind fun status o h => ?_
  cases h with
  | normal hok hst =>
    rw [if_pos hok]
    exact Agree.pure .returned
  | failed hok hst =>
    rw [if_neg (by rw [hok]; decide)]
    exact Agree.pure (.failed hok hst)

end Level

/-! ### All depths -/

theorem tdiIntrinsic_some {least most narg : ℕ} (hleast : least ≤ narg) (hmost : narg ≤ most)
    (f : Run σ ℤ) : tdiIntrinsic least most narg (some f) = f := by
  unfold tdiIntrinsic
  rw [if_neg (Nat.not_lt.2 hleast), if_neg (Nat.not_lt.2 hmost)]
  rfl

theorem fits_of_mem {d : ℕ} {list : List (Stmt ε)} (h : FitsAll d list) {s : Stmt ε}
    (hs : s ∈ list) : Fits d s := by
  induction list with
  | nil => cases hs
  | cons a rest ih =>
    rw [FitsAll] at h
    rcases List.mem_cons.1 hs with rfl | hs
    · exact h.1
    · exact ih h.2 hs

variable {S : Exprs ε σ} (fuel : ℕ)

theorem evaluate_intrinsic {d : ℕ} {s : Stmt ε} (hnull : s ≠ .null)
    (hexpr : ∀ e, s ≠ .expr e) :
    (level S fuel (d + 2)).evaluate s = (level S fuel (d + 1)).intrinsic s := by
  change (makeLevel S fuel (some (level S fuel (d + 1)))).evaluate s = _
  unfold makeLevel
  cases s with
  | null => exact absurd rfl hnull
  | expr e => exact absurd rfl (hexpr e)
  | _ => exact tdiIntrinsic_some (Nat.le_refl 1) (Nat.le_refl 1) _

theorem evaluate_statement {d : ℕ} {body : List (Stmt ε)} (hlength : body.length ≤ 254) :
    (level S fuel (d + 2)).evaluate (.statement body) =
      tdi1Statement fuel (level S fuel d) body :=
  (evaluate_intrinsic fuel (by simp) (by simp)).trans
    (tdiIntrinsic_some (Nat.zero_le _) hlength _)

theorem evaluate_whileLoop {d : ℕ} {test : ε} {body : List (Stmt ε)} (hleast : 1 ≤ body.length)
    (hmost : body.length ≤ 253) :
    (level S fuel (d + 2)).evaluate (.whileLoop test body) =
      tdi1While S fuel (level S fuel d) test body :=
  (evaluate_intrinsic fuel (by simp) (by simp)).trans
    (tdiIntrinsic_some (by omega) (by omega) _)

theorem agree_expr (hplain : S.Plain) (d : ℕ) (e : ε) :
    Agree ExprMeans ((level S fuel (d + 1)).evaluate (.expr e)) (cExpr S e) := by
  have h : (level S fuel (d + 1)).evaluate (.expr e) = S.value e :=
    tdiIntrinsic_some (Nat.le_refl 1) (Nat.le_refl 1) _
  rw [h]
  exact agree_value hplain e

theorem agree_null (d : ℕ) :
    Agree ExprMeans ((level S fuel (d + 1)).evaluate .null) (pure .normal) := by
  have h : (level S fuel (d + 1)).evaluate .null = pure MDSplusSUCCESS :=
    tdiIntrinsic_some (Nat.le_refl 1) (Nat.le_refl 1) _
  rw [h]
  exact Agree.pure (.normal (by decide) plain_success)

theorem Agree.mono {R Q : α → β → Prop} {m : Run σ α} {r : Run σ β} (h : Agree R m r)
    (hRQ : ∀ a b, R a b → Q a b) : Agree Q m r := by
  intro s
  have hs := h s
  generalize m s = x at hs
  generalize r s = y at hs ⊢
  cases hs with
  | none => exact Option.Rel.none
  | some hab => exact Option.Rel.some ⟨hRQ _ _ hab.1, hab.2⟩

theorem agree_level (hplain : S.Plain) (d : ℕ) (s : Stmt ε) (hfits : Fits d s) :
    Agree Means ((level S fuel d).evaluate s) (c S fuel s) := by
  induction d using Nat.strongRecOn generalizing s with
  | ind d ih =>
  have hstatement {k : ℕ} (hk : k + 1 < d) {list : List (Stmt ε)} (hlength : list.length ≤ 254)
      (hall : FitsAll k list) :
      Agree Means ((level S fuel (k + 1)).statement list) (cAll S fuel list) := by
    have h : (level S fuel (k + 1)).statement list = tdi1Statement fuel (level S fuel k) list :=
      tdiIntrinsic_some (Nat.zero_le _) hlength _
    rw [h]
    exact agree_tdi1Statement fun s hs => ih k (by omega) s (fits_of_mem hall hs)
  cases s with
  | null =>
    obtain ⟨k, rfl⟩ : ∃ k, d = k + 1 := Nat.exists_eq_succ_of_ne_zero (by
      rw [Fits] at hfits
      omega)
    exact (agree_null fuel k).mono fun _ _ h => h.means
  | expr e =>
    obtain ⟨k, rfl⟩ : ∃ k, d = k + 1 := Nat.exists_eq_succ_of_ne_zero (by
      rw [Fits] at hfits
      omega)
    exact (agree_expr fuel hplain k e).mono fun _ _ h => h.means
  | statement body =>
    rw [Fits] at hfits
    obtain ⟨hd, hlength, hall⟩ := hfits
    obtain ⟨k, rfl⟩ := Nat.exists_eq_add_of_le' hd
    rw [evaluate_statement fuel hlength, c]
    exact agree_tdi1Statement fun s hs => ih k (by omega) s (fits_of_mem hall hs)
  | ifElse test yes no =>
    rw [Fits] at hfits
    obtain ⟨hd, hyes, hno⟩ := hfits
    obtain ⟨k, rfl⟩ := Nat.exists_eq_add_of_le' hd
    have h : (level S fuel (k + 2)).evaluate (.ifElse test yes no) =
        tdi1If S fuel (level S fuel k) test yes no :=
      (evaluate_intrinsic fuel (by simp) (by simp)).trans
        (tdiIntrinsic_some (by split <;> omega) (by split <;> omega) _)
    rw [h]
    refine agree_tdi1If hplain (ih k (by omega) yes hyes) ?_
    rintro s rfl
    rw [FitsElse] at hno
    exact ih k (by omega) s hno
  | whileLoop test body =>
    rw [Fits] at hfits
    obtain ⟨hd, hleast, hmost, hall⟩ := hfits
    obtain ⟨k, rfl⟩ := Nat.exists_eq_add_of_le' hd
    rw [evaluate_whileLoop fuel hleast hmost, c]
    exact agree_whileStatus hplain (hstatement (by omega) (by omega) hall) fuel means_success
  | forLoop init test update body =>
    rw [Fits] at hfits
    obtain ⟨hd, hleast, hmost, hall⟩ := hfits
    obtain ⟨k, rfl⟩ := Nat.exists_eq_add_of_le' hd
    have h : (level S fuel (k + 3)).evaluate (.forLoop init test update body) =
        tdi1For S fuel (level S fuel (k + 1)) init test update body :=
      (evaluate_intrinsic fuel (by simp) (by simp)).trans
        (tdiIntrinsic_some (by omega) (by omega) _)
    rw [h]
    exact agree_tdi1For hplain (agree_expr fuel hplain k) (agree_null fuel k)
      (hstatement (by omega) (by omega) hall)
  | doLoop test body =>
    rw [Fits] at hfits
    obtain ⟨hd, hleast, hmost, hall⟩ := hfits
    obtain ⟨k, rfl⟩ := Nat.exists_eq_add_of_le' hd
    have h : (level S fuel (k + 3)).evaluate (.doLoop test body) =
        tdi1Do S fuel (level S fuel (k + 1)) test body :=
      (evaluate_intrinsic fuel (by simp) (by simp)).trans
        (tdiIntrinsic_some (by omega) (by omega) _)
    rw [h, c]
    exact agree_doStatus hplain (hstatement (by omega) (by omega) hall) fuel
  | breakStmt =>
    rw [Fits] at hfits
    obtain ⟨k, rfl⟩ := Nat.exists_eq_add_of_le' hfits
    have h : (level S fuel (k + 2)).evaluate .breakStmt = pure TdiBREAK :=
      (evaluate_intrinsic fuel (by simp) (by simp)).trans
        (tdiIntrinsic_some (Nat.le_refl 0) (Nat.le_refl 0) _)
    rw [h, c]
    exact Agree.pure .broke
  | continueStmt =>
    rw [Fits] at hfits
    obtain ⟨k, rfl⟩ := Nat.exists_eq_add_of_le' hfits
    have h : (level S fuel (k + 2)).evaluate .continueStmt = pure TdiCONTINUE :=
      (evaluate_intrinsic fuel (by simp) (by simp)).trans
        (tdiIntrinsic_some (Nat.le_refl 0) (Nat.le_refl 0) _)
    rw [h, c]
    exact Agree.pure .continued
  | returnStmt value =>
    rw [Fits] at hfits
    obtain ⟨k, rfl⟩ := Nat.exists_eq_add_of_le' hfits
    have h : (level S fuel (k + 3)).evaluate (.returnStmt value) =
        tdi1Return (level S fuel (k + 1)) value :=
      (evaluate_intrinsic fuel (by simp) (by simp)).trans
        (tdiIntrinsic_some (Nat.zero_le _) (by split <;> omega) _)
    rw [h]
    exact agree_tdi1Return (agree_expr fuel hplain k)

/-- With the same fuel the code and C end or do not end, in the same state and with the same
outcome. -/
theorem evaluate_eq_c (hplain : S.Plain) {d : ℕ} {s : Stmt ε} (hfits : Fits d s) (st : σ) :
    ((level S fuel d).evaluate s st).map (fun r => (Outcome.ofStatus r.1, r.2)) =
      c S fuel s st := by
  have h := agree_level fuel hplain d s hfits st
  generalize (level S fuel d).evaluate s st = x at h
  generalize c S fuel s st = y at h ⊢
  cases h with
  | none => rfl
  | some hab =>
    obtain ⟨hmeans, hstate⟩ := hab
    exact congrArg some (Prod.ext hmeans.ofStatus hstate)

/-- Expressions by number, which are noted in order; a test is true three times. -/
def noting : Exprs ℕ (List ℕ) where
  evaluate n s := (MDSplusSUCCESS, s ++ [n])
  getLong n s := ((if s.length < 7 then 1 else 0, MDSplusSUCCESS), s ++ [n])

def leftEarly : Stmt ℕ := .whileLoop 1 [.statement [.expr 2, .continueStmt, .expr 3]]

theorem evaluate_leftEarly :
    ((level noting 5 maxDepth).evaluate leftEarly []).map
        (fun r => (Outcome.ofStatus r.1, r.2)) = c noting 5 leftEarly [] ∧
      c noting 5 leftEarly [] = some (.normal, [1, 2, 1, 2, 1, 2, 1, 2, 1]) := by
  refine ⟨evaluate_eq_c 5 (fun _ _ => ⟨plain_success, plain_success⟩) ?_ [], by decide⟩
  simp [leftEarly, Fits, FitsAll, maxDepth]

/-- Blocks within blocks. -/
def nested : ℕ → Stmt ε
  | 0 => .null
  | n + 1 => .statement [nested n]

theorem evaluate_nested (n d : ℕ) (h : d < 2 * n + 1) (st : σ) :
    (level S fuel d).evaluate (nested n) st = some (TdiRECURSIVE, st) := by
  induction n generalizing d with
  | zero =>
    obtain rfl : d = 0 := by omega
    rfl
  | succ n ih =>
    rcases d with _ | _ | d
    · rfl
    · rfl
    · have hrun := ih d (by omega)
      have hall : evaluateAll (level S fuel d).evaluate [nested n] MDSplusSUCCESS st =
          some (TdiRECURSIVE, st) := by
        change ((level S fuel d).evaluate (nested n) st).bind _ = _
        rw [hrun]
        rfl
      have hmeans : Means TdiRECURSIVE (.failed TdiRECURSIVE) :=
        .failed (by decide) (by unfold Plain; decide)
      have hgoto : handleGoto (level S fuel d) [nested n] fuel TdiRECURSIVE st =
          some (TdiRECURSIVE, st) := by
        rw [handleGoto_of_means hmeans]
        rfl
      rw [nested, evaluate_statement fuel (by simp)]
      change (evaluateAll (level S fuel d).evaluate [nested n] MDSplusSUCCESS st).bind _ = _
      rw [hall]
      exact hgoto

theorem c_nested (n : ℕ) (st : σ) : c S fuel (nested n) st = some (.normal, st) := by
  induction n with
  | zero =>
    unfold nested c
    rfl
  | succ n ih =>
    unfold nested c cAll cAll
    change (c S fuel (nested n) st).bind _ = _
    rw [ih]
    rfl

/-- Every expression fails as a function does that is left by a break. -/
def breaking : Exprs Unit Unit where
  evaluate _ s := (TdiBREAK, s)
  getLong _ s := ((0, TdiBREAK), s)

/-- The failure of a test is lost when it has the status of a break, and blocks are too deep
at some depth. -/
theorem evaluate_breaking :
    ((level breaking 5 maxDepth).evaluate (.whileLoop () [.null]) () =
        some (MDSplusSUCCESS, ()) ∧
      c breaking 5 (.whileLoop () [.null]) () = some (.failed TdiBREAK, ())) ∧
    ((level noting 5 maxDepth).evaluate (nested 901) [] = some (TdiRECURSIVE, []) ∧
      c noting 5 (nested 901) [] = some (.normal, [])) := by
  refine ⟨⟨?_, by decide⟩, evaluate_nested 5 901 maxDepth (by decide) [], c_nested 5 901 []⟩
  change (level breaking 5 (1799 + 2)).evaluate _ () = _
  rw [evaluate_whileLoop 5 (by simp) (by simp)]
  rfl

end MdsPlus.LoopRuns
