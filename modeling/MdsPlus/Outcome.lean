import Mathlib.Tactic.Common

/-!
Computations that may fail and runs of them. A sequence of steps is run from left
to right and stops at the first failure; what every step preserves holds after the
whole run.
-/

namespace MdsPlus.Outcome

universe u v

variable {ε : Type u} {α β : Type v}

theorem bind_eq_ok {x : Except ε α} {f : α → Except ε β} {r : β} :
    (x >>= f) = .ok r ↔ ∃ a, x = .ok a ∧ f a = .ok r := by
  cases x with
  | error e => simp [bind, Except.bind]
  | ok a => simp [bind, Except.bind]

theorem ok_bind (a : α) (f : α → Except ε β) : (Except.ok a >>= f) = f a := rfl

theorem ite_error_eq_ok {p : Prop} [Decidable p] {e : ε} {x : Except ε α} {r : α} :
    (if p then .error e else x) = .ok r ↔ ¬ p ∧ x = .ok r := by
  by_cases hp : p
  · simp [hp]
  · simp [hp]

theorem exists_value {γ : Type*} {x : Except ε α} (value : α → γ) {c : γ}
    (h : x.toOption.map value = some c) : ∃ a, x = .ok a ∧ value a = c := by
  cases x with
  | error e => cases h
  | ok a => exact ⟨a, rfl, Option.some.inj h⟩

section Lists

universe w

variable {ι : Type w}

theorem mapM_eq_ok_iff {f : ι → Except ε α} {g : ι → α} (l : List ι) :
    l.mapM f = .ok (l.map g) ↔ ∀ i ∈ l, f i = .ok (g i) := by
  induction l with
  | nil => exact iff_of_true rfl nofun
  | cons i l ih =>
    rw [List.map_cons, List.mapM_cons, List.forall_mem_cons, ← ih]
    constructor
    · intro hrun
      obtain ⟨a, ha, hrun⟩ := bind_eq_ok.1 hrun
      obtain ⟨rest, hrest, hrun⟩ := bind_eq_ok.1 hrun
      obtain ⟨rfl, rfl⟩ := List.cons.inj (Except.ok.inj hrun)
      exact ⟨ha, hrest⟩
    · rintro ⟨ha, hrest⟩
      rw [ha, hrest]
      rfl

end Lists

section Runs

variable {σ : Type v} {ι α : Type*}

/-- Take the steps from left to right up to the first failure. -/
def run (step : σ → ι → Except ε σ) : σ → List ι → Except ε σ
  | s, [] => .ok s
  | s, op :: ops => do
      let s ← step s op
      run step s ops

theorem run_append (step : σ → ι → Except ε σ) (s : σ) (ops more : List ι) :
    run step s (ops ++ more) = run step s ops >>= fun s' => run step s' more := by
  induction ops generalizing s with
  | nil => rfl
  | cons op ops ih =>
    rw [List.cons_append, run, run]
    cases h : step s op with
    | error e => rfl
    | ok s1 => exact ih s1

/-- Every step of a run is admissible in the state it is taken from. -/
def Admissible (step : σ → ι → Except ε σ) (ok : σ → ι → Prop) : σ → List ι → Prop
  | _, [] => True
  | s, op :: ops => ok s op ∧ ∀ s', step s op = .ok s' → Admissible step ok s' ops

theorem admissible_append {step : σ → ι → Except ε σ} {ok : σ → ι → Prop} {s : σ}
    {ops more : List ι} (h : Admissible step ok s ops)
    (hmore : ∀ s', run step s ops = .ok s' → Admissible step ok s' more) :
    Admissible step ok s (ops ++ more) := by
  induction ops generalizing s with
  | nil => exact hmore s rfl
  | cons op ops ih =>
    obtain ⟨hok, hrest⟩ := h
    refine ⟨hok, fun s1 h1 => ih (hrest s1 h1) fun s' hs' => hmore s' ?_⟩
    rw [run, h1]
    exact hs'

theorem run_simulates {step : σ → ι → Except ε σ} {ok : σ → ι → Prop} {spec : α → ι → α}
    {rel : σ → α → Prop}
    (hstep : ∀ s a op, rel s a → ok s op → ∃ s', step s op = .ok s' ∧ rel s' (spec a op))
    (s : σ) (a : α) (ops : List ι) (hrel : rel s a) (hadm : Admissible step ok s ops) :
    ∃ s', run step s ops = .ok s' ∧ rel s' (ops.foldl spec a) := by
  induction ops generalizing s a with
  | nil => exact ⟨s, rfl, hrel⟩
  | cons op ops ih =>
    obtain ⟨hok, hrest⟩ := hadm
    obtain ⟨s1, h1, hrel1⟩ := hstep s a op hrel hok
    obtain ⟨s', hrun, hrel'⟩ := ih s1 (spec a op) hrel1 (hrest s1 h1)
    exact ⟨s', by rw [run, h1]; exact hrun, hrel'⟩

theorem run_succeeds {step : σ → ι → Except ε σ} {ok : σ → ι → Prop} (inv : σ → Prop)
    (hstep : ∀ s op, inv s → ok s op → ∃ s', step s op = .ok s' ∧ inv s')
    (s : σ) (ops : List ι) (hinv : inv s) (hadm : Admissible step ok s ops) :
    ∃ s', run step s ops = .ok s' ∧ inv s' := by
  induction ops generalizing s with
  | nil => exact ⟨s, rfl, hinv⟩
  | cons op ops ih =>
    obtain ⟨hok, hrest⟩ := hadm
    obtain ⟨s1, h1, hinv1⟩ := hstep s op hinv hok
    obtain ⟨s', hrun, hinv'⟩ := ih s1 hinv1 (hrest s1 h1)
    exact ⟨s', by rw [run, h1]; exact hrun, hinv'⟩

theorem run_preserves {step : σ → ι → Except ε σ} {ok : σ → ι → Prop} {inv : σ → Prop}
    (hstep : ∀ s op s', inv s → ok s op → step s op = .ok s' → inv s')
    (s : σ) (ops : List ι) (s' : σ) (hinv : inv s) (hadm : Admissible step ok s ops)
    (hrun : run step s ops = .ok s') : inv s' := by
  induction ops generalizing s with
  | nil =>
    cases hrun
    exact hinv
  | cons op ops ih =>
    obtain ⟨hok, hrest⟩ := hadm
    rw [run, bind_eq_ok] at hrun
    obtain ⟨s1, h1, hrun⟩ := hrun
    exact ih s1 (hstep s op s1 hinv hok h1) (hrest s1 h1) hrun

/-- A machine that carries along what its accepted steps should do. -/
def withSpec (step : σ → ι → Except ε σ) {τ : Type v} (spec : τ → ι → τ) (p : σ × τ) (op : ι) :
    Except ε (σ × τ) :=
  (step p.1 op).map fun s => (s, spec p.2 op)

theorem withSpec_eq_ok {step : σ → ι → Except ε σ} {τ : Type v} {spec : τ → ι → τ}
    {p p' : σ × τ} {op : ι} :
    withSpec step spec p op = .ok p' ↔ step p.1 op = .ok p'.1 ∧ p'.2 = spec p.2 op := by
  obtain ⟨s', t'⟩ := p'
  rw [withSpec]
  cases h : step p.1 op with
  | error e => simp [Except.map]
  | ok s => simp [Except.map, eq_comm]

end Runs

end MdsPlus.Outcome
