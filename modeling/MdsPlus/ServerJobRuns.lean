import MdsPlus.ServerJobs

/-!
What every step of the threads keeps of the jobs, and from that what holds in every run in which
no job is removed that a thread waits for or works on.
-/

namespace MdsPlus.ServerJobs

open Outcome

/-! ### Jobs and the threads that refer to them -/

namespace Activity

def refers : Activity → Option ℕ
  | asleep a | woken a | starting a | finishing a _ | popping a => some a
  | cleaning _ (some (a, _)) => some a
  | _ => none

/-- Where a thread is in `Job_callback_done`, and for which job. -/
def phase : Activity → Option (ℕ × Finishing)
  | finishing a p => some (a, p)
  | cleaning _ popped => popped
  | _ => none

end Activity

def Job.Whole (j : Job) : Prop :=
  j.monitor = true ∨ j.callbackDone = (!j.finished && j.given)

def Finishing.Fits (j : Job) : Finishing → Prop
  | .found => j.Whole
  | .taken _ callback =>
      j.monitor = true ∨ j.callbackDone = false ∧ callback = (!j.finished && j.given)
  | .called _ => j.finished = true ∧ j.Whole

structure Job.Ok (j : Job) : Prop where
  counted : j.monitor = false → j.called = (j.finished && j.given).toNat
  signalled : j.condVar = true → j.finished = true
  freed : j.freed = true → j.finished = true

def ThreadOk (s : Jobs) (t : ℕ) : Activity → Prop
  | .asleep a => a ∈ s.jobs ∧ (s.job a).cond = true ∧ (s.job a).condVar = false
  | .woken a => a ∈ s.jobs ∧ (s.job a).cond = true ∧ (s.job a).condVar = true
  | .starting a => t = receiver ∧ a ∈ s.jobs ∧ ((s.job a).cond = true → (s.job a).condVar = false)
  | .finishing a p =>
      t = receiver ∧ a ∈ s.jobs ∧ ((s.job a).cond = true → (s.job a).condVar = false) ∧
        p.Fits (s.job a)
  | .popping a =>
      t = receiver ∧ a ∈ s.jobs ∧ (s.job a).cond = false ∧ (s.job a).finished = true
  | .cleaning _ (some (a, p)) =>
      a < s.registered ∧ a ∉ s.jobs ∧ (s.job a).freed = false ∧ p.Fits (s.job a)
  | .unknown _ => t = receiver
  | _ => True

def Taking (x : Activity) (a : ℕ) : Prop :=
  ∃ isMon callback, x.phase = some (a, .taken isMon callback)

structure Inv (s : Jobs) : Prop where
  unfreed : s.usedFreed = false
  few : s.registered ≤ noMonJob
  mon : s.monJob = noMonJob ∨ s.monJob < s.registered
  monitors : ∀ a < s.registered, jobid a = s.monJob → (s.job a).monitor = true
  listed : ∀ a ∈ s.jobs, a < s.registered ∧ (s.job a).freed = false
  nodup : s.jobs.Nodup
  threads : ∀ t, ThreadOk s t (s.thread t)
  oneWaiter : ∀ t u a, (s.thread t).waitsFor = some a → (s.thread u).waitsFor = some a → t = u
  oneCleaner : ∀ t u a, (s.thread t).cleans = some a → (s.thread u).cleans = some a → t = u
  ok : ∀ a, (s.job a).Ok
  whole : ∀ a, (s.job a).Whole ∨ ∃ t, Taking (s.thread t) a
  released : ∀ a ∈ s.released, a < s.registered ∧ (s.job a).finished = true
  accounted : ∀ a < s.registered,
    a ∈ s.jobs ∨ (s.job a).freed = true ∨ ∃ t, (s.thread t).cleans = some a

theorem inv_noJobs : Inv noJobs where
  unfreed := rfl
  few := Nat.zero_le _
  mon := .inl rfl
  monitors _ h := nomatch h
  listed _ h := nomatch h
  nodup := List.nodup_nil
  threads _ := trivial
  oneWaiter _ _ _ h := nomatch h
  oneCleaner _ _ _ h := nomatch h
  ok _ := ⟨fun _ => rfl, nofun, nofun⟩
  whole _ := .inl (.inr rfl)
  released _ h := nomatch h
  accounted _ h := nomatch h

section Threads

variable {s s' : Jobs} {t u a : ℕ} {x y : Activity}

theorem refers_of_waitsFor (h : x.waitsFor = some a) : x.refers = some a := by
  cases x <;> first | cases h; rfl | cases h

theorem refers_of_answers (h : x.answers = some a) : x.refers = some a := by
  cases x <;> first | cases h; rfl | cases h

theorem refers_of_cleans (h : x.cleans = some a) : x.refers = some a := by
  cases x with
  | cleaning conid popped =>
    cases popped with
    | none => cases h
    | some ap => cases h; rfl
  | _ => cases h

theorem refers_of_phase {p : Finishing} (h : x.phase = some (a, p)) : x.refers = some a := by
  cases x with
  | finishing b q => cases h; rfl
  | cleaning conid popped => cases h; rfl
  | _ => cases h

theorem refers_cases (h : x.refers = some a) :
    x.waitsFor = some a ∨ x.answers = some a ∨ x.cleans = some a := by
  cases x with
  | asleep b => exact .inl h
  | woken b => exact .inl h
  | starting b => exact .inr (.inl h)
  | finishing b p => exact .inr (.inl h)
  | popping b => exact .inr (.inl h)
  | cleaning conid popped =>
    cases popped with
    | none => cases h
    | some ap => exact .inr (.inr h)
  | idle => cases h
  | unknown r => cases h

theorem ThreadOk.waits (h : ThreadOk s t x) (hx : x.waitsFor = some a) :
    a ∈ s.jobs ∧ (s.job a).cond = true := by
  cases x with
  | asleep b => cases hx; exact ⟨h.1, h.2.1⟩
  | woken b => cases hx; exact ⟨h.1, h.2.1⟩
  | _ => cases hx

theorem ThreadOk.answers (h : ThreadOk s t x) (hx : x.answers = some a) :
    t = receiver ∧ a ∈ s.jobs ∧ ((s.job a).cond = true → (s.job a).condVar = false) := by
  cases x with
  | starting b => cases hx; exact h
  | finishing b p => cases hx; exact ⟨h.1, h.2.1, h.2.2.1⟩
  | popping b =>
    cases hx
    refine ⟨h.1, h.2.1, fun hcond => ?_⟩
    exact absurd (h.2.2.1.symm.trans hcond) nofun
  | _ => cases hx

theorem ThreadOk.cleans (h : ThreadOk s t x) (hx : x.cleans = some a) :
    a < s.registered ∧ a ∉ s.jobs ∧ (s.job a).freed = false := by
  cases x with
  | cleaning conid popped =>
    cases popped with
    | none => cases hx
    | some ap => cases hx; exact ⟨h.1, h.2.1, h.2.2.1⟩
  | _ => cases hx

theorem ThreadOk.fits {p : Finishing} (h : ThreadOk s t x) (hx : x.phase = some (a, p)) :
    p.Fits (s.job a) := by
  cases x with
  | finishing b q => cases hx; exact h.2.2.2
  | cleaning conid popped => cases hx; exact h.2.2.2
  | _ => cases hx

theorem Inv.refers (hs : Inv s) (h : (s.thread t).refers = some a) :
    a < s.registered ∧ (s.job a).freed = false := by
  obtain hw | ha | hc := refers_cases h
  · exact hs.listed a ((hs.threads t).waits hw).1
  · exact hs.listed a ((hs.threads t).answers ha).2.1
  · obtain ⟨hlt, -, hfreed⟩ := (hs.threads t).cleans hc
    exact ⟨hlt, hfreed⟩

structure Job.LooksLike (j' j : Job) : Prop where
  cond : j'.cond = j.cond
  condVar : j'.condVar = j.condVar
  finished : j'.finished = j.finished
  freed : j'.freed = j.freed
  fits : ∀ {p : Finishing}, p.Fits j → p.Fits j'

theorem ThreadOk.of_looksLike (h : ThreadOk s u x) (hreg : s.registered ≤ s'.registered)
    (hmem : ∀ b, x.refers = some b → (b ∈ s'.jobs ↔ b ∈ s.jobs))
    (hjob : ∀ b, x.refers = some b → (s'.job b).LooksLike (s.job b)) : ThreadOk s' u x := by
  cases x with
  | asleep b | woken b | starting b =>
    rw [ThreadOk, hmem b rfl, (hjob b rfl).cond, (hjob b rfl).condVar]
    exact h
  | finishing b p =>
    rw [ThreadOk, hmem b rfl, (hjob b rfl).cond, (hjob b rfl).condVar]
    exact ⟨h.1, h.2.1, h.2.2.1, (hjob b rfl).fits h.2.2.2⟩
  | popping b =>
    rw [ThreadOk, hmem b rfl, (hjob b rfl).cond, (hjob b rfl).finished]
    exact h
  | cleaning conid popped =>
    cases popped with
    | none => trivial
    | some bp =>
      rw [ThreadOk, hmem bp.1 rfl, (hjob bp.1 rfl).freed]
      exact ⟨Nat.lt_of_lt_of_le h.1 hreg, h.2.1, h.2.2.1, (hjob bp.1 rfl).fits h.2.2.2⟩
  | idle => trivial
  | unknown r => exact h

theorem ThreadOk.frame (h : ThreadOk s u x) (hreg : s.registered ≤ s'.registered)
    (hmem : ∀ b, x.refers = some b → (b ∈ s'.jobs ↔ b ∈ s.jobs))
    (hjob : ∀ b, x.refers = some b → s'.job b = s.job b) : ThreadOk s' u x :=
  h.of_looksLike hreg hmem fun b hb =>
    (hjob b hb).symm ▸ ⟨rfl, rfl, rfl, rfl, id⟩

theorem Inv.phase_unique (hs : Inv s) {p q : Finishing}
    (ht : (s.thread t).phase = some (a, p)) (hu : (s.thread u).phase = some (a, q)) : t = u := by
  have hok := hs.threads t
  have hok' := hs.threads u
  have hclean := hs.oneCleaner t u a
  cases hx : s.thread t with
  | finishing b r =>
    rw [hx] at ht hok
    cases ht
    cases hy : s.thread u with
    | finishing c r' =>
      rw [hy] at hok'
      exact hok.1.trans hok'.1.symm
    | cleaning conid popped =>
      rw [hy] at hu hok'
      cases hu
      exact absurd hok.2.1 hok'.2.1
    | _ => rw [hy] at hu; cases hu
  | cleaning conid popped =>
    rw [hx] at ht hok hclean
    cases ht
    cases hy : s.thread u with
    | finishing c r' =>
      rw [hy] at hu hok'
      cases hu
      exact absurd hok'.2.1 hok.2.1
    | cleaning conid' popped' =>
      rw [hy] at hu hclean
      cases hu
      exact hclean rfl rfl
    | _ => rw [hy] at hu; cases hu
  | _ => rw [hx] at ht; cases ht

end Threads

/-! ### What a step preserves -/

section Steps

variable {s s' : Jobs} {t a : ℕ} {y : Activity}

theorem goes_self (s : Jobs) (t : ℕ) (y : Activity) : (goes s t y).thread t = y := by
  simp only [goes, Function.update_self]

theorem goes_of_ne (s : Jobs) {t u : ℕ} (y : Activity) (h : u ≠ t) :
    (goes s t y).thread u = s.thread u := by
  simp only [goes, Function.update_of_ne h]

theorem inv_goes (hs : Inv s) (hy : ThreadOk s t y) (hclean : (s.thread t).cleans = none)
    (htaking : ∀ a, ¬ Taking (s.thread t) a) (hclean' : y.cleans = none)
    (hwaits : ∀ a, y.waitsFor = some a → ∀ u, (s.thread u).waitsFor ≠ some a) :
    Inv (goes s t y) := by
  refine { hs with
    threads := fun u => ?_
    oneWaiter := fun u v b hu hv => ?_
    oneCleaner := fun u v b hu hv => ?_
    whole := fun b => ?_
    accounted := fun b hb => ?_ }
  · by_cases hut : u = t
    · subst hut
      rw [goes_self]
      exact hy
    · rw [goes_of_ne s y hut]
      exact hs.threads u
  · by_cases hut : u = t
    · subst hut
      by_cases hvt : v = u
      · exact hvt.symm
      · rw [goes_self] at hu
        rw [goes_of_ne s y hvt] at hv
        exact absurd hv (hwaits b hu v)
    · rw [goes_of_ne s y hut] at hu
      by_cases hvt : v = t
      · subst hvt
        rw [goes_self] at hv
        exact absurd hu (hwaits b hv u)
      · rw [goes_of_ne s y hvt] at hv
        exact hs.oneWaiter u v b hu hv
  · have hne : ∀ w, ((goes s t y).thread w).cleans = some b → w ≠ t := by
      rintro w hw rfl
      rw [goes_self, hclean'] at hw
      cases hw
    rw [goes_of_ne s y (hne u hu)] at hu
    rw [goes_of_ne s y (hne v hv)] at hv
    exact hs.oneCleaner u v b hu hv
  · obtain hwhole | ⟨u, hu⟩ := hs.whole b
    · exact .inl hwhole
    · have hut : u ≠ t := by
        rintro rfl
        exact htaking b hu
      refine .inr ⟨u, ?_⟩
      rw [goes_of_ne s y hut]
      exact hu
  · obtain hmem | hfreed | ⟨u, hu⟩ := hs.accounted b hb
    · exact .inl hmem
    · exact .inr (.inl hfreed)
    · have hut : u ≠ t := by
        rintro rfl
        rw [hclean] at hu
        cases hu
      refine .inr (.inr ⟨u, ?_⟩)
      rw [goes_of_ne s y hut]
      exact hu

theorem update_job (s : Jobs) (a : ℕ) (f : Job → Job) : (update s a f).job a = f (s.job a) :=
  Function.update_self a _ s.job

theorem update_job_of_ne (s : Jobs) {a b : ℕ} (f : Job → Job) (h : b ≠ a) :
    (update s a f).job b = s.job b :=
  Function.update_of_ne h _ s.job

theorem update_job_cases (s : Jobs) (a : ℕ) (f : Job → Job) (b : ℕ) :
    (update s a f).job b = s.job b ∨ b = a ∧ (update s a f).job b = f (s.job b) := by
  by_cases hb : b = a
  · right
    rw [hb]
    exact ⟨rfl, update_job s a f⟩
  · exact .inl (update_job_of_ne s f hb)

theorem update_id (h : (s.job a).freed = false) : update s a (fun j => j) = s := by
  unfold update
  rw [Function.update_eq_self, h, Bool.or_false]

/-- What has been settled about a job stays settled. -/
structure Kept (j j' : Job) : Prop where
  freed : j'.freed = j.freed
  monitor : j'.monitor = j.monitor
  finished : j.finished = true → j'.finished = true

theorem update_kept {f : Job → Job} (h : Kept (s.job a) (f (s.job a))) (b : ℕ) :
    Kept (s.job b) ((update s a f).job b) := by
  by_cases hb : b = a
  · rw [hb, update_job]
    exact h
  · rw [update_job_of_ne s f hb]
    exact ⟨rfl, rfl, id⟩

theorem inv_update {f : Job → Job} {thread : ℕ → Activity} (hs : Inv s)
    (hfreed : (s.job a).freed = false) (hkept : Kept (s.job a) (f (s.job a)))
    (hok : (f (s.job a)).Ok) (hwaits : ∀ u, (thread u).waitsFor = (s.thread u).waitsFor)
    (hcleans : ∀ u, (thread u).cleans = (s.thread u).cleans)
    (hthreads : ∀ u, ThreadOk (update s a f) u (thread u))
    (hwhole : ∀ b, ((update s a f).job b).Whole ∨ ∃ u, Taking (thread u) b) :
    Inv { update s a f with thread := thread } := by
  have hview := update_kept hkept
  constructor
  · change (s.usedFreed || (s.job a).freed) = false
    rw [hs.unfreed, hfreed, Bool.or_false]
  · exact hs.few
  · exact hs.mon
  · exact fun b hb hmon => (hview b).monitor.trans (hs.monitors b hb hmon)
  · exact fun b hb => ⟨(hs.listed b hb).1, (hview b).freed.trans (hs.listed b hb).2⟩
  · exact hs.nodup
  · exact hthreads
  · intro u v b hu hv
    rw [hwaits] at hu hv
    exact hs.oneWaiter u v b hu hv
  · intro u v b hu hv
    rw [hcleans] at hu hv
    exact hs.oneCleaner u v b hu hv
  · intro b
    change ((update s a f).job b).Ok
    by_cases hb : b = a
    · rw [hb, update_job]
      exact hok
    · rw [update_job_of_ne s f hb]
      exact hs.ok b
  · exact hwhole
  · exact fun b hb => ⟨(hs.released b hb).1, (hview b).finished (hs.released b hb).2⟩
  · intro b hb
    obtain hmem | hbfreed | ⟨u, hu⟩ := hs.accounted b hb
    · exact .inl hmem
    · exact .inr (.inl ((hview b).freed.trans hbfreed))
    · refine .inr (.inr ⟨u, ?_⟩)
      rw [hcleans]
      exact hu

/-- `next` is one of the two places from which `Job_callback_done` is called. -/
def Caller (a : ℕ) (next : Finishing → Activity) : Prop :=
  next = .finishing a ∨ ∃ conid, next = fun p => .cleaning conid (some (a, p))

theorem Caller.phase {next : Finishing → Activity} (h : Caller a next) (p : Finishing) :
    (next p).phase = some (a, p) := by
  obtain rfl | ⟨conid, rfl⟩ := h
  · rfl
  · rfl

theorem Caller.cleans {next : Finishing → Activity} (h : Caller a next) (p q : Finishing) :
    (next p).cleans = (next q).cleans := by
  obtain rfl | ⟨conid, rfl⟩ := h
  · rfl
  · rfl

theorem Caller.waitsFor {next : Finishing → Activity} (h : Caller a next) (p : Finishing) :
    (next p).waitsFor = none := by
  obtain rfl | ⟨conid, rfl⟩ := h
  · rfl
  · rfl

theorem inv_finishing {next : Finishing → Activity} {p p' : Finishing} {f : Job → Job}
    (hs : Inv s) (hnext : Caller a next) (ht : s.thread t = next p)
    (hcond : ∀ j, (f j).cond = j.cond) (hvar : ∀ j, (f j).condVar = j.condVar)
    (hkept : Kept (s.job a) (f (s.job a))) (hok : (f (s.job a)).Ok)
    (hfits : p'.Fits (f (s.job a)))
    (hwhole : (f (s.job a)).Whole ∨ ∃ isMon callback, p' = .taken isMon callback) :
    Inv (goes (update s a f) t (next p')) := by
  have hphase : (s.thread t).phase = some (a, p) := by
    rw [ht]
    exact hnext.phase p
  have hjob := update_job s a f
  have hview : ∀ b, ((update s a f).job b).cond = (s.job b).cond ∧
      ((update s a f).job b).condVar = (s.job b).condVar := by
    intro b
    by_cases hb : b = a
    · rw [hb, hjob]
      exact ⟨hcond _, hvar _⟩
    · rw [update_job_of_ne s f hb]
      exact ⟨rfl, rfl⟩
  have hother : ∀ u, u ≠ t → ThreadOk (update s a f) u (s.thread u) := by
    intro u hut
    have hu := hs.threads u
    have hfit : ∀ b q, (s.thread u).phase = some (b, q) →
        (update s a f).job b = s.job b := by
      intro b q hq
      apply update_job_of_ne
      rintro rfl
      exact hut (hs.phase_unique hq hphase)
    cases hx : s.thread u with
    | asleep b | woken b | starting b =>
      rw [hx] at hu
      rw [ThreadOk, (hview b).1, (hview b).2]
      exact hu
    | finishing b q =>
      rw [hx] at hu hfit
      rw [ThreadOk, hfit b q rfl]
      exact hu
    | popping b =>
      rw [hx] at hu
      exact ⟨hu.1, hu.2.1, (hview b).1.trans hu.2.2.1,
        (update_kept hkept b).finished hu.2.2.2⟩
    | cleaning conid popped =>
      cases popped with
      | none => trivial
      | some bq =>
        rw [hx] at hu hfit
        rw [ThreadOk, hfit bq.1 bq.2 rfl]
        exact hu
    | idle => trivial
    | unknown r =>
      rw [hx] at hu
      exact hu
  have hself : ThreadOk (update s a f) t (next p') := by
    have hu := hs.threads t
    rw [ht] at hu
    obtain rfl | ⟨conid, rfl⟩ := hnext
    · rw [ThreadOk, hjob, hcond, hvar]
      exact ⟨hu.1, hu.2.1, hu.2.2.1, hfits⟩
    · rw [ThreadOk, hjob, hkept.freed]
      exact ⟨hu.1, hu.2.1, hu.2.2.1, hfits⟩
  apply inv_update hs (hs.refers (refers_of_phase hphase)).2 hkept hok
  · intro u
    by_cases hut : u = t
    · rw [hut, Function.update_self, ht, hnext.waitsFor, hnext.waitsFor]
    · rw [Function.update_of_ne hut]
      rfl
  · intro u
    by_cases hut : u = t
    · rw [hut, Function.update_self, ht]
      exact hnext.cleans p' p
    · rw [Function.update_of_ne hut]
      rfl
  · intro u
    by_cases hut : u = t
    · rw [hut, Function.update_self]
      exact hself
    · rw [Function.update_of_ne hut]
      exact hother u hut
  · intro b
    by_cases hb : b = a
    · subst hb
      obtain hw | ⟨isMon, callback, rfl⟩ := hwhole
      · left
        rwa [hjob]
      · refine .inr ⟨t, isMon, callback, ?_⟩
        rw [Function.update_self]
        exact hnext.phase _
    · obtain hw | ⟨u, hu⟩ := hs.whole b
      · left
        rwa [update_job_of_ne s f hb]
      · refine .inr ⟨u, ?_⟩
        rw [Function.update_of_ne]
        · exact hu
        · rintro rfl
          obtain ⟨isMon, callback, hu⟩ := hu
          rw [hphase] at hu
          cases hu
          exact hb rfl

theorem inv_takeCallback {next : Finishing → Activity} (hs : Inv s) (hnext : Caller a next)
    (ht : s.thread t = next .found) : Inv (takeCallback s t a next) := by
  have hphase : (s.thread t).phase = some (a, .found) := by
    rw [ht]
    exact hnext.phase _
  have hwhole : (s.job a).Whole := (hs.threads t).fits hphase
  have hok := hs.ok a
  apply inv_finishing hs hnext ht
  · exact fun _ => rfl
  · exact fun _ => rfl
  · exact ⟨rfl, rfl, id⟩
  · exact ⟨hok.counted, hok.signalled, hok.freed⟩
  · by_cases hmon : jobid a = s.monJob
    · exact .inl (hs.monitors a (hs.refers (refers_of_phase hphase)).1 hmon)
    · refine hwhole.imp_right fun hcallback => ⟨?_, hcallback⟩
      change (decide (jobid a = s.monJob) && (s.job a).callbackDone) = false
      rw [decide_eq_false hmon, Bool.false_and]
  · exact .inr ⟨_, _, rfl⟩

theorem inv_callCallback {next : Finishing → Activity} {isMon callback : Bool} (hs : Inv s)
    (hnext : Caller a next) (ht : s.thread t = next (.taken isMon callback)) :
    Inv (callCallback s t a isMon callback next) := by
  have hphase : (s.thread t).phase = some (a, .taken isMon callback) := by
    rw [ht]
    exact hnext.phase _
  have hfits := (hs.threads t).fits hphase
  have hwhole : Job.Whole
      { s.job a with called := (s.job a).called + callback.toNat, finished := true } :=
    hfits.imp_right fun h => h.1
  apply inv_finishing hs hnext ht
  · exact fun _ => rfl
  · exact fun _ => rfl
  · exact ⟨rfl, rfl, fun _ => rfl⟩
  · refine ⟨fun hmon => ?_, fun _ => rfl, fun _ => rfl⟩
    obtain hmon' | ⟨-, hcallback⟩ := hfits
    · exact absurd (hmon.symm.trans hmon') nofun
    · have hcalled := (hs.ok a).counted hmon
      change (s.job a).called + callback.toNat = (true && (s.job a).given).toNat
      rw [hcalled, hcallback]
      cases (s.job a).finished <;> cases (s.job a).given <;> rfl
  · exact ⟨rfl, hwhole⟩
  · exact .inl hwhole

theorem inv_register (hs : Inv s) (hfew : s.registered < noMonJob) (conid : ℕ)
    (sync callback : Bool) : Inv (register s conid sync callback) := by
  have hold : ∀ b, b ≠ s.registered →
      (register s conid sync callback).job b = s.job b := fun b hb =>
    Function.update_of_ne hb _ s.job
  have hnew : (register s conid sync callback).job s.registered =
      { noJob with conid := conid, callbackDone := callback, cond := sync, given := callback } :=
    Function.update_self s.registered _ s.job
  have hid : jobid s.registered = s.registered := by
    apply Nat.mod_eq_of_lt
    unfold noMonJob at hfew
    omega
  constructor
  · exact hs.unfreed
  · exact hfew
  · exact hs.mon.imp_right fun h => Nat.lt_succ_of_lt h
  · intro b hb hmon
    by_cases hbn : b = s.registered
    · subst hbn
      change jobid s.registered = s.monJob at hmon
      rw [hid] at hmon
      have := hs.mon
      omega
    · rw [hold b hbn]
      exact hs.monitors b (Nat.lt_of_le_of_ne (Nat.le_of_lt_succ hb) hbn) hmon
  · intro b hb
    obtain rfl | hb := List.mem_cons.mp hb
    · rw [hnew]
      exact ⟨Nat.lt_succ_self _, rfl⟩
    · have hlisted := hs.listed b hb
      rw [hold b (Nat.ne_of_lt hlisted.1)]
      exact ⟨Nat.lt_succ_of_lt hlisted.1, hlisted.2⟩
  · exact List.nodup_cons.mpr ⟨fun h => Nat.ne_of_lt (hs.listed _ h).1 rfl, hs.nodup⟩
  · intro u
    apply (hs.threads u).frame (Nat.le_succ _)
    · intro b hb
      have hne := Nat.ne_of_lt (hs.refers hb).1
      exact ⟨fun h => (List.mem_cons.mp h).resolve_left hne, List.mem_cons_of_mem _⟩
    · exact fun b hb => hold b (Nat.ne_of_lt (hs.refers hb).1)
  · exact hs.oneWaiter
  · exact hs.oneCleaner
  · intro b
    by_cases hbn : b = s.registered
    · rw [hbn, hnew]
      exact ⟨fun _ => rfl, nofun, nofun⟩
    · rw [hold b hbn]
      exact hs.ok b
  · intro b
    by_cases hbn : b = s.registered
    · left
      rw [hbn, hnew]
      exact .inr rfl
    · rw [hold b hbn]
      exact hs.whole b
  · intro b hb
    have hreleased := hs.released b hb
    rw [hold b (Nat.ne_of_lt hreleased.1)]
    exact ⟨Nat.lt_succ_of_lt hreleased.1, hreleased.2⟩
  · intro b hb
    by_cases hbn : b = s.registered
    · exact .inl (hbn ▸ List.mem_cons_self)
    · rw [hold b hbn]
      obtain hmem | hrest := hs.accounted b (Nat.lt_of_le_of_ne (Nat.le_of_lt_succ hb) hbn)
      · exact .inl (List.mem_cons_of_mem _ hmem)
      · exact .inr hrest

theorem Finishing.Fits.checkIn {j : Job} {p : Finishing} (h : p.Fits j) :
    p.Fits { j with monitor := true } := by
  cases p with
  | found => exact .inl rfl
  | taken isMon callback => exact .inl rfl
  | called isMon => exact ⟨h.1, .inl rfl⟩

theorem inv_checkIn (hs : Inv s) (h : checkIn s a = .ok s') : Inv s' := by
  unfold checkIn at h
  split at h
  · next ha =>
    cases h
    -- the monitor is not asked for in what the threads look at
    have hjob : ∀ b, Function.update s.job a { s.job a with monitor := true } b = s.job b ∨
        Function.update s.job a { s.job a with monitor := true } b =
          { s.job b with monitor := true } :=
      fun b => (update_job_cases s a (fun j => { j with monitor := true }) b).imp_right And.right
    refine { hs with
      mon := ?_
      monitors := fun b hb hmon => ?_
      listed := fun b hb => ?_
      threads := fun u => ?_
      ok := fun b => ?_
      whole := fun b => ?_
      released := fun b hb => ?_
      accounted := fun b hb => ?_ }
    · have hle := Nat.mod_le a (2 ^ 32)
      exact .inr (Nat.lt_of_le_of_lt hle ha)
    · have hid : ∀ c < s.registered, jobid c = c := by
        intro c hc
        apply Nat.mod_eq_of_lt
        have hfew := hs.few
        unfold noMonJob at hfew
        omega
      change jobid b = jobid a at hmon
      rw [hid b hb, hid a ha] at hmon
      rw [hmon]
      simp only [Function.update_self]
    · simp only
      obtain heq | heq := hjob b
      · rw [heq]
        exact hs.listed b hb
      · rw [heq]
        exact hs.listed b hb
    · refine (hs.threads u).of_looksLike (Nat.le_refl _) (fun _ _ => Iff.rfl) fun b _ => ?_
      simp only
      obtain heq | heq := hjob b
      · rw [heq]
        exact ⟨rfl, rfl, rfl, rfl, id⟩
      · rw [heq]
        exact ⟨rfl, rfl, rfl, rfl, Finishing.Fits.checkIn⟩
    · simp only
      obtain heq | heq := hjob b
      · rw [heq]
        exact hs.ok b
      · rw [heq]
        exact ⟨nofun, (hs.ok b).signalled, (hs.ok b).freed⟩
    · simp only
      obtain heq | heq := hjob b
      · rw [heq]
        exact hs.whole b
      · rw [heq]
        exact .inl (.inl rfl)
    · simp only
      obtain heq | heq := hjob b
      · rw [heq]
        exact hs.released b hb
      · rw [heq]
        exact hs.released b hb
    · simp only
      obtain heq | heq := hjob b
      · rw [heq]
        exact hs.accounted b hb
      · rw [heq]
        exact hs.accounted b hb
  · cases h

theorem Inv.whole_of_unreferred (hs : Inv s) (h : ∀ u, (s.thread u).refers ≠ some a) :
    (s.job a).Whole := by
  obtain hwhole | ⟨u, isMon, callback, hu⟩ := hs.whole a
  · exact hwhole
  · exact absurd (refers_of_phase hu) (h u)

theorem Inv.unreferred (hs : Inv s) (ha : a ∈ s.jobs)
    (h : ∀ u, (s.thread u).waitsFor ≠ some a ∧ (s.thread u).answers ≠ some a) (u : ℕ) :
    (s.thread u).refers ≠ some a := by
  intro hu
  obtain hw | hanswers | hc := refers_cases hu
  · exact (h u).1 hw
  · exact (h u).2 hanswers
  · exact ((hs.threads u).cleans hc).2.1 ha

theorem inv_pop (hs : Inv s) (ha : a ∈ s.jobs) (hidle : (s.thread t).refers = none)
    (hremovable : ∀ u, (s.thread u).waitsFor ≠ some a ∧ (s.thread u).answers ≠ some a)
    (conid : ℕ) : Inv (pop s t a conid) := by
  have hnone := hs.unreferred ha hremovable
  have hne : ∀ u b, (s.thread u).refers = some b → b ≠ a := by
    rintro u b hb rfl
    exact hnone u hb
  have hmem : ∀ b, b ≠ a → (b ∈ s.jobs.erase a ↔ b ∈ s.jobs) := fun b hb =>
    List.mem_erase_of_ne hb
  refine { hs with
    listed := fun b hb => hs.listed b (List.mem_of_mem_erase hb)
    nodup := hs.nodup.erase a
    threads := fun u => ?_
    oneWaiter := fun u v b hu hv => ?_
    oneCleaner := fun u v b hu hv => ?_
    whole := fun b => ?_
    accounted := fun b hb => ?_ }
  · by_cases hut : u = t
    · rw [hut, pop, goes_self]
      exact ⟨(hs.listed a ha).1, hs.nodup.not_mem_erase, (hs.listed a ha).2,
        hs.whole_of_unreferred hnone⟩
    · rw [pop, goes_of_ne _ _ hut]
      exact (hs.threads u).frame (Nat.le_refl _) (fun b hb => hmem b (hne u b hb))
        fun _ _ => rfl
  · by_cases hut : u = t
    · rw [hut, pop, goes_self] at hu
      cases hu
    · by_cases hvt : v = t
      · rw [hvt, pop, goes_self] at hv
        cases hv
      · rw [pop, goes_of_ne _ _ hut] at hu
        rw [pop, goes_of_ne _ _ hvt] at hv
        exact hs.oneWaiter u v b hu hv
  · by_cases hut : u = t
    · by_cases hvt : v = t
      · exact hut.trans hvt.symm
      · rw [hut, pop, goes_self] at hu
        rw [pop, goes_of_ne _ _ hvt] at hv
        cases hu
        exact absurd (refers_of_cleans hv) (hnone v)
    · rw [pop, goes_of_ne _ _ hut] at hu
      by_cases hvt : v = t
      · rw [hvt, pop, goes_self] at hv
        cases hv
        exact absurd (refers_of_cleans hu) (hnone u)
      · rw [pop, goes_of_ne _ _ hvt] at hv
        exact hs.oneCleaner u v b hu hv
  · obtain hwhole | ⟨u, hu⟩ := hs.whole b
    · exact .inl hwhole
    · refine .inr ⟨u, ?_⟩
      have hut : u ≠ t := by
        rintro rfl
        obtain ⟨isMon, callback, hu⟩ := hu
        exact absurd ((refers_of_phase hu).symm.trans hidle) nofun
      rw [pop, goes_of_ne _ _ hut]
      exact hu
  · by_cases hba : b = a
    · refine .inr (.inr ⟨t, ?_⟩)
      rw [pop, goes_self, hba]
      rfl
    · obtain hb' | hfreed | ⟨u, hu⟩ := hs.accounted b hb
      · exact .inl ((hmem b hba).mpr hb')
      · exact .inr (.inl hfreed)
      · refine .inr (.inr ⟨u, ?_⟩)
        have hut : u ≠ t := by
          rintro rfl
          exact absurd ((refers_of_cleans hu).symm.trans hidle) nofun
        rw [pop, goes_of_ne _ _ hut]
        exact hu

theorem inv_remove (hs : Inv s) (ha : a ∈ s.jobs) (hfinished : (s.job a).finished = true)
    (hnone : ∀ u, (s.thread u).refers ≠ some a) (cond : Bool) :
    Inv { s with
      job := Function.update s.job a { s.job a with cond := cond, freed := true }
      jobs := s.jobs.erase a } := by
  have hne : ∀ u b, (s.thread u).refers = some b → b ≠ a := by
    rintro u b hb rfl
    exact hnone u hb
  have hold : ∀ b, b ≠ a →
      Function.update s.job a { s.job a with cond := cond, freed := true } b = s.job b :=
    fun b hb => Function.update_of_ne hb _ s.job
  have hnew : Function.update s.job a { s.job a with cond := cond, freed := true } a =
      { s.job a with cond := cond, freed := true } := Function.update_self a _ s.job
  have hmem : ∀ b, b ≠ a → (b ∈ s.jobs.erase a ↔ b ∈ s.jobs) := fun b hb =>
    List.mem_erase_of_ne hb
  refine { hs with
    monitors := fun b hb hmon => ?_
    listed := fun b hb => ?_
    nodup := hs.nodup.erase a
    threads := fun u => ?_
    ok := fun b => ?_
    whole := fun b => ?_
    released := fun b hb => ?_
    accounted := fun b hb => ?_ }
  · simp only
    by_cases hba : b = a
    · rw [hba, hnew]
      exact hs.monitors a (hba ▸ hb) (hba ▸ hmon)
    · rw [hold b hba]
      exact hs.monitors b hb hmon
  · have hba : b ≠ a := by
      rintro rfl
      exact hs.nodup.not_mem_erase hb
    simp only
    rw [hold b hba]
    exact hs.listed b (List.mem_of_mem_erase hb)
  · exact (hs.threads u).frame (Nat.le_refl _) (fun b hb => hmem b (hne u b hb))
      fun b hb => hold b (hne u b hb)
  · simp only
    by_cases hba : b = a
    · rw [hba, hnew]
      exact ⟨(hs.ok a).counted, (hs.ok a).signalled, fun _ => hfinished⟩
    · rw [hold b hba]
      exact hs.ok b
  · simp only
    by_cases hba : b = a
    · left
      rw [hba, hnew]
      exact hs.whole_of_unreferred hnone
    · rw [hold b hba]
      exact hs.whole b
  · simp only
    refine ⟨(hs.released b hb).1, ?_⟩
    by_cases hba : b = a
    · rw [hba, hnew]
      exact hfinished
    · rw [hold b hba]
      exact (hs.released b hb).2
  · simp only
    by_cases hba : b = a
    · rw [hba, hnew]
      exact .inr (.inl rfl)
    · rw [hold b hba, hmem b hba]
      exact hs.accounted b hb

theorem waited_eq (ha : a ∈ s.jobs) (hfreed : (s.job a).freed = false)
    (hcond : (s.job a).cond = true) :
    waited s a =
      { s with
        job := Function.update s.job a { s.job a with cond := false, freed := true }
        jobs := s.jobs.erase a
        released := s.released ++ [a] } := by
  unfold waited popLocked
  rw [if_pos (show a ∈ (update s a fun j => { j with cond := false }).jobs from ha)]
  simp only [update, Function.update_self, Function.update_idem, hfreed, hcond, Bool.or_false,
    Bool.not_true]

theorem inv_waited (hs : Inv s) (ha : a ∈ s.jobs) (hcond : (s.job a).cond = true)
    (hvar : (s.job a).condVar = true) (hwaits : ∀ u, (s.thread u).waitsFor ≠ some a) :
    Inv (waited s a) := by
  have hfinished := (hs.ok a).signalled hvar
  have hnone := hs.unreferred ha fun u => ⟨hwaits u, fun hanswers => by
    have hno := ((hs.threads u).answers hanswers).2.2 hcond
    exact absurd (hno.symm.trans hvar) nofun⟩
  rw [waited_eq ha (hs.listed a ha).2 hcond]
  have hremoved := inv_remove hs ha hfinished hnone false
  refine { hremoved with released := fun b hb => ?_ }
  obtain hb | hb := List.mem_append.mp hb
  · exact hremoved.released b hb
  · cases List.mem_singleton.mp hb
    simp only [Function.update_self]
    exact ⟨(hs.listed a ha).1, hfinished⟩

theorem inv_abandoned (hs : Inv s) (hfreed : (s.job a).freed = false)
    (hwaits : ∀ u, (s.thread u).waitsFor ≠ some a) :
    Inv (update s a fun j => { j with cond := false }) := by
  have hjob := update_job_cases s a fun j => { j with cond := false }
  have hok := hs.ok a
  have hokay : Job.Ok { s.job a with cond := false } :=
    ⟨hok.counted, hok.signalled, hok.freed⟩
  have hkept : Kept (s.job a) { s.job a with cond := false } := ⟨rfl, rfl, id⟩
  refine inv_update (f := fun j => { j with cond := false }) hs hfreed hkept hokay
    (fun _ => rfl) (fun _ => rfl) ?_ ?_
  · intro u
    have hu := hs.threads u
    have hnot := hwaits u
    cases hx : s.thread u with
    | idle => trivial
    | unknown r =>
      rw [hx] at hu
      exact hu
    | asleep b | woken b =>
      rw [hx] at hu hnot
      rw [ThreadOk, (hjob b).resolve_right fun h => hnot (congrArg some h.1)]
      exact hu
    | starting b =>
      rw [hx] at hu
      rw [ThreadOk]
      obtain heq | ⟨-, heq⟩ := hjob b
      · rw [heq]
        exact hu
      · rw [heq]
        exact ⟨hu.1, hu.2.1, nofun⟩
    | finishing b p =>
      rw [hx] at hu
      rw [ThreadOk]
      obtain heq | ⟨-, heq⟩ := hjob b
      · rw [heq]
        exact hu
      · rw [heq]
        exact ⟨hu.1, hu.2.1, nofun, hu.2.2.2⟩
    | popping b =>
      rw [hx] at hu
      rw [ThreadOk]
      obtain heq | ⟨-, heq⟩ := hjob b
      · rw [heq]
        exact hu
      · rw [heq]
        exact ⟨hu.1, hu.2.1, rfl, hu.2.2.2⟩
    | cleaning conid popped =>
      rw [hx] at hu
      cases popped with
      | none => trivial
      | some bp =>
        rw [ThreadOk]
        obtain heq | ⟨-, heq⟩ := hjob bp.1
        · rw [heq]
          exact hu
        · rw [heq]
          exact hu
  · intro b
    obtain heq | ⟨-, heq⟩ := hjob b
    · rw [heq]
      exact hs.whole b
    · rw [heq]
      exact hs.whole b

theorem broadcast_thread (s : Jobs) (a u : ℕ) :
    (broadcast s a).thread u = s.thread u ∨
      s.thread u = .asleep a ∧ (broadcast s a).thread u = .woken a := by
  change (if s.thread u = .asleep a then Activity.woken a else s.thread u) = s.thread u ∨
    s.thread u = .asleep a ∧
      (if s.thread u = .asleep a then Activity.woken a else s.thread u) = .woken a
  split
  · next h => exact .inr ⟨h, rfl⟩
  · exact .inl rfl

theorem broadcast_waitsFor (s : Jobs) (a u : ℕ) :
    ((broadcast s a).thread u).waitsFor = (s.thread u).waitsFor := by
  obtain h | ⟨h, h'⟩ := broadcast_thread s a u
  · rw [h]
  · rw [h, h']
    rfl

theorem broadcast_cleans (s : Jobs) (a u : ℕ) :
    ((broadcast s a).thread u).cleans = (s.thread u).cleans := by
  obtain h | ⟨h, h'⟩ := broadcast_thread s a u
  · rw [h]
  · rw [h, h']
    rfl

theorem broadcast_phase (s : Jobs) (a u : ℕ) :
    ((broadcast s a).thread u).phase = (s.thread u).phase := by
  obtain h | ⟨h, h'⟩ := broadcast_thread s a u
  · rw [h]
  · rw [h, h']
    rfl

theorem inv_signalled (hs : Inv s) (ha : a ∈ s.jobs) (hfinished : (s.job a).finished = true)
    (hanswers : ∀ u, (s.thread u).answers ≠ some a) :
    Inv (broadcast (update s a fun j => { j with condVar := true }) a) := by
  have hself := update_job s a fun j => { j with condVar := true }
  have hold : ∀ b, b ≠ a → (update s a fun j => { j with condVar := true }).job b = s.job b :=
    fun b hb => update_job_of_ne s _ hb
  have hjob := update_job_cases s a fun j => { j with condVar := true }
  apply inv_update hs (hs.listed a ha).2 ⟨rfl, rfl, id⟩
  · exact ⟨(hs.ok a).counted, fun _ => hfinished, (hs.ok a).freed⟩
  · exact broadcast_waitsFor _ a
  · exact broadcast_cleans _ a
  · intro u
    have hu := hs.threads u
    have hne := hanswers u
    by_cases hasleep : s.thread u = .asleep a
    · rw [hasleep] at hu
      rw [if_pos (show (update s a fun j => { j with condVar := true }).thread u = .asleep a
        from hasleep), ThreadOk, hself]
      exact ⟨ha, hu.2.1, rfl⟩
    · have hnot := hasleep
      rw [if_neg (show ¬ (update s a fun j => { j with condVar := true }).thread u = .asleep a
        from hasleep)]
      change ThreadOk _ u (s.thread u)
      cases hx : s.thread u with
      | idle => trivial
      | unknown r =>
        rw [hx] at hu
        exact hu
      | asleep b =>
        rw [hx] at hu hnot
        rw [ThreadOk, hold b fun h => hnot (congrArg Activity.asleep h)]
        exact hu
      | woken b =>
        rw [hx] at hu
        rw [ThreadOk]
        obtain heq | ⟨-, heq⟩ := hjob b
        · rw [heq]
          exact hu
        · rw [heq]
          exact ⟨hu.1, hu.2.1, rfl⟩
      | starting b | finishing b p | popping b =>
        rw [hx] at hu hne
        rw [ThreadOk, hold b fun h => hne (congrArg some h)]
        exact hu
      | cleaning conid popped =>
        rw [hx] at hu
        cases popped with
        | none => trivial
        | some bp =>
          rw [ThreadOk]
          obtain heq | ⟨-, heq⟩ := hjob bp.1
          · rw [heq]
            exact hu
          · rw [heq]
            exact hu
  · intro b
    obtain hwhole | ⟨u, isMon, callback, hu⟩ := hs.whole b
    · left
      obtain heq | ⟨-, heq⟩ := hjob b
      · rwa [heq]
      · rw [heq]
        exact hwhole
    · refine .inr ⟨u, isMon, callback, ?_⟩
      exact (broadcast_phase (update s a fun j => { j with condVar := true }) a u).trans hu

theorem inv_freed {conid : ℕ} {isMon : Bool} (hs : Inv s)
    (ht : s.thread t = .cleaning conid (some (a, .called isMon))) :
    Inv (goes (update s a fun j => { j with freed := true }) t (.cleaning conid none)) := by
  have hclean : (s.thread t).cleans = some a := by
    rw [ht]
    rfl
  have hphase : (s.thread t).phase = some (a, .called isMon) := by
    rw [ht]
    rfl
  obtain ⟨hlt, hmem, hfreed⟩ := (hs.threads t).cleans hclean
  obtain ⟨hfinished, hwhole⟩ : (s.job a).finished = true ∧ (s.job a).Whole :=
    (hs.threads t).fits hphase
  have hself := update_job s a fun j => { j with freed := true }
  have hold : ∀ b, b ≠ a → (update s a fun j => { j with freed := true }).job b = s.job b :=
    fun b hb => update_job_of_ne s _ hb
  have hjob := update_job_cases s a fun j => { j with freed := true }
  have hother : ∀ u, u ≠ t → ∀ b, (s.thread u).refers = some b → b ≠ a := by
    rintro u hut b hb rfl
    obtain hw | hanswers | hc := refers_cases hb
    · exact hmem ((hs.threads u).waits hw).1
    · exact hmem ((hs.threads u).answers hanswers).2.1
    · exact hut (hs.oneCleaner u t b hc hclean)
  constructor
  · change (s.usedFreed || (s.job a).freed) = false
    rw [hs.unfreed, hfreed, Bool.or_false]
  · exact hs.few
  · exact hs.mon
  · intro b hb hmon
    change ((update s a fun j => { j with freed := true }).job b).monitor = true
    obtain heq | ⟨-, heq⟩ := hjob b
    · rw [heq]
      exact hs.monitors b hb hmon
    · rw [heq]
      exact hs.monitors b hb hmon
  · intro b hb
    change b < s.registered ∧ ((update s a fun j => { j with freed := true }).job b).freed = false
    have hba : b ≠ a := by
      rintro rfl
      exact hmem hb
    rw [hold b hba]
    exact hs.listed b hb
  · exact hs.nodup
  · intro u
    by_cases hut : u = t
    · rw [hut, goes_self]
      trivial
    · rw [goes_of_ne _ _ hut]
      exact (hs.threads u).frame (Nat.le_refl _) (fun _ _ => Iff.rfl)
        fun b hb => hold b (hother u hut b hb)
  · intro u v b hu hv
    by_cases hut : u = t
    · rw [hut, goes_self] at hu
      cases hu
    · by_cases hvt : v = t
      · rw [hvt, goes_self] at hv
        cases hv
      · rw [goes_of_ne _ _ hut] at hu
        rw [goes_of_ne _ _ hvt] at hv
        exact hs.oneWaiter u v b hu hv
  · intro u v b hu hv
    by_cases hut : u = t
    · rw [hut, goes_self] at hu
      cases hu
    · by_cases hvt : v = t
      · rw [hvt, goes_self] at hv
        cases hv
      · rw [goes_of_ne _ _ hut] at hu
        rw [goes_of_ne _ _ hvt] at hv
        exact hs.oneCleaner u v b hu hv
  · intro b
    change ((update s a fun j => { j with freed := true }).job b).Ok
    obtain heq | ⟨rfl, heq⟩ := hjob b
    · rw [heq]
      exact hs.ok b
    · rw [heq]
      exact ⟨(hs.ok b).counted, (hs.ok b).signalled, fun _ => hfinished⟩
  · intro b
    obtain hb | ⟨u, hu⟩ := hs.whole b
    · left
      change ((update s a fun j => { j with freed := true }).job b).Whole
      obtain heq | ⟨-, heq⟩ := hjob b
      · rwa [heq]
      · rw [heq]
        exact hb
    · refine .inr ⟨u, ?_⟩
      rw [goes_of_ne]
      · exact hu
      · rintro rfl
        obtain ⟨isMon', callback, hu⟩ := hu
        rw [hphase] at hu
        cases hu
  · intro b hb
    change b < s.registered ∧
      ((update s a fun j => { j with freed := true }).job b).finished = true
    obtain heq | ⟨-, heq⟩ := hjob b
    · rw [heq]
      exact hs.released b hb
    · rw [heq]
      exact hs.released b hb
  · intro b hb
    change b ∈ s.jobs ∨ ((update s a fun j => { j with freed := true }).job b).freed = true ∨ _
    obtain heq | ⟨-, heq⟩ := hjob b
    · rw [heq]
      obtain hb' | hbfreed | ⟨u, hu⟩ := hs.accounted b hb
      · exact .inl hb'
      · exact .inr (.inl hbfreed)
      · by_cases hut : u = t
        · rw [hut, hclean] at hu
          cases hu
          rw [hself] at heq
          exact .inr (.inl (congrArg Job.freed heq).symm)
        · refine .inr (.inr ⟨u, ?_⟩)
          rw [goes_of_ne _ _ hut]
          exact hu
    · rw [heq]
      exact .inr (.inl rfl)

/-! ### The steps of a thread -/

theorem getByJobid_mem {id : ℕ} (h : getByJobid s id = some a) : a ∈ s.jobs :=
  List.mem_of_find?_eq_some h

theorem getByConid_mem {conid : ℕ} (h : getByConid s conid = some a) : a ∈ s.jobs :=
  List.mem_of_find?_eq_some h

theorem not_taking {x : Activity}
    (h : ∀ a isMon callback, x.phase ≠ some (a, .taken isMon callback)) (a : ℕ) :
    ¬ Taking x a := fun ⟨isMon, callback, hx⟩ => h a isMon callback hx

theorem inv_stops (hs : Inv s) (hclean : (s.thread t).cleans = none)
    (hphase : ∀ a isMon callback, (s.thread t).phase ≠ some (a, .taken isMon callback)) :
    Inv (goes s t .idle) :=
  inv_goes (y := .idle) hs trivial hclean (not_taking hphase) rfl nofun

theorem inv_serverWait {id : ℕ} (hs : Inv s)
    (hwaits : ∀ a, getByJobid s id = some a → ∀ u, (s.thread u).waitsFor ≠ some a)
    (h : serverWait s t id = .ok s') : Inv s' := by
  unfold serverWait at h
  split at h
  · next hidle =>
    split at h
    · cases h
      exact hs
    · next a hfound =>
      have ha := getByJobid_mem hfound
      split at h
      · next hcond =>
        split at h
        · next hvar =>
          cases h
          exact inv_waited hs ha hcond hvar (hwaits a hfound)
        · next hvar =>
          cases h
          have hasleep : ThreadOk s t (.asleep a) :=
            ⟨ha, hcond, eq_false_of_ne_true hvar⟩
          apply inv_goes hs hasleep
          · rw [hidle]
            rfl
          · rw [hidle]
            exact not_taking nofun
          · rfl
          · intro b hb
            cases hb
            exact hwaits a hfound
      · cases h
        exact hs
  · cases h

theorem inv_abandon (hs : Inv s) (h : abandon s t = .ok s') : Inv s' := by
  have hwaiting : ∀ a, (s.thread t).waitsFor = some a →
      Inv (goes (update s a fun j => { j with cond := false }) t .idle) := by
    intro a hw
    have hlisted := hs.listed a ((hs.threads t).waits hw).1
    have hgoes : Inv (goes s t .idle) := by
      apply inv_stops hs
      · cases hx : s.thread t with
        | cleaning conid popped => rw [hx] at hw; cases hw
        | _ => rfl
      · intro b isMon callback hphase
        cases hx : s.thread t with
        | finishing c p => rw [hx] at hw; cases hw
        | cleaning conid popped => rw [hx] at hw; cases hw
        | _ => rw [hx] at hphase; cases hphase
    apply inv_abandoned hgoes hlisted.2
    intro u hu
    by_cases hut : u = t
    · rw [hut, goes_self] at hu
      cases hu
    · rw [goes_of_ne _ _ hut] at hu
      exact hut (hs.oneWaiter u t a hu hw)
  unfold abandon at h
  split at h
  · next a hx =>
    cases h
    exact hwaiting a (by rw [hx]; rfl)
  · next a hx =>
    cases h
    exact hwaiting a (by rw [hx]; rfl)
  · cases h

theorem inv_replied {r : ReplyType} (hs : Inv s) (ha : a ∈ s.jobs)
    (hanswerable : (s.job a).cond = true → (s.job a).condVar = false)
    (hnone : (s.thread receiver).refers = none) : Inv (goes s receiver (replied a r)) := by
  have hwhole : (s.job a).Whole := by
    obtain hwhole | ⟨u, isMon, callback, hu⟩ := hs.whole a
    · exact hwhole
    · obtain hw | hanswers | hc := refers_cases (refers_of_phase hu)
      · cases hx : s.thread u with
        | asleep b => rw [hx] at hu; cases hu
        | woken b => rw [hx] at hu; cases hu
        | _ => rw [hx] at hw; cases hw
      · rw [((hs.threads u).answers hanswers).1] at hanswers
        exact absurd ((refers_of_answers hanswers).symm.trans hnone) nofun
      · exact absurd ha ((hs.threads u).cleans hc).2.1
  apply inv_goes hs
  · cases r with
    | starting => exact ⟨rfl, ha, hanswerable⟩
    | finished => exact ⟨rfl, ha, hanswerable, hwhole⟩
  · cases hc : (s.thread receiver).cleans with
    | none => rfl
    | some b => exact absurd ((refers_of_cleans hc).symm.trans hnone) nofun
  · apply not_taking
    intro b isMon callback hphase
    exact absurd ((refers_of_phase hphase).symm.trans hnone) nofun
  · cases r with
    | starting => rfl
    | finished => rfl
  · intro b hb
    cases r with
    | starting => cases hb
    | finished => cases hb

theorem inv_reply {id : ℕ} {r : ReplyType} (hs : Inv s) (hanswerable : Answerable s id)
    (h : reply s id r = .ok s') : Inv s' := by
  unfold reply at h
  split at h
  · next hidle =>
    split at h
    · cases h
      have hok : ThreadOk s receiver (.unknown r) := rfl
      apply inv_goes hs hok
      · rw [hidle]
        rfl
      · rw [hidle]
        exact not_taking nofun
      · rfl
      · exact nofun
    · next a hfound =>
      cases h
      apply inv_replied hs (getByJobid_mem hfound) (hanswerable a hfound)
      rw [hidle]
      rfl
  · cases h

theorem inv_failedSend {id : ℕ} (hs : Inv s) (hremovable : Removable s (getByJobid s id))
    (h : failedSend s t id = .ok s') : Inv s' := by
  unfold failedSend at h
  split at h
  · next hidle =>
    split at h
    · cases h
      exact hs
    · next a hfound =>
      cases h
      apply inv_pop hs (getByJobid_mem hfound)
      · rw [hidle]
        rfl
      · exact hremovable a hfound
  · cases h

theorem inv_signal (hs : Inv s) (ht : s.thread t = .finishing a (.called false)) :
    Inv (signal s t a) := by
  have hok := hs.threads t
  rw [ht] at hok
  obtain ⟨hreceiver, ha, -, hfinished, -⟩ := hok
  have hclean : (s.thread t).cleans = none := by
    rw [ht]
    rfl
  have hphase : ∀ b isMon callback, (s.thread t).phase ≠ some (b, .taken isMon callback) := by
    rw [ht]
    exact nofun
  unfold signal
  split
  · have hstops : Inv (goes s t .idle) := inv_stops hs hclean hphase
    refine inv_signalled hstops ha hfinished fun u hu => ?_
    by_cases hut : u = t
    · rw [hut, goes_self] at hu
      cases hu
    · rw [goes_of_ne _ _ hut] at hu
      exact hut (((hs.threads u).answers hu).1.trans hreceiver.symm)
  · next hcond =>
    rw [update_id (hs.listed a ha).2]
    have hpopping : ThreadOk s t (.popping a) :=
      ⟨hreceiver, ha, eq_false_of_ne_true hcond, hfinished⟩
    exact inv_goes hs hpopping hclean (not_taking hphase) rfl nofun

theorem inv_popLocked (hs : Inv s) (ht : s.thread t = .popping a) :
    Inv (goes (popLocked s a) t .idle) := by
  have hok := hs.threads t
  rw [ht] at hok
  obtain ⟨hreceiver, ha, hcond, hfinished⟩ := hok
  have hstops : Inv (goes s t .idle) := by
    apply inv_stops hs
    · rw [ht]
      rfl
    · rw [ht]
      exact nofun
  have hnone : ∀ u, ((goes s t .idle).thread u).refers ≠ some a := by
    apply hstops.unreferred ha
    intro u
    constructor
    · intro hu
      exact absurd (hcond.symm.trans ((hstops.threads u).waits hu).2) nofun
    · intro hu
      have hut := ((hstops.threads u).answers hu).1.trans hreceiver.symm
      rw [hut, goes_self] at hu
      cases hu
  have hremoved := inv_remove hstops ha hfinished hnone (s.job a).cond
  unfold popLocked
  rw [if_pos ha]
  unfold update
  rw [(hs.listed a ha).2, Bool.or_false]
  exact hremoved

theorem goes_waited (ha : a ∈ s.jobs) : goes (waited s a) t y = waited (goes s t y) a := by
  unfold waited popLocked
  rw [if_pos (show a ∈ (update s a fun j => { j with cond := false }).jobs from ha),
    if_pos (show a ∈ (update (goes s t y) a fun j => { j with cond := false }).jobs from ha)]
  rfl

theorem inv_woken (hs : Inv s) (ht : s.thread t = .woken a) :
    Inv (goes (waited s a) t .idle) := by
  have hok := hs.threads t
  rw [ht] at hok
  obtain ⟨ha, hcond, hvar⟩ := hok
  have hwaits : (s.thread t).waitsFor = some a := by
    rw [ht]
    rfl
  have hstops : Inv (goes s t .idle) := by
    apply inv_stops hs
    · rw [ht]
      rfl
    · rw [ht]
      exact nofun
  rw [goes_waited ha]
  refine inv_waited hstops ha hcond hvar fun u hu => ?_
  by_cases hut : u = t
  · rw [hut, goes_self] at hu
    cases hu
  · rw [goes_of_ne _ _ hut] at hu
    exact hut (hs.oneWaiter u t a hu hwaits)

theorem inv_go (hs : Inv s) (hallowed : Allowed s (.go t)) (h : go s t = .ok s') : Inv s' := by
  unfold go at h
  simp only [Allowed] at hallowed
  split at h
  · cases h
  · cases h
  · next a ht =>
    cases h
    exact inv_woken hs ht
  · next r ht =>
    cases h
    rw [ht] at hallowed
    have hreceiver : t = receiver := by
      have hok := hs.threads t
      rw [ht] at hok
      exact hok
    unfold replyMonJob
    split
    · apply inv_stops hs
      · rw [ht]
        rfl
      · rw [ht]
        exact nofun
    · next a hfound =>
      rw [hreceiver] at ht ⊢
      apply inv_replied hs (getByJobid_mem hfound) (hallowed a hfound)
      rw [ht]
      rfl
  · next a ht =>
    cases h
    have hlisted := hs.refers (t := t) (a := a) (by rw [ht]; rfl)
    rw [update_id hlisted.2]
    apply inv_stops hs
    · rw [ht]
      rfl
    · rw [ht]
      exact nofun
  · next a ht =>
    cases h
    exact inv_takeCallback hs (.inl rfl) ht
  · next a isMon callback ht =>
    cases h
    exact inv_callCallback hs (.inl rfl) ht
  · next a isMon ht =>
    cases h
    cases isMon with
    | true =>
      apply inv_stops hs
      · rw [ht]
        rfl
      · rw [ht]
        exact nofun
    | false => exact inv_signal hs ht
  · next a ht =>
    cases h
    exact inv_popLocked hs ht
  · next conid ht =>
    cases h
    rw [ht] at hallowed
    unfold popByConid
    split
    · apply inv_stops hs
      · rw [ht]
        rfl
      · rw [ht]
        exact nofun
    · next a hfound =>
      apply inv_pop hs (getByConid_mem hfound)
      · rw [ht]
        rfl
      · exact hallowed a hfound
  · next conid a ht =>
    cases h
    exact inv_takeCallback hs (.inr ⟨conid, rfl⟩) ht
  · next conid a isMon callback ht =>
    cases h
    exact inv_callCallback hs (.inr ⟨conid, rfl⟩) ht
  · next conid a isMon ht =>
    cases h
    exact inv_freed hs ht

theorem step_inv {op : Action} (hs : Inv s) (hallowed : Allowed s op) (h : step s op = .ok s') :
    Inv s' := by
  cases op with
  | register conid sync callback =>
    cases h
    exact inv_register hs hallowed conid sync callback
  | checkIn a => exact inv_checkIn hs h
  | serverWait t id => exact inv_serverWait hs hallowed h
  | wake t =>
    -- a thread that sleeps has not been signalled
    change wake s t = .ok s' at h
    unfold wake at h
    split at h
    · next a hasleep =>
      have hok := hs.threads t
      rw [hasleep] at hok
      exact absurd (hok.2.2.symm.trans (hallowed a hasleep)) nofun
    · cases h
  | abandon t => exact inv_abandon hs h
  | reply id r => exact inv_reply hs hallowed h
  | failedSend t id => exact inv_failedSend hs hallowed h
  | disconnect t conid =>
    change disconnect s t conid = .ok s' at h
    unfold disconnect at h
    split at h
    · next hidle =>
      cases h
      have hcleaning : ThreadOk s t (.cleaning conid none) := trivial
      apply inv_goes hs hcleaning
      · rw [hidle]
        rfl
      · rw [hidle]
        exact not_taking nofun
      · rfl
      · exact nofun
    · cases h
  | go t => exact inv_go hs hallowed h

theorem Inv.sound (hs : Inv s) : Sound s where
  unfreed := hs.unfreed
  once a := (hs.ok a).counted
  unheld a hfreed := by
    have hno : ∀ t, (s.thread t).refers ≠ some a := by
      intro t ht
      exact absurd ((hs.refers ht).2.symm.trans hfreed) nofun
    exact ⟨(hs.ok a).freed hfreed, fun t =>
      ⟨fun h => hno t (refers_of_waitsFor h), fun h => hno t (refers_of_answers h),
        fun h => hno t (refers_of_cleans h)⟩⟩
  released a ha := (hs.released a ha).2
  kept a ha hfinished := by
    obtain hmem | hfreed | hclean := hs.accounted a ha
    · exact .inl hmem
    · exact absurd (hfinished.symm.trans ((hs.ok a).freed hfreed)) nofun
    · exact .inr hclean
  waits t a ht := by
    have hok := hs.threads t
    rw [ht] at hok
    exact ⟨hok.1, hok.2.2⟩

/-- In every run in which a job is removed only when no thread waits for it and the receiver does
not work on it, a wait is for one job and one thread and ends with a signal, and no reply is about
a job that another was about that is still waited for, every job is finished once and freed
last. -/
theorem jobs_sound {actions : List Action} {s : Jobs}
    (hadm : Admissible step Allowed noJobs actions) (hrun : run step noJobs actions = .ok s) :
    Sound s :=
  (run_preserves (fun _ _ _ hs ha h => step_inv hs ha h) noJobs actions s inv_noJobs hadm
    hrun).sound

end Steps

/-! ### A job that is waited for -/

def waitedFor : List Action :=
  [.register 3 true true, .serverWait 1 0, .reply 0 .finished, .go receiver, .go receiver,
    .go receiver, .go 1]

theorem waitedFor_allowed : Admissible step Allowed noJobs waitedFor := by
  refine ⟨?_, fun s1 h1 => ?_⟩
  · change 0 < noMonJob
    decide
  cases h1
  refine ⟨fun a _ t => nofun, fun s2 h2 => ?_⟩
  cases h2
  refine ⟨fun a ha _ => ?_, fun s3 h3 => ?_⟩
  · cases ha
    rfl
  cases h3
  refine ⟨trivial, fun s4 h4 => ?_⟩
  cases h4
  refine ⟨trivial, fun s5 h5 => ?_⟩
  cases h5
  refine ⟨trivial, fun s6 h6 => ?_⟩
  cases h6
  exact ⟨trivial, fun _ _ => trivial⟩

theorem jobs_sound_waitedFor :
    ∃ s, run step noJobs waitedFor = .ok s ∧ s.released = [0] ∧ (s.job 0).called = 1 ∧ Sound s :=
  ⟨_, rfl, rfl, rfl, jobs_sound waitedFor_allowed rfl⟩

/-- The connection is closed while a thread waits for a job. The job is removed and finished, and
the thread still sleeps. -/
theorem disconnected_unsound :
    ¬ ∀ actions s, run step noJobs actions = .ok s → Sound s := by
  intro hall
  have hsound := hall [.register 3 true true, .serverWait 1 0, .disconnect 2 3, .go 2, .go 2,
    .go 2, .go 2, .go 2] _ rfl
  have hmem := (hsound.waits 1 0 rfl).1
  exact absurd hmem (List.not_mem_nil)

end MdsPlus.ServerJobs
