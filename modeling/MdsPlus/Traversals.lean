import Mathlib.Algebra.GroupWithZero.Nat
import Mathlib.Data.List.Nodup
import Mathlib.Order.WellFounded

/-!
Traversals of a forest along links. The nodes below a node are listed by generations with a
queue; each node comes once, since it is in one list of one parent and not below itself. What a
loop with links and fuel does is compared with these lists.
-/

namespace MdsPlus.Traversals

variable {α : Type*}

/-! ### Chains of links -/

/-- The links from a node run through the nodes of a list and end there. A link may not be told. -/
def Chain (next : α → Option (Option α)) : Option α → List α → Prop
  | start, [] => start = none
  | start, a :: l => start = some a ∧ ∃ after, next a = some after ∧ Chain next after l

namespace Chain

variable {next next' : α → Option (Option α)} {start : Option α} {l l' : List α}

theorem start_eq (h : Chain next start l) : start = l.head? := by
  cases l with
  | nil => exact h
  | cons a l => exact h.1

theorem unique (h : Chain next start l) (h' : Chain next start l') : l = l' := by
  induction l generalizing start l' with
  | nil =>
    obtain rfl : start = none := h
    cases l' with
    | nil => rfl
    | cons a l' => cases h'.1
  | cons a l ih =>
    obtain ⟨rfl, after, hafter, hrest⟩ := h
    cases l' with
    | nil => cases h'
    | cons b l' =>
      obtain ⟨hb, after', hafter', hrest'⟩ := h'
      cases hb
      rw [hafter] at hafter'
      obtain rfl := Option.some.inj hafter'
      rw [ih hrest hrest']

theorem exists_suffix (h : Chain next start l) {a : α} (ha : a ∈ l) :
    ∃ before rest, l = before ++ a :: rest ∧ Chain next (some a) (a :: rest) := by
  induction l generalizing start with
  | nil => cases ha
  | cons b l ih =>
    by_cases hab : a = b
    · subst hab
      exact ⟨[], l, rfl, rfl, h.2⟩
    · obtain ⟨after, -, hrest⟩ := h.2
      obtain ⟨before, rest, rfl, hchain⟩ := ih hrest (List.mem_of_ne_of_mem hab ha)
      exact ⟨b :: before, rest, rfl, hchain⟩

theorem nodup (h : Chain next start l) : l.Nodup := by
  induction l generalizing start with
  | nil => exact List.nodup_nil
  | cons a l ih =>
    obtain ⟨after, hafter, hrest⟩ := h.2
    refine List.nodup_cons.2 ⟨fun hmem => ?_, ih hrest⟩
    obtain ⟨before, rest, hl, hchain⟩ := hrest.exists_suffix hmem
    have hwhole : Chain next (some a) (a :: l) := ⟨rfl, after, hafter, hrest⟩
    have heq : a :: l = a :: rest := hwhole.unique hchain
    have hlength := congrArg List.length (List.cons.inj heq).2
    rw [hl, List.length_append, List.length_cons] at hlength
    omega

theorem congr (h : Chain next start l) (hnext : ∀ a ∈ l, next' a = next a) :
    Chain next' start l := by
  induction l generalizing start with
  | nil => exact h
  | cons a l ih =>
    obtain ⟨hstart, after, hafter, hrest⟩ := h
    refine ⟨hstart, after, (hnext a List.mem_cons_self).trans hafter, ih hrest fun b hb => ?_⟩
    exact hnext b (List.mem_cons_of_mem a hb)

theorem after {a : α} (h : Chain next start (l ++ a :: l')) :
    ∃ following, next a = some following ∧ Chain next following l' := by
  induction l generalizing start with
  | nil => exact h.2
  | cons b l ih =>
    obtain ⟨following, -, hrest⟩ := h.2
    exact ih hrest

theorem unlink [DecidableEq α] {link : α → Option α} {p c : α} {before rest : List α}
    (h : Chain (fun a => some (link a)) start (before ++ p :: c :: rest)) :
    Chain (fun a => some (Function.update link p (link c) a)) start (before ++ p :: rest) := by
  have hnodup := h.nodup
  induction before generalizing start with
  | nil =>
    obtain ⟨rfl, after, hafter, hrest⟩ := h
    obtain ⟨hc, after', hafter', hrest'⟩ := hrest
    obtain rfl := Option.some.inj hafter'
    refine ⟨rfl, link c, congrArg some (Function.update_self ..), hrest'.congr fun a ha => ?_⟩
    have hne : a ≠ p := by
      rintro rfl
      exact (List.nodup_cons.1 hnodup).1 (List.mem_cons_of_mem c ha)
    rw [Function.update_of_ne hne]
  | cons b before ih =>
    obtain ⟨rfl, after, hafter, hrest⟩ := h
    have hne : b ≠ p := by
      rintro rfl
      exact (List.nodup_cons.1 hnodup).1 (List.mem_append_right before List.mem_cons_self)
    refine ⟨rfl, after, ?_, ih hrest (List.nodup_cons.1 hnodup).2⟩
    exact (congrArg some (Function.update_of_ne hne ..)).trans hafter

end Chain

/-- Whether a node is come to along links that are always told; `none` when the fuel runs out. -/
def reaches [DecidableEq α] (next : α → Option α) (a : α) : ℕ → Option α → Option Bool
  | _, none => some false
  | 0, some _ => none
  | fuel + 1, some b => if b = a then some true else reaches next a fuel (next b)

theorem reaches_eq [DecidableEq α] {next : α → Option α} {start : Option α} {l : List α}
    (h : Chain (fun b => some (next b)) start l) (a : α) {fuel : ℕ} (hfuel : l.length ≤ fuel) :
    reaches next a fuel start = some (decide (a ∈ l)) := by
  induction l generalizing start fuel with
  | nil =>
    obtain rfl : start = none := h
    cases fuel <;> simp [reaches]
  | cons b l ih =>
    obtain ⟨rfl, after, hafter, hrest⟩ := h
    cases hafter
    rw [List.length_cons] at hfuel
    obtain ⟨fuel, rfl⟩ : ∃ n, fuel = n + 1 := ⟨fuel - 1, by omega⟩
    rw [reaches]
    split
    · rename_i hb
      simp [hb]
    · rename_i hb
      have hfound : reaches next a fuel (next b) = some (decide (a ∈ l)) := ih hrest (by omega)
      simp [hfound, Ne.symm hb]

/-! ### The nodes below a node -/

structure Forest (α : Type*) where
  kids : α → List α
  nodup : ∀ p, (kids p).Nodup
  once : ∀ {c p q}, c ∈ kids p → c ∈ kids q → p = q
  ends : WellFounded fun c p => c ∈ kids p

namespace Forest

variable (f : Forest α) {x y p c : α} {queue : List α}

/-- A node is below those in whose list it is, and below what these are below of. -/
def Below (x y : α) : Prop := Relation.TransGen (fun p c => c ∈ f.kids p) x y

theorem not_below_self (x : α) : ¬ f.Below x x := by
  intro h
  have hflip : Relation.TransGen (fun c p => c ∈ f.kids p) x x := by
    rw [← Relation.transGen_swap]
    exact h
  exact f.ends.transGen.asymmetric x x hflip hflip

noncomputable def count (x : α) : ℕ :=
  f.ends.fix (fun x count => 1 + ((f.kids x).attach.map fun c => count c.1 c.2).sum) x

theorem count_eq (x : α) : f.count x = 1 + ((f.kids x).map f.count).sum := by
  rw [count, WellFounded.fix_eq]
  congr 2
  exact List.attach_map_val

noncomputable def total (queue : List α) : ℕ := (queue.map f.count).sum

theorem total_append (q q' : List α) : f.total (q ++ q') = f.total q + f.total q' := by
  rw [total, total, total, List.map_append, List.sum_append]

theorem total_cons (x : α) (queue : List α) :
    f.total (x :: queue) = f.total (queue ++ f.kids x) + 1 := by
  rw [total_append, total, List.map_cons, List.sum_cons, count_eq, total, total]
  omega

theorem length_le_total (queue : List α) : queue.length ≤ f.total queue := by
  induction queue with
  | nil => exact Nat.zero_le _
  | cons x queue ih =>
    rw [total, List.map_cons, List.sum_cons, List.length_cons, count_eq]
    rw [total] at ih
    omega

theorem count_le_total (h : x ∈ queue) : f.count x ≤ f.total queue := by
  induction queue with
  | nil => cases h
  | cons y queue ih =>
    rw [total, List.map_cons, List.sum_cons]
    rw [total] at ih
    rcases List.mem_cons.1 h with rfl | h
    · exact Nat.le_add_right _ _
    · exact (ih h).trans (Nat.le_add_left _ _)

theorem count_le_of_below (h : f.Below x y) : f.count y ≤ f.count x := by
  have hkid : ∀ {p c}, c ∈ f.kids p → f.count c ≤ f.count p := by
    intro p c hc
    have htotal := f.count_le_total hc
    rw [total] at htotal
    rw [f.count_eq p]
    omega
  induction h with
  | single hc => exact hkid hc
  | tail _ hc ih => exact (hkid hc).trans ih

theorem length_kids_le (x : α) : (f.kids x).length ≤ f.count x := by
  have hlength := f.length_le_total (f.kids x)
  rw [total] at hlength
  rw [count_eq]
  omega

/-- The nodes below those of a queue, by generations. -/
noncomputable def order (queue : List α) : List α :=
  match queue with
  | [] => []
  | x :: queue => f.kids x ++ order (queue ++ f.kids x)
termination_by f.total queue
decreasing_by
  rw [total_cons]
  omega

theorem order_nil : f.order [] = [] := by
  rw [order]

theorem order_cons (x : α) (queue : List α) :
    f.order (x :: queue) = f.kids x ++ f.order (queue ++ f.kids x) := by
  rw [order]

theorem order_length (queue : List α) :
    (f.order queue).length + queue.length = f.total queue := by
  induction hn : f.total queue using Nat.strong_induction_on generalizing queue with
  | _ n ih =>
    subst hn
    cases queue with
    | nil =>
      rw [order_nil]
      rfl
    | cons x queue =>
      have hrest := ih _ (by
        rw [total_cons]
        omega) (queue ++ f.kids x) rfl
      rw [List.length_append] at hrest
      rw [order_cons, total_cons, List.length_append, List.length_cons]
      omega

variable {f}

theorem mem_order : y ∈ f.order queue ↔ ∃ x ∈ queue, f.Below x y := by
  induction hn : f.total queue using Nat.strong_induction_on generalizing queue with
  | _ n ih =>
    cases queue with
    | nil => simp [order_nil]
    | cons x queue =>
      have hlt : f.total (queue ++ f.kids x) < n := by
        rw [← hn, total_cons]
        omega
      rw [order_cons, List.mem_append, ih _ hlt rfl]
      constructor
      · rintro (hkid | ⟨z, hz, hbelow⟩)
        · exact ⟨x, List.mem_cons_self, .single hkid⟩
        · rcases List.mem_append.1 hz with hz | hz
          · exact ⟨z, List.mem_cons_of_mem x hz, hbelow⟩
          · exact ⟨x, List.mem_cons_self, .head hz hbelow⟩
      · rintro ⟨z, hz, hbelow⟩
        rcases List.mem_cons.1 hz with rfl | hz
        · rcases Relation.TransGen.head'_iff.1 hbelow with ⟨c, hc, hrest⟩
          rcases Relation.reflTransGen_iff_eq_or_transGen.1 hrest with rfl | hrest
          · exact Or.inl hc
          · exact Or.inr ⟨c, List.mem_append_right _ hc, hrest⟩
        · exact Or.inr ⟨z, List.mem_append_left _ hz, hbelow⟩

theorem below_kid (hc : c ∈ f.kids p) (h : f.Below x c) : x = p ∨ f.Below x p := by
  rcases Relation.TransGen.tail'_iff.1 h with ⟨q, hq, hlast⟩
  obtain rfl := f.once hlast hc
  exact (Relation.reflTransGen_iff_eq_or_transGen.1 hq).imp Eq.symm id

structure Apart (f : Forest α) (queue : List α) : Prop where
  nodup : queue.Nodup
  apart : ∀ x ∈ queue, ∀ y ∈ queue, ¬ f.Below x y

theorem apart_singleton (x : α) : Apart f [x] := by
  refine ⟨List.nodup_singleton x, fun y hy z hz => ?_⟩
  rw [List.mem_singleton.1 hy, List.mem_singleton.1 hz]
  exact f.not_below_self x

theorem Apart.step (h : Apart f (x :: queue)) : Apart f (queue ++ f.kids x) := by
  have hx := List.mem_cons_self (a := x) (l := queue)
  have hmem : ∀ {z}, z ∈ queue → z ∈ x :: queue := List.mem_cons_of_mem x
  have hkid : ∀ {c}, c ∈ f.kids x → f.Below x c := fun hc => .single hc
  constructor
  · refine List.nodup_append'.2 ⟨(List.nodup_cons.1 h.nodup).2, f.nodup x, fun z hz hkids => ?_⟩
    exact h.apart x hx z (hmem hz) (hkid hkids)
  · intro y hy z hz hbelow
    rcases List.mem_append.1 hy with hqueue | hkids
    · rcases List.mem_append.1 hz with hqueue' | hkids'
      · exact h.apart y (hmem hqueue) z (hmem hqueue') hbelow
      · rcases below_kid hkids' hbelow with rfl | habove
        · exact (List.nodup_cons.1 h.nodup).1 hqueue
        · exact h.apart y (hmem hqueue) x hx habove
    · rcases List.mem_append.1 hz with hqueue' | hkids'
      · exact h.apart x hx z (hmem hqueue') (.head hkids hbelow)
      · rcases below_kid hkids' hbelow with rfl | habove
        · exact f.not_below_self y (hkid hkids)
        · exact f.not_below_self x (.head hkids habove)

theorem Apart.order_nodup (h : Apart f queue) : (f.order queue).Nodup := by
  induction hn : f.total queue using Nat.strong_induction_on generalizing queue with
  | _ n ih =>
    cases queue with
    | nil =>
      rw [order_nil]
      exact List.nodup_nil
    | cons x queue =>
      have hlt : f.total (queue ++ f.kids x) < n := by
        rw [← hn, total_cons]
        omega
      rw [order_cons]
      refine List.nodup_append'.2 ⟨f.nodup x, ih _ hlt h.step rfl, fun c hc hmem => ?_⟩
      obtain ⟨y, hy, hbelow⟩ := mem_order.1 hmem
      exact h.step.apart y hy c (List.mem_append_right _ hc) hbelow

end Forest

/-! ### The search -/

variable {σ : Type*}

def select (accepts : σ → α → σ × Bool) (s : σ) : List α → σ × List α
  | [] => (s, [])
  | a :: l =>
      let (s', rest) := select accepts (accepts s a).1 l
      (s', if (accepts s a).2 then a :: rest else rest)

/-- The queue, the state of what accepts, and what is accepted so far. -/
structure Visit (α σ : Type*) where
  queue : List α
  state : σ
  answer : List α

/-- A node is put into the queue and is looked at. -/
def Visit.add (accepts : σ → α → σ × Bool) (v : Visit α σ) (a : α) : Visit α σ where
  queue := v.queue ++ [a]
  state := (accepts v.state a).1
  answer := if (accepts v.state a).2 then v.answer ++ [a] else v.answer

/-- The nodes along a chain; `none` when the fuel runs out. -/
def visit (next : α → Option (Option α)) (accepts : σ → α → σ × Bool) :
    ℕ → Option α → Visit α σ → Option (Visit α σ)
  | _, none, v => some v
  | 0, some _, _ => none
  | fuel + 1, some a, v =>
      (next a).bind fun after => visit next accepts fuel after (v.add accepts a)

def search (first : α → Option α) (next : α → Option (Option α)) (accepts : σ → α → σ × Bool) :
    ℕ → Visit α σ → Option (List α)
  | _, ⟨[], _, answer⟩ => some answer
  | 0, ⟨_ :: _, _, _⟩ => none
  | fuel + 1, ⟨a :: queue, state, answer⟩ =>
      (visit next accepts fuel (first a) ⟨queue, state, answer⟩).bind
        (search first next accepts fuel)

variable {first : α → Option α} {next : α → Option (Option α)} {accepts : σ → α → σ × Bool}

theorem select_append (s : σ) (l l' : List α) :
    select accepts s (l ++ l') =
      ((select accepts (select accepts s l).1 l').1,
        (select accepts s l).2 ++ (select accepts (select accepts s l).1 l').2) := by
  induction l generalizing s with
  | nil => rfl
  | cons a l ih =>
    simp only [List.cons_append, select, ih]
    split <;> rfl

theorem select_eq_filter {s : σ} {l : List α} {p : α → Bool}
    (h : ∀ s, ∀ a ∈ l, (accepts s a).2 = p a) : (select accepts s l).2 = l.filter p := by
  induction l generalizing s with
  | nil => rfl
  | cons a l ih =>
    have hrest : (select accepts (accepts s a).1 l).2 = l.filter p :=
      ih fun s b hb => h s b (List.mem_cons_of_mem a hb)
    rw [List.filter_cons, ← h s a List.mem_cons_self, ← hrest]
    rfl

theorem visit_eq {start : Option α} {l : List α} (h : Chain next start l) {fuel : ℕ}
    (hfuel : l.length ≤ fuel) (v : Visit α σ) :
    visit next accepts fuel start v = some ⟨v.queue ++ l, (select accepts v.state l).1,
      v.answer ++ (select accepts v.state l).2⟩ := by
  induction l generalizing start fuel v with
  | nil =>
    obtain rfl : start = none := h
    cases fuel <;> simp [visit, select]
  | cons a l ih =>
    obtain ⟨rfl, after, hafter, hrest⟩ := h
    rw [List.length_cons] at hfuel
    obtain ⟨fuel, rfl⟩ : ∃ n, fuel = n + 1 := ⟨fuel - 1, by omega⟩
    rw [visit, hafter, Option.bind_some, ih hrest (by omega)]
    simp only [Visit.add, select, List.append_assoc, List.singleton_append]
    split <;> simp

theorem search_eq (f : Forest α) (nodes : α → Prop) {fuel : ℕ}
    (hkids : ∀ a, nodes a → ∀ c ∈ f.kids a, nodes c)
    (hchain : ∀ a, nodes a → Chain next (first a) (f.kids a)) {v : Visit α σ}
    (hqueue : ∀ a ∈ v.queue, nodes a) (hfuel : f.total v.queue ≤ fuel) :
    search first next accepts fuel v =
      some (v.answer ++ (select accepts v.state (f.order v.queue)).2) := by
  induction fuel generalizing v with
  | zero =>
    obtain ⟨queue, state, answer⟩ := v
    have hlength := (f.length_le_total queue).trans hfuel
    obtain rfl := List.length_eq_zero_iff.1 (Nat.le_zero.1 hlength)
    simp [search, Forest.order_nil, select]
  | succ fuel ih =>
    obtain ⟨queue, state, answer⟩ := v
    cases queue with
    | nil => simp [search, Forest.order_nil, select]
    | cons a queue =>
      dsimp only at hfuel hqueue
      rw [Forest.total_cons] at hfuel
      have ha := hqueue a List.mem_cons_self
      have hlength : (f.kids a).length ≤ fuel := by
        have htotal := f.length_le_total (queue ++ f.kids a)
        rw [List.length_append] at htotal
        omega
      have hqueue' : ∀ c ∈ queue ++ f.kids a, nodes c := by
        intro c hc
        rcases List.mem_append.1 hc with hc | hc
        · exact hqueue c (List.mem_cons_of_mem a hc)
        · exact hkids a ha c hc
      have htotal' : f.total (queue ++ f.kids a) ≤ fuel := by omega
      rw [search, visit_eq (hchain a ha) hlength, Option.bind_some, ih hqueue' htotal']
      simp only [Forest.order_cons, select_append, List.append_assoc]

end MdsPlus.Traversals
