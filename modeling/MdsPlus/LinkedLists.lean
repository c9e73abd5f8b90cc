import Mathlib.Data.List.Induction
import Mathlib.Data.List.Nodup

/-!
Doubly linked lists kept in two link functions, with a head and a tail pointer. The relation
says which list of cells the links run through, and it is kept by appending a cell, and by
taking one off at either end.
-/

namespace MdsPlus.LinkedLists

variable {α : Type*}

def Linked (next previous : α → Option α) :
    Option α → Option α → List α → Option α → Option α → Prop
  | before, first, [], last, after => first = after ∧ last = before
  | before, first, a :: l, last, after =>
      first = some a ∧ previous a = before ∧ Linked next previous (some a) (next a) l last after

variable {next previous next' previous' : α → Option α}
variable {before first last after : Option α} {l l' : List α} {x : α}

theorem linked_append :
    Linked next previous before first (l ++ l') last after ↔
      ∃ y z, Linked next previous before first l y z ∧ Linked next previous y z l' last after := by
  induction l generalizing before first with
  | nil =>
    constructor
    · intro h
      exact ⟨before, first, ⟨rfl, rfl⟩, h⟩
    · intro ⟨y, z, ⟨hz, hy⟩, h⟩
      subst hz hy
      exact h
  | cons a l ih =>
    simp only [List.cons_append, Linked, ih]
    constructor
    · intro ⟨hfirst, hprev, y, z, h, h'⟩
      exact ⟨y, z, ⟨hfirst, hprev, h⟩, h'⟩
    · intro ⟨y, z, ⟨hfirst, hprev, h⟩, h'⟩
      exact ⟨hfirst, hprev, y, z, h, h'⟩

theorem linked_concat :
    Linked next previous before first (l ++ [x]) last after ↔
      last = some x ∧ next x = after ∧
        Linked next previous before first l (previous x) (some x) := by
  rw [linked_append]
  constructor
  · intro ⟨y, z, h, hz, hy, hnext, hlast⟩
    subst hz hy
    exact ⟨hlast, hnext, h⟩
  · intro ⟨hlast, hnext, h⟩
    exact ⟨previous x, some x, h, rfl, rfl, hnext, hlast⟩

theorem Linked.congr (h : Linked next previous before first l last after)
    (hnext : ∀ a ∈ l, next' a = next a) (hprev : ∀ a ∈ l, previous' a = previous a) :
    Linked next' previous' before first l last after := by
  induction l generalizing before first with
  | nil => exact h
  | cons a l ih =>
    obtain ⟨hfirst, hbefore, hrest⟩ := h
    refine ⟨hfirst, (hprev a (List.mem_cons_self ..)).trans hbefore, ?_⟩
    rw [hnext a (List.mem_cons_self ..)]
    exact ih hrest (fun b hb => hnext b (List.mem_cons_of_mem _ hb))
      fun b hb => hprev b (List.mem_cons_of_mem _ hb)

theorem Linked.first_eq (h : Linked next previous before first l last none) : first = l.head? := by
  cases l with
  | nil => exact h.1
  | cons a l => exact h.1

theorem Linked.last_eq (h : Linked next previous none first l last after) :
    last = l.getLast? := by
  induction l using List.reverseRecOn with
  | nil => exact h.2
  | append_singleton l x _ =>
    rw [List.getLast?_concat]
    exact (linked_concat.1 h).1

theorem Linked.exists_last (h : Linked next previous before first l last after) (hne : l ≠ []) :
    ∃ x ∈ l, last = some x := by
  induction l using List.reverseRecOn with
  | nil => exact absurd rfl hne
  | append_singleton l x _ =>
    exact ⟨x, List.mem_append_right l (List.mem_singleton_self x), (linked_concat.1 h).1⟩

theorem Linked.head (h : Linked next previous before first l last after)
    (hx : l.head? = some x) : first = some x ∧ previous x = before := by
  cases l with
  | nil => cases hx
  | cons a l =>
    cases hx
    exact ⟨h.1, h.2.1⟩

theorem Linked.getLast (h : Linked next previous before first l last after)
    (hx : l.getLast? = some x) : last = some x ∧ next x = after := by
  induction l using List.reverseRecOn with
  | nil => cases hx
  | append_singleton l a _ =>
    rw [List.getLast?_concat] at hx
    cases hx
    exact ⟨(linked_concat.1 h).1, (linked_concat.1 h).2.1⟩

theorem Linked.links (h : Linked next previous none first (l ++ x :: l') last none) :
    next x = l'.head? ∧ previous x = l.getLast? := by
  obtain ⟨y, z, hl, rfl, hprev, hrest⟩ := linked_append.1 h
  exact ⟨hrest.first_eq, hprev.trans hl.last_eq⟩

theorem Linked.relink {before' after' : Option α}
    (h : Linked next previous before first l last after) (hne : l ≠ []) (hl : l.Nodup)
    (hnext : ∀ a ∈ l, some a ≠ last → next' a = next a)
    (hlast : ∀ a ∈ l, some a = last → next' a = after')
    (hprev : ∀ a ∈ l, some a ≠ first → previous' a = previous a)
    (hfirst : ∀ a ∈ l, some a = first → previous' a = before') :
    Linked next' previous' before' first l last after' := by
  induction l generalizing before first before' with
  | nil => exact absurd rfl hne
  | cons a l ih =>
    obtain ⟨rfl, hbefore, hrest⟩ := h
    obtain ⟨ha, hl⟩ := List.nodup_cons.1 hl
    refine ⟨rfl, hfirst a List.mem_cons_self rfl, ?_⟩
    cases l with
    | nil =>
      obtain ⟨hafter, rfl⟩ := hrest
      exact ⟨hlast a List.mem_cons_self rfl, rfl⟩
    | cons b l =>
      have hmem : ∀ {c}, c ∈ b :: l → c ∈ a :: b :: l := List.mem_cons_of_mem a
      have hne : ∀ {c}, c ∈ b :: l → some c ≠ some a := by
        intro c hc heq
        exact ha (Option.some.inj heq ▸ hc)
      have hlast_ne : some a ≠ last := by
        obtain ⟨x, hx, rfl⟩ := hrest.exists_last (List.cons_ne_nil b l)
        exact (hne hx).symm
      rw [hnext a List.mem_cons_self hlast_ne]
      refine ih hrest (List.cons_ne_nil b l) hl (fun c hc => hnext c (hmem hc))
        (fun c hc => hlast c (hmem hc)) ?_ ?_
      · exact fun c hc _ => hprev c (hmem hc) (hne hc)
      · intro c hc hfirst
        rw [hprev c (hmem hc) (hne hc)]
        obtain rfl : b = c := Option.some.inj (hrest.1.symm.trans hfirst.symm)
        exact hrest.2.1

section Edits

variable [DecidableEq α]

theorem Linked.popFront (h : Linked next previous none first (x :: l) last none) (hl : l.Nodup) :
    Linked next ((next x).elim previous fun y => Function.update previous y none) none (next x) l
      ((next x).elim none fun _ => last) none := by
  obtain ⟨rfl, -, h⟩ := h
  cases l with
  | nil =>
    rw [h.1]
    exact ⟨rfl, rfl⟩
  | cons y l =>
    obtain ⟨hy, -, hrest⟩ := h
    rw [hy]
    refine ⟨rfl, Function.update_self .., ?_⟩
    apply hrest.congr (fun _ _ => rfl)
    intro a ha
    have hay : a ≠ y := fun he => (List.nodup_cons.mp hl).1 (he ▸ ha)
    exact Function.update_of_ne hay ..

end Edits

end MdsPlus.LinkedLists
