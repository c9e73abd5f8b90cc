import Mathlib.Data.Finset.Card
import MdsPlus.Traversals

/-!
Marking nodes depth first. A node that is not marked yet is marked, and then those that come after
it, one by one. When everything that comes after marked nodes was marked before, the nodes marked
anew are those that can be come to.
-/

namespace MdsPlus.Marking

open Traversals

variable {α β : Type*}

/-- The turns of a loop along links, each of which may fail; `none` also when the fuel runs out. -/
def follow (next : α → Option α) (f : β → α → Option β) : ℕ → β → Option α → Option β
  | _, b, none => some b
  | 0, _, some _ => none
  | fuel + 1, b, some a => (f b a).bind fun b => follow next f fuel b (next a)

theorem follow_eq {next : α → Option α} {f : β → α → Option β} {start : Option α} {l : List α}
    (h : Chain (fun a => some (next a)) start l) {fuel : ℕ} (hfuel : l.length ≤ fuel) (b : β) :
    follow next f fuel b start = l.foldlM f b := by
  induction l generalizing start fuel b with
  | nil =>
    obtain rfl : start = none := h
    cases fuel <;> rfl
  | cons a l ih =>
    obtain ⟨rfl, after, hafter, hrest⟩ := h
    cases hafter
    rw [List.length_cons] at hfuel
    obtain ⟨fuel, rfl⟩ : ∃ n, fuel = n + 1 := ⟨fuel - 1, by omega⟩
    rw [follow, List.foldlM_cons]
    exact congrArg _ (funext fun b => ih hrest (by omega) b)

theorem foldlM_related {γ : Type*} {related : β → γ → Prop} {f : β → α → Option β}
    {g : γ → α → Option γ} {l : List α}
    (hstep : ∀ a ∈ l, ∀ b c c', related b c → g c a = some c' →
      ∃ b', f b a = some b' ∧ related b' c')
    {b : β} {c c' : γ} (h : related b c) (hfold : l.foldlM g c = some c') :
    ∃ b', l.foldlM f b = some b' ∧ related b' c' := by
  induction l generalizing b c with
  | nil =>
    obtain rfl : c = c' := Option.some.inj hfold
    exact ⟨b, rfl, h⟩
  | cons a l ih =>
    rw [List.foldlM_cons] at hfold
    obtain ⟨c₁, hc₁, hrest⟩ := Option.bind_eq_some_iff.1 hfold
    obtain ⟨b₁, hb₁, hrelated⟩ := hstep a List.mem_cons_self b c c₁ h hc₁
    obtain ⟨b', hb', hrelated'⟩ :=
      ih (fun a' ha' => hstep a' (List.mem_cons_of_mem a ha')) hrelated hrest
    refine ⟨b', ?_, hrelated'⟩
    rw [List.foldlM_cons, hb₁]
    exact hb'

variable {next : α → List α} {seen seen' : List α} {x y : α}

/-- The list of the marked nodes, the last that was marked first; `none` when the fuel runs out. -/
def visit [DecidableEq α] (next : α → List α) : ℕ → List α → α → Option (List α)
  | 0, _, _ => none
  | fuel + 1, seen, x =>
      if x ∈ seen then some seen else (next x).foldlM (visit next fuel) (x :: seen)

def Reaches (next : α → List α) : α → α → Prop := Relation.ReflTransGen fun a b => b ∈ next a

/-- Nodes were marked from those of a list on. -/
structure Visited (next : α → List α) (starts seen seen' : List α) : Prop where
  nodup : seen'.Nodup
  kept : seen ⊆ seen'
  longer : seen.length ≤ seen'.length
  covered : starts ⊆ seen'
  reached : ∀ y ∈ seen', y ∈ seen ∨ ∃ x ∈ starts, Reaches next x y
  followed : ∀ y ∈ seen', y ∉ seen → next y ⊆ seen'

namespace Visited

theorem refl (hseen : seen.Nodup) : Visited next [] seen seen where
  nodup := hseen
  kept := List.Subset.refl seen
  longer := Nat.le_refl _
  covered := List.nil_subset seen
  reached _ hy := Or.inl hy
  followed _ hy hnot := absurd hy hnot

theorem append {starts starts' seen'' : List α} (h : Visited next starts seen seen')
    (h' : Visited next starts' seen' seen'') : Visited next (starts ++ starts') seen seen'' where
  nodup := h'.nodup
  kept := List.Subset.trans h.kept h'.kept
  longer := Nat.le_trans h.longer h'.longer
  covered := List.append_subset.2 ⟨List.Subset.trans h.covered h'.kept, h'.covered⟩
  reached y hy := by
    rcases h'.reached y hy with hseen' | ⟨x, hx, hxy⟩
    · rcases h.reached y hseen' with hseen | ⟨x, hx, hxy⟩
      · exact Or.inl hseen
      · exact Or.inr ⟨x, List.mem_append_left _ hx, hxy⟩
    · exact Or.inr ⟨x, List.mem_append_right _ hx, hxy⟩
  followed y hy hnot := by
    by_cases hseen' : y ∈ seen'
    · exact List.Subset.trans (h.followed y hseen' hnot) h'.kept
    · exact h'.followed y hy hseen'

theorem node (hx : x ∉ seen) (h : Visited next (next x) (x :: seen) seen') :
    Visited next [x] seen seen' where
  nodup := h.nodup
  kept := List.Subset.trans (List.subset_cons_self x seen) h.kept
  longer := Nat.le_trans (Nat.le_succ _) h.longer
  covered := List.cons_subset.2 ⟨h.kept List.mem_cons_self, List.nil_subset _⟩
  reached y hy := by
    rcases h.reached y hy with hmem | ⟨z, hz, hzy⟩
    · rcases List.mem_cons.1 hmem with rfl | hseen
      · exact Or.inr ⟨y, List.mem_singleton_self y, .refl⟩
      · exact Or.inl hseen
    · exact Or.inr ⟨x, List.mem_singleton_self x, .head hz hzy⟩
  followed y hy hnot := by
    by_cases hyx : y = x
    · subst hyx
      exact h.covered
    · exact h.followed y hy fun hmem => (List.mem_cons.1 hmem).elim hyx hnot

theorem again (hseen : seen.Nodup) (hx : x ∈ seen) : Visited next [x] seen seen where
  nodup := hseen
  kept := List.Subset.refl seen
  longer := Nat.le_refl _
  covered := List.cons_subset.2 ⟨hx, List.nil_subset _⟩
  reached _ hy := Or.inl hy
  followed _ hy hnot := absurd hy hnot

/-- From nodes with all that comes after them, the nodes that were marked are those that are come
to, and what comes after them is marked. -/
theorem mem_iff {starts : List α} (h : Visited next starts seen seen')
    (hseen : ∀ y ∈ seen, next y ⊆ seen) :
    (y ∈ seen' ↔ y ∈ seen ∨ ∃ x ∈ starts, Reaches next x y) ∧ (y ∈ seen' → next y ⊆ seen') := by
  have hclosed : ∀ z ∈ seen', next z ⊆ seen' := by
    intro z hz
    by_cases hmem : z ∈ seen
    · exact List.Subset.trans (hseen z hmem) h.kept
    · exact h.followed z hz hmem
  refine ⟨⟨h.reached y, ?_⟩, hclosed y⟩
  rintro (hmem | ⟨x, hx, hxy⟩)
  · exact h.kept hmem
  · induction hxy with
    | refl => exact h.covered hx
    | tail _ hstep ih => exact hclosed _ ih hstep

end Visited

/-- The nodes that can be come to are finitely many, so the fuel need not be more than them. -/
theorem visit_visited [DecidableEq α] {within : Finset α}
    (hwithin : ∀ x ∈ within, ∀ y ∈ next x, y ∈ within)
    {fuel : ℕ} (hseen : seen.Nodup) (hsub : ∀ y ∈ seen, y ∈ within) (hx : x ∈ within)
    (hfuel : within.card < seen.length + fuel) :
    ∃ seen', visit next fuel seen x = some seen' ∧ Visited next [x] seen seen' ∧
      ∀ y ∈ seen', y ∈ within := by
  induction fuel generalizing seen x with
  | zero =>
    have hle : seen.length ≤ within.card := by
      rw [← List.toFinset_card_of_nodup hseen]
      exact Finset.card_le_card fun y hy => hsub y (List.mem_toFinset.1 hy)
    omega
  | succ fuel ih =>
    rw [visit]
    split
    · rename_i hmem
      exact ⟨seen, rfl, .again hseen hmem, hsub⟩
    · rename_i hnot
      -- the nodes behind the first are marked with one more marked each time
      have hall : ∀ (l seen : List α), (∀ y ∈ l, y ∈ within) → seen.Nodup →
          (∀ y ∈ seen, y ∈ within) → within.card < seen.length + fuel →
          ∃ seen', l.foldlM (visit next fuel) seen = some seen' ∧ Visited next l seen seen' ∧
            ∀ y ∈ seen', y ∈ within := by
        intro l
        induction l with
        | nil => exact fun seen _ hseen hsub _ => ⟨seen, rfl, .refl hseen, hsub⟩
        | cons y l ihl =>
          intro seen hl hseen hsub hcard
          obtain ⟨seen₁, hvisit, hvisited, hsub₁⟩ :=
            ih hseen hsub (hl y List.mem_cons_self) hcard
          have hlonger := hvisited.longer
          obtain ⟨seen₂, hfold, hvisited₂, hsub₂⟩ :=
            ihl seen₁ (fun z hz => hl z (List.mem_cons_of_mem y hz)) hvisited.nodup hsub₁ (by omega)
          refine ⟨seen₂, ?_, hvisited.append hvisited₂, hsub₂⟩
          rw [List.foldlM_cons, hvisit]
          exact hfold
      have hsub' : ∀ y ∈ x :: seen, y ∈ within := by
        intro y hy
        rcases List.mem_cons.1 hy with rfl | hy
        · exact hx
        · exact hsub y hy
      obtain ⟨seen', hfold, hvisited, hsub''⟩ := hall (next x) (x :: seen) (hwithin x hx)
        (List.nodup_cons.2 ⟨hnot, hseen⟩) hsub' (by rw [List.length_cons]; omega)
      exact ⟨seen', hfold, .node hnot hvisited, hsub''⟩

end MdsPlus.Marking
