import Mathlib.Logic.Equiv.Basic
import Mathlib.Order.Basic
import Mathlib.Tactic.Common

/-!
Sequences whose places in a region are permuted, and sequences that are in order but for some
regions. A hole that is filled from another place moves there; a region is put in order by parts.
-/

namespace MdsPlus.Rearrangement

/-- From the first place of a region to its last. -/
def Inside (s : ℤ × ℤ) (i : ℤ) : Prop := s.1 ≤ i ∧ i ≤ s.2

theorem inside_iff {l r i : ℤ} : Inside (l, r) i ↔ l ≤ i ∧ i ≤ r := Iff.rfl

section Places

variable {α : Type*} {s t : ℤ × ℤ} {f g : ℤ → α} {i j : ℤ}

def Rearranged (s : ℤ × ℤ) (f g : ℤ → α) : Prop :=
  ∃ σ : Equiv.Perm ℤ, (∀ i, ¬ Inside s i → σ i = i) ∧ g = f ∘ σ

namespace Rearranged

theorem refl (s : ℤ × ℤ) (f : ℤ → α) : Rearranged s f f := ⟨Equiv.refl ℤ, fun _ _ => rfl, rfl⟩

theorem trans {h : ℤ → α} (hfg : Rearranged s f g) (hgh : Rearranged s g h) :
    Rearranged s f h := by
  obtain ⟨σ, hσ, rfl⟩ := hfg
  obtain ⟨τ, hτ, rfl⟩ := hgh
  refine ⟨τ.trans σ, fun i hi => ?_, rfl⟩
  rw [Equiv.trans_apply, hτ i hi, hσ i hi]

theorem mono (hfg : Rearranged s f g) (hst : ∀ i, Inside s i → Inside t i) :
    Rearranged t f g := by
  obtain ⟨σ, hσ, rfl⟩ := hfg
  exact ⟨σ, fun i hi => hσ i fun hs => hi (hst i hs), rfl⟩

theorem comp {β : Type*} (hfg : Rearranged s f g) (key : α → β) :
    Rearranged s (key ∘ f) (key ∘ g) := by
  obtain ⟨σ, hσ, rfl⟩ := hfg
  exact ⟨σ, hσ, rfl⟩

theorem outside (hfg : Rearranged s f g) (hi : ¬ Inside s i) : g i = f i := by
  obtain ⟨σ, hσ, rfl⟩ := hfg
  exact congrArg f (hσ i hi)

theorem exists_inside (hfg : Rearranged s f g) (hi : Inside s i) :
    ∃ j, Inside s j ∧ g i = f j := by
  obtain ⟨σ, hσ, rfl⟩ := hfg
  refine ⟨σ i, by_contra fun hout => ?_, rfl⟩
  have hfix : σ i = i := σ.injective (hσ (σ i) hout)
  exact hout (hfix.symm ▸ hi)

theorem move (hi : Inside s i) (hj : Inside s j) (f : ℤ → α) (a : α) :
    Rearranged s (Function.update f i a)
      (Function.update (Function.update f i (f j)) j a) := by
  refine ⟨Equiv.swap i j, fun k hk => ?_, funext fun k => ?_⟩
  · exact Equiv.swap_apply_of_ne_of_ne (fun h => hk (h ▸ hi)) fun h => hk (h ▸ hj)
  · simp only [Function.comp_apply, Equiv.swap_apply_def, Function.update_apply]
    split_ifs <;> simp_all

end Rearranged

end Places

section Order

variable {κ : Type*} [Preorder κ] {s t : ℤ × ℤ} {f g : ℤ → κ} {parts rest : List (ℤ × ℤ)}

def OrderedBut (whole : ℤ × ℤ) (regions : List (ℤ × ℤ)) (f : ℤ → κ) : Prop :=
  ∀ i j, Inside whole i → Inside whole j → i < j →
    (∃ s ∈ regions, Inside s i ∧ Inside s j) ∨ f i ≤ f j

def Apart (regions : List (ℤ × ℤ)) : Prop :=
  regions.Pairwise fun s t => ∀ i, Inside s i → ¬ Inside t i

theorem orderedBut_nil :
    OrderedBut s [] f ↔ ∀ i j, Inside s i → Inside s j → i < j → f i ≤ f j := by
  simp [OrderedBut]

theorem OrderedBut.congr {regions : List (ℤ × ℤ)} (h : OrderedBut s regions f)
    (heq : ∀ i, Inside s i → f i = g i) : OrderedBut s regions g := by
  intro i j hi hj hij
  rw [← heq i hi, ← heq j hj]
  exact h i j hi hj hij

theorem OrderedBut.le_last {l r i : ℤ} (h : OrderedBut (l, r) [] f) (hi : Inside (l, r) i) :
    f i ≤ f r := by
  by_cases hir : i = r
  · rw [hir]
  · have hbounds := inside_iff.1 hi
    exact orderedBut_nil.1 h i r hi (inside_iff.2 ⟨by omega, by omega⟩) (by omega)

theorem OrderedBut.extend {l r : ℤ} (h : OrderedBut (l, r) [] f)
    (hlast : ∀ i, Inside (l, r) i → f i ≤ f (r + 1)) : OrderedBut (l, r + 1) [] f := by
  refine orderedBut_nil.2 fun i j hi hj hij => ?_
  rw [inside_iff] at hi hj
  have hi' : Inside (l, r) i := inside_iff.2 ⟨hi.1, by omega⟩
  by_cases hjr : j = r + 1
  · rw [hjr]
    exact hlast i hi'
  · exact orderedBut_nil.1 h i j hi' (inside_iff.2 ⟨hj.1, by omega⟩) hij

theorem OrderedBut.split {whole : ℤ × ℤ} (h : OrderedBut whole (s :: rest) f)
    (hwhole : ∀ i, Inside s i → Inside whole i)
    (hapart : ∀ t ∈ rest, ∀ i, Inside s i → ¬ Inside t i) (hg : Rearranged s f g)
    (hparts : OrderedBut s parts g) : OrderedBut whole (parts ++ rest) g := by
  -- a place of the region and one outside are in no common region
  have hcross : ∀ i j, Inside whole i → Inside whole j → i < j →
      ¬ (Inside s i ↔ Inside s j) → f i ≤ f j := by
    intro i j hi hj hij hnot
    refine (h i j hi hj hij).resolve_left ?_
    rintro ⟨t, ht, hti, htj⟩
    rcases List.mem_cons.1 ht with rfl | ht
    · exact hnot (iff_of_true hti htj)
    · exact hnot (iff_of_false (fun his => hapart t ht i his hti) fun hjs => hapart t ht j hjs htj)
  intro i j hi hj hij
  by_cases his : Inside s i
  · by_cases hjs : Inside s j
    · refine (hparts i j his hjs hij).imp_left ?_
      rintro ⟨t, ht, hboth⟩
      exact ⟨t, List.mem_append_left _ ht, hboth⟩
    · obtain ⟨i', hi', hval⟩ := hg.exists_inside his
      have hlt : i' < j := by
        simp only [Inside] at his hjs hi'
        omega
      rw [hval, hg.outside hjs]
      exact Or.inr (hcross i' j (hwhole i' hi') hj hlt fun hiff => hjs (hiff.1 hi'))
  · by_cases hjs : Inside s j
    · obtain ⟨j', hj', hval⟩ := hg.exists_inside hjs
      have hlt : i < j' := by
        simp only [Inside] at his hjs hj'
        omega
      rw [hval, hg.outside his]
      exact Or.inr (hcross i j' hi (hwhole j' hj') hlt fun hiff => his (hiff.2 hj'))
    · rw [hg.outside his, hg.outside hjs]
      refine (h i j hi hj hij).imp_left ?_
      rintro ⟨t, ht, hti, htj⟩
      rcases List.mem_cons.1 ht with rfl | ht
      · exact absurd hti his
      · exact ⟨t, List.mem_append_right _ ht, hti, htj⟩

end Order

end MdsPlus.Rearrangement
