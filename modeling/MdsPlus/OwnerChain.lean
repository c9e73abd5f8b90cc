import Mathlib.Data.List.Range

/-!
Entries of an array, each with an owner, linked per owner from the newest entry to
the oldest. A link is one more than an index, and zero ends a chain. When the array
is closed up over a removed entry the links to it are redirected and the links
above it are lowered by one.
-/

namespace MdsPlus.OwnerChain

variable {α : Type*} [DecidableEq α]

/-- The link to the newest entry of `a` below a bound. -/
def lastOwned (owner : ℕ → α) (a : α) : ℕ → ℕ
  | 0 => 0
  | b + 1 => if owner b = a then b + 1 else lastOwned owner a b

theorem lastOwned_succ (owner : ℕ → α) (a : α) (b : ℕ) :
    lastOwned owner a (b + 1) = if owner b = a then b + 1 else lastOwned owner a b := rfl

theorem lastOwned_le (owner : ℕ → α) (a : α) (b : ℕ) : lastOwned owner a b ≤ b := by
  induction b with
  | zero => exact Nat.le_refl 0
  | succ b ih =>
    rw [lastOwned]
    split
    · exact Nat.le_refl _
    · omega

theorem lastOwned_eq_succ_iff (owner : ℕ → α) (a : α) (b r : ℕ) :
    lastOwned owner a b = r + 1 ↔ r < b ∧ owner r = a ∧ ∀ k, r < k → k < b → owner k ≠ a := by
  induction b with
  | zero => simp [lastOwned]
  | succ b ih =>
    rw [lastOwned]
    by_cases hb : owner b = a
    · rw [if_pos hb]
      constructor
      · intro h
        obtain rfl : b = r := by omega
        exact ⟨by omega, hb, fun k _ _ => by omega⟩
      · rintro ⟨hr, _, hlater⟩
        by_contra hne
        exact hlater b (by omega) (by omega) hb
    · rw [if_neg hb, ih]
      constructor
      · rintro ⟨hr, hown, hlater⟩
        refine ⟨by omega, hown, fun k hk hkb => ?_⟩
        by_cases hkb' : k = b
        · rwa [hkb']
        · exact hlater k hk (by omega)
      · rintro ⟨hr, hown, hlater⟩
        have hne : r ≠ b := by
          rintro rfl
          exact hb hown
        exact ⟨by omega, hown, fun k hk hkb => hlater k hk (by omega)⟩

theorem lastOwned_congr (owner owner' : ℕ → α) (a : α) (b : ℕ)
    (h : ∀ k, k < b → owner' k = owner k) : lastOwned owner' a b = lastOwned owner a b := by
  induction b with
  | zero => rfl
  | succ b ih => rw [lastOwned, lastOwned, h b (by omega), ih fun k hk => h k (by omega)]

theorem lt_lastOwned (owner : ℕ → α) (b r : ℕ) (hr : r < b) :
    r < lastOwned owner (owner r) b := by
  induction b with
  | zero => omega
  | succ b ih =>
    rw [lastOwned]
    split
    · exact hr
    · rename_i hne
      have hrb : r ≠ b := by
        rintro rfl
        exact hne rfl
      exact ih (by omega)

def follow (link : ℕ → ℕ) : ℕ → ℕ → List ℕ
  | 0, _ => []
  | _ + 1, 0 => []
  | fuel + 1, i + 1 => i :: follow link fuel (link i)

theorem follow_lastOwned (owner : ℕ → α) (link : ℕ → ℕ) (a : α) (fuel b : ℕ) (hb : b ≤ fuel)
    (hlink : ∀ i, i < b → link i = lastOwned owner (owner i) i) :
    follow link fuel (lastOwned owner a b) =
      ((List.range b).filter fun i => owner i = a).reverse := by
  induction b generalizing fuel with
  | zero => cases fuel <;> simp [lastOwned, follow]
  | succ b ih =>
    rw [lastOwned, List.range_succ, List.filter_append, List.reverse_append]
    by_cases hown : owner b = a
    · obtain ⟨fuel, rfl⟩ : ∃ f, fuel = f + 1 := ⟨fuel - 1, by omega⟩
      rw [if_pos hown, follow, hlink b (by omega), hown,
        ih fuel (by omega) fun i hi => hlink i (by omega)]
      simp [hown]
    · rw [if_neg hown, ih fuel (by omega) fun i hi => hlink i (by omega)]
      simp [hown]

/-- The array after entry `r` is taken out and the later ones move down. -/
def closeUp {β : Type*} (r : ℕ) (f : ℕ → β) : ℕ → β := fun i => if i < r then f i else f (i + 1)

theorem closeUp_of_lt {β : Type*} (r : ℕ) (f : ℕ → β) (i : ℕ) (h : i < r) :
    closeUp r f i = f i := if_pos h

theorem closeUp_of_le {β : Type*} (r : ℕ) (f : ℕ → β) (i : ℕ) (h : r ≤ i) :
    closeUp r f i = f (i + 1) := if_neg (Nat.not_lt.mpr h)

/-- Redirect a link past entry `r` and lower it when it points above. -/
def relink (r past link : ℕ) : ℕ :=
  let link := if link = r + 1 then past else link
  if r + 1 ≤ link then link - 1 else link

theorem relink_of_le (r past link : ℕ) (h : link ≤ r) : relink r past link = link := by
  have hne : ¬ link = r + 1 := by omega
  simp only [relink, if_neg hne]
  rw [if_neg (by omega)]

theorem relink_self (r past : ℕ) (h : past ≤ r) : relink r past (r + 1) = past := by
  simp only [relink, if_true]
  rw [if_neg (by omega)]

theorem relink_of_gt (r past link : ℕ) (h : r + 1 < link) : relink r past link = link - 1 := by
  have hne : ¬ link = r + 1 := by omega
  simp only [relink, if_neg hne]
  rw [if_pos (by omega)]

theorem lastOwned_closeUp_below (owner : ℕ → α) (a : α) (r b : ℕ) (hb : b ≤ r) :
    lastOwned (closeUp r owner) a b = lastOwned owner a b :=
  lastOwned_congr _ _ a b fun k hk => closeUp_of_lt r owner k (by omega)

theorem lastOwned_closeUp (owner : ℕ → α) (a : α) (r b : ℕ) (hb : r ≤ b) :
    lastOwned (closeUp r owner) a b =
      relink r (lastOwned owner (owner r) r) (lastOwned owner a (b + 1)) := by
  induction b, hb using Nat.le_induction with
  | base =>
    rw [lastOwned_closeUp_below owner a r r (Nat.le_refl r), lastOwned_succ]
    by_cases hown : owner r = a
    · rw [if_pos hown, hown, relink_self _ _ (lastOwned_le owner a r)]
    · rw [if_neg hown, relink_of_le _ _ _ (lastOwned_le owner a r)]
  | succ b hb ih =>
    rw [lastOwned_succ, lastOwned_succ owner a (b + 1), closeUp_of_le r owner b hb]
    by_cases hown : owner (b + 1) = a
    · rw [if_pos hown, if_pos hown, relink_of_gt _ _ _ (by omega)]
      rfl
    · rw [if_neg hown, if_neg hown, ih]

/-- Links and chain heads agree with the owners of the first `count` entries. -/
structure Linked (owner : ℕ → α) (link : ℕ → ℕ) (heads : α → Prop) (head : α → ℕ)
    (count : ℕ) : Prop where
  link_eq : ∀ i, i < count → link i = lastOwned owner (owner i) i
  head_eq : ∀ a, heads a → head a = lastOwned owner a count

namespace Linked

variable {owner : ℕ → α} {link : ℕ → ℕ} {heads : α → Prop} {head : α → ℕ} {count : ℕ}

theorem congr (h : Linked owner link heads head count) {owner' : ℕ → α} {link' : ℕ → ℕ}
    {head' : α → ℕ} (howner : ∀ i, i < count → owner' i = owner i)
    (hlink : ∀ i, i < count → link' i = link i) (hhead : ∀ a, heads a → head' a = head a) :
    Linked owner' link' heads head' count where
  link_eq := by
    intro i hi
    rw [hlink i hi, h.link_eq i hi, howner i hi]
    exact (lastOwned_congr _ _ _ _ fun k hk => howner k (by omega)).symm
  head_eq := by
    intro a ha
    rw [hhead a ha, h.head_eq a ha]
    exact (lastOwned_congr _ _ _ _ howner).symm

theorem append (h : Linked owner link heads head count) (a : α) (ha : heads a) :
    Linked (Function.update owner count a) (Function.update link count (head a)) heads
      (Function.update head a (count + 1)) (count + 1) where
  link_eq := by
    intro i hi
    have hold : ∀ k, k < count → Function.update owner count a k = owner k := fun k hk =>
      Function.update_of_ne (by omega) _ _
    by_cases hic : i = count
    · subst hic
      rw [Function.update_self, Function.update_self, h.head_eq a ha]
      exact (lastOwned_congr _ _ _ _ hold).symm
    · rw [Function.update_of_ne hic, Function.update_of_ne hic, h.link_eq i (by omega)]
      exact (lastOwned_congr _ _ _ _ fun k hk => hold k (by omega)).symm
  head_eq := by
    intro c hc
    have hold : ∀ k, k < count → Function.update owner count a k = owner k := fun k hk =>
      Function.update_of_ne (by omega) _ _
    rw [lastOwned_succ, Function.update_self]
    by_cases hca : c = a
    · rw [hca, Function.update_self, if_pos rfl]
    · rw [Function.update_of_ne hca, if_neg fun hac => hca hac.symm, h.head_eq c hc]
      exact (lastOwned_congr _ _ _ _ hold).symm

theorem unique_link (h : Linked owner link heads head count) {r i j : ℕ} (hi : i < count)
    (hj : j < count) (hir : link i = r + 1) (hjr : link j = r + 1) : i = j := by
  rw [h.link_eq i hi, lastOwned_eq_succ_iff] at hir
  rw [h.link_eq j hj, lastOwned_eq_succ_iff] at hjr
  obtain ⟨hi1, hi2, hi3⟩ := hir
  obtain ⟨hj1, hj2, hj3⟩ := hjr
  by_contra hne
  rcases Nat.lt_or_gt_of_ne hne with hlt | hgt
  · exact hj3 i hi1 hlt (hi2.symm.trans hj2)
  · exact hi3 j hj1 hgt (hj2.symm.trans hi2)

theorem remove (h : Linked owner link heads head (count + 1)) {r : ℕ} (hr : r ≤ count) :
    Linked (closeUp r owner) (closeUp r fun i => relink r (link r) (link i)) heads
      (fun a => relink r (link r) (head a)) count where
  link_eq := by
    intro i hi
    have hr' := h.link_eq r (by omega)
    by_cases hir : i < r
    · rw [closeUp_of_lt _ _ _ hir, closeUp_of_lt _ _ _ hir, h.link_eq i (by omega),
        lastOwned_closeUp_below owner _ r i (by omega)]
      exact relink_of_le _ _ _ (by have := lastOwned_le owner (owner i) i; omega)
    · rw [closeUp_of_le _ _ _ (by omega), closeUp_of_le _ _ _ (by omega),
        h.link_eq (i + 1) (by omega), lastOwned_closeUp owner _ r i (by omega), hr']
  head_eq := by
    intro a ha
    rw [h.head_eq a ha, h.link_eq r (by omega), lastOwned_closeUp owner a r count hr]

theorem follow_head (h : Linked owner link heads head count) (a : α) (ha : heads a) :
    follow link count (head a) = ((List.range count).filter fun i => owner i = a).reverse := by
  rw [h.head_eq a ha]
  exact follow_lastOwned owner link a count count (Nat.le_refl _) h.link_eq

end Linked

end MdsPlus.OwnerChain
