import MdsPlus.TagInvariant

/-!
Removing a tag. The walk finds the one link to the removed entry, so redirecting it
and lowering the later links relinks every chain; the index loses one place and
keeps its order. The move of the index reads one entry past the last, so there has
to be room for it.
-/

namespace MdsPlus.TagRemove

open OwnerChain TagTable TagInvariant

theorem lower_of_lt (tagidx link : ℕ) (h : link < tagidx) : lower tagidx link = link :=
  if_neg (Nat.not_le.mpr h)

theorem lower_of_le (tagidx link : ℕ) (h : tagidx ≤ link) : lower tagidx link = link - 1 :=
  if_pos h

theorem relink_eq_lower (r past link : ℕ) :
    relink r past link = lower (r + 1) (if link = r + 1 then past else link) := rfl

theorem findLink_spec {s : Tables} (h : Consistent s) {r : ℕ} (fuel i : ℕ)
    (hfuel : i < fuel) (hi : i < s.tags) (hri : r < i) (howner : owner s i = owner s r) :
    ∃ j, j < s.tags ∧ findLink s (r + 1) fuel i = .ok j ∧ link s j = r + 1 := by
  induction fuel generalizing i with
  | zero => omega
  | succ fuel ih =>
    have hlink := h.linked.link_eq i hi
    have hlater := lt_lastOwned (owner s) i r hri
    rw [← howner, ← hlink] at hlater
    have hstep : findLink s (r + 1) (fuel + 1) i =
        if link s i ≠ r + 1 ∧ link s i > 0 then findLink s (r + 1) fuel (link s i - 1)
        else .ok i := by
      rw [findLink, h.ordered.loadInfo_eq hi]
      rfl
    rw [hstep]
    by_cases hend : link s i = r + 1
    · rw [if_neg (by omega)]
      exact ⟨i, hi, rfl, hend⟩
    · rw [if_pos ⟨hend, by omega⟩]
      obtain ⟨k, hk⟩ : ∃ k, link s i = k + 1 := ⟨link s i - 1, by omega⟩
      obtain ⟨hki, hkowner, _⟩ := (lastOwned_eq_succ_iff _ _ _ _).mp (hlink.symm.trans hk)
      rw [hk, Nat.add_sub_cancel]
      exact ih k (by omega) (by omega) (by omega) (hkowner.trans howner)

theorem unlink_spec {s : Tables} (h : Consistent s) {r : ℕ} (hr : r < s.tags) :
    ∃ info nodeLink, unlink s (r + 1) (s.info r) = .ok { s with info, nodeLink } ∧
      (∀ i, i < s.tags → info i =
        { s.info i with tagLink := if link s i = r + 1 then link s r else link s i }) ∧
      ∀ n, n < s.nodes → nodeLink n = if s.nodeLink n = r + 1 then link s r else s.nodeLink n := by
  have hnode := h.owner_lt r hr
  have hload : s.loadNodeLink (s.info r).nodeIdx = .ok (s.nodeLink (owner s r)) := if_pos hnode
  have hhead := h.linked.head_eq (owner s r) hnode
  have hlater := lt_lastOwned (owner s) s.tags r hr
  rw [← hhead] at hlater
  have hothers : ∀ n, n < s.nodes → n ≠ owner s r → s.nodeLink n ≠ r + 1 := by
    intro n hn hne heq
    rw [h.linked.head_eq n hn, lastOwned_eq_succ_iff] at heq
    exact hne heq.2.1.symm
  unfold unlink
  simp only [hload, bind, Except.bind]
  by_cases hfirst : s.nodeLink (owner s r) = r + 1
  · -- the newest tag of its node: no block links to it
    rw [if_pos hfirst]
    refine ⟨s.info, _, rfl, ?_, ?_⟩
    · intro i hi
      rw [if_neg]
      · rfl
      · intro heq
        rw [h.linked.link_eq i hi, lastOwned_eq_succ_iff] at heq
        rw [hhead, lastOwned_eq_succ_iff] at hfirst
        exact hfirst.2.2 i heq.1 hi heq.2.1.symm
    · intro n hn
      by_cases hne : n = owner s r
      · rw [hne, if_pos hfirst]
        exact Function.update_self ..
      · rw [if_neg (hothers n hn hne)]
        exact Function.update_of_ne hne _ _
  · rw [if_neg hfirst, if_neg (by omega)]
    obtain ⟨k, hk⟩ : ∃ k, s.nodeLink (owner s r) = k + 1 :=
      ⟨s.nodeLink (owner s r) - 1, by omega⟩
    obtain ⟨hkt, hkowner, _⟩ := (lastOwned_eq_succ_iff _ _ _ _).mp (hhead.symm.trans hk)
    have hroom := h.tags_le_infoRoom
    obtain ⟨j, hj, hwalk, hjlink⟩ :=
      findLink_spec h (s.infoRoom + 1) k (by omega) hkt (by omega) hkowner
    rw [hk, Nat.add_sub_cancel, hwalk]
    simp only [h.ordered.loadInfo_eq hj]
    rw [if_pos (show (s.info j).tagLink = r + 1 from hjlink)]
    refine ⟨_, s.nodeLink, rfl, ?_, ?_⟩
    · intro i hi
      by_cases hij : i = j
      · rw [hij, Function.update_self, if_pos hjlink]
        rfl
      · rw [Function.update_of_ne hij, if_neg]
        · rfl
        · exact fun heq => hij (h.linked.unique_link hi hj heq hjlink)
    · intro n hn
      rw [if_neg]
      by_cases hne : n = owner s r
      · rwa [hne]
      · exact hothers n hn hne

theorem closeUp_lower {β : Type*} (r : ℕ) (f : ℕ → β) (k : ℕ) (hk : k ≠ r) :
    closeUp r f (lower (r + 1) k) = f k := by
  by_cases hkr : k < r
  · rw [lower_of_lt _ _ (by omega), closeUp_of_lt _ _ _ hkr]
  · rw [lower_of_le _ _ (by omega), closeUp_of_le _ _ _ (by omega), Nat.sub_add_cancel (by omega)]

theorem lastPlace_spec (index : ℕ → ℕ) (v n place : ℕ) (hlt : place < n) (heq : index place = v)
    (hinj : ∀ i, i < n → index i = v → i = place) : lastPlace index v n = some place := by
  induction n with
  | zero => omega
  | succ n ih =>
    rw [lastPlace]
    by_cases hn : index n = v
    · rw [if_pos hn, hinj n (Nat.lt_succ_self n) hn]
    · have hne : place ≠ n := by
        rintro rfl
        exact hn heq
      rw [if_neg hn]
      exact ih (by omega) fun i hi => hinj i (by omega)

/-- The tables after entry `r` is removed, which stood at `place` of the index. -/
structure Removed (s s' : Tables) (r place : ℕ) : Prop where
  editing_eq : s'.openForEdit = s.openForEdit
  root_eq : s'.root = s.root
  nodes_eq : s'.nodes = s.nodes
  tags_eq : s.tags = s'.tags + 1
  entry_lt : r < s.tags
  place_lt : place < s.tags
  place_eq : s.index place = r
  info_eq : ∀ i, i < s'.tags → s'.info i =
    { closeUp r s.info i with tagLink := relink r (link s r) (closeUp r s.info i).tagLink }
  nodeLink_eq : ∀ n, n < s.nodes → s'.nodeLink n = relink r (link s r) (s.nodeLink n)
  index_eq : ∀ i, i < s'.tags → s'.index i = lower (r + 1) (closeUp place s.index i)
  indexRoom_eq : s'.indexRoom = s.indexRoom
  tagsPages_eq : s'.tagsPages = s.tagsPages
  infoRoom_eq : s'.infoRoom = s.infoRoom
  tagInfoPages_eq : s'.tagInfoPages = s.tagInfoPages

theorem removeTagIdx_spec {s : Tables} (h : Consistent s) {r : ℕ} (hr : r < s.tags)
    (hroom : s.tags < s.indexRoom) :
    ∃ s' place, removeTagIdx s (r + 1) = .ok s' ∧ Removed s s' r place := by
  obtain ⟨info, nodeLink, hunlink, hinfo, hnodeLink⟩ := unlink_spec h hr
  obtain ⟨place, hplace, hindex⟩ := h.ordered.exists_place hr
  have hlast : lastPlace s.index r s.tags = some place :=
    lastPlace_spec s.index r s.tags place hplace hindex fun i hi heq =>
      h.ordered.index_injective hi hplace (heq.trans hindex.symm)
  unfold removeTagIdx
  rw [if_neg (by omega), if_neg (by have := h.tags_le_infoRoom; omega), Nat.add_sub_cancel]
  simp only [h.ordered.loadInfo_eq hr, hunlink, hlast, bind, Except.bind]
  rw [if_neg (by omega)]
  refine ⟨_, place, rfl, {
    editing_eq := rfl
    root_eq := rfl
    nodes_eq := rfl
    tags_eq := by dsimp only; omega
    entry_lt := hr
    place_lt := hplace
    place_eq := hindex
    info_eq := ?_
    nodeLink_eq := ?_
    index_eq := ?_
    indexRoom_eq := rfl
    tagsPages_eq := rfl
    infoRoom_eq := rfl
    tagInfoPages_eq := rfl }⟩
  · intro i hi
    dsimp only at hi ⊢
    by_cases hir : i < r
    · rw [if_neg (by omega), if_pos (by omega), closeUp_of_lt _ _ _ hir, hinfo i (by omega)]
      rfl
    · rw [if_pos (by omega), if_pos (by omega), closeUp_of_le _ _ _ (by omega),
        hinfo (i + 1) (by omega)]
      rfl
  · intro n hn
    dsimp only
    rw [if_pos hn, hnodeLink n hn, relink_eq_lower]
  · intro i hi
    dsimp only at hi ⊢
    by_cases hip : i < place
    · rw [if_neg (by omega), if_pos (by omega), closeUp_of_lt _ _ _ hip]
    · rw [if_pos (by omega), if_pos (by omega), closeUp_of_le _ _ _ (by omega)]

namespace Removed

variable {s s' : Tables} {r place : ℕ} (hd : Removed s s' r place)

include hd

theorem owner_eq (i : ℕ) (hi : i < s'.tags) : owner s' i = closeUp r (owner s) i := by
  rw [owner, hd.info_eq i hi]
  by_cases hir : i < r
  · simp only [closeUp_of_lt _ _ _ hir, owner]
  · simp only [closeUp_of_le _ _ _ (Nat.le_of_not_lt hir), owner]

theorem link_eq (i : ℕ) (hi : i < s'.tags) :
    link s' i = closeUp r (fun k => relink r (link s r) (link s k)) i := by
  rw [link, hd.info_eq i hi]
  by_cases hir : i < r
  · simp only [closeUp_of_lt _ _ _ hir, link]
  · simp only [closeUp_of_le _ _ _ (Nat.le_of_not_lt hir), link]

theorem name_eq (i : ℕ) (hi : i < s'.tags) : (s'.info i).name = (closeUp r s.info i).name := by
  rw [hd.info_eq i hi]

theorem closeUp_index (h : Consistent s) (i : ℕ) (hi : i < s'.tags) :
    closeUp place s.index i ≠ r ∧ closeUp place s.index i < s.tags := by
  have htags := hd.tags_eq
  by_cases hip : i < place
  · rw [closeUp_of_lt _ _ _ hip]
    refine ⟨fun heq => ?_, h.index_lt i (by omega)⟩
    have := h.ordered.index_injective (by omega) hd.place_lt (heq.trans hd.place_eq.symm)
    omega
  · rw [closeUp_of_le _ _ _ (Nat.le_of_not_lt hip)]
    refine ⟨fun heq => ?_, h.index_lt (i + 1) (by omega)⟩
    have := h.ordered.index_injective (by omega) hd.place_lt (heq.trans hd.place_eq.symm)
    omega

theorem index_lt (h : Consistent s) (i : ℕ) (hi : i < s'.tags) : s'.index i < s'.tags := by
  obtain ⟨hne, hlt⟩ := hd.closeUp_index h i hi
  have htags := hd.tags_eq
  have hr := hd.entry_lt
  rw [hd.index_eq i hi]
  by_cases hkr : closeUp place s.index i < r
  · rw [lower_of_lt _ _ (by omega)]
    omega
  · rw [lower_of_le _ _ (by omega)]
    omega

theorem nameAt_eq (h : Consistent s) (i : ℕ) (hi : i < s'.tags) :
    nameAt s' i = closeUp place (nameAt s) i := by
  rw [nameAt, hd.name_eq _ (hd.index_lt h i hi), hd.index_eq i hi,
    closeUp_lower r s.info _ (hd.closeUp_index h i hi).1]
  by_cases hip : i < place
  · simp only [closeUp_of_lt _ _ _ hip, nameAt]
  · simp only [closeUp_of_le _ _ _ (Nat.le_of_not_lt hip), nameAt]

theorem exists_entry (P : List CChar → ℕ → Prop) :
    (∃ i, i < s'.tags ∧ P (s'.info i).name (owner s' i)) ↔
      ∃ k, k < s.tags ∧ k ≠ r ∧ P (s.info k).name (owner s k) := by
  have htags := hd.tags_eq
  have hr := hd.entry_lt
  constructor
  · rintro ⟨i, hi, hP⟩
    rw [hd.name_eq i hi, hd.owner_eq i hi] at hP
    by_cases hir : i < r
    · rw [closeUp_of_lt _ _ _ hir, closeUp_of_lt _ _ _ hir] at hP
      exact ⟨i, by omega, by omega, hP⟩
    · rw [closeUp_of_le _ _ _ (by omega), closeUp_of_le _ _ _ (by omega)] at hP
      exact ⟨i + 1, by omega, by omega, hP⟩
  · rintro ⟨k, hk, hkr, hP⟩
    have hi : lower (r + 1) k < s'.tags := by
      by_cases hlt : k < r
      · rw [lower_of_lt _ _ (by omega)]
        omega
      · rw [lower_of_le _ _ (by omega)]
        omega
    refine ⟨lower (r + 1) k, hi, ?_⟩
    rwa [hd.name_eq _ hi, hd.owner_eq _ hi, closeUp_lower r s.info k hkr,
      closeUp_lower r (owner s) k hkr]

theorem consistent (h : Consistent s) : Consistent s' where
  editing := hd.editing_eq.trans h.editing
  linked := by
    have hr := hd.entry_lt
    have hlinked := h.linked
    rw [hd.tags_eq] at hr hlinked
    rw [hd.nodes_eq]
    exact (hlinked.remove (by omega)).congr hd.owner_eq hd.link_eq hd.nodeLink_eq
  owner_lt := by
    intro i hi
    obtain ⟨k, hk, _, heq⟩ := (hd.exists_entry fun _ n => n = owner s' i).mp ⟨i, hi, rfl⟩
    rw [← heq, hd.nodes_eq]
    exact h.owner_lt k hk
  named := by
    intro i hi
    obtain ⟨k, hk, _, heq⟩ := (hd.exists_entry fun name _ => name = (s'.info i).name).mp
      ⟨i, hi, rfl⟩
    rw [← heq]
    exact h.named k hk
  reserved := by
    intro i hi hname
    obtain ⟨k, hk, _, hkname, hkowner⟩ :=
      (hd.exists_entry fun name n => name = (s'.info i).name ∧ n = owner s' i).mp
        ⟨i, hi, rfl, rfl⟩
    rw [← hkowner, hd.root_eq]
    exact h.reserved k hk (hkname.trans hname)
  index_lt := hd.index_lt h
  sorted := by
    intro i j hij hj
    have htags := hd.tags_eq
    rw [hd.nameAt_eq h i (by omega), hd.nameAt_eq h j hj]
    by_cases hi : i < place
    · rw [closeUp_of_lt _ _ _ hi]
      by_cases hjp : j < place
      · rw [closeUp_of_lt _ _ _ hjp]
        exact h.sorted i j hij (by omega)
      · rw [closeUp_of_le _ _ _ (by omega)]
        exact h.sorted i (j + 1) (by omega) (by omega)
    · rw [closeUp_of_le _ _ _ (by omega), closeUp_of_le _ _ _ (by omega)]
      exact h.sorted (i + 1) (j + 1) (by omega) (by omega)
  index_room := by
    have hroom := h.index_room
    rw [hd.tags_eq] at hroom
    rw [hd.indexRoom_eq, hd.tagsPages_eq]
    simp only [pagesFor] at hroom ⊢
    omega
  info_room := by
    have hroom := h.info_room
    rw [hd.tags_eq] at hroom
    rw [hd.infoRoom_eq, hd.tagInfoPages_eq]
    simp only [pagesFor, tagInfoSize] at hroom ⊢
    omega

theorem represents {m : TagMap} (h : Consistent s) (hm : Represents s m) :
    Represents s' (Function.update m (s.info r).name none) := by
  intro name n
  rw [hd.exists_entry fun x k => x = name ∧ k = n]
  by_cases hname : name = (s.info r).name
  · subst hname
    rw [Function.update_self]
    constructor
    · intro hn
      cases hn
    · rintro ⟨k, hk, hkr, hkname, _⟩
      exact absurd (h.ordered.name_injective hk hd.entry_lt hkname) hkr
  · rw [Function.update_of_ne hname, hm]
    constructor
    · rintro ⟨k, hk, hkname, hkn⟩
      refine ⟨k, hk, ?_, hkname, hkn⟩
      rintro rfl
      exact hname hkname.symm
    · rintro ⟨k, hk, _, hkname, hkn⟩
      exact ⟨k, hk, hkname, hkn⟩

end Removed

end MdsPlus.TagRemove
