import MdsPlus.TagInvariant

/-!
Adding a tag. The search for the slot splits the index into smaller and larger
names, the new block goes behind the others, and the new tag becomes the first of
its node's chain. Space is extended by whole pages before it runs out.
-/

namespace MdsPlus.TagAdd

open TagNames TagTable TagInvariant

theorem findSlot_spec {s : Tables} (h : Consistent s) {tag : List CChar} (htag : TagName tag)
    (left tidx : ℕ) (hleft : left + tidx = s.tags)
    (hbelow : ∀ i, i < tidx → nameAt s i < tag) :
    (∃ i, i < s.tags ∧ (s.info i).name = tag) ∧ findSlot s tag left tidx = .ok none ∨
      (∀ i, i < s.tags → (s.info i).name ≠ tag) ∧
        ∃ slot, slot ≤ s.tags ∧ findSlot s tag left tidx = .ok (some slot) ∧
          (∀ i, i < slot → nameAt s i < tag) ∧
          ∀ i, slot ≤ i → i < s.tags → tag < nameAt s i := by
  induction left generalizing tidx with
  | zero =>
    right
    refine ⟨?_, tidx, by omega, rfl, hbelow, fun i _ _ => by omega⟩
    intro k hk hname
    obtain ⟨i, hi, rfl⟩ := h.ordered.exists_place hk
    exact absurd (hbelow i (by omega)) (by rw [nameAt, hname]; exact lt_irrefl _)
  | succ left ih =>
    have hlt : tidx < s.tags := by omega
    obtain ⟨hless, hequal, hgreater⟩ := strncmp_spec htag (h.ordered.named tidx hlt)
    have hstep : findSlot s tag (left + 1) tidx =
        if strncmp tagNameSize tag (nameAt s tidx) = 0 then .ok none
        else if strncmp tagNameSize tag (nameAt s tidx) < 0 then .ok (some tidx)
        else findSlot s tag left (tidx + 1) := by
      rw [findSlot, h.ordered.loadIndex_eq hlt]
      simp only [bind, Except.bind, h.ordered.loadInfo_eq (h.index_lt tidx hlt), nameAt]
      rfl
    rw [hstep]
    by_cases h0 : strncmp tagNameSize tag (nameAt s tidx) = 0
    · rw [if_pos h0]
      exact Or.inl ⟨⟨s.index tidx, h.index_lt tidx hlt, (hequal.mp h0).symm⟩, rfl⟩
    rw [if_neg h0]
    by_cases hneg : strncmp tagNameSize tag (nameAt s tidx) < 0
    · have habove : ∀ i, tidx ≤ i → i < s.tags → tag < nameAt s i := by
        intro i hi hi'
        rcases Nat.lt_or_eq_of_le hi with hlt' | rfl
        · exact lt_trans (hless.mp hneg) (h.sorted tidx i hlt' hi')
        · exact hless.mp hneg
      rw [if_pos hneg]
      right
      refine ⟨?_, tidx, by omega, rfl, hbelow, habove⟩
      intro k hk hname
      obtain ⟨i, hi, rfl⟩ := h.ordered.exists_place hk
      rcases Nat.lt_or_ge i tidx with hit | hit
      · exact absurd (hbelow i hit) (by rw [nameAt, hname]; exact lt_irrefl _)
      · exact absurd (habove i hit hi) (by rw [nameAt, hname]; exact lt_irrefl _)
    · rw [if_neg hneg]
      apply ih (tidx + 1) (by omega)
      intro i hi
      have hpos := hgreater.mp (by omega)
      rcases Nat.lt_or_eq_of_le (Nat.le_of_lt_succ hi) with hlt' | rfl
      · exact hbelow i hlt'
      · exact hpos

theorem insertIndex_spec {s : Tables} (h : Consistent s) (slot : ℕ) :
    ∃ index indexRoom tagsPages,
      insertIndex s slot = .ok { s with index, indexRoom, tagsPages } ∧
      (∀ i, i < slot → index i = s.index i) ∧ index slot = s.tags ∧
      (∀ i, slot < i → i ≤ s.tags → index i = s.index (i - 1)) ∧
      128 * max (pagesFor 4 (s.tags + 1)) tagsPages ≤ indexRoom := by
  have hroom := h.index_room
  have hle := h.tags_le_indexRoom
  have hpage : s.tags + 1 ≤ 128 * pagesFor 4 (s.tags + 1) := by
    simp only [pagesFor]
    omega
  unfold insertIndex
  rw [if_neg (by omega)]
  dsimp only
  split
  · refine ⟨_, _, _, rfl, fun i hi => if_pos hi, ?_, fun i hi hi' => ?_, by omega⟩
    · simp
    · rw [if_neg (by omega), if_neg (by omega), if_pos hi']
  · have hmax := Nat.le_max_right (pagesFor 4 s.tags) s.tagsPages
    rw [if_neg (by omega)]
    refine ⟨_, s.indexRoom, s.tagsPages, rfl, fun i hi => if_pos hi, ?_, fun i hi hi' => ?_,
      by omega⟩
    · simp
    · rw [if_neg (by omega), if_neg (by omega), if_pos hi']

theorem appendInfo_spec {s : Tables} (h : s.infoRoom ≥ 16 * max (pagesFor tagInfoSize s.tags)
    s.tagInfoPages) (new : TagInfo) :
    ∃ info infoRoom tagInfoPages,
      appendInfo s new = .ok { s with info, infoRoom, tagInfoPages } ∧
      (∀ i, i < s.tags → info i = s.info i) ∧ info s.tags = new ∧
      16 * max (pagesFor tagInfoSize (s.tags + 1)) tagInfoPages ≤ infoRoom := by
  have hpage : s.tags + 1 ≤ 16 * pagesFor tagInfoSize (s.tags + 1) := by
    simp only [pagesFor, tagInfoSize]
    omega
  have hpage' : s.tags ≤ 16 * pagesFor tagInfoSize s.tags := by
    simp only [pagesFor, tagInfoSize]
    omega
  have hmax := Nat.le_max_left (pagesFor tagInfoSize s.tags) s.tagInfoPages
  have hmax' := Nat.le_max_right (pagesFor tagInfoSize s.tags) s.tagInfoPages
  unfold appendInfo
  rw [if_neg (by omega)]
  split
  · refine ⟨_, _, _, rfl, fun i hi => if_pos hi, by simp, by omega⟩
  · rw [if_neg (by omega)]
    refine ⟨_, s.infoRoom, s.tagInfoPages, rfl, fun i hi => ?_, Function.update_self .., by omega⟩
    exact Function.update_of_ne (by omega) _ _

structure Added (s s' : Tables) (slot : ℕ) (tag : List CChar) (nid : ℕ) : Prop where
  editing_eq : s'.openForEdit = s.openForEdit
  root_eq : s'.root = s.root
  nodes_eq : s'.nodes = s.nodes
  tags_eq : s'.tags = s.tags + 1
  info_old : ∀ i, i < s.tags → s'.info i = s.info i
  info_new : s'.info s.tags = ⟨tag, nid, s.nodeLink nid⟩
  nodeLink_eq : s'.nodeLink = Function.update s.nodeLink nid (s.tags + 1)
  index_below : ∀ i, i < slot → s'.index i = s.index i
  index_slot : s'.index slot = s.tags
  index_above : ∀ i, slot < i → i ≤ s.tags → s'.index i = s.index (i - 1)
  index_room : 128 * max (pagesFor 4 s'.tags) s'.tagsPages ≤ s'.indexRoom
  info_room : 16 * max (pagesFor tagInfoSize s'.tags) s'.tagInfoPages ≤ s'.infoRoom

theorem addTag_new {s : Tables} (h : Consistent s) {nid : ℕ} (hnid : nid < s.nodes)
    (tagnam : CString) (hlen : 1 ≤ tagnam.strlen ∧ tagnam.strlen ≤ tagNameSize)
    (hlegal : legal (tagnam.chars.map toupper) = true) {slot : ℕ}
    (hslot : findSlot s (blankFilled tagnam.chars) s.tags 0 = .ok (some slot)) :
    ∃ s', addTag s nid tagnam = .ok (s', .success) ∧
      Added s s' slot (blankFilled tagnam.chars) nid := by
  obtain ⟨index, indexRoom, tagsPages, hinsert, hbelow, hat, habove, hroom⟩ :=
    insertIndex_spec h slot
  obtain ⟨info, infoRoom, tagInfoPages, happend, hold, hnew, hroom'⟩ :=
    appendInfo_spec (s := { s with index, indexRoom, tagsPages }) h.info_room
      ⟨blankFilled tagnam.chars, nid, s.nodeLink nid⟩
  have hload : Tables.loadNodeLink { s with index, indexRoom, tagsPages } nid =
      .ok (s.nodeLink nid) := if_pos hnid
  refine ⟨{ s with index, indexRoom, tagsPages, info, infoRoom, tagInfoPages,
                   nodeLink := Function.update s.nodeLink nid (s.tags + 1),
                   tags := s.tags + 1 }, ?_, {
    editing_eq := rfl, root_eq := rfl, nodes_eq := rfl, tags_eq := rfl, info_old := hold,
    info_new := hnew, nodeLink_eq := rfl, index_below := hbelow, index_slot := hat,
    index_above := habove, index_room := hroom, info_room := hroom' }⟩
  unfold addTag
  rw [if_neg (by simp [h.editing]), if_neg (by omega), if_neg (by simp [hlegal])]
  simp only [hslot, hinsert, hload, happend, bind, Except.bind]

namespace Added

variable {s s' : Tables} {slot nid : ℕ} {tag : List CChar} (ha : Added s s' slot tag nid)

include ha

theorem owner_eq (i : ℕ) (hi : i < s'.tags) :
    owner s' i = Function.update (owner s) s.tags nid i := by
  rw [ha.tags_eq] at hi
  by_cases hit : i = s.tags
  · rw [hit, Function.update_self, owner, ha.info_new]
  · rw [Function.update_of_ne hit, owner, ha.info_old i (by omega), owner]

theorem link_eq (i : ℕ) (hi : i < s'.tags) :
    link s' i = Function.update (link s) s.tags (s.nodeLink nid) i := by
  rw [ha.tags_eq] at hi
  by_cases hit : i = s.tags
  · rw [hit, Function.update_self, link, ha.info_new]
  · rw [Function.update_of_ne hit, link, ha.info_old i (by omega), link]

theorem nameAt_eq (h : Consistent s) (hslot : slot ≤ s.tags) (i : ℕ) (hi : i < s'.tags) :
    nameAt s' i =
      if i < slot then nameAt s i else if i = slot then tag else nameAt s (i - 1) := by
  rw [ha.tags_eq] at hi
  rcases Nat.lt_trichotomy i slot with hlt | rfl | hgt
  · have hidx := h.index_lt i (by omega)
    rw [if_pos hlt, nameAt, ha.index_below i hlt, ha.info_old _ hidx, nameAt]
  · rw [if_neg (Nat.lt_irrefl _), if_pos rfl, nameAt, ha.index_slot, ha.info_new]
  · have hidx := h.index_lt (i - 1) (by omega)
    rw [if_neg (by omega), if_neg (by omega), nameAt, ha.index_above i hgt (by omega),
      ha.info_old _ hidx, nameAt]

theorem consistent (h : Consistent s) (htag : TagName tag) (hnid : nid < s.nodes)
    (hreserved : tag = blankFilled top → nid = s.root) (hslot : slot ≤ s.tags)
    (hless : ∀ i, i < slot → nameAt s i < tag)
    (hgreater : ∀ i, slot ≤ i → i < s.tags → tag < nameAt s i) : Consistent s' where
  editing := ha.editing_eq.trans h.editing
  linked := by
    rw [ha.tags_eq, ha.nodeLink_eq, ha.nodes_eq]
    apply (h.linked.append nid hnid).congr
    · exact fun i hi => ha.owner_eq i (by rw [ha.tags_eq]; exact hi)
    · exact fun i hi => ha.link_eq i (by rw [ha.tags_eq]; exact hi)
    · exact fun _ _ => rfl
  owner_lt := by
    intro i hi
    rw [ha.owner_eq i hi, ha.nodes_eq]
    rw [ha.tags_eq] at hi
    by_cases hit : i = s.tags
    · rwa [hit, Function.update_self]
    · rw [Function.update_of_ne hit]
      exact h.owner_lt i (by omega)
  named := by
    intro i hi
    rw [ha.tags_eq] at hi
    by_cases hit : i = s.tags
    · rwa [hit, ha.info_new]
    · rw [ha.info_old i (by omega)]
      exact h.named i (by omega)
  reserved := by
    intro i hi hname
    rw [ha.owner_eq i hi, ha.root_eq]
    rw [ha.tags_eq] at hi
    by_cases hit : i = s.tags
    · rw [hit, ha.info_new] at hname
      rw [hit, Function.update_self, hreserved hname]
    · rw [ha.info_old i (by omega)] at hname
      rw [Function.update_of_ne hit]
      exact h.reserved i (by omega) hname
  index_lt := by
    intro i hi
    rw [ha.tags_eq] at hi ⊢
    rcases Nat.lt_trichotomy i slot with hlt | rfl | hgt
    · rw [ha.index_below i hlt]
      exact Nat.lt_succ_of_lt (h.index_lt i (by omega))
    · rw [ha.index_slot]
      exact Nat.lt_succ_self _
    · rw [ha.index_above i hgt (by omega)]
      exact Nat.lt_succ_of_lt (h.index_lt (i - 1) (by omega))
  sorted := by
    intro i j hij hj
    rw [ha.nameAt_eq h hslot i (by omega), ha.nameAt_eq h hslot j hj]
    rw [ha.tags_eq] at hj
    rcases Nat.lt_trichotomy i slot with hi | rfl | hi
    · rw [if_pos hi]
      split
      · exact h.sorted i j hij (by omega)
      split
      · exact hless i hi
      · exact lt_trans (hless i hi) (hgreater (j - 1) (by omega) (by omega))
    · rw [if_neg (Nat.lt_irrefl _), if_pos rfl, if_neg (by omega), if_neg (by omega)]
      exact hgreater (j - 1) (by omega) (by omega)
    · rw [if_neg (by omega), if_neg (by omega), if_neg (by omega), if_neg (by omega)]
      exact h.sorted (i - 1) (j - 1) (by omega) (by omega)
  index_room := ha.index_room
  info_room := ha.info_room

theorem represents {m : TagMap} (hm : Represents s m) (hfresh : m tag = none) :
    Represents s' (Function.update m tag (some nid)) := by
  intro name n
  have howner : ∀ i, i < s.tags → owner s' i = owner s i := fun i hi => by
    rw [owner, ha.info_old i hi, owner]
  by_cases hname : name = tag
  · subst hname
    rw [Function.update_self]
    constructor
    · intro hn
      cases hn
      exact ⟨s.tags, by rw [ha.tags_eq]; omega, by rw [ha.info_new], by rw [owner, ha.info_new]⟩
    · rintro ⟨i, hi, hiname, rfl⟩
      rw [ha.tags_eq] at hi
      by_cases hit : i = s.tags
      · rw [hit, owner, ha.info_new]
      · rw [ha.info_old i (by omega)] at hiname
        have hold := (hm name (owner s i)).mpr ⟨i, by omega, hiname, rfl⟩
        rw [hfresh] at hold
        cases hold
  · rw [Function.update_of_ne hname, hm]
    constructor
    · rintro ⟨i, hi, hiname, rfl⟩
      exact ⟨i, by rw [ha.tags_eq]; omega, by rw [ha.info_old i hi, hiname], howner i hi⟩
    · rintro ⟨i, hi, hiname, rfl⟩
      rw [ha.tags_eq] at hi
      have hit : i ≠ s.tags := by
        rintro rfl
        rw [ha.info_new] at hiname
        exact hname hiname.symm
      rw [ha.info_old i (by omega)] at hiname
      exact ⟨i, by omega, hiname, (howner i (by omega)).symm⟩

end Added

theorem addTag_step {s : Tables} {m : TagMap} (h : Consistent s) (hm : Represents s m) {nid : ℕ}
    (hnid : nid < s.nodes) (tagnam : CString)
    (hreserved : Accepted tagnam → blankFilled tagnam.chars = blankFilled top → nid = s.root) :
    ∃ s' status, addTag s nid tagnam = .ok (s', status) ∧ Consistent s' ∧
      Represents s' (m.addTag nid tagnam) := by
  unfold TagMap.addTag
  by_cases hacc : Accepted tagnam
  · have htag := tagName_blankFilled tagnam.chars hacc.1.2 tagnam.noNul
    rcases findSlot_spec h htag s.tags 0 rfl (fun i hi => absurd hi (Nat.not_lt_zero i)) with
      ⟨⟨i, hi, hname⟩, hslot⟩ | ⟨hfresh, slot, hle, hslot, hless, hgreater⟩
    · have hdefined := (hm _ _).mpr ⟨i, hi, hname, rfl⟩
      refine ⟨s, .duptag, ?_, h, ?_⟩
      · unfold addTag
        rw [if_neg (by simp [h.editing]), if_neg (by have := hacc.1; omega),
          if_neg (by simp [hacc.2])]
        simp only [hslot, bind, Except.bind]
      · rw [if_neg (by simp [hdefined])]
        exact hm
    · have hnone : m (blankFilled tagnam.chars) = none := by
        cases hval : m (blankFilled tagnam.chars) with
        | none => rfl
        | some n =>
          obtain ⟨i, hi, hname, _⟩ := (hm _ _).mp hval
          exact absurd hname (hfresh i hi)
      obtain ⟨s', hadd, ha⟩ := addTag_new h hnid tagnam hacc.1 hacc.2 hslot
      rw [if_pos ⟨hacc, hnone⟩]
      exact ⟨s', .success, hadd, ha.consistent h htag hnid (hreserved hacc) hle hless hgreater,
        ha.represents hm hnone⟩
  · rw [if_neg fun hboth => hacc hboth.1]
    unfold addTag
    rw [if_neg (by simp [h.editing])]
    by_cases hlen : 1 ≤ tagnam.strlen ∧ tagnam.strlen ≤ tagNameSize
    · rw [if_neg (by omega), if_pos fun hlegal => hacc ⟨hlen, hlegal⟩]
      exact ⟨s, .invtag, rfl, h, hm⟩
    · rw [if_pos (by omega)]
      exact ⟨s, .tagnamlen, rfl, h, hm⟩

end MdsPlus.TagAdd
