import MdsPlus.TagNames
import Mathlib.Data.Fintype.EquivFin

/-!
The invariant of the tag tables and the map from names to nodes that they stand
for. The index is a permutation because its names ascend strictly, so a search in
the index is a search in the map.
-/

namespace MdsPlus.TagInvariant

open BinarySearch Outcome OwnerChain TagNames TagTable

def owner (s : Tables) (i : ℕ) : ℕ := (s.info i).nodeIdx

def link (s : Tables) (i : ℕ) : ℕ := (s.info i).tagLink

def nameAt (s : Tables) (i : ℕ) : List CChar := (s.info (s.index i)).name

/-- The tables agree with each other and every access the routines make is inside. -/
structure Consistent (s : Tables) : Prop where
  editing : s.openForEdit = true
  linked : Linked (owner s) (link s) (fun n => n < s.nodes) s.nodeLink s.tags
  owner_lt : ∀ i, i < s.tags → owner s i < s.nodes
  named : ∀ i, i < s.tags → TagName (s.info i).name
  reserved : ∀ i, i < s.tags → (s.info i).name = blankFilled top → owner s i = s.root
  index_lt : ∀ i, i < s.tags → s.index i < s.tags
  sorted : ∀ i j, i < j → j < s.tags → nameAt s i < nameAt s j
  index_room : 128 * max (pagesFor 4 s.tags) s.tagsPages ≤ s.indexRoom
  info_room : 16 * max (pagesFor tagInfoSize s.tags) s.tagInfoPages ≤ s.infoRoom

/-- Tag names and the nodes they are at. -/
abbrev TagMap := List CChar → Option ℕ

/-- Names of one to 24 characters that begin with a letter. -/
def Accepted (tagnam : CString) : Prop :=
  (1 ≤ tagnam.strlen ∧ tagnam.strlen ≤ tagNameSize) ∧ legal (tagnam.chars.map toupper) = true

instance (tagnam : CString) : Decidable (Accepted tagnam) := inferInstanceAs (Decidable (_ ∧ _))

namespace TagMap

def addTag (m : TagMap) (nid : ℕ) (tagnam : CString) : TagMap :=
  if Accepted tagnam ∧ m (blankFilled tagnam.chars) = none then
    Function.update m (blankFilled tagnam.chars) (some nid)
  else m

def removeTag (m : TagMap) (name : CString) : TagMap := Function.update m (searchName name) none

def removeNodesTags (m : TagMap) (nid : ℕ) : TagMap :=
  fun name => if m name = some nid then none else m name

def exec (m : TagMap) : Op → TagMap
  | .addTag nid tagnam => m.addTag nid tagnam
  | .removeTag name => m.removeTag name
  | .removeNodesTags nid => m.removeNodesTags nid

end TagMap

def Represents (s : Tables) (m : TagMap) : Prop :=
  ∀ name n, m name = some n ↔ ∃ i, i < s.tags ∧ (s.info i).name = name ∧ owner s i = n

structure Ordered (s : Tables) : Prop where
  named : ∀ i, i < s.tags → TagName (nameAt s i)
  index_lt : ∀ i, i < s.tags → s.index i < s.tags
  sorted : ∀ i j, i < j → j < s.tags → nameAt s i < nameAt s j
  index_room : s.tags ≤ s.indexRoom
  info_room : s.tags ≤ s.infoRoom

namespace Consistent

variable {s : Tables} (h : Consistent s)

include h

theorem tags_le_indexRoom : s.tags ≤ s.indexRoom := by
  have hroom := h.index_room
  have hmax := Nat.le_max_left (pagesFor 4 s.tags) s.tagsPages
  simp only [pagesFor] at hroom hmax
  omega

theorem tags_le_infoRoom : s.tags ≤ s.infoRoom := by
  have hroom := h.info_room
  have hmax := Nat.le_max_left (pagesFor tagInfoSize s.tags) s.tagInfoPages
  simp only [pagesFor, tagInfoSize] at hroom hmax
  omega

theorem ordered : Ordered s where
  named i hi := h.named _ (h.index_lt i hi)
  index_lt := h.index_lt
  sorted := h.sorted
  index_room := h.tags_le_indexRoom
  info_room := h.tags_le_infoRoom

end Consistent

namespace Ordered

variable {s : Tables} (h : Ordered s)

include h

theorem index_injective {i j : ℕ} (hi : i < s.tags) (hj : j < s.tags)
    (heq : s.index i = s.index j) : i = j := by
  by_contra hne
  have hname : nameAt s i = nameAt s j := by rw [nameAt, nameAt, heq]
  rcases Nat.lt_or_gt_of_ne hne with hlt | hgt
  · exact absurd (h.sorted i j hlt hj) (by rw [hname]; exact lt_irrefl _)
  · exact absurd (h.sorted j i hgt hi) (by rw [hname]; exact lt_irrefl _)

theorem index_perm : ((List.range s.tags).map s.index).Perm (List.range s.tags) := by
  have hnodup : ((List.range s.tags).map s.index).Nodup := by
    refine List.Nodup.map_on ?_ List.nodup_range
    intro i hi j hj heq
    exact h.index_injective (List.mem_range.mp hi) (List.mem_range.mp hj) heq
  have hsub : (List.range s.tags).map s.index ⊆ List.range s.tags := by
    intro k hk
    obtain ⟨i, hi, rfl⟩ := List.mem_map.mp hk
    exact List.mem_range.mpr (h.index_lt i (List.mem_range.mp hi))
  exact (List.subperm_of_subset hnodup hsub).perm_of_length_le (by simp)

theorem exists_place {k : ℕ} (hk : k < s.tags) : ∃ i, i < s.tags ∧ s.index i = k := by
  have hmem : k ∈ (List.range s.tags).map s.index :=
    h.index_perm.mem_iff.mpr (List.mem_range.mpr hk)
  obtain ⟨i, hi, rfl⟩ := List.mem_map.mp hmem
  exact ⟨i, List.mem_range.mp hi, rfl⟩

theorem name_injective {j k : ℕ} (hj : j < s.tags) (hk : k < s.tags)
    (heq : (s.info j).name = (s.info k).name) : j = k := by
  obtain ⟨a, ha, rfl⟩ := h.exists_place hj
  obtain ⟨b, hb, rfl⟩ := h.exists_place hk
  rcases Nat.lt_trichotomy a b with hlt | rfl | hgt
  · exact absurd (h.sorted a b hlt hb) (by rw [nameAt, nameAt, heq]; exact lt_irrefl _)
  · rfl
  · exact absurd (h.sorted b a hgt ha) (by rw [nameAt, nameAt, heq]; exact lt_irrefl _)

theorem loadIndex_eq {i : ℕ} (hi : i < s.tags) : s.loadIndex i = .ok (s.index i) :=
  if_pos (Nat.lt_of_lt_of_le hi h.index_room)

theorem loadInfo_eq {i : ℕ} (hi : i < s.tags) : s.loadInfo i = .ok (s.info i) :=
  if_pos (Nat.lt_of_lt_of_le hi h.info_room)

theorem bsearchCompare_eq (tag : List CChar) {i : ℕ} (hi : i < s.tags) :
    bsearchCompare s tag i = .ok (strncmp tagNameSize tag (nameAt s i)) := by
  unfold bsearchCompare
  rw [h.loadIndex_eq hi]
  simp only [bind, Except.bind]
  rw [h.loadInfo_eq (h.index_lt i hi)]
  rfl

theorem ascending {tag : List CChar} (htag : TagName tag) :
    Ascending (fun i => strncmp tagNameSize tag (nameAt s i)) s.tags where
  after := by
    intro i j hij hj hle
    obtain ⟨hlt, heq, hgt⟩ := strncmp_spec htag (h.named _ (Nat.lt_trans hij hj))
    have hij' := h.sorted i j hij hj
    have hti : tag ≤ nameAt s i := by
      rcases Int.lt_or_eq_of_le hle with h0 | h0
      · exact le_of_lt (hlt.mp h0)
      · exact le_of_eq (heq.mp h0)
    exact (strncmp_spec htag (h.named j hj)).1.mpr (lt_of_le_of_lt hti hij')
  before := by
    intro i j hij hj hle
    obtain ⟨hlt, heq, hgt⟩ := strncmp_spec htag (h.named j hj)
    have hij' := h.sorted i j hij hj
    have htj : nameAt s j ≤ tag := by
      rcases Int.lt_or_eq_of_le hle with h0 | h0
      · exact le_of_lt (hgt.mp h0)
      · exact le_of_eq (heq.mp h0.symm).symm
    exact (strncmp_spec htag (h.named _ (Nat.lt_trans hij hj))).2.2.mpr
      (lt_of_lt_of_le hij' htj)

theorem findTag_cases (q : CString) (hq : ¬ isTop q) :
    (∃ i, i < s.tags ∧ (s.info i).name = searchName q ∧
        findTag s q = .ok (some (owner s i, i + 1))) ∨
      (∀ i, i < s.tags → (s.info i).name ≠ searchName q) ∧ findTag s q = .ok none := by
  have htag := tagName_searchName q
  unfold findTag
  simp only [if_neg hq]
  by_cases h0 : s.tags = 0
  · rw [if_pos h0]
    exact Or.inr ⟨fun i hi => by omega, rfl⟩
  rw [if_neg h0]
  by_cases h1 : s.tags = 1
  · -- one tag: the index need not be searched
    have hindex : s.index 0 = 0 := by
      have := h.index_lt 0 (by omega)
      omega
    have hcmp := (strncmp_spec htag (h.named 0 (by omega))).2.1
    rw [if_pos h1, h.bsearchCompare_eq _ (by omega : 0 < s.tags), h.loadInfo_eq (by omega),
      ok_bind]
    by_cases heq : strncmp tagNameSize (searchName q) (nameAt s 0) = 0
    · rw [if_pos heq]
      have hname := hcmp.mp heq
      rw [nameAt, hindex] at hname
      exact Or.inl ⟨0, by omega, hname.symm, rfl⟩
    · rw [if_neg heq]
      refine Or.inr ⟨fun i hi hname => heq (hcmp.mpr ?_), rfl⟩
      obtain rfl : i = 0 := by omega
      rw [nameAt, hindex, hname]
  · rw [if_neg h1]
    rcases bsearch_spec (bsearchCompare s (searchName q)) _ s.tags
        (fun i hi => h.bsearchCompare_eq _ hi) (h.ascending htag) with
      ⟨i, hi, hzero, hfound⟩ | ⟨hnone, hfound⟩
    · have hname := (strncmp_spec htag (h.named i hi)).2.1.mp hzero
      rw [hfound]
      simp only [bind, Except.bind, h.loadIndex_eq hi, h.loadInfo_eq (h.index_lt i hi)]
      exact Or.inl ⟨s.index i, h.index_lt i hi, hname.symm, rfl⟩
    · rw [hfound]
      refine Or.inr ⟨fun k hk hname => ?_, rfl⟩
      obtain ⟨i, hi, rfl⟩ := h.exists_place hk
      exact hnone i hi ((strncmp_spec htag (h.named i hi)).2.1.mpr hname.symm)

end Ordered

theorem findTag_represents {s : Tables} {m : TagMap} (h : Consistent s) (hm : Represents s m)
    (q : CString) (hq : ¬ isTop q) :
    ∃ r, findTag s q = .ok r ∧ r.map Prod.fst = m (searchName q) := by
  rcases h.ordered.findTag_cases q hq with ⟨i, hi, hname, hfound⟩ | ⟨hnone, hfound⟩
  · exact ⟨_, hfound, ((hm _ _).mpr ⟨i, hi, hname, rfl⟩).symm⟩
  · refine ⟨none, hfound, ?_⟩
    cases hval : m (searchName q) with
    | none => rfl
    | some n =>
      obtain ⟨i, hi, hname, _⟩ := (hm _ _).mp hval
      exact absurd hname (hnone i hi)

theorem findTag_top (s : Tables) (q : CString) (hq : isTop q) :
    findTag s q = .ok (some (s.root, 0)) := by
  unfold findTag
  rw [if_pos hq]

end MdsPlus.TagInvariant
