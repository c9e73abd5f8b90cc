import MdsPlus.TagAdd
import MdsPlus.TagRemove

/-!
Runs of tag calls. Every call keeps the tables consistent and follows the map from
names to nodes, unless it takes the reserved name for a tag of the tables or moves
an index that fills its pages.
-/

namespace MdsPlus.TagRuns

open Outcome OwnerChain TagTable TagInvariant TagAdd TagRemove

theorem removeTag_step {s : Tables} {m : TagMap} (h : Consistent s) (hm : Represents s m)
    (name : CString) (htop : isTop name → s.tags = 0)
    (hroom : ∀ r, findTag s name = .ok (some r) → s.tags ≠ 0 → s.tags < s.indexRoom) :
    ∃ s' status, removeTag s name = .ok (s', status) ∧ Consistent s' ∧
      Represents s' (m.removeTag name) := by
  unfold removeTag
  rw [if_neg (by simp [h.editing])]
  by_cases hq : isTop name
  · -- with no tags the reserved index is not used
    have hnone : m.removeTag name = m := by
      apply Function.update_eq_self_iff.mpr
      cases hval : m (searchName name) with
      | none => rfl
      | some n =>
        obtain ⟨i, hi, _⟩ := (hm _ _).mp hval
        have := htop hq
        omega
    have hremove : removeTagIdx s 0 = .ok s := by
      unfold removeTagIdx
      rw [if_pos (Nat.le_of_eq (htop hq))]
    rw [findTag_top s name hq, hnone]
    simp only [bind, Except.bind, hremove]
    exact ⟨s, .success, rfl, h, hm⟩
  · rcases h.ordered.findTag_cases name hq with ⟨r, hr, hname, hfound⟩ | ⟨hnone, hfound⟩
    · obtain ⟨s', place, hremove, hd⟩ := removeTagIdx_spec h hr (hroom _ hfound (by omega))
      rw [hfound]
      simp only [bind, Except.bind, hremove]
      refine ⟨s', .success, rfl, hd.consistent h, ?_⟩
      rw [TagMap.removeTag, ← hname]
      exact hd.represents h hm
    · rw [hfound]
      refine ⟨s, .tnf, rfl, h, ?_⟩
      have hself : m.removeTag name = m := by
        apply Function.update_eq_self_iff.mpr
        cases hval : m (searchName name) with
        | none => rfl
        | some n =>
          obtain ⟨i, hi, hname, _⟩ := (hm _ _).mp hval
          exact absurd hname (hnone i hi)
      rwa [hself]

theorem removeChain_spec {nid : ℕ} (fuel : ℕ) (s : Tables) (m : TagMap) (h : Consistent s)
    (hm : Represents s m) (hnid : nid < s.nodes) (hfuel : s.nodeLink nid < fuel)
    (hroom : s.nodeLink nid ≠ 0 → s.tags < s.indexRoom) :
    ∃ s', removeChain fuel s (s.nodeLink nid) = .ok s' ∧ Consistent s' ∧
      Represents s' (m.removeNodesTags nid) := by
  induction fuel generalizing s m with
  | zero => omega
  | succ fuel ih =>
    have hhead := h.linked.head_eq nid hnid
    cases hlink : s.nodeLink nid with
    | zero =>
      have hself : m.removeNodesTags nid = m := by
        funext name
        unfold TagMap.removeNodesTags
        rw [if_neg]
        intro hval
        obtain ⟨i, hi, _, howner⟩ := (hm _ _).mp hval
        have hlater := lt_lastOwned (owner s) s.tags i hi
        rw [howner, ← hhead] at hlater
        omega
      rw [removeChain, if_pos rfl, hself]
      exact ⟨s, rfl, h, hm⟩
    | succ r =>
      obtain ⟨hr, howner, _⟩ := (lastOwned_eq_succ_iff _ _ _ _).mp (hhead.symm.trans hlink)
      have hpast : link s r ≤ r := by
        rw [h.linked.link_eq r hr]
        exact lastOwned_le _ _ _
      obtain ⟨s1, place, hremove, hd⟩ := removeTagIdx_spec h hr (hroom (by omega))
      have hnext : s1.nodeLink nid = link s r := by
        rw [hd.nodeLink_eq nid hnid, hlink, relink_self _ _ hpast]
      have htags := hd.tags_eq
      have hrooms := hd.indexRoom_eq
      have hroom' := hroom (by omega)
      obtain ⟨s', hchain, h', hm'⟩ := ih s1 _ (hd.consistent h) (hd.represents h hm)
        (by rw [hd.nodes_eq]; exact hnid) (by omega) (by omega)
      have hmap : TagMap.removeNodesTags (Function.update m (s.info r).name none) nid =
          m.removeNodesTags nid := by
        have hval := (hm _ _).mpr ⟨r, hr, rfl, howner⟩
        funext name
        unfold TagMap.removeNodesTags
        by_cases hname : name = (s.info r).name
        · simp [hname, hval]
        · simp [Function.update_of_ne hname]
      rw [removeChain, if_neg (by omega), Nat.add_sub_cancel]
      simp only [h.ordered.loadInfo_eq hr, hremove, bind, Except.bind]
      rw [hnext] at hchain
      exact ⟨s', hchain, h', hmap ▸ hm'⟩

theorem removeNodesTags_step {s : Tables} {m : TagMap} (h : Consistent s) (hm : Represents s m)
    {nid : ℕ} (hnid : nid < s.nodes) (hroom : s.nodeLink nid ≠ 0 → s.tags < s.indexRoom) :
    ∃ s' status, removeNodesTags s nid = .ok (s', status) ∧ Consistent s' ∧
      Represents s' (m.removeNodesTags nid) := by
  have hfuel : s.nodeLink nid < s.infoRoom + 1 := by
    have hle := lastOwned_le (owner s) nid s.tags
    rw [← h.linked.head_eq nid hnid] at hle
    have := h.tags_le_infoRoom
    omega
  obtain ⟨s', hchain, h', hm'⟩ := removeChain_spec _ s m h hm hnid hfuel hroom
  have hload : s.loadNodeLink nid = .ok (s.nodeLink nid) := if_pos hnid
  unfold removeNodesTags
  rw [if_neg (by simp [h.editing]), hload]
  simp only [bind, Except.bind, hchain]
  exact ⟨s', .success, rfl, h', hm'⟩

/-- The node is one of the tree's; the reserved name is given to the root only and
is not removed from tables that hold tags; an index with an entry to remove does not
fill its pages. -/
def StepOk (s : Tables) : Op → Prop
  | .addTag nid tagnam =>
      nid < s.nodes ∧
        (Accepted tagnam → blankFilled tagnam.chars = blankFilled top → nid = s.root)
  | .removeTag name =>
      (isTop name → s.tags = 0) ∧
        ∀ r, findTag s name = .ok (some r) → s.tags ≠ 0 → s.tags < s.indexRoom
  | .removeNodesTags nid => nid < s.nodes ∧ (s.nodeLink nid ≠ 0 → s.tags < s.indexRoom)

theorem exec_step (s : Tables) (m : TagMap) (op : Op) (hrel : Consistent s ∧ Represents s m)
    (hok : StepOk s op) :
    ∃ s', exec s op = .ok s' ∧ Consistent s' ∧ Represents s' (m.exec op) := by
  obtain ⟨h, hm⟩ := hrel
  cases op with
  | addTag nid tagnam =>
    obtain ⟨s', status, hadd, h', hm'⟩ := addTag_step h hm hok.1 tagnam hok.2
    exact ⟨s', by rw [exec, hadd]; rfl, h', hm'⟩
  | removeTag name =>
    obtain ⟨s', status, hremove, h', hm'⟩ := removeTag_step h hm name hok.1 hok.2
    exact ⟨s', by rw [exec, hremove]; rfl, h', hm'⟩
  | removeNodesTags nid =>
    obtain ⟨s', status, hremove, h', hm'⟩ := removeNodesTags_step h hm hok.1 hok.2
    exact ⟨s', by rw [exec, hremove]; rfl, h', hm'⟩

structure Finds (s : Tables) (m : TagMap) : Prop where
  named : ∀ q, ¬ isTop q → ∃ r, findTag s q = .ok r ∧ r.map Prod.fst = m (searchName q)
  reserved : ∀ q, isTop q → findTag s q = .ok (some (s.root, 0))
  reserved_root : ∀ n, m (blankFilled top) = some n → n = s.root

/-- No access of an admissible run leaves a table; afterwards the index is a sorted
permutation, every chain lists the tags of its node, and the tags found are those
added and not removed. -/
theorem exec_run (s : Tables) (m : TagMap) (ops : List Op) (h : Consistent s)
    (hm : Represents s m) (hadm : Admissible exec StepOk s ops) :
    ∃ s', run exec s ops = .ok s' ∧ Consistent s' ∧
      ((List.range s'.tags).map s'.index).Perm (List.range s'.tags) ∧
      (∀ n, n < s'.nodes → follow (link s') s'.tags (s'.nodeLink n) =
        ((List.range s'.tags).filter fun i => owner s' i = n).reverse) ∧
      Finds s' (ops.foldl TagMap.exec m) := by
  obtain ⟨s', hrun, h', hm'⟩ := run_simulates exec_step s m ops ⟨h, hm⟩ hadm
  refine ⟨s', hrun, h', h'.ordered.index_perm, fun n hn => h'.linked.follow_head n hn, {
    named := fun q hq => findTag_represents h' hm' q hq
    reserved := fun q hq => findTag_top s' q hq
    reserved_root := ?_ }⟩
  intro n hn
  obtain ⟨i, hi, hname, rfl⟩ := (hm' _ _).mp hn
  exact h'.reserved i hi hname

def newTables (nodes : ℕ) : Tables where
  openForEdit := true
  root := 0
  nodes := nodes
  nodeLink := fun _ => 0
  tags := 0
  index := fun _ => 0
  indexRoom := 0
  tagsPages := 0
  info := fun _ => ⟨[], 0, 0⟩
  infoRoom := 0
  tagInfoPages := 0

theorem newTables_consistent (nodes : ℕ) : Consistent (newTables nodes) where
  editing := rfl
  linked := ⟨fun i hi => absurd hi (Nat.not_lt_zero i), fun _ _ => rfl⟩
  owner_lt := fun i hi => absurd hi (Nat.not_lt_zero i)
  named := fun i hi => absurd hi (Nat.not_lt_zero i)
  reserved := fun i hi => absurd hi (Nat.not_lt_zero i)
  index_lt := fun i hi => absurd hi (Nat.not_lt_zero i)
  sorted := fun i j _ hj => absurd hj (Nat.not_lt_zero j)
  index_room := by simp [newTables, pagesFor]
  info_room := by simp [newTables, pagesFor, tagInfoSize]

theorem newTables_represents (nodes : ℕ) : Represents (newTables nodes) fun _ => none := by
  intro name n
  constructor
  · intro hn
    cases hn
  · rintro ⟨i, hi, _⟩
    exact absurd hi (Nat.not_lt_zero i)

def alpha : CString := ⟨[97, 49], by decide +kernel⟩

def beta : CString := ⟨[66], by decide +kernel⟩

/-- Two tags on one node, and the older one removed again. -/
theorem exec_run_alpha :
    ∃ s', run exec (newTables 3) [.addTag 2 alpha, .addTag 2 beta, .removeTag alpha] = .ok s' ∧
      Consistent s' ∧ Finds s' ([Op.addTag 2 alpha, .addTag 2 beta, .removeTag alpha].foldl
        TagMap.exec fun _ => none) := by
  obtain ⟨s', hrun, h', _, _, hfinds⟩ := exec_run (newTables 3) (fun _ => none)
    [.addTag 2 alpha, .addTag 2 beta, .removeTag alpha] (newTables_consistent 3)
    (newTables_represents 3) (by
      have halpha : blankFilled alpha.chars ≠ blankFilled top := by decide +kernel
      have hbeta : blankFilled beta.chars ≠ blankFilled top := by decide +kernel
      have htop : ¬ isTop alpha := by decide +kernel
      refine ⟨⟨by decide, fun _ heq => absurd heq halpha⟩, fun s1 h1 => ?_⟩
      cases h1
      refine ⟨⟨by decide, fun _ heq => absurd heq hbeta⟩, fun s2 h2 => ?_⟩
      cases h2
      exact ⟨⟨fun h => absurd h htop, fun _ _ _ => by decide⟩, fun _ _ => trivial⟩)
  exact ⟨s', hrun, h', hfinds⟩

/-- Removing the reserved name while there are tags reads before the first block. -/
theorem exec_run_top :
    run exec (newTables 3) [.addTag 2 alpha, .removeTag ⟨top, by decide +kernel⟩] =
      .error .outOfRange := by
  rfl

end MdsPlus.TagRuns
