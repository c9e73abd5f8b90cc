import Mathlib.Data.Set.Card
import MdsPlus.DeleteList

/-!
The nodes that are marked for deletion. They are those that were given, what is below them, and
what belongs to the conglomerates of these; the count grows by those that were not marked before.
-/

namespace MdsPlus.MarkedNodes

open BitMemory DeleteList Marking NodeTree
open Traversals (Chain)
open Subtrees (maxNodes)

/-- The links run through the lists of a tree, which has all nodes that are numbered in a
conglomerate; the first node of a conglomerate is behind the top. -/
structure Holds (db : Database) (t : Tree) : Prop where
  child : ∀ p, t.In p → Chain (fun n => some (db.brother n)) (db.child p) (t.kids .child p)
  member : ∀ p, t.In p → Chain (fun n => some (db.brother n)) (db.member p) (t.kids .member p)
  parent : ∀ n, t.In n → db.parent n = t.parent n
  rooted : t.Rooted
  inside : ∀ n, t.In n → n < db.nodes
  few : db.nodes < maxNodes
  numbered : ∀ n, db.conglomerateElt n ≠ 0 → t.In n
  placed : ∀ n, (db.conglomerateElt n).toNat ≤ n ∧ (db.conglomerateElt n).toNat < 2 ^ 15

def SameConglomerate (elt : ℕ → BitVec 16) (a b : ℕ) : Prop :=
  elt a ≠ 0 ∧ ∃ first i, first + (elt a).toNat = a + 1 ∧ b = first + i ∧
    ∀ j ≤ i, (elt (first + j)).toNat = j + 1

/-- With a node goes what is in its lists and in its conglomerate. -/
def Drags (t : Tree) (elt : ℕ → BitVec 16) (a b : ℕ) : Prop :=
  (∃ k, b ∈ t.kids k a) ∨ SameConglomerate elt a b

/-- What goes with nodes that were given. -/
def Closure (t : Tree) (elt : ℕ → BitVec 16) (given : List ℕ) : Set ℕ :=
  {n | ∃ a ∈ given, Relation.ReflTransGen (Drags t elt) a n}

theorem ne_zero_iff {x : BitVec 16} : x ≠ 0 ↔ 0 < x.toNat := by
  rw [Nat.pos_iff_ne_zero]
  exact not_congr ⟨fun h => congrArg BitVec.toNat h, fun h => BitVec.eq_of_toNat_eq h⟩

/-! ### The elements of a conglomerate -/

variable {db : Database} {t : Tree} {m : Marks} {seen seen' : List ℕ} {count : Option ℤ}

def elements (db : Database) : ℕ → ℕ → ℕ → List ℕ
  | 0, _, _ => []
  | k + 1, elt, num =>
      if (db.conglomerateElt elt).toInt = num ∧ elt < db.nodes then
        elt :: elements db k (elt + 1) (num + 1)
      else []

theorem eachElement_eq (f : Marks → ℕ → Option Marks) {k elt : ℕ} (hle : elt ≤ db.nodes)
    (hk : db.nodes < k + elt) (m : Marks) (num : ℕ) :
    eachElement db f k m elt num = (elements db k elt num).foldlM f m := by
  induction k generalizing elt m num with
  | zero => omega
  | succ k ih =>
    rw [eachElement, elements]
    split
    · rename_i h
      rw [List.foldlM_cons]
      exact congrArg _ (funext fun m => ih (by omega) (by omega) m (num + 1))
    · rfl

theorem mem_elements {k elt num b : ℕ} :
    b ∈ elements db k elt num ↔ ∃ i < k, b = elt + i ∧
      ∀ j ≤ i, (db.conglomerateElt (elt + j)).toInt = (num + j : ℕ) ∧ elt + j < db.nodes := by
  induction k generalizing elt num with
  | zero =>
    rw [elements]
    refine ⟨by rintro ⟨⟩, ?_⟩
    rintro ⟨_, hi, _⟩
    exact absurd hi (Nat.not_lt_zero _)
  | succ k ih =>
    rw [elements]
    split
    · rename_i h
      rw [List.mem_cons, ih]
      constructor
      · rintro (rfl | ⟨i, hi, rfl, hall⟩)
        · refine ⟨0, Nat.succ_pos k, rfl, fun j hj => ?_⟩
          obtain rfl := Nat.le_zero.1 hj
          exact h
        · refine ⟨i + 1, by omega, by omega, fun j hj => ?_⟩
          cases j with
          | zero => exact h
          | succ j =>
            have hj' := hall j (by omega)
            rw [Nat.add_assoc, Nat.add_comm 1 j, Nat.add_assoc, Nat.add_comm 1 j] at hj'
            exact hj'
      · rintro ⟨i, hi, rfl, hall⟩
        cases i with
        | zero => exact Or.inl rfl
        | succ i =>
          refine Or.inr ⟨i, by omega, by omega, fun j hj => ?_⟩
          have hj' := hall (j + 1) (by omega)
          rw [Nat.add_assoc, Nat.add_comm 1 j, Nat.add_assoc, Nat.add_comm 1 j]
          exact hj'
    · rename_i h
      refine ⟨(by rintro ⟨⟩), ?_⟩
      rintro ⟨i, -, -, hall⟩
      exact absurd (hall 0 (Nat.zero_le i)) h

namespace Holds

variable (h : Holds db t) {n : ℕ}

include h

theorem toInt_eq (n : ℕ) : (db.conglomerateElt n).toInt = (db.conglomerateElt n).toNat := by
  have hsmall := (h.placed n).2
  exact BitVec.toInt_eq_toNat_of_lt (by omega)

theorem firstElement_eq (hn : t.In n) :
    firstElement db n = n + 1 - (db.conglomerateElt n).toNat := by
  have hplaced := (h.placed n).1
  have hinside := h.inside n hn
  have hfew := h.few
  rw [firstElement, h.toInt_eq n]
  by_cases hzero : (db.conglomerateElt n).toNat = 0
  · rw [hzero, Int.emod_eq_of_lt (by omega) (by omega)]
    omega
  · rw [Int.emod_eq_of_lt (by omega) (by omega)]
    omega

theorem mem_elements_iff (hn : t.In n) (helt : db.conglomerateElt n ≠ 0) {b : ℕ} :
    b ∈ elements db (db.nodes + 1) (firstElement db n) 1 ↔
      SameConglomerate db.conglomerateElt n b := by
  have hplaced := (h.placed n).1
  rw [mem_elements, h.firstElement_eq hn]
  constructor
  · rintro ⟨i, -, rfl, hall⟩
    refine ⟨helt, _, i, by omega, rfl, fun j hj => ?_⟩
    have hj' := (hall j hj).1
    rw [h.toInt_eq] at hj'
    omega
  · rintro ⟨-, first, i, hfirst, rfl, hall⟩
    obtain rfl : first = n + 1 - (db.conglomerateElt n).toNat := by omega
    have hinside : ∀ j ≤ i, n + 1 - (db.conglomerateElt n).toNat + j < db.nodes := by
      intro j hj
      have hj' := hall j hj
      exact h.inside _ (h.numbered _ (ne_zero_iff.2 (by omega)))
    refine ⟨i, ?_, rfl, fun j hj => ⟨?_, hinside j hj⟩⟩
    · have := hinside i (Nat.le_refl i)
      omega
    · rw [h.toInt_eq, hall j hj]
      omega

omit h in
/-- What comes after a node, in the order in which it is marked. -/
def next (db : Database) (t : Tree) (n : ℕ) : List ℕ :=
  t.kids .member n ++ (t.kids .child n ++
    if db.conglomerateElt n = 0 then []
    else elements db (db.nodes + 1) (firstElement db n) 1)

theorem mem_next (hn : t.In n) {b : ℕ} : b ∈ next db t n ↔ Drags t db.conglomerateElt n b := by
  have hkids : (b ∈ t.kids .member n ∨ b ∈ t.kids .child n) ↔ ∃ k, b ∈ t.kids k n := by
    constructor
    · rintro (hb | hb)
      · exact ⟨.member, hb⟩
      · exact ⟨.child, hb⟩
    · rintro ⟨k, hb⟩
      cases k with
      | child => exact Or.inr hb
      | member => exact Or.inl hb
  rw [next, List.mem_append, List.mem_append, ← or_assoc, hkids, Drags]
  refine or_congr_right ?_
  split
  · rename_i hzero
    exact ⟨(by rintro ⟨⟩), fun hsame => absurd hzero hsame.1⟩
  · rename_i helt
    exact h.mem_elements_iff hn helt

theorem in_of_drags {a b : ℕ} (hab : Drags t db.conglomerateElt a b) : t.In b := by
  rcases hab with ⟨k, hb⟩ | ⟨-, first, i, -, rfl, hall⟩
  · exact Tree.in_of_parent (t.linked hb)
  · have hi := hall i (Nat.le_refl i)
    exact h.numbered _ (ne_zero_iff.2 (by omega))

theorem length_kids_le (k : Kind) (p : ℕ) : (t.kids k p).length ≤ db.nodes := by
  have hsub : t.kids k p ⊆ List.range db.nodes := fun c hc =>
    List.mem_range.2 (h.inside c (Tree.in_of_parent (t.linked hc)))
  have hlength := (List.subperm_of_subset (t.nodup k p) hsub).length_le
  rwa [List.length_range] at hlength

end Holds

/-! ### Marking -/

structure Tracks (db : Database) (count : Option ℤ) (m : Marks) (seen : List ℕ) : Prop where
  length : m.list.length = vmNeeded db.nodes
  bits : ∀ n ≤ db.nodes, getbit m.list n = decide (n ∈ seen)
  counted : m.count = count.map fun c : ℤ => c + (seen.length : ℤ)

theorem Tracks.mark (htracks : Tracks db count m seen) {n : ℕ} (hn : n ≤ db.nodes) :
    Tracks db count (m.mark n) (n :: seen) where
  length := (setbit_length ..).trans htracks.length
  bits b hb := by
    have hbyte : n / 8 < m.list.length := by
      rw [htracks.length, vmNeeded]
      omega
    rw [Marks.mark, getbit_setbit hbyte, htracks.bits b hb]
    simp only [List.mem_cons, Bool.decide_or]
  counted := by
    rw [Marks.mark, htracks.counted, Option.map_map]
    refine congrArg (Option.map · count) (funext fun c => ?_)
    change c + (seen.length : ℤ) + 1 = c + ((n :: seen).length : ℤ)
    rw [List.length_cons]
    omega

theorem checkNid_succ (h : Holds db t) {n fuel : ℕ} (hn : t.In n) (hbit : getbit m.list n = false) :
    checkNid db (fuel + 1) m n = (Holds.next db t n).foldlM (checkNid db fuel) (m.mark n) := by
  have hinside := h.inside n hn
  rw [checkNid, hbit, if_neg Bool.false_ne_true, if_neg (by omega), Holds.next,
    List.foldlM_append, follow_eq (h.member n hn) (h.length_kids_le .member n)]
  refine congrArg _ (funext fun m => ?_)
  rw [List.foldlM_append, follow_eq (h.child n hn) (h.length_kids_le .child n)]
  refine congrArg _ (funext fun m => ?_)
  split
  · rfl
  · rename_i helt
    have hpos := ne_zero_iff.1 helt
    have hfirst := h.firstElement_eq hn
    rw [if_neg (by omega), eachElement_eq _ (by omega) (by omega)]

theorem checkNid_tracks (h : Holds db t) {n fuel : ℕ} (hn : t.In n)
    (htracks : Tracks db count m seen) (hvisit : visit (Holds.next db t) fuel seen n = some seen') :
    ∃ m', checkNid db fuel m n = some m' ∧ Tracks db count m' seen' := by
  induction fuel generalizing n m seen seen' with
  | zero => cases hvisit
  | succ fuel ih =>
    have hle := Nat.le_of_lt (h.inside n hn)
    rw [visit] at hvisit
    split at hvisit
    · rename_i hmem
      cases hvisit
      refine ⟨m, ?_, htracks⟩
      rw [checkNid, htracks.bits n hle, if_pos (decide_eq_true hmem)]
    · rename_i hnot
      have hbit : getbit m.list n = false := by
        rw [htracks.bits n hle, decide_eq_false hnot]
      rw [checkNid_succ h hn hbit]
      refine foldlM_related (fun a ha m seen seen' htracks hvisit => ?_) (htracks.mark hle) hvisit
      exact ih (h.in_of_drags ((h.mem_next hn).1 ha)) htracks hvisit

/-! ### Calls one after another -/

variable {given : List ℕ}

theorem ncard_eq_length {l : List ℕ} (hl : l.Nodup) {s : Set ℕ} (hs : ∀ n, n ∈ l ↔ n ∈ s) :
    s.ncard = l.length := by
  have hset : s = (l.toFinset : Set ℕ) := Set.ext fun n => by
    rw [List.coe_toFinset]
    exact (hs n).symm
  rw [hset, Set.ncard_coe_finset, List.toFinset_card_of_nodup hl]

theorem ncard_diff_eq {l l' : List ℕ} (hl : l.Nodup) (hl' : l'.Nodup) (hsub : l ⊆ l') {s u : Set ℕ}
    (hs : ∀ n, n ∈ l ↔ n ∈ s) (hs' : ∀ n, n ∈ l' ↔ n ∈ u) :
    ((u \ s).ncard : ℤ) = l'.length - l.length := by
  have hsubset : s ⊆ u := fun n hn => (hs' n).1 (hsub ((hs n).2 hn))
  have hfinite : s.Finite := (List.finite_toSet l).subset fun n hn => (hs n).2 hn
  have hle := (List.subperm_of_subset hl hsub).length_le
  rw [Set.ncard_sdiff hsubset hfinite, ncard_eq_length hl hs, ncard_eq_length hl' hs']
  omega

theorem mem_closure_append {elt : ℕ → BitVec 16} {a n : ℕ} :
    n ∈ Closure t elt (given ++ [a]) ↔
      n ∈ Closure t elt given ∨ Relation.ReflTransGen (Drags t elt) a n := by
  constructor
  · rintro ⟨b, hb, hbn⟩
    rcases List.mem_append.1 hb with hb | hb
    · exact Or.inl ⟨b, hb, hbn⟩
    · obtain rfl := List.mem_singleton.1 hb
      exact Or.inr hbn
  · rintro (⟨b, hb, hbn⟩ | han)
    · exact ⟨b, List.mem_append_left _ hb, hbn⟩
    · exact ⟨a, List.mem_append_right _ (List.mem_singleton_self a), han⟩

def Marked (db : Database) (t : Tree) (given : List ℕ) : Prop :=
  ∀ n ≤ db.nodes, getbit db.deleteList n = true ↔ n ∈ Closure t db.conglomerateElt given

namespace Holds

variable (h : Holds db t)

include h

theorem in_of_mem_closure (hgiven : ∀ a ∈ given, t.In a) {n : ℕ}
    (hn : n ∈ Closure t db.conglomerateElt given) : t.In n := by
  obtain ⟨a, ha, han⟩ := hn
  induction han with
  | refl => exact hgiven a ha
  | tail _ hstep _ => exact h.in_of_drags hstep

theorem reaches_iff {a n : ℕ} (ha : t.In a) :
    Reaches (next db t) a n ↔ Relation.ReflTransGen (Drags t db.conglomerateElt) a n := by
  constructor
  · intro hreach
    have hboth : t.In n ∧ Relation.ReflTransGen (Drags t db.conglomerateElt) a n := by
      induction hreach with
      | refl => exact ⟨ha, .refl⟩
      | tail _ hstep ih =>
        have hdrags := (h.mem_next ih.1).1 hstep
        exact ⟨h.in_of_drags hdrags, ih.2.tail hdrags⟩
    exact hboth.2
  · intro hreach
    have hboth : t.In n ∧ Reaches (next db t) a n := by
      induction hreach with
      | refl => exact ⟨ha, .refl⟩
      | tail _ hstep ih => exact ⟨h.in_of_drags hstep, ih.2.tail ((h.mem_next ih.1).2 hstep)⟩
    exact hboth.2

theorem visit_ends {n fuel : ℕ} (hn : t.In n) (hseen : seen.Nodup) (hin : ∀ b ∈ seen, t.In b)
    (hfuel : db.nodes < fuel) :
    ∃ seen', visit (next db t) fuel seen n = some seen' ∧ Visited (next db t) [n] seen seen' := by
  classical
  set within := (Finset.range db.nodes).filter t.In with hwithin
  have hmem : ∀ b, b ∈ within ↔ t.In b := by
    intro b
    rw [hwithin, Finset.mem_filter, Finset.mem_range]
    exact ⟨And.right, fun hb => ⟨h.inside b hb, hb⟩⟩
  have hcard : within.card ≤ db.nodes := by
    have hle := Finset.card_filter_le (Finset.range db.nodes) t.In
    rwa [Finset.card_range] at hle
  have hclosed : ∀ x ∈ within, ∀ y ∈ next db t x, y ∈ within := by
    intro x hx y hy
    exact (hmem y).2 (h.in_of_drags ((h.mem_next ((hmem x).1 hx)).1 hy))
  have hfew : within.card < seen.length + fuel := by omega
  obtain ⟨seen', hvisit, hvisited, -⟩ := visit_visited hclosed hseen
    (fun b hb => (hmem b).2 (hin b hb)) ((hmem n).2 hn) hfew
  exact ⟨seen', hvisit, hvisited⟩

theorem checkNid_closure (hgiven : ∀ a ∈ given, t.In a) {n fuel : ℕ} (hn : t.In n)
    (hfuel : db.nodes < fuel) {list : List Byte} (hlength : list.length = vmNeeded db.nodes)
    (hlist : ∀ n ≤ db.nodes, getbit list n = true ↔ n ∈ Closure t db.conglomerateElt given)
    (count : Option ℤ) :
    ∃ list', checkNid db fuel ⟨list, count⟩ n = some ⟨list', count.map fun c : ℤ => c +
        ((Closure t db.conglomerateElt (given ++ [n]) \
          Closure t db.conglomerateElt given).ncard : ℤ)⟩ ∧
      ∀ b ≤ db.nodes, getbit list' b = true ↔
        b ∈ Closure t db.conglomerateElt (given ++ [n]) := by
  classical
  set seen := (List.range db.nodes).filter (getbit list ·) with hseen
  have hnodup : seen.Nodup := List.nodup_range.filter _
  have hmem : ∀ b, b ∈ seen ↔ b ∈ Closure t db.conglomerateElt given := by
    intro b
    rw [hseen, List.mem_filter, List.mem_range]
    constructor
    · exact fun hb => (hlist b (Nat.le_of_lt hb.1)).1 hb.2
    · intro hb
      have hlt := h.inside b (h.in_of_mem_closure hgiven hb)
      exact ⟨hlt, (hlist b (Nat.le_of_lt hlt)).2 hb⟩
  have hin : ∀ b ∈ seen, t.In b := fun b hb => h.in_of_mem_closure hgiven ((hmem b).1 hb)
  obtain ⟨seen', hvisit, hvisited⟩ := h.visit_ends hn hnodup hin hfuel
  have hclosed : ∀ y ∈ seen, next db t y ⊆ seen := by
    intro y hy b hb
    obtain ⟨a, ha, hay⟩ := (hmem y).1 hy
    exact (hmem b).2 ⟨a, ha, hay.tail ((h.mem_next (hin y hy)).1 hb)⟩
  have hmem' : ∀ b, b ∈ seen' ↔ b ∈ Closure t db.conglomerateElt (given ++ [n]) := by
    intro b
    rw [(hvisited.mem_iff hclosed).1, mem_closure_append, hmem b]
    refine or_congr_right ?_
    rw [← h.reaches_iff hn]
    exact ⟨fun ⟨x, hx, hxb⟩ => List.mem_singleton.1 hx ▸ hxb,
      fun hnb => ⟨n, List.mem_singleton_self n, hnb⟩⟩
  have htracks : Tracks db (count.map fun c : ℤ => c - (seen.length : ℤ)) ⟨list, count⟩ seen := by
    refine ⟨hlength, fun b hb => ?_, ?_⟩
    · rw [Bool.eq_iff_iff, hlist b hb, decide_eq_true_iff, hmem b]
    · cases count with
      | none => rfl
      | some c => exact congrArg some (Int.sub_add_cancel c _).symm
  obtain ⟨⟨list', count'⟩, hcheck, htracks'⟩ := checkNid_tracks h hn htracks hvisit
  refine ⟨list', ?_, fun b hb => ?_⟩
  · have hcount : count' = _ := htracks'.counted
    rw [hcheck, hcount, Option.map_map,
      ncard_diff_eq hnodup hvisited.nodup hvisited.kept hmem hmem']
    refine congrArg (fun count => some (Marks.mk list' count))
      (congrArg (Option.map · count) (funext fun c => ?_))
    change c - (seen.length : ℤ) + (seen'.length : ℤ) = c + ((seen'.length : ℤ) - seen.length)
    omega
  · have hbit : getbit list' b = _ := htracks'.bits b hb
    rw [hbit, decide_eq_true_iff, hmem' b]

end Holds

structure Call where
  nid : ℕ
  count : Option ℤ
  reset : Bool

/-- The nodes given since the list was last emptied, before a call and after it. -/
def Call.kept (c : Call) (given : List ℕ) : List ℕ := if c.reset then [] else given

def Call.give (given : List ℕ) (c : Call) : List ℕ :=
  c.kept given ++ if c.nid = 0 then [] else [c.nid]

def runCalls (fuel : ℕ) : Database → List Call → Option Database
  | db, [] => some db
  | db, c :: calls =>
      (treeDeleteNodeInitialize fuel db c.nid c.count c.reset).bind fun r =>
        runCalls fuel r.db calls

theorem Holds.withList (h : Holds db t) (list : List Byte) :
    Holds { db with deleteList := list } t :=
  ⟨h.child, h.member, h.parent, h.rooted, h.inside, h.few, h.numbered, h.placed⟩

theorem mem_give (c : Call) (hgiven : ∀ a ∈ given, t.In a) (hc : t.In c.nid) :
    ∀ a ∈ c.give given, t.In a := by
  intro a ha
  rw [Call.give, Call.kept] at ha
  rcases List.mem_append.1 ha with ha | ha
  · split at ha
    · cases ha
    · exact hgiven a ha
  · split at ha
    · cases ha
    · exact List.mem_singleton.1 ha ▸ hc

theorem marked_kept (c : Call) (hmarked : Marked db t given) {n : ℕ} (hn : n ≤ db.nodes) :
    getbit (allocate (vmNeeded db.nodes) c.reset db.deleteList) n = true ↔
      n ∈ Closure t db.conglomerateElt (c.kept given) := by
  have hbyte : n / 8 < vmNeeded db.nodes := by
    rw [vmNeeded]
    omega
  rw [getbit_allocate _ _ _ hbyte, Call.kept]
  cases c.reset with
  | true => exact ⟨nofun, fun ⟨_, ha, _⟩ => absurd ha List.not_mem_nil⟩
  | false => exact hmarked n hn

theorem treeDeleteNodeInitialize_eq (h : Holds db t) (hedit : db.openForEdit = true)
    (hgiven : ∀ a ∈ given, t.In a) (hmarked : Marked db t given) (c : Call) (hc : t.In c.nid)
    {fuel : ℕ} (hfuel : db.nodes < fuel) :
    ∃ list, treeDeleteNodeInitialize fuel db c.nid c.count c.reset =
        some ⟨{ db with deleteList := list },
          (if c.reset then c.count.map fun _ => 0 else c.count).map fun k : ℤ => k +
            ((Closure t db.conglomerateElt (c.give given) \
              Closure t db.conglomerateElt (c.kept given)).ncard : ℤ), .success⟩ ∧
      Marked { db with deleteList := list } t (c.give given) := by
  rw [treeDeleteNodeInitialize, if_neg (not_not_intro hedit), Call.give]
  by_cases hnid : c.nid = 0
  · refine ⟨allocate (vmNeeded db.nodes) c.reset db.deleteList, ?_, ?_⟩
    · dsimp only
      rw [if_neg (not_not_intro hnid), if_pos hnid, List.append_nil, Set.sdiff_self]
      simp
    · intro n hn
      rw [if_pos hnid, List.append_nil]
      exact marked_kept c hmarked hn
  · have hkept : ∀ a ∈ c.kept given, t.In a := by
      intro a ha
      exact mem_give c hgiven hc a (List.mem_append_left _ ha)
    obtain ⟨list, hcheck, hlist⟩ := h.checkNid_closure hkept hc hfuel
      (allocate_length (vmNeeded db.nodes) c.reset db.deleteList)
      (fun n hn => marked_kept c hmarked hn) (if c.reset then c.count.map fun _ => 0 else c.count)
    refine ⟨list, ?_, ?_⟩
    · dsimp only
      rw [if_pos hnid, if_neg hnid, hcheck]
      rfl
    · rw [if_neg hnid]
      exact hlist

theorem runCalls_eq (h : Holds db t) (hedit : db.openForEdit = true)
    (hgiven : ∀ a ∈ given, t.In a) (hmarked : Marked db t given) {calls : List Call}
    (hcalls : ∀ c ∈ calls, t.In c.nid) {fuel : ℕ} (hfuel : db.nodes < fuel) :
    ∃ list, runCalls fuel db calls = some { db with deleteList := list } ∧
      Marked { db with deleteList := list } t (calls.foldl Call.give given) ∧
      ∀ a ∈ calls.foldl Call.give given, t.In a := by
  induction calls generalizing db given with
  | nil => exact ⟨db.deleteList, rfl, hmarked, hgiven⟩
  | cons c calls ih =>
    have hc := hcalls c List.mem_cons_self
    obtain ⟨list, hcall, hmarked'⟩ :=
      treeDeleteNodeInitialize_eq h hedit hgiven hmarked c hc hfuel
    obtain ⟨list', hrest, hmarked'', hgiven''⟩ := ih (h.withList list) hedit
      (mem_give c hgiven hc) hmarked' (fun c' hc' => hcalls c' (List.mem_cons_of_mem c hc')) hfuel
    refine ⟨list', ?_, hmarked'', hgiven''⟩
    rw [runCalls, hcall]
    exact hrest

/-! ### Getting the nodes -/

theorem nextMarked_eq (list : List Byte) (k i : ℕ) :
    match nextMarked list k i with
    | none => (List.range' i k).filter (getbit list ·) = []
    | some n => i ≤ n ∧ n < i + k ∧
        (List.range' i k).filter (getbit list ·) =
          n :: (List.range' (n + 1) (i + k - (n + 1))).filter (getbit list ·) := by
  induction k generalizing i with
  | zero => rfl
  | succ k ih =>
    rw [nextMarked, List.range'_succ, List.filter_cons]
    by_cases hbit : getbit list i = true
    · rw [if_pos hbit, if_pos hbit]
      have hlength : i + (k + 1) - (i + 1) = k := by omega
      dsimp only
      rw [hlength]
      exact ⟨Nat.le_refl i, by omega, rfl⟩
    · rw [if_neg hbit, if_neg hbit]
      have hrest := ih (i + 1)
      cases hnext : nextMarked list k (i + 1) with
      | none =>
        rw [hnext] at hrest
        exact hrest
      | some n =>
        rw [hnext] at hrest
        have hlength : i + (k + 1) - (n + 1) = i + 1 + k - (n + 1) := by omega
        dsimp only at hrest ⊢
        rw [hlength]
        exact ⟨by omega, by omega, hrest.2.2⟩

theorem enumerate_eq (db : Database) {fuel nid : ℕ} (hfuel : db.nodes ≤ fuel + nid + 1) :
    enumerate db fuel nid =
      (List.range' (nid + 1) (db.nodes - (nid + 1))).filter (getbit db.deleteList ·) := by
  induction fuel generalizing nid with
  | zero =>
    have hzero : db.nodes - (nid + 1) = 0 := by omega
    rw [hzero]
    rfl
  | succ fuel ih =>
    have hnext := nextMarked_eq db.deleteList (db.nodes - (nid + 1)) (nid + 1)
    rw [enumerate, treeDeleteNodeGetNid]
    split
    · rename_i n hn
      rw [hn] at hnext
      have hlength : nid + 1 + (db.nodes - (nid + 1)) - (n + 1) = db.nodes - (n + 1) := by omega
      rw [hnext.2.2, hlength, ih (by omega)]
    · rename_i hn
      rw [hn] at hnext
      exact hnext.symm

end MdsPlus.MarkedNodes
