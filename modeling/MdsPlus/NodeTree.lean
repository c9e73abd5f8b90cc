import MdsPlus.BitMemory
import Mathlib.Data.List.Nodup
import Mathlib.Data.Int.Notation
import Mathlib.Logic.Relation

/-!
The nodes of a tree by their numbers. A node has a parent and two lists of its own, of
children and of members, where the source links the first of each list and its brothers.
Every node is in one list of its parent, and no node is below itself.
-/

namespace MdsPlus.NodeTree

open BitMemory

/-- Twelve characters, filled up with blanks. -/
abbrev Name := List Byte

inductive Kind
  | child
  | member
  deriving DecidableEq

/-- Names are compared as strncmp does. -/
def nameLt (a b : Name) : Bool := (a.map BitVec.toNat) < (b.map BitVec.toNat)

/-- The place of a node in a list: before the first name that is not less, or the end. -/
def insertNode (sort : Bool) (name : ℕ → Name) (c : ℕ) : List ℕ → List ℕ
  | [] => [c]
  | x :: l =>
      if sort ∧ ¬ nameLt (name x) (name c) then c :: x :: l
      else x :: insertNode sort name c l

theorem mem_insertNode {sort : Bool} {name : ℕ → Name} {c x : ℕ} {l : List ℕ} :
    x ∈ insertNode sort name c l ↔ x = c ∨ x ∈ l := by
  induction l with
  | nil => simp [insertNode]
  | cons y l ih =>
    rw [insertNode]
    split
    · simp
    · simp only [List.mem_cons, ih]
      tauto

theorem nodup_insertNode {sort : Bool} {name : ℕ → Name} {c : ℕ} {l : List ℕ} (hc : c ∉ l)
    (h : l.Nodup) : (insertNode sort name c l).Nodup := by
  induction l with
  | nil => simp [insertNode]
  | cons y l ih =>
    simp only [List.mem_cons, not_or] at hc
    rw [insertNode]
    split
    · exact List.nodup_cons.mpr ⟨by simp [hc], h⟩
    · obtain ⟨hy, hl⟩ := List.nodup_cons.mp h
      refine List.nodup_cons.mpr ⟨fun hmem => ?_, ih hc.2 hl⟩
      rcases mem_insertNode.mp hmem with rfl | hmem
      · exact hc.1 rfl
      · exact hy hmem

@[ext]
structure Tree where
  name : ℕ → Name
  usage : ℕ → ℤ
  parent : ℕ → Option ℕ
  kids : Kind → ℕ → List ℕ
  linked : ∀ {k p c}, c ∈ kids k p → parent c = some p
  listed : ∀ {p c}, parent c = some p → ∃ k, c ∈ kids k p
  nodup : ∀ k p, (kids k p).Nodup
  once : ∀ {j k p c}, c ∈ kids j p → c ∈ kids k p → j = k
  bounded : ∃ (depth : ℕ → ℕ) (bound : ℕ),
    (∀ c p, parent c = some p → depth c = depth p + 1) ∧ ∀ n, depth n ≤ bound
  top : parent 0 = none

def topTree (name : Name) (usage : ℤ) : Tree where
  name _ := name
  usage _ := usage
  parent _ := none
  kids _ _ := []
  linked := nofun
  listed := nofun
  nodup _ _ := List.nodup_nil
  once := nofun
  bounded := ⟨fun _ => 0, 0, nofun, fun _ => Nat.le_refl 0⟩
  top := rfl

namespace Tree

variable (t : Tree)

theorem wellFounded_up : WellFounded fun p c => t.parent c = some p := by
  obtain ⟨depth, _, hdepth, _⟩ := t.bounded
  refine Subrelation.wf (fun {p c} h => ?_) (measure depth).wf
  have := hdepth c p h
  change depth p < depth c
  omega

theorem wellFounded_down : WellFounded fun c p => t.parent c = some p := by
  obtain ⟨depth, bound, hdepth, hbound⟩ := t.bounded
  refine Subrelation.wf (fun {c p} h => ?_) (measure fun n => bound - depth n).wf
  have := hdepth c p h
  have := hbound c
  change bound - depth c < bound - depth p
  omega

def Ancestor (a n : ℕ) : Prop := Relation.TransGen (fun a n => t.parent n = some a) a n

def In (n : ℕ) : Prop := n = 0 ∨ ∃ p, t.parent n = some p

/-- Every parent is in the tree itself. -/
def Rooted : Prop := ∀ c p, t.parent c = some p → t.In p

/-- A node and those met going up from it. -/
def lineage (n : ℕ) : List ℕ :=
  n ::
    match _h : t.parent n with
    | none => []
    | some p => lineage p
termination_by t.wellFounded_up.wrap n
decreasing_by assumption

variable {t} {n p c : ℕ}

theorem lineage_top (h : t.parent n = none) : t.lineage n = [n] := by
  rw [lineage]
  split
  · rfl
  · rename_i heq
    rw [h] at heq
    cases heq

theorem lineage_parent (h : t.parent n = some p) : t.lineage n = n :: t.lineage p := by
  rw [lineage]
  split
  · rename_i heq
    rw [h] at heq
    cases heq
  · rename_i heq
    rw [h] at heq
    cases heq
    rfl

theorem self_mem_lineage (t : Tree) (n : ℕ) : n ∈ t.lineage n := by
  rw [lineage]
  exact List.mem_cons_self

theorem mem_lineage {a n : ℕ} : a ∈ t.lineage n ↔ a = n ∨ t.Ancestor a n := by
  induction n using t.wellFounded_up.induction with
  | _ n ih =>
    cases h : t.parent n with
    | none =>
      rw [lineage_top h, List.mem_singleton]
      refine ⟨Or.inl, fun hor => hor.resolve_right fun hanc => ?_⟩
      obtain ⟨b, _, hb⟩ := Relation.TransGen.tail'_iff.mp hanc
      rw [h] at hb
      cases hb
    | some p =>
      rw [lineage_parent h, List.mem_cons, ih p h]
      refine or_congr_right ⟨fun hor => ?_, fun hanc => ?_⟩
      · rcases hor with rfl | hanc
        · exact .single h
        · exact .tail hanc h
      · obtain ⟨b, hab, hb⟩ := Relation.TransGen.tail'_iff.mp hanc
        rw [h] at hb
        cases hb
        rcases Relation.reflTransGen_iff_eq_or_transGen.mp hab with heq | htrans
        · exact Or.inl heq.symm
        · exact Or.inr htrans

theorem in_of_parent (h : t.parent n = some p) : t.In n := Or.inr ⟨p, h⟩

theorem parent_ne (h : t.parent n = some p) : n ≠ p := by
  rintro rfl
  obtain ⟨depth, _, hdepth, _⟩ := t.bounded
  have := hdepth n n h
  omega

theorem mem_detached {k : Kind} : c ∈ (if t.parent n = some p then (t.kids k p).erase n else t.kids k p) ↔
    c ∈ t.kids k p ∧ c ≠ n := by
  by_cases hp : t.parent n = some p
  · rw [if_pos hp, (t.nodup k p).mem_erase_iff]
    exact and_comm
  · rw [if_neg hp]
    refine ⟨fun hc => ⟨hc, ?_⟩, And.left⟩
    rintro rfl
    exact hp (t.linked hc)

def detach (t : Tree) (n : ℕ) : Tree where
  name := t.name
  usage := t.usage
  parent := Function.update t.parent n none
  kids k p := if t.parent n = some p then (t.kids k p).erase n else t.kids k p
  linked := by
    intro k p c hc
    obtain ⟨hmem, hne⟩ := mem_detached.mp hc
    rw [Function.update_of_ne hne]
    exact t.linked hmem
  listed := by
    intro p c hc
    have hne : c ≠ n := by
      rintro rfl
      rw [Function.update_self] at hc
      cases hc
    rw [Function.update_of_ne hne] at hc
    obtain ⟨k, hk⟩ := t.listed hc
    exact ⟨k, mem_detached.mpr ⟨hk, hne⟩⟩
  nodup := by
    intro k p
    split
    · exact (t.nodup k p).erase n
    · exact t.nodup k p
  once := by
    intro j k p c hj hk
    exact t.once (mem_detached.mp hj).1 (mem_detached.mp hk).1
  bounded := by
    obtain ⟨depth, bound, hdepth, hbound⟩ := t.bounded
    refine ⟨depth, bound, fun c p hc => hdepth c p ?_, hbound⟩
    by_cases hne : c = n
    · rw [hne, Function.update_self] at hc
      cases hc
    · rwa [Function.update_of_ne hne] at hc
  top := by
    by_cases hn : 0 = n
    · rw [hn, Function.update_self]
    · rw [Function.update_of_ne hn]
      exact t.top

theorem ancestor_of_detach {a b : ℕ} (h : (t.detach n).Ancestor a b) : t.Ancestor a b := by
  refine Relation.TransGen.mono (fun a b hab => ?_) a b h
  by_cases hb : b = n
  · rw [hb] at hab
    change Function.update t.parent n none n = some a at hab
    rw [Function.update_self] at hab
    cases hab
  · change Function.update t.parent n none b = some a at hab
    rwa [Function.update_of_ne hb] at hab

theorem in_of_mem_lineage (hrooted : t.Rooted) (hn : t.In n) {a : ℕ} (ha : a ∈ t.lineage n) :
    t.In a := by
  induction n using t.wellFounded_up.induction with
  | _ n ih =>
    cases hp : t.parent n with
    | none =>
      rw [lineage_top hp, List.mem_singleton] at ha
      rw [ha]
      exact hn
    | some p =>
      rw [lineage_parent hp, List.mem_cons] at ha
      rcases ha with rfl | ha
      · exact hn
      · exact ih p hp (hrooted n p hp) ha

/-- A node without a parent may be put under another that is not below it. -/
structure Fits (t : Tree) (p c : ℕ) : Prop where
  parent : t.parent c = none
  ne_top : c ≠ 0
  not_below : c ∉ t.lineage p

instance (t : Tree) (p c : ℕ) : Decidable (t.Fits p c) :=
  decidable_of_iff (t.parent c = none ∧ c ≠ 0 ∧ c ∉ t.lineage p)
    ⟨fun ⟨h1, h2, h3⟩ => ⟨h1, h2, h3⟩, fun ⟨h1, h2, h3⟩ => ⟨h1, h2, h3⟩⟩

/-- Depths once `c` and what is below it hang under `p`. -/
def hungDepth (t : Tree) (depth : ℕ → ℕ) (p c n : ℕ) : ℕ :=
  if c ∈ t.lineage n then depth n - depth c + depth p + 1 else depth n

theorem depth_le_of_lineage {depth : ℕ → ℕ}
    (hdepth : ∀ c p, t.parent c = some p → depth c = depth p + 1) {a n : ℕ}
    (h : a ∈ t.lineage n) : depth a ≤ depth n := by
  induction n using t.wellFounded_up.induction with
  | _ n ih =>
    cases hp : t.parent n with
    | none =>
      rw [lineage_top hp, List.mem_singleton] at h
      exact Nat.le_of_eq (congrArg depth h)
    | some p =>
      rw [lineage_parent hp, List.mem_cons] at h
      rcases h with rfl | h
      · exact Nat.le_refl _
      · have hle := ih p hp h
        have hstep := hdepth n p hp
        omega

theorem hungDepth_parent {depth : ℕ → ℕ}
    (hdepth : ∀ c p, t.parent c = some p → depth c = depth p + 1) (h : t.Fits p c) {x y : ℕ}
    (hxy : Function.update t.parent c (some p) x = some y) :
    t.hungDepth depth p c x = t.hungDepth depth p c y + 1 := by
  by_cases hx : x = c
  · subst hx
    rw [Function.update_self] at hxy
    cases hxy
    rw [hungDepth, hungDepth, if_pos (self_mem_lineage t x), if_neg h.not_below]
    omega
  · rw [Function.update_of_ne hx] at hxy
    have hstep := hdepth x y hxy
    have hmem : c ∈ t.lineage x ↔ c ∈ t.lineage y := by
      rw [lineage_parent hxy, List.mem_cons]
      exact or_iff_right (Ne.symm hx)
    rw [hungDepth, hungDepth]
    by_cases hc : c ∈ t.lineage y
    · have hle := depth_le_of_lineage hdepth hc
      rw [if_pos (hmem.mpr hc), if_pos hc]
      omega
    · rw [if_neg (mt hmem.mp hc), if_neg hc, hstep]

theorem mem_attached {sort : Bool} {j k : Kind} {q x : ℕ} :
    x ∈ (if j = k ∧ q = p then insertNode sort t.name c (t.kids k p) else t.kids j q) ↔
      x ∈ t.kids j q ∨ j = k ∧ q = p ∧ x = c := by
  by_cases hk : j = k ∧ q = p
  · obtain ⟨rfl, rfl⟩ := hk
    rw [if_pos ⟨rfl, rfl⟩, mem_insertNode]
    tauto
  · rw [if_neg hk]
    tauto

def attach (t : Tree) (sort : Bool) (k : Kind) (p c : ℕ) (h : t.Fits p c) : Tree where
  name := t.name
  usage := t.usage
  parent := Function.update t.parent c (some p)
  kids j q := if j = k ∧ q = p then insertNode sort t.name c (t.kids k p) else t.kids j q
  linked := by
    intro j q x hx
    rcases mem_attached.mp hx with hx | ⟨rfl, rfl, rfl⟩
    · have hparent := t.linked hx
      rw [Function.update_of_ne, hparent]
      rintro rfl
      rw [h.parent] at hparent
      cases hparent
    · rw [Function.update_self]
  listed := by
    intro q x hx
    by_cases hxc : x = c
    · subst hxc
      rw [Function.update_self] at hx
      cases hx
      exact ⟨k, mem_attached.mpr (Or.inr ⟨rfl, rfl, rfl⟩)⟩
    · rw [Function.update_of_ne hxc] at hx
      obtain ⟨j, hj⟩ := t.listed hx
      exact ⟨j, mem_attached.mpr (Or.inl hj)⟩
  nodup := by
    intro j q
    split
    · refine nodup_insertNode (fun hc => ?_) (t.nodup _ _)
      have hparent := t.linked hc
      rw [h.parent] at hparent
      cases hparent
    · exact t.nodup j q
  once := by
    intro i j q x hi hj
    have hnot : ∀ i, c ∉ t.kids i q := by
      intro i hc
      have hparent := t.linked hc
      rw [h.parent] at hparent
      cases hparent
    rcases mem_attached.mp hi with hi' | ⟨rfl, _, rfl⟩
    · rcases mem_attached.mp hj with hj' | ⟨_, _, rfl⟩
      · exact t.once hi' hj'
      · exact absurd hi' (hnot i)
    · rcases mem_attached.mp hj with hj' | ⟨rfl, _, _⟩
      · exact absurd hj' (hnot j)
      · rfl
  bounded := by
    obtain ⟨depth, bound, hdepth, hbound⟩ := t.bounded
    refine ⟨t.hungDepth depth p c, 2 * bound + 1, fun x y hxy => hungDepth_parent hdepth h hxy,
      fun x => ?_⟩
    have hx := hbound x
    have hp := hbound p
    rw [hungDepth]
    split <;> omega
  top := by
    rw [Function.update_of_ne h.ne_top.symm]
    exact t.top

section Attached

variable {sort : Bool} {k : Kind} (h : t.Fits p c)

theorem attach_parent_self : (t.attach sort k p c h).parent c = some p :=
  Function.update_self _ _ _

theorem attach_parent_of_ne (hn : n ≠ c) : (t.attach sort k p c h).parent n = t.parent n :=
  Function.update_of_ne hn _ _

theorem in_attach (hn : n ≠ c) : (t.attach sort k p c h).In n ↔ t.In n := by
  rw [In, In, attach_parent_of_ne h hn]

theorem rooted_attach (hp : t.In p) (habove : ∀ x q, t.parent x = some q → q = c ∨ t.In q) :
    (t.attach sort k p c h).Rooted := by
  have hpc : p ≠ c := by
    rintro rfl
    exact h.not_below (self_mem_lineage t p)
  intro x q hx
  by_cases hqc : q = c
  · rw [hqc]
    exact in_of_parent (attach_parent_self h)
  · rw [in_attach h hqc]
    by_cases hxc : x = c
    · rw [hxc, attach_parent_self h] at hx
      cases hx
      exact hp
    · rw [attach_parent_of_ne h hxc] at hx
      exact (habove x q hx).resolve_left hqc

end Attached

end Tree

end MdsPlus.NodeTree
