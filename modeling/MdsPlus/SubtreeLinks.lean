import Mathlib.Data.List.Nodup
import MdsPlus.Subtrees

/-!
How references are linked. Calls only add trees and links. Each tree after the first is
joined to the reference that it was mapped for, and the links of a joined reference lead to
the top node of the tree and from there to the parent and the brother of the reference.
-/

namespace MdsPlus.SubtreeLinks

open Subtrees

/-- Trees and links that are there stay. -/
structure Extends (s s' : State) : Prop where
  infos : s.infos <+: s'.infos
  child : ∀ a nid, s.child a = some nid → s'.child a = some nid
  top : ∀ i < s.infos.length, s'.top i = s.top i

theorem Extends.refl (s : State) : Extends s s :=
  ⟨List.prefix_rfl, fun _ _ h => h, fun _ _ => rfl⟩

theorem Extends.trans {s t u : State} (h : Extends s t) (h' : Extends t u) : Extends s u := by
  refine ⟨h.infos.trans h'.infos, fun a nid hc => h'.child a nid (h.child a nid hc), ?_⟩
  intro i hi
  rw [h'.top i (Nat.lt_of_lt_of_le hi h.infos.length_le), h.top i hi]

theorem file_eq_some {s : State} {i : ℕ} {f : TreeFile} :
    s.file i = some f ↔ ∃ tree, s.infos[i]? = some (tree, f) := by
  unfold State.file
  rcases s.infos[i]? with _ | ⟨tree, g⟩ <;> simp

theorem lt_of_file {s : State} {i : ℕ} {f : TreeFile} (h : s.file i = some f) :
    i < s.infos.length := by
  obtain ⟨tree, hi⟩ := file_eq_some.1 h
  exact (List.getElem?_eq_some_iff.1 hi).1

theorem file_of_lt {s : State} {i : ℕ} (h : i < s.infos.length) : ∃ f, s.file i = some f := by
  unfold State.file
  exact ⟨s.infos[i].2, by rw [List.getElem?_eq_getElem h]; rfl⟩

theorem Extends.info {s s' : State} (h : Extends s s') {i : ℕ} (hi : i < s.infos.length) :
    s'.infos[i]? = s.infos[i]? := by
  obtain ⟨more, hmore⟩ := h.infos
  rw [← hmore, List.getElem?_append_left hi]

theorem Extends.file {s s' : State} (h : Extends s s') {i : ℕ} (hi : i < s.infos.length) :
    s'.file i = s.file i := by
  unfold State.file
  rw [h.info hi]

theorem Extends.treeName {s s' : State} (h : Extends s s') {a : Address}
    (ha : a.1 < s.infos.length) : s'.treeName a = s.treeName a := by
  unfold State.treeName
  rw [h.file ha]

theorem Extends.topOf {s s' : State} (h : Extends s s') {a : Address}
    (ha : a.1 < s.infos.length) : s'.topOf a = s.topOf a := by
  unfold State.topOf
  rw [h.top _ ha]

theorem Extends.findInfo {s s' : State} (h : Extends s s') {tree : Name} {j : ℕ}
    (hj : findInfo s tree = some j) : findInfo s' tree = some j := by
  obtain ⟨more, hmore⟩ := h.infos
  unfold Subtrees.findInfo at hj ⊢
  rw [← hmore, List.findIdx?_append, hj]
  rfl

theorem findInfo_eq_some {s : State} {tree : Name} {j : ℕ} (h : findInfo s tree = some j) :
    ∃ f, s.infos[j]? = some (tree, f) := by
  unfold findInfo at h
  obtain ⟨hlt, hname, -⟩ := List.findIdx?_eq_some_iff_getElem.1 h
  refine ⟨s.infos[j].2, ?_⟩
  rw [List.getElem?_eq_getElem hlt, Option.some.injEq]
  exact Prod.ext (by simpa using hname) rfl

theorem not_mem_of_findInfo {s : State} {tree : Name} (h : findInfo s tree = none) :
    tree ∉ s.infos.map Prod.fst := by
  unfold findInfo at h
  rw [List.findIdx?_eq_none_iff] at h
  simp only [List.mem_map, not_exists, not_and]
  intro p hp hname
  simpa [hname] using h p hp

theorem isReference_iff {s : State} {a : Address} :
    s.isReference a ↔
      s.child a = none ∧ s.topOf a = none ∧ ∃ f, s.file a.1 = some f ∧ f.isSubtree a.2 := by
  unfold State.isReference
  rcases s.file a.1 with _ | f
  · simp
  · simp only [Bool.and_eq_true, Option.isNone_iff_eq_none, Option.some.injEq, exists_eq_left']
    tauto

theorem extends_mapTree {s : State} {a : Address} (f : TreeFile) (h : s.isReference a) :
    Extends s (mapTree s a f) := by
  obtain ⟨hchild, -, -⟩ := isReference_iff.1 h
  refine ⟨List.prefix_append _ _, ?_, ?_⟩
  · intro b nid hb
    have hne : b ≠ a := by
      rintro rfl
      rw [hchild] at hb
      cases hb
    simpa only [mapTree, subtreeNodeConnect, Function.update_of_ne hne] using hb
  · intro i hi
    simp only [mapTree, subtreeNodeConnect]
    exact Function.update_of_ne (Nat.ne_of_lt hi) _ _

theorem extends_step (W : World) (c : Config) : Extends c.1 (step W c).1 := by
  obtain ⟨s, calls⟩ := c
  rcases calls with _ | ⟨_ | ⟨a, frame⟩, calls⟩
  · exact Extends.refl s
  · exact Extends.refl s
  · rcases connectTree_cases W s a with h | ⟨j, f, -, -, -, -, h⟩ | ⟨f, href, -, h, -⟩
    · simpa only [step, h] using Extends.refl s
    · simpa only [step, h] using Extends.refl s
    · simpa only [step, h] using extends_mapTree f href

theorem extends_iterate (W : World) (c : Config) (n : ℕ) :
    Extends c.1 ((step W)^[n] c).1 := by
  induction n with
  | zero => exact Extends.refl c.1
  | succ n ih =>
    rw [Function.iterate_succ_apply']
    exact ih.trans (extends_step W _)

/-! ### References and the trees that are mapped for them -/

theorem lt_of_external {s : State} {a : Address} (h : External s a) : a.1 < s.infos.length := by
  obtain ⟨f, hf, -⟩ := h
  exact lt_of_file hf

theorem Extends.external {s s' : State} (h : Extends s s') {a : Address} (ha : External s a) :
    External s' a := by
  obtain ⟨f, hf, hmem⟩ := ha
  exact ⟨f, by rw [h.file (lt_of_file hf), hf], hmem⟩

def fileParent (s : State) (a : Address) : Option Address :=
  ((s.file a.1).bind fun f => f.parent a.2).map fun n => (a.1, n)

def fileBrother (s : State) (a : Address) : Option Address :=
  ((s.file a.1).bind fun f => f.brother a.2).map fun n => (a.1, n)

/-- Node identifiers tell the trees apart, and the main tree is no reference itself. -/
def Small (s : State) : Prop := s.infos.length ≤ maxSubtrees ∧ s.child (0, 0) = none

theorem Extends.small {s s' : State} (h : Extends s s') (hsmall : Small s') : Small s := by
  refine ⟨h.infos.length_le.trans hsmall.1, ?_⟩
  rcases hc : s.child (0, 0) with _ | nid
  · rfl
  · have := h.child _ _ hc
    rw [hsmall.2] at this
    cases this

/-- The brother that a reference had when it was linked: that of the file, or the top node of
the tree which is in the place of that. -/
def BrotherAt (s : State) (a : Address) (brother : Option Address) : Prop :=
  brother = fileBrother s a ∨ ∃ b t, fileBrother s a = some b ∧ brother = some (t, 0) ∧
    1 ≤ t ∧ t < s.infos.length ∧ s.child b = some (nodeToNid (some (t, 0)))

/-- The tree at a place is the one that a reference was linked with. -/
structure Joined (s : State) (a : Address) (j : ℕ) : Prop where
  pos : 1 ≤ j
  named : ∃ f, s.infos[j]? = some (s.treeName a, f)
  external : External s a
  topOf : s.topOf a = none
  child : s.child a = some (nodeToNid (some (j, 0)))
  top : ∃ brother, s.top j = some (nodeToNid (fileParent s a), nodeToNid brother) ∧
    (Small s → BrotherAt s a brother)

/-- Every link is one of a reference with its tree, and each tree but the first has one. -/
structure Connected (s : State) : Prop where
  names : (s.infos.map Prod.fst).Nodup
  joined : ∀ a nid, s.child a = some nid → ∃ j, Joined s a j
  reference : ∀ j, 1 ≤ j → j < s.infos.length → ∃ a, Joined s a j
  main : s.top 0 = none

theorem Joined.lt {s : State} {a : Address} {j : ℕ} (h : Joined s a j) :
    j < s.infos.length := by
  obtain ⟨f, hf⟩ := h.named
  exact (List.getElem?_eq_some_iff.1 hf).1

theorem BrotherAt.extends {s s' : State} {a : Address} {brother : Option Address}
    (h : Extends s s') (ha : a.1 < s.infos.length) (hb : BrotherAt s a brother) :
    BrotherAt s' a brother := by
  have hfile : fileBrother s' a = fileBrother s a := by
    unfold fileBrother
    rw [h.file ha]
  rcases hb with hb | ⟨b, t, hb, hbrother, hpos, hlt, hchild⟩
  · exact Or.inl (hb.trans hfile.symm)
  · exact Or.inr ⟨b, t, hfile.trans hb, hbrother, hpos,
      Nat.lt_of_lt_of_le hlt h.infos.length_le, h.child _ _ hchild⟩

theorem Joined.extends {s s' : State} {a : Address} {j : ℕ} (h : Extends s s')
    (hj : Joined s a j) : Joined s' a j := by
  have ha := lt_of_external hj.external
  refine
    { pos := hj.pos
      named := ?_
      external := h.external hj.external
      topOf := (h.topOf ha).trans hj.topOf
      child := h.child _ _ hj.child
      top := ?_ }
  · obtain ⟨f, hf⟩ := hj.named
    exact ⟨f, by rw [h.info hj.lt, h.treeName ha, hf]⟩
  · obtain ⟨brother, htop, hbrother⟩ := hj.top
    refine ⟨brother, ?_, fun hsmall => (hbrother (h.small hsmall)).extends h ha⟩
    rw [h.top j hj.lt, htop]
    unfold fileParent
    rw [h.file ha]

theorem Connected.child_top {s : State} (h : Connected s) {j : ℕ} (hpos : 1 ≤ j)
    (hlt : j < s.infos.length) : s.child (j, 0) = none := by
  rcases hc : s.child (j, 0) with _ | nid
  · rfl
  · obtain ⟨k, hk⟩ := h.joined _ _ hc
    obtain ⟨a, ha⟩ := h.reference j hpos hlt
    obtain ⟨brother, htop, -⟩ := ha.top
    have hnone := hk.topOf
    simp only [State.topOf, if_pos] at hnone
    rw [htop] at hnone
    cases hnone

theorem nidToNode_nodeToNid {s : State} {a : Address} {f : TreeFile}
    (htrees : s.infos.length ≤ maxSubtrees) (hf : s.file a.1 = some f)
    (ha : a.2 = 0 ∨ a.2 < f.nodes) : nidToNode s (nodeToNid (some a)) = some a := by
  have htree : a.1 % maxSubtrees = a.1 :=
    Nat.mod_eq_of_lt (Nat.lt_of_lt_of_le (lt_of_file hf) htrees)
  have hnode : a.2 % maxNodes = a.2 := by
    rcases ha with ha | ha
    · rw [ha, Nat.zero_mod]
    · exact Nat.mod_eq_of_lt (Nat.lt_of_lt_of_le ha f.nodes_le)
  have hle : a.2 ≤ f.nodes := by omega
  simp only [nidToNode, nodeToNid, htree, hnode, hf, if_pos hle]

theorem nidToNode_top {s : State} {j : ℕ} (htrees : s.infos.length ≤ maxSubtrees)
    (hlt : j < s.infos.length) : nidToNode s (nodeToNid (some (j, 0))) = some (j, 0) := by
  obtain ⟨f, hf⟩ := file_of_lt hlt
  exact nidToNode_nodeToNid htrees hf (Or.inl rfl)

/-- In the place of a reference that is linked is the top node of its tree. -/
theorem Connected.resolve {s : State} (h : Connected s) (htrees : s.infos.length ≤ maxSubtrees)
    (b : Address) :
    (s.child b = none ∧ resolve s b = some b) ∨
      ∃ t, Joined s b t ∧ resolve s b = some (t, 0) ∧ resolve s (t, 0) = some (t, 0) := by
  rcases hc : s.child b with _ | nid
  · left
    refine ⟨rfl, ?_⟩
    simp only [Subtrees.resolve, hc]
  · right
    obtain ⟨t, ht⟩ := h.joined b nid hc
    have hnid : nid = nodeToNid (some (t, 0)) := Option.some.inj (hc.symm.trans ht.child)
    refine ⟨t, ht, ?_, ?_⟩
    · simp only [Subtrees.resolve, hc, hnid]
      exact nidToNode_top htrees ht.lt
    · simp only [Subtrees.resolve, h.child_top ht.pos ht.lt]

/-! ### What mapping a tree does -/

theorem parentOf_reference {s : State} {a : Address} (htop : s.topOf a = none) :
    parentOf s a = fileParent s a := by
  simp only [parentOf, htop, fileParent]

theorem brotherOf_reference {s : State} {a : Address} (htop : s.topOf a = none) :
    brotherOf s a = ((fileBrother s a).bind (resolve s)).bind (resolve s) := by
  simp only [brotherOf, htop, fileBrother]
  rcases (s.file a.1).bind fun f => f.brother a.2 with _ | n <;> rfl

def append (s : State) (tree : Name) (f : TreeFile) : State :=
  { s with infos := s.infos ++ [(tree, f)] }

theorem extends_append (s : State) (tree : Name) (f : TreeFile) : Extends s (append s tree f) :=
  ⟨List.prefix_append _ _, fun _ _ h => h, fun _ _ => rfl⟩

theorem length_mapTree (s : State) (a : Address) (f : TreeFile) :
    (mapTree s a f).infos.length = s.infos.length + 1 := by
  simp [mapTree, subtreeNodeConnect]

theorem brotherAt_append {s : State} (h : Connected s) {a : Address} (htop : s.topOf a = none)
    (ha : a.1 < s.infos.length) (tree : Name) (f : TreeFile)
    (htrees : s.infos.length + 1 ≤ maxSubtrees) :
    BrotherAt (append s tree f) a (brotherOf (append s tree f) a) := by
  have hext := extends_append s tree f
  have htop' : (append s tree f).topOf a = none := (hext.topOf ha).trans htop
  rw [brotherOf_reference htop']
  rcases hb : fileBrother (append s tree f) a with _ | b
  · exact Or.inl hb.symm
  · rcases hc : s.child b with _ | nid
    · left
      have hres : resolve (append s tree f) b = some b := by
        unfold resolve
        rw [show (append s tree f).child b = none from hc]
      simp only [Option.bind_some, hres, hb]
    · right
      obtain ⟨t, ht⟩ := h.joined b nid hc
      have hlt := Nat.lt_of_lt_of_le ht.lt hext.infos.length_le
      have hlen : (append s tree f).infos.length ≤ maxSubtrees := by
        simpa [append] using htrees
      have hres : resolve (append s tree f) b = some (t, 0) := by
        unfold resolve
        rw [hext.child _ _ ht.child]
        exact nidToNode_top hlen hlt
      have hres' : resolve (append s tree f) (t, 0) = some (t, 0) := by
        unfold resolve
        rw [show (append s tree f).child (t, 0) = none from h.child_top ht.pos ht.lt]
      refine ⟨b, t, hb, ?_, ht.pos, hlt, hext.child _ _ ht.child⟩
      simp only [Option.bind_some, hres, hres']

theorem BrotherAt.congr {s s' : State} {a : Address} {brother : Option Address}
    (hinfos : s'.infos = s.infos) (hchild : ∀ b nid, s.child b = some nid → s'.child b = some nid)
    (h : BrotherAt s a brother) : BrotherAt s' a brother := by
  have hfile : fileBrother s' a = fileBrother s a := by
    simp only [fileBrother, State.file, hinfos]
  rcases h with h | ⟨b, t, hb, hbrother, hpos, hlt, hc⟩
  · exact Or.inl (h.trans hfile.symm)
  · exact Or.inr ⟨b, t, hfile.trans hb, hbrother, hpos, hinfos ▸ hlt, hchild _ _ hc⟩

theorem joined_mapTree {s : State} (h : Connected s) {a : Address} (hext : External s a)
    (href : s.isReference a) (f : TreeFile) :
    Joined (mapTree s a f) a s.infos.length := by
  obtain ⟨hchild, htop, -⟩ := isReference_iff.1 href
  have ha := lt_of_external hext
  have hmap := extends_mapTree f href
  refine
    { pos := by omega
      named := ⟨f, ?_⟩
      external := hmap.external hext
      topOf := (hmap.topOf ha).trans htop
      child := by simp [mapTree, subtreeNodeConnect]
      top := ⟨brotherOf (append s (s.treeName a) f) a, ?_, ?_⟩ }
  · rw [hmap.treeName ha]
    simp [mapTree, subtreeNodeConnect]
  · have hparent : parentOf (append s (s.treeName a) f) a = fileParent (mapTree s a f) a :=
      parentOf_reference (((extends_append s _ f).topOf ha).trans htop)
    rw [← hparent]
    simp [mapTree, subtreeNodeConnect, append]
  · intro hsmall
    have htrees : s.infos.length + 1 ≤ maxSubtrees := by
      have := hsmall.1
      rwa [length_mapTree] at this
    have hbrother := brotherAt_append h htop ha (s.treeName a) f htrees
    refine BrotherAt.congr ?_ ?_ hbrother
    · rfl
    · exact fun b nid hb => hmap.child b nid hb

theorem connected_mapTree {s : State} (h : Connected s) {a : Address} (hext : External s a)
    (href : s.isReference a) (hnew : findInfo s (s.treeName a) = none) (f : TreeFile) :
    Connected (mapTree s a f) := by
  have ha := lt_of_external hext
  have hmap := extends_mapTree f href
  refine
    { names := ?_
      joined := ?_
      reference := ?_
      main := (hmap.top 0 (by omega)).trans h.main }
  · have : (mapTree s a f).infos = s.infos ++ [(s.treeName a, f)] := rfl
    rw [this, List.map_append, List.nodup_append]
    refine ⟨h.names, List.nodup_singleton _, ?_⟩
    rintro tree htree tree' htree' rfl
    rw [List.map_singleton, List.mem_singleton] at htree'
    rw [htree'] at htree
    exact not_mem_of_findInfo hnew htree
  · intro b nid hb
    by_cases hba : b = a
    · subst hba
      exact ⟨_, joined_mapTree h hext href f⟩
    · have hb' : s.child b = some nid := by
        simpa only [mapTree, subtreeNodeConnect, Function.update_of_ne hba] using hb
      obtain ⟨j, hj⟩ := h.joined b nid hb'
      exact ⟨j, hj.extends hmap⟩
  · intro j hpos hlt
    rw [length_mapTree] at hlt
    rcases Nat.lt_succ_iff_lt_or_eq.1 hlt with hlt | rfl
    · obtain ⟨b, hb⟩ := h.reference j hpos hlt
      exact ⟨b, hb.extends hmap⟩
    · exact ⟨a, joined_mapTree h hext href f⟩

/-! ### Runs -/

/-- The calls go through external references of trees that are mapped. -/
structure Reached (c : Config) : Prop where
  connected : Connected c.1
  external : ∀ frame ∈ c.2, ∀ a ∈ frame, External c.1 a

theorem external_externals {s : State} {j : ℕ} {f : TreeFile} (hf : s.file j = some f) :
    ∀ a ∈ externals f j, External s a := by
  intro a ha
  simp only [externals, List.mem_map] at ha
  obtain ⟨n, hn, rfl⟩ := ha
  exact ⟨f, hf, hn⟩

theorem file_mapTree (s : State) (a : Address) (f : TreeFile) :
    (mapTree s a f).file s.infos.length = some f := by
  simp [mapTree, subtreeNodeConnect, State.file]

theorem reached_step (W : World) {c : Config} (h : Reached c) : Reached (step W c) := by
  obtain ⟨s, calls⟩ := c
  rcases calls with _ | ⟨_ | ⟨a, frame⟩, calls⟩
  · exact h
  · exact ⟨h.connected, fun frame hframe => h.external frame (List.mem_cons_of_mem _ hframe)⟩
  have ha : External s a := h.external _ List.mem_cons_self a List.mem_cons_self
  have hrest : ∀ fr ∈ frame :: calls, ∀ b ∈ fr, External s b := by
    intro fr hfr b hb
    rcases List.mem_cons.1 hfr with rfl | hfr
    · exact h.external _ List.mem_cons_self b (List.mem_cons_of_mem _ hb)
    · exact h.external fr (List.mem_cons_of_mem _ hfr) b hb
  rcases connectTree_cases W s a with hc | ⟨j, f, -, -, -, hf, hc⟩ | ⟨f, href, hnew, hc, -⟩
  · simp only [step, hc]
    refine ⟨h.connected, ?_⟩
    rintro fr (_ | ⟨_, hfr⟩)
    · intro b hb
      cases hb
    · exact hrest fr hfr
  · simp only [step, hc]
    refine ⟨h.connected, ?_⟩
    rintro fr (_ | ⟨_, hfr⟩)
    · exact external_externals hf
    · exact hrest fr hfr
  · simp only [step, hc]
    have hmap := extends_mapTree f href
    refine ⟨connected_mapTree h.connected ha href hnew f, ?_⟩
    rintro fr (_ | ⟨_, hfr⟩)
    · exact external_externals (file_mapTree s a f)
    · exact fun b hb => hmap.external (hrest fr hfr b hb)

theorem connected_unmapped (infos : List (Name × TreeFile)) (h : infos.length ≤ 1) :
    Connected { unmapped with infos := infos } := by
  refine
    { names := ?_
      joined := ?_
      reference := fun j hpos hlt => absurd hlt (by simp only; omega)
      main := rfl }
  · rcases infos with _ | ⟨p, _ | ⟨q, infos⟩⟩
    · exact List.nodup_nil
    · exact List.nodup_singleton _
    · simp at h
  · intro a nid ha
    cases ha

theorem reached_start (W : World) (main : Name) : Reached (start W main) := by
  have hnone : Reached (unmapped, []) :=
    ⟨connected_unmapped [] (by simp), fun frame hframe => by cases hframe⟩
  unfold start
  split
  · split
    · rename_i f hf
      refine ⟨connected_unmapped _ (by simp), ?_⟩
      intro frame hframe
      rw [List.mem_singleton] at hframe
      subst hframe
      exact external_externals rfl
    · exact hnone
  · exact hnone

theorem reached_run (W : World) (main : Name) (n : ℕ) : Reached (run W main n) := by
  unfold run
  induction n with
  | zero => exact reached_start W main
  | succ n ih =>
    rw [Function.iterate_succ_apply']
    exact reached_step W ih

/-! ### Links that are right -/

theorem nodeToNid_top_ne_zero {t : ℕ} (hpos : 1 ≤ t) (hlt : t < maxSubtrees) :
    nodeToNid (some (t, 0)) ≠ .zero := by
  simp only [nodeToNid, Nid.zero, ne_eq, Nid.mk.injEq, not_and]
  rw [Nat.mod_eq_of_lt hlt]
  omega

theorem Joined.childOf {s : State} (h : Connected s) (htrees : s.infos.length ≤ maxSubtrees)
    {a : Address} {j : ℕ} (hj : Joined s a j) : childOf s a = some (j, 0) := by
  have hres : resolve s (j, 0) = some (j, 0) := by
    unfold resolve
    rw [h.child_top hj.pos hj.lt]
  simp only [Subtrees.childOf, hj.child,
    if_neg (nodeToNid_top_ne_zero hj.pos (Nat.lt_of_lt_of_le hj.lt htrees)),
    nidToNode_top htrees hj.lt, Option.bind_some, hres]

theorem Joined.ne_top {s : State} (h : Connected s) {a : Address} {j : ℕ} (hj : Joined s a j)
    (hmain : s.child (0, 0) = none) : a.2 ≠ 0 := by
  obtain ⟨i, n⟩ := a
  rintro rfl
  rcases Nat.eq_zero_or_pos i with rfl | hpos
  · rw [hj.child] at hmain
    cases hmain
  · have := h.child_top hpos (lt_of_external hj.external)
    rw [hj.child] at this
    cases this

theorem Joined.parentOf {s : State} (h : Connected s) (hsmall : Small s) {a : Address} {j : ℕ}
    (hj : Joined s a j) : parentOf s (j, 0) = parentOf s a := by
  obtain ⟨brother, htop, -⟩ := hj.top
  obtain ⟨f, hf, hmem⟩ := hj.external
  obtain ⟨p, hp, hparent⟩ := f.parent_external a.2 hmem (hj.ne_top h hsmall.2)
  have hfile : fileParent s a = some (a.1, p) := by
    simp only [fileParent, hf, Option.bind_some, hparent, Option.map_some]
  rw [parentOf_reference hj.topOf, hfile]
  simp only [Subtrees.parentOf, State.topOf, if_pos, htop, hfile]
  exact nidToNode_nodeToNid (a := (a.1, p)) hsmall.1 hf (Or.inr hp)

theorem Joined.brotherOf {s : State} (h : Connected s) (hsmall : Small s) {a : Address} {j : ℕ}
    (hj : Joined s a j) : brotherOf s (j, 0) = brotherOf s a := by
  obtain ⟨brother, htop, hbrother⟩ := hj.top
  obtain ⟨f, hf, hmem⟩ := hj.external
  rw [brotherOf_reference hj.topOf]
  have hj0 : Subtrees.brotherOf s (j, 0) = if nodeToNid brother = .zero then none
      else (nidToNode s (nodeToNid brother)).bind (resolve s) := by
    simp only [Subtrees.brotherOf, State.topOf, if_pos, htop]
  rw [hj0]
  rcases hbrother hsmall with hb | ⟨b, t, hb, hbt, hpos, hlt, hc⟩
  · rcases hfile : fileBrother s a with _ | b
    · rw [hb, hfile]
      simp [nodeToNid]
    · obtain ⟨m, hm, rfl⟩ : ∃ m, f.brother a.2 = some m ∧ b = (a.1, m) := by
        simp only [fileBrother, hf, Option.bind_some, Option.map_eq_some_iff] at hfile
        obtain ⟨m, hm, hb⟩ := hfile
        exact ⟨m, hm, hb.symm⟩
      obtain ⟨hlt, hne, -⟩ := f.brother_external a.2 hmem m hm
      have hnid : nidToNode s (nodeToNid brother) = some (a.1, m) := by
        rw [hb, hfile]
        exact nidToNode_nodeToNid (a := (a.1, m)) hsmall.1 hf (Or.inr hlt)
      have hzero : nodeToNid brother ≠ .zero := by
        rw [hb, hfile]
        simp only [nodeToNid, Nid.zero, ne_eq, Nid.mk.injEq, not_and]
        rw [Nat.mod_eq_of_lt (Nat.lt_of_lt_of_le hlt f.nodes_le)]
        exact fun _ => hne
      rw [if_neg hzero, hnid]
      rcases h.resolve hsmall.1 (a.1, m) with ⟨-, hres⟩ | ⟨t, ht, hres, hres'⟩
      · simp only [Option.bind_some, hres]
      · simp only [Option.bind_some, hres, hres']
  · have hzero : nodeToNid brother ≠ .zero := by
      rw [hbt]
      exact nodeToNid_top_ne_zero hpos (Nat.lt_of_lt_of_le hlt hsmall.1)
    have hres : resolve s b = some (t, 0) := by
      unfold resolve
      rw [hc]
      exact nidToNode_top hsmall.1 hlt
    have hres' : resolve s (t, 0) = some (t, 0) := by
      unfold resolve
      rw [h.child_top hpos hlt]
    rw [if_neg hzero, hb, hbt, nidToNode_top hsmall.1 hlt]
    simp only [Option.bind_some, hres, hres']

theorem linked_of_small {s : State} (h : Connected s) (hsmall : Small s) : Linked s := by
  intro a ha
  rcases hc : s.child a with _ | nid
  · exact absurd hc ha
  · obtain ⟨j, hj⟩ := h.joined a nid hc
    obtain ⟨f, hf⟩ := hj.named
    exact ⟨j, f, hf, hj.childOf h hsmall.1, hj.parentOf h hsmall, hj.brotherOf h hsmall⟩

theorem Connected.index_eq {s : State} (h : Connected s) {i j : ℕ} {tree : Name}
    {f g : TreeFile} (hi : s.infos[i]? = some (tree, f)) (hj : s.infos[j]? = some (tree, g)) :
    i = j := by
  obtain ⟨hilt, hif⟩ := List.getElem?_eq_some_iff.1 hi
  obtain ⟨hjlt, hjf⟩ := List.getElem?_eq_some_iff.1 hj
  have hi' : i < (s.infos.map Prod.fst).length := by rwa [List.length_map]
  have hj' : j < (s.infos.map Prod.fst).length := by rwa [List.length_map]
  have hname : (s.infos.map Prod.fst)[i] = (s.infos.map Prod.fst)[j] := by
    rw [List.getElem_map, List.getElem_map, hif, hjf]
  exact h.names.getElem_inj_iff.1 hname

theorem small_of_linked {s : State} (h : Connected s) (hlinked : Linked s) : Small s := by
  constructor
  · by_contra hlen
    obtain ⟨a, ha⟩ := h.reference maxSubtrees (by decide) (by omega)
    have hne : s.child a ≠ none := by
      rw [ha.child]
      exact Option.some_ne_none _
    obtain ⟨j, f, -, hchild, -⟩ := hlinked a hne
    have hzero : nodeToNid (some (maxSubtrees, 0)) = .zero := by decide
    simp only [Subtrees.childOf, ha.child, hzero, if_pos] at hchild
    cases hchild
  · by_contra hmain
    obtain ⟨j, f, hf, hchild, hparent, -⟩ := hlinked (0, 0) hmain
    obtain ⟨nid, hnid⟩ := Option.ne_none_iff_exists'.1 hmain
    obtain ⟨k, hk⟩ := h.joined _ _ hnid
    obtain ⟨g, hg⟩ := hk.named
    obtain rfl := h.index_eq hf hg
    obtain ⟨brother, htop, -⟩ := hk.top
    obtain ⟨m, hm, -⟩ := hk.external
    have hfile : fileParent s (0, 0) = none := by
      simp only [fileParent, hm, Option.bind_some, m.parent_top, Option.map_none]
    have hzero : nidToNode s .zero = some (0, 0) := by
      simp only [nidToNode, Nid.zero, hm]
      exact if_pos (Nat.zero_le _)
    rw [parentOf_reference hk.topOf, hfile] at hparent
    simp only [Subtrees.parentOf, State.topOf, if_pos, htop, hfile, nodeToNid] at hparent
    rw [hzero] at hparent
    cases hparent

end MdsPlus.SubtreeLinks
