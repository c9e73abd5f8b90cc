import MdsPlus.Cycles
import MdsPlus.SubtreeLinks

/-!
Whether all calls return. References of trees that are mapped already are followed without
being linked, so that a cycle of these is followed for ever. Without a cycle the calls return:
mapping a tree uses up a file, and between two such the references lead downwards.
-/

namespace MdsPlus.SubtreeRuns

open Subtrees SubtreeLinks Relation

variable {W : World}

/-! ### References that are left over -/

theorem exists_file_of_leftOver {s : State} {a : Address} {j : ℕ} (h : LeftOver W s a j) :
    ∃ f, s.file j = some f := by
  obtain ⟨f, hf⟩ := findInfo_eq_some h.2.2.2
  exact ⟨f, file_eq_some.2 ⟨_, hf⟩⟩

theorem connectTree_leftOver {s : State} {a : Address} {j : ℕ} {f : TreeFile}
    (h : LeftOver W s a j) (hf : s.file j = some f) :
    connectTree W s a = (s, externals f j) := by
  obtain ⟨-, href, hlist, hfind⟩ := h
  unfold connectTree
  simp only [href, hlist, Bool.and_self, if_pos, hfind, hf, Option.map_some, Option.getD_some]

theorem mem_externals {s : State} {a : Address} {f : TreeFile} (h : External s a)
    (hf : s.file a.1 = some f) : a ∈ externals f a.1 := by
  obtain ⟨g, hg, hmem⟩ := h
  obtain rfl : g = f := Option.some.inj (hg.symm.trans hf)
  exact List.mem_map.2 ⟨a.2, hmem, rfl⟩

theorem leftOver_mapTree {s : State} {a b : Address} {j : ℕ} (f : TreeFile)
    (hb : s.isReference b) (hne : a ≠ b) (h : LeftOver W s a j) :
    LeftOver W (mapTree s b f) a j := by
  have hmap := extends_mapTree f hb
  obtain ⟨hext, href, hlist, hfind⟩ := h
  obtain ⟨hchild, htop, g, hg, hsub⟩ := isReference_iff.1 href
  have ha := lt_of_external hext
  refine ⟨hmap.external hext, isReference_iff.2 ⟨?_, ?_, g, ?_, hsub⟩, ?_, ?_⟩
  · simpa only [mapTree, subtreeNodeConnect, Function.update_of_ne hne] using hchild
  · rw [hmap.topOf ha, htop]
  · rw [hmap.file ha, hg]
  · rw [hmap.treeName ha]
    exact hlist
  · rw [hmap.treeName ha]
    exact hmap.findInfo hfind

theorem leftOver_step {c : Config} {a : Address} {j : ℕ} (h : LeftOver W c.1 a j) :
    LeftOver W (step W c).1 a j := by
  obtain ⟨s, calls⟩ := c
  rcases calls with _ | ⟨_ | ⟨b, frame⟩, calls⟩
  · exact h
  · exact h
  · rcases connectTree_cases W s b with hc | ⟨i, f, -, -, -, -, hc⟩ | ⟨f, href, hnew, hc, -⟩
    · simpa only [step, hc] using h
    · simpa only [step, hc] using h
    · have hne : a ≠ b := by
        rintro rfl
        have := h.2.2.2
        rw [hnew] at this
        cases this
      simpa only [step, hc] using leftOver_mapTree f href hne h

theorem unconnected_step {c : Config} {i j : ℕ} (h : Unconnected W c.1 i j) :
    Unconnected W (step W c).1 i j := by
  obtain ⟨n, hn⟩ := h
  exact ⟨n, leftOver_step hn⟩

/-! ### Cycles -/

def Acyclic (W : World) (s : State) : Prop := ∀ i, ¬ TransGen (Unconnected W s) i i

/-- A call has to follow a reference that leads back to itself. -/
def Stuck (W : World) (c : Config) : Prop :=
  ∃ frame ∈ c.2, ∃ a ∈ frame, ∃ j, LeftOver W c.1 a j ∧
    ReflTransGen (Unconnected W c.1) j a.1

theorem stuck_step {c : Config} (h : Stuck W c) : Stuck W (step W c) := by
  obtain ⟨frame, hframe, a, ha, j, hleft, hpath⟩ := h
  have hleft' := leftOver_step hleft
  have hpath' : ReflTransGen (Unconnected W (step W c).1) j a.1 :=
    ReflTransGen.mono (fun _ _ hij => unconnected_step hij) _ _ hpath
  obtain ⟨s, calls⟩ := c
  rcases calls with _ | ⟨_ | ⟨b, frame'⟩, calls⟩
  · cases hframe
  · rcases List.mem_cons.1 hframe with rfl | hframe
    · cases ha
    · exact ⟨frame, hframe, a, ha, j, hleft', hpath'⟩
  have hcalls : (step W (s, (b :: frame') :: calls)).2 =
      (connectTree W s b).2 :: frame' :: calls := rfl
  have hold : ∀ fr ∈ frame' :: calls, a ∈ fr → Stuck W (step W (s, (b :: frame') :: calls)) :=
    fun fr hfr hmem =>
      ⟨fr, by rw [hcalls]; exact List.mem_cons_of_mem _ hfr, a, hmem, j, hleft', hpath'⟩
  rcases List.mem_cons.1 hframe with rfl | hframe
  · rcases List.mem_cons.1 ha with rfl | ha
    · -- the reference itself is followed, to the next one on its way back
      obtain ⟨f, hf⟩ := exists_file_of_leftOver hleft
      have hc : connectTree W s a = (s, externals f j) := connectTree_leftOver hleft hf
      simp only [step, hc] at hleft' ⊢
      refine ⟨externals f j, List.mem_cons_self, ?_⟩
      rcases ReflTransGen.cases_head hpath with rfl | ⟨k, ⟨n, hn⟩, hrest⟩
      · exact ⟨a, mem_externals hleft.1 hf, _, hleft, .refl⟩
      · refine ⟨(j, n), mem_externals hn.1 hf, k, hn, ?_⟩
        exact hrest.tail ⟨a.2, hleft⟩
    · exact hold frame' List.mem_cons_self ha
  · exact hold frame (List.mem_cons_of_mem _ hframe) ha

theorem unconnected_mapTree {s : State} {b : Address} {f : TreeFile} (hb : s.isReference b)
    {i j : ℕ} (h : Unconnected W (mapTree s b f) i j) (hi : i ≠ s.infos.length)
    (hj : j ≠ s.infos.length) : Unconnected W s i j := by
  obtain ⟨n, hext, href, hlist, hfind⟩ := h
  have hmap := extends_mapTree f hb
  have hilt : i < s.infos.length := by
    have := lt_of_external hext
    rw [length_mapTree] at this
    simp only at this
    omega
  obtain ⟨hchild, htop, g, hg, hsub⟩ := isReference_iff.1 href
  have hg' : s.file i = some g := by rw [← hmap.file hilt, hg]
  have hname : s.treeName (i, n) = (mapTree s b f).treeName (i, n) :=
    (hmap.treeName (a := (i, n)) hilt).symm
  refine ⟨n, ?_, isReference_iff.2 ⟨?_, ?_, g, hg', hsub⟩, by rw [hname]; exact hlist, ?_⟩
  · obtain ⟨g', hg'', hmem⟩ := hext
    obtain rfl : g' = g := Option.some.inj (hg''.symm.trans hg)
    exact ⟨g', hg', hmem⟩
  · rcases hc : s.child (i, n) with _ | nid
    · rfl
    · rw [hmap.child _ _ hc] at hchild
      cases hchild
  · rw [← hmap.topOf (a := (i, n)) hilt, htop]
  · rw [hname]
    rcases hold : findInfo s ((mapTree s b f).treeName (i, n)) with _ | k
    · -- the only new name is at the end
      exfalso
      have hinfos : (mapTree s b f).infos = s.infos ++ [(s.treeName b, f)] := rfl
      unfold findInfo at hfind hold
      rw [hinfos, List.findIdx?_append, hold] at hfind
      simp only [Option.none_or, Option.map_eq_some_iff] at hfind
      obtain ⟨m, hm, hmj⟩ := hfind
      have := (List.findIdx?_eq_some_iff_getElem.1 hm).1
      simp only [List.length_singleton] at this
      omega
    · rw [hmap.findInfo hold] at hfind
      exact hfind

theorem acyclic_or_stuck_step {c : Config} (h : Acyclic W c.1) :
    Acyclic W (step W c).1 ∨ Stuck W (step W c) := by
  obtain ⟨s, calls⟩ := c
  rcases calls with _ | ⟨_ | ⟨b, frame⟩, calls⟩
  · exact Or.inl h
  · exact Or.inl h
  rcases connectTree_cases W s b with hc | ⟨i, f, -, -, -, -, hc⟩ | ⟨f, href, hnew, hc, -⟩
  · left
    simpa only [step, hc] using h
  · left
    simpa only [step, hc] using h
  · by_cases hcycle : Acyclic W (mapTree s b f)
    · left
      simpa only [step, hc] using hcycle
    · right
      simp only [Acyclic, not_forall, not_not] at hcycle
      obtain ⟨i, hi⟩ := hcycle
      have hnew : TransGen (Unconnected W (mapTree s b f)) s.infos.length s.infos.length :=
        Cycles.cycle_through (fun x y hxy hx hy => unconnected_mapTree href hxy hx hy) (h i) hi
      obtain ⟨k, ⟨n, hn⟩, hrest⟩ := TransGen.head'_iff.1 hnew
      simp only [step, hc]
      exact ⟨_, List.mem_cons_self, _, mem_externals hn.1 (file_mapTree s b f), k, hn, hrest⟩

theorem acyclic_or_stuck_start (main : Name) :
    Acyclic W (start W main).1 ∨ Stuck W (start W main) := by
  have hnone : Acyclic W unmapped := by
    intro i hi
    obtain ⟨j, ⟨n, hn⟩, -⟩ := TransGen.head'_iff.1 hi
    exact absurd (lt_of_external hn.1) (Nat.not_lt_zero _)
  unfold start
  split
  · split
    · rename_i f hf
      by_cases hcycle : Acyclic W { unmapped with infos := [(main, f)] }
      · exact Or.inl hcycle
      · right
        simp only [Acyclic, not_forall, not_not] at hcycle
        obtain ⟨i, hi⟩ := hcycle
        obtain ⟨k, ⟨n, hn⟩, hrest⟩ := TransGen.head'_iff.1 hi
        have hi0 : i = 0 := Nat.lt_one_iff.1 (lt_of_external hn.1)
        subst hi0
        exact ⟨_, List.mem_cons_self, _, mem_externals hn.1 rfl, k, hn, hrest⟩
    · exact Or.inl hnone
  · exact Or.inl hnone

/-! ### Calls that return -/

def unmappedNames (W : World) (s : State) : Finset Name :=
  (W.files.map Prod.fst).toFinset \ (s.infos.map Prod.fst).toFinset

theorem mem_names_of_file {tree : Name} {f : TreeFile} (h : W.file tree = some f) :
    tree ∈ W.files.map Prod.fst := by
  simp only [World.file, Option.map_eq_some_iff] at h
  obtain ⟨p, hp, -⟩ := h
  have hname := List.find?_some hp
  simp only [decide_eq_true_eq] at hname
  exact List.mem_map.2 ⟨p, List.mem_of_find?_eq_some hp, hname⟩

theorem card_mapTree_lt {s : State} {a : Address} {f : TreeFile}
    (hnew : findInfo s (s.treeName a) = none) (hf : W.file (s.treeName a) = some f) :
    (unmappedNames W (mapTree s a f)).card < (unmappedNames W s).card := by
  have hinfos : (mapTree s a f).infos.map Prod.fst =
      s.infos.map Prod.fst ++ [s.treeName a] := by
    simp [mapTree, subtreeNodeConnect]
  apply Finset.card_lt_card
  rw [Finset.ssubset_iff_of_subset]
  · refine ⟨s.treeName a, ?_, ?_⟩
    · simp only [unmappedNames, Finset.mem_sdiff, List.mem_toFinset]
      exact ⟨mem_names_of_file hf, not_mem_of_findInfo hnew⟩
    · simp [unmappedNames, hinfos]
  · intro tree htree
    simp only [unmappedNames, hinfos, Finset.mem_sdiff, List.mem_toFinset, List.mem_append,
      not_or] at htree ⊢
    exact ⟨htree.1, htree.2.1⟩

/-- What follows when the calls go on. -/
def Reaches (W : World) (c c' : Config) : Prop := ∃ n, (step W)^[n] c = c'

theorem Reaches.trans {c d e : Config} (h : Reaches W c d) (h' : Reaches W d e) :
    Reaches W c e := by
  obtain ⟨m, rfl⟩ := h
  obtain ⟨n, rfl⟩ := h'
  exact ⟨n + m, Function.iterate_add_apply _ _ _ _⟩

theorem Reaches.extends {c c' : Config} (h : Reaches W c c') : Extends c.1 c'.1 := by
  obtain ⟨n, rfl⟩ := h
  exact extends_iterate W c n

/-- No cycle comes up. -/
def Always (W : World) (c : Config) : Prop := ∀ c', Reaches W c c' → Acyclic W c'.1

theorem Always.of_reaches {c c' : Config} (h : Always W c) (hc : Reaches W c c') : Always W c' :=
  fun _ hd => h _ (hc.trans hd)

/-- The references are those of one tree. -/
def FrameOf (s : State) (i : ℕ) (frame : List Address) : Prop :=
  ∀ a ∈ frame, a.1 = i ∧ External s a

theorem frameOf_externals {s : State} {i : ℕ} {f : TreeFile} (hf : s.file i = some f) :
    FrameOf s i (externals f i) := by
  intro a ha
  refine ⟨?_, external_externals hf a ha⟩
  simp only [externals, List.mem_map] at ha
  obtain ⟨n, -, rfl⟩ := ha
  rfl

theorem FrameOf.extends {s s' : State} {i : ℕ} {frame : List Address} (h : Extends s s')
    (hframe : FrameOf s i frame) : FrameOf s' i frame :=
  fun a ha => ⟨(hframe a ha).1, h.external (hframe a ha).2⟩

/-- The call returns, and if it maps a tree there are fewer to map. -/
def Returns (W : World) (s : State) (frame : List Address) (calls : List (List Address)) : Prop :=
  ∃ s', Reaches W (s, frame :: calls) (s', calls) ∧
    (s' = s ∨ (unmappedNames W s').card < (unmappedNames W s).card)

theorem Returns.card_le {s s' : State}
    (h : s' = s ∨ (unmappedNames W s').card < (unmappedNames W s).card) :
    (unmappedNames W s').card ≤ (unmappedNames W s).card := by
  rcases h with rfl | h
  · exact Nat.le_refl _
  · exact Nat.le_of_lt h

theorem Returns.after {s t : State} {frame rest : List Address} {calls : List (List Address)}
    (hreach : Reaches W (s, frame :: calls) (t, rest :: calls))
    (hlt : (unmappedNames W t).card < (unmappedNames W s).card) (h : Returns W t rest calls) :
    Returns W s frame calls := by
  obtain ⟨s', hs', hor⟩ := h
  exact ⟨s', hreach.trans hs', Or.inr (Nat.lt_of_le_of_lt (Returns.card_le hor) hlt)⟩

theorem Returns.same {s : State} {frame rest : List Address} {calls : List (List Address)}
    (hreach : Reaches W (s, frame :: calls) (s, rest :: calls)) (h : Returns W s rest calls) :
    Returns W s frame calls := by
  obtain ⟨s', hs', hor⟩ := h
  exact ⟨s', hreach.trans hs', hor⟩

/-- Without cycles every call returns. The outer induction is on the trees left to map, the
inner one on the references that are left over, which lead downwards between two trees. -/
theorem returns_of_always (u : ℕ) : ∀ s, (unmappedNames W s).card = u → ∀ i < s.infos.length,
    ∀ frame calls, FrameOf s i frame → Always W (s, frame :: calls) → Returns W s frame calls := by
  induction u using Nat.strong_induction_on with
  | _ u outer =>
  intro s hs i hi frame calls hframe halways
  have hacyclic : Acyclic W s := halways _ ⟨0, rfl⟩
  have hwf := Cycles.wellFoundedOn_of_acyclic hacyclic (Set.finite_Iio s.infos.length)
  revert frame calls
  refine hwf.induction (P := fun i => ∀ frame calls, FrameOf s i frame →
    Always W (s, frame :: calls) → Returns W s frame calls) (Set.mem_Iio.2 hi) ?_
  intro i hi inner frame
  rw [Set.mem_Iio] at hi
  induction frame with
  | nil => exact fun calls _ _ => ⟨s, ⟨1, rfl⟩, Or.inl rfl⟩
  | cons a frame ih =>
    intro calls hframe halways
    have hrest : FrameOf s i frame := fun b hb => hframe b (List.mem_cons_of_mem _ hb)
    obtain ⟨hai, hext⟩ := hframe a List.mem_cons_self
    have hone : Reaches W (s, (a :: frame) :: calls)
        ((connectTree W s a).1, (connectTree W s a).2 :: frame :: calls) := ⟨1, rfl⟩
    rcases connectTree_cases W s a with
      hc | ⟨j, f, href, hlist, hfind, hf, hc⟩ | ⟨f, href, hnew, hc, hf⟩
    · rw [hc] at hone
      have hreach := hone.trans (e := (s, frame :: calls)) ⟨1, rfl⟩
      exact Returns.same hreach (ih calls hrest (halways.of_reaches hreach))
    · rw [hc] at hone
      have hstep : Unconnected W s i j := ⟨a.2, by rw [← hai]; exact ⟨hext, href, hlist, hfind⟩⟩
      obtain ⟨s', hs', hor⟩ := inner j (lt_of_file hf) (.single hstep) (externals f j)
        (frame :: calls) (frameOf_externals hf) (halways.of_reaches hone)
      have hreach := hone.trans hs'
      rcases hor with rfl | hlt
      · exact Returns.same hreach (ih calls hrest (halways.of_reaches hreach))
      · refine Returns.after hreach hlt (outer _ (hs ▸ hlt) s' rfl i ?_ frame calls
          (hrest.extends hreach.extends) (halways.of_reaches hreach))
        exact Nat.lt_of_lt_of_le hi hreach.extends.infos.length_le
    · rw [hc] at hone
      have hcard := card_mapTree_lt hnew hf
      obtain ⟨s', hs', hor⟩ := outer _ (hs ▸ hcard) (mapTree s a f) rfl s.infos.length
        (by rw [length_mapTree]; omega) (externals f s.infos.length) (frame :: calls)
        (frameOf_externals (file_mapTree s a f)) (halways.of_reaches hone)
      have hreach := hone.trans hs'
      have hlt := Nat.lt_of_le_of_lt (Returns.card_le hor) hcard
      refine Returns.after hreach hlt (outer _ (hs ▸ hlt) s' rfl i ?_ frame calls
        (hrest.extends hreach.extends) (halways.of_reaches hreach))
      exact Nat.lt_of_lt_of_le hi hreach.extends.infos.length_le

/-! ### Opening a tree -/

theorem exists_run_nil {main : Name} (h : ∀ n, Acyclic W (run W main n).1) :
    ∃ n, (run W main n).2 = [] := by
  have halways : Always W (start W main) := by
    rintro c ⟨n, rfl⟩
    exact h n
  rcases hstart : start W main with ⟨s, _ | ⟨frame, calls⟩⟩
  · exact ⟨0, by simp only [run, Function.iterate_zero, id_eq, hstart]⟩
  · obtain ⟨f, hs, hcalls⟩ : ∃ f, s.file 0 = some f ∧ frame :: calls = [externals f 0] := by
      unfold start at hstart
      split at hstart
      · split at hstart
        · rename_i f hf
          obtain ⟨rfl, hcalls⟩ := Prod.mk.inj hstart
          exact ⟨f, rfl, hcalls.symm⟩
        · cases hstart
      · cases hstart
    obtain ⟨rfl, rfl⟩ := List.cons.inj hcalls
    rw [hstart] at halways
    obtain ⟨s', ⟨n, hn⟩, -⟩ := returns_of_always _ s rfl 0 (lt_of_file hs) _ []
      (frameOf_externals hs) halways
    exact ⟨n, by rw [run, hstart, hn]⟩

theorem run_succ (W : World) (main : Name) (n : ℕ) :
    run W main (n + 1) = step W (run W main n) := Function.iterate_succ_apply' _ _ _

theorem run_of_nil {main : Name} {m n : ℕ} (hm : (run W main m).2 = []) (hmn : m ≤ n) :
    run W main n = run W main m := by
  induction n, hmn using Nat.le_induction with
  | base => rfl
  | succ n hmn ih =>
    rw [run_succ, ih]
    rcases hc : run W main m with ⟨s, calls⟩
    rw [hc] at hm
    obtain rfl : calls = [] := hm
    rfl

theorem stuck_of_le {main : Name} {m n : ℕ} (hm : Stuck W (run W main m)) (hmn : m ≤ n) :
    Stuck W (run W main n) := by
  induction n, hmn using Nat.le_induction with
  | base => exact hm
  | succ n hmn ih =>
    rw [run_succ]
    exact stuck_step ih

theorem acyclic_or_stuck (main : Name) (n : ℕ) :
    Acyclic W (run W main n).1 ∨ Stuck W (run W main n) := by
  induction n with
  | zero => exact acyclic_or_stuck_start main
  | succ n ih =>
    rw [run_succ]
    rcases ih with ih | ih
    · exact acyclic_or_stuck_step ih
    · exact Or.inr (stuck_step ih)

theorem not_stuck_of_nil {main : Name} {m : ℕ} (hm : (run W main m).2 = []) (n : ℕ) :
    ¬ Stuck W (run W main n) := by
  intro hstuck
  rcases Nat.le_total n m with hnm | hmn
  · obtain ⟨frame, hframe, -⟩ := stuck_of_le hstuck hnm
    rw [hm] at hframe
    cases hframe
  · rw [run_of_nil hm hmn] at hstuck
    obtain ⟨frame, hframe, -⟩ := hstuck
    rw [hm] at hframe
    cases hframe

theorem extends_run (W : World) (main : Name) {m n : ℕ} (hmn : m ≤ n) :
    Extends (run W main m).1 (run W main n).1 := by
  induction n, hmn using Nat.le_induction with
  | base => exact Extends.refl _
  | succ n hmn ih =>
    rw [run_succ]
    exact ih.trans (extends_step W _)

/-- A tree is opened as it should if and only if no state on the way has a cycle of references
that are left over, more trees than there are numbers for, or a reference at the top of the
main tree that is linked. -/
theorem opened_iff (W : World) (main : Name) :
    Opened W main ↔ ∀ n, Fine W (run W main n).1 := by
  constructor
  · rintro ⟨m, hnil, -, hlinked⟩ n
    have hend := small_of_linked (reached_run W main m).connected hlinked
    have hacyclic : Acyclic W (run W main n).1 :=
      (acyclic_or_stuck main n).resolve_right (not_stuck_of_nil hnil n)
    have hsmall : Small (run W main n).1 := by
      rcases Nat.le_total n m with hnm | hmn
      · exact (extends_run W main hnm).small hend
      · rw [run_of_nil hnil hmn]
        exact hend
    exact ⟨hacyclic, hsmall.1, hsmall.2⟩
  · intro hfine
    obtain ⟨n, hnil⟩ := exists_run_nil fun n => (hfine n).acyclic
    have hconnected := (reached_run W main n).connected
    exact ⟨n, hnil, hconnected.names,
      linked_of_small hconnected ⟨(hfine n).trees, (hfine n).main⟩⟩

def oneReference (name : Name) : TreeFile where
  nodes := 2
  name := fun n => if n = 1 then name else []
  isSubtree := fun n => n == 1
  parent := fun n => if n = 1 then some 0 else none
  brother := fun _ => none
  child := fun _ => none
  externals := [1]
  nodes_le := by decide
  parent_top := rfl
  parent_external := by
    intro n hn _
    rw [List.mem_singleton] at hn
    exact ⟨0, by decide, by rw [if_pos hn]⟩
  brother_external := fun _ _ _ h => by cases h

def selfReference : World := ⟨[(['A'], oneReference ['A'])], none⟩

/-- The calls for a tree that refers to itself never return. -/
theorem not_opened_selfReference : ¬ Opened selfReference ['A'] := by
  rintro ⟨m, hnil, -⟩
  refine not_stuck_of_nil hnil 0 ⟨[(0, 1)], ?_, (0, 1), ?_, 0, ⟨?_, ?_, ?_, ?_⟩, .refl⟩
  · exact List.mem_cons_self
  · exact List.mem_cons_self
  · exact ⟨oneReference ['A'], rfl, List.mem_cons_self⟩
  · rfl
  · rfl
  · rfl

end MdsPlus.SubtreeRuns
