import MdsPlus.ConglomerateNodes
import MdsPlus.ParentStateRuns

/-!
Runs of calls that begin, fill and end conglomerates. The free nodes stay linked both ways and out
of the tree, and none is given twice or lost.
-/

namespace MdsPlus.ConglomerateRuns

open NodeTree TreeEdit ParentStateRuns ConglomerateNodes

inductive Call
  | start (fuel : ℕ) (size : ℤ)
  | add (place : Place) (usage : ℤ)
  | finish

/-- One call; a node that it gives comes behind those that were given. -/
def step (p : Editing × List ℕ) : Call → Except Fault (Editing × List ℕ)
  | .start fuel size =>
      match p.1.startConglomerate fuel size with
      | some (e, _) => .ok (e, p.2)
      -- no end of the free nodes is found
      | none => .error .cycle
  | .add place usage => (p.1.addNode place usage).map fun (e, given) => (e, p.2 ++ given.toList)
  | .finish =>
      .ok ({ p.1 with state := { p.1.state with conglomerateSize := 0, conglomerateIndex := 0 } },
        p.2)

/-- Nodes are added below nodes of the tree. -/
def Placed (p : Editing × List ℕ) : Call → Prop
  | .add place _ => ∀ parent, place.parent = some parent → p.1.state.tree.In parent
  | _ => True

/-- Nodes stay in the tree, and none gets a usage that is not for those that are added. -/
structure Extends (t t' : Tree) : Prop where
  inside : ∀ n, t.In n → t'.In n
  usage : (∀ n, t.usage n < TreeUSAGE_MAXIMUM) → ∀ n, t'.usage n < TreeUSAGE_MAXIMUM

theorem Extends.refl (t : Tree) : Extends t t := ⟨fun _ h => h, fun h => h⟩

theorem Extends.trans {t t' t'' : Tree} (h : Extends t t') (h' : Extends t' t'') : Extends t t'' :=
  ⟨fun n hn => h'.inside n (h.inside n hn), fun husage => h'.usage (h.usage husage)⟩

/-- Nodes are free or given, each once: those that were free, and the new ones. What was given is
in the tree. -/
structure Accounted (e : Editing) (p : Editing × List ℕ) : Prop where
  kept : Kept p.1.state
  sound : p.1.Sound
  grown : ∃ grown, p.1.state.nodes = e.state.nodes + grown ∧
    (p.2 ++ p.1.state.free).Perm (e.state.free ++ List.range' e.state.nodes grown)
  inside : ∀ n ∈ p.2, p.1.state.tree.In n
  growth : Extends e.state.tree p.1.state.tree

variable {e e' : Editing} {given : List ℕ}

theorem kept_free {s : State} (h : Kept s) {nodes grown : ℕ} {free : List ℕ}
    (hnodes : nodes = s.nodes + grown) (hnodup : free.Nodup)
    (hperm : free.Perm (s.free ++ List.range' s.nodes grown)) :
    Kept { s with free := free, nodes := nodes } := by
  have hmem : ∀ n ∈ free, n ∈ s.free ∨ s.nodes ≤ n ∧ n < nodes := by
    intro n hn
    have hn := hperm.mem_iff.1 hn
    rwa [List.mem_append, List.mem_range'_1, ← hnodes] at hn
  refine ⟨h.rooted, fun n hn => ?_, fun n hn => ?_, fun n hn hin => ?_, hnodup, h.consistent⟩
  · have hlt := h.slot n hn
    dsimp only
    omega
  · rcases hmem n hn with hold | hnew
    · exact Nat.lt_of_lt_of_le (h.free_lt n hold) (hnodes ▸ Nat.le_add_right ..)
    · exact hnew.2
  · rcases hmem n hn with hold | hnew
    · exact h.free_out n hold hin
    · exact absurd (h.slot n hin) (Nat.not_lt.2 hnew.1)

theorem treeStartConglomerate_small {size : ℤ} (h : size ≤ 1) (fuel : ℕ) (f : FreeNodes.FreeLinks) :
    FreeNodes.treeStartConglomerate fuel true f size =
      FreeNodes.treeStartConglomerate fuel true f (0 + 1 : ℕ) := by
  have hscan (size : ℤ) (h : size ≤ 1) (f : FreeNodes.FreeLinks) (this : ℕ) :
      FreeNodes.scan size fuel f 0 this none = some (f, this, none) := by
    rw [FreeNodes.scan.eq_def]
    exact if_pos (by omega)
  have hsize : ¬ 32767 < size := by omega
  simp only [FreeNodes.treeStartConglomerate, if_neg hsize, hscan size h,
    hscan ((0 + 1 : ℕ) : ℤ) (by decide)]
  rfl

theorem accounted_start {p : Editing × List ℕ} (h : Accounted e p) {fuel : ℕ} {size : ℤ}
    {status : FreeNodes.Status} (hstart : p.1.startConglomerate fuel size = some (e', status)) :
    Accounted e (e', p.2) := by
  rw [Editing.startConglomerate] at hstart
  obtain ⟨⟨links, status'⟩, hlinks, heq⟩ := Option.map_eq_some_iff.1 hstart
  dsimp only at heq
  split at heq
  · next hsuccess =>
    subst hsuccess
    cases heq
    obtain ⟨k, hk⟩ : ∃ k : ℕ, FreeNodes.treeStartConglomerate fuel true p.1.links (k + 1 : ℕ) =
        some (links, .success) := by
      by_cases hsmall : size ≤ 1
      · exact ⟨0, (treeStartConglomerate_small hsmall fuel _).symm.trans hlinks⟩
      · exact ⟨(size - 1).toNat, by rwa [show (((size - 1).toNat + 1 : ℕ) : ℤ) = size by omega]⟩
    obtain ⟨start, rest, hbegun⟩ := treeStartConglomerate_begun h.sound.holds hk
    obtain ⟨grown', hnodes', hperm'⟩ := hbegun.grown
    obtain ⟨grown, hnodes, hperm⟩ := h.grown
    have hfree := hbegun.holds.freeList_eq
    rw [h.sound.nodes] at hnodes' hperm'
    rw [← hfree] at hperm'
    have hkept := kept_free h.kept hnodes' (hfree ▸ hbegun.holds.nodup) hperm'
    refine ⟨⟨hkept.rooted, hkept.slot, hkept.free_lt, hkept.free_out, hkept.free_nodup,
      hkept.consistent⟩, ⟨hfree ▸ hbegun.holds, rfl⟩, ⟨grown + grown',
      hnodes'.trans (by rw [hnodes, Nat.add_assoc]), ?_⟩, h.inside, h.growth⟩
    calc p.2 ++ links.freeList
        |>.Perm (p.2 ++ (p.1.state.free ++ List.range' p.1.state.nodes grown')) :=
          hperm'.append_left p.2
      _ = p.2 ++ p.1.state.free ++ List.range' p.1.state.nodes grown' :=
          (List.append_assoc ..).symm
      _ |>.Perm (e.state.free ++ List.range' e.state.nodes grown ++
          List.range' p.1.state.nodes grown') := hperm.append_right _
      _ = e.state.free ++ List.range' e.state.nodes (grown + grown') := by
          rw [List.append_assoc, hnodes, List.range'_append_1]
  · cases heq
    exact h

theorem treeNewNode_grown (s : State) : ∃ grown, (treeNewNode s).1.nodes = s.nodes + grown ∧
    (treeNewNode s).2 :: (treeNewNode s).1.free = s.free ++ List.range' s.nodes grown := by
  cases hfree : s.free with
  | nil =>
    refine ⟨EXTEND_NODES, by rw [treeNewNode, if_pos hfree]; rfl, ?_⟩
    rw [treeNewNode, if_pos hfree]
    simp only [treeExpandNodes, hfree, List.nil_append]
    rfl
  | cons n l =>
    refine ⟨0, by rw [treeNewNode, if_neg (by simp [hfree])]; rfl, ?_⟩
    rw [treeNewNode, if_neg (by simp [hfree]), hfree]
    exact (List.append_nil _).symm

theorem insertInto_in {s s' : State} {k : NodeTree.Kind} {p c : ℕ}
    (h : insertInto s k p c = .ok s') : s'.tree.In c ∧ Extends s.tree s'.tree := by
  rw [insertInto] at h
  split at h
  · next hfits =>
    cases h
    have hc : (s.tree.attach (s.sorts k) k p c hfits).In c :=
      Tree.in_of_parent (Tree.attach_parent_self hfits)
    refine ⟨hc, fun n hn => ?_, fun husage => husage⟩
    by_cases hn' : n = c
    · rw [hn']
      exact hc
    · exact (Tree.in_attach hfits hn').2 hn
  · cases h

theorem usageOf_lt (k : NodeTree.Kind) (usage : ℤ) : usageOf k usage < TreeUSAGE_MAXIMUM := by
  cases k with
  | child =>
    rw [usageOf]
    split <;> decide
  | member =>
    rw [usageOf]
    split
    · next h => exact h.1
    · decide

theorem addNewNode_in {s s' : State} {parent : ℕ} {isChild : Bool} {name : NodeTree.Name}
    {usage : ℤ} (h : addNewNode s parent isChild name usage = .ok s') :
    s'.tree.In (treeNewNode s).2 ∧ Extends s.tree s'.tree := by
  have htree : (treeNewNode s).1.tree = s.tree := by
    rw [treeNewNode]
    split <;> rfl
  rw [addNewNode] at h
  obtain ⟨t, hinsert, hrest⟩ := Outcome.bind_eq_ok.1 h
  obtain ⟨hc, hold⟩ := insertInto_in hinsert
  cases hrest
  refine ⟨hc, fun n hn => hold.inside n ?_, fun husage => hold.usage fun n => ?_⟩
  · rw [← htree] at hn
    exact hn
  · change Function.update (treeNewNode s).1.tree.usage _ (usageOf _ usage) n < _
    rw [Function.update_apply, htree]
    by_cases hn : n = (treeNewNode s).2
    · exact (if_pos hn).trans_lt (usageOf_lt _ usage)
    · exact (if_neg hn).trans_lt (husage n)

theorem treeAddNode_in {s s' : State} {place : Place} {usage : ℤ} {status : Status}
    (h : treeAddNode s place usage = .ok (s', status)) :
    (status = .success → s'.tree.In (treeNewNode s).2) ∧ Extends s.tree s'.tree := by
  cases hparent : place.parent with
  | none =>
    rw [treeAddNode, hparent] at h
    cases h
    exact ⟨by rintro ⟨⟩, .refl s.tree⟩
  | some parent =>
    cases hsearch : place.search with
    | notFound =>
      rw [treeAddNode_notFound hparent hsearch] at h
      split at h
      · cases h
        exact ⟨by rintro ⟨⟩, .refl s.tree⟩
      · cases hadd : addNewNode { s with conglomerateIndex := nextElement s } parent
            place.isChild place.name usage with
        | error fault =>
          rw [hadd] at h
          cases h
        | ok t =>
          rw [hadd] at h
          cases h
          obtain ⟨hnew, hold⟩ := addNewNode_in hadd
          rw [(treeNewNode_count s (nextElement s)).2.2] at hnew
          exact ⟨fun _ => hnew, hold⟩
    | _ =>
      rw [treeAddNode, hparent, hsearch] at h
      cases h
      exact ⟨by rintro ⟨⟩, .refl s.tree⟩

theorem accounted_add {p : Editing × List ℕ} (h : Accounted e p) {place : Place} {usage : ℤ}
    (hplace : ∀ parent, place.parent = some parent → p.1.state.tree.In parent) {n : Option ℕ}
    (hadd : p.1.addNode place usage = .ok (e', n)) : Accounted e (e', p.2 ++ n.toList) := by
  obtain ⟨hsound, -⟩ := addNode_spec h.sound hadd
  obtain ⟨⟨s, status⟩, hstate, hkept⟩ := treeAddNode_kept h.kept hplace usage
  obtain ⟨grown, hnodes, hperm⟩ := h.grown
  obtain ⟨hin, hold⟩ := treeAddNode_in hstate
  rw [Editing.addNode, hstate] at hadd
  simp only [bind, Except.bind] at hadd
  rcases treeAddNode_cases hstate with ⟨rfl, hgiven⟩ | ⟨hfail, hfree, hsame, -⟩
  · rw [if_pos rfl] at hadd
    obtain ⟨links, hnew, -, -⟩ := treeNewNode_eq h.sound.holds h.sound.nodes
    rw [hnew] at hadd
    cases hadd
    obtain ⟨grown', hnodes', hlist⟩ := treeNewNode_grown p.1.state
    refine ⟨hkept, hsound, ⟨grown + grown', ?_, ?_⟩, fun m hm => ?_, h.growth.trans hold⟩
    · exact hgiven.nodes.trans (hnodes'.trans (by rw [hnodes, Nat.add_assoc]))
    · rw [← List.range'_append_1, ← List.append_assoc]
      dsimp only
      rw [hgiven.free, Option.toList_some, List.append_assoc, List.singleton_append, hlist,
        ← List.append_assoc, hnodes]
      exact hperm.append_right _
    · rcases List.mem_append.1 hm with hm | hm
      · exact hold.inside m (h.inside m hm)
      · rw [List.mem_singleton.1 hm]
        exact hin rfl
  · rw [if_neg hfail] at hadd
    cases hadd
    simp only [Option.toList_none, List.append_nil]
    refine ⟨hkept, hsound, ⟨grown, hsame.trans hnodes, ?_⟩,
      fun m hm => hold.inside m (h.inside m hm), h.growth.trans hold⟩
    dsimp only
    rw [hfree]
    exact hperm

theorem accounted_step {p p' : Editing × List ℕ} {call : Call} (h : Accounted e p)
    (hplaced : Placed p call) (hstep : step p call = .ok p') : Accounted e p' := by
  cases call with
  | start fuel size =>
    rw [step] at hstep
    split at hstep
    · next hstart =>
      cases hstep
      exact accounted_start h hstart
    · cases hstep
  | add place usage =>
    rw [step] at hstep
    cases hadd : p.1.addNode place usage with
    | error fault =>
      rw [hadd] at hstep
      cases hstep
    | ok r =>
      rw [hadd] at hstep
      cases hstep
      exact accounted_add h hplaced hadd
  | finish =>
    cases hstep
    have hkept := h.kept
    exact ⟨⟨hkept.rooted, hkept.slot, hkept.free_lt, hkept.free_out, hkept.free_nodup,
      hkept.consistent⟩, ⟨h.sound.holds, h.sound.nodes⟩, h.grown, h.inside, h.growth⟩

theorem accounted_run (hkept : Kept e.state) (hsound : e.Sound) {calls : List Call}
    (hplaced : Outcome.Admissible step Placed (e, []) calls)
    (hrun : Outcome.run step (e, []) calls = .ok (e', given)) : Accounted e (e', given) := by
  refine Outcome.run_preserves (fun _ _ _ h hok hstep => accounted_step h hok hstep) _ calls _
    ⟨hkept, hsound, ⟨0, rfl, .of_eq (List.append_nil _).symm⟩, ?_, .refl _⟩ hplaced hrun
  intro n hn
  cases hn

/-- In every run the links of the free nodes agree with their list, which has no node of the tree.
No node is given twice or is free again, each is in the tree then, and none is lost of those that
were free or are new. -/
theorem run_accounted (hkept : Kept e.state) (hsound : e.Sound) {calls : List Call}
    (hplaced : Outcome.Admissible step Placed (e, []) calls)
    (hrun : Outcome.run step (e, []) calls = .ok (e', given)) :
    e'.Sound ∧ Kept e'.state ∧ (given ++ e'.state.free).Nodup ∧
      (∀ n ∈ given, e'.state.tree.In n) ∧
      ∀ n, n ∈ given ++ e'.state.free ↔
        n ∈ e.state.free ∨ e.state.nodes ≤ n ∧ n < e'.state.nodes := by
  have h := accounted_run hkept hsound hplaced hrun
  obtain ⟨grown, hnodes, hperm⟩ := h.grown
  refine ⟨h.sound, h.kept, hperm.nodup_iff.2 ?_, h.inside, fun n => ?_⟩
  · refine List.nodup_append'.2 ⟨hkept.free_nodup, List.nodup_range', fun n hn hnew => ?_⟩
    exact absurd (hkept.free_lt n hn) (Nat.not_lt.2 (List.mem_range'_1.1 hnew).1)
  · rw [hperm.mem_iff, List.mem_append, List.mem_range'_1, ← hnodes]

theorem run_accounted_new : ∃ e given,
    Outcome.run step (newEditing, []) [.add (underTop true [65]) TreeUSAGE_ANY, .finish] =
      .ok (e, given) ∧ e.Sound ∧ (given ++ e.state.free).Nodup := by
  have hplace : ∀ parent, (underTop true [65]).parent = some parent → newTree.tree.In parent :=
    fun _ hp => Or.inl (Option.some.inj hp).symm
  obtain ⟨r, hr, -⟩ := treeAddNode_kept kept_newTree hplace TreeUSAGE_ANY
  obtain ⟨⟨e, given⟩, hadd⟩ :
      ∃ p, newEditing.addNode (underTop true [65]) TreeUSAGE_ANY = .ok p := by
    change ∃ p, (treeAddNode newTree _ _ >>= _) = Except.ok p
    rw [hr, Outcome.ok_bind]
    dsimp only
    split
    · exact ⟨_, rfl⟩
    · exact ⟨_, rfl⟩
  have hrun : Outcome.run step (newEditing, [])
      [.add (underTop true [65]) TreeUSAGE_ANY, .finish] =
        .ok ({ e with state := { e.state with conglomerateSize := 0, conglomerateIndex := 0 } },
          [] ++ given.toList) := by
    rw [Outcome.run, step, hadd]
    rfl
  have hplaced : Outcome.Admissible step Placed (newEditing, [])
      [.add (underTop true [65]) TreeUSAGE_ANY, .finish] :=
    ⟨hplace, fun _ _ => ⟨trivial, fun _ _ => trivial⟩⟩
  obtain ⟨hsound, -, hnodup, -⟩ := run_accounted kept_newTree newEditing_sound hplaced hrun
  exact ⟨_, _, hrun, hsound, hnodup⟩

end MdsPlus.ConglomerateRuns
