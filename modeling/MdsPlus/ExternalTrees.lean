import MdsPlus.ConglomerateNodes
import MdsPlus.NodeDeletion
import MdsPlus.ParentStateRuns

/-!
The list of external trees of a tree that is open for edit. It is kept by the calls that make a
node a subtree and that undo this, and by the deletion of nodes; adding a node and setting its
usage do not look at it.
-/

namespace MdsPlus.ExternalTrees

open NodeTree TreeEdit ParentStateRuns Outcome
open NodeDeletion (deletedName)
open BitMemory (Byte)

structure Session where
  state : State
  externals : List ℕ

inductive Status
  | success | notChildless | notMemberless | notSon
  deriving DecidableEq, Repr

def treeIsChild (t : Tree) (n : ℕ) : Bool :=
  match t.parent n with
  | some p => decide (n ∈ t.kids .child p)
  | none => false

def Session.setUsage (s : Session) (n : ℕ) (usage : ℤ) : Session :=
  { s with
    state := { s.state with
      tree := { s.state.tree with usage := Function.update s.state.tree.usage n usage } } }

/-- A node that is listed already only has its usage set. -/
def treeSetSubtree (s : Session) (n : ℕ) : Session × Status :=
  if s.state.tree.kids .child n ≠ [] then (s, .notChildless)
  else if s.state.tree.kids .member n ≠ [] then (s, .notMemberless)
  else if ¬ treeIsChild s.state.tree n then (s, .notSon)
  else
    ({ s.setUsage n TreeUSAGE_SUBTREE with
        externals := if n ∈ s.externals then s.externals else s.externals ++ [n] }, .success)

/-- The others move up. -/
def treeSetNoSubtree (s : Session) (n : ℕ) : Session :=
  if n ∈ s.externals then
    { s.setUsage n TreeUSAGE_STRUCTURE with externals := s.externals.erase n }
  else s

/-- A usage is an item of the characteristics, which have to be read before. -/
def treeSetUsage (s : Session) (n : ℕ) (readable : Bool) (usage : Byte) : Session :=
  if readable ∧ s.state.tree.usage n ≠ usage.toNat then s.setUsage n usage.toNat else s

/-- The characteristics are emptied at once or when the tree is written. -/
def deleteNode (s : Session) (n : ℕ) : Session :=
  let s := treeSetNoSubtree s n
  { s with
    state := { s.state with
      tree := { s.state.tree.detach n with
        name := Function.update s.state.tree.name n deletedName
        usage := Function.update s.state.tree.usage n 0 }
      conglomerateElt := Function.update s.state.conglomerateElt n 0
      nci := Function.update s.state.nci n ⟨false, false⟩ } }

def treeDeleteNodeExecute (s : Session) (marked : List ℕ) : Session := marked.foldl deleteNode s

inductive Op
  | addNode (place : Place) (usage : ℤ)
  | setSubtree (n : ℕ)
  | setNoSubtree (n : ℕ)
  | setUsage (n : ℕ) (readable : Bool) (usage : Byte)
  | delete (marked : List ℕ)

/-- One call, with the status of those that may refuse. -/
def step (s : Session) : Op → Except Fault Session
  | .addNode place usage => (treeAddNode s.state place usage).map fun r => { s with state := r.1 }
  | .setSubtree n => .ok (treeSetSubtree s n).1
  | .setNoSubtree n => .ok (treeSetNoSubtree s n)
  | .setUsage n readable usage => .ok (treeSetUsage s n readable usage)
  | .delete marked => .ok (treeDeleteNodeExecute s marked)

def Fine (s : Session) : Op → Prop
  | .addNode place _ => ∀ p, place.parent = some p → s.state.tree.In p
  | .setSubtree n => s.state.tree.In n
  | .setNoSubtree n => s.state.tree.In n
  | .setUsage n _ _ => s.state.tree.In n
  | .delete marked => 0 ∉ marked ∧ ∀ c p, s.state.tree.parent c = some p → p ∈ marked → c ∈ marked

/-! ### What each call does to the tree -/

variable {s s' : Session} {n c : ℕ}

structure Added (t t' : Tree) (c : ℕ) (usage : ℤ) : Prop where
  fresh : ¬ t.In c
  usage_eq : t'.usage = Function.update t.usage c usage
  in_iff : ∀ n, t'.In n ↔ n = c ∨ t.In n

theorem insertInto_attached {s s' : State} {k : Kind} {p : ℕ} (h : insertInto s k p c = .ok s') :
    ∃ hfits : s.tree.Fits p c, s' = { s with tree := s.tree.attach (s.sorts k) k p c hfits } := by
  rw [insertInto] at h
  split at h
  · rename_i hfits
    exact ⟨hfits, (Except.ok.inj h).symm⟩
  · cases h

theorem addNewNode_added {s s' : State} (h : Kept s) {parent : ℕ} {isChild : Bool} {name : Name}
    {usage : ℤ} (hadd : addNewNode s parent isChild name usage = .ok s') :
    Added s.tree s'.tree (treeNewNode s).2 (usageOf (kindOf isChild usage) usage) := by
  obtain ⟨-, -, hout, -, htree, -⟩ := treeNewNode_kept h
  rw [addNewNode] at hadd
  obtain ⟨s₁, hinsert, hrest⟩ := bind_eq_ok.1 hadd
  obtain ⟨hfits, rfl⟩ := insertInto_attached hinsert
  cases hrest
  refine ⟨hout, ?_, fun n => ?_⟩
  · exact congrArg (fun t : Tree => Function.update t.usage _ _) htree
  · by_cases hn : n = (treeNewNode s).2
    · refine ⟨fun _ => Or.inl hn, fun _ => ?_⟩
      rw [hn]
      exact Tree.in_of_parent (Tree.attach_parent_self hfits)
    · rw [or_iff_right hn, ← htree]
      exact Tree.in_attach hfits hn

theorem treeAddNode_added {s s' : State} (h : Kept s) {place : Place} {usage : ℤ}
    {status : TreeEdit.Status} (hadd : treeAddNode s place usage = .ok (s', status)) :
    status = .success ∧ Added s.tree s'.tree (treeNewNode s).2
        (usageOf (kindOf place.isChild usage) usage) ∨
      status ≠ .success ∧ s'.tree = s.tree := by
  rw [treeAddNode] at hadd
  split at hadd
  · cases hadd
    exact Or.inr ⟨by decide, rfl⟩
  · cases hadd
    exact Or.inr ⟨by decide, rfl⟩
  · cases hadd
    exact Or.inr ⟨by decide, rfl⟩
  · have hstate : (if s.conglomerateSize ≠ 0 then
        { s with conglomerateIndex := s.conglomerateIndex + 1 } else s) =
        { s with conglomerateIndex := ConglomerateNodes.nextElement s } := by
      rw [ConglomerateNodes.nextElement]
      split <;> rfl
    rw [hstate] at hadd
    dsimp only at hadd
    split at hadd
    · cases hadd
      exact Or.inr ⟨by decide, rfl⟩
    · have hkept : Kept { s with conglomerateIndex := ConglomerateNodes.nextElement s } :=
        ⟨h.rooted, h.slot, h.free_lt, h.free_out, h.free_nodup, h.consistent⟩
      cases hnew : addNewNode { s with conglomerateIndex := ConglomerateNodes.nextElement s } _
          place.isChild place.name usage with
      | error e =>
        rw [hnew] at hadd
        cases hadd
      | ok s₁ =>
        rw [hnew] at hadd
        simp only [Except.map, Except.ok.injEq, Prod.mk.injEq] at hadd
        obtain ⟨rfl, rfl⟩ := hadd
        have hadded := addNewNode_added hkept hnew
        rw [(ConglomerateNodes.treeNewNode_count s _).2.2] at hadded
        exact Or.inl ⟨rfl, hadded⟩

theorem treeSetNoSubtree_eq (s : Session) (n : ℕ) :
    ∃ usage, treeSetNoSubtree s n =
        { s.setUsage n usage with externals := s.externals.erase n } ∧
      usage = if n ∈ s.externals then TreeUSAGE_STRUCTURE else s.state.tree.usage n := by
  rw [treeSetNoSubtree]
  by_cases hn : n ∈ s.externals
  · rw [if_pos hn, if_pos hn]
    exact ⟨_, rfl, rfl⟩
  · rw [if_neg hn, if_neg hn, List.erase_of_not_mem hn]
    refine ⟨_, ?_, rfl⟩
    rw [Session.setUsage, Function.update_eq_self]

structure Deleted (s s' : Session) (l : List ℕ) : Prop where
  parent : ∀ n, s'.state.tree.parent n = if n ∈ l then none else s.state.tree.parent n
  kids : ∀ k p, s'.state.tree.kids k p = (s.state.tree.kids k p).filter (· ∉ l)
  usage : ∀ n, n ∉ l → s'.state.tree.usage n = s.state.tree.usage n
  nci : ∀ n, n ∉ l → s'.state.nci n = s.state.nci n
  nodes : s'.state.nodes = s.state.nodes
  free : s'.state.free = s.state.free
  externals : s'.externals = l.foldl List.erase s.externals

theorem Deleted.refl (s : Session) : Deleted s s [] :=
  ⟨fun _ => rfl, fun _ _ => (List.filter_eq_self.2 fun _ _ => decide_eq_true List.not_mem_nil).symm,
    fun _ _ => rfl, fun _ _ => rfl, rfl, rfl, rfl⟩

theorem Deleted.append {s'' : Session} {l l' : List ℕ} (h : Deleted s s' l)
    (h' : Deleted s' s'' l') : Deleted s s'' (l ++ l') := by
  have hnot : ∀ n, n ∉ l ++ l' → n ∉ l ∧ n ∉ l' := fun n hn =>
    ⟨fun hl => hn (List.mem_append_left l' hl), fun hl => hn (List.mem_append_right l hl)⟩
  refine ⟨fun n => ?_, fun k p => ?_, fun n hn => ?_, fun n hn => ?_, h'.nodes.trans h.nodes,
    h'.free.trans h.free, ?_⟩
  · rw [h'.parent, h.parent]
    by_cases hl : n ∈ l <;> by_cases hl' : n ∈ l' <;> simp [hl, hl']
  · rw [h'.kids, h.kids, List.filter_filter]
    refine List.filter_congr fun n _ => ?_
    simp only [List.mem_append, not_or, Bool.decide_and, Bool.and_comm]
  · exact (h'.usage n (hnot n hn).2).trans (h.usage n (hnot n hn).1)
  · exact (h'.nci n (hnot n hn).2).trans (h.nci n (hnot n hn).1)
  · rw [List.foldl_append, ← h.externals]
    exact h'.externals

theorem deleteNode_deleted (s : Session) (n : ℕ) : Deleted s (deleteNode s n) [n] := by
  obtain ⟨usage, hset, -⟩ := treeSetNoSubtree_eq s n
  have hne : ∀ a, a ∉ [n] → a ≠ n := fun a ha han => ha (List.mem_singleton.2 han)
  rw [deleteNode, hset]
  refine ⟨fun a => ?_, fun k p => ?_, fun a ha => ?_, fun a ha => ?_, rfl, rfl, rfl⟩
  · change Function.update s.state.tree.parent n none a = _
    by_cases ha : a = n
    · rw [ha, Function.update_self, if_pos (List.mem_singleton_self n)]
    · rw [Function.update_of_ne ha, if_neg fun hmem => ha (List.mem_singleton.1 hmem)]
  · change (if s.state.tree.parent n = some p then (s.state.tree.kids k p).erase n
      else s.state.tree.kids k p) = _
    have hfilter : (s.state.tree.kids k p).filter (· ∉ [n]) =
        (s.state.tree.kids k p).filter (· != n) := by
      refine List.filter_congr fun a _ => ?_
      by_cases ha : a = n <;> simp [ha]
    rw [hfilter, ← (s.state.tree.nodup k p).erase_eq_filter]
    split
    · rfl
    · rename_i hparent
      exact (List.erase_of_not_mem fun hmem => hparent (s.state.tree.linked hmem)).symm
  · change Function.update (Function.update s.state.tree.usage n usage) n 0 a = _
    rw [Function.update_of_ne (hne a ha), Function.update_of_ne (hne a ha)]
  · exact Function.update_of_ne (hne a ha) ..

theorem treeDeleteNodeExecute_deleted (s : Session) (l : List ℕ) :
    Deleted s (treeDeleteNodeExecute s l) l := by
  induction l generalizing s with
  | nil => exact .refl s
  | cons n l ih => exact (deleteNode_deleted s n).append (ih (deleteNode s n))

theorem mem_foldl_erase {l externals : List ℕ} (h : externals.Nodup) :
    (l.foldl List.erase externals).Nodup ∧
      ∀ n, n ∈ l.foldl List.erase externals ↔ n ∈ externals ∧ n ∉ l := by
  induction l generalizing externals with
  | nil => exact ⟨h, fun n => ⟨fun hn => ⟨hn, List.not_mem_nil⟩, And.left⟩⟩
  | cons a l ih =>
    obtain ⟨hnodup, hmem⟩ := ih (h.erase a)
    refine ⟨hnodup, fun n => (hmem n).trans ?_⟩
    rw [h.mem_erase_iff, List.mem_cons, not_or]
    tauto

theorem Deleted.kept {l : List ℕ} (h : Deleted s s' l) (hkept : Kept s.state) (htop : 0 ∉ l)
    (hclosed : ∀ c p, s.state.tree.parent c = some p → p ∈ l → c ∈ l) : Kept s'.state := by
  have hparent : ∀ c p, s'.state.tree.parent c = some p →
      s.state.tree.parent c = some p ∧ c ∉ l := by
    intro c p hp
    rw [h.parent c] at hp
    split at hp
    · cases hp
    · rename_i hnot
      exact ⟨hp, hnot⟩
  have hin : ∀ n, s'.state.tree.In n → s.state.tree.In n := by
    rintro n (rfl | ⟨p, hp⟩)
    · exact Or.inl rfl
    · exact Or.inr ⟨p, (hparent n p hp).1⟩
  have hnot : ∀ n, s'.state.tree.In n → n ∉ l := by
    rintro n (rfl | ⟨p, hp⟩)
    · exact htop
    · exact (hparent n p hp).2
  refine ⟨fun c p hp => ?_, fun n hn => ?_, fun n hn => ?_, fun n hn hn' => ?_, ?_, fun n hn => ?_⟩
  · obtain ⟨hp, hc⟩ := hparent c p hp
    have hpl : p ∉ l := fun hmem => hc (hclosed c p hp hmem)
    rcases hkept.rooted c p hp with rfl | ⟨q, hq⟩
    · exact Or.inl rfl
    · exact Or.inr ⟨q, (h.parent p).trans ((if_neg hpl).trans hq)⟩
  · rw [h.nodes]
    exact hkept.slot n (hin n hn)
  · rw [h.free] at hn
    rw [h.nodes]
    exact hkept.free_lt n hn
  · rw [h.free] at hn
    exact hkept.free_out n hn (hin n hn')
  · rw [h.free]
    exact hkept.free_nodup
  · have hn' := hnot n hn
    refine agrees_congr ((h.parent n).trans (if_neg hn')) (h.nci n hn') (fun p hp => ?_)
      (hkept.consistent n (hin n hn))
    exact h.nci p fun hmem => hn' (hclosed n p hp hmem)

/-! ### The list over runs of calls -/

/-- The list has nodes of the tree other than the top, each once; a node is in it as its usage
says, unless its usage was changed around the list. -/
structure Listed (s : Session) (loose : ℕ → Bool) : Prop where
  kept : Kept s.state
  nodup : s.externals.Nodup
  inside : ∀ n ∈ s.externals, s.state.tree.In n ∧ n ≠ 0
  agrees : ∀ n, s.state.tree.In n → n ≠ 0 → loose n = false →
    (n ∈ s.externals ↔ s.state.tree.usage n = TreeUSAGE_SUBTREE)

/-- The nodes whose usage was made one of subtrees, or another, around the list since they were
put into it or taken out of it. -/
def loosen (s : Session) (loose : ℕ → Bool) : Op → ℕ → Bool
  | .addNode place usage =>
      match treeAddNode s.state place usage with
      | .ok (_, .success) =>
          Function.update loose (treeNewNode s.state).2 (decide (usage = TreeUSAGE_SUBTREE))
      | _ => loose
  | .setSubtree n =>
      if (treeSetSubtree s n).2 = .success then Function.update loose n false else loose
  | .setNoSubtree n => if n ∈ s.externals then Function.update loose n false else loose
  | .setUsage n readable usage =>
      if readable ∧ ¬ (s.state.tree.usage n = TreeUSAGE_SUBTREE ↔ usage.toNat = TreeUSAGE_SUBTREE)
      then Function.update loose n true
      else loose
  | .delete _ => loose

variable {loose : ℕ → Bool}

theorem setUsage_kept (h : Kept s.state) (n : ℕ) (usage : ℤ) : Kept (s.setUsage n usage).state :=
  ⟨h.rooted, h.slot, h.free_lt, h.free_out, h.free_nodup, h.consistent⟩

theorem Listed.set (h : Listed s loose) {usage : ℤ} {externals : List ℕ}
    (hnodup : externals.Nodup) (hinside : ∀ a ∈ externals, a ≠ n → a ∈ s.externals)
    (hothers : ∀ a ∈ s.externals, a ≠ n → a ∈ externals)
    (hn : n ∈ externals → s.state.tree.In n ∧ n ≠ 0)
    (hself : s.state.tree.In n → n ≠ 0 → (n ∈ externals ↔ usage = TreeUSAGE_SUBTREE)) :
    Listed { s.setUsage n usage with externals } (Function.update loose n false) where
  kept := setUsage_kept h.kept n usage
  nodup := hnodup
  inside a ha := by
    by_cases han : a = n
    · subst han
      exact hn ha
    · exact h.inside a (hinside a ha han)
  agrees a hin hne hloose := by
    change a ∈ externals ↔ Function.update s.state.tree.usage n usage a = TreeUSAGE_SUBTREE
    by_cases han : a = n
    · subst han
      rw [Function.update_self]
      exact hself hin hne
    · rw [Function.update_of_ne han] at hloose ⊢
      rw [← h.agrees a hin hne hloose]
      exact ⟨fun ha => hinside a ha han, fun ha => hothers a ha han⟩

theorem treeSetSubtree_cases (s : Session) (n : ℕ) :
    ((treeSetSubtree s n).2 = .success ∧ (∃ p, s.state.tree.parent n = some p) ∧
      (treeSetSubtree s n).1 = { s.setUsage n TreeUSAGE_SUBTREE with
        externals := if n ∈ s.externals then s.externals else s.externals ++ [n] }) ∨
    ((treeSetSubtree s n).2 ≠ .success ∧ (treeSetSubtree s n).1 = s) := by
  rw [treeSetSubtree]
  split
  · exact Or.inr ⟨nofun, rfl⟩
  · split
    · exact Or.inr ⟨nofun, rfl⟩
    · split
      · exact Or.inr ⟨nofun, rfl⟩
      · rename_i hson
        refine Or.inl ⟨rfl, ?_, rfl⟩
        rw [Decidable.not_not, treeIsChild] at hson
        split at hson
        · rename_i p hp
          exact ⟨p, hp⟩
        · cases hson

theorem treeSetSubtree_listed (h : Listed s loose) (hn : s.state.tree.In n) :
    Listed (treeSetSubtree s n).1 (loosen s loose (.setSubtree n)) := by
  rw [loosen]
  rcases treeSetSubtree_cases s n with ⟨hsuccess, ⟨p, hp⟩, hset⟩ | ⟨hfailed, hset⟩
  · rw [if_pos hsuccess, hset]
    have hne : n ≠ 0 := by
      rintro rfl
      rw [s.state.tree.top] at hp
      cases hp
    by_cases hmem : n ∈ s.externals
    · rw [if_pos hmem]
      exact h.set h.nodup (fun a ha _ => ha) (fun a ha _ => ha) (fun _ => ⟨hn, hne⟩)
        fun _ _ => iff_of_true hmem rfl
    · rw [if_neg hmem]
      refine h.set ?_ (fun a ha han => ?_) (fun a ha _ => List.mem_append_left [n] ha)
        (fun _ => ⟨hn, hne⟩) fun _ _ =>
          iff_of_true (List.mem_append_right _ (List.mem_singleton_self n)) rfl
      · rw [← List.concat_eq_append]
        exact h.nodup.concat hmem
      · exact (List.mem_append.1 ha).resolve_right fun hmem => han (List.mem_singleton.1 hmem)
  · rw [if_neg hfailed, hset]
    exact h

theorem treeSetNoSubtree_listed (h : Listed s loose) :
    Listed (treeSetNoSubtree s n) (loosen s loose (.setNoSubtree n)) := by
  rw [treeSetNoSubtree, loosen]
  split
  · have herase : ∀ a, a ∈ s.externals.erase n ↔ a ≠ n ∧ a ∈ s.externals := fun a =>
      h.nodup.mem_erase_iff
    have hnot : n ∉ s.externals.erase n := fun hmem => ((herase n).1 hmem).1 rfl
    exact h.set (h.nodup.erase n) (fun a ha _ => ((herase a).1 ha).2)
      (fun a ha han => (herase a).2 ⟨han, ha⟩) (fun hmem => absurd hmem hnot)
      fun _ _ => iff_of_false hnot (by decide)
  · exact h

theorem treeSetUsage_listed (h : Listed s loose) (readable : Bool) (usage : BitMemory.Byte) :
    Listed (treeSetUsage s n readable usage) (loosen s loose (.setUsage n readable usage)) := by
  rw [treeSetUsage, loosen]
  split
  · rename_i hset
    refine ⟨setUsage_kept h.kept n usage.toNat, h.nodup, h.inside, fun a hin hne hloose => ?_⟩
    change a ∈ s.externals ↔
      Function.update s.state.tree.usage n (usage.toNat : ℤ) a = TreeUSAGE_SUBTREE
    by_cases han : a = n
    · subst han
      rw [Function.update_self]
      split at hloose
      · rw [Function.update_self] at hloose
        cases hloose
      · rename_i hsame
        rw [h.agrees a hin hne hloose]
        by_contra hdiffer
        exact hsame ⟨hset.1, hdiffer⟩
    · rw [Function.update_of_ne han]
      refine h.agrees a hin hne ?_
      split at hloose
      · rwa [Function.update_of_ne han] at hloose
      · exact hloose
  · rename_i hset
    rw [if_neg]
    · exact h
    · rintro ⟨hreadable, hdiffer⟩
      refine hset ⟨hreadable, fun heq => hdiffer ?_⟩
      rw [heq]

theorem treeDeleteNodeExecute_listed (h : Listed s loose) {marked : List ℕ} (htop : 0 ∉ marked)
    (hclosed : ∀ c p, s.state.tree.parent c = some p → p ∈ marked → c ∈ marked) :
    Listed (treeDeleteNodeExecute s marked) loose := by
  have hdeleted := treeDeleteNodeExecute_deleted s marked
  obtain ⟨hnodup, hmem⟩ := mem_foldl_erase (l := marked) h.nodup
  rw [← hdeleted.externals] at hnodup hmem
  have hin : ∀ n, (treeDeleteNodeExecute s marked).state.tree.In n →
      s.state.tree.In n ∧ n ∉ marked := by
    rintro n (rfl | ⟨p, hp⟩)
    · exact ⟨Or.inl rfl, htop⟩
    · rw [hdeleted.parent n] at hp
      split at hp
      · cases hp
      · rename_i hnot
        exact ⟨Or.inr ⟨p, hp⟩, hnot⟩
  refine ⟨hdeleted.kept h.kept htop hclosed, hnodup, fun n hn => ?_, fun n hn hne hloose => ?_⟩
  · obtain ⟨hold, hnot⟩ := (hmem n).1 hn
    obtain ⟨hinside, hne⟩ := h.inside n hold
    refine ⟨?_, hne⟩
    rcases hinside with rfl | ⟨p, hp⟩
    · exact absurd rfl hne
    · exact Or.inr ⟨p, (hdeleted.parent n).trans ((if_neg hnot).trans hp)⟩
  · obtain ⟨hn, hnot⟩ := hin n hn
    rw [hmem n, and_iff_left hnot, hdeleted.usage n hnot]
    exact h.agrees n hn hne hloose

theorem usageOf_eq_iff (isChild : Bool) (usage : ℤ) :
    usageOf (kindOf isChild usage) usage = TreeUSAGE_SUBTREE ↔ usage = TreeUSAGE_SUBTREE := by
  by_cases husage : usage = TreeUSAGE_SUBTREE
  · have hkind : kindOf isChild usage = .child := if_pos (Or.inr (Or.inr husage))
    rw [hkind, usageOf, if_pos husage]
    exact iff_of_true rfl husage
  · refine iff_of_false ?_ husage
    cases kindOf isChild usage with
    | child =>
      rw [usageOf, if_neg husage]
      decide
    | member =>
      rw [usageOf]
      split
      · exact husage
      · decide

theorem treeAddNode_listed (h : Listed s loose) {place : Place} {usage : ℤ}
    (hp : ∀ p, place.parent = some p → s.state.tree.In p) :
    ∃ r, treeAddNode s.state place usage = .ok r ∧
      Listed { s with state := r.1 } (loosen s loose (.addNode place usage)) := by
  obtain ⟨⟨s', status⟩, hadd, hkept⟩ := treeAddNode_kept h.kept hp usage
  refine ⟨_, hadd, ?_⟩
  rcases treeAddNode_added h.kept hadd with ⟨rfl, hadded⟩ | ⟨hfailed, htree⟩
  · have hnew : (treeNewNode s.state).2 ∉ s.externals := fun hmem =>
      hadded.fresh (h.inside _ hmem).1
    have hloosen : loosen s loose (.addNode place usage) =
        Function.update loose (treeNewNode s.state).2 (decide (usage = TreeUSAGE_SUBTREE)) := by
      rw [loosen, hadd]
    rw [hloosen]
    refine ⟨hkept, h.nodup, fun n hn => ?_, fun n hin hne hloose => ?_⟩
    · obtain ⟨hin, hne⟩ := h.inside n hn
      exact ⟨(hadded.in_iff n).2 (Or.inr hin), hne⟩
    · change n ∈ s.externals ↔ s'.tree.usage n = TreeUSAGE_SUBTREE
      rw [hadded.usage_eq]
      by_cases hn : n = (treeNewNode s.state).2
      · rw [hn, Function.update_self] at hloose
        rw [hn, Function.update_self, usageOf_eq_iff]
        exact iff_of_false hnew (of_decide_eq_false hloose)
      · rw [Function.update_of_ne hn] at hloose ⊢
        exact h.agrees n (((hadded.in_iff n).1 hin).resolve_left hn) hne hloose
  · have hloosen : loosen s loose (.addNode place usage) = loose := by
      rw [loosen, hadd]
      split
      · rename_i heq
        obtain rfl := (Prod.mk.inj (Except.ok.inj heq)).2
        exact absurd rfl hfailed
      · rfl
    rw [hloosen]
    refine ⟨hkept, h.nodup, fun n hn => ?_, fun n hin hne hloose => ?_⟩
    · have hinside := h.inside n hn
      rw [← htree] at hinside
      exact hinside
    · change s'.tree.In n at hin
      change n ∈ s.externals ↔ s'.tree.usage n = TreeUSAGE_SUBTREE
      rw [htree] at hin ⊢
      exact h.agrees n hin hne hloose

/-- A call, with what it changes around the list. -/
def tracedStep (s : Session × (ℕ → Bool)) (op : Op) : Except Fault (Session × (ℕ → Bool)) :=
  (step s.1 op).map fun s' => (s', loosen s.1 s.2 op)

theorem tracedStep_listed (h : Listed s loose) {op : Op} (hfine : Fine s op) :
    ∃ r, tracedStep (s, loose) op = .ok r ∧ Listed r.1 r.2 := by
  cases op with
  | addNode place usage =>
    obtain ⟨r, hadd, hlisted⟩ := treeAddNode_listed h hfine
    have hstep : step s (.addNode place usage) = .ok { s with state := r.1 } := by
      rw [step, hadd]
      rfl
    refine ⟨({ s with state := r.1 }, _), ?_, hlisted⟩
    rw [tracedStep, hstep]
    rfl
  | setSubtree n => exact ⟨_, rfl, treeSetSubtree_listed h hfine⟩
  | setNoSubtree n => exact ⟨_, rfl, treeSetNoSubtree_listed h⟩
  | setUsage n readable usage => exact ⟨_, rfl, treeSetUsage_listed h readable usage⟩
  | delete marked => exact ⟨_, rfl, treeDeleteNodeExecute_listed h hfine.1 hfine.2⟩

/-- A tree as it is created: its top has the usage of a subtree and is not listed. -/
def newSession : Session := ⟨newTree, []⟩

theorem newSession_listed : Listed newSession fun _ => false where
  kept := kept_newTree
  nodup := List.nodup_nil
  inside _ hn := absurd hn List.not_mem_nil
  agrees := by
    rintro n (rfl | ⟨p, hp⟩) hne
    · exact absurd rfl hne
    · cases hp

/-- In every run from a new tree no node is listed twice, none but nodes below the top are, and a
node whose usage was not changed around the list is in it just when its usage is that of a
subtree. -/
theorem externals_run {ops : List Op}
    (hfine : Admissible tracedStep (fun s => Fine s.1) (newSession, fun _ => false) ops) :
    ∃ s loose, run tracedStep (newSession, fun _ => false) ops = .ok (s, loose) ∧
      s.externals.Nodup ∧ (∀ n ∈ s.externals, s.state.tree.In n ∧ n ≠ 0) ∧
      ∀ n, s.state.tree.In n → n ≠ 0 → loose n = false →
        s.externals.count n = if s.state.tree.usage n = TreeUSAGE_SUBTREE then 1 else 0 := by
  obtain ⟨⟨s, loose⟩, hrun, hlisted⟩ :=
    run_succeeds (fun s : Session × (ℕ → Bool) => Listed s.1 s.2)
      (fun _ _ h hop => tracedStep_listed h hop) _ ops newSession_listed hfine
  refine ⟨s, loose, hrun, hlisted.nodup, hlisted.inside, fun n hin hne hloose => ?_⟩
  rw [hlisted.nodup.count]
  exact if_congr (hlisted.agrees n hin hne hloose) rfl rfl

theorem step_addChild (usage : ℤ) :
    ∃ s, step newSession (.addNode (underTop true [65]) usage) = .ok s ∧ s.externals = [] ∧
      s.state.tree.In 1 ∧ s.state.tree.usage 1 = usageOf (kindOf true usage) usage := by
  obtain ⟨hfits, hadd⟩ :=
    step_addTop kept_newTree 1 (List.range' 2 12) rfl rfl true [65] usage
  have hstep : step newSession (.addNode (underTop true [65]) usage) =
      (ParentStateRuns.step newTree (.addNode (underTop true [65]) usage)).map
        fun state => ⟨state, []⟩ := by
    rw [ParentStateRuns.step, step]
    change (treeAddNode newTree _ _).map _ = ((treeAddNode newTree _ _).map _).map _
    cases treeAddNode newTree (underTop true [65]) usage with
    | error e => rfl
    | ok r => rfl
  have husage : Function.update newTree.tree.usage 1 (usageOf (kindOf true usage) usage) 1 =
      usageOf (kindOf true usage) usage := Function.update_self ..
  rw [hstep, hadd]
  exact ⟨_, rfl, rfl, Tree.in_of_parent (Tree.attach_parent_self hfits), husage⟩

theorem externals_run_linked :
    ∃ s loose, run tracedStep (newSession, fun _ => false)
        [.addNode (underTop true [65]) TreeUSAGE_ANY, .setSubtree 1] = .ok (s, loose) ∧
      s.externals.Nodup ∧ (∀ n ∈ s.externals, s.state.tree.In n ∧ n ≠ 0) ∧
      ∀ n, s.state.tree.In n → n ≠ 0 → loose n = false →
        s.externals.count n = if s.state.tree.usage n = TreeUSAGE_SUBTREE then 1 else 0 := by
  refine externals_run ⟨fun p hp => ?_, fun r hr => ⟨?_, fun _ _ => trivial⟩⟩
  · exact Or.inl (Option.some.inj hp).symm
  · obtain ⟨s, hs, -, hin, -⟩ := step_addChild TreeUSAGE_ANY
    rw [tracedStep, hs] at hr
    cases hr
    exact hin

/-- The top has the usage of a subtree and is not listed, nor is a node that is added with this
usage or given it. -/
theorem unlisted_subtrees :
    (newSession.state.tree.usage 0 = TreeUSAGE_SUBTREE ∧ 0 ∉ newSession.externals) ∧
    (∃ s, step newSession (.addNode (underTop true [65]) TreeUSAGE_SUBTREE) = .ok s ∧
      s.state.tree.In 1 ∧ s.state.tree.usage 1 = TreeUSAGE_SUBTREE ∧ 1 ∉ s.externals) ∧
    ∃ s s', step newSession (.addNode (underTop true [65]) TreeUSAGE_STRUCTURE) = .ok s ∧
      step s (.setUsage 1 true 11) = .ok s' ∧ s'.state.tree.In 1 ∧
      s'.state.tree.usage 1 = TreeUSAGE_SUBTREE ∧ 1 ∉ s'.externals := by
  refine ⟨⟨rfl, List.not_mem_nil⟩, ?_, ?_⟩
  · obtain ⟨s, hs, hexternals, hin, husage⟩ := step_addChild TreeUSAGE_SUBTREE
    refine ⟨s, hs, hin, husage, ?_⟩
    rw [hexternals]
    exact List.not_mem_nil
  · obtain ⟨s, hs, hexternals, hin, husage⟩ := step_addChild TreeUSAGE_STRUCTURE
    have hdiffer : s.state.tree.usage 1 ≠ ((11 : BitMemory.Byte).toNat : ℤ) := by
      rw [husage]
      decide
    have hset : step s (.setUsage 1 true 11) = .ok (s.setUsage 1 11) :=
      congrArg Except.ok (if_pos ⟨rfl, hdiffer⟩)
    have hself : Function.update s.state.tree.usage 1 (11 : ℤ) 1 = 11 := Function.update_self ..
    refine ⟨s, _, hs, hset, hin, hself, ?_⟩
    change 1 ∉ s.externals
    rw [hexternals]
    exact List.not_mem_nil

end MdsPlus.ExternalTrees
