import MdsPlus.EditCalls
import MdsPlus.TagRuns

/-!
Calls that fail leave the tree as it was, and so do those on a tree that is not open for edit,
except for the few that are known to spoil it.
-/

namespace MdsPlus.FailedCalls

open Characteristics EditCalls NodeTree TreeEdit ParentState
open BitMemory (Byte)
open NciItems (Item)
open TagTable (CString Tables)

/-! ### Adding a node -/

section Nodes

variable {s s' : State}

theorem placed_kept (h : Placed s) :
    ParentStateRuns.Kept { s with nci := fun _ => ⟨false, false⟩ } := by
  refine ⟨h.rooted, h.slot, h.free_lt, h.free_out, h.free_nodup, fun n _ => ?_⟩
  change false = inherited s.tree (fun _ => ⟨false, false⟩) n
  cases hparent : s.tree.parent n with
  | none => rw [inherited_none hparent]
  | some p => rw [inherited_parent hparent]; rfl

theorem treeNewNode_nci (nci : ℕ → Flags) :
    TreeEdit.treeNewNode { s with nci } =
      ({ (TreeEdit.treeNewNode s).1 with nci }, (TreeEdit.treeNewNode s).2) := by
  rw [TreeEdit.treeNewNode, TreeEdit.treeNewNode]
  by_cases hfree : s.free = []
  · rw [if_pos hfree, if_pos hfree]
    rfl
  · rw [if_neg hfree, if_neg hfree]

theorem treeNewNode_changed : (TreeEdit.treeNewNode s).1.free ≠ s.free ∨
    (TreeEdit.treeNewNode s).1.nodes ≠ s.nodes := by
  rw [TreeEdit.treeNewNode]
  by_cases hfree : s.free = []
  · rw [if_pos hfree]
    exact Or.inr (Nat.ne_of_gt (Nat.lt_add_of_pos_right (by decide)))
  · rw [if_neg hfree]
    obtain ⟨n, rest, hcons⟩ := List.exists_cons_of_ne_nil hfree
    left
    change s.free.tail ≠ s.free
    rw [hcons]
    exact (List.cons_ne_self n rest).symm

theorem addNewNode_ok (h : Placed s) {parent : ℕ} (hp : s.tree.In parent) (isChild : Bool)
    (name : Name) (usage : ℤ) :
    ∃ s', addNewNode s parent isChild name usage = .ok s' ∧ ¬ SameNodes s s' := by
  obtain ⟨s₀, hadd, -⟩ := ParentStateRuns.addNewNode_kept (placed_kept h) hp isChild name usage
  rw [addNewNode, treeNewNode_nci] at hadd
  obtain ⟨s₁, hinsert, -⟩ := Outcome.bind_eq_ok.1 hadd
  obtain ⟨hfits, -⟩ := ExternalTrees.insertInto_attached hinsert
  obtain ⟨s', hs'⟩ : ∃ s', addNewNode s parent isChild name usage = .ok s' := by
    rw [addNewNode]
    dsimp only
    rw [insertInto, dif_pos hfits]
    exact ⟨_, rfl⟩
  have hgiven := ConglomerateNodes.addNewNode_given hs'
  refine ⟨s', hs', fun hsame => ?_⟩
  rcases treeNewNode_changed (s := s) with hfree | hnodes
  · exact hfree (hgiven.free.symm.trans hsame.free)
  · exact hnodes (hgiven.nodes.symm.trans hsame.nodes)

end Nodes

section Calls

variable {s : Session}

theorem atomic_of_none {c : Call} (h : exec s c = none) : Atomic s c := by
  intro r hr
  rw [h] at hr
  cases hr

theorem atomic_iff {c : Call} {r : Session × Bool} (h : exec s c = some r) :
    Atomic s c ↔ (s.tags.openForEdit = false ∨ r.2 = false → Same s r.1) := by
  refine ⟨fun hatomic => hatomic r h, fun hr r' hr' => ?_⟩
  rw [h] at hr'
  obtain rfl := Option.some.inj hr'
  exact hr

theorem atomic_of_unchanged {c : Call} {ok : Bool} (h : exec s c = some (s, ok)) : Atomic s c :=
  (atomic_iff h).2 fun _ => .refl s

theorem settle_same {failure : Option (ℕ → Flags)} {r : State × TreeEdit.Status} :
    Same s (s.settle failure r).1 ↔ SameNodes s.state r.1 := by
  have htags : SameTags s.tags { s.tags with nodes := r.1.nodes } :=
    ⟨rfl, fun _ _ => rfl, fun _ _ => rfl, rfl⟩
  obtain ⟨state, status⟩ := r
  cases status with
  | success =>
    refine ⟨fun h => ?_, fun h => ⟨?_, rfl, htags⟩⟩
    · exact ⟨h.nodes.tree, h.nodes.nodes, h.nodes.free, h.nodes.sorts, h.nodes.conglomerateElt⟩
    · exact ⟨h.tree, h.nodes, h.free, h.sorts, h.conglomerateElt⟩
  | _ => exact ⟨fun h => h.nodes, fun h => ⟨h, rfl, htags⟩⟩

theorem settle_failed {failure : Option (ℕ → Flags)} {r : State × TreeEdit.Status} :
    (s.settle failure r).2 = false ↔ (r.2 = .success → failure.isSome = true) := by
  obtain ⟨state, status⟩ := r
  cases status with
  | success => cases failure <;> simp [Session.settle]
  | _ => simp [Session.settle]

theorem settle_atomic {c : Call} {failure : Option (ℕ → Flags)} {r : State × TreeEdit.Status}
    (hedit : s.tags.openForEdit = true) (h : exec s c = some (s.settle failure r))
    (hfailed : r.2 ≠ .success → SameNodes s.state r.1) :
    Atomic s c ↔ ¬ (r.2 = .success ∧ failure.isSome = true ∧ ¬ SameNodes s.state r.1) := by
  rw [atomic_iff h, settle_same, settle_failed, hedit]
  by_cases hsuccess : r.2 = .success
  · simp [hsuccess]
  · simp [hsuccess, hfailed hsuccess]

theorem treeAddNode_cases (h : Placed s.state) {place : Place}
    (hp : ∀ p, place.parent = some p → s.state.tree.In p) (usage : ℤ) :
    ∃ r, TreeEdit.treeAddNode s.state place usage = .ok r ∧ (r.2 = .success ↔ Adds s.state place) ∧
      (r.2 = .success ↔ ¬ SameNodes s.state r.1) := by
  have hsame := SameNodes.refl s.state
  cases hparent : place.parent with
  | none =>
    refine ⟨(s.state, .nodeNotFound), ?_, ?_, ?_⟩
    · rw [TreeEdit.treeAddNode, hparent]
    · simp [Adds, hparent]
    · simp [hsame]
  | some parent =>
    cases hsearch : place.search with
    | found =>
      refine ⟨(s.state, .alreadyThere), ?_, ?_, ?_⟩
      · rw [TreeEdit.treeAddNode, hparent, hsearch]
      · simp [Adds, hsearch]
      · simp [hsame]
    | failed =>
      refine ⟨(s.state, .searchFailed), ?_, ?_, ?_⟩
      · rw [TreeEdit.treeAddNode, hparent, hsearch]
      · simp [Adds, hsearch]
      · simp [hsame]
    | notFound =>
      rw [ConglomerateNodes.treeAddNode_notFound hparent hsearch]
      by_cases hfull : ConglomerateNodes.Full s.state
      · refine ⟨_, if_pos hfull, ?_, ?_⟩
        · simp [Adds, hfull]
        · simp only [reduceCtorEq, false_iff, not_not]
          exact ⟨rfl, rfl, rfl, rfl, rfl⟩
      · obtain ⟨s', hadd, hchanged⟩ :=
          addNewNode_ok (s := { s.state with
            conglomerateIndex := ConglomerateNodes.nextElement s.state })
            ⟨h.rooted, h.slot, h.free_lt, h.free_out, h.free_nodup⟩ (hp parent hparent)
            place.isChild place.name usage
        rw [if_neg hfull, hadd]
        refine ⟨_, rfl, ?_, iff_of_true rfl fun hnodes => hchanged ?_⟩
        · simp [Adds, hparent, hsearch, hfull]
        · exact ⟨hnodes.tree, hnodes.nodes, hnodes.free, hnodes.sorts, hnodes.conglomerateElt⟩

theorem addNode_atomic_iff (h : Sound s) {place : Place} {usage : ℤ}
    {failure : Option (ℕ → Flags)} (hfits : Fits s (.addNode place usage failure)) :
    Atomic s (.addNode place usage failure) ↔ ¬ Spoils s (.addNode place usage failure) := by
  by_cases hedit : s.tags.openForEdit = true
  · obtain ⟨r, hadd, hadds, hchanged⟩ := treeAddNode_cases h.placed hfits usage
    have hexec : exec s (.addNode place usage failure) = some (s.settle failure r) := by
      rw [exec, EditCalls.treeAddNode, if_neg (not_not_intro hedit), hadd]
      rfl
    rw [settle_atomic hedit hexec fun hne => not_not.1 (mt hchanged.2 hne), Spoils, ← hadds,
      and_iff_right hedit, ← hchanged]
    tauto
  · have hexec : exec s (.addNode place usage failure) = some (s, false) := by
      rw [exec, EditCalls.treeAddNode, if_pos hedit]
    exact iff_of_true (atomic_of_unchanged hexec) fun hspoils => hedit hspoils.1

end Calls

/-! ### Renaming a node -/

theorem moveNode_ok {s : State} (h : Placed s) {n p q : ℕ} (hq : s.tree.parent n = some q)
    (hp : s.tree.In p) (hbelow : n ∉ s.tree.lineage p) (k : Kind) (name : Name) :
    ∃ (t : Tree) (hfits : t.Fits p n) (s' : State),
      t = { s.tree.detach n with name := Function.update s.tree.name n (padName name) } ∧
      moveNode s n p k name = .ok s' ∧
      (SameNodes s s' ↔ t.attach (s.sorts k) k p n hfits = s.tree) := by
  obtain ⟨s₀, hinsert, -⟩ := ParentStateRuns.insertInto_moved (placed_kept h) hq hp hbelow k
    (Function.update s.tree.name n (padName name))
  obtain ⟨hfits, -⟩ := ExternalTrees.insertInto_attached hinsert
  obtain ⟨t, ht⟩ : ∃ t : Tree,
    t = { s.tree.detach n with name := Function.update s.tree.name n (padName name) } := ⟨_, rfl⟩
  have hfits : t.Fits p n := by
    rw [ht]
    exact hfits
  obtain ⟨s₁, hs₁⟩ : ∃ s₁ : State, s₁ = { s with tree := t.attach (s.sorts k) k p n hfits } :=
    ⟨_, rfl⟩
  refine ⟨t, hfits, fixParentState s₁ p n ((s₁.tree.kids k p).dropWhile fun x => x ≠ n), ht, ?_, ?_⟩
  · rw [moveNode, insertInto, dif_pos (ht ▸ hfits)]
    subst ht hs₁
    rfl
  · rw [fixParentState]
    subst hs₁
    split
    · exact ⟨fun h => h.tree, fun h => ⟨h, rfl, rfl, rfl, rfl⟩⟩
    · exact ⟨fun h => h.tree, fun h => ⟨h, rfl, rfl, rfl, rfl⟩⟩

theorem attach_eq_iff {t : Tree} {sort : Bool} {k : Kind} {p n : ℕ} {name : Name}
    {moved : Tree} (hmoved : moved = { t.detach n with name := Function.update t.name n name })
    (hfits : moved.Fits p n) :
    moved.attach sort k p n hfits = t ↔ t.parent n = some p ∧ t.name n = name ∧
      insertNode sort t.name n ((t.kids k p).erase n) = t.kids k p := by
  subst hmoved
  constructor
  · intro heq
    have hparent : t.parent n = some p :=
      (congrArg (fun t => t.parent n) heq).symm.trans (Function.update_self ..)
    have hname : Function.update t.name n name = t.name := congrArg Tree.name heq
    refine ⟨hparent, (congrFun hname n).symm.trans (Function.update_self ..), ?_⟩
    have hkids := congrArg (fun t => t.kids k p) heq
    change (if k = k ∧ p = p then insertNode sort (Function.update t.name n name) n
      (if t.parent n = some p then (t.kids k p).erase n else t.kids k p) else _) = _ at hkids
    rw [if_pos ⟨rfl, rfl⟩, if_pos hparent, hname] at hkids
    exact hkids
  · intro ⟨hparent, hname, hkids⟩
    have hnames : Function.update t.name n name = t.name := by
      rw [← hname, Function.update_eq_self]
    have hmem : n ∈ t.kids k p := by
      rw [← hkids]
      exact mem_insertNode.2 (Or.inl rfl)
    refine Tree.ext hnames rfl ?_ ?_
    · change Function.update (Function.update t.parent n none) n (some p) = t.parent
      rw [Function.update_idem, ← hparent, Function.update_eq_self]
    · funext j q
      change (if j = k ∧ q = p then insertNode sort (Function.update t.name n name) n
          (if t.parent n = some p then (t.kids k p).erase n else t.kids k p) else
        (if t.parent n = some q then (t.kids j q).erase n else t.kids j q)) = t.kids j q
      rw [hparent, if_pos rfl, hnames, hkids]
      split
      · rename_i hjq
        rw [hjq.1, hjq.2]
      · rename_i hjq
        split
        · rename_i hpq
          cases hpq
          exact List.erase_of_not_mem fun hn => hjq ⟨t.once hn hmem, rfl⟩
        · rfl

section Calls

variable {s : Session}

theorem treeRenameNode_cases (h : Placed s.state) {n : ℕ} {place : Place}
    (hp : ∀ p, place.parent = some p → s.state.tree.In p) :
    (∃ p s', Moves s.state n place p ∧
        TreeEdit.treeRenameNode s.state n place = .ok (s', .success) ∧
        (SameNodes s.state s' ↔ Stays s.state n place p)) ∨
      (¬ ∃ p, Moves s.state n place p) ∧
        ((∃ status, TreeEdit.treeRenameNode s.state n place = .ok (s.state, status) ∧
            status ≠ .success) ∨
          ∃ e, TreeEdit.treeRenameNode s.state n place = .error e) := by
  by_cases hfound : place.search = .found
  · refine Or.inr ⟨?_, Or.inl ⟨.alreadyThere, ?_, by rintro ⟨⟩⟩⟩
    · rintro ⟨p, hmoves⟩
      exact hmoves.search hfound
    · rw [TreeEdit.treeRenameNode, hfound]
  cases hparent : place.parent with
  | none =>
    refine Or.inr ⟨?_, Or.inl ⟨.nodeNotFound, ?_, by rintro ⟨⟩⟩⟩
    · rintro ⟨p, hmoves⟩
      have hp := hmoves.parent
      rw [hparent] at hp
      cases hp
    · cases hsearch : place.search with
      | found => exact absurd hsearch hfound
      | notFound | failed => rw [TreeEdit.treeRenameNode, hsearch, hparent]
  | some parent =>
    have hunder : TreeEdit.treeRenameNode s.state n place =
        renameUnder s.state n parent place.isChild place.name := by
      cases hsearch : place.search with
      | found => exact absurd hsearch hfound
      | notFound | failed => rw [TreeEdit.treeRenameNode, hsearch, hparent]
    have hself : ∀ p, Moves s.state n place p → p = parent := fun p hmoves =>
      Option.some.inj (hmoves.parent.symm.trans hparent)
    rw [hunder, renameUnder]
    by_cases hbelow : n ∈ s.state.tree.lineage parent
    · refine Or.inr ⟨?_, Or.inl ⟨.invPath, if_pos hbelow, by rintro ⟨⟩⟩⟩
      rintro ⟨p, hmoves⟩
      exact hmoves.not_below (hself p hmoves ▸ hbelow)
    rw [if_neg hbelow]
    by_cases husage : place.isChild ∧ s.state.tree.usage n ≠ TreeUSAGE_STRUCTURE
    · refine Or.inr ⟨?_, Or.inl ⟨.invPath, if_pos husage, by rintro ⟨⟩⟩⟩
      rintro ⟨p, hmoves⟩
      exact husage.2 (hmoves.usage husage.1)
    rw [if_neg husage]
    by_cases htop : s.state.tree.parent n = none
    · refine Or.inr ⟨?_, Or.inl ⟨.invTree, if_pos htop, by rintro ⟨⟩⟩⟩
      rintro ⟨p, hmoves⟩
      exact hmoves.listed htop
    rw [if_neg htop]
    by_cases hlong : maxRename < place.name.length
    · refine Or.inr ⟨?_, Or.inr ⟨.overrun, if_pos hlong⟩⟩
      rintro ⟨p, hmoves⟩
      exact Nat.not_lt.2 hmoves.name hlong
    rw [if_neg hlong]
    obtain ⟨q, hq⟩ := Option.ne_none_iff_exists'.1 htop
    obtain ⟨t, hfits, s', ht, hmove, hsame⟩ := moveNode_ok h hq (hp parent hparent) hbelow
      (if place.isChild then .child else .member) place.name
    refine Or.inl ⟨parent, s', ⟨hparent, hfound, hbelow, fun hchild => ?_, htop,
      Nat.not_lt.1 hlong⟩, ?_, hsame.trans ((attach_eq_iff ht hfits).trans ?_)⟩
    · exact not_not.1 fun hne => husage ⟨hchild, hne⟩
    · rw [hmove]
      rfl
    · constructor
      · rintro ⟨hp, hname, hkids⟩
        exact ⟨hp, hname, hkids⟩
      · exact fun h => ⟨h.parent, h.name, h.kids⟩

theorem renameNode_atomic_iff (h : Sound s) {n : ℕ} {place : Place}
    {failure : Option (ℕ → Flags)} (hfits : Fits s (.renameNode n place failure)) :
    Atomic s (.renameNode n place failure) ↔ ¬ Spoils s (.renameNode n place failure) := by
  by_cases hedit : s.tags.openForEdit = true
  · have hexec : exec s (.renameNode n place failure) =
        (TreeEdit.treeRenameNode s.state n place).toOption.map (s.settle failure) := by
      rw [exec, EditCalls.treeRenameNode, if_neg (not_not_intro hedit)]
    rcases treeRenameNode_cases h.placed hfits.2 with
      ⟨p, s', hmoves, hrename, hsame⟩ | ⟨hnot, ⟨status, hrename, hstatus⟩ | ⟨e, hrename⟩⟩
    · rw [hrename] at hexec
      have hself : ∀ q, Moves s.state n place q → q = p := fun q hq =>
        Option.some.inj (hq.parent.symm.trans hmoves.parent)
      rw [settle_atomic hedit hexec fun hne => absurd rfl hne, Spoils, and_iff_right hedit,
        and_iff_right rfl, hsame]
      refine not_congr (and_congr_right fun _ => ⟨fun hstays => ⟨p, hmoves, hstays⟩, ?_⟩)
      intro ⟨q, hq, hstays⟩
      exact hself q hq ▸ hstays
    · rw [hrename] at hexec
      refine iff_of_true ((settle_atomic hedit hexec fun _ => .refl s.state).2 ?_) ?_
      · exact fun hsuccess => hstatus hsuccess.1
      · exact fun hspoils => hnot (hspoils.2.2.imp fun p => And.left)
    · rw [hrename] at hexec
      refine iff_of_true (atomic_of_none hexec) ?_
      exact fun hspoils => hnot (hspoils.2.2.imp fun p => And.left)
  · have hexec : exec s (.renameNode n place failure) = some (s, false) := by
      rw [exec, EditCalls.treeRenameNode, if_pos hedit]
    exact iff_of_true (atomic_of_unchanged hexec) fun hspoils => hedit hspoils.1

end Calls

/-! ### Adding a tag -/

section Tags

open TagInvariant TagNames

variable {t : Tables}

theorem not_halfAdded {tagnam : CString} {indexMemory infoMemory : Bool}
    (h : ¬ (Accepted tagnam ∧ Grows TagTable.tagInfoSize t.tags t.tagInfoPages ∧
      infoMemory = false)) : ¬ HalfAdded t tagnam indexMemory infoMemory :=
  fun hhalf => h ⟨hhalf.accepted, hhalf.grows, hhalf.memory⟩

theorem insertIndex_same (h : Consistent t) {slot : ℕ} (hle : slot ≤ t.tags) :
    ∃ t', TagTable.insertIndex t slot = .ok t' ∧ t'.tags = t.tags ∧ t'.nodes = t.nodes ∧
      t'.nodeLink = t.nodeLink ∧ t'.tagInfoPages = t.tagInfoPages ∧
      t'.infoRoom = t.infoRoom ∧ (SameTags t t' ↔ slot = t.tags) := by
  obtain ⟨index, indexRoom, tagsPages, hinsert, hbelow, hat, -⟩ := TagAdd.insertIndex_spec h slot
  refine ⟨_, hinsert, rfl, rfl, rfl, rfl, rfl, fun hsame => ?_, fun hslot => ?_⟩
  · by_contra hne
    have hlt : slot < t.tags := by omega
    have hindex : index slot = t.index slot := hsame.index slot hlt
    have hold := h.index_lt slot hlt
    omega
  · refine ⟨rfl, fun i hi => hbelow i ?_, fun _ _ => rfl, rfl⟩
    rw [hslot]
    exact hi

theorem addTag_cases (h : Consistent t) {nid : ℕ} (hnid : nid < t.nodes) (tagnam : CString)
    (indexMemory infoMemory : Bool) :
    ∃ t' ok, addTag t nid tagnam indexMemory infoMemory = .ok (t', ok) ∧
      (ok = false → (SameTags t t' ↔ ¬ HalfAdded t tagnam indexMemory infoMemory)) ∧
      (ok = true → ¬ HalfAdded t tagnam indexMemory infoMemory) := by
  have hrefl := SameTags.refl t
  rw [addTag, if_neg (not_not_intro h.editing)]
  by_cases hlen : tagnam.strlen < 1 ∨ tagnam.strlen > TagTable.tagNameSize
  · rw [if_pos hlen]
    refine ⟨t, false, rfl, fun _ => iff_of_true hrefl (not_halfAdded fun hhalf => ?_), nofun⟩
    have hlength := hhalf.1.1
    omega
  rw [if_neg hlen]
  by_cases hlegal : TagTable.legal (tagnam.chars.map TagTable.toupper) = true
  swap
  · rw [if_pos hlegal]
    exact ⟨t, false, rfl,
      fun _ => iff_of_true hrefl (not_halfAdded fun hhalf => hlegal hhalf.1.2), nofun⟩
  rw [if_neg (not_not_intro hlegal)]
  have haccepted : Accepted tagnam := ⟨by omega, hlegal⟩
  have htag := tagName_blankFilled tagnam.chars haccepted.1.2 tagnam.noNul
  rcases TagAdd.findSlot_spec h htag t.tags 0 rfl (fun i hi => absurd hi (Nat.not_lt_zero i)) with
    ⟨⟨i, hi, hname⟩, hslot⟩ | ⟨hfresh, slot, hle, hslot, hless, hgreater⟩
  · refine ⟨t, false, ?_, fun _ => iff_of_true hrefl fun hhalf => hhalf.fresh i hi hname, nofun⟩
    simp only [hslot, bind, Except.bind]
  simp only [hslot, bind, Except.bind]
  by_cases hindex : Grows 4 t.tags t.tagsPages ∧ indexMemory = false
  · rw [if_pos hindex]
    refine ⟨t, false, rfl, fun _ => iff_of_true hrefl fun hhalf => ?_, nofun⟩
    have hmemory := hhalf.indexed hindex.1
    rw [hindex.2] at hmemory
    cases hmemory
  rw [if_neg hindex]
  obtain ⟨t₁, hinsert, htags, hnodes, hlink, hpages, hroom, hsame⟩ := insertIndex_same h hle
  have hload : t₁.loadNodeLink nid = .ok (t₁.nodeLink nid) := if_pos (hnodes ▸ hnid)
  simp only [hinsert, hload]
  by_cases hinfo : Grows TagTable.tagInfoSize t.tags t.tagInfoPages ∧ infoMemory = false
  · rw [htags, hpages, if_pos hinfo]
    refine ⟨t₁, false, rfl, fun _ => hsame.trans ⟨fun hlast hhalf => ?_, fun hhalf => ?_⟩, nofun⟩
    · obtain ⟨i, hi, hbefore⟩ := hhalf.before
      obtain ⟨j, hj, rfl⟩ := h.ordered.exists_place hi
      exact lt_asymm hbefore (hless j (hlast.symm ▸ hj))
    · by_contra hne
      have hlt : slot < t.tags := by omega
      refine hhalf ⟨haccepted, hfresh, fun hgrows => ?_, hinfo.1, hinfo.2, ?_⟩
      · exact Bool.eq_true_of_not_eq_false fun hmemory => hindex ⟨hgrows, hmemory⟩
      · exact ⟨t.index slot, h.index_lt slot hlt, hgreater slot (Nat.le_refl slot) hlt⟩
  · rw [htags, hpages, if_neg hinfo]
    obtain ⟨info, infoRoom, tagInfoPages, happend, -⟩ := TagAdd.appendInfo_spec (s := t₁)
      (by rw [htags, hpages, hroom]; exact h.info_room)
      ⟨TagTable.blankFilled tagnam.chars, nid, t₁.nodeLink nid⟩
    simp only [happend]
    exact ⟨_, true, rfl, nofun, fun _ => not_halfAdded fun hhalf => hinfo hhalf.2⟩

end Tags

/-! ### Setting the usage -/

section Items

open NciItems

theorem setItem_puts (w : Work) {item : Item} (h : puts item = true) :
    ∃ nci, setItem w item = (.success, { w with nci, putnci := true }) := by
  cases item with
  | usage | illegal => cases h
  | _ => exact ⟨_, rfl⟩

theorem usageLeft_puts (usage : Byte) (items : List Item) {item : Item} (h : puts item = true) :
    usageLeft usage (item :: items) = usageLeft usage items := by
  cases item with
  | usage | illegal => cases h
  | _ => rfl

theorem setItem_usage (w : Work) (usage : Byte) :
    ∃ modified, setItem w (.usage usage) = (.success, { w with usage, modified }) := by
  rw [setItem]
  split
  · exact ⟨true, rfl⟩
  · rename_i heq
    refine ⟨w.modified, ?_⟩
    rw [← not_not.1 heq]

theorem setItems_spec (w : Work) (items : List Item) :
    (setItems w items).2.usage = usageLeft w.usage items ∧
      ((setItems w items).1 = .success ↔ Item.illegal ∉ items) ∧
      (Item.illegal ∉ items → (setItems w items).2.putnci = (w.putnci || items.any puts)) := by
  induction items generalizing w with
  | nil => simp [setItems, usageLeft]
  | cons item items ih =>
    by_cases hputs : puts item = true
    · obtain ⟨nci, hset⟩ := setItem_puts w hputs
      have hnot : Item.illegal ≠ item := by
        rintro rfl
        cases hputs
      rw [setItems, hset, usageLeft_puts _ _ hputs, List.any_cons, hputs, List.mem_cons,
        or_iff_right hnot]
      simpa using ih { w with nci, putnci := true }
    · cases item with
      | illegal => simp [setItems, setItem, usageLeft]
      | usage usage =>
        obtain ⟨modified, hset⟩ := setItem_usage w usage
        rw [setItems, hset]
        simpa [usageLeft, puts] using ih { w with usage, modified }
      | _ => exact absurd rfl hputs

end Items

/-! ### The calls together -/

section Calls

variable {s : Session}

theorem addTag_atomic_iff (h : Sound s) {nid : ℕ} {tagnam : CString} {indexMemory infoMemory : Bool}
    (hfits : Fits s (.addTag nid tagnam indexMemory infoMemory)) :
    Atomic s (.addTag nid tagnam indexMemory infoMemory) ↔
      ¬ Spoils s (.addTag nid tagnam indexMemory infoMemory) := by
  by_cases hedit : s.tags.openForEdit = true
  · have hnid : nid < s.tags.nodes := by
      rw [h.count]
      exact h.placed.slot nid hfits
    obtain ⟨t, ok, hadd, hfailed, hdone⟩ :=
      addTag_cases (h.tags hedit) hnid tagnam indexMemory infoMemory
    have hexec : exec s (.addTag nid tagnam indexMemory infoMemory) =
        some ({ s with tags := t }, ok) := by
      rw [exec, treeAddTag, hadd]
      rfl
    rw [atomic_iff hexec, Spoils, and_iff_right hedit, hedit]
    cases ok with
    | false =>
      rw [← hfailed rfl]
      exact ⟨fun hsame => (hsame (Or.inr rfl)).tags, fun htags _ => ⟨.refl s.state, rfl, htags⟩⟩
    | true => exact iff_of_true (fun hor => hor.elim nofun nofun) (hdone rfl)
  · have hexec : exec s (.addTag nid tagnam indexMemory infoMemory) = some (s, false) := by
      rw [exec, treeAddTag, addTag, if_pos hedit]
      rfl
    exact iff_of_true (atomic_of_unchanged hexec) fun hspoils => hedit hspoils.1

theorem removeTag_cases {t : Tables} {name : CString} {r : Tables × TagTable.Status}
    (h : TagTable.removeTag t name = .ok r) :
    r.1 = t ∨ t.openForEdit = true ∧ r.2 = .success := by
  rw [TagTable.removeTag] at h
  by_cases hedit : t.openForEdit = true
  · rw [if_neg (not_not_intro hedit)] at h
    obtain ⟨found, -, hrest⟩ := Outcome.bind_eq_ok.1 h
    cases found with
    | none =>
      cases hrest
      exact Or.inl rfl
    | some found =>
      obtain ⟨t', -, hdone⟩ := Outcome.bind_eq_ok.1 hrest
      cases hdone
      exact Or.inr ⟨hedit, rfl⟩
  · rw [if_pos hedit] at h
    cases h
    exact Or.inl rfl

theorem removeTag_atomic (name : CString) : Atomic s (.removeTag name) := by
  intro r hr hfailed
  rw [exec, treeRemoveTag] at hr
  obtain ⟨removed, hremove, rfl⟩ := Outcome.exists_value _ hr
  rcases removeTag_cases hremove with hsame | ⟨hedit, hsuccess⟩
  · exact ⟨.refl s.state, rfl, hsame ▸ .refl s.tags⟩
  · rw [hedit, hsuccess] at hfailed
    exact hfailed.elim nofun nofun

theorem delete_atomic (marked : List ℕ) : Atomic s (.delete marked) := by
  intro r hr hfailed
  rw [exec, treeDeleteNodeExecute] at hr
  by_cases hedit : s.tags.openForEdit = true
  · rw [if_neg (not_not_intro hedit)] at hr
    obtain ⟨tags, -, hr⟩ := Option.map_eq_some_iff.1 hr
    subst hr
    rw [hedit] at hfailed
    exact hfailed.elim nofun nofun
  · rw [if_pos hedit] at hr
    cases hr
    exact .refl s

theorem setSubtree_atomic (n : ℕ) (memory : Bool) : Atomic s (.setSubtree n memory) := by
  refine (atomic_iff rfl).2 fun hfailed => ?_
  rw [treeSetSubtree] at hfailed ⊢
  by_cases hedit : s.tags.openForEdit = true
  · rw [if_neg (not_not_intro hedit)] at hfailed ⊢
    dsimp only at hfailed ⊢
    split at hfailed
    · rename_i hmemory
      rw [if_pos hmemory]
      exact .refl s
    · rename_i hmemory
      rw [if_neg hmemory]
      rcases ExternalTrees.treeSetSubtree_cases ⟨s.state, s.externals⟩ n with
        ⟨hsuccess, -⟩ | ⟨-, hsame⟩
      · rw [hedit, hsuccess] at hfailed
        exact hfailed.elim nofun nofun
      · rw [hsame]
        exact ⟨.refl s.state, rfl, .refl s.tags⟩
  · rw [if_pos hedit]
    exact .refl s

theorem setUsage_same {n : ℕ} {usage : Byte} :
    Same s (s.setUsage n usage) ↔ usage = s.usage n := by
  rw [Session.setUsage]
  by_cases husage : usage = s.usage n
  · rw [if_pos husage]
    exact iff_of_true (.refl s) husage
  · rw [if_neg husage]
    refine iff_of_false (fun hsame => husage ?_) husage
    have htree := congrArg (fun t : Tree => t.usage n) hsame.nodes.tree
    have hnew : (usage.toNat : ℤ) = s.state.tree.usage n :=
      (Function.update_self ..).symm.trans htree
    rw [Session.usage, ← hnew, BitVec.ofInt_natCast, BitVec.ofNat_toNat, BitVec.setWidth_eq]

theorem setNci_atomic_iff {n : ℕ} {hook : Bool} {read : Option Nci} {items : List Item}
    {written : Bool} :
    Atomic s (.setNci n hook read items written) ↔
      ¬ Spoils s (.setNci n hook read items written) := by
  by_cases hclosed : ¬ s.isOpen ∨ s.openReadonly ∨ ¬ hook
  · have hexec : exec s (.setNci n hook read items written) = some (s, false) := by
      cases read with
      | none => rw [exec, treeSetNci, if_pos hclosed]
      | some nci => rw [exec, treeSetNci, if_pos hclosed]
    refine iff_of_true (atomic_of_unchanged hexec) fun ⟨hopen, hwritable, hhook, _⟩ => ?_
    simp [hopen, hwritable, hhook] at hclosed
  cases read with
  | none =>
    have hexec : exec s (.setNci n hook none items written) = some (s, false) := by
      simp only [exec, treeSetNci, if_neg hclosed]
    exact iff_of_true (atomic_of_unchanged hexec) fun hspoils => nomatch hspoils.2.2.2.1
  | some nci =>
    obtain ⟨husage, hsuccess, hputs⟩ := setItems_spec ⟨nci, s.usage n, false, false⟩ items
    have hexec : exec s (.setNci n hook (some nci) items written) =
        some (treeSetNci s n hook (some nci) items written) := rfl
    have hset : treeSetNci s n hook (some nci) items written =
        (s.setUsage n (usageLeft (s.usage n) items), decide (Completes items written)) := by
      rw [treeSetNci, if_neg hclosed]
      dsimp only
      rw [husage, Prod.mk.injEq]
      refine ⟨rfl, decide_eq_decide.2 ((and_congr_left' hsuccess).trans ?_)⟩
      refine and_congr_right fun hknown => ?_
      rw [hputs hknown, Bool.false_or]
    rw [atomic_iff hexec, hset, setUsage_same, decide_eq_false_iff_not, Spoils]
    obtain ⟨hopen, hwritable, hhook⟩ : s.isOpen = true ∧ s.openReadonly = false ∧ hook = true := by
      simpa using hclosed
    rw [and_iff_right hopen, and_iff_right hwritable, and_iff_right hhook,
      and_iff_right Option.isSome_some]
    by_cases hedit : s.tags.openForEdit = true
    · rw [hedit]
      tauto
    · have hclosed : s.tags.openForEdit = false := Bool.eq_false_of_not_eq_true hedit
      tauto

/-- A call leaves the tree as it was when it is not open for edit or fails, except for those that
spoil it. -/
theorem exec_atomic_iff (h : Sound s) {c : Call} (hfits : Fits s c) :
    Atomic s c ↔ ¬ Spoils s c := by
  cases c with
  | addNode place usage failure => exact addNode_atomic_iff h hfits
  | renameNode n place failure => exact renameNode_atomic_iff h hfits
  | delete marked => exact iff_of_true (delete_atomic marked) not_false
  | addTag nid tagnam indexMemory infoMemory => exact addTag_atomic_iff h hfits
  | removeTag name => exact iff_of_true (removeTag_atomic name) not_false
  | setNci n hook read items written => exact setNci_atomic_iff
  | setSubtree n memory => exact iff_of_true (setSubtree_atomic n memory) not_false

end Calls

/-- A tree of its top node that is looked at. -/
def viewed : Session where
  isOpen := true
  openReadonly := false
  state := newTree
  externals := []
  tags := { TagRuns.newTables 14 with openForEdit := false }

theorem viewed_sound : Sound viewed := by
  have hkept := ParentStateRuns.kept_newTree
  exact ⟨⟨hkept.rooted, hkept.slot, hkept.free_lt, hkept.free_out, hkept.free_nodup⟩, rfl, nofun⟩

theorem usage_without_edit :
    Sound viewed ∧ Fits viewed (.setNci 0 true (some NodeDeletion.emptyNci) [.usage 5] true) ∧
      ¬ Atomic viewed (.setNci 0 true (some NodeDeletion.emptyNci) [.usage 5] true) := by
  refine ⟨viewed_sound, Or.inl rfl, fun hatomic => ?_⟩
  have hsame := hatomic _ rfl (Or.inl rfl)
  have husage : (5 : ℤ) = 11 := congrArg (fun t : Tree => t.usage 0) hsame.nodes.tree
  omega

/-- The same tree open for edit. -/
def edited : Session := { viewed with tags := TagRuns.newTables 14 }

/-- There is no memory for the block of the first tag, which is not entered in the index. -/
theorem exec_atomic_first : Atomic edited (.addTag 0 TagRuns.alpha true false) := by
  have hsound : Sound edited :=
    ⟨viewed_sound.placed, rfl, fun _ => TagRuns.newTables_consistent 14⟩
  have hfits : Fits edited (.addTag 0 TagRuns.alpha true false) := Or.inl rfl
  refine (exec_atomic_iff hsound hfits).2 fun hspoils => ?_
  obtain ⟨i, hi, -⟩ := hspoils.2.before
  exact Nat.not_lt_zero i hi

end MdsPlus.FailedCalls
