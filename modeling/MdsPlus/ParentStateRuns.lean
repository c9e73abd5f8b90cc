import MdsPlus.LinkWalk

/-!
Turning nodes on and off, adding and moving them keep the bit of every node: in a run of
any length it tells whether some ancestor is off.
-/

namespace MdsPlus.ParentStateRuns

open NodeTree ParentState TreeEdit LinkWalk Outcome

structure Kept (s : State) : Prop where
  rooted : s.tree.Rooted
  slot : ∀ n, s.tree.In n → n < s.nodes
  free_lt : ∀ n ∈ s.free, n < s.nodes
  free_out : ∀ n ∈ s.free, ¬ s.tree.In n
  free_nodup : s.free.Nodup
  consistent : Consistent s.tree s.nci

section Toggle

variable {t : Tree} {nci : ℕ → Flags}

theorem visits_kids (t : Tree) (n : ℕ) (state : Bool) (nci : ℕ → Flags) :
    ∃ visited, Visits t state (t.kids .child n ++ t.kids .member n) nci
      (setParentState t (t.kids .member n) state (setParentState t (t.kids .child n) state nci))
      visited := by
  obtain ⟨visited1, h1⟩ := exists_visits t (t.kids .child n) state nci
  obtain ⟨visited2, h2⟩ := exists_visits t (t.kids .member n) state
    (setParentState t (t.kids .child n) state nci)
  exact ⟨_, h1.append h2⟩

theorem mem_kids {n c : ℕ} :
    c ∈ t.kids .child n ++ t.kids .member n ↔ t.parent c = some n := by
  rw [List.mem_append]
  refine ⟨fun h => h.elim t.linked t.linked, fun h => ?_⟩
  obtain ⟨k, hk⟩ := t.listed h
  cases k with
  | child => exact Or.inl hk
  | member => exact Or.inr hk

theorem agrees_update {n m : ℕ} (state : Bool) (hm : t.parent m ≠ some n)
    (h : Agrees t nci m) :
    Agrees t (Function.update nci n { nci n with state := state }) m := by
  have hself : (Function.update nci n { nci n with state := state } m).parentState =
      (nci m).parentState := by
    by_cases hmn : m = n
    · rw [hmn, Function.update_self]
    · rw [Function.update_of_ne hmn]
  rw [Agrees] at h ⊢
  rw [hself, h]
  cases hparent : t.parent m with
  | none => rw [inherited_none hparent, inherited_none hparent]
  | some p =>
    have hpn : p ≠ n := by
      rintro rfl
      exact hm hparent
    rw [inherited_parent hparent, inherited_parent hparent, Function.update_of_ne hpn]

theorem consistent_toggle {n : ℕ} (h : Consistent t nci) (state : Bool)
    (hparentState : (nci n).parentState = false) :
    Consistent t (setParentState t (t.kids .member n) state (setParentState t (t.kids .child n)
      state (Function.update nci n { nci n with state := state }))) := by
  obtain ⟨visited, hvisits⟩ := visits_kids t n state
    (Function.update nci n { nci n with state := state })
  intro m hm
  by_cases hparent : t.parent m = some n
  · refine hvisits.agrees_kid (mem_kids.mpr hparent) hparent ?_
    rw [Function.update_self, hparentState, Bool.or_false]
  · exact hvisits.agrees (mt mem_kids.mp hparent) (agrees_update state hparent (h m hm))

theorem consistent_masked {n : ℕ} (h : Consistent t nci) (state : Bool)
    (hparentState : (nci n).parentState = true) :
    Consistent t (Function.update nci n { nci n with state := state }) := by
  intro m hm
  by_cases hparent : t.parent m = some n
  · have hagrees := h m hm
    rw [Agrees, inherited_parent hparent] at hagrees ⊢
    have hne : m ≠ n := Tree.parent_ne hparent
    rw [Function.update_of_ne hne, Function.update_self, hagrees, hparentState, Bool.or_true,
      Bool.or_true]
  · exact agrees_update state hparent (h m hm)

end Toggle

section Steps

variable {s : State}

theorem kept_nci {nci : ℕ → Flags} (h : Kept s) (hnci : Consistent s.tree nci) :
    Kept { s with nci } :=
  ⟨h.rooted, h.slot, h.free_lt, h.free_out, h.free_nodup, hnci⟩

theorem turnOn_kept (h : Kept s) (n : ℕ) : Kept (turnOn s n).1 := by
  rw [turnOn]
  by_cases hstate : (s.nci n).state = true
  · rw [if_pos hstate]
    by_cases hparentState : (s.nci n).parentState = true
    · rw [if_neg (by simpa using hparentState)]
      exact kept_nci h (consistent_masked h.consistent false hparentState)
    · rw [if_pos hparentState]
      exact kept_nci h (consistent_toggle h.consistent false (by simpa using hparentState))
  · rw [if_neg hstate]
    exact h

theorem turnOff_kept (h : Kept s) (n : ℕ) : Kept (turnOff s n).1 := by
  rw [turnOff]
  by_cases hstate : (s.nci n).state = true
  · rw [if_neg (by simpa using hstate)]
    exact h
  · rw [if_pos hstate]
    by_cases hparentState : (s.nci n).parentState = true
    · rw [if_neg (by simpa using hparentState)]
      exact kept_nci h (consistent_masked h.consistent true hparentState)
    · rw [if_pos hparentState]
      exact kept_nci h (consistent_toggle h.consistent true (by simpa using hparentState))

theorem treeExpandNodes_kept (h : Kept s) : Kept (treeExpandNodes s) where
  rooted := h.rooted
  slot n hn := by
    have hlt := h.slot n hn
    change n < s.nodes + EXTEND_NODES
    omega
  free_lt n hn := by
    change n < s.nodes + EXTEND_NODES
    rcases List.mem_append.mp hn with hold | hnew
    · have hlt := h.free_lt n hold
      omega
    · have hrange := List.mem_range'_1.mp hnew
      omega
  free_out n hn hin := by
    rcases List.mem_append.mp hn with hold | hnew
    · exact h.free_out n hold hin
    · have hrange := List.mem_range'_1.mp hnew
      have hlt := h.slot n hin
      omega
  free_nodup := by
    refine List.nodup_append.mpr ⟨h.free_nodup, List.nodup_range', ?_⟩
    rintro a ha b hb rfl
    have hrange := List.mem_range'_1.mp hb
    have hlt := h.free_lt a ha
    omega
  consistent := h.consistent

theorem treeNewNode_kept (h : Kept s) : Kept (treeNewNode s).1 ∧
    (treeNewNode s).2 < (treeNewNode s).1.nodes ∧ ¬ s.tree.In (treeNewNode s).2 ∧
    (treeNewNode s).2 ∉ (treeNewNode s).1.free ∧ (treeNewNode s).1.tree = s.tree ∧
    (treeNewNode s).1.nci = s.nci := by
  obtain ⟨s1, hs1⟩ : ∃ s1, s1 = if s.free = [] then treeExpandNodes s else s := ⟨_, rfl⟩
  have hnew : treeNewNode s = ({ s1 with free := s1.free.tail }, s1.free.headD 0) := by
    rw [treeNewNode, hs1]
  have hkept : Kept s1 ∧ s1.tree = s.tree ∧ s1.nci = s.nci ∧ s1.free ≠ [] := by
    rw [hs1]
    by_cases hfree : s.free = []
    · rw [if_pos hfree]
      refine ⟨treeExpandNodes_kept h, rfl, rfl, ?_⟩
      rw [treeExpandNodes, hfree]
      exact List.cons_ne_nil _ _
    · rw [if_neg hfree]
      exact ⟨h, rfl, rfl, hfree⟩
  obtain ⟨hkept, htree, hnci, hne⟩ := hkept
  obtain ⟨c, rest, hfree⟩ := List.exists_cons_of_ne_nil hne
  have hc : c ∈ s1.free := by
    rw [hfree]
    exact List.mem_cons_self
  have hnodup := hkept.free_nodup
  rw [hfree] at hnodup
  obtain ⟨hnotin, hrest⟩ := List.nodup_cons.mp hnodup
  rw [hnew, hfree]
  have hsub : ∀ n ∈ rest, n ∈ s1.free := by
    intro n hn
    rw [hfree]
    exact List.mem_cons_of_mem c hn
  refine ⟨⟨hkept.rooted, hkept.slot, fun n hn => hkept.free_lt n (hsub n hn),
    fun n hn => hkept.free_out n (hsub n hn), hrest, hkept.consistent⟩, hkept.free_lt c hc, ?_,
    hnotin, htree, hnci⟩
  rw [← htree]
  exact hkept.free_out c hc

theorem agrees_congr {t t' : Tree} {nci nci' : ℕ → Flags} {n : ℕ}
    (hparent : t'.parent n = t.parent n) (hself : nci' n = nci n)
    (habove : ∀ p, t.parent n = some p → nci' p = nci p) (h : Agrees t nci n) :
    Agrees t' nci' n := by
  rw [Agrees] at h ⊢
  rw [hself, h]
  cases hp : t.parent n with
  | none => rw [inherited_none hp, inherited_none (hparent.trans hp)]
  | some p =>
    rw [inherited_parent hp, inherited_parent (hparent.trans hp), habove p hp]

theorem addNewNode_kept (h : Kept s) {parent : ℕ} (hp : s.tree.In parent) (isChild : Bool)
    (name : Name) (usage : ℤ) :
    ∃ s', addNewNode s parent isChild name usage = .ok s' ∧ Kept s' := by
  obtain ⟨hkept, hlt, hout, hnotin, htree, hnci⟩ := treeNewNode_kept h
  obtain ⟨s1, hs1⟩ : ∃ s1, s1 = (treeNewNode s).1 := ⟨_, rfl⟩
  obtain ⟨c, hc⟩ : ∃ c, c = (treeNewNode s).2 := ⟨_, rfl⟩
  rw [← hs1] at hkept hlt hnotin htree hnci
  rw [← hc] at hlt hout hnotin
  have hnew : treeNewNode s = (s1, c) := by rw [hs1, hc]
  rw [← htree] at hp hout
  obtain ⟨k, hk⟩ : ∃ k, k = kindOf isChild usage := ⟨_, rfl⟩
  obtain ⟨t, ht⟩ : ∃ t : Tree, t = { s1.tree with
    name := Function.update s1.tree.name c (padName name)
    usage := Function.update s1.tree.usage c (usageOf k usage) } := ⟨_, rfl⟩
  have hparent : t.parent = s1.tree.parent := by rw [ht]
  have hIn : ∀ n, t.In n ↔ s1.tree.In n := fun n => by rw [Tree.In, Tree.In, hparent]
  have hrooted : t.Rooted := by
    intro x q hx
    rw [hparent] at hx
    exact (hIn q).mpr (hkept.rooted x q hx)
  have hnone : t.parent c = none := by
    rw [hparent]
    by_contra hsome
    exact hout (Or.inr (Option.ne_none_iff_exists'.mp hsome))
  have hfits : t.Fits parent c := ⟨hnone, fun hzero => hout (Or.inl hzero), fun hmem =>
    hout ((hIn c).mp (Tree.in_of_mem_lineage hrooted ((hIn parent).mpr hp) hmem))⟩
  have hinsert : addNewNode s parent isChild name usage =
      .ok { s1 with
        tree := t.attach (s1.sorts k) k parent c hfits
        conglomerateElt := Function.update s1.conglomerateElt c s1.conglomerateIndex
        nci := Function.update s1.nci c ⟨false, !isOn s1.nci parent⟩ } := by
    simp only [addNewNode, hnew, insertInto, ← hk, ← ht]
    rw [dif_pos hfits]
    rfl
  have hne : parent ≠ c := by
    rintro rfl
    exact hout hp
  have hIn' : ∀ n, n ≠ c → ((t.attach (s1.sorts k) k parent c hfits).In n ↔ s1.tree.In n) :=
    fun n hn => (Tree.in_attach hfits hn).trans (hIn n)
  refine ⟨_, hinsert, ⟨Tree.rooted_attach hfits ((hIn parent).mpr hp)
    (fun x q hx => Or.inr (hrooted x q hx)), fun n hn => ?_, hkept.free_lt, fun n hn hin => ?_,
    hkept.free_nodup, fun n hn => ?_⟩⟩
  · by_cases hnc : n = c
    · rw [hnc]
      exact hlt
    · exact hkept.slot n ((hIn' n hnc).mp hn)
  · have hnc : n ≠ c := by
      rintro rfl
      exact hnotin hn
    exact hkept.free_out n hn ((hIn' n hnc).mp hin)
  · by_cases hnc : n = c
    · subst hnc
      simp only [Agrees, inherited_parent (Tree.attach_parent_self hfits), Function.update_self,
        Function.update_of_ne hne, isOn, Bool.not_and, Bool.not_not]
    · have hparent' := (@Tree.attach_parent_of_ne t n parent c (s1.sorts k) k hfits hnc).trans
        (congrFun hparent n)
      refine agrees_congr hparent' (Function.update_of_ne hnc _ _) (fun p hnp => ?_)
        (hkept.consistent n ((hIn' n hnc).mp hn))
      refine Function.update_of_ne (fun hpc => ?_) _ _
      rw [hpc] at hnp
      exact hout (hkept.rooted n c hnp)

theorem treeAddNode_kept (h : Kept s) {place : Place} (hp : ∀ p, place.parent = some p → s.tree.In p)
    (usage : ℤ) : ∃ r, treeAddNode s place usage = .ok r ∧ Kept r.1 := by
  rw [treeAddNode]
  cases hparent : place.parent with
  | none => exact ⟨_, rfl, h⟩
  | some parent =>
    cases place.search with
    | found => exact ⟨_, rfl, h⟩
    | failed => exact ⟨_, rfl, h⟩
    | notFound =>
      obtain ⟨s1, hs1⟩ : ∃ s1, s1 = if s.conglomerateSize ≠ 0 then
        { s with conglomerateIndex := s.conglomerateIndex + 1 } else s := ⟨_, rfl⟩
      have hkept : Kept s1 ∧ s1.tree = s.tree := by
        rw [hs1]
        split
        · exact ⟨⟨h.rooted, h.slot, h.free_lt, h.free_out, h.free_nodup, h.consistent⟩, rfl⟩
        · exact ⟨h, rfl⟩
      simp only [← hs1]
      by_cases hfull : s1.conglomerateSize ≠ 0 ∧
          s1.conglomerateIndex.toInt > s1.conglomerateSize.toInt
      · rw [if_pos hfull]
        have hk := hkept.1
        exact ⟨_, rfl, ⟨hk.rooted, hk.slot, hk.free_lt, hk.free_out, hk.free_nodup, hk.consistent⟩⟩
      · rw [if_neg hfull]
        have hin : s1.tree.In parent := by
          rw [hkept.2]
          exact hp parent hparent
        obtain ⟨s', hadd, hs'⟩ := addNewNode_kept hkept.1 hin place.isChild place.name usage
        rw [hadd]
        exact ⟨_, rfl, hs'⟩

theorem mem_dropWhile_self {n : ℕ} {l : List ℕ} (h : n ∈ l) : n ∈ l.dropWhile fun x => x ≠ n := by
  induction l with
  | nil => exact h
  | cons x l ih =>
    by_cases hx : x = n
    · rw [List.dropWhile_cons_of_neg (by simpa using hx), hx]
      exact List.mem_cons_self
    · rw [List.dropWhile_cons_of_pos (by simpa using hx)]
      exact ih ((List.mem_cons.mp h).resolve_left (Ne.symm hx))

theorem fixParentState_consistent {parent n : ℕ} {brothers : List ℕ} {s : State}
    (hn : n ∈ brothers) (hbrothers : ∀ m ∈ brothers, s.tree.parent m = some parent)
    (h : ∀ m, m ≠ n → s.tree.In m → Agrees s.tree s.nci m) :
    Consistent s.tree (fixParentState s parent n brothers).nci := by
  intro m hm
  rw [fixParentState]
  by_cases hdiffer : (!(s.nci n).parentState) ≠ isOn s.nci parent
  · simp only [if_pos hdiffer]
    obtain ⟨visited, hvisits⟩ := exists_visits s.tree brothers (!isOn s.nci parent) s.nci
    by_cases hmem : m ∈ brothers
    · refine hvisits.agrees_kid hmem (hbrothers m hmem) ?_
      rw [isOn, Bool.not_and, Bool.not_not, Bool.not_not]
    · exact hvisits.agrees hmem (h m (fun heq => hmem (heq ▸ hn)) hm)
  · simp only [if_neg hdiffer]
    by_cases hmn : m = n
    · subst hmn
      rw [Agrees, inherited_parent (hbrothers m hn)]
      have hsame := not_not.mp hdiffer
      rw [isOn] at hsame
      rw [← Bool.not_not (s.nci m).parentState, hsame, Bool.not_and, Bool.not_not, Bool.not_not]
    · exact h m hmn hm

theorem insertInto_moved (h : Kept s) {n parent q : ℕ} (hq : s.tree.parent n = some q)
    (hp : s.tree.In parent) (hbelow : n ∉ s.tree.lineage parent) (k : Kind) (name : ℕ → Name) :
    ∃ s', insertInto { s with tree := { s.tree.detach n with name := name } } k parent n = .ok s' ∧
      s'.nci = s.nci ∧ s'.nodes = s.nodes ∧ s'.free = s.free ∧ n ∈ s'.tree.kids k parent ∧
      s'.tree.Rooted ∧ s'.tree.parent n = some parent ∧
      ∀ m, m ≠ n → s'.tree.parent m = s.tree.parent m := by
  obtain ⟨t, ht⟩ : ∃ t : Tree, t = { s.tree.detach n with name := name } := ⟨_, rfl⟩
  have hself : t.parent n = none := by
    rw [ht]
    exact Function.update_self _ _ _
  have hother : ∀ m, m ≠ n → t.parent m = s.tree.parent m := by
    intro m hm
    rw [ht]
    exact Function.update_of_ne hm _ _
  have hne : parent ≠ n := by
    rintro rfl
    exact hbelow (Tree.self_mem_lineage _ _)
  have hfits : t.Fits parent n := by
    refine ⟨hself, fun hzero => ?_, fun hmem => ?_⟩
    · rw [hzero, s.tree.top] at hq
      cases hq
    · refine hbelow (Tree.mem_lineage.mpr ((Tree.mem_lineage.mp hmem).imp_right fun hanc => ?_))
      rw [ht] at hanc
      exact Tree.ancestor_of_detach hanc
  have hin : ∀ m, m ≠ n → (t.In m ↔ s.tree.In m) := fun m hm => by
    rw [Tree.In, Tree.In, hother m hm]
  refine ⟨{ s with tree := t.attach (s.sorts k) k parent n hfits }, ?_, rfl, rfl, rfl, ?_, ?_,
    Tree.attach_parent_self hfits, fun m hm =>
      (Tree.attach_parent_of_ne hfits hm).trans (hother m hm)⟩
  · rw [← ht, insertInto, dif_pos hfits]
    rfl
  · exact Tree.mem_attached.mpr (Or.inr ⟨rfl, rfl, rfl⟩)
  · refine Tree.rooted_attach hfits ((hin parent hne).mpr hp) fun x y hx => ?_
    by_cases hyn : y = n
    · exact Or.inl hyn
    · refine Or.inr ((hin y hyn).mpr ?_)
      have hxn : x ≠ n := by
        rintro rfl
        rw [hself] at hx
        cases hx
      rw [hother x hxn] at hx
      exact h.rooted x y hx

theorem moveNode_kept (h : Kept s) {n parent q : ℕ} (hq : s.tree.parent n = some q)
    (hp : s.tree.In parent) (hbelow : n ∉ s.tree.lineage parent) (k : Kind) (name : Name) :
    ∃ s', moveNode s n parent k name = .ok s' ∧ Kept s' := by
  obtain ⟨s', hinsert, hnci, hnodes, hfree, hmem, hrooted, hself, hother⟩ :=
    insertInto_moved h hq hp hbelow k
      (Function.update (s.tree.detach n).name n (padName name))
  have hin : ∀ m, s'.tree.In m ↔ s.tree.In m := by
    intro m
    by_cases hm : m = n
    · subst hm
      exact ⟨fun _ => Tree.in_of_parent hq, fun _ => Tree.in_of_parent hself⟩
    · rw [Tree.In, Tree.In, hother m hm]
  have hagrees : ∀ m, m ≠ n → s'.tree.In m → Agrees s'.tree s'.nci m := by
    intro m hm hin'
    rw [hnci]
    exact agrees_congr (hother m hm) rfl (fun _ _ => rfl) (h.consistent m ((hin m).mp hin'))
  obtain ⟨brothers, hbrothers⟩ : ∃ brothers,
    brothers = (s'.tree.kids k parent).dropWhile fun x => x ≠ n := ⟨_, rfl⟩
  have hn : n ∈ brothers := by
    rw [hbrothers]
    exact mem_dropWhile_self hmem
  have hparent : ∀ m ∈ brothers, s'.tree.parent m = some parent := by
    intro m hm
    rw [hbrothers] at hm
    exact s'.tree.linked ((List.dropWhile_suffix _).subset hm)
  refine ⟨fixParentState s' parent n brothers, ?_, ?_⟩
  · simp only [moveNode, hinsert, hbrothers, bind, Except.bind]
  have hfix : ∀ s'', s'' = fixParentState s' parent n brothers → s''.tree = s'.tree ∧
      s''.nodes = s'.nodes ∧ s''.free = s'.free := by
    rintro _ rfl
    rw [fixParentState]
    split <;> exact ⟨rfl, rfl, rfl⟩
  obtain ⟨htree, hnodes', hfree'⟩ := hfix _ rfl
  refine ⟨?_, fun m hm => ?_, fun m hm => ?_, fun m hm hin' => ?_, ?_, ?_⟩
  · rw [htree]
    exact hrooted
  · rw [htree] at hm
    rw [hnodes', hnodes]
    exact h.slot m ((hin m).mp hm)
  · rw [hfree', hfree] at hm
    rw [hnodes', hnodes]
    exact h.free_lt m hm
  · rw [hfree', hfree] at hm
    rw [htree] at hin'
    exact h.free_out m hm ((hin m).mp hin')
  · rw [hfree', hfree]
    exact h.free_nodup
  · rw [htree]
    exact fixParentState_consistent hn hparent hagrees

theorem renameUnder_kept (h : Kept s) {n parent : ℕ} (hp : s.tree.In parent) (isChild : Bool)
    {name : Name} (hname : name.length ≤ maxRename) :
    ∃ r, renameUnder s n parent isChild name = .ok r ∧ Kept r.1 := by
  rw [renameUnder]
  by_cases hbelow : n ∈ s.tree.lineage parent
  · exact ⟨_, if_pos hbelow, h⟩
  rw [if_neg hbelow]
  by_cases husage : isChild ∧ s.tree.usage n ≠ TreeUSAGE_STRUCTURE
  · exact ⟨_, if_pos husage, h⟩
  rw [if_neg husage]
  by_cases htop : s.tree.parent n = none
  · exact ⟨_, if_pos htop, h⟩
  rw [if_neg htop, if_neg (Nat.not_lt.mpr hname)]
  obtain ⟨q, hq⟩ := Option.ne_none_iff_exists'.mp htop
  obtain ⟨s', hmove, hkept⟩ := moveNode_kept h hq hp hbelow
    (if isChild then .child else .member) name
  rw [hmove]
  exact ⟨_, rfl, hkept⟩

theorem treeRenameNode_kept (h : Kept s) {n : ℕ} {place : Place}
    (hp : ∀ p, place.parent = some p → s.tree.In p) (hname : place.name.length ≤ maxRename) :
    ∃ r, treeRenameNode s n place = .ok r ∧ Kept r.1 := by
  cases hsearch : place.search with
  | found => exact ⟨(s, .alreadyThere), by rw [treeRenameNode, hsearch], h⟩
  | notFound | failed =>
    rw [treeRenameNode, hsearch]
    cases hparent : place.parent with
    | none => exact ⟨_, rfl, h⟩
    | some parent => exact renameUnder_kept h (hp parent hparent) place.isChild hname

end Steps

/-- Calls that change a tree or the bits of its nodes. -/
inductive Op
  | turnOn (n : ℕ)
  | turnOff (n : ℕ)
  | addNode (place : Place) (usage : ℤ)
  | renameNode (n : ℕ) (place : Place)

def step (s : State) : Op → Except Fault State
  | .turnOn n => .ok (turnOn s n).1
  | .turnOff n => .ok (turnOff s n).1
  | .addNode place usage => (treeAddNode s place usage).map Prod.fst
  | .renameNode n place => (treeRenameNode s n place).map Prod.fst

/-- Nodes and places are in the tree, and no new name reaches past the parent link. -/
def Fine (s : State) : Op → Prop
  | .turnOn n => s.tree.In n
  | .turnOff n => s.tree.In n
  | .addNode place _ => ∀ p, place.parent = some p → s.tree.In p
  | .renameNode n place => s.tree.In n ∧ (∀ p, place.parent = some p → s.tree.In p) ∧
      place.name.length ≤ maxRename

theorem step_kept {s : State} (h : Kept s) {op : Op} (hfine : Fine s op) :
    ∃ s', step s op = .ok s' ∧ Kept s' := by
  cases op with
  | turnOn n => exact ⟨_, rfl, turnOn_kept h n⟩
  | turnOff n => exact ⟨_, rfl, turnOff_kept h n⟩
  | addNode place usage =>
    obtain ⟨r, hr, hkept⟩ := treeAddNode_kept h hfine usage
    exact ⟨r.1, by rw [step, hr]; rfl, hkept⟩
  | renameNode n place =>
    obtain ⟨r, hr, hkept⟩ := treeRenameNode_kept h (n := n) hfine.2.1 hfine.2.2
    exact ⟨r.1, by rw [step, hr]; rfl, hkept⟩

theorem Kept.parentState_iff {s : State} (h : Kept s) {n : ℕ} (hn : s.tree.In n) :
    (s.nci n).parentState = true ↔ ∃ a, s.tree.Ancestor a n ∧ (s.nci a).state = true :=
  ParentState.parentState_iff h.rooted h.consistent hn

theorem Kept.isOn_iff {s : State} (h : Kept s) {n : ℕ} (hn : s.tree.In n) :
    isOn s.nci n = true ↔
      (s.nci n).state = false ∧ ∀ a, s.tree.Ancestor a n → (s.nci a).state = false := by
  rw [isOn, Bool.and_eq_true, Bool.not_eq_true', Bool.not_eq_true']
  refine and_congr_right fun _ => ?_
  rw [← Bool.not_eq_true, h.parentState_iff hn]
  simp only [not_exists, not_and, Bool.not_eq_true]

/-- In every run whose calls are fine no fault comes up, and every node has the bit that
says an ancestor is off if and only if one is. -/
theorem parentState_run {s : State} {ops : List Op} (h : Kept s) (hfine : Admissible step Fine s ops) :
    ∃ s', run step s ops = .ok s' ∧ ∀ n, s'.tree.In n →
      ((s'.nci n).parentState = true ↔ ∃ a, s'.tree.Ancestor a n ∧ (s'.nci a).state = true) ∧
      (isOn s'.nci n = true ↔
        (s'.nci n).state = false ∧ ∀ a, s'.tree.Ancestor a n → (s'.nci a).state = false) := by
  obtain ⟨s', hrun, hkept⟩ :=
    run_succeeds Kept (fun _ _ hs hop => step_kept hs hop) s ops h hfine
  exact ⟨s', hrun, fun n hn => ⟨hkept.parentState_iff hn, hkept.isOn_iff hn⟩⟩

theorem kept_newTree : Kept newTree where
  rooted := nofun
  slot := by
    rintro n (rfl | ⟨p, hp⟩)
    · decide
    · cases hp
  free_lt := by decide
  free_out := by
    rintro n hn (rfl | ⟨p, hp⟩)
    · exact absurd hn (by decide)
    · cases hp
  free_nodup := by decide
  consistent _ _ := rfl

def underTop (isChild : Bool) (name : Name) : Place := ⟨.notFound, some 0, isChild, name⟩

theorem step_addTop {s : State} (h : Kept s) (c : ℕ) (rest : List ℕ) (hfree : s.free = c :: rest)
    (hsize : s.conglomerateSize = 0) (isChild : Bool) (name : Name) (usage : ℤ) :
    ∃ hfits : Tree.Fits { s.tree with
        name := Function.update s.tree.name c (padName name)
        usage := Function.update s.tree.usage c (usageOf (kindOf isChild usage) usage) } 0 c,
      step s (.addNode (underTop isChild name) usage) = .ok { s with
        free := rest
        tree := Tree.attach _ (s.sorts (kindOf isChild usage)) (kindOf isChild usage) 0 c hfits
        conglomerateElt := Function.update s.conglomerateElt c s.conglomerateIndex
        nci := Function.update s.nci c ⟨false, !isOn s.nci 0⟩ } := by
  have hout : ¬ s.tree.In c := h.free_out c (by rw [hfree]; exact List.mem_cons_self)
  have hc : c ≠ 0 := fun hzero => hout (Or.inl hzero)
  have hparent : s.tree.parent c = none := by
    by_contra hsome
    exact hout (Or.inr (Option.ne_none_iff_exists'.mp hsome))
  have hfits : Tree.Fits { s.tree with
      name := Function.update s.tree.name c (padName name)
      usage := Function.update s.tree.usage c (usageOf (kindOf isChild usage) usage) } 0 c := by
    refine ⟨hparent, hc, ?_⟩
    rw [Tree.lineage_top (Tree.top _), List.mem_singleton]
    exact hc
  have hnew : treeNewNode s = ({ s with free := rest }, c) := by
    rw [treeNewNode, if_neg (by rw [hfree]; exact List.cons_ne_nil _ _), hfree]
    rfl
  have hadd : treeAddNode s (underTop isChild name) usage =
      (addNewNode s 0 isChild name usage).map fun s => (s, .success) := by
    simp only [treeAddNode, underTop, hsize, ne_eq, not_true_eq_false, if_false, false_and]
  refine ⟨hfits, ?_⟩
  rw [step, hadd]
  simp only [addNewNode, hnew, insertInto]
  rw [dif_pos hfits]
  rfl

theorem fine_underTop (s : State) (isChild : Bool) (name : Name) (usage : ℤ) :
    Fine s (.addNode (underTop isChild name) usage) := by
  rintro p hp
  cases hp
  exact Or.inl rfl

theorem kept_addTop {s s' : State} (h : Kept s) {isChild : Bool} {name : Name} {usage : ℤ}
    (hstep : step s (.addNode (underTop isChild name) usage) = .ok s') : Kept s' := by
  obtain ⟨s1, hs1, hkept⟩ := step_kept h (fine_underTop s isChild name usage)
  rw [hstep] at hs1
  cases hs1
  exact hkept

def threeChildren : List Op :=
  [.addNode (underTop true [65]) 1, .addNode (underTop true [66]) 1, .addNode (underTop true [67]) 1]

theorem run_threeChildren : ∃ s, run step newTree threeChildren = .ok s ∧
    Admissible step Fine newTree threeChildren ∧
    (∀ n ∈ [1, 2, 3], s.tree.parent n = some 0 ∧ s.nci n = ⟨false, false⟩ ∧
      s.tree.usage n = TreeUSAGE_STRUCTURE ∧ ∀ k, s.tree.kids k n = []) ∧
    s.tree.name 1 = padName [65] ∧ s.tree.kids .child 0 = [1, 2, 3] ∧ s.nci 0 = ⟨false, false⟩ := by
  obtain ⟨hfits1, hstep1⟩ := step_addTop kept_newTree 1 (List.range' 2 12) rfl rfl
    true [65] 1
  have hkept1 := kept_addTop kept_newTree hstep1
  obtain ⟨hfits2, hstep2⟩ := step_addTop hkept1 2 (List.range' 3 11) rfl rfl
    true [66] 1
  have hkept2 := kept_addTop hkept1 hstep2
  obtain ⟨hfits3, hstep3⟩ := step_addTop hkept2 3 (List.range' 4 10) rfl rfl
    true [67] 1
  obtain ⟨s, hstep3, hs⟩ : ∃ s, step _ _ = .ok s ∧ s = _ := ⟨_, hstep3, rfl⟩
  have hrun : run step newTree threeChildren = .ok s := by
    simp only [threeChildren, run, hstep1, hstep2, hstep3, bind, Except.bind]
  refine ⟨s, hrun, ⟨fine_underTop _ _ _ _, fun s1 _ => ⟨fine_underTop _ _ _ _, fun s2 _ =>
    ⟨fine_underTop _ _ _ _, fun s3 _ => trivial⟩⟩⟩, ?_, by rw [hs]; rfl, by rw [hs]; rfl,
    by rw [hs]; rfl⟩
  rw [hs]
  intro n hn
  simp only [List.mem_cons, List.not_mem_nil, or_false] at hn
  rcases hn with rfl | rfl | rfl <;> exact ⟨rfl, rfl, rfl, fun k => by cases k <;> rfl⟩

def moveBelow : List Op := [.turnOff 1, .renameNode 2 ⟨.notFound, some 1, true, [66]⟩]

theorem parentState_run_moveBelow : ∃ s, run step newTree (threeChildren ++ moveBelow) = .ok s ∧
    ∀ n, s.tree.In n →
      ((s.nci n).parentState = true ↔ ∃ a, s.tree.Ancestor a n ∧ (s.nci a).state = true) ∧
      (isOn s.nci n = true ↔
        (s.nci n).state = false ∧ ∀ a, s.tree.Ancestor a n → (s.nci a).state = false) := by
  obtain ⟨s, hrun, hadm, hkids, _⟩ := run_threeChildren
  obtain ⟨hparent1, hnci1, -⟩ := hkids 1 (by decide)
  obtain ⟨hparent2, -⟩ := hkids 2 (by decide)
  refine parentState_run kept_newTree (admissible_append hadm fun s' hs' => ?_)
  rw [hrun] at hs'
  obtain rfl := Except.ok.inj hs'
  have htree : (turnOff s 1).1.tree = s.tree := by
    rw [turnOff, if_pos (by rw [hnci1]; decide), if_pos (by rw [hnci1]; decide)]
  refine ⟨Or.inr ⟨0, hparent1⟩, fun s1 hs1 => ⟨?_, fun _ _ => trivial⟩⟩
  cases hs1
  refine ⟨Or.inr ⟨0, by rw [htree]; exact hparent2⟩, ?_, by decide⟩
  rintro p hp
  cases hp
  exact Or.inr ⟨0, by rw [htree]; exact hparent1⟩

/-- Sixteen times A, and a character that makes a link to the node after the next. -/
def overlong : Name := List.replicate 16 65 ++ [72]

/-- A new name of seventeen characters runs over the link to the members: once A is turned
off, C beside it has the bit. -/
theorem parentState_run_overlong : ∃ s nci,
    run step newTree threeChildren = .ok s ∧
    step s (.renameNode 1 (underTop true overlong)) = .error .overrun ∧
    toggle (overrun s.tree 1 overlong) 4 true 1 s.nci = some nci ∧
    s.tree.In 3 ∧ (nci 3).parentState = true ∧
    ∀ a, s.tree.Ancestor a 3 → (nci a).state = false := by
  obtain ⟨s, hrun, -, hkids, hname, hchildren, hnci0⟩ := run_threeChildren
  obtain ⟨hparent1, hnci1, husage, hnone1⟩ := hkids 1 (by decide)
  obtain ⟨hparent3, hnci3, -, hnone3⟩ := hkids 3 (by decide)
  have hlineage : s.tree.lineage 0 = [0] := Tree.lineage_top s.tree.top
  have hrename : renameUnder s 1 0 true overlong = .error .overrun := by
    rw [renameUnder, hlineage, if_neg (by decide), if_neg (by rw [husage]; decide),
      if_neg (by rw [hparent1]; exact Option.some_ne_none 0), if_pos (by decide)]
  have hmember : (overrun s.tree 1 overlong).member 1 = some 3 := by
    rw [overrun_member, memberAfter, record, hname, hparent1, hnone1]
    decide +kernel
  have hmember3 : (overrun s.tree 1 overlong).member 3 = none := by
    rw [overrun_member_of_ne (by decide), hnone3]
    rfl
  have hchild1 : (overrun s.tree 1 overlong).child 1 = none := congrArg List.head? (hnone1 .child)
  have hchild3 : (overrun s.tree 1 overlong).child 3 = none := congrArg List.head? (hnone3 .child)
  have hbrother3 : (overrun s.tree 1 overlong).brother 3 = none :=
    brotherOf_append .child 0 [1, 2] [] hchildren
  refine ⟨s, Function.update (Function.update s.nci 1 ⟨true, false⟩) 3 ⟨false, true⟩, hrun, ?_, ?_,
    Or.inr ⟨0, hparent3⟩, rfl, fun a ha => ?_⟩
  · change (renameUnder s 1 0 true overlong).map Prod.fst = _
    rw [hrename]
    rfl
  · simp [toggle, walk, hmember, hchild1, hchild3, hmember3, hbrother3, hnci1, hnci3,
      setNodeParentState]
  · have htop : a ∈ s.tree.lineage 3 := Tree.mem_lineage.mpr (Or.inr ha)
    rw [Tree.lineage_parent hparent3, hlineage, List.mem_cons, List.mem_singleton] at htop
    rcases htop with rfl | rfl
    · rfl
    · change (s.nci 0).state = false
      rw [hnci0]

end MdsPlus.ParentStateRuns
