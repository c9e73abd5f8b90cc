import MdsPlus.NodeTree

/-!
Nodes that are off, and nodes below one that is off. The second bit is kept by walking
down from where it changes. A node is consistent when its bit is what its parent makes
it; a walk makes the nodes it starts from as given and keeps all others consistent.
-/

namespace MdsPlus.ParentState

open NodeTree

/-- The two bits, in negative logic as they are stored. -/
structure Flags where
  state : Bool
  parentState : Bool
  deriving DecidableEq

def setNodeParentState (nci : ℕ → Flags) (n : ℕ) (state : Bool) : ℕ → Flags :=
  Function.update nci n { nci n with parentState := state }

/-- One node of the walk, and what is below it unless it is off itself. -/
def visit (t : Tree) (state : Bool) (n : ℕ) (nci : ℕ → Flags) : ℕ → Flags :=
  let nci := setNodeParentState nci n state
  if (nci n).state then nci
  else
    let nci := (t.kids .child n).attach.foldl (fun nci c => visit t state c.1 nci) nci
    (t.kids .member n).attach.foldl (fun nci c => visit t state c.1 nci) nci
termination_by t.wellFounded_down.wrap n
decreasing_by all_goals exact t.linked c.2

def setParentState (t : Tree) (nodes : List ℕ) (state : Bool) (nci : ℕ → Flags) : ℕ → Flags :=
  nodes.foldl (fun nci n => visit t state n nci) nci

theorem visit_eq (t : Tree) (state : Bool) (n : ℕ) (nci : ℕ → Flags) :
    visit t state n nci =
      if (nci n).state then setNodeParentState nci n state
      else setParentState t (t.kids .member n) state
        (setParentState t (t.kids .child n) state (setNodeParentState nci n state)) := by
  have hstate : ((setNodeParentState nci n state) n).state = (nci n).state := by
    rw [setNodeParentState, Function.update_self]
  rw [visit]
  simp only [hstate, setParentState]
  rw [List.foldl_subtype (g := fun nci c => visit t state c nci) fun _ _ _ => rfl,
    List.foldl_subtype (g := fun nci c => visit t state c nci) fun _ _ _ => rfl,
    List.unattach_attach, List.unattach_attach]

/-- What a walk does: the nodes it came to have the bit as given, all others are as they
were. It comes to the nodes it starts from and goes down where a node is not off. -/
structure Visits (t : Tree) (state : Bool) (nodes : List ℕ) (nci nci' : ℕ → Flags)
    (visited : ℕ → Prop) : Prop where
  start : ∀ n ∈ nodes, visited n
  reached : ∀ n, visited n → n ∈ nodes ∨
    ∃ p, t.parent n = some p ∧ visited p ∧ (nci p).state = false
  below : ∀ n p, t.parent n = some p → visited p → (nci p).state = false → visited n
  changed : ∀ n, visited n → nci' n = { nci n with parentState := state }
  same : ∀ n, ¬ visited n → nci' n = nci n

namespace Visits

variable {t : Tree} {state : Bool} {nodes : List ℕ} {nci nci' : ℕ → Flags} {visited : ℕ → Prop}

theorem state_eq (h : Visits t state nodes nci nci' visited) (n : ℕ) :
    (nci' n).state = (nci n).state := by
  by_cases hn : visited n
  · rw [h.changed n hn]
  · rw [h.same n hn]

theorem nil (t : Tree) (state : Bool) (nci : ℕ → Flags) :
    Visits t state [] nci nci fun _ => False where
  start := nofun
  reached _ hn := hn.elim
  below _ _ _ hp := hp.elim
  changed _ hn := hn.elim
  same _ _ := rfl

theorem append {more : List ℕ} {nci'' : ℕ → Flags} {visited' : ℕ → Prop}
    (h : Visits t state nodes nci nci' visited) (h' : Visits t state more nci' nci'' visited') :
    Visits t state (nodes ++ more) nci nci'' fun n => visited n ∨ visited' n where
  start := by
    intro n hn
    exact (List.mem_append.mp hn).imp (h.start n) (h'.start n)
  reached := by
    rintro n (hn | hn)
    · rcases h.reached n hn with hmem | ⟨p, hparent, hp, hoff⟩
      · exact Or.inl (List.mem_append_left _ hmem)
      · exact Or.inr ⟨p, hparent, Or.inl hp, hoff⟩
    · rcases h'.reached n hn with hmem | ⟨p, hparent, hp, hoff⟩
      · exact Or.inl (List.mem_append_right _ hmem)
      · rw [h.state_eq] at hoff
        exact Or.inr ⟨p, hparent, Or.inr hp, hoff⟩
  below := by
    rintro n p hparent (hp | hp) hoff
    · exact Or.inl (h.below n p hparent hp hoff)
    · rw [← h.state_eq] at hoff
      exact Or.inr (h'.below n p hparent hp hoff)
  changed := by
    intro n hn
    by_cases hn' : visited' n
    · rw [h'.changed n hn']
      by_cases hfirst : visited n
      · rw [h.changed n hfirst]
      · rw [h.same n hfirst]
    · rw [h'.same n hn']
      exact h.changed n (hn.resolve_right hn')
  same := by
    intro n hn
    rw [not_or] at hn
    rw [h'.same n hn.2, h.same n hn.1]

end Visits

theorem visits_setParentState {t : Tree} {state : Bool} (nodes : List ℕ)
    (hone : ∀ n ∈ nodes, ∀ nci, ∃ visited, Visits t state [n] nci (visit t state n nci) visited)
    (nci : ℕ → Flags) :
    ∃ visited, Visits t state nodes nci (setParentState t nodes state nci) visited := by
  induction nodes generalizing nci with
  | nil => exact ⟨_, Visits.nil t state nci⟩
  | cons n l ih =>
    obtain ⟨first, hfirst⟩ := hone n List.mem_cons_self nci
    obtain ⟨rest, hrest⟩ := ih (fun m hm => hone m (List.mem_cons_of_mem n hm))
      (visit t state n nci)
    exact ⟨_, hfirst.append hrest⟩

theorem visits_visit (t : Tree) (state : Bool) (n : ℕ) (nci : ℕ → Flags) :
    ∃ visited, Visits t state [n] nci (visit t state n nci) visited := by
  induction n using t.wellFounded_down.induction generalizing nci with
  | _ n ih =>
    rw [visit_eq]
    by_cases hoff : (nci n).state = true
    · rw [if_pos hoff]
      refine ⟨fun m => m = n, fun m hm => List.mem_singleton.mp hm, fun m hm =>
        Or.inl (List.mem_singleton.mpr hm), fun m p _ hp hon => ?_, fun m hm => ?_, fun m hm => ?_⟩
      · subst hp
        rw [hoff] at hon
        cases hon
      · subst hm
        rw [setNodeParentState, Function.update_self]
      · rw [setNodeParentState, Function.update_of_ne hm]
    · rw [if_neg hoff]
      obtain ⟨nci1, hnci1⟩ : ∃ nci1, nci1 = setNodeParentState nci n state := ⟨_, rfl⟩
      have hself : nci1 n = { nci n with parentState := state } := by
        rw [hnci1, setNodeParentState, Function.update_self]
      have hother : ∀ m, m ≠ n → nci1 m = nci m := by
        intro m hm
        rw [hnci1, setNodeParentState, Function.update_of_ne hm]
      have hstate : ∀ m, (nci1 m).state = (nci m).state := by
        intro m
        by_cases hm : m = n
        · rw [hm, hself]
        · rw [hother m hm]
      rw [← hnci1]
      obtain ⟨visited1, h1⟩ := visits_setParentState (t.kids .child n)
        (fun c hc nci => ih c (t.linked hc) nci) nci1
      obtain ⟨visited2, h2⟩ := visits_setParentState (t.kids .member n)
        (fun c hc nci => ih c (t.linked hc) nci)
        (setParentState t (t.kids .child n) state nci1)
      have h := h1.append h2
      refine ⟨fun m => m = n ∨ visited1 m ∨ visited2 m, fun m hm =>
        Or.inl (List.mem_singleton.mp hm), fun m hm => ?_, fun m p hparent hp hon => ?_,
        fun m hm => ?_, fun m hm => ?_⟩
      · rcases hm with rfl | hm
        · exact Or.inl (List.mem_singleton_self m)
        · refine Or.inr ?_
          rcases h.reached m hm with hmem | ⟨p, hparent, hp, hon⟩
          · refine ⟨n, ?_, Or.inl rfl, by simpa using hoff⟩
            rcases List.mem_append.mp hmem with hc | hc
            · exact t.linked hc
            · exact t.linked hc
          · rw [hstate] at hon
            exact ⟨p, hparent, Or.inr hp, hon⟩
      · refine Or.inr ?_
        rcases hp with rfl | hp
        · -- a kid of the node itself
          obtain ⟨k, hk⟩ := t.listed hparent
          cases k with
          | child => exact h.start m (List.mem_append_left _ hk)
          | member => exact h.start m (List.mem_append_right _ hk)
        · rw [← hstate] at hon
          exact h.below m p hparent hp hon
      · by_cases hvisited : visited1 m ∨ visited2 m
        · rw [h.changed m hvisited]
          by_cases hmn : m = n
          · rw [hmn, hself]
          · rw [hother m hmn]
        · obtain rfl := hm.resolve_right hvisited
          rw [h.same m hvisited, hself]
      · rw [not_or] at hm
        rw [h.same m hm.2, hother m hm.1]

theorem exists_visits (t : Tree) (nodes : List ℕ) (state : Bool) (nci : ℕ → Flags) :
    ∃ visited, Visits t state nodes nci (setParentState t nodes state nci) visited :=
  visits_setParentState nodes (fun n _ nci => visits_visit t state n nci) nci

def inherited (t : Tree) (nci : ℕ → Flags) (n : ℕ) : Bool :=
  match t.parent n with
  | none => false
  | some p => (nci p).state || (nci p).parentState

theorem inherited_parent {t : Tree} {nci : ℕ → Flags} {n p : ℕ} (h : t.parent n = some p) :
    inherited t nci n = ((nci p).state || (nci p).parentState) := by
  rw [inherited, h]

theorem inherited_none {t : Tree} {nci : ℕ → Flags} {n : ℕ} (h : t.parent n = none) :
    inherited t nci n = false := by
  rw [inherited, h]

/-- The bit of a node is what its parent makes it. -/
def Agrees (t : Tree) (nci : ℕ → Flags) (n : ℕ) : Prop :=
  (nci n).parentState = inherited t nci n

def Consistent (t : Tree) (nci : ℕ → Flags) : Prop := ∀ n, t.In n → Agrees t nci n

section Walk

variable {t : Tree} {state : Bool} {nodes : List ℕ} {nci nci' : ℕ → Flags} {visited : ℕ → Prop}

theorem Visits.agrees (h : Visits t state nodes nci nci' visited) {n : ℕ} (hn : n ∉ nodes)
    (hagrees : Agrees t nci n) : Agrees t nci' n := by
  rw [Agrees] at hagrees ⊢
  cases hparent : t.parent n with
  | none =>
    have hnot : ¬ visited n := by
      intro hvisited
      rcases h.reached n hvisited with hmem | ⟨p, hp, _⟩
      · exact hn hmem
      · rw [hparent] at hp
        cases hp
    rw [inherited_none hparent] at hagrees ⊢
    rw [h.same n hnot]
    exact hagrees
  | some p =>
    rw [inherited_parent hparent] at hagrees ⊢
    by_cases hvisited : visited n
    · rcases h.reached n hvisited with hmem | ⟨q, hq, hvq, hon⟩
      · exact absurd hmem hn
      · rw [hparent] at hq
        cases hq
        rw [h.changed n hvisited, h.changed p hvq, hon, Bool.false_or]
    · rw [h.same n hvisited, hagrees]
      by_cases hvp : visited p
      · -- the walk did not go down from the parent: it is off
        have hoff : (nci p).state = true := by
          by_contra hon
          exact hvisited (h.below n p hparent hvp (by simpa using hon))
        rw [h.changed p hvp, hoff, Bool.true_or, Bool.true_or]
      · rw [h.same p hvp]

theorem Visits.parentState_start (h : Visits t state nodes nci nci' visited) {n : ℕ}
    (hn : n ∈ nodes) : (nci' n).parentState = state := by
  rw [h.changed n (h.start n hn)]

theorem Visits.agrees_kid (h : Visits t state nodes nci nci' visited) {n p : ℕ}
    (hn : n ∈ nodes) (hparent : t.parent n = some p)
    (hstate : state = ((nci p).state || (nci p).parentState)) : Agrees t nci' n := by
  rw [Agrees, inherited_parent hparent, h.parentState_start hn]
  by_cases hvp : visited p
  · rw [h.changed p hvp]
    cases hp : (nci p).state with
    | true =>
      rw [hp, Bool.true_or] at hstate
      rw [hstate, Bool.true_or]
    | false => rw [Bool.false_or]
  · rw [h.same p hvp]
    exact hstate

end Walk

section Global

variable {t : Tree} {nci : ℕ → Flags}

theorem parentState_iff (hrooted : t.Rooted) (h : Consistent t nci) {n : ℕ} (hn : t.In n) :
    (nci n).parentState = true ↔ ∃ a, t.Ancestor a n ∧ (nci a).state = true := by
  induction n using t.wellFounded_up.induction with
  | _ n ih =>
    rw [h n hn]
    cases hparent : t.parent n with
    | none =>
      rw [inherited_none hparent]
      refine ⟨nofun, ?_⟩
      rintro ⟨a, hanc, _⟩
      obtain ⟨b, _, hb⟩ := Relation.TransGen.tail'_iff.mp hanc
      rw [hparent] at hb
      cases hb
    | some p =>
      rw [inherited_parent hparent, Bool.or_eq_true, ih p hparent (hrooted n p hparent)]
      constructor
      · rintro (hoff | ⟨a, hanc, hoff⟩)
        · exact ⟨p, .single hparent, hoff⟩
        · exact ⟨a, .tail hanc hparent, hoff⟩
      · rintro ⟨a, hanc, hoff⟩
        obtain ⟨b, hab, hb⟩ := Relation.TransGen.tail'_iff.mp hanc
        rw [hparent] at hb
        cases hb
        rcases Relation.reflTransGen_iff_eq_or_transGen.mp hab with heq | htrans
        · exact Or.inl (heq ▸ hoff)
        · exact Or.inr ⟨a, htrans, hoff⟩

end Global

end MdsPlus.ParentState
