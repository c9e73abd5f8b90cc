import Mathlib.Data.List.Perm.Subperm
import MdsPlus.LinkedLists
import MdsPlus.TreeEdit

/-!
The free nodes of a tree, linked both ways in the fields for parent and child. A new node is the
first; when the nodes are expanded the new ones come behind the last. A conglomerate is begun by
looking for nodes with consecutive numbers, which are taken out of the list and put before the
others.
-/

namespace MdsPlus.FreeNodes

open LinkedLists TreeEdit

structure FreeLinks where
  nodes : ℕ
  free : Option ℕ
  parent : ℕ → Option ℕ
  child : ℕ → Option ℕ

/-- Along parents to the last node; `none` when they do not end. -/
def lastFree (parent : ℕ → Option ℕ) : ℕ → ℕ → Option ℕ
  | 0, _ => none
  | fuel + 1, n =>
      match parent n with
      | some next => lastFree parent fuel next
      | none => some n

def newParent (f : FreeLinks) (n : ℕ) : Option ℕ :=
  if f.nodes ≤ n ∧ n < f.nodes + EXTEND_NODES then
    if n + 1 < f.nodes + EXTEND_NODES then some (n + 1) else none
  else f.parent n

def newChild (f : FreeLinks) (n : ℕ) : Option ℕ :=
  if f.nodes ≤ n ∧ n < f.nodes + EXTEND_NODES then some (n - 1) else f.child n

def treeExpandNodes (f : FreeLinks) : Option FreeLinks :=
  match f.free with
  | none => some
      { nodes := f.nodes + EXTEND_NODES
        free := some f.nodes
        parent := newParent f
        child := Function.update (newChild f) f.nodes none }
  | some first => (lastFree (newParent f) f.nodes first).map fun last =>
      { nodes := f.nodes + EXTEND_NODES
        free := some first
        parent := Function.update (newParent f) last (some f.nodes)
        child := Function.update (newChild f) f.nodes (some last) }

/-- The first free node is taken, and its record is cleared. -/
def takeFirst (f : FreeLinks) (n : ℕ) : FreeLinks :=
  match f.parent n with
  | some next =>
      { f with
        free := some next
        parent := Function.update f.parent n none
        child := Function.update (Function.update f.child next none) n none }
  | none =>
      { f with
        free := none
        parent := Function.update f.parent n none
        child := Function.update f.child n none }

def treeNewNode (f : FreeLinks) : Option (FreeLinks × ℕ) :=
  match f.free with
  | some n => some (takeFirst f n, n)
  | none => (treeExpandNodes f).bind fun f => f.free.map fun n => (takeFirst f n, n)

/-! ### Beginning a conglomerate -/

/-- The loop that looks for nodes with consecutive numbers: how many neighbours were met in turn,
the node that is looked at, and the one at which the count began. -/
def scan (size : ℤ) : ℕ → FreeLinks → ℕ → ℕ → Option ℕ → Option (FreeLinks × ℕ × Option ℕ)
  | fuel, f, i, this, starting =>
      if ¬ (i : ℤ) < size - 1 then some (f, this, starting)
      else
        match fuel with
        | 0 => none
        | fuel + 1 =>
            let starting := if i = 0 then some this else starting
            match f.parent this with
            | some next => scan size fuel f (if next = this + 1 then i + 1 else 0) next starting
            | none => (treeExpandNodes f).bind fun f => scan size fuel f i this starting

def moveToFront (f : FreeLinks) (starting this : ℕ) : FreeLinks :=
  match f.child starting, f.free with
  | some before, some first =>
      let f : FreeLinks :=
        match f.parent this with
        | some behind =>
            { f with
              parent := Function.update f.parent before (some behind)
              child := Function.update f.child behind (some before) }
        | none => { f with parent := Function.update f.parent before none }
      { f with
        free := some starting
        parent := Function.update f.parent this (some first)
        child := Function.update (Function.update f.child first (some this)) starting none }
  | _, _ => f

inductive Status
  | success | bufferOverflow | noEdit
  deriving DecidableEq, Repr

def treeStartConglomerate (fuel : ℕ) (openForEdit : Bool) (f : FreeLinks) (size : ℤ) :
    Option (FreeLinks × Status) :=
  if 32767 < size then some (f, .bufferOverflow)
  else if ¬ openForEdit then some (f, .noEdit)
  else
    (if f.free = none then treeExpandNodes f else some f).bind fun f =>
      f.free.bind fun this =>
        (scan size fuel f 0 this none).map fun (f, this, starting) =>
          (match starting with
            | some starting => moveToFront f starting this
            | none => f, .success)

/-! ### The list of the free nodes -/

structure Holds (f : FreeLinks) (l : List ℕ) : Prop where
  linked : ∃ last, Linked f.parent f.child none f.free l last none
  nodup : l.Nodup
  bounded : ∀ n ∈ l, n < f.nodes

variable {f : FreeLinks} {l before behind : List ℕ} {n : ℕ}

theorem Holds.free_eq (h : Holds f l) : f.free = l.head? := by
  obtain ⟨last, hlinked⟩ := h.linked
  exact hlinked.first_eq

theorem Holds.links (h : Holds f (before ++ n :: behind)) :
    f.parent n = behind.head? ∧ f.child n = before.getLast? := by
  obtain ⟨last, hlinked⟩ := h.linked
  exact hlinked.links

theorem Holds.length_le (h : Holds f l) : l.length ≤ f.nodes := by
  have hsub : l ⊆ List.range f.nodes := fun n hn => List.mem_range.2 (h.bounded n hn)
  have hlength := (List.subperm_of_subset h.nodup hsub).length_le
  rwa [List.length_range] at hlength

theorem lastFree_eq {parent child : ℕ → Option ℕ} {first last : Option ℕ}
    (h : Linked parent child first (some n) l last none) {fuel : ℕ} (hfuel : l.length ≤ fuel) :
    lastFree parent fuel n = last := by
  induction l generalizing n first fuel with
  | nil => cases h.1
  | cons a l ih =>
    obtain ⟨ha, -, hrest⟩ := h
    obtain rfl := Option.some.inj ha
    rw [List.length_cons] at hfuel
    obtain ⟨fuel, rfl⟩ : ∃ k, fuel = k + 1 := ⟨fuel - 1, by omega⟩
    rw [lastFree]
    cases l with
    | nil =>
      rw [hrest.1, hrest.2]
    | cons b l =>
      have hb : parent n = some b := hrest.1
      rw [hb] at hrest ⊢
      exact ih hrest (by omega)

theorem linked_range {next previous : ℕ → Option ℕ} {first after : Option ℕ} (start k : ℕ)
    (hnext : ∀ i, start ≤ i → i < start + (k + 1) →
      next i = if i + 1 < start + (k + 1) then some (i + 1) else after)
    (hfirst : previous start = first)
    (hprev : ∀ i, start < i → i < start + (k + 1) → previous i = some (i - 1)) :
    Linked next previous first (some start) (List.range' start (k + 1)) (some (start + k))
      after := by
  induction k generalizing start first with
  | zero =>
    refine ⟨rfl, hfirst, ?_⟩
    rw [hnext start (Nat.le_refl _) (by omega), if_neg (by omega)]
    exact ⟨rfl, rfl⟩
  | succ k ih =>
    rw [List.range'_succ]
    refine ⟨rfl, hfirst, ?_⟩
    rw [hnext start (Nat.le_refl _) (by omega), if_pos (by omega)]
    have hrest := ih (start + 1) (fun i hi hlt => ?_) (hprev (start + 1) (by omega) (by omega))
      (fun i hi hlt => hprev i (by omega) (by omega))
    · rwa [show start + 1 + k = start + (k + 1) by omega] at hrest
    · rw [hnext i (by omega) (by omega)]
      congr 2
      omega

theorem newParent_old (h : n < f.nodes) : newParent f n = f.parent n :=
  if_neg fun hnew => absurd hnew.1 (Nat.not_le.2 h)

theorem newChild_old (h : n < f.nodes) : newChild f n = f.child n :=
  if_neg fun hnew => absurd hnew.1 (Nat.not_le.2 h)

theorem linked_new {parent child : ℕ → Option ℕ} {first : Option ℕ}
    (hparent : ∀ i, f.nodes ≤ i → parent i = newParent f i)
    (hchild : ∀ i, f.nodes < i → child i = newChild f i) (hfirst : child f.nodes = first) :
    Linked parent child first (some f.nodes) (List.range' f.nodes EXTEND_NODES)
      (some (f.nodes + 511)) none := by
  refine linked_range f.nodes 511 (fun i hi hlt => ?_) hfirst (fun i hi hlt => ?_)
  · rw [hparent i hi, newParent, if_pos ⟨hi, hlt⟩]
    rfl
  · rw [hchild i hi, newChild, if_pos ⟨Nat.le_of_lt hi, hlt⟩]

theorem nodup_expanded (hl : l.Nodup) (hbound : ∀ n ∈ l, n < f.nodes) :
    (l ++ List.range' f.nodes EXTEND_NODES).Nodup ∧
      ∀ n ∈ l ++ List.range' f.nodes EXTEND_NODES, n < f.nodes + EXTEND_NODES := by
  constructor
  · refine List.nodup_append'.2 ⟨hl, List.nodup_range', fun n hn hnew => ?_⟩
    exact absurd (List.mem_range'_1.1 hnew).1 (Nat.not_le.2 (hbound n hn))
  · intro n hn
    rcases List.mem_append.1 hn with hn | hn
    · exact Nat.lt_of_lt_of_le (hbound n hn) (Nat.le_add_right _ _)
    · exact (List.mem_range'_1.1 hn).2

theorem Holds.expand (h : Holds f l) :
    ∃ f', treeExpandNodes f = some f' ∧ f'.nodes = f.nodes + EXTEND_NODES ∧
      Holds f' (l ++ List.range' f.nodes EXTEND_NODES) := by
  obtain ⟨hnodup, hbounded⟩ := nodup_expanded h.nodup h.bounded
  obtain ⟨last, hlinked⟩ := h.linked
  cases l with
  | nil =>
    have hfree : f.free = none := hlinked.1
    rw [treeExpandNodes, hfree]
    refine ⟨_, rfl, rfl, ⟨some (f.nodes + 511), ?_⟩, hnodup, hbounded⟩
    exact linked_new (fun _ _ => rfl) (fun i hi => Function.update_of_ne (Nat.ne_of_gt hi) ..)
      (Function.update_self ..)
  | cons a l =>
    obtain ⟨x, hx, rfl⟩ := hlinked.exists_last (List.cons_ne_nil a l)
    have hfree : f.free = some a := hlinked.1
    have hold : Linked (newParent f) (newChild f) none (some a) (a :: l) (some x) none := by
      rw [hfree] at hlinked
      exact hlinked.congr (fun n hn => newParent_old (h.bounded n hn))
        fun n hn => newChild_old (h.bounded n hn)
    have hlast : lastFree (newParent f) f.nodes a = some x := lastFree_eq hold h.length_le
    rw [treeExpandNodes, hfree]
    dsimp only
    rw [hlast]
    refine ⟨_, rfl, rfl, ⟨some (f.nodes + 511), ?_⟩, hnodup, hbounded⟩
    have hne : ∀ n ∈ a :: l, n ≠ f.nodes := fun n hn => Nat.ne_of_lt (h.bounded n hn)
    refine linked_append.2 ⟨some x, some f.nodes, ?_, ?_⟩
    · refine hold.relink (List.cons_ne_nil a l) h.nodup (fun n _ hn => ?_) (fun n _ hn => ?_)
        (fun n hn _ => ?_) (fun n hn hfirst => ?_)
      · exact Function.update_of_ne (fun heq => hn (congrArg some heq)) ..
      · rw [Option.some.inj hn]
        exact Function.update_self ..
      · exact Function.update_of_ne (hne n hn) ..
      · obtain rfl := Option.some.inj hfirst
        exact (Function.update_of_ne (hne n hn) ..).trans hold.2.1
    · refine linked_new (fun i hi => Function.update_of_ne ?_ ..)
        (fun i hi => Function.update_of_ne (Nat.ne_of_gt hi) ..) (Function.update_self ..)
      exact Nat.ne_of_gt (Nat.lt_of_lt_of_le (h.bounded x hx) hi)

theorem Holds.takeFirst (h : Holds f (n :: l)) : Holds (takeFirst f n) l := by
  obtain ⟨last, hlinked⟩ := h.linked
  obtain ⟨hn, hl⟩ := List.nodup_cons.1 h.nodup
  have hne : ∀ m ∈ l, m ≠ n := by
    rintro m hm rfl
    exact hn hm
  have hpop := hlinked.popFront hl
  rw [FreeNodes.takeFirst]
  cases hnext : f.parent n with
  | none =>
    rw [hnext] at hpop
    refine ⟨⟨none, hpop.congr (fun m hm => ?_) (fun m hm => ?_)⟩, hl,
      fun m hm => h.bounded m (List.mem_cons_of_mem n hm)⟩
    · exact Function.update_of_ne (hne m hm) ..
    · exact Function.update_of_ne (hne m hm) ..
  | some next =>
    rw [hnext] at hpop
    refine ⟨⟨last, hpop.congr (fun m hm => ?_) (fun m hm => ?_)⟩, hl,
      fun m hm => h.bounded m (List.mem_cons_of_mem n hm)⟩
    · exact Function.update_of_ne (hne m hm) ..
    · exact Function.update_of_ne (hne m hm) ..

theorem takeFirst_nodes (f : FreeLinks) (n : ℕ) : (FreeNodes.takeFirst f n).nodes = f.nodes := by
  rw [FreeNodes.takeFirst]
  split <;> rfl

theorem moveToFront_eq {starting this first last : ℕ} {next : Option ℕ}
    (hchild : f.child starting = some last) (hfree : f.free = some first)
    (hparent : f.parent this = next) :
    FreeNodes.moveToFront f starting this =
      { nodes := f.nodes
        free := some starting
        parent := Function.update (Function.update f.parent last next) this (some first)
        child := Function.update (Function.update
          (next.elim f.child fun behind => Function.update f.child behind (some last)) first
          (some this)) starting none } := by
  rw [FreeNodes.moveToFront, hchild, hfree]
  subst hparent
  cases f.parent this <;> rfl

theorem moveToFront_nodes (f : FreeLinks) (starting this : ℕ) :
    (FreeNodes.moveToFront f starting this).nodes = f.nodes := by
  rw [FreeNodes.moveToFront]
  split
  · split <;> rfl
  · rfl

theorem Holds.moveToFront {run : List ℕ} {starting this : ℕ}
    (h : Holds f (before ++ (run ++ behind))) (hbefore : before ≠ [])
    (hstarting : run.head? = some starting) (hthis : run.getLast? = some this) :
    Holds (FreeNodes.moveToFront f starting this) (run ++ (before ++ behind)) := by
  have hperm : (run ++ (before ++ behind)).Perm (before ++ (run ++ behind)) :=
    (List.perm_append_comm_assoc before run behind).symm
  have hrun : run ≠ [] := by
    rintro rfl
    cases hstarting
  -- the three parts have no node in common
  obtain ⟨hnodup_before, hnodup_rest, hdisjoint⟩ := List.nodup_append'.1 h.nodup
  obtain ⟨hnodup_run, hnodup_behind, hdisjoint'⟩ := List.nodup_append'.1 hnodup_rest
  have hbr : ∀ {m n}, m ∈ before → n ∈ run → m ≠ n := by
    rintro m n hm hn rfl
    exact hdisjoint hm (List.mem_append_left behind hn)
  have hbb : ∀ {m n}, m ∈ before → n ∈ behind → m ≠ n := by
    rintro m n hm hn rfl
    exact hdisjoint hm (List.mem_append_right run hn)
  have hrb : ∀ {m n}, m ∈ run → n ∈ behind → m ≠ n := by
    rintro m n hm hn rfl
    exact hdisjoint' hm hn
  have hs : starting ∈ run := List.mem_of_head? hstarting
  have ht : this ∈ run := List.mem_of_getLast? hthis
  -- the links between the parts
  obtain ⟨first, hfirst⟩ : ∃ first, before.head? = some first :=
    Option.isSome_iff_exists.1 (List.isSome_head?.2 hbefore)
  obtain ⟨p, hp⟩ : ∃ p, before.getLast? = some p :=
    ⟨_, List.getLast?_eq_some_getLast hbefore⟩
  have hf : first ∈ before := List.mem_of_head? hfirst
  have hpb : p ∈ before := List.mem_of_getLast? hp
  obtain ⟨last, hlinked⟩ := h.linked
  obtain ⟨y, z, hb, hrest⟩ := linked_append.1 hlinked
  obtain ⟨y', z', hr, hbehind⟩ := linked_append.1 hrest
  obtain ⟨hfree, -⟩ := hb.head hfirst
  obtain ⟨rfl, -⟩ := hb.getLast hp
  obtain ⟨rfl, hchild⟩ := hr.head hstarting
  obtain ⟨rfl, hparent⟩ := hr.getLast hthis
  have hnot_behind : ∀ {n}, n ∈ before ∨ n ∈ run → n ∉ behind := by
    rintro n (hn | hn) hmem
    · exact hbb hn hmem rfl
    · exact hrb hn hmem rfl
  have hchild_old : ∀ n ∉ behind, (z'.elim f.child fun behind =>
      Function.update f.child behind (some p)) n = f.child n := by
    intro n hn
    rw [hbehind.first_eq]
    cases behind with
    | nil => rfl
    | cons q behind =>
      have hq : n ≠ q := by
        rintro rfl
        exact hn List.mem_cons_self
      exact Function.update_of_ne hq ..
  have hthird : ∃ last, Linked (Function.update (Function.update f.parent p z') this (some first))
      (Function.update (Function.update (z'.elim f.child fun behind =>
        Function.update f.child behind (some p)) first (some this)) starting none)
      (some p) z' behind last none := by
    have hparent_old : ∀ n ∈ behind, Function.update (Function.update f.parent p z') this
        (some first) n = f.parent n := by
      intro n hn
      rw [Function.update_of_ne (hrb ht hn).symm, Function.update_of_ne (hbb hpb hn).symm]
    have hchild_other : ∀ n ∈ behind, ∀ child : ℕ → Option ℕ,
        Function.update (Function.update child first (some this)) starting none n = child n := by
      intro n hn child
      rw [Function.update_of_ne (hrb hs hn).symm, Function.update_of_ne (hbb hf hn).symm]
    cases behind with
    | nil => exact ⟨some p, hbehind.1, rfl⟩
    | cons q behind =>
      obtain ⟨rfl, hq, hrest'⟩ := hbehind
      refine ⟨last, rfl, (hchild_other q List.mem_cons_self _).trans (Function.update_self ..), ?_⟩
      rw [hparent_old q List.mem_cons_self]
      refine hrest'.congr (fun n hn => hparent_old n (List.mem_cons_of_mem q hn)) fun n hn => ?_
      have hne : n ≠ q := by
        rintro rfl
        exact (List.nodup_cons.1 hnodup_behind).1 hn
      exact (hchild_other n (List.mem_cons_of_mem q hn) _).trans (Function.update_of_ne hne ..)
  obtain ⟨last, hthird⟩ := hthird
  rw [moveToFront_eq hchild hfree hparent]
  refine ⟨⟨last, ?_⟩, hperm.nodup_iff.2 h.nodup, fun n hn => h.bounded n (hperm.mem_iff.1 hn)⟩
  dsimp only
  refine linked_append.2 ⟨some this, some first, ?_, linked_append.2 ⟨some p, z', ?_, hthird⟩⟩
  · refine hr.relink hrun hnodup_run (fun n hn hne => ?_) (fun n hn heq => ?_) (fun n hn hne => ?_)
      (fun n hn heq => ?_)
    · rw [Function.update_of_ne (fun heq => hne (congrArg some heq)),
        Function.update_of_ne (hbr hpb hn).symm]
    · rw [Option.some.inj heq, Function.update_self]
    · rw [Function.update_of_ne (fun heq => hne (congrArg some heq)),
        Function.update_of_ne (hbr hf hn).symm, hchild_old n (hnot_behind (Or.inr hn))]
    · rw [Option.some.inj heq, Function.update_self]
  · rw [hfree] at hb
    refine hb.relink hbefore hnodup_before (fun n hn hne => ?_) (fun n hn heq => ?_)
      (fun n hn hne => ?_) (fun n hn heq => ?_)
    · rw [Function.update_of_ne (hbr hn ht),
        Function.update_of_ne fun heq => hne (congrArg some heq)]
    · rw [Option.some.inj heq, Function.update_of_ne (hbr hpb ht), Function.update_self]
    · rw [Function.update_of_ne (hbr hn hs),
        Function.update_of_ne fun heq => hne (congrArg some heq),
        hchild_old n (hnot_behind (Or.inl hn))]
    · rw [Option.some.inj heq, Function.update_of_ne (hbr hf hs), Function.update_self]

def freeFrom (parent : ℕ → Option ℕ) : ℕ → Option ℕ → List ℕ
  | 0, _ => []
  | _, none => []
  | fuel + 1, some n => n :: freeFrom parent fuel (parent n)

def FreeLinks.freeList (f : FreeLinks) : List ℕ := freeFrom f.parent f.nodes f.free

theorem freeFrom_eq {parent child : ℕ → Option ℕ} {first start last : Option ℕ}
    (h : Linked parent child first start l last none) {fuel : ℕ} (hfuel : l.length ≤ fuel) :
    freeFrom parent fuel start = l := by
  induction l generalizing first start fuel with
  | nil =>
    obtain rfl : start = none := h.1
    cases fuel <;> rfl
  | cons a l ih =>
    obtain ⟨rfl, -, hrest⟩ := h
    rw [List.length_cons] at hfuel
    obtain ⟨fuel, rfl⟩ : ∃ k, fuel = k + 1 := ⟨fuel - 1, by omega⟩
    rw [freeFrom, ih hrest (by omega)]

theorem Holds.freeList_eq (h : Holds f l) : f.freeList = l := by
  obtain ⟨last, hlinked⟩ := h.linked
  exact freeFrom_eq hlinked h.length_le

end MdsPlus.FreeNodes
