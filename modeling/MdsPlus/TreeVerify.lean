import MdsPlus.ConglomerateRuns
import MdsPlus.Traversals

/-!
What TreeVerify prints of a tree. It counts the nodes along the links of the tree and then the free
ones, and looks whether the links back agree.
-/

namespace MdsPlus.TreeVerify

open NodeTree TreeEdit LinkWalk ConglomerateNodes ConglomerateRuns Traversals
open ParentStateRuns (Kept kept_newTree mem_kids)

def TreeUSAGE_SUBTREE_REF : ℤ := 14
def TreeUSAGE_SUBTREE_TOP : ℤ := 15

/-- `nodecount`, and whether a line on too many nodes or on bad links was printed. -/
structure Count where
  nodecount : ℕ
  bad : Bool

/-- A link is followed to a node whose link back leads to where it should. -/
def Count.check (c : Count) (back : ℕ → Option ℕ) (link expected : Option ℕ) : Count :=
  match link with
  | none => c
  | some n => { c with bad := c.bad || decide (back n ≠ expected) }

def countnodes (t : Tree) (maxnodes : ℕ) : ℕ → Option ℕ → Count → Option (Bool × Count)
  | _, none, c => some (true, c)
  | 0, some _, _ => none
  | fuel + 1, some n, c => do
      let c := { c with nodecount := c.nodecount + 1 }
      if maxnodes < c.nodecount then some (false, { c with bad := true })
      else
        let l := linksOf t
        let c ← if t.usage n = TreeUSAGE_SUBTREE_REF ∨ t.usage n = TreeUSAGE_SUBTREE_TOP then some c
          else do
            let member ← countnodes t maxnodes fuel (l.member n)
              (c.check t.parent (l.member n) (some n))
            let child ← countnodes t maxnodes fuel (l.child n)
              (member.2.check t.parent (l.child n) (some n))
            some child.2
        -- what the calls return is not looked at
        let brother ← countnodes t maxnodes fuel (l.brother n)
          (c.check t.parent (l.brother n) (t.parent n))
        some (true, brother.2)

def countfree (f : FreeNodes.FreeLinks) : ℕ → Option ℕ → Count → Option (Bool × Count)
  | _, none, c => some (true, c)
  | 0, some _, _ => none
  | fuel + 1, some n, c =>
      let c := { c with nodecount := c.nodecount + 1 }
      if f.nodes < c.nodecount then some (false, { c with bad := true })
      else countfree f fuel (f.parent n) (c.check f.child (f.parent n) (some n))

/-- Whether there is a complaint, and the numbers of the summary as far as it goes: allocated, free
and other nodes. -/
def treeVerify (e : Editing) (fuel : ℕ) : Option (Bool × List ℤ) := do
  let (going, c) ← countnodes e.state.tree e.links.nodes fuel (some 0) ⟨0, false⟩
  if going then
    let allocated := c.nodecount
    let (going, c) ← countfree e.links fuel e.links.free c
    if going then
      some (c.bad, [(allocated : ℤ), c.nodecount - allocated, e.links.nodes - c.nodecount])
    else some (c.bad, [(allocated : ℤ)])
  else some (c.bad, [])

/-! ### The counts -/

theorem nodup_kids (t : Tree) (n : ℕ) : (t.kids .child n ++ t.kids .member n).Nodup := by
  refine List.nodup_append'.2 ⟨t.nodup .child n, t.nodup .member n, fun c hc hm => ?_⟩
  cases t.once hc hm

def forest (t : Tree) : Forest ℕ where
  kids n := t.kids .child n ++ t.kids .member n
  nodup := nodup_kids t
  once h h' := Option.some.inj ((mem_kids.1 h).symm.trans (mem_kids.1 h'))
  ends := Subrelation.wf mem_kids.1 t.wellFounded_down

variable {t : Tree} {maxnodes : ℕ} {c : Count} {start link expected : Option ℕ} {n : ℕ}

/-- So many nodes are counted from one on, and there is nothing to complain of. -/
def Counts (t : Tree) (maxnodes : ℕ) (start : Option ℕ) (k : ℕ) : Prop :=
  ∃ enough, ∀ fuel ≥ enough, ∀ i bad, i + k ≤ maxnodes →
    countnodes t maxnodes fuel start ⟨i, bad⟩ = some (true, ⟨i + k, bad⟩)

theorem check_eq {back : ℕ → Option ℕ} (h : ∀ n, link = some n → back n = expected) :
    c.check back link expected = c := by
  cases link with
  | none => rfl
  | some n =>
    rw [Count.check, h n rfl]
    simp

theorem head_linked (k : Kind) (n : ℕ) :
    ∀ m, (t.kids k n).head? = some m → t.parent m = some n :=
  fun _ hm => t.linked (List.mem_of_mem_head? hm)

theorem counts_none : Counts t maxnodes none 0 :=
  ⟨0, fun fuel _ _ _ _ => by cases fuel <;> rfl⟩

theorem Counts.node (husage : t.usage n < TreeUSAGE_MAXIMUM) {i j k : ℕ}
    (hmember : Counts t maxnodes ((linksOf t).member n) i)
    (hchild : Counts t maxnodes ((linksOf t).child n) j)
    (hbrother : Counts t maxnodes ((linksOf t).brother n) k)
    (hparent : ∀ m, (linksOf t).brother n = some m → t.parent m = t.parent n) :
    Counts t maxnodes (some n) (i + j + k + 1) := by
  obtain ⟨a, ha⟩ := hmember
  obtain ⟨b, hb⟩ := hchild
  obtain ⟨d, hd⟩ := hbrother
  refine ⟨a + b + d + 1, fun fuel hfuel l bad hl => ?_⟩
  obtain ⟨fuel, rfl⟩ := Nat.exists_eq_add_one.2 (by omega : 0 < fuel)
  have hplain : ¬ (t.usage n = TreeUSAGE_SUBTREE_REF ∨ t.usage n = TreeUSAGE_SUBTREE_TOP) := by
    unfold TreeUSAGE_MAXIMUM at husage
    unfold TreeUSAGE_SUBTREE_REF TreeUSAGE_SUBTREE_TOP
    omega
  have hroom : ¬ maxnodes < l + 1 := by omega
  have hm : ∀ m, (linksOf t).member n = some m → t.parent m = some n := head_linked .member n
  have hk : ∀ m, (linksOf t).child n = some m → t.parent m = some n := head_linked .child n
  rw [countnodes]
  dsimp only
  rw [if_neg hroom, if_neg hplain, check_eq hm, ha fuel (by omega) _ _ (by omega),
    Option.bind_eq_bind, Option.bind_some]
  dsimp only
  rw [check_eq hk, hb fuel (by omega) _ _ (by omega), Option.bind_some]
  dsimp only
  rw [Option.bind_eq_bind, Option.bind_some, check_eq hparent, hd fuel (by omega) _ _ (by omega),
    Option.bind_some, show l + 1 + i + j + k = l + (i + j + k + 1) by omega]

theorem total_cons (n : ℕ) (rest : List ℕ) :
    (forest t).total (n :: rest) = (forest t).total (t.kids .member n) +
      (forest t).total (t.kids .child n) + (forest t).total rest + 1 := by
  rw [Forest.total_cons, Forest.total_append, forest, Forest.total_append]
  omega

theorem counts_kids (husage : ∀ n, t.usage n < TreeUSAGE_MAXIMUM) (k : Kind) (p : ℕ) :
    ∀ before rest, t.kids k p = before ++ rest →
      Counts t maxnodes rest.head? ((forest t).total rest) := by
  induction p using t.wellFounded_down.induction generalizing k with
  | _ p ih =>
    intro before rest
    induction rest generalizing before with
    | nil => exact fun _ => counts_none
    | cons n rest ihrest =>
      intro hkids
      have hin : ∀ m ∈ n :: rest, t.parent m = some p := by
        intro m hm
        refine t.linked (k := k) ?_
        rw [hkids]
        exact List.mem_append_right before hm
      have hparent := hin n List.mem_cons_self
      have hbrother : (linksOf t).brother n = rest.head? := brotherOf_append k p before rest hkids
      have hrest := ihrest (before ++ [n]) (hkids.trans (List.append_cons ..))
      rw [← hbrother] at hrest
      have hnode := Counts.node (husage n) (ih n hparent .member [] _ rfl)
        (ih n hparent .child [] _ rfl) hrest fun m hm => by
          rw [hbrother] at hm
          rw [hparent, hin m (List.mem_cons_of_mem n (List.mem_of_mem_head? hm))]
      rw [total_cons]
      exact hnode

theorem counts_top (husage : ∀ n, t.usage n < TreeUSAGE_MAXIMUM) :
    Counts t maxnodes (some 0) ((forest t).total [0]) := by
  have hbrother : (linksOf t).brother 0 = none := by
    change brotherOf t 0 = none
    rw [brotherOf, t.top]
  have hrest : Counts t maxnodes ((linksOf t).brother 0) 0 := by
    rw [hbrother]
    exact counts_none
  have hnode := Counts.node (husage 0) (counts_kids husage .member 0 [] _ rfl)
    (counts_kids husage .child 0 [] _ rfl) hrest fun m hm => by
      rw [hbrother] at hm
      cases hm
  rw [total_cons]
  exact hnode

theorem countfree_eq {f : FreeNodes.FreeLinks} {before l : List ℕ} {i : ℕ} {bad : Bool}
    (h : FreeNodes.Holds f (before ++ l)) {fuel : ℕ} (hfuel : l.length ≤ fuel)
    (hi : i + l.length ≤ f.nodes) :
    countfree f fuel l.head? ⟨i, bad⟩ = some (true, ⟨i + l.length, bad⟩) := by
  induction l generalizing before fuel i with
  | nil => cases fuel <;> rfl
  | cons n l ih =>
    rw [List.length_cons] at hfuel hi
    obtain ⟨fuel, rfl⟩ : ∃ k, fuel = k + 1 := ⟨fuel - 1, by omega⟩
    have hlinks := h.links
    rw [List.append_cons] at h
    have hback : ∀ m, f.parent n = some m → f.child m = some n := by
      intro m hm
      rw [hlinks.1] at hm
      obtain ⟨l', rfl⟩ := List.head?_eq_some_iff.1 hm
      rw [h.links.2, List.getLast?_append]
      rfl
    have hroom : ¬ f.nodes < i + 1 := by omega
    rw [List.head?_cons, countfree]
    dsimp only
    rw [if_neg hroom, check_eq hback, hlinks.1, ih h (by omega) (by omega), List.length_cons,
      show i + 1 + l.length = i + (l.length + 1) by omega]

/-! ### The nodes that are counted -/

theorem in_iff_below (hrooted : t.Rooted) (n : ℕ) : t.In n ↔ n = 0 ∨ (forest t).Below 0 n := by
  constructor
  · induction n using t.wellFounded_up.induction with
    | _ n ih =>
      rintro (rfl | ⟨p, hp⟩)
      · exact Or.inl rfl
      · have hkid : n ∈ (forest t).kids p := mem_kids.2 hp
        rcases ih p hp (hrooted n p hp) with rfl | habove
        · exact Or.inr (.single hkid)
        · exact Or.inr (.tail habove hkid)
  · rintro (rfl | hbelow)
    · exact Or.inl rfl
    · obtain ⟨p, -, hkid⟩ := Relation.TransGen.tail'_iff.1 hbelow
      exact Or.inr ⟨p, mem_kids.1 hkid⟩

variable {e e' : Editing} {given : List ℕ}

/-- Each record is of a node of the tree or free. -/
def Used (s : State) : Prop := ∀ n < s.nodes, s.tree.In n ∨ n ∈ s.free

/-- The nodes of the tree are as many as are not free. -/
theorem total_eq (hkept : Kept e.state) (hused : Used e.state) :
    (forest e.state.tree).total [0] + e.state.free.length = e.state.nodes := by
  rw [← Forest.order_length, ← List.length_append, ← List.length_append]
  have hin : ∀ n, n ∈ (forest e.state.tree).order [0] ++ [0] ↔ e.state.tree.In n := by
    intro n
    rw [in_iff_below hkept.rooted, List.mem_append, Forest.mem_order, or_comm]
    simp
  have hnodup : ((forest e.state.tree).order [0] ++ [0]).Nodup := by
    have hapart := Forest.apart_singleton (f := forest e.state.tree) 0
    refine List.nodup_append'.2 ⟨hapart.order_nodup, hapart.nodup, fun n hn h0 => ?_⟩
    obtain ⟨x, hx, hbelow⟩ := Forest.mem_order.1 hn
    exact hapart.apart x hx n h0 hbelow
  have hrange : ((forest e.state.tree).order [0] ++ [0] ++ e.state.free).Perm
      (List.range e.state.nodes) := by
    refine (List.perm_ext_iff_of_nodup ?_ List.nodup_range).2 fun n => ?_
    · refine List.nodup_append'.2 ⟨hnodup, hkept.free_nodup, fun n hn hfree => ?_⟩
      exact hkept.free_out n hfree ((hin n).1 hn)
    · rw [List.mem_append, hin, List.mem_range]
      exact ⟨fun hn => hn.elim (hkept.slot n) (hkept.free_lt n), hused n⟩
  rw [hrange.length_eq, List.length_range]

theorem treeVerify_eq (hkept : Kept e.state) (hsound : e.Sound) (hused : Used e.state)
    (husage : ∀ n, e.state.tree.usage n < TreeUSAGE_MAXIMUM) :
    ∃ enough, ∀ fuel ≥ enough, treeVerify e fuel = some (false,
      [(e.state.nodes - e.state.free.length : ℤ), e.state.free.length, 0]) := by
  have htotal := total_eq hkept hused
  have hnodes := hsound.nodes
  have hholds : FreeNodes.Holds e.links ([] ++ e.state.free) := hsound.holds
  obtain ⟨enough, hcounts⟩ : Counts e.state.tree e.links.nodes (some 0) _ := counts_top husage
  refine ⟨enough + e.state.free.length, fun fuel hfuel => ?_⟩
  rw [treeVerify, hcounts fuel (by omega) _ _ (by omega), Option.bind_eq_bind, Option.bind_some]
  dsimp only
  rw [if_pos rfl, hsound.holds.free_eq, countfree_eq hholds (by omega) (by omega),
    Option.bind_some]
  dsimp only
  rw [if_pos rfl]
  simp only [Option.some.injEq, Prod.mk.injEq, List.cons.injEq, true_and, and_true]
  exact ⟨by omega, by omega, by omega⟩

/-- In every run that begins, fills and ends conglomerates there is nothing that is complained of,
and each node is counted as what it is. -/
theorem run_verified (hkept : Kept e.state) (hsound : e.Sound) (hused : Used e.state)
    (husage : ∀ n, e.state.tree.usage n < TreeUSAGE_MAXIMUM) {calls : List Call}
    (hplaced : Outcome.Admissible step Placed (e, []) calls)
    (hrun : Outcome.run step (e, []) calls = .ok (e', given)) :
    ∃ enough, ∀ fuel ≥ enough, treeVerify e' fuel = some (false,
      [(e'.state.nodes - e'.state.free.length : ℤ), e'.state.free.length, 0]) := by
  have h := accounted_run hkept hsound hplaced hrun
  obtain ⟨grown, hnodes, hperm⟩ := h.grown
  refine treeVerify_eq h.kept h.sound (fun n hn => ?_) (h.growth.usage husage)
  have hcase : e.state.tree.In n ∨ n ∈ e.state.free ++ List.range' e.state.nodes grown := by
    rw [List.mem_append, List.mem_range'_1, ← or_assoc, ← hnodes]
    exact (Nat.lt_or_ge n e.state.nodes).imp (hused n) fun hge => ⟨hge, hn⟩
  rcases hcase with hin | hfree
  · exact Or.inl (h.growth.inside n hin)
  · exact (List.mem_append.1 (hperm.mem_iff.2 hfree)).imp_left (h.inside n)

theorem run_verified_new : ∃ fuel e,
    Outcome.run step (newEditing, []) [.start fuel 20] = .ok (e, []) ∧
      ∃ enough, ∀ fuel ≥ enough, treeVerify e fuel = some (false,
        [(e.state.nodes - e.state.free.length : ℤ), e.state.free.length, 0]) := by
  have hused : Used newEditing.state := by
    intro n hn
    rcases Nat.eq_zero_or_pos n with rfl | hpos
    · exact Or.inl (Or.inl rfl)
    · exact Or.inr (List.mem_range'_1.2 ⟨hpos, hn⟩)
  have husage : ∀ n, newEditing.state.tree.usage n < TreeUSAGE_MAXIMUM := by
    intro n
    change TreeUSAGE_SUBTREE < TreeUSAGE_MAXIMUM
    decide
  obtain ⟨fuel, e, hstart, -⟩ := newEditing_startConglomerate
  have hrun : Outcome.run step (newEditing, []) [.start fuel 20] = .ok (e, []) := by
    rw [Outcome.run, step, hstart]
    rfl
  have hplaced : Outcome.Admissible step Placed (newEditing, []) [.start fuel 20] :=
    ⟨trivial, fun _ _ => trivial⟩
  exact ⟨fuel, e, hrun, run_verified kept_newTree newEditing_sound hused husage hplaced hrun⟩

end MdsPlus.TreeVerify
