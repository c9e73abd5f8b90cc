import MdsPlus.FreeNodes

/-!
The nodes of a conglomerate. The loop that looks for them goes along the free nodes, and what it
counts are the neighbours that it ends with; where the list ends new nodes are put behind it. Nodes
that are added afterwards have consecutive numbers and are counted from one.
-/

namespace MdsPlus.ConglomerateNodes

open FreeNodes TreeEdit

variable {f f' : FreeLinks} {before behind : List ℕ} {start i k this : ℕ}
  {starting starting' : Option ℕ}

theorem range'_snoc (start i : ℕ) (behind : List ℕ) :
    List.range' start (i + 1) ++ behind = List.range' start i ++ (start + i) :: behind := by
  rw [List.range'_1_concat, List.append_assoc]
  rfl

theorem scan_end (k fuel : ℕ) (f : FreeLinks) (this : ℕ) (starting : Option ℕ) :
    scan (k + 1 : ℕ) fuel f k this starting = some (f, this, starting) := by
  cases fuel <;> rw [scan, if_pos (by omega)]

theorem scan_zero (hi : i < k) (f : FreeLinks) (this : ℕ) (starting : Option ℕ) :
    scan (k + 1 : ℕ) 0 f i this starting = none := by
  rw [scan, if_neg (by omega)]

theorem scan_succ (hi : i < k) (fuel : ℕ) (f : FreeLinks) (this : ℕ)
    (starting : Option ℕ) :
    scan (k + 1 : ℕ) (fuel + 1) f i this starting =
      match f.parent this with
      | some next => scan (k + 1 : ℕ) fuel f (if next = this + 1 then i + 1 else 0) next
          (if i = 0 then some this else starting)
      | none => (treeExpandNodes f).bind fun f =>
          scan (k + 1 : ℕ) fuel f i this (if i = 0 then some this else starting) := by
  have hturn : (i : ℤ) < (k + 1 : ℕ) - 1 := by omega
  exact if_neg (not_not_intro hturn)

theorem parent_eq (h : Holds f (before ++ (List.range' start (i + 1) ++ behind))) :
    f.parent (start + i) = behind.head? := by
  rw [range'_snoc, ← List.append_assoc] at h
  exact h.links.1

theorem starting_eq (h : 0 < i → starting = some start) :
    (if i = 0 then some (start + i) else starting) = some start := by
  split
  · rename_i hi
    rw [hi, Nat.add_zero]
  · rename_i hi
    exact h (Nat.pos_of_ne_zero hi)

/-- What the loop finds: neighbours in turn, among the nodes that there were and new ones behind
them. -/
structure Found (k : ℕ) (f : FreeLinks) (l : List ℕ) (f' : FreeLinks) (this : ℕ)
    (starting : Option ℕ) (start : ℕ) (before behind : List ℕ) (grown : ℕ) : Prop where
  holds : Holds f' (before ++ (List.range' start (k + 1) ++ behind))
  last : this = start + k
  first : 0 < k → starting = some start
  nodes : f'.nodes = f.nodes + grown
  free : before ++ (List.range' start (k + 1) ++ behind) = l ++ List.range' f.nodes grown

theorem found_end (h : Holds f (before ++ (List.range' start (k + 1) ++ behind)))
    (hstarting : 0 < k → starting = some start)
    (hend : some (f, start + k, starting) = some (f', this, starting')) :
    ∃ start' before' behind' grown,
      Found k f (before ++ (List.range' start (k + 1) ++ behind)) f' this starting' start' before'
        behind' grown := by
  cases hend
  exact ⟨start, before, behind, 0, h, rfl, hstarting, rfl, by simp⟩

theorem Found.of_expanded {l : List ℕ} {f₁ : FreeLinks} {grown : ℕ}
    (hnodes : f₁.nodes = f.nodes + EXTEND_NODES)
    (h : Found k f₁ (l ++ List.range' f.nodes EXTEND_NODES) f' this starting start before behind
      grown) :
    Found k f l f' this starting start before behind (EXTEND_NODES + grown) where
  holds := h.holds
  last := h.last
  first := h.first
  nodes := by rw [h.nodes, hnodes, Nat.add_assoc]
  free := by rw [h.free, hnodes, List.append_assoc, List.range'_append_1]

theorem scan_spec {fuel : ℕ} (hi : i ≤ k)
    (h : Holds f (before ++ (List.range' start (i + 1) ++ behind)))
    (hstarting : 0 < i → starting = some start)
    (hscan : scan (k + 1 : ℕ) fuel f i (start + i) starting = some (f', this, starting')) :
    ∃ start' before' behind' grown,
      Found k f (before ++ (List.range' start (i + 1) ++ behind)) f' this starting' start' before'
        behind' grown := by
  induction fuel generalizing f i start before behind starting with
  | zero =>
    rcases Nat.eq_or_lt_of_le hi with rfl | hi
    · rw [scan_end] at hscan
      exact found_end h hstarting hscan
    · rw [scan_zero hi] at hscan
      cases hscan
  | succ fuel ih =>
    rcases Nat.eq_or_lt_of_le hi with rfl | hi
    · rw [scan_end] at hscan
      exact found_end h hstarting hscan
    · rw [scan_succ hi, parent_eq h, starting_eq hstarting] at hscan
      cases behind with
      | nil =>
        obtain ⟨f₁, hexpand, hrest⟩ := Option.bind_eq_some_iff.1 hscan
        obtain ⟨f₂, hexpand', hnodes, hholds⟩ := h.expand
        rw [hexpand'] at hexpand
        cases hexpand
        rw [List.append_nil] at hholds ⊢
        rw [List.append_assoc] at hholds
        obtain ⟨start', before', behind', grown, hfound⟩ :=
          ih (Nat.le_of_lt hi) hholds (fun _ => rfl) hrest
        rw [← List.append_assoc] at hfound
        exact ⟨start', before', behind', _, hfound.of_expanded hnodes⟩
      | cons next behind =>
        by_cases hnext : next = start + i + 1
        · subst hnext
          simp only [List.head?_cons, if_true] at hscan
          have hsplit : List.range' start (i + 1) ++ (start + i + 1) :: behind =
              List.range' start (i + 1 + 1) ++ behind := (range'_snoc start (i + 1) behind).symm
          rw [hsplit] at h ⊢
          exact ih hi h (fun _ => rfl) hscan
        · simp only [List.head?_cons, if_neg hnext] at hscan
          have hsplit : before ++ (List.range' start (i + 1) ++ next :: behind) =
              (before ++ List.range' start (i + 1)) ++ (List.range' next (0 + 1) ++ behind) := by
            simp
          rw [hsplit] at h ⊢
          exact ih (Nat.zero_le k) h (fun hpos => absurd hpos (Nat.lt_irrefl 0)) hscan

/-! ### The loop ends -/

def Ends (k : ℕ) (f : FreeLinks) (i this : ℕ) (starting : Option ℕ) : Prop :=
  ∃ fuel, (scan (k + 1 : ℕ) fuel f i this starting).isSome

theorem Ends.of_next (h : Holds f (before ++ (List.range' start (i + 1) ++ this :: behind)))
    (hi : i < k) (hstarting : 0 < i → starting = some start)
    (hends : Ends k f (if this = start + i + 1 then i + 1 else 0) this (some start)) :
    Ends k f i (start + i) starting := by
  obtain ⟨fuel, hfuel⟩ := hends
  refine ⟨fuel + 1, ?_⟩
  rw [scan_succ hi, parent_eq h, starting_eq hstarting]
  exact hfuel

theorem Ends.of_expanded (h : Holds f (before ++ (List.range' start (i + 1) ++ [])))
    (hi : i < k) (hstarting : 0 < i → starting = some start)
    (hends : ∀ f', f'.nodes = f.nodes + EXTEND_NODES →
      Holds f' (before ++ (List.range' start (i + 1) ++ List.range' f.nodes EXTEND_NODES)) →
      Ends k f' i (start + i) (some start)) :
    Ends k f i (start + i) starting := by
  obtain ⟨f', hexpand, hnodes, hholds⟩ := h.expand
  rw [List.append_nil, List.append_assoc] at hholds
  obtain ⟨fuel, hfuel⟩ := hends f' hnodes hholds
  refine ⟨fuel + 1, ?_⟩
  rw [scan_succ hi, parent_eq h, starting_eq hstarting]
  dsimp only [List.head?_nil]
  rw [hexpand]
  exact hfuel

theorem Holds.next (h : Holds f (before ++ (List.range' start (i + 1) ++ this :: behind))) :
    (this = start + i + 1 → Holds f (before ++ (List.range' start (i + 1 + 1) ++ behind))) ∧
      Holds f ((before ++ List.range' start (i + 1)) ++ (List.range' this (0 + 1) ++ behind)) := by
  constructor
  · rintro rfl
    rwa [range'_snoc start (i + 1)]
  · have hsplit : (before ++ List.range' start (i + 1)) ++ (List.range' this (0 + 1) ++ behind) =
        before ++ (List.range' start (i + 1) ++ this :: behind) := by
      simp
    rwa [hsplit]

/-- While all that follow are neighbours, and the last of them is the last node of all, every turn
or two the count goes up. -/
theorem ends_of_neighbours (hi : i ≤ k) {m : ℕ}
    (h : Holds f (before ++ (List.range' start (i + 1) ++ List.range' (start + i + 1) m)))
    (hlast : start + i + 1 + m = f.nodes) (hstarting : 0 < i → starting = some start) :
    Ends k f i (start + i) starting := by
  induction hd : k - i generalizing f i m before starting with
  | zero =>
    obtain rfl : i = k := by omega
    exact ⟨0, by rw [scan_end]; rfl⟩
  | succ d ih =>
    have hlt : i < k := by omega
    -- a neighbour that follows is counted
    have hnext : ∀ (f : FreeLinks) (m : ℕ) (starting : Option ℕ),
        (0 < i → starting = some start) → start + i + 1 + (m + 1) = f.nodes →
        Holds f (before ++ (List.range' start (i + 1) ++ List.range' (start + i + 1) (m + 1))) →
        Ends k f i (start + i) starting := by
      intro f m starting hstarting hlast h
      have hrange : List.range' (start + i + 1) (m + 1) =
          (start + i + 1) :: List.range' (start + i + 1 + 1) m := List.range'_succ ..
      rw [hrange] at h
      refine Ends.of_next h hlt hstarting ?_
      rw [if_pos rfl]
      exact ih hlt ((Holds.next h).1 rfl) (by omega) (fun _ => rfl) (by omega)
    cases m with
    | zero =>
      refine Ends.of_expanded h hlt hstarting fun f' hnodes hholds => ?_
      rw [← hlast] at hholds hnodes
      exact hnext f' 511 _ (fun _ => rfl) (by rw [hnodes]; rfl) hholds
    | succ m => exact hnext f m _ hstarting hlast h

theorem ends (hi : i ≤ k) (h : Holds f (before ++ (List.range' start (i + 1) ++ behind)))
    (hstarting : 0 < i → starting = some start) : Ends k f i (start + i) starting := by
  induction behind generalizing i start before starting with
  | nil =>
    rcases Nat.eq_or_lt_of_le hi with rfl | hlt
    · exact ⟨0, by rw [scan_end]; rfl⟩
    refine Ends.of_expanded h hlt hstarting fun f' hnodes hholds => ?_
    have hrange : List.range' f.nodes EXTEND_NODES = f.nodes :: List.range' (f.nodes + 1) 511 :=
      List.range'_succ ..
    rw [hrange] at hholds
    refine Ends.of_next hholds hlt (fun _ => rfl) ?_
    split
    · rename_i hnext
      have hcounted := (Holds.next hholds).1 hnext
      rw [hnext] at hcounted hnodes ⊢
      exact ends_of_neighbours hlt hcounted (by rw [hnodes]; rfl) fun _ => rfl
    · exact ends_of_neighbours (Nat.zero_le k) (Holds.next hholds).2 (by rw [hnodes]; rfl)
        fun hpos => absurd hpos (Nat.lt_irrefl 0)
  | cons next behind ih =>
    rcases Nat.eq_or_lt_of_le hi with rfl | hlt
    · exact ⟨0, by rw [scan_end]; rfl⟩
    refine Ends.of_next h hlt hstarting ?_
    split
    · rename_i hnext
      have hcounted := (Holds.next h).1 hnext
      rw [hnext]
      exact ih hlt hcounted fun _ => rfl
    · exact ih (Nat.zero_le k) (Holds.next h).2 fun hpos => absurd hpos (Nat.lt_irrefl 0)

/-! ### Beginning a conglomerate -/

/-- What is free after a conglomerate is begun: neighbours before the others, and none is lost. -/
structure Begun (n : ℕ) (f : FreeLinks) (l : List ℕ) (f' : FreeLinks) (start : ℕ)
    (rest : List ℕ) : Prop where
  holds : Holds f' (List.range' start n ++ rest)
  grown : ∃ grown, f'.nodes = f.nodes + grown ∧
    (List.range' start n ++ rest).Perm (l ++ List.range' f.nodes grown)

theorem Begun.of_expanded {n : ℕ} {l rest : List ℕ} {f₁ : FreeLinks}
    (hnodes : f₁.nodes = f.nodes + EXTEND_NODES)
    (h : Begun n f₁ (l ++ List.range' f.nodes EXTEND_NODES) f' start rest) :
    Begun n f l f' start rest := by
  obtain ⟨grown, hgrown, hperm⟩ := h.grown
  refine ⟨h.holds, EXTEND_NODES + grown, by rw [hgrown, hnodes, Nat.add_assoc], ?_⟩
  rwa [hnodes, List.append_assoc, List.range'_append_1] at hperm

theorem Found.begun {l : List ℕ} {grown : ℕ}
    (h : Found k f l f' this starting start before behind grown) :
    Begun (k + 1) f l (moveToFront f' start this) start (before ++ behind) := by
  have hperm : (List.range' start (k + 1) ++ (before ++ behind)).Perm
      (l ++ List.range' f.nodes grown) := by
    rw [← h.free]
    exact (List.perm_append_comm_assoc before _ behind).symm
  have hhead : (List.range' start (k + 1)).head? = some start := by
    rw [List.range'_succ]
    rfl
  have hlast : (List.range' start (k + 1)).getLast? = some this := by
    rw [List.range'_1_concat, List.getLast?_concat, h.last]
  rcases List.eq_nil_or_concat' before with rfl | ⟨before', p, rfl⟩
  · -- the neighbours are the first already
    have hchild : f'.child start = none := by
      have hholds := h.holds
      rw [List.range'_succ] at hholds
      exact hholds.links.2
    have hsame : moveToFront f' start this = f' := by
      rw [moveToFront, hchild]
    rw [hsame]
    exact ⟨h.holds, grown, h.nodes, hperm⟩
  · have hmoved := h.holds.moveToFront (by simp) hhead hlast
    exact ⟨hmoved, grown, (moveToFront_nodes f' start this).trans h.nodes, hperm⟩

theorem scan_begun {l : List ℕ} {fuel : ℕ} (h : Holds f (this :: l)) {r : FreeLinks × ℕ × Option ℕ}
    (hscan : scan (k + 1 : ℕ) fuel f 0 this none = some r) :
    ∃ start rest, Begun (k + 1) f (this :: l)
      (match r.2.2 with
        | some starting => moveToFront r.1 starting r.2.1
        | none => r.1) start rest := by
  rcases Nat.eq_zero_or_pos k with rfl | hk
  · rw [scan_end] at hscan
    cases hscan
    exact ⟨this, l, h, 0, rfl, by simp⟩
  · obtain ⟨f', this', starting⟩ := r
    have hfirst : Holds f ([] ++ (List.range' this (0 + 1) ++ l)) := h
    obtain ⟨start, before, behind, grown, hfound⟩ := scan_spec (Nat.zero_le k) hfirst
      (fun hpos => absurd hpos (Nat.lt_irrefl 0)) hscan
    obtain rfl := hfound.first hk
    exact ⟨start, _, hfound.begun⟩

theorem ready {l : List ℕ} (h : Holds f l) :
    ∃ f₁ a rest, (if f.free = none then treeExpandNodes f else some f) = some f₁ ∧
      f₁.free = some a ∧ Holds f₁ (a :: rest) ∧
      ∀ n f' start rest', Begun n f₁ (a :: rest) f' start rest' → Begun n f l f' start rest' := by
  cases l with
  | nil =>
    obtain ⟨f₁, hexpand, hnodes, hholds⟩ := h.expand
    have hrange : [] ++ List.range' f.nodes EXTEND_NODES =
        f.nodes :: List.range' (f.nodes + 1) 511 := List.range'_succ ..
    have hfirst := hholds
    rw [hrange] at hfirst
    have hnone : f.free = none := h.free_eq
    refine ⟨f₁, _, _, by rw [if_pos hnone, hexpand], hfirst.free_eq, hfirst, ?_⟩
    intro n f' start rest' hbegun
    rw [← hrange] at hbegun
    exact hbegun.of_expanded hnodes
  | cons a l =>
    have hfree : f.free = some a := h.free_eq
    refine ⟨f, a, l, if_neg ?_, hfree, h, fun n f' start rest' hbegun => hbegun⟩
    rw [hfree]
    exact Option.some_ne_none a

theorem treeStartConglomerate_begun {l : List ℕ} {fuel : ℕ} (h : Holds f l)
    (hstart : treeStartConglomerate fuel true f (k + 1 : ℕ) = some (f', .success)) :
    ∃ start rest, Begun (k + 1) f l f' start rest := by
  obtain ⟨f₁, a, rest, hready, hfree, hholds, hback⟩ := ready h
  rw [treeStartConglomerate, hready] at hstart
  split at hstart
  · simp at hstart
  rw [if_neg (by decide), Option.bind_some, hfree, Option.bind_some] at hstart
  obtain ⟨r, hscan, heq⟩ := Option.map_eq_some_iff.1 hstart
  have hf' : _ = f' := congrArg Prod.fst heq
  obtain ⟨start, rest', hbegun⟩ := scan_begun hholds hscan
  refine ⟨start, rest', hback _ _ _ _ ?_⟩
  rw [← hf']
  exact hbegun

theorem treeStartConglomerate_ends {l : List ℕ} (h : Holds f l) (hk : k < 32767) :
    ∃ fuel f', treeStartConglomerate fuel true f (k + 1 : ℕ) = some (f', .success) := by
  obtain ⟨f₁, a, rest, hready, hfree, hholds, -⟩ := ready h
  have hfirst : Holds f₁ ([] ++ (List.range' a (0 + 1) ++ rest)) := hholds
  obtain ⟨fuel, hfuel⟩ : Ends k f₁ 0 (a + 0) none :=
    ends (Nat.zero_le k) hfirst fun hpos => absurd hpos (Nat.lt_irrefl 0)
  obtain ⟨r, hscan⟩ := Option.isSome_iff_exists.1 hfuel
  have hsize : ¬ 32767 < ((k + 1 : ℕ) : ℤ) := by omega
  refine ⟨fuel, match r.2.2 with
    | some starting => moveToFront r.1 starting r.2.1
    | none => r.1, ?_⟩
  rw [treeStartConglomerate, hready, if_neg hsize, if_neg (by decide), Option.bind_some, hfree,
    Option.bind_some]
  exact congrArg (Option.map _) hscan

/-! ### Adding nodes -/

structure Editing where
  state : State
  links : FreeLinks

structure Editing.Sound (e : Editing) : Prop where
  holds : Holds e.links e.state.free
  nodes : e.links.nodes = e.state.nodes

def Editing.startConglomerate (e : Editing) (fuel : ℕ) (size : ℤ) :
    Option (Editing × FreeNodes.Status) :=
  (treeStartConglomerate fuel true e.links size).map fun (links, status) =>
    if status = .success then
      (⟨{ e.state with
        free := links.freeList
        nodes := links.nodes
        conglomerateSize := BitVec.ofInt 16 size
        conglomerateIndex := 0 }, links⟩, status)
    else (e, status)

def Editing.addNode (e : Editing) (place : Place) (usage : ℤ) :
    Except Fault (Editing × Option ℕ) := do
  let (state, status) ← treeAddNode e.state place usage
  if status = .success then
    match FreeNodes.treeNewNode e.links with
    | some (links, n) => .ok (⟨state, links⟩, some n)
    -- the free nodes do not end
    | none => .error .cycle
  else .ok (⟨state, e.links⟩, none)

def Editing.addNodes : Editing → List (Place × ℤ) → Except Fault (Editing × List (ℕ × BitVec 16))
  | e, [] => .ok (e, [])
  | e, (place, usage) :: calls => do
      let (e, given) ← e.addNode place usage
      let (e', rest) ← e.addNodes calls
      .ok (e', given.toList.map (fun n => (n, e.state.conglomerateElt n)) ++ rest)

theorem treeNewNode_eq {s : State} (hholds : Holds f s.free) (hnodes : f.nodes = s.nodes) :
    ∃ f', FreeNodes.treeNewNode f = some (f', (TreeEdit.treeNewNode s).2) ∧
      Holds f' (TreeEdit.treeNewNode s).1.free ∧ f'.nodes = (TreeEdit.treeNewNode s).1.nodes := by
  cases hfree : s.free with
  | nil =>
    obtain ⟨f₁, hexpand, hnodes₁, hholds₁⟩ := hholds.expand
    have hrange : s.free ++ List.range' f.nodes EXTEND_NODES =
        s.nodes :: List.range' (s.nodes + 1) 511 := by
      rw [hfree, hnodes]
      exact List.range'_succ ..
    have hnew : TreeEdit.treeNewNode s = ({ s with
        nodes := s.nodes + EXTEND_NODES
        free := List.range' (s.nodes + 1) 511 }, s.nodes) := by
      have hfree' : (TreeEdit.treeExpandNodes s).free =
          s.nodes :: List.range' (s.nodes + 1) 511 := by
        rw [← hrange, hnodes]
        rfl
      rw [TreeEdit.treeNewNode, if_pos hfree, hfree']
      rfl
    rw [hrange] at hholds₁
    have hnone : f.free = none := by
      rw [hholds.free_eq, hfree]
      rfl
    rw [hnew]
    refine ⟨takeFirst f₁ s.nodes, ?_, hholds₁.takeFirst, ?_⟩
    · rw [FreeNodes.treeNewNode, hnone]
      dsimp only
      rw [hexpand, Option.bind_some, hholds₁.free_eq]
      rfl
    · rw [takeFirst_nodes, hnodes₁, hnodes]
  | cons a l =>
    have hnew : TreeEdit.treeNewNode s = ({ s with free := l }, a) := by
      rw [TreeEdit.treeNewNode, if_neg (by simp [hfree]), hfree]
      rfl
    rw [hfree] at hholds
    have hfirst : f.free = some a := hholds.free_eq
    rw [hnew]
    refine ⟨takeFirst f a, ?_, hholds.takeFirst, (takeFirst_nodes f a).trans hnodes⟩
    rw [FreeNodes.treeNewNode, hfirst]

structure Given (s s' : State) (element : BitVec 16) : Prop where
  free : s'.free = (TreeEdit.treeNewNode s).1.free
  nodes : s'.nodes = (TreeEdit.treeNewNode s).1.nodes
  size : s'.conglomerateSize = s.conglomerateSize
  index : s'.conglomerateIndex = element
  elt : s'.conglomerateElt (TreeEdit.treeNewNode s).2 = element

theorem insertInto_ok {s s' : State} {kind : NodeTree.Kind} {p c : ℕ}
    (h : insertInto s kind p c = .ok s') : s' = { s with tree := s'.tree } := by
  rw [insertInto] at h
  split at h
  · cases h
    rfl
  · cases h

theorem treeNewNode_counts (s : State) :
    (TreeEdit.treeNewNode s).1.conglomerateSize = s.conglomerateSize ∧
      (TreeEdit.treeNewNode s).1.conglomerateIndex = s.conglomerateIndex ∧
      (TreeEdit.treeNewNode s).1.conglomerateElt = s.conglomerateElt := by
  rw [TreeEdit.treeNewNode]
  split
  · exact ⟨rfl, rfl, rfl⟩
  · exact ⟨rfl, rfl, rfl⟩

theorem addNewNode_given {s s' : State} {parent : ℕ} {isChild : Bool} {name : NodeTree.Name}
    {usage : ℤ} (h : addNewNode s parent isChild name usage = .ok s') :
    Given s s' s.conglomerateIndex := by
  obtain ⟨hsize, hindex, -⟩ := treeNewNode_counts s
  rw [addNewNode] at h
  obtain ⟨t, hinsert, hrest⟩ := Outcome.bind_eq_ok.1 h
  have ht := insertInto_ok hinsert
  cases hrest
  rw [ht]
  exact ⟨rfl, rfl, hsize, hindex, (Function.update_self ..).trans hindex⟩

theorem treeNewNode_count (s : State) (element : BitVec 16) :
    (TreeEdit.treeNewNode { s with conglomerateIndex := element }).1.free =
        (TreeEdit.treeNewNode s).1.free ∧
      (TreeEdit.treeNewNode { s with conglomerateIndex := element }).1.nodes =
        (TreeEdit.treeNewNode s).1.nodes ∧
      (TreeEdit.treeNewNode { s with conglomerateIndex := element }).2 =
        (TreeEdit.treeNewNode s).2 := by
  by_cases hfree : s.free = []
  · simp [TreeEdit.treeNewNode, TreeEdit.treeExpandNodes, hfree]
  · simp [TreeEdit.treeNewNode, hfree]

theorem toInt_ofNat {n : ℕ} (hn : n ≤ 32767) : (BitVec.ofNat 16 n).toInt = n := by
  have htoNat : (BitVec.ofNat 16 n).toNat = n := by
    rw [BitVec.toNat_ofNat]
    omega
  rw [BitVec.toInt_eq_toNat_of_lt (by omega), htoNat]

def nextElement (s : State) : BitVec 16 :=
  if s.conglomerateSize ≠ 0 then s.conglomerateIndex + 1 else s.conglomerateIndex

def Full (s : State) : Prop :=
  s.conglomerateSize ≠ 0 ∧ (nextElement s).toInt > s.conglomerateSize.toInt

instance (s : State) : Decidable (Full s) := inferInstanceAs (Decidable (_ ∧ _))

/-- Where a path has a parent and no node yet, the next number tells whether there is one more. -/
theorem treeAddNode_notFound {s : State} {place : Place} {parent : ℕ}
    (hparent : place.parent = some parent) (hsearch : place.search = .notFound) (usage : ℤ) :
    treeAddNode s place usage =
      if Full s then .ok ({ s with conglomerateSize := 0, conglomerateIndex := 0 }, .invPath)
      else
        (addNewNode { s with conglomerateIndex := nextElement s } parent place.isChild place.name
          usage).map fun s => (s, .success) := by
  have hstate : (if s.conglomerateSize ≠ 0 then
      { s with conglomerateIndex := s.conglomerateIndex + 1 } else s) =
      { s with conglomerateIndex := nextElement s } := by
    rw [nextElement]
    split <;> rfl
  rw [treeAddNode, hparent, hsearch]
  dsimp only
  rw [hstate]
  rfl

/-- A call that succeeds gives a node with the next number; another leaves the free nodes and what
is counted, unless it ends the conglomerate. -/
theorem treeAddNode_cases {s s' : State} {place : Place} {usage : ℤ} {status : TreeEdit.Status}
    (h : treeAddNode s place usage = .ok (s', status)) :
    status = .success ∧ Given s s' (nextElement s) ∨
      status ≠ .success ∧ s'.free = s.free ∧ s'.nodes = s.nodes ∧ (s' = s ∨ Full s) := by
  rw [treeAddNode] at h
  split at h
  · cases h
    exact Or.inr ⟨by decide, rfl, rfl, Or.inl rfl⟩
  · cases h
    exact Or.inr ⟨by decide, rfl, rfl, Or.inl rfl⟩
  · cases h
    exact Or.inr ⟨by decide, rfl, rfl, Or.inl rfl⟩
  · have hstate : (if s.conglomerateSize ≠ 0 then
        { s with conglomerateIndex := s.conglomerateIndex + 1 } else s) =
        { s with conglomerateIndex := nextElement s } := by
      rw [nextElement]
      split <;> rfl
    rw [hstate] at h
    dsimp only at h
    split at h
    · rename_i hfull
      cases h
      exact Or.inr ⟨by decide, rfl, rfl, Or.inr hfull⟩
    cases hadd : addNewNode { s with conglomerateIndex := nextElement s } _ place.isChild
        place.name usage with
    | error e =>
      rw [hadd] at h
      cases h
    | ok t =>
      rw [hadd] at h
      simp only [Except.map, Except.ok.injEq, Prod.mk.injEq] at h
      obtain ⟨rfl, rfl⟩ := h
      have hgiven := addNewNode_given hadd
      obtain ⟨hfree, hnodes, hnode⟩ := treeNewNode_count s (nextElement s)
      refine Or.inl ⟨rfl, hgiven.free.trans hfree, hgiven.nodes.trans hnodes, hgiven.size,
        hgiven.index, ?_⟩
      rw [← hnode]
      exact hgiven.elt

/-- A conglomerate of some elements, of which some are there. -/
structure Counts (n j : ℕ) (s : State) : Prop where
  size : s.conglomerateSize = BitVec.ofNat 16 n
  index : s.conglomerateIndex = BitVec.ofNat 16 j

theorem Counts.next {n j : ℕ} {s : State} (h : Counts n j s) (hj : j < n) (hn : n ≤ 32767) :
    nextElement s = BitVec.ofNat 16 (j + 1) ∧ ¬ Full s := by
  have hne : s.conglomerateSize ≠ 0 := by
    intro hzero
    have hint := congrArg BitVec.toInt (h.size.symm.trans hzero)
    rw [toInt_ofNat hn] at hint
    simp at hint
    omega
  have hnext : nextElement s = BitVec.ofNat 16 (j + 1) := by
    rw [nextElement, if_pos hne, h.index, BitVec.ofNat_add]
    rfl
  refine ⟨hnext, fun hfull => ?_⟩
  have hgt := hfull.2
  rw [hnext, h.size, toInt_ofNat hn, toInt_ofNat (by omega)] at hgt
  omega

/-! ### Runs of calls -/

/-- What one call leaves: the list and the links of the free nodes still agree, and a node that is
given is the first of the free ones. -/
theorem addNode_spec {e e' : Editing} (he : e.Sound) {place : Place} {usage : ℤ}
    {given : Option ℕ} (h : e.addNode place usage = .ok (e', given)) :
    e'.Sound ∧ (given = some (TreeEdit.treeNewNode e.state).2 ∧
        Given e.state e'.state (nextElement e.state) ∨
      given = none ∧ (e'.state = e.state ∨ Full e.state)) := by
  obtain ⟨⟨s, status⟩, hadd, hrest⟩ := Outcome.bind_eq_ok.1 h
  rcases treeAddNode_cases hadd with ⟨rfl, hgiven⟩ | ⟨hfail, hfree, hnodes, hkept⟩
  · obtain ⟨links, hnew, hholds, hnodes⟩ := treeNewNode_eq he.holds he.nodes
    dsimp only at hrest
    rw [if_pos rfl, hnew] at hrest
    cases hrest
    refine ⟨⟨?_, hnodes.trans hgiven.nodes.symm⟩, Or.inl ⟨rfl, hgiven⟩⟩
    rw [hgiven.free]
    exact hholds
  · dsimp only at hrest
    rw [if_neg hfail] at hrest
    cases hrest
    refine ⟨⟨?_, he.nodes.trans hnodes.symm⟩, Or.inr ⟨rfl, hkept⟩⟩
    rw [hfree]
    exact he.holds

theorem addNodes_sound {e e' : Editing} (he : e.Sound) {calls : List (Place × ℤ)}
    {given : List (ℕ × BitVec 16)} (h : e.addNodes calls = .ok (e', given)) : e'.Sound := by
  induction calls generalizing e given with
  | nil =>
    cases h
    exact he
  | cons call calls ih =>
    obtain ⟨⟨e₁, given₁⟩, hadd, hrest⟩ := Outcome.bind_eq_ok.1 h
    obtain ⟨⟨e₂, given₂⟩, hadds, heq⟩ := Outcome.bind_eq_ok.1 hrest
    cases heq
    exact ih (addNode_spec he hadd).1 hadds

theorem treeNewNode_cons {s : State} {n : ℕ} {l : List ℕ} (h : s.free = n :: l) :
    (TreeEdit.treeNewNode s).2 = n ∧ (TreeEdit.treeNewNode s).1.free = l := by
  simp [TreeEdit.treeNewNode, h]

def elements (start j : ℕ) (m : ℕ) : List (ℕ × BitVec 16) :=
  (List.range' j m).map fun i => (start + i, BitVec.ofNat 16 (i + 1))

theorem addNodes_given {e e' : Editing} (he : e.Sound) {n j start : ℕ} {rest : List ℕ}
    (hn : n ≤ 32767) (hj : j ≤ n) (hcounts : Counts n j e.state)
    (hfree : e.state.free = List.range' (start + j) (n - j) ++ rest) {calls : List (Place × ℤ)}
    {given : List (ℕ × BitVec 16)} (h : e.addNodes calls = .ok (e', given)) :
    given.take (n - j) = elements start j (min (n - j) given.length) := by
  induction calls generalizing e j given with
  | nil =>
    cases h
    simp [elements]
  | cons call calls ih =>
    obtain ⟨⟨e₁, given₁⟩, hadd, hrest⟩ := Outcome.bind_eq_ok.1 h
    obtain ⟨⟨e₂, given₂⟩, hadds, heq⟩ := Outcome.bind_eq_ok.1 hrest
    cases heq
    obtain ⟨hsound, hspec⟩ := addNode_spec he hadd
    rcases Nat.eq_or_lt_of_le hj with rfl | hlt
    · simp [elements]
    · obtain ⟨helement, hfull⟩ := hcounts.next hlt hn
      rcases hspec with ⟨rfl, hgiven⟩ | ⟨rfl, hkept⟩
      · obtain ⟨m, hm⟩ : ∃ m, n - j = m + 1 := ⟨n - j - 1, by omega⟩
        have hm' : n - (j + 1) = m := by omega
        rw [hm, List.range'_succ, List.cons_append] at hfree
        obtain ⟨hnew, htail⟩ := treeNewNode_cons hfree
        have hcounts₁ : Counts n (j + 1) e₁.state :=
          ⟨hgiven.size.trans hcounts.size, hgiven.index.trans helement⟩
        have hfree₁ : e₁.state.free = List.range' (start + (j + 1)) (n - (j + 1)) ++ rest := by
          rw [hgiven.free, htail, hm', ← Nat.add_assoc]
        have hrest := ih hsound hlt hcounts₁ hfree₁ hadds
        have helt := hgiven.elt
        rw [hnew, helement] at helt
        rw [hm'] at hrest
        rw [hm, hnew]
        simp only [Option.toList_some, List.map_cons, List.map_nil, List.singleton_append,
          List.take_succ_cons, List.length_cons, helt, hrest]
        rw [Nat.succ_min_succ]
        rfl
      · have hsame : e₁.state = e.state := hkept.resolve_right hfull
        rw [← hsame] at hcounts hfree
        exact ih hsound hj hcounts hfree hadds

theorem startConglomerate_begun {e e' : Editing} (he : e.Sound) {n fuel : ℕ} (hn : 1 ≤ n)
    (h : e.startConglomerate fuel n = some (e', .success)) :
    n ≤ 32767 ∧ Counts n 0 e'.state ∧ e'.links.nodes = e'.state.nodes ∧
      ∃ start rest, e'.state.free = List.range' start n ++ rest ∧
        Begun n e.links e.state.free e'.links start rest := by
  obtain ⟨k, rfl⟩ : ∃ k, n = k + 1 := ⟨n - 1, by omega⟩
  obtain ⟨⟨links, status⟩, hstart, heq⟩ := Option.map_eq_some_iff.1 h
  have hstatus : status = .success := by
    dsimp only at heq
    split at heq
    · assumption
    · exact congrArg Prod.snd heq
  subst hstatus
  obtain rfl := congrArg Prod.fst heq
  obtain ⟨start, rest, hbegun⟩ := treeStartConglomerate_begun he.holds hstart
  refine ⟨?_, ⟨?_, rfl⟩, rfl, start, rest, hbegun.holds.freeList_eq, hbegun⟩
  · by_contra hlarge
    rw [treeStartConglomerate, if_pos (by omega)] at hstart
    cases hstart
  · exact BitVec.ofInt_natCast 16 (k + 1)

/-- A conglomerate of some elements can be begun if there are not too many. Once it is, the free
nodes are linked well and are those that there were with new ones, and the calls that add nodes
give, one after the other, consecutive nodes with the elements from one up to its size. -/
theorem startConglomerate_addNodes {e : Editing} (he : e.Sound) {n : ℕ} (hn : 1 ≤ n) :
    (n ≤ 32767 → ∃ fuel e', e.startConglomerate fuel n = some (e', .success)) ∧
    ∀ fuel e', e.startConglomerate fuel n = some (e', .success) →
      e'.Sound ∧
      (∃ grown, e'.state.nodes = e.state.nodes + grown ∧
        e'.state.free.Perm (e.state.free ++ List.range' e.state.nodes grown)) ∧
      ∃ start, ∀ calls e'' given, e'.addNodes calls = .ok (e'', given) →
        given.take n = elements start 0 (min n given.length) ∧ e''.Sound := by
  constructor
  · intro hle
    obtain ⟨k, rfl⟩ : ∃ k, n = k + 1 := ⟨n - 1, by omega⟩
    obtain ⟨fuel, f', hstart⟩ := treeStartConglomerate_ends he.holds (k := k) (by omega)
    refine ⟨fuel, ?_⟩
    rw [Editing.startConglomerate, hstart]
    exact ⟨_, rfl⟩
  · intro fuel e' hstart
    obtain ⟨hle, hcounts, hnodes, start, rest, hfree, hbegun⟩ :=
      startConglomerate_begun he hn hstart
    have hsound : e'.Sound := ⟨by rw [hfree]; exact hbegun.holds, hnodes⟩
    obtain ⟨grown, hgrown, hperm⟩ := hbegun.grown
    rw [he.nodes] at hgrown hperm
    refine ⟨hsound, ⟨grown, hnodes.symm.trans hgrown, by rwa [hfree]⟩, start, ?_⟩
    intro calls e'' given hadds
    exact ⟨addNodes_given hsound hle (Nat.zero_le n) hcounts hfree hadds,
      addNodes_sound hsound hadds⟩

def newEditing : Editing where
  state := newTree
  links :=
    { nodes := 14
      free := some 1
      parent := fun n => if n + 1 < 14 then some (n + 1) else none
      child := fun n => if 1 < n then some (n - 1) else none }

theorem newEditing_sound : newEditing.Sound := by
  refine ⟨⟨⟨some 13, linked_range 1 12 (fun _ _ _ => rfl) rfl fun i hi _ => if_pos hi⟩,
    List.nodup_range', fun n hn => (List.mem_range'_1.1 hn).2⟩, rfl⟩

theorem newEditing_startConglomerate :
    ∃ fuel e', newEditing.startConglomerate fuel 20 = some (e', .success) ∧ e'.Sound := by
  obtain ⟨hbegin, hbegun⟩ := startConglomerate_addNodes newEditing_sound (n := 20) (by decide)
  obtain ⟨fuel, e', hstart⟩ := hbegin (by decide)
  exact ⟨fuel, e', hstart, (hbegun fuel e' hstart).1⟩

end MdsPlus.ConglomerateNodes
