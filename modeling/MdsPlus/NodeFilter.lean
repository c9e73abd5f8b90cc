import MdsPlus.NodeSearch

/-!
Filtering what a search finds. The cells of nodes with other usages are taken out of the list while
it is gone through, with the cell before kept at hand. What a search finds and what is left of it
are told for every tree, start and name.
-/

namespace MdsPlus.NodeFilter

open BitMemory NodeLinks NodeSearch Traversals
open Subtrees (Address)

/-- The usage is in the mask; a top node of a subtree counts as a subtree. -/
def keeps (s : Store) (usageMask : BitVec 32) (a : Address) : Bool :=
  let usage := if (s.node a).usage = TreeUSAGE_SUBTREE_TOP then TreeUSAGE_SUBTREE
    else (s.node a).usage
  decide ((1#32 <<< usage.toNat) &&& usageMask ≠ 0)

/-- The cell that is looked at, the one before it, and the first of what is left; `none` when the
fuel runs out. -/
def filterLoop (keep : ℕ → Bool) : ℕ → Option ℕ → Option ℕ → Option ℕ → (ℕ → Option ℕ) →
    Option (Option ℕ × (ℕ → Option ℕ))
  | _, none, _, answer, next => some (answer, next)
  | 0, some _, _, _, _ => none
  | fuel + 1, some ptr, previous, answer, next =>
      if keep ptr then filterLoop keep fuel (next ptr) (some ptr) answer next
      else if answer = some ptr then filterLoop keep fuel (next ptr) (next ptr) (next ptr) next
      else
        previous.bind fun cell =>
          filterLoop keep fuel (next ptr) (some cell) answer
            (Function.update next cell (next ptr))

def filter (s : Store) (usageMask : BitVec 32) (node : ℕ → Address) (fuel : ℕ)
    (list : Option ℕ) (next : ℕ → Option ℕ) : Option (Option ℕ × (ℕ → Option ℕ)) :=
  filterLoop (fun cell => keeps s usageMask (node cell)) fuel list list list next

def Holds (node : ℕ → Address) (next : ℕ → Option ℕ) (list : Option ℕ) (nodes : List Address) :
    Prop :=
  ∃ cells, Chain (fun cell => some (next cell)) list cells ∧ cells.map node = nodes

theorem filterLoop_eq (keep : ℕ → Bool) (rest kept : List ℕ) {next : ℕ → Option ℕ}
    (previous : Option ℕ) {answer : Option ℕ}
    (hchain : Chain (fun cell => some (next cell)) answer (kept ++ rest))
    (hprevious : ∀ cell, kept.getLast? = some cell → previous = some cell) {fuel : ℕ}
    (hfuel : rest.length ≤ fuel) :
    ∃ list next', filterLoop keep fuel rest.head? previous answer next = some (list, next') ∧
      Chain (fun cell => some (next' cell)) list (kept ++ rest.filter keep) := by
  induction rest generalizing kept next previous answer fuel with
  | nil =>
    refine ⟨answer, next, ?_, hchain⟩
    cases fuel <;> rfl
  | cons ptr rest ih =>
    rw [List.length_cons] at hfuel
    obtain ⟨fuel, rfl⟩ : ∃ n, fuel = n + 1 := ⟨fuel - 1, by omega⟩
    have hnodup := hchain.nodup
    have hnext : next ptr = rest.head? := by
      obtain ⟨after, hafter, hrest⟩ := hchain.after
      rw [Option.some.inj hafter, hrest.start_eq]
    rw [List.head?_cons, filterLoop]
    by_cases hkeep : keep ptr = true
    · rw [if_pos hkeep, hnext, List.filter_cons_of_pos hkeep]
      have hsplit : ∀ l, kept ++ ptr :: l = (kept ++ [ptr]) ++ l := by simp
      rw [hsplit] at hchain ⊢
      exact ih (kept ++ [ptr]) _ hchain (fun cell hcell => by simpa using hcell) (by omega)
    · rw [if_neg hkeep, hnext, List.filter_cons_of_neg hkeep]
      rcases List.eq_nil_or_concat' kept with rfl | ⟨before, cell, rfl⟩
      · -- nothing is kept yet, so the list begins with this cell
        have hanswer : answer = some ptr := hchain.start_eq
        obtain ⟨after, hafter, hrest⟩ := hchain.2
        rw [← Option.some.inj hafter, hnext] at hrest
        rw [if_pos hanswer]
        exact ih [] _ hrest (fun cell hcell => by simp at hcell) (by omega)
      · have hne : answer ≠ some ptr := by
          intro hanswer
          rw [hchain.start_eq] at hanswer
          cases before with
          | nil =>
            have hcell : cell = ptr := Option.some.inj hanswer
            simp [hcell] at hnodup
          | cons first before =>
            have hfirst : first = ptr := Option.some.inj hanswer
            simp [hfirst] at hnodup
        have hunlinked : Chain (fun c => some (Function.update next cell (next ptr) c)) answer
            ((before ++ [cell]) ++ rest) := by
          rw [List.append_assoc] at hchain ⊢
          exact hchain.unlink
        rw [if_neg hne, hprevious cell (by simp), Option.bind_some]
        rw [hnext] at hunlinked
        exact ih (before ++ [cell]) _ hunlinked (fun c hc => by simpa using hc) (by omega)

theorem filter_eq {s : Store} {node : ℕ → Address} {next : ℕ → Option ℕ} {list : Option ℕ}
    {nodes : List Address} (h : Holds node next list nodes) (usageMask : BitVec 32) :
    ∃ enough, ∀ fuel ≥ enough, ∃ list' next',
      filter s usageMask node fuel list next = some (list', next') ∧
        Holds node next' list' (nodes.filter (keeps s usageMask)) := by
  obtain ⟨cells, hchain, rfl⟩ := h
  refine ⟨cells.length, fun fuel hfuel => ?_⟩
  obtain ⟨list', next', hloop, hleft⟩ := filterLoop_eq
    (fun cell => keeps s usageMask (node cell)) cells [] list hchain
    (fun cell hcell => by simp at hcell) hfuel
  refine ⟨list', next', ?_, _, hleft, ?_⟩
  · rw [filter]
    rwa [← hchain.start_eq] at hloop
  · rw [List.filter_map]
    rfl

/-- A search finds the nodes of its closure, each once, if it is for all names, and else the start
where it is in the closure and those of the others whose names go with the term; and the filter
leaves those of them with a usage of the mask, in their order. -/
theorem find_filter (T : OpenTrees) {x : Address} (hx : T.nodes x) (spelling : Spelling)
    (stack term : List Byte) :
    ∃ below : List Address,
      (startOf x spelling.searchType ++ below).Nodup ∧
      (∀ y, y ∈ startOf x spelling.searchType ++ below ↔ InClosure T x y spelling.searchType) ∧
      ∃ found : List Address,
        found = (select (look T.store term) stack below).2 ∧
        (term = [] → found = below) ∧
        (63#8 ∉ term → 37#8 ∉ term → found = below.filter fun a =>
          matchNames (searchTerm term) ((T.store.node a).name.takeWhile (· ≠ 32) ++ [0])) ∧
        (∃ enough, ∀ fuel ≥ enough, find T.store stack fuel spelling.searchType term x =
          some (startOf x spelling.searchType ++ found)) ∧
        ∀ (usageMask : BitVec 32) (node : ℕ → Address) (next : ℕ → Option ℕ) (list : Option ℕ),
          Holds node next list (startOf x spelling.searchType ++ found) →
          ∃ enough, ∀ fuel ≥ enough, ∃ list' next',
            filter T.store usageMask node fuel list next = some (list', next') ∧
            Holds node next' list'
              ((startOf x spelling.searchType ++ found).filter (keeps T.store usageMask)) := by
  refine ⟨visited T spelling.searchType x, nodup_visited T _ x, mem_visited T _ x, _, rfl, ?_, ?_,
    ⟨(forestOf T spelling.searchType).total [x], fun fuel hfuel => ?_⟩, ?_⟩
  · rintro rfl
    exact select_look_nil T stack fun y hy => visited_nodes T hy
  · exact fun hany hany' => select_look hany hany' T.store stack _
  · exact find_eq T hx _ stack term hfuel
  · exact fun usageMask node next list hlist => filter_eq hlist usageMask

/-! ### A tree with a subtree -/

/-- The top node has a reference as first child, with a brother; the subtree that is linked has a
top node with a member. -/
def linkedStore : Store where
  nodes := [2, 1]
  node
    | (0, 0) => ⟨[65, 32], 0, 0, 0, 36, 1⟩
    | (0, 1) => ⟨[66, 32], -36, 0, 36, 0x01000000, TreeUSAGE_SUBTREE_REF⟩
    | (0, 2) => ⟨[67, 32], -72, 0, 0, 0, 1⟩
    | (1, 0) => ⟨[66, 32], 0, 36, 0x00000002, 0, TreeUSAGE_SUBTREE_TOP⟩
    | (1, 1) => ⟨[68, 32], -36, 0, 0, 0, 5⟩
    | _ => ⟨[], 0, 0, 0, 0, 0⟩

def linkedKids (k : NodeTree.Kind) (p : Address) : List Address :=
  if k = .child ∧ p = (0, 0) then [(1, 0), (0, 2)]
  else if k = .member ∧ p = (1, 0) then [(1, 1)]
  else []

theorem mem_linkedKids {k : NodeTree.Kind} {p c : Address} :
    c ∈ linkedKids k p ↔ k = .child ∧ p = (0, 0) ∧ (c = (1, 0) ∨ c = (0, 2)) ∨
      k = .member ∧ p = (1, 0) ∧ c = (1, 1) := by
  rw [linkedKids]
  split
  · rename_i h
    simp [h]
  · split
    · rename_i h
      simp [h]
    · rename_i h h'
      simp
      tauto

def linkedHeight (a : Address) : ℕ := if a = (0, 0) then 2 else if a = (1, 0) then 1 else 0

theorem linkedHeight_lt {p c : Address} (h : ∃ k, c ∈ linkedKids k p) :
    linkedHeight c < linkedHeight p := by
  obtain ⟨k, hk⟩ := h
  rcases mem_linkedKids.1 hk with ⟨-, rfl, rfl | rfl⟩ | ⟨-, rfl, rfl⟩ <;> decide

def linkedTrees : OpenTrees where
  store := linkedStore
  nodes a := a ∈ [((0, 0) : Address), (1, 0), (0, 2), (1, 1)]
  kids := linkedKids
  inside h := by
    rcases mem_linkedKids.1 h with ⟨-, rfl, rfl | rfl⟩ | ⟨-, rfl, rfl⟩ <;> decide
  members a ha := by
    simp only [List.mem_cons, List.not_mem_nil, or_false] at ha
    rcases ha with rfl | rfl | rfl | rfl
    · exact rfl
    · exact ⟨rfl, none, rfl, rfl⟩
    · exact rfl
    · exact rfl
  children a ha := by
    simp only [List.mem_cons, List.not_mem_nil, or_false] at ha
    rcases ha with rfl | rfl | rfl | rfl
    · exact ⟨rfl, some (0, 2), rfl, rfl, none, rfl, rfl⟩
    · exact rfl
    · exact rfl
    · exact rfl
  parent h := by
    rcases mem_linkedKids.1 h with ⟨-, rfl, rfl | rfl⟩ | ⟨-, rfl, rfl⟩ <;> decide
  apart h h' := by
    rcases mem_linkedKids.1 h with ⟨hk, -⟩ | ⟨-, rfl, rfl⟩
    · cases hk
    · revert h'
      decide
  ends := Subrelation.wf linkedHeight_lt (measure linkedHeight).wf
  named := by
    decide

/-- From the top node the search for members and children comes into the subtree. -/
theorem find_linkedTrees :
    ∃ enough, ∀ fuel ≥ enough, ∃ found,
      find linkedStore [] fuel .childOrMemberSearch [] (0, 0) = some found ∧ found.Nodup ∧
        (1, 1) ∈ found := by
  have hx : linkedTrees.nodes (0, 0) := List.mem_cons_self
  obtain ⟨below, hnodup, hclosure, found, rfl, hall, -, ⟨enough, hfind⟩, -⟩ :=
    find_filter linkedTrees hx .tildes [] []
  refine ⟨enough, fun fuel hfuel => ⟨_, hfind fuel hfuel, ?_⟩⟩
  rw [hall rfl]
  refine ⟨hnodup, (hclosure (1, 1)).2 ?_⟩
  have hchild : ∃ k, ((1, 0) : Address) ∈ linkedTrees.kids k (0, 0) :=
    ⟨.child, mem_linkedKids.2 (Or.inl ⟨rfl, rfl, Or.inl rfl⟩)⟩
  have hmember : ∃ k, ((1, 1) : Address) ∈ linkedTrees.kids k (1, 0) :=
    ⟨.member, mem_linkedKids.2 (Or.inr ⟨rfl, rfl, rfl⟩)⟩
  exact (Relation.ReflTransGen.single hchild).tail hmember

end MdsPlus.NodeFilter
