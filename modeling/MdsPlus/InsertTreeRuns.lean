import MdsPlus.InsertTree
import Mathlib.Data.List.Perm.Lattice

/-!
Runs of insertions. A subtree that has grown is told by a status that is not zero, which is
taken for one that has not: nodes are never rotated and balances stay zero. The tree is a
search tree of the keys inserted, but it is balanced only as long as it has one node.
-/

namespace MdsPlus.InsertTreeRuns

open InsertTree

variable {κ : Type*}

def entries : LibTreeNode κ → List (ℕ × κ)
  | .empty => []
  | .node block key _ left right => entries left ++ (block, key) :: entries right

def keys (t : LibTreeNode κ) : List κ := (entries t).map Prod.snd

def blocks (t : LibTreeNode κ) : List ℕ := (entries t).map Prod.fst

/-- What traversal does with a list of nodes. -/
def visit {σ : Type*} (rtn : ℕ × κ → σ → σ × ℤ) : List (ℕ × κ) → σ → σ × ℤ
  | [], x => (x, MDSplusSUCCESS)
  | e :: l, x =>
      let (x, status) := rtn e x
      if status % 2 ≠ 1 then (x, status) else visit rtn l x

theorem visit_append {σ : Type*} (rtn : ℕ × κ → σ → σ × ℤ) (l l' : List (ℕ × κ)) (x : σ) :
    visit rtn (l ++ l') x =
      if (visit rtn l x).2 % 2 ≠ 1 then visit rtn l x else visit rtn l' (visit rtn l x).1 := by
  induction l generalizing x with
  | nil =>
    have h : ¬ MDSplusSUCCESS % 2 ≠ 1 := by decide
    exact (if_neg h).symm
  | cons e l ih =>
    simp only [List.cons_append, visit]
    by_cases h : (rtn e x).2 % 2 ≠ 1
    · simp only [if_pos h]
    · simp only [if_neg h, ih]

theorem libTraverseTree_eq_visit {σ : Type*} (rtn : ℕ × κ → σ → σ × ℤ) (t : LibTreeNode κ)
    (x : σ) :
    libTraverseTree rtn t x = visit rtn (entries t) x := by
  induction t generalizing x with
  | empty => rfl
  | node block key bal left right ihl ihr =>
    simp only [libTraverseTree, entries, visit_append, ihl, ihr]
    by_cases h : (visit rtn (entries left) x).2 % 2 ≠ 1
    · simp only [if_pos h]
    · simp only [if_neg h, visit]

def SearchTree [LE κ] : LibTreeNode κ → Prop
  | .empty => True
  | .node _ key _ left right =>
      (∀ k ∈ keys left, k ≤ key) ∧ (∀ k ∈ keys right, key ≤ k) ∧
        SearchTree left ∧ SearchTree right

theorem keys_node (block : ℕ) (key : κ) (bal : ℤ) (left right : LibTreeNode κ) :
    keys (.node block key bal left right) = keys left ++ key :: keys right := by
  simp only [keys, entries, List.map_append, List.map_cons]

theorem blocks_node (block : ℕ) (key : κ) (bal : ℤ) (left right : LibTreeNode κ) :
    blocks (.node block key bal left right) = blocks left ++ block :: blocks right := by
  simp only [blocks, entries, List.map_append, List.map_cons]

def inserted (calls : List (Call κ)) (replies : List Reply) : List κ :=
  ((calls.zip replies).filter fun p => p.2.found = .inserted).map fun p => p.1.key

theorem inserted_cons (c : Call κ) (reply : Reply) (calls : List (Call κ))
    (replies : List Reply) :
    inserted (c :: calls) (reply :: replies) = inserted [c] [reply] ++ inserted calls replies := by
  simp only [inserted, List.zip_cons_cons, List.zip_nil_right, List.filter_cons,
    List.filter_nil]
  split <;> rfl

/-! ### One insertion -/

section Insertion

/-- Insertion without balancing. -/
def plain (compare : κ → κ → ℤ) (key : κ) (block : ℕ) : LibTreeNode κ → LibTreeNode κ
  | .empty => .node block key 0 .empty .empty
  | .node b k bal left right =>
      if compare key k ≤ 0 then .node b k bal (plain compare key block left) right
      else .node b k bal left (plain compare key block right)

variable (compare : κ → κ → ℤ)

theorem success_ne_zero : MDSplusSUCCESS ≠ 0 := by decide

theorem error_ne_zero : MDSplusERROR ≠ 0 := by decide

theorem mdsInsertTree_present {key : κ} {flags : ℤ} (alloc : Option ℕ) {t : LibTreeNode κ}
    {block : ℕ}
    (hflags : flags % 2 = 0) (h : libLookupTree compare key t = some block) :
    ∃ current, mdsInsertTree compare key flags alloc t =
      some ⟨current, some block, .present, MDSplusSUCCESS⟩ := by
  induction t with
  | empty => cases h
  | node b k bal left right ihl ihr =>
    unfold libLookupTree at h
    unfold mdsInsertTree
    split at h
    · rename_i hzero
      cases h
      rw [if_pos (Int.le_of_eq hzero), if_pos ⟨hzero, hflags⟩]
      exact ⟨_, rfl⟩
    · rename_i hzero
      split at h
      · rename_i hneg
        obtain ⟨current, hc⟩ := ihl h
        rw [if_pos (Int.le_of_lt hneg), if_neg (fun h => hzero h.1), hc]
        exact ⟨current, rfl⟩
      · rename_i hneg
        obtain ⟨current, hc⟩ := ihr h
        rw [if_neg (by omega), hc]
        exact ⟨current, rfl⟩

theorem lookup_left {key k : κ} {flags : ℤ} {b : ℕ} {bal : ℤ} {left right : LibTreeNode κ}
    (h : flags % 2 = 0 → libLookupTree compare key (.node b k bal left right) = none)
    (hle : compare key k ≤ 0) :
    ¬ (compare key k = 0 ∧ flags % 2 = 0) ∧
      (flags % 2 = 0 → libLookupTree compare key left = none) := by
  have hnot : ¬ (compare key k = 0 ∧ flags % 2 = 0) := by
    rintro ⟨hzero, hflags⟩
    have := h hflags
    unfold libLookupTree at this
    rw [if_pos hzero] at this
    cases this
  refine ⟨hnot, ?_⟩
  intro hflags
  have hnone := h hflags
  have hzero : ¬ compare key k = 0 := fun hzero => hnot ⟨hzero, hflags⟩
  unfold libLookupTree at hnone
  rwa [if_neg hzero, if_pos (by omega)] at hnone

theorem lookup_right {key k : κ} {flags : ℤ} {b : ℕ} {bal : ℤ} {left right : LibTreeNode κ}
    (h : flags % 2 = 0 → libLookupTree compare key (.node b k bal left right) = none)
    (hle : ¬ compare key k ≤ 0) :
    flags % 2 = 0 → libLookupTree compare key right = none := by
  intro hflags
  have hnone := h hflags
  unfold libLookupTree at hnone
  rwa [if_neg (by omega), if_neg (by omega)] at hnone

theorem mdsInsertTree_failed {key : κ} {flags : ℤ} {t : LibTreeNode κ}
    (h : flags % 2 = 0 → libLookupTree compare key t = none) :
    ∃ current status, mdsInsertTree compare key flags none t =
      some ⟨current, none, .failed, status⟩ := by
  induction t with
  | empty => exact ⟨_, _, rfl⟩
  | node b k bal left right ihl ihr =>
    unfold mdsInsertTree
    by_cases hle : compare key k ≤ 0
    · obtain ⟨hnot, hleft⟩ := lookup_left compare h hle
      obtain ⟨current, status, hc⟩ := ihl hleft
      rw [if_pos hle, if_neg hnot, hc]
      exact ⟨current, _, rfl⟩
    · obtain ⟨current, status, hc⟩ := ihr (lookup_right compare h hle)
      rw [if_neg hle, hc]
      exact ⟨current, _, rfl⟩

theorem mdsInsertTree_inserted {key : κ} {flags : ℤ} (block : ℕ) {t : LibTreeNode κ}
    (h : flags % 2 = 0 → libLookupTree compare key t = none) :
    ∃ status, status ≠ 0 ∧ mdsInsertTree compare key flags (some block) t =
      some ⟨plain compare key block t, some block, .inserted, status⟩ := by
  have hnot : ¬ (Found.inserted = .present ∨ Found.inserted = .failed) := by decide
  induction t with
  | empty => exact ⟨MDSplusERROR, error_ne_zero, rfl⟩
  | node b k bal left right ihl ihr =>
    unfold mdsInsertTree plain
    by_cases hle : compare key k ≤ 0
    · obtain ⟨hfound, hleft⟩ := lookup_left compare h hle
      obtain ⟨status, hstatus, hc⟩ := ihl hleft
      refine ⟨MDSplusSUCCESS, success_ne_zero, ?_⟩
      rw [if_pos hle, if_pos hle, if_neg hfound, hc]
      simp only [Option.bind_some, if_neg hnot, if_pos hstatus]
    · obtain ⟨status, hstatus, hc⟩ := ihr (lookup_right compare h hle)
      refine ⟨MDSplusSUCCESS, success_ne_zero, ?_⟩
      rw [if_neg hle, if_neg hle, hc]
      simp only [Option.bind_some, if_neg hnot, if_pos hstatus]

theorem libInsertTree_present {key : κ} {flags : ℤ} (alloc : Option ℕ) {t : LibTreeNode κ}
    {block : ℕ} (hflags : flags % 2 = 0) (h : libLookupTree compare key t = some block) :
    libInsertTree compare key flags alloc t = some (t, some block, .present) := by
  obtain ⟨current, hc⟩ := mdsInsertTree_present compare alloc hflags h
  unfold libInsertTree
  rw [hc]
  rfl

theorem libInsertTree_failed {key : κ} {flags : ℤ} {t : LibTreeNode κ}
    (h : flags % 2 = 0 → libLookupTree compare key t = none) :
    libInsertTree compare key flags none t = some (t, none, .failed) := by
  obtain ⟨current, status, hc⟩ := mdsInsertTree_failed compare h
  unfold libInsertTree
  rw [hc]
  rfl

theorem libInsertTree_inserted {key : κ} {flags : ℤ} (block : ℕ) {t : LibTreeNode κ}
    (h : flags % 2 = 0 → libLookupTree compare key t = none) :
    libInsertTree compare key flags (some block) t =
      some (plain compare key block t, some block, .inserted) := by
  obtain ⟨status, -, hc⟩ := mdsInsertTree_inserted compare block h
  unfold libInsertTree
  rw [hc]
  rfl

theorem entries_plain (key : κ) (block : ℕ) (t : LibTreeNode κ) :
    (entries (plain compare key block t)).Perm ((block, key) :: entries t) := by
  induction t with
  | empty => exact List.Perm.refl _
  | node b k bal left right ihl ihr =>
    unfold plain
    split
    · simp only [entries]
      exact ihl.append_right _
    · simp only [entries]
      refine ((ihr.cons (b, k)).append_left (entries left)).trans ?_
      exact ((List.Perm.swap _ _ _).append_left _).trans List.perm_middle

theorem keys_plain (key : κ) (block : ℕ) (t : LibTreeNode κ) :
    (keys (plain compare key block t)).Perm (key :: keys t) :=
  (entries_plain compare key block t).map Prod.snd

end Insertion

section Order

variable [LinearOrder κ]

theorem searchTree_iff {t : LibTreeNode κ} : SearchTree t ↔ (keys t).Pairwise (· ≤ ·) := by
  induction t with
  | empty => simp [SearchTree, keys, entries]
  | node block key bal left right ihl ihr =>
    rw [keys_node, List.pairwise_append, List.pairwise_cons, ← ihl, ← ihr]
    change (_ ∧ _ ∧ SearchTree left ∧ SearchTree right) ↔ _
    constructor
    · rintro ⟨hleft, hright, hl, hr⟩
      refine ⟨hl, ⟨hright, hr⟩, ?_⟩
      intro a ha b hb
      rcases List.mem_cons.1 hb with rfl | hb
      · exact hleft a ha
      · exact (hleft a ha).trans (hright b hb)
    · rintro ⟨hl, ⟨hright, hr⟩, hboth⟩
      exact ⟨fun k hk => hboth k hk key List.mem_cons_self, hright, hl, hr⟩

variable (cmp : Comparison κ)

theorem compare_pos {a b : κ} (hne : ¬ cmp.compare a b = 0) (hneg : ¬ cmp.compare a b < 0) :
    b < a := by
  rw [cmp.zero] at hne
  rw [cmp.neg] at hneg
  exact lt_of_le_of_ne (not_lt.1 hneg) (Ne.symm hne)

theorem mem_of_lookup {key : κ} {block : ℕ} {t : LibTreeNode κ}
    (h : libLookupTree cmp.compare key t = some block) : (block, key) ∈ entries t := by
  induction t with
  | empty => cases h
  | node b k bal left right ihl ihr =>
    unfold libLookupTree at h
    rw [entries, List.mem_append, List.mem_cons]
    split at h
    · rename_i hzero
      rw [cmp.zero] at hzero
      cases h
      exact Or.inr (Or.inl (by rw [hzero]))
    · split at h
      · exact Or.inl (ihl h)
      · exact Or.inr (Or.inr (ihr h))

theorem exists_lookup {key : κ} {t : LibTreeNode κ} (ht : SearchTree t) (hkey : key ∈ keys t) :
    ∃ block, libLookupTree cmp.compare key t = some block := by
  induction t with
  | empty => simp [keys, entries] at hkey
  | node b k bal left right ihl ihr =>
    obtain ⟨hleft, hright, hl, hr⟩ := ht
    rw [keys_node, List.mem_append, List.mem_cons] at hkey
    unfold libLookupTree
    by_cases hzero : cmp.compare key k = 0
    · exact ⟨b, if_pos hzero⟩
    · rw [if_neg hzero]
      by_cases hneg : cmp.compare key k < 0
      · rw [if_pos hneg]
        have hlt := (cmp.neg _ _).1 hneg
        rcases hkey with hkey | rfl | hkey
        · exact ihl hl hkey
        · exact absurd hlt (lt_irrefl _)
        · exact absurd hlt (not_lt.2 (hright key hkey))
      · rw [if_neg hneg]
        have hlt := compare_pos cmp hzero hneg
        rcases hkey with hkey | rfl | hkey
        · exact absurd hlt (not_lt.2 (hleft key hkey))
        · exact absurd hlt (lt_irrefl _)
        · exact ihr hr hkey

theorem lookup_isSome_iff {key : κ} {t : LibTreeNode κ} (ht : SearchTree t) :
    (libLookupTree cmp.compare key t).isSome ↔ key ∈ keys t := by
  constructor
  · intro h
    obtain ⟨block, hblock⟩ := Option.isSome_iff_exists.1 h
    exact List.mem_map.2 ⟨_, mem_of_lookup cmp hblock, rfl⟩
  · intro h
    obtain ⟨block, hblock⟩ := exists_lookup cmp ht h
    rw [hblock]
    rfl

theorem searchTree_plain (key : κ) (block : ℕ) {t : LibTreeNode κ} (ht : SearchTree t) :
    SearchTree (plain cmp.compare key block t) := by
  induction t with
  | empty => simp [plain, SearchTree, keys, entries]
  | node b k bal left right ihl ihr =>
    obtain ⟨hleft, hright, hl, hr⟩ := ht
    unfold plain
    split
    · rename_i hle
      refine ⟨?_, hright, ihl hl, hr⟩
      intro x hx
      rcases List.mem_cons.1 ((keys_plain cmp.compare key block left).mem_iff.1 hx) with rfl | hx
      · rcases Int.lt_or_eq_of_le hle with hneg | hzero
        · exact le_of_lt ((cmp.neg _ _).1 hneg)
        · exact le_of_eq ((cmp.zero _ _).1 hzero)
      · exact hleft x hx
    · rename_i hle
      refine ⟨hleft, ?_, hl, ihr hr⟩
      intro x hx
      rcases List.mem_cons.1 ((keys_plain cmp.compare key block right).mem_iff.1 hx) with rfl | hx
      · exact le_of_lt (compare_pos cmp (by omega) (by omega))
      · exact hright x hx

inductive Effect (s : State κ) (c : Call κ) : State κ → Reply → Prop
  | present (block : ℕ) (hflags : c.flags % 2 = 0)
      (hfound : libLookupTree cmp.compare c.key s.head = some block) :
      Effect s c s ⟨some block, .present⟩
  | failed (hnew : c.flags % 2 = 0 → libLookupTree cmp.compare c.key s.head = none)
      (halloc : c.allocates = false) : Effect s c s ⟨none, .failed⟩
  | inserted (hnew : c.flags % 2 = 0 → libLookupTree cmp.compare c.key s.head = none)
      (halloc : c.allocates = true) :
      Effect s c ⟨plain cmp.compare c.key s.next s.head, s.next + 1⟩ ⟨some s.next, .inserted⟩

theorem step_present {s : State κ} {c : Call κ} {block : ℕ} (hflags : c.flags % 2 = 0)
    (hfound : libLookupTree cmp.compare c.key s.head = some block) :
    step cmp.compare s c = some (s, ⟨some block, .present⟩) := by
  unfold step
  rw [libInsertTree_present cmp.compare _ hflags hfound]
  rfl

theorem step_new {s : State κ} {c : Call κ}
    (hnew : c.flags % 2 = 0 → libLookupTree cmp.compare c.key s.head = none) :
    step cmp.compare s c =
      if c.allocates then
        some (⟨plain cmp.compare c.key s.next s.head, s.next + 1⟩, ⟨some s.next, .inserted⟩)
      else some (s, ⟨none, .failed⟩) := by
  unfold step
  cases halloc : c.allocates with
  | false =>
    rw [if_neg Bool.false_ne_true, if_neg Bool.false_ne_true, libInsertTree_failed cmp.compare hnew]
    rfl
  | true =>
    rw [if_pos rfl, if_pos rfl, libInsertTree_inserted cmp.compare s.next hnew]
    rfl

theorem step_effect (s : State κ) (c : Call κ) :
    ∃ s' reply, step cmp.compare s c = some (s', reply) ∧ Effect cmp s c s' reply := by
  by_cases hnew : c.flags % 2 = 0 → libLookupTree cmp.compare c.key s.head = none
  · rw [step_new cmp hnew]
    cases halloc : c.allocates with
    | false => exact ⟨_, _, if_neg Bool.false_ne_true, .failed hnew halloc⟩
    | true => exact ⟨_, _, if_pos rfl, .inserted hnew halloc⟩
  · rw [Classical.not_imp] at hnew
    obtain ⟨hflags, hsome⟩ := hnew
    obtain ⟨block, hblock⟩ := Option.ne_none_iff_exists'.1 hsome
    exact ⟨_, _, step_present cmp hflags hblock, .present block hflags hblock⟩

/-! ### The tree as a map -/

structure Holds (s : State κ) (inserted : List κ) : Prop where
  search : SearchTree s.head
  exactly : (keys s.head).Perm inserted
  /-- Nodes are at different places. -/
  distinct : (blocks s.head).Nodup
  given : ∀ block ∈ blocks s.head, block < s.next

theorem holds_start : Holds (start : State κ) [] where
  search := trivial
  exactly := List.Perm.refl _
  distinct := List.nodup_nil
  given := fun _ h => by cases h

theorem Holds.effect {s s' : State κ} {c : Call κ} {reply : Reply} {before : List κ}
    (h : Holds s before) (heffect : Effect cmp s c s' reply) :
    Holds s' (before ++ inserted [c] [reply]) := by
  cases heffect with
  | present block hflags hfound =>
    have : before ++ inserted [c] [⟨some block, .present⟩] = before := List.append_nil _
    rw [this]
    exact h
  | failed hnew halloc =>
    have : before ++ inserted [c] [⟨none, .failed⟩] = before := List.append_nil _
    rw [this]
    exact h
  | inserted hnew halloc =>
    have hblocks := (entries_plain cmp.compare c.key s.next s.head).map Prod.fst
    refine
      { search := searchTree_plain cmp c.key s.next h.search
        exactly := ?_
        distinct := ?_
        given := ?_ }
    · refine (keys_plain cmp.compare c.key s.next s.head).trans ?_
      exact (h.exactly.cons c.key).trans (List.perm_append_singleton _ _).symm
    · unfold blocks
      rw [hblocks.nodup_iff]
      refine List.nodup_cons.2 ⟨?_, h.distinct⟩
      exact fun hmem => Nat.lt_irrefl _ (h.given _ hmem)
    · intro block hblock
      rcases List.mem_cons.1 (hblocks.mem_iff.1 hblock) with rfl | hblock
      · exact Nat.lt_succ_self _
      · exact Nat.lt_succ_of_lt (h.given block hblock)

theorem holds_run {s : State κ} {before : List κ} (h : Holds s before) (calls : List (Call κ)) :
    ∃ s' replies, run cmp.compare s calls = some (s', replies) ∧
      Holds s' (before ++ inserted calls replies) := by
  induction calls generalizing s before with
  | nil =>
    refine ⟨s, [], rfl, ?_⟩
    simpa [inserted] using h
  | cons c calls ih =>
    obtain ⟨t, reply, hstep, heffect⟩ := step_effect cmp s c
    obtain ⟨s', replies, hrun, hholds⟩ := ih (h.effect cmp heffect)
    refine ⟨s', reply :: replies, ?_, ?_⟩
    · simp only [run, hstep, Option.bind_some, hrun, Option.map_some]
    · rw [inserted_cons, ← List.append_assoc]
      exact hholds

theorem nodup_effect {s s' : State κ} {c : Call κ} {reply : Reply} (hs : SearchTree s.head)
    (heffect : Effect cmp s c s' reply) (hflags : c.flags % 2 = 0)
    (h : (keys s.head).Nodup) : (keys s'.head).Nodup := by
  cases heffect with
  | present block _ hfound => exact h
  | failed hnew halloc => exact h
  | inserted hnew halloc =>
    rw [(keys_plain cmp.compare c.key s.next s.head).nodup_iff]
    refine List.nodup_cons.2 ⟨?_, h⟩
    intro hmem
    obtain ⟨block, hblock⟩ := exists_lookup cmp hs hmem
    rw [hnew hflags] at hblock
    cases hblock

theorem nodup_run {s s' : State κ} {before : List κ} {calls : List (Call κ)}
    {replies : List Reply} (h : Holds s before) (hnodup : (keys s.head).Nodup)
    (hflags : ∀ c ∈ calls, c.flags % 2 = 0)
    (hrun : run cmp.compare s calls = some (s', replies)) : (keys s'.head).Nodup := by
  induction calls generalizing s before replies with
  | nil =>
    cases hrun
    exact hnodup
  | cons c calls ih =>
    obtain ⟨t, reply, hstep, heffect⟩ := step_effect cmp s c
    simp only [run, hstep, Option.bind_some, Option.map_eq_some_iff] at hrun
    obtain ⟨⟨u, rest⟩, hrest, heq⟩ := hrun
    cases heq
    exact ih (h.effect cmp heffect)
      (nodup_effect cmp h.search heffect (hflags c List.mem_cons_self) hnodup)
      (fun d hd => hflags d (List.mem_cons_of_mem _ hd)) hrest

/-- After any calls the tree is a search tree of exactly the keys inserted. These are found
and no others, repeating one without asking for another node changes nothing, and traversal
comes to each node once in ascending order. -/
theorem libInsertTree_run (calls : List (Call κ)) :
    ∃ s replies, run cmp.compare start calls = some (s, replies) ∧
      SearchTree s.head ∧ (keys s.head).Perm (inserted calls replies) ∧
      (∀ key, (libLookupTree cmp.compare key s.head).isSome ↔ key ∈ inserted calls replies) ∧
      (∀ key block, libLookupTree cmp.compare key s.head = some block →
        (block, key) ∈ entries s.head) ∧
      (∀ c : Call κ, c.flags % 2 = 0 → c.key ∈ inserted calls replies →
        ∃ block, (block, c.key) ∈ entries s.head ∧
          step cmp.compare s c = some (s, ⟨some block, .present⟩)) ∧
      (∀ c : Call κ, c.allocates = false →
        ∃ reply, step cmp.compare s c = some (s, reply) ∧ reply.found ≠ .inserted) ∧
      (∀ (σ : Type) (rtn : ℕ × κ → σ → σ × ℤ) (x : σ),
        libTraverseTree rtn s.head x = visit rtn (entries s.head) x) ∧
      (blocks s.head).Nodup ∧ (keys s.head).Pairwise (· ≤ ·) ∧
      ((∀ c ∈ calls, c.flags % 2 = 0) → (keys s.head).Pairwise (· < ·)) := by
  obtain ⟨s, replies, hrun, h⟩ := holds_run cmp holds_start calls
  rw [List.nil_append] at h
  have hsorted := searchTree_iff.1 h.search
  refine ⟨s, replies, hrun, h.search, h.exactly, ?_, ?_, ?_, ?_, ?_, h.distinct, hsorted, ?_⟩
  · intro key
    rw [lookup_isSome_iff cmp h.search]
    exact h.exactly.mem_iff
  · exact fun key block => mem_of_lookup cmp
  · intro c hflags hmem
    obtain ⟨block, hblock⟩ := exists_lookup cmp h.search (h.exactly.mem_iff.2 hmem)
    exact ⟨block, mem_of_lookup cmp hblock, step_present cmp hflags hblock⟩
  · intro c halloc
    obtain ⟨s', reply, hstep, heffect⟩ := step_effect cmp s c
    refine ⟨reply, ?_⟩
    cases heffect with
    | present block _ _ => exact ⟨hstep, fun h => by cases h⟩
    | failed _ _ => exact ⟨hstep, fun h => by cases h⟩
    | inserted _ hyes =>
      rw [halloc] at hyes
      cases hyes
  · exact fun σ rtn x => libTraverseTree_eq_visit rtn s.head x
  · intro hflags
    have hnodup := nodup_run cmp holds_start List.nodup_nil hflags hrun
    exact (hsorted.and hnodup).imp fun h => lt_of_le_of_ne h.1 h.2

end Order

/-- Insertion of 5 that asks for another node each time. -/
def again : Call ℤ := ⟨5, 1, true⟩

/-- The second call makes a second node, as it is asked to. -/
theorem step_again : ∃ s s', run (fun a b => a - b) start [again] = some (s, [⟨some 0, .inserted⟩]) ∧
    step (fun a b => a - b) s again = some (s', ⟨some 1, .inserted⟩) ∧ s' ≠ s :=
  ⟨⟨.node 0 5 0 .empty .empty, 1⟩, ⟨.node 0 5 0 (.node 1 5 0 .empty .empty) .empty, 2⟩,
    by decide, by decide, by decide⟩

end MdsPlus.InsertTreeRuns
