import MdsPlus.InsertTreeRuns
import MdsPlus.Variables

/-!
What operations leave alone in the zones of the private variables. New nodes get new places, and
data are written at nodes of the present tree only, also by functions that are called.
-/

namespace MdsPlus.VariableFrames

open InsertTree (LibTreeNode libLookupTree)
open InsertTreeRuns VariableNames Variables

variable {α : Type}

theorem mem_blocks_of_lookup {compare : Name → Name → ℤ} {key : Name} {p : ℕ}
    {t : LibTreeNode Name} (h : libLookupTree compare key t = some p) : p ∈ blocks t := by
  induction t with
  | empty => cases h
  | node block k bal left right ihl ihr =>
    unfold libLookupTree at h
    rw [blocks_node, List.mem_append, List.mem_cons]
    split at h
    · cases h
      exact Or.inr (Or.inl rfl)
    · split at h
      · exact Or.inl (ihl h)
      · exact Or.inr (Or.inr (ihr h))

/-- Below a place, only data of the nodes of a tree change, and the tree grows above it. -/
structure Kept (base : ℕ) (b b' : Block α) : Prop where
  next : b.next ≤ b'.next
  xd : ∀ p, p < base → p ∉ blocks b.head → b'.xd p = b.xd p
  head : ∀ p ∈ blocks b'.head, p ∈ blocks b.head ∨ base ≤ p ∧ p < b'.next

variable {base : ℕ} {b b' b'' : Block α}

theorem Kept.refl (base : ℕ) (b : Block α) : Kept base b b :=
  ⟨Nat.le_refl _, fun _ _ _ => rfl, fun _ hp => Or.inl hp⟩

theorem Kept.trans (h : Kept base b b') (h' : Kept base b' b'') : Kept base b b'' := by
  refine ⟨Nat.le_trans h.next h'.next, ?_, ?_⟩
  · intro p hp hout
    have hout' : p ∉ blocks b'.head := by
      intro hin
      obtain hin | ⟨hle, -⟩ := h.head p hin
      · exact hout hin
      · omega
    rw [h'.xd p hp hout', h.xd p hp hout]
  · intro p hp
    obtain hin | hnew := h'.head p hp
    · obtain hin | ⟨hle, hlt⟩ := h.head p hin
      · exact Or.inl hin
      · exact Or.inr ⟨hle, Nat.lt_of_lt_of_le hlt h'.next⟩
    · exact Or.inr hnew

theorem Kept.write (h : Kept base b b') {p : ℕ} (hp : p ∈ blocks b.head ∨ base ≤ p) (xd : Xd α) :
    Kept base b (writeXd b' p xd) := by
  refine ⟨h.next, ?_, h.head⟩
  intro q hq hout
  have hne : q ≠ p := by
    intro heq
    subst heq
    obtain hin | hle := hp
    · exact hout hin
    · omega
  exact (if_neg hne).trans (h.xd q hq hout)

theorem Kept.writeData (h : Kept base b b') {p : ℕ} (hp : p ∈ blocks b.head ∨ base ≤ p)
    (data : Option (Option α)) (memory : Memory) :
    Kept base b (writeData b' p data memory).1 := by
  unfold Variables.writeData
  cases data with
  | none => exact h.write hp _
  | some v =>
    dsimp only
    split
    · exact h.write hp _
    · exact h.write hp _

theorem putNode_kept (hbase : base ≤ b.next) {key : Name} {data : Option (Option α)}
    {memory : Memory} {status : Status} (h : putNode b key data memory = some (b', status)) :
    Kept base b b' := by
  unfold putNode at h
  cases hp : libLookupTree strCaseBlindCompare key b.head with
  | some p =>
    rw [libInsertTree_present strCaseBlindCompare _ rfl hp] at h
    obtain ⟨rfl, -⟩ := Prod.mk.inj (Option.some.inj h)
    exact (Kept.refl base b).writeData (Or.inl (mem_blocks_of_lookup hp)) data memory
  | none =>
    cases halloc : memory.allocates with
    | false =>
      rw [halloc, if_neg Bool.false_ne_true,
        libInsertTree_failed strCaseBlindCompare fun _ => hp] at h
      cases h
      exact Kept.refl base b
    | true =>
      rw [halloc, if_pos rfl,
        libInsertTree_inserted strCaseBlindCompare b.next fun _ => hp] at h
      obtain ⟨rfl, -⟩ := Prod.mk.inj (Option.some.inj h)
      have hgrown : Kept base b { b with
          head := plain strCaseBlindCompare key b.next b.head, next := b.next + 1 } := by
        refine ⟨Nat.le_succ _, fun _ _ _ => rfl, ?_⟩
        intro p hp
        have hentries := (entries_plain strCaseBlindCompare key b.next b.head).map Prod.fst
        obtain heq | hin := List.mem_cons.mp (hentries.mem_iff.mp hp)
        · exact Or.inr ⟨by rw [heq]; exact hbase, by rw [heq]; exact Nat.lt_succ_self _⟩
        · exact Or.inl hin
      exact hgrown.writeData (Or.inr hbase) data memory

theorem freeNodes_out {t : LibTreeNode Name} {xd : ℕ → Xd α} {p : ℕ} (hp : p ∉ blocks t) :
    freeNodes t xd p = xd p := by
  induction t generalizing xd with
  | empty => rfl
  | node block key bal left right ihl ihr =>
    rw [blocks_node, List.mem_append, List.mem_cons, not_or, not_or] at hp
    unfold freeNodes
    rw [ihr hp.2.2, ihl hp.1]
    exact if_neg hp.2.1

theorem freeAll_kept (base : ℕ) (b : Block α) : Kept base b (freeAll b) := by
  refine ⟨Nat.le_refl _, fun p _ hout => freeNodes_out hout, ?_⟩
  intro p hp
  cases hp

theorem freeOne_out {pattern : Name} {e : ℕ × Name} (x : (ℕ → Xd α) × ℕ) {p : ℕ}
    (hp : p ≠ e.1) : (freeOne pattern e x).1.1 p = x.1 p := by
  unfold freeOne
  split
  · rfl
  · split
    · exact if_neg hp
    · rfl

theorem visit_out {pattern : Name} {l : List (ℕ × Name)} (x : (ℕ → Xd α) × ℕ) {p : ℕ}
    (hp : p ∉ l.map Prod.fst) : (visit (freeOne pattern) l x).1.1 p = x.1 p := by
  induction l generalizing x with
  | nil => rfl
  | cons e l ih =>
    rw [List.map_cons, List.mem_cons, not_or] at hp
    unfold visit
    dsimp only
    split
    · exact freeOne_out x hp.1
    · rw [ih _ hp.2]
      exact freeOne_out x hp.1

theorem nodeAt_mem {t : LibTreeNode Name} {p : ℕ} {e : ℕ × Name} (h : nodeAt t p = some e) :
    e.1 ∈ blocks t := by
  induction t with
  | empty => cases h
  | node block key bal left right ihl ihr =>
    rw [blocks_node, List.mem_append, List.mem_cons]
    unfold nodeAt at h
    split at h
    · cases h
      exact Or.inr (Or.inl rfl)
    · obtain hl | ⟨-, hr⟩ := Option.or_eq_some_iff.mp h
      · exact Or.inl (ihl hl)
      · exact Or.inr (Or.inr (ihr hr))

theorem freeMatching_kept (base : ℕ) (b : Block α) (pattern : Name) (all : Bool) (count : ℕ) :
    Kept base b (freeMatching b pattern all count).1 := by
  unfold freeMatching
  split
  · refine ⟨Nat.le_refl _, ?_, fun _ hp => Or.inl hp⟩
    intro p _ hout
    dsimp only
    rw [libTraverseTree_eq_visit]
    exact visit_out _ hout
  · split
    · exact Kept.refl base b
    · next e he =>
      obtain ⟨q, -, hnode⟩ := Option.bind_eq_some_iff.mp he
      refine ⟨Nat.le_refl _, ?_, fun _ hp => Or.inl hp⟩
      intro p _ hout
      exact freeOne_out _ fun heq => hout (heq ▸ nodeAt_mem hnode)

/-! ### Operations -/

/-- Whatever comes out of a step. -/
def KeptBy {β : Type} (base : ℕ) (s : Vars α) (r : Option (Vars α × β)) : Prop :=
  ∀ s' x, r = some (s', x) → Kept base s.priv s'.priv ∧ s'.narg = s.narg

variable {β γ : Type} {s : Vars α} {r : Option (Vars α × β)}

theorem keptBy_none (base : ℕ) (s : Vars α) : KeptBy base s (none : Option (Vars α × β)) := by
  intro s' x h
  cases h

theorem keptBy_some {p : Vars α × β} (h : Kept base s.priv p.1.priv)
    (hnarg : p.1.narg = s.narg) : KeptBy base s (some p) := by
  intro t y heq
  cases heq
  exact ⟨h, hnarg⟩

theorem keptBy_same (base : ℕ) (s : Vars α) (x : β) : KeptBy base s (some (s, x)) :=
  keptBy_some (Kept.refl base s.priv) rfl

theorem KeptBy.bind {k : Vars α × β → Option (Vars α × γ)} (h : KeptBy base s r)
    (hbase : base ≤ s.priv.next)
    (hk : ∀ s' x, r = some (s', x) → base ≤ s'.priv.next → KeptBy base s' (k (s', x))) :
    KeptBy base s (r.bind k) := by
  intro u y heq
  obtain ⟨⟨t, x⟩, hr, hku⟩ := Option.bind_eq_some_iff.mp heq
  obtain ⟨hkept, hnarg⟩ := h t x hr
  obtain ⟨hkept', hnarg'⟩ := hk t x hr (Nat.le_trans hbase hkept.next) u y hku
  exact ⟨hkept.trans hkept', hnarg'.trans hnarg⟩

theorem KeptBy.map {f : Vars α × β → Vars α × γ} (h : KeptBy base s r)
    (hf : ∀ p, (f p).1 = p.1) : KeptBy base s (r.map f) := by
  intro u y heq
  obtain ⟨⟨t, x⟩, hr, hfu⟩ := Option.map_eq_some_iff.mp heq
  have hfirst := hf (t, x)
  rw [hfu] at hfirst
  obtain rfl : u = t := hfirst
  exact h u x hr

theorem findName_priv (search : Search) (name : Name) (key : Key) (wants : Bool) (block : Ptr)
    (s : Vars α) : (findName search name key wants block s).1.priv = s.priv ∧
      (findName search name key wants block s).1.narg = s.narg := by
  unfold findName
  dsimp only
  repeat' split
  all_goals exact ⟨rfl, rfl⟩

theorem findName_kept (base : ℕ) (search : Search) (name : Name) (key : Key) (wants : Bool)
    (block : Ptr) (s : Vars α) :
    KeptBy base s (some (findName search name key wants block s)) := by
  obtain ⟨hpriv, hnarg⟩ := findName_priv search name key wants block s
  exact keptBy_some (hpriv ▸ Kept.refl base s.priv) hnarg

theorem keptBy_unlock {base : ℕ} {c : Prop} [Decidable c] {t : Vars α} (x : β)
    (h : Kept base s.priv t.priv) (hnarg : t.narg = s.narg) :
    KeptBy base s (some (if c then t.unlock else t, x)) := by
  split
  · exact keptBy_some h hnarg
  · exact keptBy_some h hnarg

theorem getFound_kept (base : ℕ) (s : Vars α) (f : Found) : KeptBy base s (getFound s f) := by
  unfold getFound
  dsimp only
  split
  · exact keptBy_unlock _ (Kept.refl base s.priv) rfl
  · exact keptBy_unlock _ (Kept.refl base s.priv) rfl
  · exact keptBy_none base s

theorem setBlock_kept {b : Block α} (which : Which) (h : which = .priv → Kept base s.priv b) :
    Kept base s.priv (s.setBlock b which).priv ∧ (s.setBlock b which).narg = s.narg := by
  cases which with
  | priv => exact ⟨h rfl, rfl⟩
  | pub => exact ⟨Kept.refl base s.priv, rfl⟩

theorem putFound_kept (hbase : base ≤ s.priv.next) (data : Option (Option α)) (memory : Memory)
    (f : Found) : KeptBy base s (putFound data memory s f) := by
  unfold putFound
  split
  · next name which _ _ _ =>
    intro s' status heq
    obtain ⟨⟨b, x⟩, hput, hset⟩ := Option.map_eq_some_iff.mp heq
    have hblock : which = .priv → Kept base s.priv b := by
      intro hpriv
      subst hpriv
      exact putNode_kept hbase hput
    have hkept := setBlock_kept which hblock
    exact keptBy_unlock x hkept.1 hkept.2 s' status (congrArg some hset)
  · exact keptBy_unlock _ (Kept.refl base s.priv) rfl
  · exact keptBy_none base s

theorem flagFound_kept (base : ℕ) (isFound : Block α → ℕ → Bool) (s : Vars α) (f : Found) :
    KeptBy base s (flagFound isFound s f) := by
  unfold flagFound
  split
  · exact keptBy_unlock _ (Kept.refl base s.priv) rfl
  · exact keptBy_same base s _
  · exact keptBy_same base s _
  · exact keptBy_unlock _ (Kept.refl base s.priv) rfl
  · exact keptBy_none base s

theorem wildFound_kept (base : ℕ) (user : User) (s : Vars α) (f : Found) :
    KeptBy base s (wildFound user s f) := by
  unfold wildFound
  split
  · next name which _ _ _ =>
    have hblock : which = .priv → Kept base s.priv (freeMatching (s.block which) (strUpcase name)
        (isWild (strUpcase name)) user.count).1 := by
      intro hpriv
      subst hpriv
      exact freeMatching_kept base s.priv _ _ _
    have hkept := setBlock_kept which hblock
    exact keptBy_unlock _ hkept.1 hkept.2
  · exact keptBy_unlock _ (Kept.refl base s.priv) rfl
  · exact keptBy_none base s

theorem findFormal_priv (search : Search) (wants : Bool) (s : Vars α) (formal : Formal) :
    (findFormal search wants s formal).1.priv = s.priv ∧
      (findFormal search wants s formal).1.narg = s.narg := by
  induction formal generalizing search with
  | null => exact ⟨rfl, rfl⟩
  | ident name => exact findName_priv search name _ wants _ s
  | text name => exact findName_priv search name _ wants _ s
  | modified code arg ih =>
    cases code with
    | publicly => exact ih _
    | privately => exact ih _
    | _ => exact ⟨rfl, rfl⟩
  | bad failure => exact ⟨rfl, rfl⟩

theorem Kept.outer {newHead : LibTreeNode Name} (h : Kept base { b with head := newHead } b')
    (hnew : ∀ p ∈ blocks newHead, base ≤ p) (head : LibTreeNode Name) :
    Kept base { b with head } { b' with head } := by
  refine ⟨h.next, ?_, fun _ hp => Or.inl hp⟩
  intro p hp _
  exact h.xd p hp fun hin => Nat.not_le_of_lt hp (hnew p hin)

theorem Kept.above {newHead : LibTreeNode Name} (h : Kept base { b with head := newHead } b')
    (hnew : ∀ p ∈ blocks newHead, base ≤ p) : ∀ p ∈ blocks b'.head, base ≤ p := by
  intro p hp
  obtain hin | ⟨hle, -⟩ := h.head p hp
  · exact hnew p hin
  · exact hle

theorem bindFormal_inner (hbase : base ≤ s.priv.next) {newHead : LibTreeNode Name}
    {formal : Formal} {data : Option (Option α)} {memory : Memory} {t : Vars α} {scope : Scope}
    (h : bindFormal newHead s formal data memory = some (t, scope)) :
    ∃ b', Kept base { s.priv with head := newHead } b' ∧
      t.priv = { b' with head := s.priv.head } ∧ scope.head = b'.head ∧ t.narg = s.narg := by
  unfold bindFormal at h
  split at h
  · cases h
  · obtain ⟨hpriv, hnarg⟩ := findFormal_priv putMode true (s.setHead newHead) formal
    generalize findFormal putMode true (s.setHead newHead) formal = found at h hpriv hnarg
    obtain ⟨u, f⟩ := found
    dsimp only at h hpriv hnarg
    obtain ⟨⟨u', status⟩, hput, heq⟩ := Option.map_eq_some_iff.mp h
    have hnext : base ≤ u.priv.next := by
      rw [hpriv]
      exact hbase
    obtain ⟨hkept, hnarg'⟩ := putFound_kept hnext data memory f u' status hput
    cases heq
    refine ⟨u'.priv, ?_, rfl, rfl, hnarg'.trans hnarg⟩
    rw [hpriv] at hkept
    exact hkept

/-- What the loop over the formal arguments keeps: the variables of the caller, and those of the
function above a place. -/
def ScopeKept (base : ℕ) (s : Vars α) (r : Option (Vars α × Scope)) : Prop :=
  ∀ s' scope, r = some (s', scope) → Kept base s.priv s'.priv ∧ s'.narg = s.narg ∧
    ∀ p ∈ blocks scope.head, base ≤ p

theorem bindFormal_kept (hbase : base ≤ s.priv.next) {newHead : LibTreeNode Name}
    (hnew : ∀ p ∈ blocks newHead, base ≤ p) (formal : Formal) (data : Option (Option α))
    (memory : Memory) : ScopeKept base s (bindFormal newHead s formal data memory) := by
  intro t scope h
  obtain ⟨b', hkept, hpriv, hhead, hnarg⟩ := bindFormal_inner hbase h
  refine ⟨?_, hnarg, ?_⟩
  · rw [hpriv]
    exact hkept.outer hnew s.priv.head
  · rw [hhead]
    exact hkept.above hnew

theorem scopeKept_none (base : ℕ) (s : Vars α) : ScopeKept base s none := by
  intro s' scope h
  cases h

theorem scopeKept_same {newHead : LibTreeNode Name} (hnew : ∀ p ∈ blocks newHead, base ≤ p)
    (s : Vars α) (status : Status) : ScopeKept base s (some (s, ⟨newHead, status⟩)) := by
  intro s' scope h
  cases h
  exact ⟨Kept.refl base s.priv, rfl, hnew⟩

theorem ScopeKept.after {k : Vars α × β → Option (Vars α × Scope)} (h : KeptBy base s r)
    (hbase : base ≤ s.priv.next)
    (hk : ∀ s' x, r = some (s', x) → base ≤ s'.priv.next → ScopeKept base s' (k (s', x))) :
    ScopeKept base s (r.bind k) := by
  intro u scope heq
  obtain ⟨⟨t, x⟩, hr, hku⟩ := Option.bind_eq_some_iff.mp heq
  obtain ⟨hkept, hnarg⟩ := h t x hr
  obtain ⟨hkept', hnarg', habove⟩ := hk t x hr (Nat.le_trans hbase hkept.next) u scope hku
  exact ⟨hkept.trans hkept', hnarg'.trans hnarg, habove⟩

theorem ScopeKept.bind {q : Option (Vars α × Scope)}
    {k : Vars α × Scope → Option (Vars α × Scope)}
    (h : ScopeKept base s q) (hbase : base ≤ s.priv.next)
    (hk : ∀ s' scope, (∀ p ∈ blocks scope.head, base ≤ p) → base ≤ s'.priv.next →
      ScopeKept base s' (k (s', scope))) :
    ScopeKept base s (q.bind k) := by
  intro u scope heq
  obtain ⟨⟨t, x⟩, hr, hku⟩ := Option.bind_eq_some_iff.mp heq
  obtain ⟨hkept, hnarg, habove⟩ := h t x hr
  obtain ⟨hkept', hnarg', habove'⟩ := hk t x habove (Nat.le_trans hbase hkept.next) u scope hku
  exact ⟨hkept.trans hkept', hnarg'.trans hnarg, habove'⟩

/-- What the loop that sends back keeps: the variables of the caller, under the other head, and the
head of the function. -/
def SendKept (base : ℕ) (oldHead : LibTreeNode Name) (s : Vars α)
    (r : Option (Vars α × Scope)) : Prop :=
  ∀ s' scope, r = some (s', scope) →
    Kept base { s.priv with head := oldHead } { s'.priv with head := scope.head } ∧
      s'.narg = s.narg ∧ s'.priv.head = s.priv.head

theorem sendKept_none (base : ℕ) (oldHead : LibTreeNode Name) (s : Vars α) :
    SendKept base oldHead s none := by
  intro s' scope h
  cases h

theorem sendKept_same (base : ℕ) (oldHead : LibTreeNode Name) {s t : Vars α}
    (hpriv : t.priv = s.priv) (hnarg : t.narg = s.narg) (status : Status) :
    SendKept base oldHead s (some (t, ⟨oldHead, status⟩)) := by
  intro s' scope h
  cases h
  refine ⟨?_, hnarg, by rw [hpriv]⟩
  rw [hpriv]
  exact Kept.refl base _

theorem SendKept.bind {oldHead : LibTreeNode Name} {q : Option (Vars α × Scope)}
    {k : Vars α × Scope → Option (Vars α × Scope)} (h : SendKept base oldHead s q)
    (hbase : base ≤ s.priv.next)
    (hk : ∀ s' scope, base ≤ s'.priv.next → SendKept base scope.head s' (k (s', scope))) :
    SendKept base oldHead s (q.bind k) := by
  intro u scope heq
  obtain ⟨⟨t, x⟩, hr, hku⟩ := Option.bind_eq_some_iff.mp heq
  obtain ⟨hkept, hnarg, hhead⟩ := h t x hr
  obtain ⟨hkept', hnarg', hhead'⟩ := hk t x (Nat.le_trans hbase hkept.next) u scope hku
  exact ⟨hkept.trans hkept', hnarg'.trans hnarg, hhead'.trans hhead⟩

theorem deallocateAll_kept (base : ℕ) (s : Vars α) :
    Kept base s.priv (deallocateAll s).1.priv ∧ (deallocateAll s).1.narg = s.narg := by
  unfold deallocateAll
  cases s.priv.head with
  | empty => exact ⟨Kept.refl base s.priv, rfl⟩
  | node block key bal left right => exact ⟨freeAll_kept base s.priv, rfl⟩

theorem enter_outer {newHead : LibTreeNode Name} {narg : ℕ} {t : Vars α}
    (h : Kept base (s.enter newHead narg).priv t.priv) (hnew : ∀ p ∈ blocks newHead, base ≤ p) :
    Kept base s.priv { t.priv with head := s.priv.head } ∧ ∀ p ∈ blocks t.priv.head, base ≤ p :=
  ⟨h.outer hnew s.priv.head, h.above hnew⟩

theorem leave_kept (narg : ℕ) (p : Vars α × Scope) (hnew : ∀ q ∈ blocks p.1.priv.head, base ≤ q) :
    Kept base { p.1.priv with head := p.2.head } (leave narg p).1.priv :=
  (deallocateAll_kept base p.1).1.outer hnew p.2.head

mutual

theorem findIdent_kept : ∀ (ident : Ident α) (search : Search) (wants : Bool) (block : Ptr)
    {s : Vars α}, base ≤ s.priv.next → KeptBy base s (findIdent search wants block s ident)
  | .missing, _, _, _, s, _ => keptBy_same base s _
  | .bad _, _, _, _, s, _ => keptBy_same base s _
  | .name name, search, wants, block, s, _ => findName_kept base search name _ wants block s
  | .publicly ident, search, wants, block, s, hbase => by
    unfold findIdent
    exact findIdent_kept ident _ wants block hbase
  | .privately ident, search, wants, block, s, hbase => by
    unfold findIdent
    exact findIdent_kept ident _ wants block hbase
  | .assigned evaluation status ident, search, wants, block, s, hbase => by
    unfold findIdent
    refine (runOps_kept evaluation hbase).bind hbase fun t _ _ ht => ?_
    cases status with
    | none => exact findIdent_kept ident search wants block ht
    | some failure => exact keptBy_same base t _
  | .var evaluation name, search, wants, block, s, hbase => by
    unfold findIdent
    refine (runOps_kept evaluation hbase).bind hbase fun t _ _ ht => ?_
    cases name with
    | ok name => exact findName_kept base search name _ wants block t
    | error failure => exact keptBy_same base t _

theorem wildArgs_kept : ∀ (args : List (Ident α)) (user : User) {s : Vars α},
    base ≤ s.priv.next → KeptBy base s (wildArgs user s args)
  | [], _, s, _ => keptBy_same base s _
  | arg :: args, user, s, hbase => by
    unfold wildArgs
    refine KeptBy.bind ((findIdent_kept arg _ _ _ hbase).bind hbase fun t f _ _ =>
      wildFound_kept base user t f) hbase fun t x _ ht => ?_
    obtain ⟨user', status⟩ := x
    dsimp only
    split
    · exact wildArgs_kept args user' ht
    · exact keptBy_same base t _

theorem bindActual_kept : ∀ (actual : Actual α) (p : Prototype) {newHead : LibTreeNode Name}
    {s : Vars α}, base ≤ s.priv.next → (∀ p ∈ blocks newHead, base ≤ p) →
      ScopeKept base s (bindActual newHead s p actual)
  | .omitted, _, _, s, _, hnew => scopeKept_same hnew s _
  | .given isIdent ident copy evaluation value bound sent, p, newHead, s, hbase, hnew => by
    unfold bindActual
    split
    · exact bindFormal_kept hbase hnew _ _ _
    · split
      · cases copy with
        | ok v => exact bindFormal_kept hbase hnew _ _ _
        | error failure => exact scopeKept_same hnew s _
      · split
        · refine ScopeKept.after ((findIdent_kept ident _ _ _ hbase).bind hbase fun t f _ _ =>
            getFound_kept base t f) hbase fun t v _ ht => ?_
          cases v with
          | ok v => exact bindFormal_kept ht hnew _ _ _
          | error failure =>
            dsimp only
            split
            · exact bindFormal_kept ht hnew _ _ _
            · exact scopeKept_same hnew t _
        · refine ScopeKept.after (runOps_kept evaluation hbase) hbase fun t _ _ ht => ?_
          cases value with
          | ok v =>
            dsimp only
            split
            · exact scopeKept_same hnew t _
            · exact bindFormal_kept ht hnew _ _ _
          | error failure => exact scopeKept_same hnew t _

theorem bindActuals_kept : ∀ (actuals : List (Actual α)) (formals : List Formal)
    {newHead : LibTreeNode Name} {s : Vars α}, base ≤ s.priv.next →
      (∀ p ∈ blocks newHead, base ≤ p) →
        ScopeKept base s (bindActuals newHead s formals actuals)
  | [], formals, newHead, s, _, hnew => by
    unfold bindActuals
    cases checkRest formals with
    | none => exact scopeKept_none base s
    | some status => exact scopeKept_same hnew s status
  | actual :: actuals, formals, newHead, s, hbase, hnew => by
    unfold bindActuals
    cases (formals.headD .null).check with
    | none => exact scopeKept_none base s
    | some checked =>
      cases checked with
      | error failure => exact scopeKept_same hnew s _
      | ok p =>
        refine ScopeKept.bind (bindActual_kept actual p hbase hnew) hbase fun t scope habove ht => ?_
        dsimp only
        split
        · exact bindActuals_kept actuals formals.tail ht habove
        · exact scopeKept_same habove t scope.status

theorem sendOne_kept : ∀ (actual : Actual α) (formal : Formal) {oldHead : LibTreeNode Name}
    {s : Vars α}, base ≤ s.priv.next → SendKept base oldHead s (sendOne oldHead s formal actual)
  | .omitted, _, oldHead, s, _ => sendKept_same base oldHead rfl rfl _
  | .given isIdent ident copy evaluation value bound sent, formal, oldHead, s, hbase => by
    unfold sendOne
    cases formal.sentBack with
    | none => exact sendKept_same base oldHead rfl rfl _
    | some arg =>
      obtain ⟨hpriv, hnarg⟩ := findFormal_priv getMode false s arg
      dsimp only
      generalize findFormal getMode false s arg = found at hpriv hnarg ⊢
      obtain ⟨t, f⟩ := found
      dsimp only at hpriv hnarg ⊢
      split
      · exact sendKept_same base oldHead hpriv hnarg _
      · exact sendKept_none base oldHead s
      · next node _ _ =>
        have hnext : base ≤ (t.setHead oldHead).priv.next := by
          change base ≤ t.priv.next
          rw [hpriv]
          exact hbase
        have hput := (findIdent_kept ident putMode true .null hnext).bind
          (k := fun p => putFound (some (p.1.data node)) sent p.1 p.2) hnext
          fun u g _ hu => putFound_kept hu _ sent g
        intro s' scope heq
        obtain ⟨⟨u, g⟩, hfind, hmap⟩ := Option.bind_eq_some_iff.mp heq
        obtain ⟨⟨u', status⟩, hfound, hresult⟩ := Option.map_eq_some_iff.mp hmap
        cases hresult
        obtain ⟨hkept, hnarg'⟩ := hput u' status (by rw [hfind]; exact hfound)
        refine ⟨?_, hnarg'.trans hnarg, ?_⟩
        · have heq : (t.setHead oldHead).priv = { s.priv with head := oldHead } := by
            rw [← hpriv]
            rfl
          rw [heq] at hkept
          exact hkept
        · change t.priv.head = s.priv.head
          rw [hpriv]

theorem sendBack_kept : ∀ (actuals : List (Actual α)) (formals : List Formal)
    {oldHead : LibTreeNode Name} {s : Vars α}, base ≤ s.priv.next →
      SendKept base oldHead s (sendBack oldHead s formals actuals)
  | [], _, oldHead, s, _ => sendKept_same base oldHead rfl rfl _
  | actual :: actuals, formals, oldHead, s, hbase => by
    unfold sendBack
    refine SendKept.bind (sendOne_kept actual _ hbase) hbase fun t scope ht => ?_
    dsimp only
    split
    · exact sendBack_kept actuals formals.tail ht
    · exact sendKept_same base scope.head rfl rfl scope.status

theorem runOp_kept : ∀ (op : Op α) {s : Vars α}, base ≤ s.priv.next →
    KeptBy base s (runOp s op)
  | .get ident, s, hbase => by
    unfold runOp
    exact ((findIdent_kept ident _ _ _ hbase).bind hbase fun t f _ _ =>
      getFound_kept base t f).map fun _ => rfl
  | .getPrivate _, s, _ => keptBy_same base s _
  | .getPublic _, s, _ => keptBy_some (Kept.refl base s.priv) rfl
  | .put ident data memory, s, hbase => by
    unfold runOp
    exact ((findIdent_kept ident _ _ _ hbase).bind hbase fun t f _ ht =>
      putFound_kept ht data memory f).map fun _ => rfl
  | .present ident, s, hbase => by
    unfold runOp
    exact ((findIdent_kept ident _ _ _ hbase).bind hbase fun t f _ _ =>
      flagFound_kept base _ t f).map fun _ => rfl
  | .allocated ident, s, hbase => by
    unfold runOp
    exact ((findIdent_kept ident _ _ _ hbase).bind hbase fun t f _ _ =>
      flagFound_kept base _ t f).map fun _ => rfl
  | .deallocate [], s, _ => by
    obtain ⟨hkept, hnarg⟩ := deallocateAll_kept base s
    exact keptBy_some hkept hnarg
  | .deallocate (arg :: args), s, hbase => by
    unfold runOp
    split
    · exact keptBy_some (freeMatching_kept base s.priv [] true 0) rfl
    · refine KeptBy.bind (wildArgs_kept (arg :: args) _ hbase) hbase fun t x _ _ => ?_
      obtain ⟨user, status⟩ := x
      cases status with
      | none => exact keptBy_same base t _
      | some failure =>
        dsimp only
        split
        · exact keptBy_none base t
        · exact keptBy_same base t _
  | .call formals actuals body result, s, hbase => by
    unfold runOp
    split
    · exact keptBy_same base s _
    · intro u reply heq
      obtain ⟨⟨t, scope⟩, hbind, hrest⟩ := Option.bind_eq_some_iff.mp heq
      obtain ⟨⟨v, back⟩, hbody, hleave⟩ := Option.map_eq_some_iff.mp hrest
      obtain ⟨⟨w, status⟩, hrun, hsend⟩ := Option.bind_eq_some_iff.mp hbody
      obtain ⟨hkept, -, habove⟩ := bindActuals_kept actuals formals hbase
        (fun p hp => by cases hp) t scope hbind
      have ht := Nat.le_trans hbase hkept.next
      have hw : Kept base (t.enter scope.head actuals.length).priv w.priv := by
        split at hrun
        · obtain ⟨⟨w', replies⟩, hops, hpair⟩ := Option.map_eq_some_iff.mp hrun
          obtain ⟨rfl, -⟩ := Prod.mk.inj hpair
          exact (runOps_kept body (s := t.enter scope.head actuals.length) ht w' replies hops).1
        · cases hrun
          exact Kept.refl base _
      obtain ⟨houter, hnew⟩ := enter_outer hw habove
      have hv : SendKept base t.priv.head w (some (v, back)) := by
        dsimp only at hsend
        split at hsend
        · have hsends : SendKept base t.priv.head w (sendBack t.priv.head w formals actuals) :=
            sendBack_kept actuals formals (Nat.le_trans ht houter.next)
          simp only [hsend] at hsends
          exact hsends
        · have hsame := sendKept_same base t.priv.head (s := w) (t := w) rfl rfl status
          simp only [hsend] at hsame
          exact hsame
      obtain ⟨hsent, -, hhead⟩ := hv v back rfl
      have hleft : Kept base { v.priv with head := back.head } (leave s.narg (v, back)).1.priv :=
        leave_kept s.narg (v, back) (by
          dsimp only
          rw [hhead]
          exact hnew)
      cases hleave
      exact ⟨((hkept.trans houter).trans hsent).trans hleft, rfl⟩

theorem runOps_kept : ∀ (ops : List (Op α)) {s : Vars α}, base ≤ s.priv.next →
    KeptBy base s (runOps s ops)
  | [], s, _ => keptBy_same base s _
  | op :: ops, s, hbase => by
    unfold runOps
    refine (runOp_kept op hbase).bind hbase fun t _ _ ht => ?_
    exact (runOps_kept ops ht).map fun _ => rfl

end

end MdsPlus.VariableFrames
