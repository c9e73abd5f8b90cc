import MdsPlus.InsertTreeRuns
import MdsPlus.Variables
import Mathlib.Data.List.TakeWhile
import Mathlib.Data.Set.Card

/-!
A block of variables as a finite map. Names without zeros are compared by their letters in lower
case; nodes have names in upper case, at places of their own.
-/

namespace MdsPlus.VariableKeys

open InsertTree InsertTreeRuns VariableNames Variables

/-! ### Trees with other keys -/

section Keys

variable {κ ι : Type*}

def mapKeys (f : κ → ι) : LibTreeNode κ → LibTreeNode ι
  | .empty => .empty
  | .node block key bal left right => .node block (f key) bal (mapKeys f left) (mapKeys f right)

theorem entries_mapKeys (f : κ → ι) (t : LibTreeNode κ) :
    entries (mapKeys f t) = (entries t).map fun e => (e.1, f e.2) := by
  induction t with
  | empty => rfl
  | node block key bal left right ihl ihr =>
    simp only [mapKeys, entries, ihl, ihr, List.map_append, List.map_cons]

theorem keys_mapKeys (f : κ → ι) (t : LibTreeNode κ) :
    keys (mapKeys f t) = (keys t).map f := by
  unfold keys
  rw [entries_mapKeys, List.map_map, List.map_map]
  rfl

def Alike (compare : κ → κ → ℤ) (compare' : ι → ι → ℤ) (f : κ → ι) (key : κ) (k : κ) : Prop :=
  (compare key k < 0 ↔ compare' (f key) (f k) < 0) ∧
    (compare key k = 0 ↔ compare' (f key) (f k) = 0)

variable {compare : κ → κ → ℤ} {compare' : ι → ι → ℤ} {f : κ → ι} {key : κ}

theorem lookup_mapKeys {t : LibTreeNode κ} (h : ∀ k ∈ keys t, Alike compare compare' f key k) :
    libLookupTree compare' (f key) (mapKeys f t) = libLookupTree compare key t := by
  induction t with
  | empty => rfl
  | node block k bal left right ihl ihr =>
    rw [keys_node] at h
    obtain ⟨hneg, hzero⟩ := h k (List.mem_append_right _ List.mem_cons_self)
    have hleft := ihl fun k hk => h k (List.mem_append_left _ hk)
    have hright := ihr fun k hk => h k (List.mem_append_right _ (List.mem_cons_of_mem _ hk))
    unfold mapKeys libLookupTree
    rw [hleft, hright]
    simp only [hneg, hzero]

theorem plain_mapKeys {t : LibTreeNode κ} (block : ℕ)
    (h : ∀ k ∈ keys t, Alike compare compare' f key k) :
    plain compare' (f key) block (mapKeys f t) = mapKeys f (plain compare key block t) := by
  induction t with
  | empty => rfl
  | node b k bal left right ihl ihr =>
    rw [keys_node] at h
    obtain ⟨hneg, hzero⟩ := h k (List.mem_append_right _ List.mem_cons_self)
    have hleft := ihl fun k hk => h k (List.mem_append_left _ hk)
    have hright := ihr fun k hk => h k (List.mem_append_right _ (List.mem_cons_of_mem _ hk))
    have hle : compare' (f key) (f k) ≤ 0 ↔ compare key k ≤ 0 := by omega
    unfold mapKeys plain
    rw [hleft, hright]
    simp only [hle]
    split <;> rfl

end Keys

/-! ### Names -/

/-- The letters in lower case. -/
def fold (name : Name) : Name := name.map tolower

theorem tolower_toupper (c : ℕ) : tolower (toupper c) = tolower c := by
  unfold tolower toupper
  split_ifs <;> omega

theorem toupper_tolower (c : ℕ) : toupper (tolower c) = toupper c := by
  unfold tolower toupper
  split_ifs <;> omega

theorem fold_upcase (name : Name) : fold (strUpcase name) = fold name := by
  unfold fold strUpcase
  rw [List.map_map]
  exact List.map_congr_left fun c _ => tolower_toupper c

theorem upcase_fold (name : Name) : strUpcase (fold name) = strUpcase name := by
  unfold fold strUpcase
  rw [List.map_map]
  exact List.map_congr_left fun c _ => toupper_tolower c

theorem fold_fold (name : Name) : fold (fold name) = fold name := by
  rw [← fold_upcase (fold name), upcase_fold, fold_upcase]

theorem zero_mem_upcase (name : Name) : 0 ∈ strUpcase name ↔ 0 ∈ name := by
  unfold strUpcase
  rw [List.mem_map]
  constructor
  · intro ⟨c, hc, hzero⟩
    unfold toupper at hzero
    split at hzero
    · omega
    · rw [← hzero]
      exact hc
  · exact fun h => ⟨0, h, rfl⟩

theorem zero_mem_fold (name : Name) : 0 ∈ fold name ↔ 0 ∈ name := by
  rw [← zero_mem_upcase (fold name), upcase_fold, zero_mem_upcase]

theorem compare_cons (a b : ℕ) (l m : Name) (ha : a ≠ 0) :
    strCaseBlindCompare (a :: l) (b :: m) =
      if tolower a = tolower b then strCaseBlindCompare l m
      else (tolower a : ℤ) - tolower b := by
  unfold strCaseBlindCompare
  simp only [List.length_cons, Nat.succ_min_succ, strncasecmp, List.getD_cons_succ]
  split_ifs <;> omega

theorem compare_fold {a b : Name} (ha : 0 ∉ a) (hb : 0 ∉ b) :
    (strCaseBlindCompare a b < 0 ↔ fold a < fold b) ∧
      (strCaseBlindCompare a b = 0 ↔ fold a = fold b) := by
  induction a generalizing b with
  | nil =>
    cases b with
    | nil => simp [strCaseBlindCompare, strncasecmp, fold]
    | cons d m =>
      have hd : d ≠ 0 := fun h => hb (by rw [h]; exact List.mem_cons_self)
      have hcompare : strCaseBlindCompare [] (d :: m) = -(d : ℤ) := by
        simp [strCaseBlindCompare, strncasecmp]
      rw [hcompare]
      constructor
      · exact ⟨fun _ => List.nil_lt_cons _ _, fun _ => by omega⟩
      · exact ⟨fun h => by omega, fun h => by cases h⟩
  | cons c l ih =>
    have hc : c ≠ 0 := fun h => ha (by rw [h]; exact List.mem_cons_self)
    cases b with
    | nil =>
      have hcompare : strCaseBlindCompare (c :: l) [] = (c : ℤ) := by
        simp [strCaseBlindCompare, strncasecmp]
      rw [hcompare]
      constructor
      · exact ⟨fun h => by omega, fun h => by cases h⟩
      · exact ⟨fun h => by omega, fun h => by cases h⟩
    | cons d m =>
      obtain ⟨hneg, hzero⟩ := ih (b := m) (fun h => ha (List.mem_cons_of_mem _ h))
        (fun h => hb (List.mem_cons_of_mem _ h))
      rw [compare_cons c d l m hc]
      unfold fold at hneg hzero ⊢
      rw [List.map_cons, List.map_cons, List.cons_lt_cons_iff, List.cons.injEq, ← hneg, ← hzero]
      split <;> omega

/-- Folded names are compared as a total order gives it. -/
def cmp : Comparison Name where
  compare a b := if a < b then -1 else if a = b then 0 else 1
  neg a b := by
    split_ifs with hlt heq
    · exact iff_of_true (by decide) hlt
    · exact iff_of_false (by decide) hlt
    · exact iff_of_false (by decide) hlt
  zero a b := by
    split_ifs with hlt heq
    · exact iff_of_false (by decide) (ne_of_lt hlt)
    · exact iff_of_true rfl heq
    · exact iff_of_false (by decide) heq

theorem alike {name k : Name} (hname : 0 ∉ name) (hk : 0 ∉ k) :
    Alike strCaseBlindCompare cmp.compare fold name k := by
  obtain ⟨hneg, hzero⟩ := compare_fold hname hk
  exact ⟨by rw [hneg, cmp.neg], by rw [hzero, cmp.zero]⟩

/-! ### Blocks -/

variable {α : Type}

/-- A block: its tree is a search tree of different names in upper case, whose nodes are at places
of their own. -/
structure Valid (b : Block α) : Prop where
  search : SearchTree (mapKeys fold b.head)
  nodup : (keys (mapKeys fold b.head)).Nodup
  upper : ∀ k ∈ keys b.head, strUpcase k = k ∧ 0 ∉ k
  distinct : (blocks b.head).Nodup
  given : ∀ p ∈ blocks b.head, p < b.next

/-- What a name stands for: nothing, no data, or data. -/
def slot (b : Block α) (name : Name) : Option (Xd α) := (lookup b name).map b.xd

variable {b : Block α}

theorem Valid.alike (h : Valid b) {name : Name} (hname : 0 ∉ name) :
    ∀ k ∈ keys b.head, Alike strCaseBlindCompare cmp.compare fold name k :=
  fun k hk => VariableKeys.alike hname (h.upper k hk).2

theorem Valid.lookup_eq (h : Valid b) {name : Name} (hname : 0 ∉ name) :
    lookup b name = libLookupTree cmp.compare (fold name) (mapKeys fold b.head) :=
  (lookup_mapKeys (h.alike hname)).symm

theorem Valid.lookup_congr (h : Valid b) {name name' : Name} (hname : 0 ∉ name)
    (hname' : 0 ∉ name') (heq : fold name = fold name') : lookup b name = lookup b name' := by
  rw [h.lookup_eq hname, h.lookup_eq hname', heq]

theorem Valid.lookup_some (h : Valid b) {name : Name} (hname : 0 ∉ name) {p : ℕ}
    (hp : lookup b name = some p) : (p, strUpcase name) ∈ entries b.head := by
  rw [h.lookup_eq hname] at hp
  have hmem := mem_of_lookup cmp hp
  rw [entries_mapKeys] at hmem
  obtain ⟨e, he, heq⟩ := List.mem_map.mp hmem
  obtain ⟨hplace, hkey⟩ := Prod.mk.inj heq
  have hupper := (h.upper e.2 (List.mem_map_of_mem he)).1
  have hname' : strUpcase name = e.2 := by
    rw [← upcase_fold, ← hkey, upcase_fold, hupper]
  rw [hname', ← hplace]
  exact he

theorem eq_of_nodup {β γ : Type*} {l : List (β × γ)} (h : (l.map Prod.fst).Nodup) {p : β}
    {k k' : γ} (hk : (p, k) ∈ l) (hk' : (p, k') ∈ l) : k = k' := by
  have heq := List.inj_on_of_nodup_map h hk hk' rfl
  exact (Prod.mk.inj heq).2

theorem eq_of_nodup_snd {β γ : Type*} {l : List (β × γ)} (h : (l.map Prod.snd).Nodup) {p p' : β}
    {k : γ} (hp : (p, k) ∈ l) (hp' : (p', k) ∈ l) : p = p' := by
  have heq := List.inj_on_of_nodup_map h hp hp' rfl
  exact (Prod.mk.inj heq).1

theorem Valid.names (h : Valid b) : ((entries b.head).map Prod.snd).Nodup := by
  have hnodup := h.nodup
  rw [keys_mapKeys] at hnodup
  exact hnodup.of_map

theorem Valid.lookup_of_mem (h : Valid b) {p : ℕ} {k : Name} (hk : (p, k) ∈ entries b.head) :
    lookup b k = some p := by
  have hzero := (h.upper k (List.mem_map_of_mem hk)).2
  have hmem : (p, fold k) ∈ entries (mapKeys fold b.head) := by
    rw [entries_mapKeys]
    exact List.mem_map_of_mem (f := fun e : ℕ × Name => (e.1, fold e.2)) hk
  obtain ⟨q, hq⟩ := exists_lookup cmp h.search (List.mem_map_of_mem (f := Prod.snd) hmem)
  rw [h.lookup_eq hzero, hq]
  exact congrArg some (eq_of_nodup_snd h.nodup (mem_of_lookup cmp hq) hmem)

theorem Valid.lookup_injective (h : Valid b) {name name' : Name} (hname : 0 ∉ name)
    (hname' : 0 ∉ name') {p : ℕ} (hp : lookup b name = some p) (hp' : lookup b name' = some p) :
    fold name = fold name' := by
  have heq := eq_of_nodup h.distinct (h.lookup_some hname hp) (h.lookup_some hname' hp')
  rw [← fold_upcase, heq, fold_upcase]

theorem Valid.of_head (h : Valid b) {b' : Block α} (hhead : b'.head = b.head)
    (hnext : b.next ≤ b'.next) : Valid b' where
  search := by
    rw [hhead]
    exact h.search
  nodup := by
    rw [hhead]
    exact h.nodup
  upper := by
    rw [hhead]
    exact h.upper
  distinct := by
    rw [hhead]
    exact h.distinct
  given p hp := by
    rw [hhead] at hp
    exact Nat.lt_of_lt_of_le (h.given p hp) hnext

theorem slot_writeXd (h : Valid b) {name : Name} (hname : 0 ∉ name) {p : ℕ}
    (hp : lookup b name = some p) (xd : Xd α) {n : Name} (hn : 0 ∉ n) :
    slot (writeXd b p xd) n = if fold n = fold name then some xd else slot b n := by
  have hlookup : lookup (writeXd b p xd) n = lookup b n := rfl
  unfold slot
  rw [hlookup]
  split
  · next heq =>
    rw [h.lookup_congr hn hname heq, hp]
    exact congrArg some (if_pos rfl)
  · next hne =>
    cases hq : lookup b n with
    | none => rfl
    | some q =>
      have hqp : q ≠ p := by
        intro heq
        rw [heq] at hq
        exact hne (h.lookup_injective hn hname hq hp)
      exact congrArg some (if_neg hqp)

def withNode (b : Block α) (name : Name) : Block α :=
  { b with head := plain strCaseBlindCompare (strUpcase name) b.next b.head, next := b.next + 1 }

theorem entries_withNode (b : Block α) (name : Name) :
    (entries (withNode b name).head).Perm ((b.next, strUpcase name) :: entries b.head) :=
  entries_plain strCaseBlindCompare (strUpcase name) b.next b.head

theorem Valid.withNode (h : Valid b) {name : Name} (hname : 0 ∉ name)
    (hnone : lookup b name = none) : Valid (withNode b name) := by
  have hkey : 0 ∉ strUpcase name := fun hzero => hname ((zero_mem_upcase name).mp hzero)
  have hentries := entries_withNode b name
  have hmap : mapKeys fold (VariableKeys.withNode b name).head =
      plain cmp.compare (fold (strUpcase name)) b.next (mapKeys fold b.head) :=
    (plain_mapKeys b.next (h.alike hkey)).symm
  constructor
  · rw [hmap]
    exact searchTree_plain cmp _ _ h.search
  · rw [hmap, (keys_plain cmp.compare _ _ _).nodup_iff, List.nodup_cons]
    refine ⟨?_, h.nodup⟩
    intro hmem
    obtain ⟨p, hp⟩ := exists_lookup cmp h.search hmem
    rw [fold_upcase, ← h.lookup_eq hname, hnone] at hp
    cases hp
  · intro k hk
    obtain heq | hk := List.mem_cons.mp ((hentries.map Prod.snd).mem_iff.mp hk)
    · rw [heq]
      refine ⟨?_, hkey⟩
      rw [← upcase_fold (strUpcase name), fold_upcase, upcase_fold]
    · exact h.upper k hk
  · have hperm := hentries.map Prod.fst
    unfold blocks
    rw [hperm.nodup_iff, List.map_cons, List.nodup_cons]
    exact ⟨fun hmem => Nat.lt_irrefl _ (h.given _ hmem), h.distinct⟩
  · intro p hp
    obtain heq | hp := List.mem_cons.mp ((hentries.map Prod.fst).mem_iff.mp hp)
    · rw [heq]
      exact Nat.lt_succ_self _
    · exact Nat.lt_succ_of_lt (h.given p hp)

theorem lookup_withNode (h : Valid b) {name : Name} (hname : 0 ∉ name)
    (hnone : lookup b name = none) {n : Name} (hn : 0 ∉ n) :
    lookup (withNode b name) n = if fold n = fold name then some b.next else lookup b n := by
  have hvalid := h.withNode hname hnone
  have hkey : ∀ {m : Name}, 0 ∉ m → 0 ∉ strUpcase m := fun hm hzero =>
    hm ((zero_mem_upcase _).mp hzero)
  have hentries := entries_withNode b name
  split
  · next heq =>
    have hmem := hvalid.lookup_of_mem (hentries.mem_iff.mpr List.mem_cons_self)
    rw [← hmem]
    apply hvalid.lookup_congr hn (hkey hname)
    rw [heq, fold_upcase]
  · next hne =>
    cases hq : lookup b n with
    | some q =>
      have hmem := hvalid.lookup_of_mem
        (hentries.mem_iff.mpr (List.mem_cons_of_mem _ (h.lookup_some hn hq)))
      rw [← hmem]
      exact hvalid.lookup_congr hn (hkey hn) (fold_upcase n).symm
    | none =>
      cases hp : lookup (withNode b name) n with
      | none => rfl
      | some p =>
        obtain heq | hmem := List.mem_cons.mp (hentries.mem_iff.mp (hvalid.lookup_some hn hp))
        · refine absurd ?_ hne
          rw [← fold_upcase n, (Prod.mk.inj heq).2, fold_upcase]
        · have hsome := h.lookup_of_mem hmem
          rw [h.lookup_congr (hkey hn) hn (fold_upcase n), hq] at hsome
          cases hsome

def putSlot (old : Option (Xd α)) (data : Option (Option α)) (memory : Memory) :
    Option (Xd α) × Status :=
  if old.isNone ∧ ¬ memory.allocates then (none, some .other)
  else
    match data with
    | none => (some none, none)
    | some v => if memory.copies then (some (some v), none) else (some (some none), some .other)

theorem writeData_spec (h : Valid b) {name : Name} (hname : 0 ∉ name) {p : ℕ}
    (hp : lookup b name = some p) (data : Option (Option α)) (memory : Memory) :
    (writeData b p data memory).2 = (putSlot (some (b.xd p)) data memory).2 ∧
      Valid (writeData b p data memory).1 ∧
      ∀ n, 0 ∉ n → slot (writeData b p data memory).1 n =
        if fold n = fold name then (putSlot (some (b.xd p)) data memory).1 else slot b n := by
  have hsome : ¬ ((some (b.xd p)).isNone ∧ ¬ memory.allocates) := fun hnone => by
    cases hnone.1
  have hwrite : ∀ xd : Xd α, Valid (writeXd b p xd) := fun xd => h.of_head rfl (Nat.le_refl _)
  unfold putSlot writeData
  rw [if_neg hsome]
  cases data with
  | none => exact ⟨rfl, hwrite _, fun n hn => slot_writeXd h hname hp _ hn⟩
  | some v =>
    dsimp only
    split
    · exact ⟨rfl, hwrite _, fun n hn => slot_writeXd h hname hp _ hn⟩
    · exact ⟨rfl, hwrite _, fun n hn => slot_writeXd h hname hp _ hn⟩

theorem putSlot_new (xd : Xd α) (data : Option (Option α)) {memory : Memory}
    (hallocates : memory.allocates = true) :
    putSlot (some xd) data memory = putSlot none data memory := by
  unfold putSlot
  rw [hallocates]
  simp

theorem putNode_spec (h : Valid b) {name : Name} (hname : 0 ∉ name) (data : Option (Option α))
    (memory : Memory) :
    ∃ b', putNode b (strUpcase name) data memory =
        some (b', (putSlot (slot b name) data memory).2) ∧ Valid b' ∧
      ∀ n, 0 ∉ n → slot b' n =
        if fold n = fold name then (putSlot (slot b name) data memory).1 else slot b n := by
  have hkey : 0 ∉ strUpcase name := fun hzero => hname ((zero_mem_upcase name).mp hzero)
  have hcongr := h.lookup_congr hkey hname (fold_upcase name)
  have hslot : slot b name = (lookup b name).map b.xd := rfl
  unfold putNode
  cases hp : lookup b name with
  | some p =>
    rw [hp] at hslot
    rw [libInsertTree_present strCaseBlindCompare _ rfl (hcongr.trans hp), hslot]
    obtain ⟨hstatus, hvalid, hslots⟩ := writeData_spec h hname hp data memory
    exact ⟨_, congrArg some (Prod.ext rfl hstatus), hvalid, hslots⟩
  | none =>
    rw [hp] at hslot
    have hnew : (0 : ℤ) % 2 = 0 →
        libLookupTree strCaseBlindCompare (strUpcase name) b.head = none :=
      fun _ => hcongr.trans hp
    rw [hslot]
    cases halloc : memory.allocates with
    | false =>
      rw [if_neg Bool.false_ne_true, libInsertTree_failed strCaseBlindCompare hnew]
      have hput : putSlot (none : Option (Xd α)) data memory = (none, some .other) := by
        unfold putSlot
        rw [halloc]
        exact if_pos ⟨rfl, Bool.false_ne_true⟩
      refine ⟨b, by rw [Option.map_none, hput]; rfl, h, ?_⟩
      intro n hn
      split
      · next heq =>
        unfold slot
        rw [h.lookup_congr hn hname heq, hp, Option.map_none, hput]
      · rfl
    | true =>
      rw [if_pos rfl, libInsertTree_inserted strCaseBlindCompare b.next hnew]
      have hfound := lookup_withNode h hname hp hname
      rw [if_pos rfl] at hfound
      obtain ⟨hstatus, hvalid, hslots⟩ :=
        writeData_spec (h.withNode hname hp) hname hfound data memory
      rw [putSlot_new _ _ halloc] at hstatus hslots
      refine ⟨(writeData (withNode b name) b.next data memory).1,
        congrArg some (Prod.ext rfl hstatus), hvalid, ?_⟩
      intro n hn
      rw [hslots n hn]
      split
      · rfl
      · next hne =>
        unfold slot
        rw [lookup_withNode h hname hp hn, if_neg hne]
        rfl

/-! ### Freeing data -/

def freedBy (pattern : Name) (xd : ℕ → Xd α) (e : ℕ × Name) : Bool :=
  (xd e.1).isSome && (pattern.isEmpty || strMatchWild e.2 pattern)

theorem freeOne_eq (pattern : Name) (e : ℕ × Name) (x : (ℕ → Xd α) × ℕ) :
    freeOne pattern e x = (if freedBy pattern x.1 e then
      (fun p => if p = e.1 then none else x.1 p, x.2 + 1) else x, MDSplusSUCCESS) := by
  unfold freeOne freedBy
  cases hxd : x.1 e.1 with
  | none => rfl
  | some v =>
    simp only [Option.isNone_some, Bool.false_eq_true, if_false, Option.isSome_some, Bool.true_and]
    split <;> rfl

theorem visit_freeOne (pattern : Name) (l : List (ℕ × Name)) (hl : (l.map Prod.fst).Nodup)
    (xd : ℕ → Xd α) (count : ℕ) :
    visit (freeOne pattern) l (xd, count) =
      ((fun p => if l.any fun e => e.1 == p && freedBy pattern xd e then none else xd p,
        count + l.countP (freedBy pattern xd)), MDSplusSUCCESS) := by
  induction l generalizing xd count with
  | nil => rfl
  | cons e l ih =>
    obtain ⟨hne, hrest⟩ := List.nodup_cons.mp hl
    have hodd : ¬ MDSplusSUCCESS % 2 ≠ 1 := by decide
    unfold visit
    rw [freeOne_eq]
    dsimp only
    rw [if_neg hodd]
    split
    · next hfreed =>
      have hsame : ∀ e' ∈ l, freedBy pattern (fun p => if p = e.1 then none else xd p) e' =
          freedBy pattern xd e' := by
        intro e' he'
        have hplace : e'.1 ≠ e.1 := fun heq => hne (heq ▸ List.mem_map_of_mem he')
        unfold freedBy
        dsimp only
        rw [if_neg hplace]
      rw [ih hrest, List.countP_congr fun e' he' => by rw [hsame e' he'],
        List.countP_cons_of_pos hfreed]
      refine Prod.ext (Prod.ext ?_ (by dsimp only; omega)) rfl
      funext p
      have hany : (l.any fun e' => e'.1 == p &&
          freedBy pattern (fun p => if p = e.1 then none else xd p) e') =
          l.any fun e' => e'.1 == p && freedBy pattern xd e' := by
        rw [Bool.eq_iff_iff, List.any_eq_true, List.any_eq_true]
        constructor
        · rintro ⟨e', he', htrue⟩
          rw [hsame e' he'] at htrue
          exact ⟨e', he', htrue⟩
        · rintro ⟨e', he', htrue⟩
          rw [← hsame e' he'] at htrue
          exact ⟨e', he', htrue⟩
      dsimp only
      rw [hany, List.any_cons, hfreed, Bool.and_true]
      by_cases hp : p = e.1
      · subst hp
        simp
      · have hbeq : (e.1 == p) = false := beq_eq_false_iff_ne.mpr (Ne.symm hp)
        rw [if_neg hp, hbeq, Bool.false_or]
    · next hfreed =>
      rw [ih hrest, List.countP_cons_of_neg hfreed]
      refine Prod.ext (Prod.ext ?_ rfl) rfl
      funext p
      dsimp only
      rw [List.any_cons, Bool.eq_false_iff.mpr hfreed, Bool.and_false, Bool.false_or]

/-- A name stands for data. -/
def valued (x : Option (Xd α)) : Bool := (x.getD none).isSome

def freeSlot (x : Option (Xd α)) : Option (Xd α) := if valued x then some none else x

/-- Names that stand for each other are told apart by the one in lower case. -/
def IsKey (k : Name) : Prop := fold k = k ∧ 0 ∉ k

def selects (pattern : Name) (all : Bool) (k : Name) : Bool :=
  if all then pattern.isEmpty || strMatchWild k pattern else k = pattern

theorem count_eq (h : Valid b) (sel : Name → Bool) :
    (entries b.head).countP (fun e => (b.xd e.1).isSome && sel e.2) =
      {k | IsKey k ∧ sel (strUpcase k) = true ∧ valued (slot b k) = true}.ncard := by
  have hset : {k | IsKey k ∧ sel (strUpcase k) = true ∧ valued (slot b k) = true} =
      ((((entries b.head).filter fun e => (b.xd e.1).isSome && sel e.2).map
        fun e => fold e.2).toFinset : Set Name) := by
    ext k
    rw [List.coe_toFinset]
    constructor
    · intro ⟨⟨hfold, hzero⟩, hsel, hvalued⟩
      unfold slot at hvalued
      cases hp : lookup b k with
      | none =>
        rw [hp] at hvalued
        cases hvalued
      | some p =>
        rw [hp] at hvalued
        have hmem := h.lookup_some hzero hp
        refine List.mem_map.mpr ⟨_, List.mem_filter.mpr ⟨hmem, ?_⟩, ?_⟩
        · change ((b.xd p).isSome && sel (strUpcase k)) = true
          rw [hsel, Bool.and_true]
          exact hvalued
        · change fold (strUpcase k) = k
          rw [fold_upcase, hfold]
    · intro hk
      obtain ⟨e, he, rfl⟩ := List.mem_map.mp hk
      obtain ⟨hmem, htrue⟩ := List.mem_filter.mp he
      obtain ⟨hsome, hsel⟩ := Bool.and_eq_true_iff.mp htrue
      obtain ⟨hupper, hzero⟩ := h.upper e.2 (List.mem_map_of_mem hmem)
      have hfold : 0 ∉ fold e.2 := fun h0 => hzero ((zero_mem_fold _).mp h0)
      refine ⟨⟨fold_fold _, hfold⟩, ?_, ?_⟩
      · rw [upcase_fold, hupper]
        exact hsel
      · unfold slot
        rw [h.lookup_congr hfold hzero (fold_fold _), h.lookup_of_mem hmem]
        exact hsome
  have hnodup : (((entries b.head).filter fun e => (b.xd e.1).isSome && sel e.2).map
      fun e => fold e.2).Nodup := by
    have hkeys := h.nodup
    rw [keys_mapKeys] at hkeys
    unfold keys at hkeys
    rw [List.map_map] at hkeys
    exact hkeys.sublist (List.filter_sublist.map _)
  rw [hset, Set.ncard_coe_finset, List.toFinset_card_of_nodup hnodup, List.length_map,
    List.countP_eq_length_filter]

theorem matchWild_drop {pattern : Name} (hstar : star ∉ pattern) (n k : ℕ)
    (hn : k + n = pattern.length) : matchWild pattern k [] (pattern.drop k) = true := by
  induction n generalizing k with
  | zero =>
    have hnil : pattern.drop k = [] := List.drop_eq_nil_of_le (by omega)
    unfold matchWild
    rw [hnil]
    rfl
  | succ n ih =>
    have hk : k < pattern.length := by omega
    have hdrop := List.drop_eq_getElem_cons hk
    have hne : pattern[k] ≠ star := fun heq => hstar (heq ▸ List.getElem_mem hk)
    unfold matchWild
    split
    · next hnil =>
      rw [hnil] at hdrop
      cases hdrop
    · next pc pat heq =>
      rw [hdrop] at heq
      obtain ⟨rfl, rfl⟩ := List.cons.inj heq
      rw [if_neg hne, hdrop]
      dsimp only
      rw [if_neg (fun h => h.1 rfl)]
      exact ih (k + 1) (by omega)

theorem strMatchWild_self {pattern : Name} (hstar : star ∉ pattern) :
    strMatchWild pattern pattern = true :=
  matchWild_drop hstar pattern.length 0 (Nat.zero_add _)

theorem nodeAt_none {t : LibTreeNode Name} {p : ℕ} (hp : p ∉ blocks t) : nodeAt t p = none := by
  induction t with
  | empty => rfl
  | node block key bal left right ihl ihr =>
    unfold blocks at hp ihl ihr
    rw [entries, List.map_append, List.map_cons, List.mem_append, List.mem_cons] at hp
    unfold nodeAt
    rw [if_neg (fun h => hp (Or.inr (Or.inl h.symm))), ihl fun h => hp (Or.inl h),
      ihr fun h => hp (Or.inr (Or.inr h))]
    rfl

theorem nodeAt_of_mem {t : LibTreeNode Name} (ht : (blocks t).Nodup) {p : ℕ} {k : Name}
    (hk : (p, k) ∈ entries t) : nodeAt t p = some (p, k) := by
  induction t with
  | empty => cases hk
  | node block key bal left right ihl ihr =>
    unfold blocks at ht
    rw [entries, List.map_append, List.map_cons, List.nodup_append, List.nodup_cons] at ht
    obtain ⟨hleft, ⟨hblock, hright⟩, hboth⟩ := ht
    rw [entries, List.mem_append, List.mem_cons] at hk
    unfold nodeAt
    obtain hk | heq | hk := hk
    · have hp := List.mem_map_of_mem (f := Prod.fst) hk
      rw [if_neg fun h => hboth _ hp _ List.mem_cons_self h.symm, ihl hleft hk]
      rfl
    · cases heq
      exact if_pos rfl
    · have hp := List.mem_map_of_mem (f := Prod.fst) hk
      have hne : ¬ block = p := by
        intro heq
        rw [heq] at hblock
        exact hblock hp
      rw [if_neg hne, nodeAt_none fun h => hboth _ h _ (List.mem_cons_of_mem _ hp) rfl,
        ihr hright hk]
      rfl

theorem slot_of_xd (h : Valid b) {xd : ℕ → Xd α} {sel : Name → Bool}
    (hxd : ∀ p k, (p, k) ∈ entries b.head →
      xd p = if (b.xd p).isSome && sel k then none else b.xd p) {n : Name} (hn : 0 ∉ n) :
    slot { b with xd } n = if sel (strUpcase n) then freeSlot (slot b n) else slot b n := by
  unfold slot freeSlot
  have hlookup : lookup { b with xd } n = lookup b n := rfl
  rw [hlookup]
  cases hp : lookup b n with
  | none => split <;> rfl
  | some p =>
    rw [Option.map_some, Option.map_some]
    dsimp only
    rw [hxd p _ (h.lookup_some hn hp)]
    have hvalued : valued (some (b.xd p)) = (b.xd p).isSome := rfl
    rw [hvalued]
    cases sel (strUpcase n) with
    | false => rw [Bool.and_false]; rfl
    | true =>
      rw [Bool.and_true, if_pos rfl]
      split <;> rfl

theorem freeAllMatching_spec (h : Valid b) (pattern : Name) (count : ℕ) :
    Valid (freeMatching b pattern true count).1 ∧
      (∀ n, 0 ∉ n → slot (freeMatching b pattern true count).1 n =
        if selects pattern true (strUpcase n) then freeSlot (slot b n) else slot b n) ∧
      (freeMatching b pattern true count).2 = count + {k | IsKey k ∧
        selects pattern true (strUpcase k) = true ∧ valued (slot b k) = true}.ncard := by
  have hvisit := visit_freeOne pattern (entries b.head) h.distinct b.xd count
  rw [← libTraverseTree_eq_visit] at hvisit
  unfold freeMatching
  rw [if_pos rfl, hvisit]
  refine ⟨h.of_head rfl (Nat.le_refl _), fun n hn => ?_, ?_⟩
  · refine slot_of_xd h ?_ hn
    intro p k hk
    have hany : ((entries b.head).any fun e => e.1 == p && freedBy pattern b.xd e) =
        freedBy pattern b.xd (p, k) := by
      rw [Bool.eq_iff_iff, List.any_eq_true]
      constructor
      · intro ⟨e, he, htrue⟩
        obtain ⟨hplace, hfreed⟩ := Bool.and_eq_true_iff.mp htrue
        obtain rfl := beq_iff_eq.mp hplace
        rw [eq_of_nodup h.distinct hk he]
        exact hfreed
      · intro hfreed
        exact ⟨_, hk, by rw [hfreed, beq_self_eq_true]; rfl⟩
    rw [hany]
    rfl
  · exact congrArg (count + ·) (count_eq h (selects pattern true))

theorem freeNamed_spec (h : Valid b) {name : Name} (hname : 0 ∉ name)
    (hstar : star ∉ strUpcase name) (count : ℕ) :
    Valid (freeMatching b (strUpcase name) false count).1 ∧
      (∀ n, 0 ∉ n → slot (freeMatching b (strUpcase name) false count).1 n =
        if selects (strUpcase name) false (strUpcase n) then freeSlot (slot b n) else slot b n) ∧
      (freeMatching b (strUpcase name) false count).2 = count + {k | IsKey k ∧
        selects (strUpcase name) false (strUpcase k) = true ∧ valued (slot b k) = true}.ncard := by
  have hkey : 0 ∉ strUpcase name := fun hzero => hname ((zero_mem_upcase name).mp hzero)
  have hset : {k | IsKey k ∧ selects (strUpcase name) false (strUpcase k) = true ∧
      valued (slot b k) = true} = {k | k = fold name ∧ valued (slot b name) = true} := by
    ext k
    have hselects : selects (strUpcase name) false (strUpcase k) = true ↔
        strUpcase k = strUpcase name := decide_eq_true_iff
    constructor
    · intro ⟨⟨hfold, hzero⟩, hsel, hvalued⟩
      have heq : fold k = fold name := by
        rw [← fold_upcase k, hselects.mp hsel, fold_upcase]
      unfold slot at hvalued ⊢
      rw [h.lookup_congr hzero hname heq] at hvalued
      exact ⟨by rw [← hfold, heq], hvalued⟩
    · intro ⟨heq, hvalued⟩
      have hfold : 0 ∉ fold name := fun h0 => hname ((zero_mem_fold _).mp h0)
      subst heq
      refine ⟨⟨fold_fold _, hfold⟩, hselects.mpr (upcase_fold name), ?_⟩
      unfold slot at hvalued ⊢
      rw [h.lookup_congr hfold hname (fold_fold _)]
      exact hvalued
  have hlookup := h.lookup_congr hkey hname (fold_upcase name)
  unfold freeMatching
  rw [if_neg Bool.false_ne_true, hlookup, hset]
  cases hp : lookup b name with
  | none =>
    have hslot : slot b name = none := by
      unfold slot
      rw [hp]
      rfl
    refine ⟨h, fun n hn => ?_, ?_⟩
    · change slot b n = _
      split
      · next hsel =>
        have heq : fold n = fold name := by
          rw [← fold_upcase n, of_decide_eq_true hsel, fold_upcase]
        have hnone : slot b n = none := by
          unfold slot
          rw [h.lookup_congr hn hname heq, hp]
          rfl
        rw [hnone]
        rfl
      · rfl
    · rw [hslot]
      have hempty : {k : Name | k = fold name ∧ valued (none : Option (Xd α)) = true} = ∅ := by
        ext k
        exact iff_of_false (fun h => by cases h.2) (fun h => h)
      rw [hempty, Set.ncard_empty]
      rfl
  | some p =>
    have hmem := h.lookup_some hname hp
    have hfreed : freedBy (strUpcase name) b.xd (p, strUpcase name) = (b.xd p).isSome := by
      unfold freedBy
      rw [strMatchWild_self hstar, Bool.or_true, Bool.and_true]
    have hslot : slot b name = some (b.xd p) := by
      unfold slot
      rw [hp]
      rfl
    rw [Option.bind_some, nodeAt_of_mem h.distinct hmem, hslot]
    dsimp only
    rw [freeOne_eq, hfreed]
    dsimp only
    cases hxd : (b.xd p).isSome with
    | false =>
      rw [if_neg Bool.false_ne_true]
      refine ⟨h, fun n hn => ?_, ?_⟩
      · have hsame := @slot_of_xd _ b h b.xd (selects (strUpcase name) false) ?_ n hn
        · exact hsame
        intro q k hk
        split
        · next htrue =>
          obtain ⟨hsome, hsel⟩ := Bool.and_eq_true_iff.mp htrue
          rw [of_decide_eq_true hsel] at hk
          rw [eq_of_nodup_snd h.names hk hmem, hxd] at hsome
          cases hsome
        · rfl
      · have hempty : {k : Name | k = fold name ∧ valued (some (b.xd p)) = true} = ∅ := by
          ext k
          refine iff_of_false (fun h => ?_) (fun h => h)
          have htrue : (b.xd p).isSome = true := h.2
          rw [hxd] at htrue
          cases htrue
        rw [hempty, Set.ncard_empty]
        rfl
    | true =>
      rw [if_pos rfl]
      refine ⟨h.of_head rfl (Nat.le_refl _), fun n hn => ?_, ?_⟩
      · refine slot_of_xd h ?_ hn
        intro q k hk
        dsimp only
        by_cases hq : q = p
        · subst hq
          rw [if_pos rfl, eq_of_nodup h.distinct hk hmem, hxd]
          exact (if_pos (decide_eq_true rfl)).symm
        · rw [if_neg hq]
          split
          · next htrue =>
            obtain ⟨hsome, hsel⟩ := Bool.and_eq_true_iff.mp htrue
            rw [of_decide_eq_true hsel] at hk
            exact absurd (eq_of_nodup_snd h.names hk hmem) hq
          · rfl
      · have hone : {k : Name | k = fold name ∧ valued (some (b.xd p)) = true} = {fold name} := by
          ext k
          exact ⟨fun h => h.1, fun h => ⟨h, hxd⟩⟩
        rw [hone, Set.ncard_singleton]

theorem freeMatching_spec (h : Valid b) {name : Name} (hname : 0 ∉ name) (count : ℕ) :
    Valid (freeMatching b (strUpcase name) (isWild (strUpcase name)) count).1 ∧
      (∀ n, 0 ∉ n → slot (freeMatching b (strUpcase name) (isWild (strUpcase name)) count).1 n =
        if selects (strUpcase name) (isWild (strUpcase name)) (strUpcase n) then
          freeSlot (slot b n) else slot b n) ∧
      (freeMatching b (strUpcase name) (isWild (strUpcase name)) count).2 = count + {k | IsKey k ∧
        selects (strUpcase name) (isWild (strUpcase name)) (strUpcase k) = true ∧
          valued (slot b k) = true}.ncard := by
  have hkey : 0 ∉ strUpcase name := fun hzero => hname ((zero_mem_upcase name).mp hzero)
  cases hwild : isWild (strUpcase name) with
  | true => exact freeAllMatching_spec h _ count
  | false =>
    refine freeNamed_spec h hname ?_ count
    intro hstar
    have hall : (strUpcase name).takeWhile (· ≠ 0) = strUpcase name := by
      rw [List.takeWhile_eq_self_iff]
      intro c hc
      apply decide_eq_true
      intro hzero
      exact hkey (hzero ▸ hc)
    unfold isWild hasChar at hwild
    rw [hall, List.contains_iff_mem.mpr hstar, Bool.true_or] at hwild
    cases hwild

theorem freeAll_spec (b : Block α) : Valid (freeAll b) ∧ ∀ n, slot (freeAll b) n = none := by
  refine ⟨⟨trivial, List.nodup_nil, ?_, List.nodup_nil, ?_⟩, fun n => rfl⟩
  · intro k hk
    cases hk
  · intro p hp
    cases hp

theorem Valid.head_empty (h : Valid b) :
    b.head = .empty ↔ ∀ n, 0 ∉ n → slot b n = none := by
  constructor
  · intro hempty n _
    unfold slot lookup
    rw [hempty]
    rfl
  · intro hnone
    cases hhead : b.head with
    | empty => rfl
    | node block key bal left right =>
      have hmem : (block, key) ∈ entries b.head := by
        rw [hhead]
        exact List.mem_append_right _ List.mem_cons_self
      have hslot := hnone key (h.upper key (List.mem_map_of_mem hmem)).2
      unfold slot at hslot
      rw [h.lookup_of_mem hmem] at hslot
      cases hslot

end MdsPlus.VariableKeys
