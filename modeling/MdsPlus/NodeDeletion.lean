import MdsPlus.MarkedNodes

/-!
Deleting the nodes that are marked. In the order of their numbers they lose their tags and their
place among the external trees, and are taken out of the children or the members of their parents;
the other nodes keep their links and their order.
-/

namespace MdsPlus.NodeDeletion

open BitMemory Characteristics DeleteList MarkedNodes NodeTree
open Traversals (Chain)

def TreeUSAGE_STRUCTURE : Byte := 1

def deletedName : Name := [100, 101, 108, 101, 116, 101, 100, 32, 110, 111, 100, 101]

def emptyNci : Nci where
  flags := 0
  flags2 := 0
  spare := 0
  timeInserted := 0
  ownerIdentifier := 0
  cls := 0
  dtype := 0
  length := 0
  compressionMethod := 0
  status := 0
  dataInfo := Vector.replicate 12 0

def findBefore (brother : ℕ → Option ℕ) (n : ℕ) : ℕ → ℕ → Option ℕ
  | 0, _ => none
  | fuel + 1, bro =>
      match brother bro with
      | none => some bro
      | some next => if next = n then some bro else findBefore brother n fuel next

/-- A node is taken out of the list of a parent, if it is there. -/
def takeOut (fuel : ℕ) (first brother : ℕ → Option ℕ) (p n : ℕ) :
    Option (Bool × (ℕ → Option ℕ) × (ℕ → Option ℕ)) :=
  if first p = some n then some (true, Function.update first p (brother n), brother)
  else
    match first p with
    | none => some (false, first, brother)
    | some bro => (findBefore brother n fuel bro).map fun bro =>
        if brother bro = some n then (true, first, Function.update brother bro (brother n))
        else (false, first, brother)

def treeRemoveNodesTags (db : Database) (n : ℕ) : Database :=
  { db with
    tags := db.tags.bind fun tables => (TagTable.removeNodesTags tables n).map Prod.fst }

/-- The external trees behind move up. -/
def treeSetNoSubtree (db : Database) (n : ℕ) : Database :=
  if n ∈ db.externals then
    { db with
      externals := db.externals.erase n
      modified := true
      usage := Function.update db.usage n TreeUSAGE_STRUCTURE }
  else db

/-- What becomes of the node itself: its parent and its children are kept. -/
def clear (db : Database) (n : ℕ) : Database :=
  { db with
    deletedNids := if n < db.firstInMem then n :: db.deletedNids else db.deletedNids
    nci := if n < db.firstInMem then db.nci else Function.update db.nci n emptyNci
    name := Function.update db.name n deletedName
    conglomerateElt := Function.update db.conglomerateElt n 0
    member := Function.update db.member n none
    brother := Function.update db.brother n none
    usage := Function.update db.usage n 0 }

/-- The members are looked through when the node is not among the children. -/
def deleteNode (db : Database) (n : ℕ) : Option Database :=
  let db := treeSetNoSubtree (treeRemoveNodesTags db n) n
  (db.parent n).bind fun p =>
    (takeOut db.nodes db.child db.brother p n).bind fun (found, child, brother) =>
      if found then some (clear { db with child, brother } n)
      else (takeOut db.nodes db.member brother p n).map fun (_, member, brother) =>
        clear { db with child, member, brother } n

def deleteFrom : ℕ → Database → ℕ → Option Database
  | 0, _, _ => none
  | fuel + 1, db, nid =>
      match treeDeleteNodeGetNid db nid with
      | some n => (deleteNode db n).bind fun db => deleteFrom fuel db n
      | none => some db

/-- In the end the list is emptied. -/
def treeDeleteNodeExecute (db : Database) : Option Database :=
  if ¬ db.openForEdit then some db
  else
    (deleteFrom (db.nodes + 1) db 0).bind fun db =>
      (treeDeleteNodeInitialize 0 { db with modified := true } 0 none true).map Result.db

/-! ### Taking a node out of a list -/

variable {first brother : ℕ → Option ℕ} {l : List ℕ} {p n : ℕ}

theorem findBefore_spec {bro fuel : ℕ} (h : Chain (fun a => some (brother a)) (some bro) l)
    (hfuel : l.length ≤ fuel) (hne : bro ≠ n) :
    ∃ found, findBefore brother n fuel bro = some found ∧
      (brother found = none ∧ n ∉ l ∨ ∃ before rest, l = before ++ found :: n :: rest) := by
  induction l generalizing bro fuel with
  | nil => cases h
  | cons a l ih =>
    obtain ⟨ha, after, hafter, hrest⟩ := h
    obtain rfl := Option.some.inj ha
    obtain rfl := Option.some.inj hafter
    rw [List.length_cons] at hfuel
    obtain ⟨fuel, rfl⟩ : ∃ k, fuel = k + 1 := ⟨fuel - 1, by omega⟩
    rw [findBefore]
    cases hbrother : brother bro with
    | none =>
      rw [hbrother] at hrest
      cases l with
      | nil =>
        refine ⟨bro, rfl, Or.inl ⟨hbrother, fun hmem => ?_⟩⟩
        exact hne (List.mem_singleton.1 hmem).symm
      | cons b l => cases hrest.1
    | some next =>
      rw [hbrother] at hrest
      dsimp only
      split
      · rename_i hnext
        subst hnext
        cases l with
        | nil => cases hrest
        | cons b l =>
          obtain rfl := Option.some.inj hrest.1
          exact ⟨bro, rfl, Or.inr ⟨[], l, rfl⟩⟩
      · rename_i hnext
        have hlength : l.length ≤ fuel := by omega
        obtain ⟨found, hfound, hcases⟩ := ih hrest hlength hnext
        refine ⟨found, hfound, ?_⟩
        rcases hcases with ⟨hlast, hnot⟩ | ⟨before, rest, rfl⟩
        · refine Or.inl ⟨hlast, fun hmem => ?_⟩
          exact (List.mem_cons.1 hmem).elim (fun heq => hne heq.symm) hnot
        · exact Or.inr ⟨bro :: before, rest, rfl⟩

theorem filter_ne {l l' : List ℕ} (h : (l ++ n :: l').Nodup) :
    (l ++ n :: l').filter (· ≠ n) = l ++ l' := by
  have hnot := List.nodup_append.1 h
  have hleft : ∀ a ∈ l, decide (a ≠ n) = true := fun a ha =>
    decide_eq_true (hnot.2.2 a ha n List.mem_cons_self)
  have hright : ∀ a ∈ l', decide (a ≠ n) = true := by
    intro a ha
    refine decide_eq_true ?_
    rintro rfl
    exact (List.nodup_cons.1 hnot.2.1).1 ha
  rw [List.filter_append, List.filter_cons_of_neg (by simp), List.filter_eq_self.2 hleft,
    List.filter_eq_self.2 hright]

/-- What became of the links of a list and of the others. -/
structure TakenOut (first brother : ℕ → Option ℕ) (p n : ℕ) (l : List ℕ)
    (first' brother' : ℕ → Option ℕ) : Prop where
  chain : Chain (fun a => some (brother' a)) (first' p) (l.filter (· ≠ n))
  first_eq : ∀ q, q ≠ p → first' q = first q
  brother_eq : ∀ a, a ∉ l → brother' a = brother a

theorem takeOut_mem {fuel : ℕ} (h : Chain (fun a => some (brother a)) (first p) l)
    (hfuel : l.length ≤ fuel) (hn : n ∈ l) :
    ∃ first' brother', takeOut fuel first brother p n = some (true, first', brother') ∧
      TakenOut first brother p n l first' brother' := by
  have hnodup := h.nodup
  rw [takeOut]
  split
  · rename_i hfirst
    refine ⟨_, _, rfl, ?_, fun q hq => Function.update_of_ne hq .., fun _ _ => rfl⟩
    rw [hfirst] at h
    cases l with
    | nil => cases h
    | cons a l =>
      obtain ⟨ha, after, hafter, hrest⟩ := h
      cases ha
      cases hafter
      have hfilter : (n :: l).filter (· ≠ n) = l := filter_ne (l := []) hnodup
      rw [Function.update_self, hfilter]
      exact hrest
  · rename_i hfirst
    cases hstart : first p with
    | none =>
      rw [hstart] at h
      cases l with
      | nil => cases hn
      | cons a l => cases h.1
    | some bro =>
      rw [hstart] at h hfirst
      have hne : bro ≠ n := fun heq => hfirst (congrArg some heq)
      obtain ⟨found, hfound, ⟨-, hnot⟩ | ⟨before, rest, rfl⟩⟩ := findBefore_spec h hfuel hne
      · exact absurd hn hnot
      · obtain ⟨following, hfollowing, hrest⟩ := h.after
        cases hfollowing
        have hbrother : brother found = some n := hrest.1
        dsimp only
        rw [hfound, Option.map_some, if_pos hbrother]
        refine ⟨_, _, rfl, ?_, fun _ _ => rfl, fun a ha => Function.update_of_ne ?_ ..⟩
        · have hfilter : (before ++ found :: n :: rest).filter (· ≠ n) =
              before ++ found :: rest := by
            have happend : ∀ rest, before ++ found :: rest = (before ++ [found]) ++ rest := by simp
            rw [happend (n :: rest)] at hnodup ⊢
            exact (filter_ne hnodup).trans (happend rest).symm
          rw [hfilter, hstart]
          exact h.unlink
        · rintro rfl
          exact ha (List.mem_append_right before List.mem_cons_self)

theorem takeOut_not_mem {fuel : ℕ} (h : Chain (fun a => some (brother a)) (first p) l)
    (hfuel : l.length ≤ fuel) (hn : n ∉ l) :
    takeOut fuel first brother p n = some (false, first, brother) := by
  rw [takeOut]
  have hhead := h.start_eq
  cases hstart : first p with
  | none => rfl
  | some bro =>
    rw [hstart] at h
    have hbro : bro ∈ l := by
      cases l with
      | nil => cases h
      | cons a l =>
        obtain rfl := Option.some.inj h.1
        exact List.mem_cons_self
    have hne : bro ≠ n := fun heq => hn (heq ▸ hbro)
    rw [if_neg fun heq => hne (Option.some.inj heq)]
    obtain ⟨found, hfound, ⟨hlast, -⟩ | ⟨before, rest, rfl⟩⟩ := findBefore_spec h hfuel hne
    · dsimp only
      rw [hfound, Option.map_some, hlast, if_neg (by simp)]
    · exact absurd (List.mem_append_right before (List.mem_cons_of_mem found List.mem_cons_self)) hn

/-! ### Deleting a node -/

variable {t : Tree} {gone : List ℕ} {db : Database} {k : Kind}

/-- The links run through the lists without the nodes that are gone; the members of these are
lost. -/
def Lists (t : Tree) (gone : List ℕ) (first : Kind → ℕ → Option ℕ) (brother : ℕ → Option ℕ) :
    Prop :=
  ∀ k p, t.In p → (k = .member → p ∉ gone) →
    Chain (fun a => some (brother a)) (first k p) ((t.kids k p).filter (· ∉ gone))

theorem filter_gone (l gone : List ℕ) (n : ℕ) :
    (l.filter (· ∉ gone)).filter (· ≠ n) = l.filter (· ∉ n :: gone) := by
  rw [List.filter_filter]
  refine List.filter_congr fun a _ => ?_
  simp only [List.mem_cons, not_or, Bool.decide_and]

theorem filter_gone_of_not_mem {l : List ℕ} (hn : n ∉ l) :
    l.filter (· ∉ gone) = l.filter (· ∉ n :: gone) := by
  have hall : ∀ a ∈ l.filter (· ∉ gone), decide (a ≠ n) = true := by
    intro a ha
    refine decide_eq_true ?_
    rintro rfl
    exact hn (List.mem_filter.1 ha).1
  rw [← filter_gone]
  exact (List.filter_eq_self.2 hall).symm

namespace Lists

variable {lists : Kind → ℕ → Option ℕ} (h : Lists t gone lists brother)

include h

theorem takeOut (hn : n ∈ t.kids k p) (hgone : n ∉ gone) (hp : k = .member → p ∉ gone)
    {fuel : ℕ} (hfuel : (t.kids k p).length ≤ fuel) (hin : t.In p) :
    ∃ first' brother', takeOut fuel (lists k) brother p n = some (true, first', brother') ∧
      Lists t (n :: gone) (Function.update lists k first') brother' ∧
      ∀ q, q ≠ p → first' q = lists k q := by
  have hmem : n ∈ (t.kids k p).filter (· ∉ gone) :=
    List.mem_filter.2 ⟨hn, decide_eq_true hgone⟩
  have hlength := List.length_filter_le (· ∉ gone) (t.kids k p)
  obtain ⟨first', brother', htake, htaken⟩ := takeOut_mem (h k p hin hp)
    (Nat.le_trans hlength hfuel) hmem
  refine ⟨first', brother', htake, fun j q hq hj => ?_, htaken.first_eq⟩
  by_cases hjq : j = k ∧ q = p
  · obtain ⟨rfl, rfl⟩ := hjq
    rw [Function.update_self, ← filter_gone]
    exact htaken.chain
  · -- another list has neither the node nor those whose links changed
    have hapart : ∀ a ∈ t.kids j q, a ∉ t.kids k p := by
      intro a ha ha'
      have hpq : q = p := Option.some.inj ((t.linked ha).symm.trans (t.linked ha'))
      subst hpq
      exact hjq ⟨t.once ha ha', rfl⟩
    have hfirst : Function.update lists k first' j q = lists j q := by
      by_cases hjk : j = k
      · subst hjk
        rw [Function.update_self]
        exact htaken.first_eq q fun hqp => hjq ⟨rfl, hqp⟩
      · rw [Function.update_of_ne hjk]
    rw [hfirst, ← filter_gone_of_not_mem fun hn' => hapart n hn' hn]
    have hj' : j = .member → q ∉ gone := fun hmember hq' => hj hmember (List.mem_cons_of_mem n hq')
    refine (h j q hq hj').congr fun a ha => congrArg some (htaken.brother_eq a fun ha' => ?_)
    exact hapart a (List.mem_filter.1 ha).1 (List.mem_filter.1 ha').1

theorem lost (hn : n ∈ t.kids .member p) (hp : p ∈ gone) :
    Lists t (n :: gone) lists brother := by
  intro j q hq hj
  have hj' : j = .member → q ∉ gone := fun hmember hq' => hj hmember (List.mem_cons_of_mem n hq')
  have hnot : n ∉ t.kids j q := by
    intro hn'
    have hpq : q = p := Option.some.inj ((t.linked hn').symm.trans (t.linked hn))
    subst hpq
    exact hj' (t.once hn' hn) hp
  rw [← filter_gone_of_not_mem hnot]
  exact h j q hq hj'

end Lists

def firsts (child member : ℕ → Option ℕ) : Kind → ℕ → Option ℕ
  | .child => child
  | .member => member

theorem update_firsts_child (child child' member : ℕ → Option ℕ) :
    Function.update (firsts child member) .child child' = firsts child' member := by
  funext k
  cases k with
  | child => rfl
  | member => rfl

theorem update_firsts_member (child member member' : ℕ → Option ℕ) :
    Function.update (firsts child member) .member member' = firsts child member' := by
  funext k
  cases k with
  | child => rfl
  | member => rfl

structure Partway (db : Database) (t : Tree) (gone : List ℕ) : Prop where
  lists : Lists t gone (firsts db.child db.member) db.brother
  lost : ∀ p ∈ gone, db.member p = none
  parent : ∀ n, t.In n → db.parent n = t.parent n
  inside : ∀ n, t.In n → n < db.nodes

structure Kept (db db' : Database) (l : List ℕ) : Prop where
  nodes : db'.nodes = db.nodes
  openForEdit : db'.openForEdit = db.openForEdit
  deleteList : db'.deleteList = db.deleteList
  name : ∀ n, n ∉ l → db'.name n = db.name n
  usage : ∀ n, n ∉ l → db'.usage n = db.usage n
  nci : ∀ n, n ∉ l → db'.nci n = db.nci n
  elt : ∀ n, db'.conglomerateElt n = if n ∈ l then 0 else db.conglomerateElt n
  externals : db'.externals = l.foldl List.erase db.externals

theorem Kept.refl (db : Database) : Kept db db [] :=
  ⟨rfl, rfl, rfl, fun _ _ => rfl, fun _ _ => rfl, fun _ _ => rfl, fun _ => rfl, rfl⟩

theorem Kept.append {db' db'' : Database} {l' : List ℕ} (h : Kept db db' l)
    (h' : Kept db' db'' l') : Kept db db'' (l ++ l') := by
  have hnot : ∀ n, n ∉ l ++ l' → n ∉ l ∧ n ∉ l' := fun n hn =>
    ⟨fun hl => hn (List.mem_append_left l' hl), fun hl => hn (List.mem_append_right l hl)⟩
  refine ⟨h'.nodes.trans h.nodes, h'.openForEdit.trans h.openForEdit,
    h'.deleteList.trans h.deleteList, fun n hn => ?_, fun n hn => ?_, fun n hn => ?_, fun n => ?_,
    ?_⟩
  · exact (h'.name n (hnot n hn).2).trans (h.name n (hnot n hn).1)
  · exact (h'.usage n (hnot n hn).2).trans (h.usage n (hnot n hn).1)
  · exact (h'.nci n (hnot n hn).2).trans (h.nci n (hnot n hn).1)
  · rw [h'.elt n, h.elt n]
    by_cases hl : n ∈ l <;> by_cases hl' : n ∈ l' <;> simp [hl, hl']
  · rw [List.foldl_append, ← h.externals]
    exact h'.externals

theorem clear_partway (db : Database) {child member brother : ℕ → Option ℕ}
    (hlost : ∀ p ∈ gone, member p = none) (hparent : ∀ n, t.In n → db.parent n = t.parent n)
    (hinside : ∀ n, t.In n → n < db.nodes)
    (h : Lists t (n :: gone) (firsts child member) brother) :
    Partway (clear { db with child, member, brother } n) t (n :: gone) where
  lists k p hp hk := by
    have hsame : ∀ a ∈ (t.kids k p).filter (· ∉ n :: gone),
        some (Function.update brother n none a) = some (brother a) := by
      intro a ha
      have hne : a ≠ n := by
        rintro rfl
        exact of_decide_eq_true (List.mem_filter.1 ha).2 List.mem_cons_self
      exact congrArg some (Function.update_of_ne hne ..)
    have hchain := (h k p hp hk).congr hsame
    cases k with
    | child => exact hchain
    | member =>
      have hne : p ≠ n := by
        rintro rfl
        exact hk rfl List.mem_cons_self
      have hmember : Function.update member n none p = member p := Function.update_of_ne hne ..
      change Chain _ (Function.update member n none p) _
      rw [hmember]
      exact hchain
  lost p hp := by
    change Function.update member n none p = none
    by_cases hpn : p = n
    · rw [hpn, Function.update_self]
    · rw [Function.update_of_ne hpn]
      exact hlost p ((List.mem_cons.1 hp).resolve_left hpn)
  parent := hparent
  inside := hinside

theorem prepared_eq (db : Database) (n : ℕ) :
    ∃ tags modified usage,
      treeSetNoSubtree (treeRemoveNodesTags db n) n =
        { db with tags, modified, usage, externals := db.externals.erase n } ∧
      ∀ a, a ≠ n → usage a = db.usage a := by
  rw [treeSetNoSubtree]
  split
  · exact ⟨_, _, _, rfl, fun a ha => Function.update_of_ne ha ..⟩
  · rename_i hn
    have herase : db.externals.erase n = db.externals := List.erase_of_not_mem hn
    rw [herase]
    exact ⟨_, _, _, rfl, fun _ _ => rfl⟩

theorem clear_kept {db₁ : Database} (child member brother : ℕ → Option ℕ)
    (h : treeSetNoSubtree (treeRemoveNodesTags db n) n = db₁) :
    Kept db (clear { db₁ with child, member, brother } n) [n] := by
  obtain ⟨tags, modified, usage, hprepared, husage⟩ := prepared_eq db n
  obtain rfl := hprepared.symm.trans h
  have hne : ∀ a, a ∉ [n] → a ≠ n := fun a ha han => ha (List.mem_singleton.2 han)
  refine ⟨rfl, rfl, rfl, fun a ha => Function.update_of_ne (hne a ha) .., fun a ha => ?_,
    fun a ha => ?_, fun a => ?_, rfl⟩
  · exact (Function.update_of_ne (hne a ha) ..).trans (husage a (hne a ha))
  · change (if n < db.firstInMem then db.nci else Function.update db.nci n emptyNci) a = db.nci a
    split
    · rfl
    · exact Function.update_of_ne (hne a ha) ..
  · change Function.update db.conglomerateElt n 0 a = _
    by_cases ha : a = n
    · rw [ha, Function.update_self, if_pos (List.mem_singleton_self n)]
    · rw [Function.update_of_ne ha, if_neg fun hmem => ha (List.mem_singleton.1 hmem)]

theorem deleteNode_partway (h : Partway db t gone) (hparent : t.parent n = some p) (hp : t.In p)
    (hgone : n ∉ gone) (hlength : ∀ k, (t.kids k p).length ≤ db.nodes) :
    ∃ db', deleteNode db n = some db' ∧ Partway db' t (n :: gone) ∧ Kept db db' [n] := by
  obtain ⟨tags, modified, usage, hprepared, -⟩ := prepared_eq db n
  have hn : db.parent n = some p := (h.parent n (Tree.in_of_parent hparent)).trans hparent
  obtain ⟨k, hk⟩ := t.listed hparent
  rw [deleteNode, hprepared]
  dsimp only
  rw [hn, Option.bind_some]
  cases k with
  | child =>
    obtain ⟨child, brother, htake, hlists, -⟩ :=
      h.lists.takeOut hk hgone nofun (hlength .child) hp
    rw [update_firsts_child] at hlists
    refine ⟨_, congrArg (Option.bind · _) htake, ?_, clear_kept child db.member brother hprepared⟩
    exact clear_partway { db with tags, modified, usage, externals := db.externals.erase n } h.lost
      h.parent h.inside hlists
  | member =>
    have hnot : n ∉ (t.kids .child p).filter (· ∉ gone) := fun hmem =>
      absurd (t.once (List.mem_filter.1 hmem).1 hk) nofun
    have hfew := Nat.le_trans (List.length_filter_le (· ∉ gone) (t.kids .child p)) (hlength .child)
    have hchild : takeOut db.nodes db.child db.brother p n = some (false, db.child, db.brother) :=
      takeOut_not_mem (h.lists .child p hp nofun) hfew hnot
    rw [hchild, Option.bind_some]
    dsimp only
    rw [if_neg Bool.false_ne_true]
    by_cases hlost : p ∈ gone
    · have hmember : takeOut db.nodes db.member db.brother p n =
          some (false, db.member, db.brother) :=
        takeOut_not_mem (l := []) (h.lost p hlost) (Nat.zero_le _) List.not_mem_nil
      rw [hmember, Option.map_some]
      refine ⟨_, rfl, ?_, clear_kept db.child db.member db.brother hprepared⟩
      exact clear_partway { db with tags, modified, usage, externals := db.externals.erase n }
        h.lost h.parent h.inside (h.lists.lost hk hlost)
    · obtain ⟨member, brother, htake, hlists, hsame⟩ :=
        h.lists.takeOut hk hgone (fun _ => hlost) (hlength .member) hp
      rw [update_firsts_member] at hlists
      have hlost' : ∀ q ∈ gone, member q = none := by
        intro q hq
        have hqp : q ≠ p := fun heq => hlost (heq ▸ hq)
        exact (hsame q hqp).trans (h.lost q hq)
      refine ⟨_, congrArg (Option.map _) htake, ?_, clear_kept db.child member brother hprepared⟩
      exact clear_partway { db with tags, modified, usage, externals := db.externals.erase n }
        hlost' h.parent h.inside hlists

/-! ### Deleting all -/

def prune (t : Tree) (gone : List ℕ) : Tree where
  name := t.name
  usage := t.usage
  parent n := if n ∈ gone then none else t.parent n
  kids k p := (t.kids k p).filter (· ∉ gone)
  linked := by
    intro k p c hc
    obtain ⟨hmem, hnot⟩ := List.mem_filter.1 hc
    rw [if_neg (of_decide_eq_true hnot)]
    exact t.linked hmem
  listed := by
    intro p c hc
    split at hc
    · cases hc
    · rename_i hnot
      obtain ⟨k, hk⟩ := t.listed hc
      exact ⟨k, List.mem_filter.2 ⟨hk, decide_eq_true hnot⟩⟩
  nodup k p := (t.nodup k p).filter _
  once hj hk := t.once (List.mem_filter.1 hj).1 (List.mem_filter.1 hk).1
  bounded := by
    obtain ⟨depth, bound, hdepth, hbound⟩ := t.bounded
    refine ⟨depth, bound, fun c p hc => ?_, hbound⟩
    split at hc
    · cases hc
    · exact hdepth c p hc
  top := by
    split
    · rfl
    · exact t.top

theorem prune_in (htop : 0 ∉ gone) : (prune t gone).In n ↔ t.In n ∧ n ∉ gone := by
  constructor
  · rintro (rfl | ⟨p, hp⟩)
    · exact ⟨Or.inl rfl, htop⟩
    · change (if n ∈ gone then none else t.parent n) = some p at hp
      split at hp
      · cases hp
      · rename_i hnot
        exact ⟨Tree.in_of_parent hp, hnot⟩
  · rintro ⟨rfl | ⟨p, hp⟩, hnot⟩
    · exact Or.inl rfl
    · exact Or.inr ⟨p, (if_neg hnot).trans hp⟩

theorem enumerate_congr {db' : Database} (hnodes : db'.nodes = db.nodes)
    (hlist : db'.deleteList = db.deleteList) (fuel nid : ℕ) :
    enumerate db' fuel nid = enumerate db fuel nid := by
  induction fuel generalizing nid with
  | zero => rfl
  | succ fuel ih =>
    have hnext : treeDeleteNodeGetNid db' nid = treeDeleteNodeGetNid db nid := by
      rw [treeDeleteNodeGetNid, treeDeleteNodeGetNid, hnodes, hlist]
    rw [enumerate, enumerate, hnext]
    cases treeDeleteNodeGetNid db nid with
    | none => rfl
    | some n => exact congrArg (n :: ·) (ih n)

theorem deleteFrom_partway {fuel nid : ℕ} (h : Partway db t gone) (hrooted : t.Rooted)
    (hlength : ∀ k p, (t.kids k p).length ≤ db.nodes) (hfuel : db.nodes ≤ fuel + nid + 1)
    (hmarked : ∀ n ∈ enumerate db fuel nid, (∃ p, t.parent n = some p) ∧ n ∉ gone) :
    ∃ db', deleteFrom (fuel + 1) db nid = some db' ∧
      Partway db' t ((enumerate db fuel nid).reverse ++ gone) ∧
      Kept db db' (enumerate db fuel nid) := by
  induction fuel generalizing db nid gone with
  | zero =>
    have hnone : treeDeleteNodeGetNid db nid = none := by
      have hzero : db.nodes - (nid + 1) = 0 := by omega
      rw [treeDeleteNodeGetNid, hzero, nextMarked]
    refine ⟨db, ?_, h, .refl db⟩
    rw [deleteFrom, hnone]
  | succ fuel ih =>
    rw [deleteFrom]
    rw [enumerate] at hmarked ⊢
    cases hnext : treeDeleteNodeGetNid db nid with
    | none => exact ⟨db, rfl, h, .refl db⟩
    | some n =>
      rw [hnext] at hmarked
      have hbetween := nextMarked_eq db.deleteList (db.nodes - (nid + 1)) (nid + 1)
      rw [treeDeleteNodeGetNid] at hnext
      rw [hnext] at hbetween
      obtain ⟨⟨p, hp⟩, hgone⟩ := hmarked n List.mem_cons_self
      obtain ⟨db₁, hdelete, hpartway, hkept⟩ := deleteNode_partway h hp (hrooted n p hp) hgone
        fun k => hlength k p
      have hsame := enumerate_congr hkept.nodes hkept.deleteList fuel n
      have hlength₁ : ∀ k p, (t.kids k p).length ≤ db₁.nodes := by
        intro k p
        rw [hkept.nodes]
        exact hlength k p
      have hmarked₁ : ∀ m ∈ enumerate db₁ fuel n, (∃ p, t.parent m = some p) ∧ m ∉ n :: gone := by
        intro m hm
        rw [hsame] at hm
        obtain ⟨hparent, hnot⟩ := hmarked m (List.mem_cons_of_mem n hm)
        rw [enumerate_eq db (by omega)] at hm
        have hrange := List.mem_range'_1.1 (List.mem_filter.1 hm).1
        refine ⟨hparent, fun hmem => ?_⟩
        rcases List.mem_cons.1 hmem with rfl | hmem
        · omega
        · exact hnot hmem
      obtain ⟨db', hrest, hpartway', hkept'⟩ :=
        ih hpartway hlength₁ (by rw [hkept.nodes]; omega) hmarked₁
      rw [hsame] at hpartway' hkept'
      refine ⟨db', ?_, ?_, hkept.append hkept'⟩
      · dsimp only
        rw [hdelete]
        exact hrest
      · dsimp only
        rw [List.reverse_cons, List.append_assoc]
        exact hpartway'

theorem Partway.congr {gone' : List ℕ} (h : Partway db t gone) (heq : ∀ n, n ∈ gone ↔ n ∈ gone') :
    Partway db t gone' where
  lists k p hp hk := by
    have hfilter : (t.kids k p).filter (· ∉ gone') = (t.kids k p).filter (· ∉ gone) :=
      List.filter_congr fun n _ => decide_eq_decide.2 (not_congr (heq n).symm)
    rw [hfilter]
    exact h.lists k p hp fun hmember hmem => hk hmember ((heq p).1 hmem)
  lost p hp := h.lost p ((heq p).2 hp)
  parent := h.parent
  inside := h.inside

theorem holds_prune (h : Holds db t) {db' : Database} (hpartway : Partway db' t gone)
    (hnodes : db'.nodes = db.nodes)
    (helt : ∀ n, db'.conglomerateElt n = if n ∈ gone then 0 else db.conglomerateElt n)
    (htop : 0 ∉ gone)
    (hclosed : ∀ p ∈ gone, ∀ k, ∀ c ∈ t.kids k p, c ∈ gone) : Holds db' (prune t gone) := by
  have hin : ∀ n, (prune t gone).In n → t.In n ∧ n ∉ gone := fun n hn => (prune_in htop).1 hn
  refine ⟨fun p hp => ?_, fun p hp => ?_, fun n hn => ?_, fun c p hp => ?_, fun n hn => ?_, ?_,
    fun n hn => ?_, fun n => ?_⟩
  · exact hpartway.lists .child p (hin p hp).1 nofun
  · exact hpartway.lists .member p (hin p hp).1 fun _ => (hin p hp).2
  · refine (hpartway.parent n (hin n hn).1).trans ?_
    exact (if_neg (hin n hn).2).symm
  · change (if c ∈ gone then none else t.parent c) = some p at hp
    split at hp
    · cases hp
    · rename_i hnot
      obtain ⟨k, hk⟩ := t.listed hp
      exact (prune_in htop).2 ⟨h.rooted c p hp, fun hgone => hnot (hclosed p hgone k c hk)⟩
  · exact hpartway.inside n (hin n hn).1
  · rw [hnodes]
    exact h.few
  · rw [helt n] at hn
    split at hn
    · exact absurd rfl hn
    · rename_i hnot
      exact (prune_in htop).2 ⟨h.numbered n hn, hnot⟩
  · rw [helt n]
    split
    · exact ⟨Nat.zero_le n, by decide⟩
    · exact h.placed n

theorem treeDeleteNodeExecute_holds (h : Holds db t) (hedit : db.openForEdit = true)
    (hmarked : ∀ n ∈ gone, ∃ p, t.parent n = some p)
    (hclosed : ∀ p ∈ gone, ∀ k, ∀ c ∈ t.kids k p, c ∈ gone)
    (hgone : enumerate db db.nodes 0 = gone) :
    ∃ db', treeDeleteNodeExecute db = some db' ∧ Holds db' (prune t gone) ∧
      (∀ n ∉ gone, db'.name n = db.name n ∧ db'.usage n = db.usage n ∧ db'.nci n = db.nci n ∧
        db'.conglomerateElt n = db.conglomerateElt n) ∧
      (∀ n ≤ db.nodes, getbit db'.deleteList n = false) ∧
      db'.externals = gone.foldl List.erase db.externals := by
  have hstart : Partway db t [] := by
    refine ⟨fun k p hp _ => ?_, nofun, h.parent, h.inside⟩
    have hall : (t.kids k p).filter (· ∉ ([] : List ℕ)) = t.kids k p :=
      List.filter_eq_self.2 fun n _ => decide_eq_true List.not_mem_nil
    rw [hall]
    cases k with
    | child => exact h.child p hp
    | member => exact h.member p hp
  have htop : 0 ∉ gone := by
    intro hzero
    obtain ⟨p, hp⟩ := hmarked 0 hzero
    rw [t.top] at hp
    cases hp
  obtain ⟨db₁, hdelete, hpartway, hkept⟩ := deleteFrom_partway hstart h.rooted h.length_kids_le
    (Nat.le_succ db.nodes) fun n hn => ⟨hmarked n (hgone ▸ hn), List.not_mem_nil⟩
  rw [hgone] at hpartway hkept
  have hpartway₁ : Partway db₁ t gone := hpartway.congr fun n => by simp
  have hedit₁ : db₁.openForEdit = true := hkept.openForEdit.trans hedit
  refine ⟨{ db₁ with
      modified := true, deleteList := allocate (vmNeeded db₁.nodes) true db₁.deleteList },
    ?_, ?_, fun n hn => ?_, fun n hn => ?_, hkept.externals⟩
  · rw [treeDeleteNodeExecute, if_neg (not_not_intro hedit), hdelete]
    change Option.map _ (treeDeleteNodeInitialize 0 { db₁ with modified := true } 0 none true) = _
    rw [treeDeleteNodeInitialize, if_neg (not_not_intro hedit₁)]
    rfl
  · refine holds_prune h ?_ hkept.nodes hkept.elt htop hclosed
    exact ⟨hpartway₁.lists, hpartway₁.lost, hpartway₁.parent, hpartway₁.inside⟩
  · have helt := hkept.elt n
    rw [if_neg hn] at helt
    exact ⟨hkept.name n hn, hkept.usage n hn, hkept.nci n hn, helt⟩
  · have hbyte : n / 8 < vmNeeded db₁.nodes := by
      rw [hkept.nodes, vmNeeded]
      omega
    rw [getbit_allocate _ _ _ hbyte]
    rfl

/-! ### Calls and the deletion -/

theorem not_mem_closure_zero (h : Holds db t) {given : List ℕ} (hgiven : 0 ∉ given) :
    0 ∉ Closure t db.conglomerateElt given := by
  rintro ⟨a, ha, hreach⟩
  rcases Relation.ReflTransGen.cases_tail hreach with
    rfl | ⟨b, -, ⟨k, hk⟩ | ⟨-, first, i, hfirst, hi, -⟩⟩
  · exact hgiven ha
  · have hparent := t.linked hk
    rw [t.top] at hparent
    cases hparent
  · have hplaced := (h.placed b).1
    omega

theorem zero_not_mem_give (calls : List Call) {given : List ℕ} (h : 0 ∉ given) :
    0 ∉ calls.foldl Call.give given := by
  induction calls generalizing given with
  | nil => exact h
  | cons c calls ih =>
    refine ih fun hmem => ?_
    rw [Call.give, Call.kept] at hmem
    rcases List.mem_append.1 hmem with hmem | hmem
    · split at hmem
      · cases hmem
      · exact h hmem
    · split at hmem
      · cases hmem
      · rename_i hnid
        exact hnid (List.mem_singleton.1 hmem).symm

theorem enumerate_spec (h : Holds db t) {given : List ℕ} (hgiven : ∀ a ∈ given, t.In a)
    (hzero : 0 ∉ given) (hmarked : Marked db t given) :
    (enumerate db db.nodes 0).Pairwise (· < ·) ∧
      ∀ n, n ∈ enumerate db db.nodes 0 ↔ n ∈ Closure t db.conglomerateElt given := by
  rw [enumerate_eq db (by omega)]
  refine ⟨(List.pairwise_lt_range' ..).filter _, fun n => ?_⟩
  rw [List.mem_filter, List.mem_range'_1]
  constructor
  · rintro ⟨hrange, hbit⟩
    exact (hmarked n (by omega)).1 hbit
  · intro hn
    have hinside := h.inside n (h.in_of_mem_closure hgiven hn)
    have hne : n ≠ 0 := by
      rintro rfl
      exact not_mem_closure_zero h hzero hn
    exact ⟨by omega, (hmarked n (by omega)).2 hn⟩

/-- After calls that give nodes, what is marked is what goes with those given since the list was
last emptied, and another call counts what is marked anew. One gets the marked nodes in turn;
the deletion takes just these out of the tree and leaves the order of the others. -/
theorem runCalls_execute (h : Holds db t) (hedit : db.openForEdit = true)
    (hnone : ∀ n ≤ db.nodes, getbit db.deleteList n = false) {calls : List Call}
    (hcalls : ∀ c ∈ calls, t.In c.nid) {fuel : ℕ} (hfuel : db.nodes < fuel) :
    ∃ db', runCalls fuel db calls = some db' ∧
      (∀ c : Call, t.In c.nid →
        ∃ r, treeDeleteNodeInitialize fuel db' c.nid c.count c.reset = some r ∧
          r.status = .success ∧
          r.count = (if c.reset then c.count.map fun _ => 0 else c.count).map fun k : ℤ => k +
            ((Closure t db.conglomerateElt ((calls ++ [c]).foldl Call.give []) \
              Closure t db.conglomerateElt
                (if c.reset then [] else calls.foldl Call.give [])).ncard : ℤ)) ∧
      ∃ gone, enumerate db' db'.nodes 0 = gone ∧ gone.Pairwise (· < ·) ∧
        (∀ n, n ∈ gone ↔ n ∈ Closure t db.conglomerateElt (calls.foldl Call.give [])) ∧
        (∀ n ≤ db.nodes, getbit db'.deleteList n = true ↔ n ∈ gone) ∧
        ∃ db'' t', treeDeleteNodeExecute db' = some db'' ∧ Holds db'' t' ∧
          (∀ n, t'.In n ↔ t.In n ∧ n ∉ gone) ∧
          (∀ n, t'.In n → t'.parent n = t.parent n ∧
            ∀ k, t'.kids k n = (t.kids k n).filter (· ∉ gone)) ∧
          ∀ n ∉ gone, db''.name n = db.name n ∧ db''.usage n = db.usage n ∧
            db''.nci n = db.nci n ∧ db''.conglomerateElt n = db.conglomerateElt n := by
  have hstart : Marked db t [] := by
    intro n hn
    rw [hnone n hn]
    exact ⟨nofun, fun ⟨_, ha, _⟩ => absurd ha List.not_mem_nil⟩
  obtain ⟨list, hrun, hmarked, hgiven⟩ :=
    runCalls_eq h hedit (fun _ ha => absurd ha List.not_mem_nil) hstart hcalls hfuel
  have hlist := h.withList list
  have hzero := zero_not_mem_give calls List.not_mem_nil
  obtain ⟨hsorted, hmem⟩ := enumerate_spec hlist hgiven hzero hmarked
  generalize hgone : enumerate { db with deleteList := list } db.nodes 0 = gone at hsorted hmem
  have hparent : ∀ n ∈ gone, ∃ p, t.parent n = some p := by
    intro n hn
    have hclosure := (hmem n).1 hn
    rcases h.in_of_mem_closure hgiven hclosure with rfl | hp
    · exact absurd hclosure (not_mem_closure_zero h hzero)
    · exact hp
  have htop : 0 ∉ gone := fun hgone => not_mem_closure_zero h hzero ((hmem 0).1 hgone)
  have hclosed : ∀ p ∈ gone, ∀ k, ∀ c ∈ t.kids k p, c ∈ gone := by
    intro p hp k c hc
    obtain ⟨a, ha, hap⟩ := (hmem p).1 hp
    exact (hmem c).2 ⟨a, ha, hap.tail (Or.inl ⟨k, hc⟩)⟩
  obtain ⟨db'', hexecute, hholds, hkept, -⟩ :=
    treeDeleteNodeExecute_holds hlist hedit hparent hclosed hgone
  refine ⟨_, hrun, fun c hc => ?_, gone, hgone, hsorted, hmem,
    fun n hn => (hmarked n hn).trans (hmem n).symm, db'', _, hexecute, hholds,
    fun n => prune_in htop, fun n hn => ?_, hkept⟩
  · obtain ⟨list', hcall, -⟩ :=
      treeDeleteNodeInitialize_eq hlist hedit hgiven hmarked c hc hfuel
    refine ⟨_, hcall, rfl, ?_⟩
    rw [List.foldl_append]
    rfl
  · exact ⟨if_neg ((prune_in htop).1 hn).2, fun k => rfl⟩

/-- Three children of the top, the first two of which are a conglomerate. -/
def threeNodes : Tree where
  name _ := []
  usage _ := 0
  parent n := if n ∈ [1, 2, 3] then some 0 else none
  kids k p := if k = .child ∧ p = 0 then [1, 2, 3] else []
  linked := by
    intro k p c hc
    split at hc
    · rename_i h
      rw [if_pos hc, h.2]
    · cases hc
  listed := by
    intro p c hc
    split at hc
    · rename_i h
      cases hc
      exact ⟨.child, h⟩
    · cases hc
  nodup k p := by
    split
    · decide
    · exact List.nodup_nil
  once := by
    intro j k p c hj hk
    split at hj
    · rename_i h
      split at hk
      · rename_i h'
        exact h.1.trans h'.1.symm
      · cases hk
    · cases hj
  bounded := by
    refine ⟨fun n => if n ∈ [1, 2, 3] then 1 else 0, 1, fun c p hc => ?_, fun n => ?_⟩
    · split at hc
      · rename_i h
        cases hc
        exact if_pos h
      · cases hc
    · dsimp only
      split <;> decide
  top := rfl

def threeNodesDatabase : Database where
  openForEdit := true
  nodes := 14
  parent := threeNodes.parent
  member _ := none
  brother n := if n = 1 then some 2 else if n = 2 then some 3 else none
  child n := if n = 0 then some 1 else none
  name _ := []
  usage _ := 1
  conglomerateElt n := if n = 1 then 1 else if n = 2 then 2 else 0
  externals := []
  tags := .error .outOfRange
  nci _ := emptyNci
  firstInMem := 0
  deletedNids := []
  modified := true
  deleteList := []

theorem threeNodes_holds : Holds threeNodesDatabase threeNodes where
  child p hp := by
    by_cases hzero : p = 0
    · subst hzero
      exact ⟨rfl, _, rfl, rfl, _, rfl, rfl, _, rfl, rfl⟩
    · have hkids : threeNodes.kids .child p = [] := if_neg fun h => hzero h.2
      rw [hkids]
      exact if_neg hzero
  member p hp := rfl
  parent n hn := rfl
  rooted c p hp := by
    change (if c ∈ [1, 2, 3] then some 0 else none) = some p at hp
    split at hp
    · exact Or.inl (Option.some.inj hp).symm
    · cases hp
  inside n hn := by
    rcases hn with rfl | ⟨p, hp⟩
    · decide
    · change (if n ∈ [1, 2, 3] then some 0 else none) = some p at hp
      split at hp
      · rename_i h
        simp only [List.mem_cons, List.not_mem_nil, or_false] at h
        change n < 14
        omega
      · cases hp
  few := by decide
  numbered n hn := by
    refine Or.inr ⟨0, if_pos ?_⟩
    by_contra hnot
    simp only [List.mem_cons, List.not_mem_nil, or_false, not_or] at hnot
    exact hn ((if_neg hnot.1).trans (if_neg hnot.2.1))
  placed n := by
    by_cases hone : n = 1
    · subst hone
      decide
    · by_cases htwo : n = 2
      · subst htwo
        decide
      · have helt : threeNodesDatabase.conglomerateElt n = 0 := (if_neg hone).trans (if_neg htwo)
        rw [helt]
        exact ⟨Nat.zero_le n, by decide⟩

theorem threeNodes_unmarked : ∀ n ≤ 14, getbit threeNodesDatabase.deleteList n = false :=
  fun n _ => getbit_replicate 0 n

theorem conglomerate_deleted :
    ∃ db' db'' t', runCalls 15 threeNodesDatabase [⟨2, some 0, true⟩] = some db' ∧
      enumerate db' db'.nodes 0 = [1, 2] ∧ treeDeleteNodeExecute db' = some db'' ∧
      Holds db'' t' ∧ t'.kids .child 0 = [3] := by
  have hcalls : ∀ c ∈ [(⟨2, some 0, true⟩ : Call)], threeNodes.In c.nid := by
    intro c hc
    rw [List.mem_singleton.1 hc]
    exact Or.inr ⟨0, rfl⟩
  have hfuel : threeNodesDatabase.nodes < 15 := Nat.lt_succ_self 14
  obtain ⟨db', hrun, -, gone, hgone, -, -, -, db'', t', hexecute, hholds, -, hkids, -⟩ :=
    runCalls_execute threeNodes_holds rfl threeNodes_unmarked hcalls hfuel
  have hget : (runCalls 15 threeNodesDatabase [⟨2, some 0, true⟩]).map
      (fun db => enumerate db db.nodes 0) = some [1, 2] := by decide +kernel
  rw [hrun] at hget
  obtain rfl : gone = [1, 2] := hgone.symm.trans (Option.some.inj hget)
  exact ⟨db', db'', t', hrun, hgone, hexecute, hholds, (hkids 0 (Or.inl rfl)).2 .child⟩

theorem top_not_marked :
    Holds threeNodesDatabase threeNodes ∧
      (treeDeleteNodeInitialize 15 threeNodesDatabase 0 (some 0) true).map
        (fun r => (r.status, r.count, enumerate r.db 14 0)) = some (.success, some 0, []) ∧
      1 ∈ Closure threeNodes threeNodesDatabase.conglomerateElt [0] := by
  refine ⟨threeNodes_holds, by decide +kernel, 0, List.mem_singleton_self 0, ?_⟩
  exact .single (Or.inl ⟨.child, by decide⟩)

end MdsPlus.NodeDeletion
