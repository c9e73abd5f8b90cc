import MdsPlus.DatabaseList
import MdsPlus.Outcome

/-!
The open entries of the list come first, no tree twice. Of a call that creates an entry it
is told which entries stay, and from it what every call does to the trees that are open.
-/

namespace MdsPlus.DatabaseRuns

open DatabaseList Outcome

namespace Database

def key (db : Database) : Option Name × ℤ := (db.mainTreenam, db.shotid)

def dirty (db : Database) : Bool := db.isOpen && db.openForEdit && db.modified

end Database

open Database

/-- The flags of an entry fit. -/
structure Sound (db : Database) : Prop where
  named : db.isOpen → db.mainTreenam ≠ none
  closed : db.isOpen = false → db.openForEdit = false ∧ db.remote = false
  remote : db.remote → db.openForEdit = false
  modified : db.modified → db.openForEdit

structure Valid (s : List Database) : Prop where
  openFirst : s.Pairwise fun a b => b.isOpen → a.isOpen
  distinct : s.Pairwise fun a b => a.isOpen → b.isOpen → key a ≠ key b
  sound : ∀ db ∈ s, Sound db

namespace Valid

variable {s t : List Database} {db : Database}

theorem sublist (h : Valid s) (ht : t.Sublist s) : Valid t :=
  ⟨h.openFirst.sublist ht, h.distinct.sublist ht, fun db hdb => h.sound db (ht.subset hdb)⟩

theorem rest (h : Valid (db :: s)) : Valid s := h.sublist (List.sublist_cons_self db s)

theorem cons (h : Valid s) (hsound : Sound db) (hopen : db.isOpen)
    (hkey : ∀ b ∈ s, b.isOpen → key b ≠ key db) : Valid (db :: s) where
  openFirst := List.pairwise_cons.mpr ⟨fun _ _ _ => hopen, h.openFirst⟩
  distinct := List.pairwise_cons.mpr ⟨fun b hb _ hbopen heq => hkey b hb hbopen heq.symm, h.distinct⟩
  sound := List.forall_mem_cons.mpr ⟨hsound, h.sound⟩

theorem others {front back : List Database} (h : Valid (front ++ db :: back)) (hopen : db.isOpen) :
    Valid (front ++ back) ∧ ∀ b ∈ front ++ back, b.isOpen → key b ≠ key db := by
  refine ⟨h.sublist ((List.sublist_cons_self db back).append_left front), ?_⟩
  obtain ⟨_, hback, hfront⟩ := List.pairwise_append.mp h.distinct
  intro b hb hbopen
  rcases List.mem_append.mp hb with hb | hb
  · exact hfront b hb db List.mem_cons_self hbopen hopen
  · exact fun heq => (List.pairwise_cons.mp hback).1 b hb hopen hbopen heq.symm

theorem moveToTop {front back : List Database} (h : Valid (front ++ db :: back)) (hopen : db.isOpen) :
    Valid (moveToTop (front, db, back)) :=
  cons (h.others hopen).1 (h.sound db (List.mem_append_right front List.mem_cons_self)) hopen
    (h.others hopen).2

theorem replaceTop {db' : Database} (h : Valid (db :: s)) (hopen : db'.isOpen = db.isOpen)
    (hkey : key db' = key db) (hsound : Sound db') : Valid (db' :: s) where
  openFirst := by
    have h := h.openFirst
    rw [List.pairwise_cons, ← hopen] at h
    exact List.pairwise_cons.mpr h
  distinct := by
    have h := h.distinct
    rw [List.pairwise_cons, ← hopen, ← hkey] at h
    exact List.pairwise_cons.mpr h
  sound := List.forall_mem_cons.mpr ⟨hsound, fun b hb => h.sound b (List.mem_cons_of_mem db hb)⟩

end Valid

section Find

variable {s : List Database} {tree : Name} {shot : ℤ}

theorem findOpen_spec (h : Valid s) (tree : Name) (shot : ℤ) :
    (findOpen tree shot s = .ok none ∧ ∀ db ∈ s, db.isOpen → key db ≠ (some tree, shot)) ∨
      ∃ front db back, findOpen tree shot s = .ok (some (front, db, back)) ∧
        s = front ++ db :: back ∧ db.isOpen = true ∧ key db = (some tree, shot) := by
  induction s with
  | nil => exact .inl ⟨rfl, fun _ hdb => by cases hdb⟩
  | cons db rest ih =>
    cases hopen : db.isOpen with
    | false =>
      left
      rw [findOpen, hopen]
      refine ⟨rfl, fun b hb hbopen => ?_⟩
      rcases List.mem_cons.mp hb with rfl | hb
      · cases hopen.symm.trans hbopen
      · cases hopen.symm.trans ((List.pairwise_cons.mp h.openFirst).1 b hb hbopen)
    | true =>
      by_cases hkey : key db = (some tree, shot)
      · right
        obtain ⟨hname, hshot⟩ := Prod.mk.inj hkey
        refine ⟨[], db, rest, ?_, rfl, hopen, hkey⟩
        rw [findOpen, if_pos hopen, if_pos hshot, hname]
        exact if_pos rfl
      · have hnext : findOpen tree shot (db :: rest) =
            (findOpen tree shot rest).map fun found => found.map fun p => (db :: p.1, p.2) := by
          obtain ⟨name, hname⟩ := Option.ne_none_iff_exists'.mp
            ((h.sound db List.mem_cons_self).named hopen)
          rw [findOpen, if_pos hopen, hname]
          by_cases hshot : db.shotid = shot
          · have hne : name ≠ tree := by
              rintro rfl
              exact hkey (Prod.ext hname hshot)
            rw [if_pos hshot]
            simp only [if_neg hne]
            cases findOpen tree shot rest <;> rfl
          · rw [if_neg hshot]
            cases findOpen tree shot rest <;> rfl
        rcases ih h.rest with ⟨hfind, hall⟩ | ⟨front, b, back, hfind, rfl, hbopen, hbkey⟩
        · left
          rw [hnext, hfind]
          exact ⟨rfl, List.forall_mem_cons.mpr ⟨fun _ => hkey, hall⟩⟩
        · right
          rw [hnext, hfind]
          exact ⟨db :: front, b, back, rfl, rfl, hbopen, hbkey⟩

theorem findClosed_some {p : List Database × Database × List Database} (h : findClosed s = some p) :
    s = p.1 ++ p.2.1 :: p.2.2 ∧ p.2.1.isOpen = false := by
  induction s generalizing p with
  | nil => cases h
  | cons db rest ih =>
    rw [findClosed] at h
    cases hopen : db.isOpen with
    | false =>
      rw [hopen] at h
      cases h
      exact ⟨rfl, hopen⟩
    | true =>
      rw [if_pos hopen] at h
      obtain ⟨q, hq, rfl⟩ := Option.map_eq_some_iff.mp h
      obtain ⟨hrest, hclosed⟩ := ih hq
      exact ⟨congrArg (db :: ·) hrest, hclosed⟩

theorem findUseable_some {p : List Database × Database × List Database}
    (h : findUseable s = some p) :
    s = p.1 ++ p.2.1 :: p.2.2 ∧ (p.2.1.openForEdit && p.2.1.modified) = false := by
  induction s generalizing p with
  | nil => cases h
  | cons db rest ih =>
    rw [findUseable] at h
    cases hrest : findUseable rest with
    | some q =>
      rw [hrest] at h
      cases h
      obtain ⟨hq, hclean⟩ := ih hrest
      exact ⟨congrArg (db :: ·) hq, hclean⟩
    | none =>
      rw [hrest] at h
      cases hdirty : db.openForEdit && db.modified with
      | true =>
        simp only [hdirty, if_true, reduceCtorEq] at h
      | false =>
        simp only [hdirty, Bool.false_eq_true, if_false, Option.some.injEq] at h
        subst h
        exact ⟨rfl, hdirty⟩

end Find

section Create

variable {w : World} {s : List Database} {tree : Name} {shot : ℤ} {editting : Bool}

/-- No entry is closed and there may be no more of them: the entry of another tree is taken. -/
def TakesOver (s : List Database) (tree : Name) (shot : ℤ) : Prop :=
  findOpen tree shot s = .ok none ∧ findClosed s = none ∧ topStackSize s ≤ s.length ∧
    findUseable s ≠ none

structure Fresh (top : Database) (tree : Name) (shot : ℤ) : Prop where
  key_eq : key top = (some tree, shot)
  not_edit : top.openForEdit = false
  not_modified : top.modified = false

structure Placed (s : List Database) (tree : Name) (shot : ℤ) (top : Database)
    (rest : List Database) : Prop where
  top : Fresh top tree shot
  sublist : rest.Sublist s
  others : ∀ b ∈ rest, b.isOpen → key b ≠ (some tree, shot)
  modified : ∀ b ∈ s, dirty b → b ∈ rest
  kept : ¬ TakesOver s tree shot → ∀ b ∈ s, b.isOpen → key b ≠ (some tree, shot) → b ∈ rest

inductive Created (s : List Database) (tree : Name) (shot : ℤ) (editting : Bool) :
    List Database × ℤ → Prop
  | refused (status : ℤ) (hstatus : status = TreeWRITEFIRST ∨ status = TreeMAXOPENEDIT) :
      Created s tree shot editting (s, status)
  | alreadyOpen (front back : List Database) (db : Database) (hs : s = front ++ db :: back)
      (hopen : db.isOpen = true) (hkey : key db = (some tree, shot))
      (hedit : db.openForEdit = editting) :
      Created s tree shot editting (moveToTop (front, db, back), TreeALREADY_OPEN)
  | slot (top : Database) (rest : List Database) (hplaced : Placed s tree shot top rest)
      (hremote : top.remote = false) : Created s tree shot editting (top :: rest, TreeSUCCESS)

theorem not_modified_of_not_edit {db : Database} (h : Sound db) (hedit : db.openForEdit = false) :
    db.modified = false := by
  cases hmodified : db.modified with
  | false => rfl
  | true => cases hedit.symm.trans (h.modified hmodified)

theorem fresh_closed {db : Database} (h : Sound db) (stackSize : ℤ) :
    Fresh (setTop tree shot stackSize (closeTopTree w db).1) tree shot := by
  unfold closeTopTree
  cases hremote : db.remote with
  | false => exact ⟨rfl, rfl, rfl⟩
  | true =>
    have hmodified := not_modified_of_not_edit h (h.remote hremote)
    exact ⟨rfl, h.remote hremote, hmodified⟩

theorem closeTopTree_remote (w : World) (db : Database) : (closeTopTree w db).1.remote = false := by
  unfold closeTopTree
  cases db.remote <;> rfl

theorem fresh_unused {db : Database} (h : Sound db) (hclosed : db.isOpen = false) (stackSize : ℤ) :
    Fresh (setTop tree shot stackSize db) tree shot := by
  have hmodified := not_modified_of_not_edit h (h.closed hclosed).1
  exact ⟨rfl, (h.closed hclosed).1, hmodified⟩

theorem mem_others {front back : List Database} {db b : Database}
    (hb : b ∈ front ++ db :: back) (hne : b ≠ db) : b ∈ front ++ back := by
  rcases List.mem_append.mp hb with hb | hb
  · exact List.mem_append_left back hb
  · exact List.mem_append_right front (List.mem_of_ne_of_mem hne hb)

theorem sublist_others (front back : List Database) (db : Database) :
    (front ++ back).Sublist (front ++ db :: back) :=
  (List.sublist_cons_self db back).append_left front

theorem dirty_iff {db : Database} :
    dirty db = true ↔ db.isOpen = true ∧ (db.openForEdit && db.modified) = true := by
  unfold dirty
  rw [Bool.and_assoc, Bool.and_eq_true]

theorem created_close (h : Valid s) {front back : List Database} {db : Database}
    (hs : s = front ++ db :: back) (hopen : db.isOpen = true) (hkey : key db = (some tree, shot))
    (hclean : (db.openForEdit && db.modified) = false) :
    Created s tree shot editting
      (closeAtTop w tree shot (topStackSize s) (front, db, back), TreeSUCCESS) := by
  have hsound : Sound db := h.sound db (by rw [hs]; exact List.mem_append_right front List.mem_cons_self)
  have hne {b : Database} (hb : (b.openForEdit && b.modified) = true ∨ key b ≠ (some tree, shot)) :
      b ≠ db := by
    rintro rfl
    rcases hb with hb | hb
    · cases hclean.symm.trans hb
    · exact hb hkey
  refine .slot _ _ ⟨fresh_closed hsound _, hs ▸ sublist_others front back db, ?_, ?_, ?_⟩
    (closeTopTree_remote w db)
  · rw [hs] at h
    rw [← hkey]
    exact (h.others hopen).2
  · intro b hb hdirty
    rw [hs] at hb
    exact mem_others hb (hne (.inl (dirty_iff.mp hdirty).2))
  · intro _ b hb _ hbkey
    rw [hs] at hb
    exact mem_others hb (hne (.inr hbkey))

theorem newSlot_created (h : Valid s) (hfind : findOpen tree shot s = .ok none)
    (hnone : ∀ db ∈ s, db.isOpen → key db ≠ (some tree, shot)) :
    Created s tree shot editting (newSlot w s tree shot) := by
  unfold newSlot
  cases hclosed : findClosed s with
  | some p =>
    obtain ⟨hs, hopen⟩ := findClosed_some hclosed
    have hsound : Sound p.2.1 :=
      h.sound _ (by rw [hs]; exact List.mem_append_right p.1 List.mem_cons_self)
    have hmem {b : Database} (hb : b ∈ s) (hbopen : b.isOpen = true) : b ∈ p.1 ++ p.2.2 := by
      rw [hs] at hb
      refine mem_others hb ?_
      rintro rfl
      cases hopen.symm.trans hbopen
    have hsub : (p.1 ++ p.2.2).Sublist s := by
      rw [hs]
      exact sublist_others p.1 p.2.2 p.2.1
    refine .slot _ _ ⟨fresh_unused hsound hopen _, hsub, fun b hb => hnone b (hsub.subset hb), ?_, ?_⟩
      (hsound.closed hopen).2
    · exact fun b hb hdirty => hmem hb (dirty_iff.mp hdirty).1
    · exact fun _ b hb hbopen _ => hmem hb hbopen
  | none =>
    by_cases hfull : topStackSize s ≤ s.length
    · simp only [if_pos hfull]
      cases huseable : findUseable s with
      | none => exact .refused _ (.inr rfl)
      | some p =>
        obtain ⟨hs, hclean⟩ := findUseable_some huseable
        have hsound : Sound p.2.1 :=
          h.sound _ (by rw [hs]; exact List.mem_append_right p.1 List.mem_cons_self)
        have hsub : (p.1 ++ p.2.2).Sublist s := by
          rw [hs]
          exact sublist_others p.1 p.2.2 p.2.1
        refine .slot _ _ ⟨fresh_closed hsound _, hsub, fun b hb => hnone b (hsub.subset hb),
          fun b hb hdirty => ?_, fun htakes => absurd ⟨hfind, hclosed, hfull, ?_⟩ htakes⟩
          (closeTopTree_remote w p.2.1)
        · rw [hs] at hb
          refine mem_others hb ?_
          rintro rfl
          cases hclean.symm.trans (dirty_iff.mp hdirty).2
        · rw [huseable]
          exact Option.some_ne_none p
    · simp only [if_neg hfull]
      exact .slot _ _ ⟨⟨rfl, rfl, rfl⟩, List.Sublist.refl s, hnone, fun b hb _ => hb,
        fun _ b hb _ _ => hb⟩ rfl

theorem createDbSlot_spec (h : Valid s) (w : World) (tree : Name) (shot : ℤ) (editting : Bool) :
    ∃ r, createDbSlot w s tree shot editting = .ok r ∧ Created s tree shot editting r := by
  unfold createDbSlot
  rcases findOpen_spec h tree shot with ⟨hfind, hnone⟩ | ⟨front, db, back, hfind, hs, hopen, hkey⟩
  · rw [hfind]
    exact ⟨_, rfl, newSlot_created h hfind hnone⟩
  rw [hfind]
  have hclose (hclean : (db.openForEdit && db.modified) = false) :
      Created s tree shot editting
        (closeAtTop w tree shot (topStackSize s) (front, db, back), TreeSUCCESS) :=
    created_close h hs hopen hkey hclean
  cases editting with
  | true =>
    cases hedit : db.openForEdit with
    | true =>
      simp only [bind, Except.bind, hedit, if_true]
      exact ⟨_, rfl, .alreadyOpen front back db hs hopen hkey hedit⟩
    | false =>
      simp only [bind, Except.bind, hedit, if_true, Bool.false_eq_true, if_false]
      exact ⟨_, rfl, hclose (by rw [hedit]; rfl)⟩
  | false =>
    cases hedit : db.openForEdit with
    | true =>
      cases hmodified : db.modified with
      | true =>
        simp only [bind, Except.bind, hedit, hmodified, Bool.false_eq_true, if_false, if_true]
        exact ⟨_, rfl, .refused _ (.inl rfl)⟩
      | false =>
        simp only [bind, Except.bind, hedit, hmodified, Bool.false_eq_true, if_false, if_true]
        exact ⟨_, rfl, hclose (by rw [hmodified, Bool.and_false])⟩
    | false =>
      simp only [bind, Except.bind, hedit, Bool.false_eq_true, if_false]
      exact ⟨_, rfl, .alreadyOpen front back db hs hopen hkey hedit⟩

theorem Created.placed (h : Valid s) {r : List Database × ℤ} (hr : Created s tree shot false r)
    (hstatus : r.2 = TreeSUCCESS ∨ r.2 = TreeALREADY_OPEN) :
    ∃ top rest, r.1 = top :: rest ∧ Placed s tree shot top rest ∧
      (top.isOpen = false → top.remote = false) := by
  cases hr with
  | refused status hrefused =>
    have hne : ¬ (status = TreeSUCCESS ∨ status = TreeALREADY_OPEN) := by
      rcases hrefused with rfl | rfl <;> decide
    exact absurd hstatus hne
  | alreadyOpen front back db hs hopen hkey hedit =>
    subst hs
    have hsound := h.sound db (List.mem_append_right front List.mem_cons_self)
    have hothers := (h.others hopen).2
    rw [hkey] at hothers
    refine ⟨db, front ++ back, rfl, ⟨⟨hkey, hedit, not_modified_of_not_edit hsound hedit⟩,
      sublist_others front back db, hothers, fun b hb hdirty => mem_others hb ?_,
      fun _ b hb _ hbkey => mem_others hb ?_⟩, fun h => by cases hopen.symm.trans h⟩
    · rintro rfl
      have hdirty := (dirty_iff.mp hdirty).2
      rw [hedit, Bool.false_and] at hdirty
      cases hdirty
    · rintro rfl
      exact hbkey hkey
  | slot top rest hplaced hremote => exact ⟨top, rest, rfl, hplaced, fun _ => hremote⟩

end Create

section Calls

variable {w : World} {s : List Database} {tree : Name} {shot : ℤ}

/-- What is open for edit with modifications stays so and is not written. -/
def KeepsDirty (s : List Database) (r : Result) : Prop :=
  ∀ db ∈ s, dirty db → key db ∉ r.written ∧
    ∃ db' ∈ r.dblist, { db' with stackSize := db.stackSize } = db

/-- After an error the other trees are open as before. -/
def KeepsOthers (target : Option Name × ℤ) (s : List Database) (r : Result) : Prop :=
  isOk r.status = false → ∀ db, db.isOpen → key db ≠ target → (db ∈ s ↔ db ∈ r.dblist)

theorem keepsDirty_of_mem {r : Result} (hwritten : r.written = [])
    (h : ∀ db ∈ s, dirty db → db ∈ r.dblist) : KeepsDirty s r := by
  intro db hdb hdirty
  rw [hwritten]
  exact ⟨List.not_mem_nil, db, h db hdb hdirty, rfl⟩

theorem valid_single {db : Database} (h : Sound db) : Valid [db] :=
  ⟨List.pairwise_singleton _ _, List.pairwise_singleton _ _, List.forall_mem_singleton.mpr h⟩

theorem freeTopDb_cons (db : Database) (rest : List Database) :
    freeTopDb (db :: rest) = if rest = [] then [db] else rest := by
  cases rest <;> rfl

theorem mem_freeTopDb {db b : Database} {rest : List Database} (hne : b ≠ db) :
    b ∈ freeTopDb (db :: rest) ↔ b ∈ rest := by
  rw [freeTopDb_cons]
  by_cases hrest : rest = []
  · rw [if_pos hrest, hrest, List.mem_singleton]
    exact iff_of_false hne List.not_mem_nil
  · rw [if_neg hrest]

theorem Placed.free (h : Valid s) {top top' : Database} {rest : List Database}
    (hplaced : Placed s tree shot top rest) (htop : Fresh top' tree shot)
    (htakes : ¬ TakesOver s tree shot) (hremote : top'.isOpen = false → top'.remote = false)
    (status : ℤ) :
    Valid (freeTopDb (top' :: rest)) ∧ KeepsDirty s ⟨freeTopDb (top' :: rest), status, []⟩ ∧
      KeepsOthers (some tree, shot) s ⟨freeTopDb (top' :: rest), status, []⟩ := by
  have hsound : Sound top' := by
    refine ⟨fun _ hname => ?_, fun hclosed => ⟨htop.not_edit, hremote hclosed⟩,
      fun _ => htop.not_edit, fun hmodified => ?_⟩
    · cases hname.symm.trans (Prod.mk.inj htop.key_eq).1
    · cases htop.not_modified.symm.trans hmodified
  have hne {b : Database} (hb : dirty b = true ∨ key b ≠ (some tree, shot)) : b ≠ top' := by
    rintro rfl
    rcases hb with hb | hb
    · have hb := (dirty_iff.mp hb).2
      rw [htop.not_edit, Bool.false_and] at hb
      cases hb
    · exact hb htop.key_eq
  refine ⟨?_, keepsDirty_of_mem rfl fun b hb hdirty => ?_, fun _ b hopen hkey => ?_⟩
  · rw [freeTopDb_cons]
    by_cases hrest : rest = []
    · rw [if_pos hrest]
      exact valid_single hsound
    · rw [if_neg hrest]
      exact h.sublist hplaced.sublist
  · exact (mem_freeTopDb (hne (.inl hdirty))).mpr (hplaced.modified b hb hdirty)
  · rw [mem_freeTopDb (hne (.inr hkey))]
    exact ⟨fun hb => hplaced.kept htakes b hb hopen hkey, fun hb => hplaced.sublist.subset hb⟩

theorem Placed.opened (h : Valid s) {top : Database} {rest : List Database}
    (hplaced : Placed s tree shot top rest) (top' : Database) (hkey : key top' = (some tree, shot))
    (hopen : top'.isOpen = true) (hmodified : top'.modified = false)
    (hremote : top'.remote = true → top'.openForEdit = false) (status : ℤ) :
    Valid (top' :: rest) ∧ KeepsDirty s ⟨top' :: rest, status, []⟩ := by
  have hsound : Sound top' := by
    refine ⟨fun _ hname => ?_, fun hclosed => ?_, hremote, fun h => ?_⟩
    · cases hname.symm.trans (Prod.mk.inj hkey).1
    · cases hopen.symm.trans hclosed
    · cases hmodified.symm.trans h
  have hothers := hplaced.others
  rw [← hkey] at hothers
  exact ⟨(h.sublist hplaced.sublist).cons hsound hopen hothers,
    keepsDirty_of_mem rfl fun b hb hdirty => List.mem_cons_of_mem _ (hplaced.modified b hb hdirty)⟩

def Opens (w : World) (path : Name) : Prop :=
  w.mapTree = none ∨ (w.mapTree.map Subtype.val = some TreeUNSUPTHICKOP ∧ 2 < path.length ∧
    path.drop (path.length - 2) = "::".toList ∧ w.connectRemote = none)

theorem connect_spec (w : World) (tree path : Name) (db : Database) :
    (isOk (connect w tree path db).2 = false ∧ (connect w tree path db).1 = db ∧ ¬ Opens w path) ∨
      (((connect w tree path db).2 = TreeSUCCESS ∨ (connect w tree path db).2 = TreeNOTALLSUBS) ∧
        key (connect w tree path db).1 = key db ∧
        (connect w tree path db).1.openForEdit = db.openForEdit ∧
        (connect w tree path db).1.modified = db.modified) := by
  have hstatus : (if w.allSubtrees then TreeSUCCESS else TreeNOTALLSUBS) = TreeSUCCESS ∨
      (if w.allSubtrees then TreeSUCCESS else TreeNOTALLSUBS) = TreeNOTALLSUBS := by
    cases w.allSubtrees
    · exact .inr rfl
    · exact .inl rfl
  have hne : (if w.allSubtrees then TreeSUCCESS else TreeNOTALLSUBS) ≠ TreeUNSUPTHICKOP := by
    cases w.allSubtrees <;> decide
  unfold connect connectTree
  by_cases hmem : tree ∈ db.trees
  · simp only [if_pos hmem]
    rw [if_neg fun h => hne h.1]
    exact .inr ⟨hstatus, rfl, rfl, rfl⟩
  simp only [if_neg hmem]
  cases hmap : w.mapTree with
  | none =>
    simp only
    rw [if_neg fun h => hne h.1]
    exact .inr ⟨hstatus, rfl, rfl, rfl⟩
  | some failure =>
    simp only
    split
    · rename_i hremote
      unfold connectTreeRemote
      cases hconnect : w.connectRemote with
      | none => exact .inr ⟨.inl rfl, rfl, rfl, rfl⟩
      | some failure' =>
        refine .inl ⟨failure'.2, rfl, ?_⟩
        rintro (h | ⟨-, -, -, h⟩)
        · cases hmap.symm.trans h
        · cases hconnect.symm.trans h
    · rename_i hremote
      refine .inl ⟨failure.2, rfl, ?_⟩
      rintro (h | ⟨hthick, hlength, hend, -⟩)
      · cases hmap.symm.trans h
      · rw [hmap] at hthick
        exact hremote ⟨Option.some.inj hthick, hlength, hend⟩

theorem openTop_spec (h : Valid s) {r : List Database × ℤ} (hr : Created s tree shot false r)
    (hstatus : r.2 = TreeSUCCESS ∨ r.2 = TreeALREADY_OPEN) (path : Name) (readOnly : Bool)
    (hopens : TakesOver s tree shot → Opens w path) :
    ∃ q, openTop w tree path readOnly r.1 = .ok q ∧ Valid q.dblist ∧ KeepsDirty s q ∧
      KeepsOthers (some tree, shot) s q := by
  obtain ⟨top, rest, htop, hplaced, hremote⟩ := hr.placed h hstatus
  rw [htop, openTop]
  rcases connect_spec w tree path top with ⟨hfail, hsame, hclosed⟩ | ⟨hok, hkey, hedit, hmodified⟩
  · have hne : ¬ ((connect w tree path top).2 = TreeSUCCESS ∨
        (connect w tree path top).2 = TreeNOTALLSUBS) := by
      rintro (heq | heq)
      · rw [heq] at hfail
        exact absurd hfail (by decide)
      · rw [heq] at hfail
        exact absurd hfail (by decide)
    simp only [if_neg hne]
    refine ⟨_, rfl, ?_⟩
    rw [hsame]
    exact hplaced.free h hplaced.top (fun htakes => hclosed (hopens htakes)) hremote _
  · simp only [if_pos hok]
    refine ⟨_, rfl, ?_⟩
    obtain ⟨hvalid, hdirty⟩ := hplaced.opened h
      { (connect w tree path top).1 with isOpen := true, openReadonly := readOnly }
      (hkey.trans hplaced.top.key_eq) rfl (hmodified.trans hplaced.top.not_modified)
      (fun _ => hedit.trans hplaced.top.not_edit) (connect w tree path top).2
    refine ⟨hvalid, hdirty, fun herror => ?_⟩
    have hisOk : isOk (connect w tree path top).2 = true := by
      rcases hok with hok | hok <;> rw [hok] <;> decide
    cases hisOk.symm.trans herror

theorem editTop_spec (h : Valid s) {top : Database} {rest : List Database}
    (hplaced : Placed s tree shot top rest) (hremote : top.remote = false)
    (hopens : TakesOver s tree shot → w.mapTree = none) :
    ∃ q, editTop w tree (top :: rest) = .ok q ∧ Valid q.dblist ∧ KeepsDirty s q ∧
      KeepsOthers (some tree, shot) s q ∧ q.written = [] ∧
      (isOk q.status = true → ∃ top' rest, q.dblist = top' :: rest ∧ top'.modified = false ∧
        key top' = (some tree, shot)) := by
  rw [editTop]
  cases hmap : w.mapTree with
  | some failure =>
    obtain ⟨hvalid, hdirty, hothers⟩ := hplaced.free h hplaced.top
      (fun htakes => by cases hmap.symm.trans (hopens htakes)) (fun _ => hremote) failure
    refine ⟨_, rfl, hvalid, hdirty, hothers, rfl, fun hok => ?_⟩
    cases failure.2.symm.trans hok
  | none =>
    obtain ⟨hvalid, hdirty⟩ := hplaced.opened h
      { top with trees := [tree], isOpen := true, openForEdit := true, openReadonly := false }
      hplaced.top.key_eq rfl hplaced.top.not_modified
      (fun h => by cases hremote.symm.trans h) TreeSUCCESS
    refine ⟨_, rfl, hvalid, hdirty, fun herror => ?_, rfl, fun _ =>
      ⟨_, rest, rfl, hplaced.top.not_modified, hplaced.top.key_eq⟩⟩
    exact absurd herror (show ¬ isOk TreeSUCCESS = false by decide)

def ValidShot (shot : ℤ) : Prop := ¬ shot < -1 ∧ shot ≠ 0

theorem keepsDirty_same (status : ℤ) : KeepsDirty s ⟨s, status, []⟩ :=
  keepsDirty_of_mem rfl fun _ hb _ => hb

theorem keepsOthers_same (target : Option Name × ℤ) (status : ℤ) :
    KeepsOthers target s ⟨s, status, []⟩ := fun _ _ _ _ => Iff.rfl

theorem treeOpen_spec (h : Valid s) (w : World) (tree : Name) (shot : ℤ) (readOnly : Bool)
    (hopens : ∀ path, ValidShot (shotOf w (mainTree w tree) shot) →
      w.treePath (mainTree w tree) = some path →
      TakesOver s (mainTree w tree) (shotOf w (mainTree w tree) shot) → Opens w path) :
    ∃ q, treeOpen w s tree shot readOnly = .ok q ∧ Valid q.dblist ∧ KeepsDirty s q ∧
      KeepsOthers (some (mainTree w tree), shotOf w (mainTree w tree) shot) s q := by
  unfold treeOpen
  by_cases hlow : shotOf w (mainTree w tree) shot < -1
  · simp only [if_pos hlow]
    exact ⟨_, rfl, h, keepsDirty_same _, keepsOthers_same _ _⟩
  by_cases hzero : shotOf w (mainTree w tree) shot = 0
  · simp only [if_neg hlow, if_pos hzero]
    exact ⟨_, rfl, h, keepsDirty_same _, keepsOthers_same _ _⟩
  simp only [if_neg hlow, if_neg hzero]
  cases hpath : w.treePath (mainTree w tree) with
  | none => exact ⟨_, rfl, h, keepsDirty_same _, keepsOthers_same _ _⟩
  | some path =>
    obtain ⟨r, hcreate, hr⟩ := createDbSlot_spec h w (mainTree w tree)
      (shotOf w (mainTree w tree) shot) false
    simp only [hcreate, bind, Except.bind]
    by_cases hstatus : r.2 = TreeSUCCESS ∨ r.2 = TreeALREADY_OPEN
    · rw [if_pos hstatus]
      exact openTop_spec h hr hstatus path readOnly (hopens path ⟨hlow, hzero⟩ hpath)
    · rw [if_neg hstatus]
      cases hr with
      | refused status hrefused => exact ⟨_, rfl, h, keepsDirty_same _, keepsOthers_same _ _⟩
      | alreadyOpen front back db => exact absurd (.inr rfl) hstatus
      | slot top rest => exact absurd (.inl rfl) hstatus

theorem mem_moveToTop {front back : List Database} {db b : Database} :
    b ∈ moveToTop (front, db, back) ↔ b ∈ front ++ db :: back := by
  unfold moveToTop
  simp only [List.mem_cons, List.mem_append]
  tauto

theorem openEditSlot_spec (h : Valid s) (w : World) (tree : Name) (shot : ℤ)
    (hopens : ValidShot (shotOf w (removeBlanksAndUpcase tree) shot) →
      TakesOver s (removeBlanksAndUpcase tree) (shotOf w (removeBlanksAndUpcase tree) shot) →
      w.mapTree = none) :
    ∃ q, openEditSlot w s tree shot = .ok q ∧ Valid q.dblist ∧ KeepsDirty s q ∧
      KeepsOthers (some (removeBlanksAndUpcase tree), shotOf w (removeBlanksAndUpcase tree) shot) s q ∧
      q.written = [] ∧ (isOk q.status = true → ∃ top rest, q.dblist = top :: rest ∧
        key top = (some (removeBlanksAndUpcase tree),
          shotOf w (removeBlanksAndUpcase tree) shot)) := by
  unfold openEditSlot
  by_cases hlow : shotOf w (removeBlanksAndUpcase tree) shot < -1
  · simp only [if_pos hlow]
    exact ⟨_, rfl, h, keepsDirty_same _, keepsOthers_same _ _, rfl,
      fun hok => absurd hok (show ¬ isOk TreeINVSHOT = true by decide)⟩
  by_cases hzero : shotOf w (removeBlanksAndUpcase tree) shot = 0
  · simp only [if_neg hlow, if_pos hzero]
    exact ⟨_, rfl, h, keepsDirty_same _, keepsOthers_same _ _, rfl,
      fun hok => absurd hok (show ¬ isOk TreeNOCURRENT = true by decide)⟩
  simp only [if_neg hlow, if_neg hzero]
  obtain ⟨r, hcreate, hr⟩ := createDbSlot_spec h w (removeBlanksAndUpcase tree)
    (shotOf w (removeBlanksAndUpcase tree) shot) true
  simp only [hcreate, bind, Except.bind]
  cases hr with
  | refused status hrefused =>
    have hne : status ≠ TreeSUCCESS ∧ ¬ isOk status = true := by
      rcases hrefused with rfl | rfl <;> decide
    rw [if_neg hne.1]
    exact ⟨_, rfl, h, keepsDirty_same _, keepsOthers_same _ _, rfl, fun hok => absurd hok hne.2⟩
  | alreadyOpen front back db hs hopen hkey hedit =>
    rw [if_neg (show TreeALREADY_OPEN ≠ TreeSUCCESS by decide)]
    subst hs
    refine ⟨_, rfl, h.moveToTop hopen, keepsDirty_of_mem rfl fun b hb _ => mem_moveToTop.mpr hb,
      fun herror => absurd herror (show ¬ isOk TreeALREADY_OPEN = false by decide), rfl,
      fun _ => ⟨db, front ++ back, rfl, hkey⟩⟩
  | slot top rest hplaced hremote =>
    rw [if_pos rfl]
    obtain ⟨q, hq, hvalid, hdirty, hothers, hwritten, htop⟩ :=
      editTop_spec h hplaced hremote (hopens ⟨hlow, hzero⟩)
    refine ⟨q, hq, hvalid, hdirty, hothers, hwritten, fun hok => ?_⟩
    obtain ⟨top', rest', hlist, -, hkey⟩ := htop hok
    exact ⟨top', rest', hlist, hkey⟩

theorem treeWriteTree_spec (w : World) {top : Database} {rest : List Database}
    (h : Valid (top :: rest)) :
    ∃ top', (treeWriteTree w (top :: rest)).1 = top' :: rest ∧ Valid (top' :: rest) ∧
      ∀ k ∈ (treeWriteTree w (top :: rest)).2, k = key top := by
  have hsound := h.sound top List.mem_cons_self
  rw [treeWriteTree]
  by_cases hedit : top.isOpen && top.openForEdit
  · rw [if_pos hedit]
    refine ⟨afterWriting w top, rfl, ?_, fun k hk => List.mem_singleton.mp hk⟩
    have hclean : Valid ({ top with modified := false } :: rest) :=
      h.replaceTop rfl rfl ⟨hsound.named, hsound.closed, hsound.remote, fun h => by cases h⟩
    unfold afterWriting
    cases w.writing with
    | failed => exact h
    | done => exact hclean
    | notCreated => exact hclean
  · rw [if_neg hedit]
    exact ⟨top, rfl, h, fun _ hk => by cases hk⟩

theorem treeOpenNew_spec (h : Valid s) (w : World) (tree : Name) (shot : ℤ)
    (hopens : ValidShot (shotOf w (removeBlanksAndUpcase tree) shot) →
      TakesOver s (removeBlanksAndUpcase tree) (shotOf w (removeBlanksAndUpcase tree) shot) →
      w.mapTree = none)
    (hclean : ∀ db ∈ s, dirty db → key db ≠
      (some (removeBlanksAndUpcase tree), shotOf w (removeBlanksAndUpcase tree) shot)) :
    ∃ q, treeOpenNew w s tree shot = .ok q ∧ Valid q.dblist ∧ KeepsDirty s q ∧
      KeepsOthers (some (removeBlanksAndUpcase tree), shotOf w (removeBlanksAndUpcase tree) shot) s
        q := by
  obtain ⟨q, hq, hvalid, hdirty, hothers, hwritten, htop⟩ := openEditSlot_spec h w tree shot hopens
  unfold treeOpenNew
  simp only [hq, bind, Except.bind]
  cases hok : isOk q.status with
  | false => exact ⟨q, rfl, hvalid, hdirty, hothers⟩
  | true =>
    obtain ⟨top, rest, hlist, hkey⟩ := htop hok
    rw [hlist] at hvalid
    obtain ⟨top', hlist', hvalid', hwrites⟩ := treeWriteTree_spec w hvalid
    rw [hlist]
    refine ⟨_, rfl, ?_, fun db hdb hdbdirty => ?_, fun herror => ?_⟩
    · change Valid (treeWriteTree w (top :: rest)).1
      rw [hlist']
      exact hvalid'
    · have hne := hclean db hdb hdbdirty
      refine ⟨fun hmem => hne ((hwrites _ hmem).trans hkey), ?_⟩
      obtain ⟨-, db', hdb', heq⟩ := hdirty db hdb hdbdirty
      change ∃ db' ∈ (treeWriteTree w (top :: rest)).1, _
      rw [hlist']
      rw [hlist] at hdb'
      rcases List.mem_cons.mp hdb' with rfl | hdb'
      · rw [← heq] at hne
        exact absurd hkey hne
      · exact ⟨db', List.mem_cons_of_mem top' hdb', heq⟩
    · cases hok.symm.trans herror

/-- A tree that is to be closed is at the top already if it may not be. A remote one is
given up whatever the answer, and its entry has to be freed. -/
def ClosesWell (w : World) (front : List Database) (db : Database) (back : List Database) : Prop :=
  (db.modified → front = []) ∧
    (db.modified = false → db.remote → isOk (closeTreeRemote w db).2 ∧ front ++ back ≠ [])

theorem closeTop_spec (w : World) {front back : List Database} {db : Database}
    (h : Valid (front ++ db :: back)) (hopen : db.isOpen = true) (hwell : ClosesWell w front db back) :
    Valid (closeTop w (moveToTop (front, db, back))).dblist ∧
      KeepsDirty (front ++ db :: back) (closeTop w (moveToTop (front, db, back))) ∧
      (isOk (closeTop w (moveToTop (front, db, back))).status = false →
        (closeTop w (moveToTop (front, db, back))).dblist = front ++ db :: back) := by
  have hsound := h.sound db (List.mem_append_right front List.mem_cons_self)
  rw [show moveToTop (front, db, back) = db :: (front ++ back) from rfl, closeTop]
  by_cases hmodified : db.modified
  · rw [if_pos hmodified]
    obtain rfl := hwell.1 hmodified
    exact ⟨h, keepsDirty_same _, fun _ => rfl⟩
  rw [if_neg hmodified, if_pos hopen]
  have hkept {b : Database} (hb : b ∈ front ++ db :: back) (hdirty : dirty b) : b ∈ front ++ back := by
    refine mem_others hb ?_
    rintro rfl
    have hdirty := (dirty_iff.mp hdirty).2
    simp only [hmodified, Bool.and_false, Bool.false_eq_true] at hdirty
  have hvalid := (h.others hopen).1
  have hmodified := Bool.eq_false_iff.mpr hmodified
  unfold closeTopTree
  by_cases hremote : db.remote
  · obtain ⟨hok, hrest⟩ := hwell.2 hmodified hremote
    rw [if_pos hremote]
    simp only [if_pos hok]
    rw [freeTopDb_cons, if_neg hrest]
    exact ⟨hvalid, keepsDirty_of_mem rfl fun b hb hdirty => hkept hb hdirty,
      fun herror => by cases hok.symm.trans herror⟩
  · rw [if_neg hremote]
    simp only [if_pos (show isOk TreeSUCCESS = true by decide)]
    refine ⟨?_, keepsDirty_of_mem rfl fun b hb hdirty => ?_,
      fun herror => absurd herror (show ¬ isOk TreeSUCCESS = false by decide)⟩
    · rw [freeTopDb_cons]
      split
      · refine valid_single ⟨fun h => ?_, fun _ => ⟨rfl, rfl⟩, fun _ => rfl, fun h => ?_⟩
        · cases h
        · cases h
      · exact hvalid
    · refine (mem_freeTopDb ?_).mpr (hkept hb hdirty)
      rintro rfl
      cases hdirty

theorem setStackSize_valid (h : Valid s) (size : ℤ) :
    Valid (s.map fun db => { db with stackSize := size }) where
  openFirst := List.pairwise_map.mpr h.openFirst
  distinct := List.pairwise_map.mpr h.distinct
  sound := by
    intro db hdb
    obtain ⟨b, hb, rfl⟩ := List.mem_map.mp hdb
    obtain ⟨hnamed, hclosed, hremote, hmodified⟩ := h.sound b hb
    exact ⟨hnamed, hclosed, hremote, hmodified⟩

theorem edit_spec (h : Valid s) : Valid (edit s) ∧ KeepsDirty s ⟨edit s, TreeSUCCESS, []⟩ := by
  cases s with
  | nil => exact ⟨h, keepsDirty_same _⟩
  | cons db rest =>
    have hsound := h.sound db List.mem_cons_self
    rw [edit]
    by_cases hedit : db.isOpen && db.openForEdit
    · rw [if_pos hedit]
      obtain ⟨hopen, hedit⟩ := Bool.and_eq_true_iff.mp hedit
      refine ⟨h.replaceTop rfl rfl ⟨hsound.named, hsound.closed, hsound.remote, fun _ => hedit⟩,
        keepsDirty_of_mem rfl fun b hb hdirty => ?_⟩
      rcases List.mem_cons.mp hb with rfl | hb
      · obtain ⟨-, hdirty⟩ := dirty_iff.mp hdirty
        have hmodified := (Bool.and_eq_true_iff.mp hdirty).2
        exact List.mem_cons.mpr (.inl (by rw [← hmodified]))
      · exact List.mem_cons_of_mem _ hb
    · rw [if_neg hedit]
      exact ⟨h, keepsDirty_same _⟩

end Calls

section Run

def openTarget (w : World) (tree : Name) (shot : ℤ) : Name × ℤ :=
  (mainTree w tree, shotOf w (mainTree w tree) shot)

def editTarget (w : World) (tree : Name) (shot : ℤ) : Name × ℤ :=
  (removeBlanksAndUpcase tree, shotOf w (removeBlanksAndUpcase tree) shot)

def EditFine (s : List Database) (w : World) (tree : Name) (shot : ℤ) : Prop :=
  ValidShot (editTarget w tree shot).2 →
    TakesOver s (editTarget w tree shot).1 (editTarget w tree shot).2 → w.mapTree = none

/-- Calls that keep to what they should. -/
def Fine (s : List Database) : Op × World → Prop
  | (.open tree shot _, w) => ∀ path, ValidShot (openTarget w tree shot).2 →
      w.treePath (openTarget w tree shot).1 = some path →
      TakesOver s (openTarget w tree shot).1 (openTarget w tree shot).2 → Opens w path
  | (.openEdit tree shot, w) => EditFine s w tree shot
  | (.openNew tree shot, w) => EditFine s w tree shot ∧ ∀ db ∈ s, dirty db →
      key db ≠ (some (editTarget w tree shot).1, (editTarget w tree shot).2)
  | (.close none _, w) => ∀ db back, s = db :: back → db.isOpen → ClosesWell w [] db back
  | (.close (some tree) shot, w) => ∀ front db back,
      findOpen ((tree.take 12).map Char.toUpper) (shotOf w tree shot) s = .ok (some (front, db, back)) →
      ClosesWell w front db back
  | (.setStackSize _, _) => s ≠ []
  | (.edit, _) => True

def Keeps (s : List Database) (op : Op × World) (r : Result) : Prop :=
  KeepsDirty s r ∧
    match op with
    | (.open tree shot _, w) =>
        KeepsOthers (some (openTarget w tree shot).1, (openTarget w tree shot).2) s r
    | (.openEdit tree shot, w) | (.openNew tree shot, w) =>
        KeepsOthers (some (editTarget w tree shot).1, (editTarget w tree shot).2) s r
    | (.close _ _, _) => isOk r.status = false → r.dblist = s
    | (.setStackSize _, _) | (.edit, _) => True

theorem treeClose_spec {s : List Database} (h : Valid s) (w : World) (tree : Option Name) (shot : ℤ)
    (hfine : Fine s (.close tree shot, w)) :
    ∃ q, treeClose w s tree shot = .ok q ∧ Valid q.dblist ∧ KeepsDirty s q ∧
      (isOk q.status = false → q.dblist = s) := by
  unfold treeClose
  cases s with
  | nil => exact ⟨_, rfl, h, keepsDirty_same _, fun _ => rfl⟩
  | cons top rest =>
    cases tree with
    | none =>
      refine ⟨_, rfl, ?_⟩
      cases hopen : top.isOpen with
      | true =>
        have hlist : Valid ([] ++ top :: rest) := h
        exact closeTop_spec w hlist hopen (hfine top rest rfl hopen)
      | false =>
        have hsound := h.sound top List.mem_cons_self
        have hmodified := not_modified_of_not_edit hsound (hsound.closed hopen).1
        rw [closeTop, hmodified, hopen]
        exact ⟨h, keepsDirty_same _, fun _ => rfl⟩
    | some tree =>
      rcases findOpen_spec h ((tree.take 12).map Char.toUpper) (shotOf w tree shot) with
        ⟨hfind, -⟩ | ⟨front, db, back, hfind, hs, hopen, -⟩
      · simp only [hfind, bind, Except.bind]
        exact ⟨_, rfl, h, keepsDirty_same _, fun _ => rfl⟩
      · simp only [hfind, bind, Except.bind]
        refine ⟨_, rfl, ?_⟩
        have hwell := hfine front db back hfind
        rw [hs] at h ⊢
        exact closeTop_spec w h hopen hwell

theorem call_spec {s : List Database} (h : Valid s) (op : Op × World) (hfine : Fine s op) :
    ∃ r, call s op = .ok r ∧ Valid r.dblist ∧ Keeps s op r := by
  obtain ⟨op, w⟩ := op
  cases op with
  | «open» tree shot readOnly => exact treeOpen_spec h w tree shot readOnly hfine
  | openEdit tree shot =>
    obtain ⟨q, hq, hvalid, hdirty, hothers, -⟩ := openEditSlot_spec h w tree shot hfine
    exact ⟨q, hq, hvalid, hdirty, hothers⟩
  | openNew tree shot => exact treeOpenNew_spec h w tree shot hfine.1 hfine.2
  | close tree shot => exact treeClose_spec h w tree shot hfine
  | setStackSize size =>
    cases s with
    | nil => exact absurd rfl hfine
    | cons db rest =>
      refine ⟨_, rfl, setStackSize_valid h _, fun b hb _ => ⟨List.not_mem_nil, _,
        List.mem_map.mpr ⟨b, hb, rfl⟩, rfl⟩, trivial⟩
  | edit =>
    obtain ⟨hvalid, hdirty⟩ := edit_spec h
    exact ⟨_, rfl, hvalid, hdirty, trivial⟩

theorem valid_start {s : List Database} (h : s = [] ∨ s = [newDbid]) : Valid s := by
  rcases h with rfl | rfl
  · exact ⟨.nil, .nil, fun _ h => by cases h⟩
  · exact valid_single ⟨nofun, fun _ => ⟨rfl, rfl⟩, nofun, nofun⟩

def Made (s : List Database) (op : Op × World) : Prop :=
  ∃ r, call s op = .ok r ∧ Valid r.dblist ∧ Keeps s op r

/-- Whatever is called, in any order: if the calls are fine, the list stays valid and every
call keeps to what it should. -/
theorem calls_run {s : List Database} {ops : List (Op × World)} (h : Valid s)
    (hfine : Admissible step Fine s ops) :
    Admissible step Made s ops ∧ ∃ s', run step s ops = .ok s' ∧ Valid s' := by
  induction ops generalizing s with
  | nil => exact ⟨trivial, s, rfl, h⟩
  | cons op ops ih =>
    obtain ⟨hop, hrest⟩ := hfine
    obtain ⟨r, hr, hvalid, hkeeps⟩ := call_spec h op hop
    have hstep : step s op = .ok r.dblist := bind_eq_ok.mpr ⟨r, hr, rfl⟩
    obtain ⟨hmade, s', hrun, hvalid'⟩ := ih hvalid (hrest _ hstep)
    refine ⟨⟨⟨r, hr, hvalid, hkeeps⟩, fun s1 hs1 => ?_⟩, s', ?_, hvalid'⟩
    · obtain rfl := Except.ok.inj (hstep.symm.trans hs1)
      exact hmade
    · rw [run, hstep]
      exact hrun

/-- Files are found, and the shot number is one. -/
def found : World :=
  ⟨fun _ => 1, fun tree => some ('/' :: tree), none, [], true, none, TreeSUCCESS, .done⟩

def TreeFILE_NOT_FOUND : ℤ := treeStatus 4597 2

def notFound : World := { found with mapTree := some ⟨TreeFILE_NOT_FOUND, by decide⟩ }

/-- A new tree is edited, and is not closed before it is written. -/
theorem calls_run_edit :
    Admissible step Made [newDbid] [(.openNew ['t'] 1, found), (.edit, found), (.close none 0, found)] ∧
      ∃ s', run step [newDbid] [(.openNew ['t'] 1, found), (.edit, found), (.close none 0, found)] =
        .ok s' ∧ Valid s' := by
  refine calls_run (valid_start (.inr rfl)) ⟨⟨fun _ _ => rfl, fun db hdb hdirty => ?_⟩, fun s1 hs1 => ?_⟩
  · obtain rfl := List.mem_singleton.mp hdb
    cases hdirty
  cases hs1
  refine ⟨trivial, fun s2 hs2 => ?_⟩
  cases hs2
  refine ⟨fun db back hs _ => ⟨fun _ => rfl, fun _ hremote => ?_⟩, fun _ _ => trivial⟩
  obtain ⟨rfl, -⟩ := List.cons.inj hs
  cases hremote

/-- A new tree is created where one is open for edit: this is written. With the stack full a
tree is closed for another one, which is not found. A tree is named that may not be closed:
it is the current one then. -/
theorem calls_careless :
    (∃ s r, run step [newDbid] [(.openNew ['A'] 1, found), (.edit, found)] = .ok s ∧
      call s (.openNew ['A'] 1, found) = .ok r ∧ ¬ Keeps s (.openNew ['A'] 1, found) r) ∧
    (∃ s r, run step [newDbid] [(.setStackSize 1, found), (.open ['A'] 1 false, found)] = .ok s ∧
      call s (.open ['B'] 1 false, notFound) = .ok r ∧
        ¬ Keeps s (.open ['B'] 1 false, notFound) r) ∧
    ∃ s r, run step [newDbid] [(.openNew ['A'] 1, found), (.edit, found),
      (.open ['B'] 1 false, found)] = .ok s ∧
        call s (.close (some ['A']) 1, found) = .ok r ∧
          ¬ Keeps s (.close (some ['A']) 1, found) r := by
  refine ⟨⟨_, _, rfl, rfl, fun h => ?_⟩, ⟨_, _, rfl, rfl, fun h => ?_⟩, ⟨_, _, rfl, rfl, fun h => ?_⟩⟩
  · exact (h.1 _ List.mem_cons_self rfl).1 List.mem_cons_self
  · have hmem := (h.2 (by decide) _ rfl (by decide)).mp List.mem_cons_self
    revert hmem
    decide
  · have hsame := h.2 (by decide)
    revert hsame
    decide

end Run

end MdsPlus.DatabaseRuns
