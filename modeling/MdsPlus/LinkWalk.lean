import MdsPlus.TreeEdit
import MdsPlus.Codec

/-!
The walk along the links of node records. The lists of a tree are kept as links to the
first child, the first member and the next brother, each the distance to another record.
Following them comes to the nodes of the lists in order.
-/

namespace MdsPlus.LinkWalk

open BitMemory Codec NodeTree ParentState TreeEdit

structure Links where
  child : ℕ → Option ℕ
  member : ℕ → Option ℕ
  brother : ℕ → Option ℕ

def next (n : ℕ) (nodes : List ℕ) : Option ℕ := (nodes.dropWhile fun x => x ≠ n).tail.head?

def brotherOf (t : Tree) (n : ℕ) : Option ℕ :=
  match t.parent n with
  | none => none
  | some p => if n ∈ t.kids .child p then next n (t.kids .child p) else next n (t.kids .member p)

def linksOf (t : Tree) : Links where
  child n := (t.kids .child n).head?
  member n := (t.kids .member n).head?
  brother := brotherOf t

/-- A node and its brothers; `none` when the fuel runs out. -/
def walk (l : Links) (state : Bool) : ℕ → Option ℕ → (ℕ → Flags) → Option (ℕ → Flags)
  | _, none, nci => some nci
  | 0, some _, _ => none
  | fuel + 1, some n, nci => do
      let nci := setNodeParentState nci n state
      let nci ← if (nci n).state then some nci else do
        let nci ← walk l state fuel (l.child n) nci
        walk l state fuel (l.member n) nci
      walk l state fuel (l.brother n) nci

theorem next_append {n : ℕ} {before rest : List ℕ} (h : (before ++ n :: rest).Nodup) :
    next n (before ++ n :: rest) = rest.head? := by
  have hbefore : ∀ x ∈ before, x ≠ n := by
    rintro x hx rfl
    exact (List.disjoint_of_nodup_append h) hx List.mem_cons_self
  rw [next, List.dropWhile_append_of_pos (by simpa using hbefore),
    List.dropWhile_cons_of_neg (by simp), List.tail_cons]

theorem brotherOf_append {t : Tree} {n : ℕ} (k : Kind) (p : ℕ) (before rest : List ℕ)
    (h : t.kids k p = before ++ n :: rest) : brotherOf t n = rest.head? := by
  have hmem : n ∈ t.kids k p := by
    rw [h]
    exact List.mem_append_right _ List.mem_cons_self
  have hnext : next n (t.kids k p) = rest.head? := by
    have hnodup := t.nodup k p
    rw [h] at hnodup ⊢
    exact next_append hnodup
  rw [brotherOf, t.linked hmem]
  cases k with
  | child => exact (if_pos hmem).trans hnext
  | member =>
    have hnot : n ∉ t.kids .child p := fun hchild => absurd (t.once hchild hmem) (by decide)
    exact (if_neg hnot).trans hnext

theorem walk_linksOf (t : Tree) (state : Bool) (k : Kind) (p : ℕ) :
    ∀ before rest, t.kids k p = before ++ rest → ∃ enough, ∀ fuel ≥ enough, ∀ nci,
      walk (linksOf t) state fuel rest.head? nci = some (setParentState t rest state nci) := by
  induction p using t.wellFounded_down.induction generalizing k with
  | _ p ih =>
    intro before rest
    induction rest generalizing before with
    | nil =>
      refine fun _ => ⟨0, fun fuel _ nci => ?_⟩
      cases fuel <;> rfl
    | cons n rest ihrest =>
      intro hkids
      have hparent : t.parent n = some p := t.linked (k := k) (by
        rw [hkids]
        exact List.mem_append_right _ List.mem_cons_self)
      obtain ⟨a, ha⟩ := ih n hparent .child [] (t.kids .child n) rfl
      obtain ⟨b, hb⟩ := ih n hparent .member [] (t.kids .member n) rfl
      obtain ⟨c, hc⟩ := ihrest (before ++ [n]) (by rw [hkids, List.append_assoc]; rfl)
      refine ⟨a + b + c + 1, fun fuel hfuel nci => ?_⟩
      obtain ⟨fuel, rfl⟩ : ∃ f, fuel = f + 1 := ⟨fuel - 1, by omega⟩
      have hbrother : (linksOf t).brother n = rest.head? := brotherOf_append k p before rest hkids
      have hstate : (setNodeParentState nci n state n).state = (nci n).state := by
        rw [setNodeParentState, Function.update_self]
      have hvisit : setParentState t (n :: rest) state nci =
          setParentState t rest state (visit t state n nci) := rfl
      simp only [List.head?_cons, walk, hbrother, hstate, hvisit, visit_eq]
      by_cases hoff : (nci n).state = true
      · rw [if_pos hoff, if_pos hoff]
        exact hc fuel (by omega) _
      · rw [if_neg hoff, if_neg hoff]
        have hchild := ha fuel (by omega) (setNodeParentState nci n state)
        have hmember := hb fuel (by omega)
          (setParentState t (t.kids .child n) state (setNodeParentState nci n state))
        rw [show (linksOf t).child n = (t.kids .child n).head? from rfl, hchild,
          show (linksOf t).member n = (t.kids .member n).head? from rfl, Option.bind_eq_bind,
          Option.bind_some, hmember]
        exact hc fuel (by omega) _

/-- A node is turned off or on, and so are the nodes below it, along links. -/
def toggle (l : Links) (fuel : ℕ) (state : Bool) (n : ℕ) (nci : ℕ → Flags) : Option (ℕ → Flags) :=
  if (nci n).state = state then some nci
  else if (nci n).parentState then some (Function.update nci n { nci n with state })
  else do
    let nci ← walk l state fuel (l.child n) (Function.update nci n { nci n with state })
    walk l state fuel (l.member n) nci

theorem toggle_linksOf (t : Tree) (state : Bool) (n : ℕ) : ∃ enough, ∀ fuel ≥ enough, ∀ nci,
    toggle (linksOf t) fuel state n nci = some
      (if (nci n).state = state then nci
      else if (nci n).parentState then Function.update nci n { nci n with state }
      else setParentState t (t.kids .member n) state (setParentState t (t.kids .child n) state
        (Function.update nci n { nci n with state }))) := by
  obtain ⟨a, ha⟩ := walk_linksOf t state .child n [] (t.kids .child n) rfl
  obtain ⟨b, hb⟩ := walk_linksOf t state .member n [] (t.kids .member n) rfl
  refine ⟨a + b, fun fuel hfuel nci => ?_⟩
  have hchild := ha fuel (by omega) (Function.update nci n { nci n with state })
  have hmember := hb fuel (by omega)
    (setParentState t (t.kids .child n) state (Function.update nci n { nci n with state }))
  rw [toggle]
  by_cases hstate : (nci n).state = state
  · rw [if_pos hstate, if_pos hstate]
  rw [if_neg hstate, if_neg hstate]
  by_cases hparentState : (nci n).parentState = true
  · rw [if_pos hparentState, if_pos hparentState]
  · rw [if_neg hparentState, if_neg hparentState,
      show (linksOf t).child n = (t.kids .child n).head? from rfl, hchild,
      show (linksOf t).member n = (t.kids .member n).head? from rfl, Option.bind_eq_bind,
      Option.bind_some, hmember]

theorem toggle_turnOn_turnOff (s : State) (n : ℕ) : ∃ enough, ∀ fuel ≥ enough,
    toggle (linksOf s.tree) fuel false n s.nci = some (turnOn s n).1.nci ∧
    toggle (linksOf s.tree) fuel true n s.nci = some (turnOff s n).1.nci := by
  obtain ⟨a, ha⟩ := toggle_linksOf s.tree false n
  obtain ⟨b, hb⟩ := toggle_linksOf s.tree true n
  refine ⟨a + b, fun fuel hfuel => ?_⟩
  rw [ha fuel (by omega), hb fuel (by omega), turnOn, turnOff]
  cases hstate : (s.nci n).state <;> cases hparentState : (s.nci n).parentState <;> simp

/-- The distance between two records as it is stored; nothing linked is zero. -/
def nodeOffset (n : ℕ) : Option ℕ → BitVec 32
  | none => 0
  | some m => BitVec.ofInt 32 (36 * ((m : ℤ) - n))

def linked (n : ℕ) (offset : BitVec 32) : Option ℕ :=
  if offset = 0 then none else some (n + offset.toInt / 36).toNat

def record (t : Tree) (n : ℕ) : List Byte :=
  t.name n ++ int32.encode (nodeOffset n (t.parent n)) ++
    int32.encode (nodeOffset n (t.kids .member n).head?)

/-- The link to the members that is read once a name is copied into the record with all its
characters. -/
def memberAfter (t : Tree) (n : ℕ) (name : Name) : BitVec 32 :=
  int32.decode (((name ++ (record t n).drop name.length).drop memberOffset).take 4)

/-- The links of a tree whose node had an overlong name copied in. -/
def overrun (t : Tree) (n : ℕ) (name : Name) : Links :=
  { linksOf t with
    member := Function.update (linksOf t).member n (linked n (memberAfter t n name)) }

theorem overrun_member (t : Tree) (n : ℕ) (name : Name) :
    (overrun t n name).member n = linked n (memberAfter t n name) := by
  rw [overrun]
  exact Function.update_self n _ _

theorem overrun_member_of_ne {t : Tree} {n m : ℕ} {name : Name} (h : m ≠ n) :
    (overrun t n name).member m = (t.kids .member m).head? := by
  rw [overrun]
  exact Function.update_of_ne h _ _

end MdsPlus.LinkWalk
