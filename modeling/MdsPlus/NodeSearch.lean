import MdsPlus.NodeLinks

/-!
Searching the nodes below a node, by members, by children or by both, and filtering what is found
by usage. Each name is copied without blanks into one buffer before it is compared, and behind it
there is what was in the buffer before. Cells of the list are taken out while it is gone through.
-/

namespace MdsPlus.NodeSearch

open BitMemory NodeLinks Traversals
open NodeTree (Kind)
open Subtrees (Address)

/-! ### Comparing names -/

/-- Two strings from where they are pointed to; bytes that are not told are zero. A question mark
or a percent sign goes with any character, the end of the second string included. -/
def matchNames (first second : List Byte) : Bool :=
  if first.headD 0 = 0 ∧ second.headD 0 = 0 then true
  else if first.headD 0 = 42 ∧ first.tail.headD 0 ≠ 0 ∧ second.headD 0 = 0 then false
  else if _h : first.headD 0 = 63 ∨ first.headD 0 = 37 ∨ first.headD 0 = second.headD 0 then
    if _h : first = [] then false else matchNames first.tail second.tail
  else if _h : first.headD 0 = 42 then
    matchNames first.tail second ||
      (if _h : second = [] then false else matchNames first second.tail)
  else false
termination_by first.length + second.length
decreasing_by
  all_goals
    cases first <;> cases second <;> simp_all <;> omega

/-- A name up to its first blank, over what is in the buffer. -/
def trimCpy (buf str : List Byte) : List Byte :=
  let name := str.takeWhile (· ≠ 32)
  name ++ 0 :: buf.drop (name.length + 1)

/-- Without a name a search is for all names. -/
def searchTerm (term : List Byte) : List Byte := if term = [] then [42] else term

/-- The name of a node is copied into the buffer and compared. -/
def look (s : Store) (term : List Byte) (trimmed : List Byte) (n : Address) : List Byte × Bool :=
  let trimmed := trimCpy trimmed (s.node n).name
  (trimmed, matchNames (searchTerm term) trimmed)

theorem matchNames_nil_cons {c : Byte} (hc : c ≠ 0#8) (second : List Byte) :
    matchNames [] (c :: second) = false := by
  rw [matchNames]
  simp [hc]

theorem matchNames_nil_zero (second : List Byte) : matchNames [] (0#8 :: second) = true := by
  rw [matchNames]
  simp

theorem matchNames_star {name : List Byte} (hname : 42#8 ∉ name) (rest : List Byte) :
    matchNames [42#8] (name ++ 0#8 :: rest) = true := by
  induction name with
  | nil =>
    rw [matchNames]
    simp [matchNames_nil_zero]
  | cons c name ih =>
    simp only [List.mem_cons, not_or] at hname
    rw [matchNames]
    by_cases hc : c = 0#8
    · simp [hc, matchNames_nil_zero]
    · simp [hname.1, ih hname.2]

theorem matchNames_zero {a : Byte} (hany : a ≠ 63#8) (hany' : a ≠ 37#8) (first rest : List Byte) :
    matchNames (a :: first) (0#8 :: rest) =
      decide (a = 0#8 ∨ a = 42#8 ∧ first.head?.getD 0#8 = 0#8) := by
  have hend : first.head?.getD 0#8 = 0#8 → matchNames first (0#8 :: rest) = true := by
    intro hfirst
    rw [matchNames]
    simp [hfirst]
  rw [matchNames]
  by_cases hzero : a = 0#8
  · simp [hzero]
  · by_cases hstar : a = 42#8
    · by_cases hfirst : first.head?.getD 0#8 = 0#8
      · simp [hstar, hfirst, hend hfirst]
      · simp [hstar, hfirst]
    · simp [hzero, hstar, hany, hany']

theorem matchNames_append {first : List Byte} (hany : 63#8 ∉ first) (hany' : 37#8 ∉ first)
    (name rest : List Byte) :
    matchNames first (name ++ 0#8 :: rest) = matchNames first (name ++ [0#8]) := by
  induction hn : first.length + name.length using Nat.strong_induction_on generalizing first name
    with
  | _ n ih =>
    cases first with
    | nil =>
      cases name with
      | nil => rw [List.nil_append, List.nil_append, matchNames_nil_zero, matchNames_nil_zero]
      | cons c name =>
        by_cases hc : c = 0#8
        · rw [hc, List.cons_append, List.cons_append, matchNames_nil_zero, matchNames_nil_zero]
        · rw [List.cons_append, List.cons_append, matchNames_nil_cons hc, matchNames_nil_cons hc]
    | cons a first =>
      simp only [List.mem_cons, not_or] at hany hany'
      simp only [List.length_cons] at hn
      cases name with
      | nil =>
        rw [List.nil_append, List.nil_append, matchNames_zero (Ne.symm hany.1) (Ne.symm hany'.1),
          matchNames_zero (Ne.symm hany.1) (Ne.symm hany'.1)]
      | cons c name =>
        simp only [List.length_cons] at hn
        have hboth := ih (first.length + name.length) (by omega) hany.2 hany'.2 name rfl
        have hfirst := ih (first.length + (c :: name).length)
          (by simp only [List.length_cons]; omega) hany.2 hany'.2 (c :: name) rfl
        have hname := ih ((a :: first).length + name.length)
          (by simp only [List.length_cons]; omega) (by simp [hany]) (by simp [hany']) name rfl
        rw [List.cons_append, List.cons_append] at hfirst
        rw [matchNames, matchNames.eq_def (a :: first) (c :: name ++ [0#8])]
        simp [hboth, hfirst, hname]

/-! ### The three searches -/

def findMembers (s : Store) (stack term : List Byte) (fuel : ℕ) (start : Address) :
    Option (List Address) :=
  search (memberOf s) (brothers s) (look s term) fuel ⟨[start], stack, []⟩

def findChildren (s : Store) (stack term : List Byte) (fuel : ℕ) (start : Address) :
    Option (List Address) :=
  search (childOf s) (brothers s) (look s term) fuel ⟨[start], stack, []⟩

def findMembersOrChildren (s : Store) (stack term : List Byte) (fuel : ℕ) (start : Address) :
    Option (List Address) :=
  search (descendantOf s) (siblingOf s fuel) (look s term) fuel ⟨[start], stack, [start]⟩

inductive SearchType
  | childSearch
  | memberSearch
  | childOrMemberSearch
  deriving DecidableEq

inductive Spelling
  | tildes
  | stars
  | dots
  | colons

def Spelling.searchType : Spelling → SearchType
  | tildes | stars => .childOrMemberSearch
  | dots => .childSearch
  | colons => .memberSearch

def find (s : Store) (stack : List Byte) (fuel : ℕ) (type : SearchType) (term : List Byte)
    (start : Address) : Option (List Address) :=
  match type with
  | .childSearch => findChildren s stack term fuel start
  | .memberSearch => findMembers s stack term fuel start
  | .childOrMemberSearch => findMembersOrChildren s stack term fuel start

def InClosure (T : OpenTrees) (x y : Address) : SearchType → Prop
  | .childSearch => Relation.TransGen (fun p c => c ∈ T.kids .child p) x y
  | .memberSearch => Relation.TransGen (fun p c => c ∈ T.kids .member p) x y
  | .childOrMemberSearch => Relation.ReflTransGen (fun p c => ∃ k, c ∈ T.kids k p) x y

def startOf (x : Address) : SearchType → List Address
  | .childOrMemberSearch => [x]
  | _ => []

def forestOf (T : OpenTrees) : SearchType → Forest Address
  | .childSearch => T.forest .child
  | .memberSearch => T.forest .member
  | .childOrMemberSearch => T.bothForest

/-- What a search looks at after the start. -/
noncomputable def visited (T : OpenTrees) (type : SearchType) (x : Address) : List Address :=
  (forestOf T type).order [x]

variable (T : OpenTrees) {x : Address}

theorem forest_inside {k : Kind} (a : Address) (_ha : T.nodes a) :
    ∀ c ∈ (T.forest k).kids a, T.nodes c :=
  fun _ hc => (T.inside hc).2

theorem findMembersOrChildren_eq (hx : T.nodes x) (stack term : List Byte) {fuel : ℕ}
    (hfuel : T.bothForest.total [x] ≤ fuel) :
    findMembersOrChildren T.store stack term fuel x =
      some (x :: (select (look T.store term) stack (T.bothForest.order [x])).2) := by
  have hcount : T.bothForest.count x ≤ fuel :=
    (T.bothForest.count_le_total List.mem_cons_self).trans hfuel
  refine search_eq T.bothForest (fun a => T.nodes a ∧ (a = x ∨ T.bothForest.Below x a))
    ?_ ?_ ?_ hfuel
  · rintro a ⟨-, ha⟩ c hc
    obtain ⟨k, hk⟩ := T.mem_allKids.1 hc
    refine ⟨(T.inside hk).2, Or.inr ?_⟩
    rcases ha with rfl | ha
    · exact .single hc
    · exact ha.tail hc
  · rintro a ⟨hnode, ha⟩
    refine T.chain_allKids hnode ?_
    have hbelow : T.bothForest.count a ≤ T.bothForest.count x := by
      rcases ha with rfl | ha
      · exact Nat.le_refl _
      · exact T.bothForest.count_le_of_below ha
    have hlength : (T.allKids a).length ≤ T.bothForest.count a := T.bothForest.length_kids_le a
    rw [OpenTrees.allKids, List.length_append] at hlength
    omega
  · intro a ha
    rw [List.mem_singleton.1 ha]
    exact ⟨hx, Or.inl rfl⟩

theorem find_eq (hx : T.nodes x) (type : SearchType) (stack term : List Byte) {fuel : ℕ}
    (hfuel : (forestOf T type).total [x] ≤ fuel) :
    find T.store stack fuel type term x =
      some (startOf x type ++ (select (look T.store term) stack (visited T type x)).2) := by
  have hqueue : ∀ a ∈ [x], T.nodes a := by
    intro a ha
    rwa [List.mem_singleton.1 ha]
  cases type with
  | childSearch =>
    exact search_eq (T.forest .child) T.nodes (forest_inside T) T.children hqueue hfuel
  | memberSearch =>
    exact search_eq (T.forest .member) T.nodes (forest_inside T) T.members hqueue hfuel
  | childOrMemberSearch => exact findMembersOrChildren_eq T hx stack term hfuel

theorem mem_visited (type : SearchType) (x y : Address) :
    y ∈ startOf x type ++ visited T type x ↔ InClosure T x y type := by
  have horder : y ∈ visited T type x ↔ (forestOf T type).Below x y := by
    rw [visited, Forest.mem_order]
    simp
  rw [List.mem_append, horder]
  cases type with
  | childSearch => exact or_iff_right (fun h => nomatch h)
  | memberSearch => exact or_iff_right (fun h => nomatch h)
  | childOrMemberSearch =>
    have hkids : (fun p c => c ∈ T.bothForest.kids p) = fun p c => ∃ k, c ∈ T.kids k p := by
      funext p c
      exact propext T.mem_allKids
    rw [InClosure, Relation.reflTransGen_iff_eq_or_transGen, ← hkids]
    exact or_congr List.mem_singleton Iff.rfl

theorem nodup_visited (type : SearchType) (x : Address) :
    (startOf x type ++ visited T type x).Nodup := by
  have horder : (visited T type x).Nodup := (Forest.apart_singleton x).order_nodup
  cases type with
  | childSearch => exact horder
  | memberSearch => exact horder
  | childOrMemberSearch =>
    refine List.nodup_cons.2 ⟨fun hmem => ?_, horder⟩
    obtain ⟨y, hy, hbelow⟩ := Forest.mem_order.1 hmem
    rw [List.mem_singleton.1 hy] at hbelow
    exact T.bothForest.not_below_self x hbelow

theorem visited_nodes {type : SearchType} {y : Address} (hy : y ∈ visited T type x) :
    T.nodes y := by
  obtain ⟨z, -, hbelow⟩ := Forest.mem_order.1 hy
  obtain ⟨p, -, hkid⟩ := Relation.TransGen.tail'_iff.1 hbelow
  cases type with
  | childSearch => exact (T.inside hkid).2
  | memberSearch => exact (T.inside hkid).2
  | childOrMemberSearch =>
    obtain ⟨k, hk⟩ := T.mem_allKids.1 hkid
    exact (T.inside hk).2

theorem select_look_nil (stack : List Byte) {l : List Address} (hl : ∀ a ∈ l, T.nodes a) :
    (select (look T.store []) stack l).2 = l := by
  refine (select_eq_filter fun buf a ha => ?_).trans (List.filter_true l)
  have hname : 42#8 ∉ (T.store.node a).name.takeWhile (· ≠ 32) :=
    fun hmem => T.named a (hl a ha) (List.takeWhile_subset _ hmem)
  exact matchNames_star hname _

theorem select_look {term : List Byte} (hany : 63#8 ∉ term) (hany' : 37#8 ∉ term) (s : Store)
    (stack : List Byte) (l : List Address) :
    (select (look s term) stack l).2 = l.filter fun a =>
      matchNames (searchTerm term) ((s.node a).name.takeWhile (· ≠ 32) ++ [0]) := by
  have hterm : 63#8 ∉ searchTerm term ∧ 37#8 ∉ searchTerm term := by
    rw [searchTerm]
    split
    · decide
    · exact ⟨hany, hany'⟩
  exact select_eq_filter fun buf a _ => matchNames_append hterm.1 hterm.2 _ _

end MdsPlus.NodeSearch
