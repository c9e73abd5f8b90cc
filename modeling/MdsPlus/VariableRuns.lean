import MdsPlus.VariableMaps

/-!
Runs of operations on variables do what the operations on maps do, and keep the lock balanced.
-/

namespace MdsPlus.VariableRuns

open InsertTree (LibTreeNode)
open VariableKeys VariableMaps VariableNames Variables

variable {α : Type}

structure Shows (b : Block α) (map : Map α) : Prop where
  valid : Valid b
  slots : ∀ n, 0 ∉ n → slot b n = map (fold n)

/-- Both blocks show their maps, with the lock released as often as taken. -/
structure Represents (s : Vars α) (m : Scopes α) : Prop where
  priv : Shows s.priv m.priv
  pub : Shows s.pub m.pub
  balanced : s.taken = s.released

variable {s : Vars α} {m : Scopes α} {b : Block α} {map : Map α}

theorem Represents.block (h : Represents s m) (which : Which) :
    Shows (s.block which) (m.map which) := by
  cases which with
  | priv => exact h.priv
  | pub => exact h.pub

def lockFor (s : Vars α) (which : Which) : Vars α := if which = .pub then s.lock else s

def unlockFor (s : Vars α) (which : Which) : Vars α := if which = .pub then s.unlock else s

theorem block_lockFor (s : Vars α) (which w : Which) : (lockFor s which).block w = s.block w := by
  unfold lockFor
  split <;> cases w <;> rfl

theorem Represents.set (h : Represents s m) {which : Which} {b : Block α} {map : Map α}
    (hb : Shows b map) :
    Represents (unlockFor ((lockFor s which).setBlock b which) which) (m.setMap map which) := by
  cases which with
  | priv => exact ⟨hb, h.pub, h.balanced⟩
  | pub =>
    refine ⟨h.priv, hb, ?_⟩
    change s.taken + 1 = s.released + 1
    rw [h.balanced]

theorem Represents.locked (h : Represents s m) (which : Which) :
    Represents (unlockFor (lockFor s which) which) m := by
  cases which with
  | priv => exact h
  | pub =>
    refine ⟨h.priv, h.pub, ?_⟩
    change s.taken + 1 = s.released + 1
    rw [h.balanced]

theorem Shows.lookupDefined_eq (h : Shows b map) {name : Name} (hname : 0 ∉ name) :
    lookupDefined b name = if valued (map (fold name)) then lookup b name else none := by
  rw [← h.slots name hname]
  unfold lookupDefined slot
  cases lookup b name with
  | none => rfl
  | some p => exact Option.filter_some

theorem Shows.data_eq (h : Shows b map) {name : Name} (hname : 0 ∉ name) {p : ℕ}
    (hp : lookup b name = some p) : map (fold name) = some (b.xd p) := by
  rw [← h.slots name hname]
  unfold slot
  rw [hp]
  rfl

theorem Shows.lookup_of_valued (h : Shows b map) {name : Name} (hname : 0 ∉ name)
    (hvalued : valued (map (fold name)) = true) : ∃ p, lookup b name = some p := by
  rw [← h.slots name hname] at hvalued
  unfold slot at hvalued
  cases hp : lookup b name with
  | none =>
    rw [hp] at hvalued
    cases hvalued
  | some p => exact ⟨p, rfl⟩

theorem findName_put {search : Search} (hcheck : search.check = false)
    (hsearch : (search.priv || search.pub) = true) (name : Name) (key : Key) (block : Ptr)
    (s : Vars α) : findName search name key true block s =
      (lockFor s (target search), ⟨none, key, none, .to (target search)⟩) := by
  unfold findName target
  rw [hcheck]
  cases hpriv : search.priv with
  | true => rfl
  | false =>
    rw [hpriv, Bool.false_or] at hsearch
    rw [hsearch]
    rfl

theorem getName_spec (h : Represents s m) {search : Search} (hcheck : search.check = true)
    (hsearch : (search.priv || search.pub) = true) {name : Name} (hname : 0 ∉ name) (key : Key) :
    ∃ s', getFound (findName search name key true .null s).1
        (findName search name key true .null s).2 = some (s', m.value search name) ∧
      Represents s' m := by
  have hpriv := h.priv.lookupDefined_eq hname
  have hpub : lookupDefined s.lock.pub name =
      if valued (m.pub (fold name)) then lookup s.pub name else none :=
    h.pub.lookupDefined_eq hname
  unfold findName Scopes.value
  dsimp only
  rw [hcheck, hpriv, hpub]
  simp only [Bool.not_true, Bool.and_false, Bool.false_eq_true, if_false, if_true]
  cases hvalued : search.priv && valued (m.priv (fold name)) with
  | true =>
    obtain ⟨hp, hv⟩ := Bool.and_eq_true_iff.mp hvalued
    obtain ⟨p, hlookup⟩ := h.priv.lookup_of_valued hname hv
    rw [hp, if_pos rfl, if_pos hv, hlookup, h.priv.data_eq hname hlookup]
    exact ⟨s, rfl, h⟩
  | false =>
    have hnone : (if search.priv = true then
        if valued (m.priv (fold name)) = true then lookup s.priv name else none else none) =
          none := by
      split
      · next hp =>
        rw [hp, Bool.true_and] at hvalued
        rw [if_neg (Bool.eq_false_iff.mp hvalued)]
      · rfl
    rw [hnone]
    dsimp only
    cases hpubs : search.pub with
    | false =>
      rw [hpubs, Bool.or_false] at hsearch
      rw [hsearch]
      exact ⟨s, rfl, h⟩
    | true =>
      have hlocked := h.locked .pub
      cases hv : valued (m.pub (fold name)) with
      | true =>
        obtain ⟨p, hlookup⟩ := h.pub.lookup_of_valued hname hv
        rw [if_pos rfl, if_pos rfl, hlookup, h.pub.data_eq hname hlookup]
        exact ⟨_, rfl, hlocked⟩
      | false => exact ⟨_, rfl, hlocked⟩

/-- What find_ident does for an address: what findName does, or it fails. A name that is used after
it is set, and the failure is not that of an unknown variable. -/
def Finds (uses : Bool) (search : Search) (block : Ptr)
    (found : Option (Vars α × Found)) (r : Scopes α × Except Failure (Search × Name)) : Prop :=
  ∃ s', Represents s' r.1 ∧
    match r.2 with
    | .error failure =>
        found = some (s', failing failure true block) ∧ (uses = true → failure ≠ .unknownVar)
    | .ok (search', name) =>
        search'.check = search.check ∧ (search'.priv || search'.pub) = true ∧ 0 ∉ name ∧
          ∃ key, (uses = true → key = .text name) ∧
            found = some (findName search' name key true block s')

/-- An operation is done as on the maps. -/
def Does (result : Option (Vars α × Reply α)) (r : Scopes α × Reply α) : Prop :=
  ∃ s', result = some (s', r.2) ∧ Represents s' r.1

theorem failing_block {failure : Failure} (hknown : failure ≠ .unknownVar) (block : Ptr) :
    failing failure true block = ⟨some failure, .unset, none, .null⟩ := by
  unfold failing
  rw [if_neg hknown]
  rfl

theorem name_failing {failure : Failure} (hknown : failure ≠ .unknownVar) (before : Key) :
    Found.name ⟨some failure, .unset, none, .null⟩ before = before := by
  unfold Found.name
  apply if_neg
  intro hor
  obtain hnone | heq := hor
  · cases hnone
  · exact hknown (Option.some.inj heq)

theorem get_does {found : Option (Vars α × Found)} {r : Scopes α × Except Failure (Search × Name)}
    (h : Finds false getMode .null found r) :
    Does ((found.bind fun (s, f) => getFound s f).map fun (s, value) => (s, .value value))
      (r.1, .value (r.2.bind fun (search, name) => r.1.value search name)) := by
  obtain ⟨m, address⟩ := r
  obtain ⟨s', hs, hfound⟩ := h
  cases address with
  | error failure =>
    obtain ⟨rfl, -⟩ := hfound
    refine ⟨s', ?_, hs⟩
    unfold failing
    split <;> rfl
  | ok address =>
    obtain ⟨search, name⟩ := address
    obtain ⟨hcheck, hsearch, hname, key, -, rfl⟩ := hfound
    obtain ⟨t, ht, htm⟩ := getName_spec hs hcheck hsearch hname key
    refine ⟨t, ?_, htm⟩
    generalize findName search name key true .null s' = result at ht ⊢
    obtain ⟨t', f⟩ := result
    change ((getFound t' f).map _) = _
    rw [ht]
    rfl

theorem Shows.put (h : Shows b map) {name : Name} (hname : 0 ∉ name) (data : Option (Option α))
    (memory : Memory) :
    ∃ b', putNode b (strUpcase name) data memory = some (b', (map.put name data memory).2) ∧
      Shows b' (map.put name data memory).1 := by
  obtain ⟨b', hput, hvalid, hslots⟩ := putNode_spec h.valid hname data memory
  rw [h.slots name hname] at hput hslots
  refine ⟨b', hput, hvalid, ?_⟩
  intro n hn
  rw [hslots n hn]
  unfold Map.put
  dsimp only
  rw [Function.update_apply]
  split
  · rfl
  · exact h.slots n hn

theorem put_does {found : Option (Vars α × Found)} {r : Scopes α × Except Failure (Search × Name)}
    (h : Finds true putMode .null found r) (data : Option (Option α)) (memory : Memory) :
    Does ((found.bind fun (s, f) => putFound data memory s f).map
        fun (s, status) => (s, .status status))
      (match r with
        | (m, .error failure) => (m, .status (some failure))
        | (m, .ok (search, name)) =>
            let (map, status) := (m.map (target search)).put name data memory
            (m.setMap map (target search), .status status)) := by
  obtain ⟨m, address⟩ := r
  obtain ⟨s', hs, hfound⟩ := h
  cases address with
  | error failure =>
    obtain ⟨rfl, hknown⟩ := hfound
    rw [failing_block (hknown rfl)]
    have hname := name_failing (hknown rfl) (.text [])
    refine ⟨s', ?_, hs⟩
    change ((putFound data memory s' _).map _) = _
    unfold putFound
    rw [hname]
    rfl
  | ok address =>
    obtain ⟨search, name⟩ := address
    obtain ⟨hcheck, hsearch, hname, key, hkey, rfl⟩ := hfound
    obtain rfl := hkey rfl
    rw [findName_put hcheck hsearch]
    obtain ⟨b', hput, hshows⟩ := (hs.block (target search)).put hname data memory
    refine ⟨_, ?_, hs.set hshows⟩
    change ((putFound data memory (lockFor s' (target search))
      ⟨none, .text name, none, .to (target search)⟩).map _) = _
    unfold putFound
    dsimp only [Found.name]
    rw [if_pos (Or.inl rfl)]
    dsimp only
    rw [block_lockFor, hput]
    rfl

theorem flag_does {found : Option (Vars α × Found)} {r : Scopes α × Except Failure (Search × Name)}
    (h : Finds true putMode .unset found r) {isFound : Block α → ℕ → Bool}
    {isFound' : Option (Xd α) → Bool} (hnone : isFound' none = false)
    (hsome : ∀ b p, isFound b p = isFound' (some (b.xd p))) :
    Does ((found.bind fun (s, f) => flagFound isFound s f).map fun (s, flag) => (s, .flag flag))
      (r.1, .flag (flagOf r.1 isFound' r.2)) := by
  obtain ⟨m, address⟩ := r
  obtain ⟨s', hs, hfound⟩ := h
  cases address with
  | error failure =>
    obtain ⟨rfl, hknown⟩ := hfound
    rw [failing_block (hknown rfl)]
    have hname := name_failing (hknown rfl) (.text [])
    refine ⟨s', ?_, hs⟩
    change ((flagFound isFound s' _).map _) = _
    unfold flagFound
    rw [hname]
    unfold flagOf
    cases failure <;> rfl
  | ok address =>
    obtain ⟨search, name⟩ := address
    obtain ⟨hcheck, hsearch, hname, key, hkey, rfl⟩ := hfound
    obtain rfl := hkey rfl
    rw [findName_put hcheck hsearch]
    refine ⟨_, ?_, hs.locked (target search)⟩
    change ((flagFound isFound (lockFor s' (target search))
      ⟨none, .text name, none, .to (target search)⟩).map _) = _
    unfold flagFound
    dsimp only [Found.name]
    rw [if_pos (Or.inl rfl)]
    dsimp only
    rw [block_lockFor]
    have hflag : (lookup (s'.block (target search)) name).any
        (isFound (s'.block (target search))) = isFound' (m.map (target search) (fold name)) := by
      rw [← (hs.block (target search)).slots name hname]
      unfold slot
      cases lookup (s'.block (target search)) name with
      | none => exact hnone.symm
      | some p => exact hsome _ _
    rw [hflag]
    rfl

theorem ncard_free (h : Shows b map) (sel : Name → Bool) :
    {k | IsKey k ∧ sel (strUpcase k) = true ∧ valued (slot b k) = true}.ncard =
      (map.free sel).2 := by
  unfold Map.free
  congr 1
  ext k
  constructor
  · intro ⟨hkey, hsel, hvalued⟩
    rw [h.slots k hkey.2, hkey.1] at hvalued
    exact ⟨hkey, hsel, hvalued⟩
  · intro ⟨hkey, hsel, hvalued⟩
    refine ⟨hkey, hsel, ?_⟩
    rw [h.slots k hkey.2, hkey.1]
    exact hvalued

theorem shows_free (h : Shows b map) {b' : Block α} (hb : Valid b') {sel : Name → Bool}
    (hslots : ∀ n, 0 ∉ n → slot b' n =
      if sel (strUpcase n) then freeSlot (slot b n) else slot b n) :
    Shows b' (map.free sel).1 := by
  refine ⟨hb, ?_⟩
  intro n hn
  rw [hslots n hn, h.slots n hn]
  unfold Map.free
  dsimp only
  rw [upcase_fold]

theorem Shows.free (h : Shows b map) {name : Name} (hname : 0 ∉ name) (count : ℕ) :
    Shows (freeMatching b (strUpcase name) (isWild (strUpcase name)) count).1
        (map.free (selects (strUpcase name) (isWild (strUpcase name)))).1 ∧
      (freeMatching b (strUpcase name) (isWild (strUpcase name)) count).2 =
        count + (map.free (selects (strUpcase name) (isWild (strUpcase name)))).2 := by
  obtain ⟨hvalid, hslots, hcount⟩ := freeMatching_spec h.valid hname count
  rw [ncard_free h (selects (strUpcase name) (isWild (strUpcase name)))] at hcount
  exact ⟨shows_free h hvalid hslots, hcount⟩

theorem Shows.freeAll (h : Shows b map) :
    Shows (freeMatching b [] true 0).1 (map.free (selects [] true)).1 ∧
      (freeMatching b [] true 0).2 = (map.free (selects [] true)).2 := by
  obtain ⟨hvalid, hslots, hcount⟩ := freeAllMatching_spec h.valid [] 0
  rw [ncard_free h (selects [] true), Nat.zero_add] at hcount
  exact ⟨shows_free h hvalid hslots, hcount⟩

theorem wild_frees {found : Option (Vars α × Found)}
    {r : Scopes α × Except Failure (Search × Name)} (user : User)
    (h : Finds true putMode user.block found r) :
    ∃ s' user', match r.2 with
      | .error failure =>
          (found.bind fun (s, f) => wildFound user s f) = some (s', user', some failure) ∧
            Represents s' r.1 ∧ user'.pattern = user.pattern
      | .ok (search, name) =>
          (found.bind fun (s, f) => wildFound user s f) = some (s', user', none) ∧
            Represents s' (r.1.setMap ((r.1.map (target search)).free
              (selects (strUpcase name) (isWild (strUpcase name)))).1 (target search)) ∧
            user'.pattern ≠ .unset ∧
            user'.count = user.count + ((r.1.map (target search)).free
              (selects (strUpcase name) (isWild (strUpcase name)))).2 := by
  obtain ⟨m, address⟩ := r
  obtain ⟨s', hs, hfound⟩ := h
  cases address with
  | error failure =>
    obtain ⟨rfl, hknown⟩ := hfound
    rw [failing_block (hknown rfl)]
    have hname := name_failing (hknown rfl) user.pattern
    refine ⟨s', ⟨.null, user.pattern, user.count⟩, ?_, hs, rfl⟩
    rw [Option.bind_some]
    unfold wildFound
    dsimp only
    rw [hname]
    cases user.pattern <;> rfl
  | ok address =>
    obtain ⟨search, name⟩ := address
    obtain ⟨hcheck, hsearch, hname, key, hkey, rfl⟩ := hfound
    obtain rfl := hkey rfl
    rw [findName_put hcheck hsearch]
    obtain ⟨hshows, hcount⟩ := (hs.block (target search)).free hname user.count
    refine ⟨_, ⟨.to (target search), .text (strUpcase name), _⟩, ?_, hs.set hshows,
      fun h => (by cases h), hcount⟩
    rw [Option.bind_some]
    unfold wildFound
    dsimp only [Found.name]
    rw [if_pos (Or.inl rfl)]
    dsimp only
    rw [block_lockFor]
    rfl

theorem deallocateAll_does (h : Represents s m) :
    Does (some (deallocateAll s)) (deallocateMap m) := by
  have hempty : m.priv.Empty ↔ s.priv.head = .empty := by
    rw [h.priv.valid.head_empty]
    constructor
    · intro hnone n hn
      rw [h.priv.slots n hn]
      exact hnone _ ⟨fold_fold n, fun h0 => hn ((zero_mem_fold n).mp h0)⟩
    · intro hnone k hkey
      have hslot := hnone k hkey.2
      rw [h.priv.slots k hkey.2, hkey.1] at hslot
      exact hslot
  unfold deallocateMap deallocateAll
  cases hhead : s.priv.head with
  | empty =>
    rw [if_pos (hempty.mpr hhead)]
    exact ⟨s, rfl, h⟩
  | node block key bal left right =>
    rw [if_neg (fun he => by
      rw [hempty.mp he] at hhead
      cases hhead)]
    obtain ⟨hvalid, hslots⟩ := freeAll_spec s.priv
    exact ⟨_, rfl, ⟨hvalid, fun n _ => hslots n⟩, h.pub, h.balanced⟩

mutual

theorem findIdent_finds : ∀ (ident : Ident α) {uses : Bool} {search : Search} (block : Ptr)
    {s : Vars α} {m : Scopes α}, Represents s m → Ident.Sound uses search ident →
      Finds uses search block (findIdent search true block s ident) (addressed search m ident)
  | .missing, _, _, _, s, _, h, _ => ⟨s, h, rfl, fun _ => Failure.noConfusion⟩
  | .bad failure, _, _, _, s, _, h, hsound => ⟨s, h, rfl, hsound⟩
  | .name name, _, _, _, s, _, h, hsound =>
      ⟨s, h, rfl, hsound.2, hsound.1, .text name, fun _ => rfl, rfl⟩
  | .publicly ident, uses, search, block, s, m, h, hsound => by
    have hfinds : Finds uses { search with priv := false } block _ _ :=
      findIdent_finds ident block h hsound
    exact hfinds
  | .privately ident, uses, search, block, s, m, h, hsound => by
    have hfinds : Finds uses { search with pub := false } block _ _ :=
      findIdent_finds ident block h hsound
    exact hfinds
  | .assigned evaluation status ident, uses, search, block, s, m, h, hsound => by
    obtain ⟨t, hrun, ht⟩ := runOps_does evaluation h hsound.1
    unfold findIdent addressed
    rw [hrun]
    cases status with
    | none => exact findIdent_finds ident block ht hsound.2
    | some failure => exact ⟨t, ht, rfl, hsound.2⟩
  | .var evaluation name, uses, search, block, s, m, h, hsound => by
    obtain ⟨t, hrun, ht⟩ := runOps_does evaluation h hsound.1
    unfold findIdent addressed
    rw [hrun]
    cases name with
    | error failure => exact ⟨t, ht, rfl, hsound.2⟩
    | ok name =>
      obtain ⟨huses, hname, hsearch⟩ := hsound.2
      refine ⟨t, ht, rfl, hsearch, hname, .freed, ?_, rfl⟩
      intro htrue
      rw [huses] at htrue
      cases htrue

theorem wildArgs_frees : ∀ (args : List (Ident α)) (user : User) {s : Vars α} {m : Scopes α},
    Represents s m → ArgsSound args → user.pattern ≠ .unset →
      ∃ s' user', Represents s' (freeArgs user.count m args).1 ∧
        match (freeArgs user.count m args).2 with
        | .ok count => wildArgs user s args = some (s', user', none) ∧ user'.count = count
        | .error failure => wildArgs user s args = some (s', user', some failure) ∧
            user'.pattern ≠ .unset
  | [], user, s, _, h, _, _ => ⟨s, user, h, rfl, rfl⟩
  | arg :: args, user, s, m, h, hsound, hpattern => by
    have hfinds := findIdent_finds arg user.block h hsound.1
    obtain ⟨t, user', hwild⟩ := wild_frees user hfinds
    unfold wildArgs freeArgs
    generalize addressed putMode m arg = r at hwild ⊢
    obtain ⟨m', address⟩ := r
    cases address with
    | error failure =>
      obtain ⟨hfound, ht, hpattern'⟩ := hwild
      rw [hfound]
      exact ⟨t, user', ht, rfl, hpattern' ▸ hpattern⟩
    | ok address =>
      obtain ⟨search, name⟩ := address
      obtain ⟨hfound, ht, hpattern', hcount⟩ := hwild
      rw [hfound]
      dsimp only
      rw [← hcount]
      exact wildArgs_frees args user' ht hsound.2 hpattern'

theorem runOp_does : ∀ (op : Op α) {s : Vars α} {m : Scopes α}, Represents s m → Op.Sound op →
    Does (runOp s op) (operate m op)
  | .get ident, s, m, h, hsound => by
    unfold runOp operate
    exact get_does (findIdent_finds ident .null h hsound)
  | .getPrivate name, s, m, h, hsound => by
    refine ⟨s, ?_, h⟩
    unfold runOp operate
    dsimp only
    rw [← h.priv.slots name hsound]
    unfold slot
    cases lookup s.priv name with
    | none => rfl
    | some p => rfl
  | .getPublic name, s, m, h, hsound => by
    refine ⟨s.lock.unlock, ?_, h.locked .pub⟩
    unfold runOp operate
    dsimp only
    rw [← h.pub.slots name hsound]
    unfold slot
    cases lookup s.pub name with
    | none => rfl
    | some p => rfl
  | .put ident data memory, s, m, h, hsound => by
    unfold runOp operate
    exact put_does (findIdent_finds ident .null h hsound) data memory
  | .present ident, s, m, h, hsound => by
    unfold runOp operate
    exact flag_does (findIdent_finds ident .unset h hsound) rfl fun _ _ => rfl
  | .allocated ident, s, m, h, hsound => by
    unfold runOp operate
    exact flag_does (findIdent_finds ident .unset h hsound) rfl fun _ _ => rfl
  | .deallocate [], s, m, h, _ => by
    unfold runOp operate
    exact deallocateAll_does h
  | .deallocate (arg :: args), s, m, h, hsound => by
    unfold runOp operate
    by_cases hmissing : arg.isMissing = true
    · obtain ⟨hshows, hcount⟩ := h.priv.freeAll
      rw [if_pos hmissing, if_pos hmissing]
      dsimp only
      rw [← hcount]
      exact ⟨_, rfl, hshows, h.pub, h.balanced⟩
    · obtain hsound | hsound := hsound
      · exact absurd hsound hmissing
      · obtain ⟨t, user, ht, hwild⟩ := wildArgs_frees (arg :: args) ⟨.to .priv, .text [], 0⟩ h
          hsound fun heq => by cases heq
        rw [if_neg hmissing, if_neg hmissing]
        dsimp only at ht hwild ⊢
        generalize freeArgs 0 m (arg :: args) = r at ht hwild ⊢
        obtain ⟨m', count⟩ := r
        cases count with
        | ok count =>
          obtain ⟨hwild, rfl⟩ := hwild
          rw [hwild]
          exact ⟨t, rfl, ht⟩
        | error failure =>
          obtain ⟨hwild, hpattern⟩ := hwild
          refine ⟨t, ?_, ht⟩
          rw [hwild, Option.bind_some]
          dsimp only
          rw [if_neg hpattern]
  | .call .., _, _, _, hsound => hsound.elim

theorem runOps_does : ∀ (ops : List (Op α)) {s : Vars α} {m : Scopes α}, Represents s m →
    AllSound ops → ∃ s', runOps s ops = some (s', (operateAll m ops).2) ∧
      Represents s' (operateAll m ops).1
  | [], s, _, h, _ => ⟨s, rfl, h⟩
  | op :: ops, s, m, h, hsound => by
    obtain ⟨t, hop, ht⟩ := runOp_does op h hsound.1
    obtain ⟨u, hops, hu⟩ := runOps_does ops ht hsound.2
    refine ⟨u, ?_, hu⟩
    unfold runOps operateAll
    rw [hop, Option.bind_some]
    dsimp only
    rw [hops]
    rfl

end

/-- A thread without variables. -/
def start : Vars α where
  priv := ⟨.empty, 0, fun _ => none⟩
  pub := ⟨.empty, 0, fun _ => none⟩
  taken := 0
  released := 0
  narg := 0

def noNames : Scopes α := ⟨fun _ => none, fun _ => none⟩

theorem shows_empty (next : ℕ) (xd : ℕ → Xd α) : Shows ⟨.empty, next, xd⟩ fun _ => none := by
  refine ⟨⟨trivial, List.nodup_nil, ?_, List.nodup_nil, ?_⟩, fun n _ => rfl⟩
  · intro k hk
    cases hk
  · intro p hp
    cases hp

theorem represents_start : Represents (start : Vars α) noNames :=
  ⟨shows_empty _ _, shows_empty _ _, rfl⟩

theorem Shows.finite (h : Shows b map) : {k | IsKey k ∧ map k ≠ none}.Finite := by
  apply Set.Finite.subset (List.finite_toSet (b.head |> InsertTreeRuns.keys |>.map fold))
  intro k ⟨hkey, hk⟩
  rw [← hkey.1, ← h.slots k hkey.2] at hk
  unfold slot at hk
  cases hp : lookup b k with
  | none =>
    rw [hp] at hk
    exact absurd rfl hk
  | some p =>
    have hmem := h.valid.lookup_some hkey.2 hp
    refine List.mem_map.mpr ⟨strUpcase k, List.mem_map_of_mem hmem, ?_⟩
    rw [fold_upcase, hkey.1]

/-- Any operations do what they do on two finite maps, with the same replies, and release the lock
as often as they take it. -/
theorem runOps_maps (ops : List (Op α)) (hops : AllSound ops) :
    ∃ s, runOps start ops = some (s, (operateAll noNames ops).2) ∧
      Shows s.priv (operateAll noNames ops).1.priv ∧ Shows s.pub (operateAll noNames ops).1.pub ∧
      {k | IsKey k ∧ (operateAll noNames ops).1.priv k ≠ none}.Finite ∧
      {k | IsKey k ∧ (operateAll noNames ops).1.pub k ≠ none}.Finite ∧
      s.taken = s.released := by
  obtain ⟨s, hrun, hs⟩ := runOps_does ops represents_start hops
  exact ⟨s, hrun, hs.priv, hs.pub, hs.priv.finite, hs.pub.finite, hs.balanced⟩

def lowerX : Name := [95, 120]

def upperX : Name := [95, 88]

def enough : Memory := ⟨true, true⟩

def publicX : List (Op ℕ) :=
  [.put (.publicly (.name lowerX)) (some (some 7)) enough, .get (.name upperX)]

theorem runOps_maps_publicX : ∃ s, runOps start publicX =
    some (s, [.status none, .value (.ok (some 7))]) ∧ s.taken = s.released := by
  obtain ⟨s, hrun, -, -, -, -, hbalanced⟩ := runOps_maps publicX
    ⟨⟨by decide, rfl⟩, ⟨by decide, rfl⟩, trivial⟩
  exact ⟨s, hrun, hbalanced⟩

/-- The text of a name given by VAR is freed before it is used, as in VAR("_x") = 7. -/
theorem var_freed : ¬ ∀ ops : List (Op ℕ), ∃ s, runOps start ops =
    some (s, (operateAll noNames ops).2) := by
  intro hall
  obtain ⟨s, hs⟩ := hall [.put (.var [] (.ok lowerX)) (some (some 7)) enough]
  have hnone : runOps start [.put (.var [] (.ok lowerX)) (some (some 7)) enough] = none := rfl
  rw [hnone] at hs
  cases hs

end MdsPlus.VariableRuns
