import MdsPlus.NamedAttributeMap
import Mathlib.Data.List.MinMax
import Mathlib.Data.List.Nodup

/-!
The list of the attribute names. It is made from the newest index page alone, and a slot
without a value is taken for one in use; so it names the attributes exactly as long as
these lie on one page and none of them is deleted.
-/

namespace MdsPlus.AttributeNames

open BitMemory ByteFile Datafile NamedAttributes NamedAttributePages NamedAttributeMap
  Outcome

variable {V : Type}

def row (longest : ℕ) (x : Name) : List Byte :=
  x.chars ++ List.replicate (longest - x.chars.length) 32

def longest (names : List Name) : ℕ := (names.map fun x => x.chars.length).foldl max 0

def answer (names : List Name) : Except Status (Found V) :=
  if names = [] then .error .failure else .ok (.names (names.map (row (longest names))))

def Lists (m : List Byte → Option V) (found : Except Status (Found V)) : Prop :=
  ∃ names : List Name, (names.map key).Nodup ∧ (∀ k, k ∈ names.map key ↔ m k ≠ none) ∧
    found = answer names

def olderSlots (names : List Name) : ℕ :=
  NAMED_ATTRIBUTES_PER_INDEX * ((names.length - 1) / NAMED_ATTRIBUTES_PER_INDEX)

def newest (names : List Name) : List Name := names.drop (olderSlots names)

def older (names : List Name) : List Name := names.take (olderSlots names)

/-- Every name of the newest page has a value, and no name of a page before it has one. -/
structure Paged (names : List Name) (m : List Byte → Option V) : Prop where
  newest : ∀ x ∈ newest names, m (key x) ≠ none
  older : ∀ x ∈ older names, m (key x) = none

/-- A name without blanks at its end, which the rows of the list keep apart from others. -/
def Unblanked (x : Name) : Prop := (key x).getLast? ≠ some 32

section Slots

variable {S : Serializer V} {f : File} {L : Layout V}

theorem index_toList (L : Layout V) (p : ℕ) :
    (L.index p).attributes.toList =
      (List.range NAMED_ATTRIBUTES_PER_INDEX).map fun i => L.slot (128 * p + i) := by
  apply List.ext_getElem
  · simp
  · intro i hi _
    simp [Layout.index]

theorem filter_range (g : ℕ → NamedAttribute) (used : NamedAttribute → Bool) {n N : ℕ}
    (hn : n ≤ N) (hused : ∀ i < N, used (g i) = true ↔ i < n) :
    ((List.range N).map g).filter used = (List.range n).map g := by
  obtain ⟨k, rfl⟩ := Nat.exists_eq_add_of_le hn
  rw [List.range_add, List.map_append, List.filter_append]
  have hfirst : ((List.range n).map g).filter used = (List.range n).map g := by
    rw [List.filter_eq_self]
    intro a ha
    obtain ⟨i, hi, rfl⟩ := List.mem_map.mp ha
    have hlt := List.mem_range.mp hi
    exact (hused i (by omega)).mpr hlt
  have hrest : (((List.range k).map (n + ·)).map g).filter used = [] := by
    rw [List.filter_eq_nil_iff]
    intro a ha htrue
    obtain ⟨j, hj, rfl⟩ := List.mem_map.mp ha
    obtain ⟨i, hi, rfl⟩ := List.mem_map.mp hj
    have hlt := List.mem_range.mp hi
    have hlow := (hused (n + i) (by omega)).mp htrue
    omega
  rw [hfirst, hrest, List.append_nil]

theorem drop_range_map (g : ℕ → Name) (k count : ℕ) :
    ((List.range count).map g).drop k = (List.range (count - k)).map fun i => g (k + i) := by
  apply List.ext_getElem
  · simp
  · intro i hi _
    simp

theorem nameField_toList {x : Name} (hx : Short x) :
    (nameField x).toList =
      x.chars ++ List.replicate (NAMED_ATTRIBUTE_NAME_SIZE - x.chars.length) 0 := by
  have hlt := hx.lt
  apply List.ext_getElem
  · simp only [Vector.length_toList, List.length_append, List.length_replicate]
    omega
  · intro i hi _
    simp only [nameField, Vector.getElem_toList, Vector.getElem_ofFn]
    by_cases hlow : i < x.chars.length
    · rw [List.getD_eq_getElem _ _ hlow, List.getElem_append_left hlow]
    · rw [List.getD_eq_default _ _ (by omega), List.getElem_append_right (by omega),
        List.getElem_replicate]

theorem strlen_nameField {x : Name} (hx : Short x) :
    ((nameField x).toList.takeWhile (· ≠ 0)).length = x.chars.length := by
  rw [nameField_toList hx, List.takeWhile_append_of_pos]
  · have hrest : (List.replicate (NAMED_ATTRIBUTE_NAME_SIZE - x.chars.length) (0 : Byte)).takeWhile
        (· ≠ 0) = [] := by simp
    rw [hrest, List.append_nil]
  · intro c hc
    have hne := x.noNul c hc
    simpa using hne

theorem row_nameField {x : Name} (hx : Short x) {w : ℕ} (hw : x.chars.length ≤ w)
    (hwide : w ≤ NAMED_ATTRIBUTE_NAME_SIZE) :
    (((nameField x).toList.take w).mapIdx fun i c => if 1 ≤ i ∧ c = 0 then 32 else c) =
      row w x := by
  have hpos := hx.pos
  rw [nameField_toList hx]
  apply List.ext_getElem
  · simp only [List.length_mapIdx, List.length_take, List.length_append, List.length_replicate,
      row]
    omega
  · intro i hi hi'
    simp only [List.getElem_mapIdx, List.getElem_take, row]
    by_cases hlow : i < x.chars.length
    · rw [List.getElem_append_left hlow, List.getElem_append_left hlow]
      have hne := x.noNul x.chars[i] (List.getElem_mem hlow)
      exact if_neg fun h => hne h.2
    · rw [List.getElem_append_right (by omega), List.getElem_append_right (by omega),
        List.getElem_replicate, List.getElem_replicate]
      exact if_pos ⟨by omega, rfl⟩

theorem length_le_longest {names : List Name} {x : Name} (h : x ∈ names) :
    x.chars.length ≤ longest names := by
  rw [longest, ← List.foldr_eq_foldl]
  exact List.le_max_of_le (List.mem_map_of_mem h) (Nat.le_refl _)

theorem longest_le {names : List Name} (h : ∀ x ∈ names, Short x) :
    longest names ≤ NAMED_ATTRIBUTE_NAME_SIZE := by
  rw [longest, ← List.foldr_eq_foldl]
  refine List.max_le_of_forall_le _ _ fun n hn => ?_
  obtain ⟨x, hx, rfl⟩ := List.mem_map.mp hn
  exact Nat.le_of_lt (h x hx).lt

theorem longest_reverse (names : List Name) : longest names.reverse = longest names := by
  rw [longest, longest, List.map_reverse, List.foldl_reverse, ← List.foldr_eq_foldl]
  congr 1
  funext a b
  exact Nat.max_comm _ _

theorem used_slots (h : Indexed S f L) {p : ℕ} (hlast : L.pages = p + 1) :
    (L.index p).attributes.toList.filter (fun a => a.name[0] ≠ 0 ∧ a.length ≠ -1) =
      (List.range (L.count - 128 * p)).map fun i => L.slot (128 * p + i) := by
  have hcount := h.count_le
  rw [index_toList]
  refine filter_range _ _ (by simp only [NAMED_ATTRIBUTES_PER_INDEX]; omega) fun i hi => ?_
  rw [decide_eq_true_eq]
  by_cases he : 128 * p + i < L.count
  · obtain ⟨hshort, hname, hplaced⟩ := h.entered _ he
    have hfirst : (L.slot (128 * p + i)).name[0] ≠ 0 := by
      have hpos := hshort.pos
      rw [hname, nameField, Vector.getElem_ofFn, ne_eq, getD_eq_zero]
      simp only
      omega
    have hlength := (getDsc_placed h none hplaced).1
    constructor
    · intro _
      omega
    · exact fun _ => ⟨hfirst, hlength⟩
  · have hempty : (L.slot (128 * p + i)).name[0] = 0 := by
      rw [h.free _ (by omega)]
      simp [emptyAttribute]
    constructor
    · exact fun hused => absurd hempty hused.1
    · intro hlt
      omega

theorem newest_names (h : Indexed S f L) {p : ℕ} (hlast : L.pages = p + 1) :
    newest L.names = (List.range (L.count - 128 * p)).map fun i => (L.entry (128 * p + i)).1 := by
  have hcount := h.count_le
  have hle := h.le_count
  have hslots : olderSlots L.names = 128 * p := by
    simp only [olderSlots, Layout.names, List.length_map, List.length_range,
      NAMED_ATTRIBUTES_PER_INDEX]
    omega
  rw [newest, hslots, Layout.names, drop_range_map]

theorem getXnciNames_eq (h : Indexed S f L) {attr : ExtendedAttributes} {p : ℕ}
    (hlast : L.pages = p + 1) (htop : getTopIndex f attr = some (L.index p)) :
    getXnciNames f attr =
      some ((newest L.names).reverse.map (row (longest (newest L.names).reverse))) := by
  have hcount := h.count_le
  have hle := h.le_count
  let g : ℕ → ℕ := fun i => 128 * p + i
  let slots := (List.range (L.count - 128 * p)).map fun i => L.slot (g i)
  have hentered : ∀ i ∈ List.range (L.count - 128 * p), Entered S L (g i) := by
    intro i hi
    have hlt := List.mem_range.mp hi
    exact h.entered _ (by simp only [g]; omega)
  have hnewest := newest_names h hlast
  have hshort : ∀ x ∈ newest L.names, Short x := by
    rw [hnewest]
    intro x hx
    obtain ⟨i, hi, rfl⟩ := List.mem_map.mp hx
    exact (hentered i hi).short
  have hlengths : (slots.map fun a => (a.name.toList.takeWhile (· ≠ 0)).length).foldl max 0 =
      longest (newest L.names) := by
    rw [longest, hnewest, List.map_map, List.map_map]
    congr 1
    refine List.map_congr_left fun i hi => ?_
    simp only [Function.comp_apply]
    rw [(hentered i hi).name, strlen_nameField (hentered i hi).short]
  have hrow : ∀ i ∈ List.range (L.count - 128 * p),
      (((L.slot (g i)).name.toList.take (longest (newest L.names))).mapIdx
        fun j c => if 1 ≤ j ∧ c = 0 then 32 else c) =
      row (longest (newest L.names)) (L.entry (g i)).1 := by
    intro i hi
    have hmem : (L.entry (g i)).1 ∈ newest L.names := by
      rw [hnewest]
      exact List.mem_map.mpr ⟨i, hi, rfl⟩
    rw [(hentered i hi).name]
    exact row_nameField (hentered i hi).short (length_le_longest hmem) (longest_le hshort)
  have hrows : slots.reverse.map (fun a => (a.name.toList.take (longest (newest L.names))).mapIdx
      fun i c => if 1 ≤ i ∧ c = 0 then 32 else c) =
      (newest L.names).reverse.map (row (longest (newest L.names))) := by
    generalize longest (newest L.names) = w at hrow ⊢
    rw [List.map_reverse, List.map_reverse, hnewest, List.map_map, List.map_map]
    exact congrArg List.reverse (List.map_congr_left hrow)
  have hne : slots ≠ [] := by
    simp only [slots, ne_eq, List.map_eq_nil_iff, List.range_eq_nil]
    omega
  have hused := used_slots h hlast
  simp only [getXnciNames, htop, hused]
  rw [if_neg hne, longest_reverse, hlengths, hrows]

end Slots

theorem treeGetXNci_names {S : Serializer V} {s : State V} {L : Layout V}
    {m : List Byte → Option V} (h : Laid S s L m) {x : Name} (hx : key x = XNCI_ATTRIBUTE_NAMES)
    (dsc : Option V) : treeGetXNci S s x dsc = answer (newest L.names).reverse := by
  have hlen : x.chars.length = 14 := by
    have hlength := congrArg List.length hx
    simpa [key, XNCI_ATTRIBUTE_NAMES] using hlength
  have hshort : nameTooLong x = false := by
    simp [nameTooLong, hlen, NAMED_ATTRIBUTE_NAME_SIZE]
  have hx' : x.chars.map tolower = XNCI_ATTRIBUTE_NAMES := hx
  have hnone : L.pages = 0 → (newest L.names).reverse = [] := by
    intro hpages
    have hcount := h.indexed.count_le
    have hnil : L.names = [] := (names_eq_nil L).mpr (by omega)
    simp [newest, hnil]
  cases hext : s.nci.extendedNci with
  | false =>
    rw [hnone (h.plain hext)]
    simp [treeGetXNci, hshort, hext, answer]
  | true =>
    obtain ⟨attr, off, hrec⟩ := h.recorded hext
    obtain ⟨hoff, hget⟩ := getRecord_attributes h hrec
    have hwork : Working S (⟨s.file, s.nci, attr, -1, false⟩ : Vars V) L m :=
      ⟨h.indexed, h.means, hrec.top⟩
    simp only [treeGetXNci, hshort, hext, Bool.false_eq_true, if_false, if_true, hget, if_pos hx']
    by_cases hpages : L.pages = 0
    · have htop : getTopIndex s.file attr = none := getTopIndex_first hwork hpages
      rw [hnone hpages]
      simp [getXnciNames, htop, answer]
    · obtain ⟨p, hp⟩ : ∃ p, L.pages = p + 1 := ⟨L.pages - 1, by omega⟩
      have htop := (getTopIndex_newest hwork (by omega)).2
      rw [hp, Nat.add_sub_cancel] at htop
      have hne : (newest L.names).reverse ≠ [] := by
        have hle := h.indexed.le_count
        rw [newest_names h.indexed hp, ne_eq, List.reverse_eq_nil_iff, List.map_eq_nil_iff,
          List.range_eq_nil]
        omega
      rw [getXnciNames_eq h.indexed hp htop, answer, if_neg hne]

/-- Names that differ by their keys, among them every one that has a value. -/
structure Covers (names : List Name) (m : List Byte → Option V) : Prop where
  nodup : (names.map key).Nodup
  mem : ∀ k, m k ≠ none → k ∈ names.map key

theorem covers_names {S : Serializer V} {f : File} {L : Layout V} {m : List Byte → Option V}
    (h : Indexed S f L) (hmeans : Means L m) : Covers L.names m where
  nodup := by
    rw [Layout.names, List.map_map]
    refine List.Nodup.map_on ?_ List.nodup_range
    intro d hd e he hkey
    exact h.distinct d e (List.mem_range.mp hd) (List.mem_range.mp he) hkey
  mem := by
    intro k hk
    rw [mem_keys]
    by_contra hno
    exact hk (hmeans.other k fun e he hkey => hno ⟨e, he, hkey⟩)

theorem older_append_newest (names : List Name) : older names ++ newest names = names :=
  List.take_append_drop _ _

section Listing

variable {names : List Name} {m : List Byte → Option V}

theorem lists_of_paged (h : Covers names m) (hpaged : Paged names m) :
    Lists m (answer (newest names).reverse) := by
  have hsplit := older_append_newest names
  refine ⟨(newest names).reverse, ?_, fun k => ?_, rfl⟩
  · have hnodup := h.nodup
    rw [← hsplit, List.map_append] at hnodup
    rw [List.map_reverse, List.nodup_reverse]
    exact hnodup.of_append_right
  · rw [List.map_reverse, List.mem_reverse]
    constructor
    · intro hk
      obtain ⟨x, hx, rfl⟩ := List.mem_map.mp hk
      exact hpaged.newest x hx
    · intro hk
      have hmem := h.mem k hk
      rw [← hsplit, List.map_append, List.mem_append] at hmem
      rcases hmem with hold | hnew
      · obtain ⟨x, hx, rfl⟩ := List.mem_map.mp hold
        exact absurd (hpaged.older x hx) hk
      · exact hnew

theorem tolower_eq_blank (c : Byte) : tolower c = 32 ↔ c = 32 := by
  have hall : ∀ c : BitVec 8, tolower c = 32 ↔ c = 32 := by decide +kernel
  exact hall c

theorem unblanked_iff (x : Name) : Unblanked x ↔ x.chars.getLast? ≠ some 32 := by
  rw [Unblanked, key, List.getLast?_map]
  cases hlast : x.chars.getLast? with
  | none => simp
  | some c => simpa using not_congr (tolower_eq_blank c)

theorem eq_of_filled {xs ys : List Byte} {a b : ℕ} (hx : xs.getLast? ≠ some 32)
    (hy : ys.getLast? ≠ some 32)
    (h : xs ++ List.replicate a (32 : Byte) = ys ++ List.replicate b 32) : xs = ys := by
  have hblank : ∀ {zs : List Byte} {n k : ℕ},
      List.replicate n (32 : Byte) = zs ++ List.replicate k 32 →
      ∀ {us : List Byte}, (us ++ zs).getLast? ≠ some 32 → zs = [] := by
    intro zs n k hzs us hlast
    by_contra hne
    have hmem : zs.getLast hne ∈ List.replicate n (32 : Byte) := by
      rw [hzs]
      exact List.mem_append_left _ (List.getLast_mem hne)
    have hval := List.eq_of_mem_replicate hmem
    rw [List.getLast?_append_of_ne_nil _ hne, List.getLast?_eq_some_getLast hne, hval] at hlast
    exact hlast rfl
  rcases List.append_eq_append_iff.mp h with ⟨zs, rfl, hzs⟩ | ⟨zs, rfl, hzs⟩
  · rw [hblank hzs hy, List.append_nil]
  · rw [hblank hzs hx, List.append_nil]

theorem answer_inj {names' : List Name}
    (h : (answer names : Except Status (Found V)) = answer names') :
    names.map (row (longest names)) = names'.map (row (longest names')) := by
  simp only [answer] at h
  by_cases hnil : names = []
  · by_cases hnil' : names' = []
    · rw [hnil, hnil']
    · rw [if_pos hnil, if_neg hnil'] at h
      cases h
  · by_cases hnil' : names' = []
    · rw [if_neg hnil, if_pos hnil'] at h
      cases h
    · rw [if_neg hnil, if_neg hnil'] at h
      simpa using h

theorem paged_of_lists (h : Covers names m) (hblank : ∀ x ∈ names, Unblanked x)
    (hlists : Lists m (answer (newest names).reverse)) : Paged names m := by
  obtain ⟨listed, hnodup, hset, hanswer⟩ := hlists
  have hrows := answer_inj hanswer
  have hsplit := older_append_newest names
  have hnewest : ∀ x ∈ newest names, x ∈ names :=
    fun x hx => List.mem_of_mem_drop hx
  -- what is listed has a value, so it has a slot, and no blanks at its end
  have hlisted : ∀ y ∈ listed, Unblanked y := by
    intro y hy
    have hmem := h.mem _ ((hset _).mp (List.mem_map_of_mem hy))
    obtain ⟨z, hz, hkey⟩ := List.mem_map.mp hmem
    rw [Unblanked, ← hkey]
    exact hblank z hz
  have hsame : ∀ x ∈ newest names, ∀ y ∈ listed, ∀ w v, row w x = row v y → key x = key y := by
    intro x hx y hy w v hrow
    have hchars := eq_of_filled ((unblanked_iff x).mp (hblank x (hnewest x hx)))
      ((unblanked_iff y).mp (hlisted y hy)) hrow
    rw [key, key, hchars]
  constructor
  · intro x hx
    have hmem : row (longest (newest names).reverse) x ∈
        (newest names).reverse.map (row (longest (newest names).reverse)) :=
      List.mem_map_of_mem (List.mem_reverse.mpr hx)
    rw [hrows] at hmem
    obtain ⟨y, hy, hrow⟩ := List.mem_map.mp hmem
    rw [hsame x hx y hy _ _ hrow.symm]
    exact (hset _).mp (List.mem_map_of_mem hy)
  · intro x hx
    by_contra hvalue
    obtain ⟨y, hy, hkey⟩ := List.mem_map.mp ((hset _).mpr hvalue)
    have hmem : row (longest listed) y ∈ listed.map (row (longest listed)) :=
      List.mem_map_of_mem hy
    rw [← hrows] at hmem
    obtain ⟨z, hz, hrow⟩ := List.mem_map.mp hmem
    have hz' := List.mem_reverse.mp hz
    have hzx : key z = key x := (hsame z hz' y hy _ _ hrow).trans hkey
    have hdisjoint := h.nodup
    rw [← hsplit, List.map_append] at hdisjoint
    exact List.disjoint_of_nodup_append hdisjoint (List.mem_map_of_mem hx)
      (hzx ▸ List.mem_map_of_mem hz')

end Listing

/-- The map and the names with a slot after one call, on a node that had extended
attributes at the start or not. -/
def account (extended : Bool) (p : (List Byte → Option V) × List Name) (op : Name × Option V) :
    (List Byte → Option V) × List Name :=
  (assign p.1 op, slotNames extended p.2 op)

theorem account_foldl (extended : Bool) (ops : List (Name × Option V))
    (m : List Byte → Option V) (names : List Name) :
    ops.foldl (account extended) (m, names) =
      (ops.foldl assign m, ops.foldl (slotNames extended) names) := by
  induction ops generalizing m names with
  | nil => rfl
  | cons op ops ih => exact ih _ _

theorem slotNames_of_ne_nil {names : List Name} (h : names ≠ []) (a b : Bool)
    (op : Name × Option V) : slotNames a names op = slotNames b names op := by
  simp [slotNames, h]

theorem eq_nil_of_slotNames {extended : Bool} {names : List Name} {op : Name × Option V}
    (h : slotNames extended names op = []) : names = [] := by
  rw [slotNames] at h
  split at h
  · exact h
  · simp at h

theorem laid_run (S : Serializer V) (s : State V) (ops : List (Name × Option V))
    (hstart : Unnamed s) (hfits : Admissible (setOp S) (Fits S) s ops) :
    ∃ s' L, run (setOp S) s ops = .ok s' ∧ Laid S s' L (ops.foldl assign fun _ => none) ∧
      L.names = ops.foldl (slotNames s.nci.extendedNci) [] := by
  let rel : State V → (List Byte → Option V) × List Name → Prop := fun t p =>
    ∃ L, Laid S t L p.1 ∧ L.names = p.2 ∧
      (p.2 = [] → t.nci.extendedNci = s.nci.extendedNci)
  have hstep : ∀ t p op, rel t p → Fits S t op →
      ∃ t', setOp S t op = .ok t' ∧ rel t' (account s.nci.extendedNci p op) := by
    rintro t ⟨m, names⟩ op ⟨L, hlaid, rfl, hext⟩ hfit
    obtain ⟨t', L', hset, hlaid', _, hnames, hext'⟩ :=
      treeSetXNci_spec hlaid hfit.short hfit.room hfit.value
    have hslots : L'.names = slotNames s.nci.extendedNci L.names op := by
      by_cases hnil : L.names = []
      · rw [hnames, hext hnil]
      · rw [hnames, slotNames_of_ne_nil hnil _ s.nci.extendedNci]
    refine ⟨t', hset, L', hlaid', hslots, fun hnil => ?_⟩
    have hold := hext (eq_nil_of_slotNames hnil)
    exact (hext' (hslots.trans hnil)).trans hold
  have hrel : rel s (fun _ => none, []) := by
    obtain ⟨L, hlaid, hnames⟩ := laid_unnamed hstart
    exact ⟨L, hlaid, hnames, fun _ => rfl⟩
  obtain ⟨s', hrun, L, hlaid, hnames, _⟩ := run_simulates hstep s _ ops hrel hfits
  simp only [account_foldl] at hlaid hnames
  exact ⟨s', L, hrun, hlaid, hnames⟩

theorem treeGetXNci_names_run (S : Serializer V) (s : State V) (ops : List (Name × Option V))
    (hstart : Unnamed s) (hfits : Admissible (setOp S) (Fits S) s ops) :
    ∃ s', run (setOp S) s ops = .ok s' ∧
      let m := ops.foldl assign fun _ => none
      let names := ops.foldl (slotNames s.nci.extendedNci) []
      Covers names m ∧ ∀ x dsc, key x = XNCI_ATTRIBUTE_NAMES →
        treeGetXNci S s' x dsc = answer (newest names).reverse := by
  obtain ⟨s', L, hrun, hlaid, hnames⟩ := laid_run S s ops hstart hfits
  refine ⟨s', hrun, ?_, fun x dsc hx => ?_⟩
  · rw [← hnames]
    exact covers_names hlaid.indexed hlaid.means
  · rw [← hnames]
    exact treeGetXNci_names hlaid hx dsc

/-- After any run of sets and deletes the list is right when every name on the newest page
has a value and no name on a page before it has one; and only then, as far as no name
ends with a blank. -/
theorem names_listed_iff (S : Serializer V) (s : State V) (ops : List (Name × Option V))
    (hstart : Unnamed s) (hfits : Admissible (setOp S) (Fits S) s ops) :
    ∃ s', run (setOp S) s ops = .ok s' ∧
      let m := ops.foldl assign fun _ => none
      let names := ops.foldl (slotNames s.nci.extendedNci) []
      ∀ x dsc, key x = XNCI_ATTRIBUTE_NAMES →
        (Paged names m → Lists m (treeGetXNci S s' x dsc)) ∧
        ((∀ y ∈ names, Unblanked y) → Lists m (treeGetXNci S s' x dsc) → Paged names m) := by
  obtain ⟨s', hrun, hcovers, hanswer⟩ := treeGetXNci_names_run S s ops hstart hfits
  refine ⟨s', hrun, fun x dsc hx => ?_⟩
  rw [hanswer x dsc hx]
  exact ⟨lists_of_paged hcovers, paged_of_lists hcovers⟩

def alpha : Name := name [97, 108, 112, 104, 97]

def capitals : Name := name [65, 76, 80, 72, 65]

theorem short_alpha : Short alpha ∧ Short capitals :=
  ⟨⟨by decide, by decide⟩, ⟨by decide, by decide⟩⟩

/-- "alpha" set and then "ALPHA": one name is listed. -/
theorem alpha_listed :
    ∃ s', run (setOp oneByte) emptyNode [(alpha, some 7), (capitals, some 9)] = .ok s' ∧
      Lists (assign (assign (fun _ => none) (alpha, some 7)) (capitals, some 9))
        (treeGetXNci oneByte s' (name XNCI_ATTRIBUTE_NAMES) none) := by
  obtain ⟨s', hrun, hlists⟩ := names_listed_iff oneByte emptyNode _ unnamed_emptyNode
    (fits_two short_alpha.1 short_alpha.2 (some 7) (some 9))
  refine ⟨s', hrun, (hlists (name XNCI_ATTRIBUTE_NAMES) none (by decide)).1 ⟨?_, nofun⟩⟩
  have hknown : key capitals ∈ [alpha].map key := by decide
  have hnewest : newest (slotNames false [alpha] (capitals, some (9 : Byte))) = [alpha] := by
    rw [slotNames_known hknown]
    rfl
  intro x hx
  have hmem : x ∈ [alpha] := hnewest ▸ hx
  rw [List.mem_singleton.mp hmem]
  decide

theorem deleted_name_listed :
    ∃ s', run (setOp oneByte) emptyNode [(alpha, some 7), (alpha, none)] = .ok s' ∧
      treeGetXNci oneByte s' (name XNCI_ATTRIBUTE_NAMES) none = .ok (.names [alpha.chars]) ∧
      ¬ Lists (assign (assign (fun _ => none) (alpha, some 7)) (alpha, none))
        (treeGetXNci oneByte s' (name XNCI_ATTRIBUTE_NAMES) none) := by
  obtain ⟨s', hrun, _, hanswer⟩ := treeGetXNci_names_run oneByte emptyNode _ unnamed_emptyNode
    (fits_two short_alpha.1 short_alpha.1 (some 7) none)
  have hrows : treeGetXNci oneByte s' (name XNCI_ATTRIBUTE_NAMES) none =
      .ok (.names [alpha.chars]) := hanswer (name XNCI_ATTRIBUTE_NAMES) none (by decide)
  refine ⟨s', hrun, hrows, ?_⟩
  rw [hrows]
  rintro ⟨names, _, hset, hlist⟩
  -- no name has a value any more, so only the failure would be right
  have hnil : names = [] := by
    rw [← List.map_eq_nil_iff (f := key), List.eq_nil_iff_forall_not_mem]
    intro k hk
    refine (hset k).mp hk ?_
    by_cases hkey : k = key alpha
    · rw [hkey, assign, Function.update_self]
    · rw [assign, assign, Function.update_of_ne hkey, Function.update_of_ne hkey]
  rw [hnil] at hlist
  cases hlist

end MdsPlus.AttributeNames
