import MdsPlus.NamedAttributePages

/-!
Over any run of sets and deletes the attributes of a node are a finite map from
names without regard to case. The name of the list of names is reserved when reading.
-/

namespace MdsPlus.NamedAttributeMap

open BitMemory ByteFile Datafile NamedAttributes NamedAttributePages Outcome

variable {V : Type}

/-- What set_xnci works on, with the pages in its file. -/
structure Working (S : Serializer V) (vars : Vars V) (L : Layout V)
    (m : List Byte → Option V) : Prop where
  indexed : Indexed S vars.file L
  means : Means L m
  top : vars.attr.facilityOffset[NAMED_ATTRIBUTES_FACILITY] = L.top

/-- What entering a name leaves alone. -/
structure Kept (vars vars' : Vars V) (L L' : Layout V) : Prop where
  attributes : L'.cells .attributes = L.cells .attributes
  nci : vars'.nci = vars.nci
  attrOffset : vars'.attrOffset = vars.attrOffset
  size : vars'.file.size ≤ vars.file.size + namedAttributesIndex.size
  update : vars'.attrUpdate = true ∨ vars'.attr = vars.attr ∧ vars'.attrUpdate = vars.attrUpdate
  first : L.pages = 0 → vars'.attrUpdate = true

variable {S : Serializer V} {L : Layout V} {m : List Byte → Option V} {x : Name}
  {offset : Offset} {length : BitVec 32} {value : Option V}

theorem placed_length_eq_zero {cells : Key → Option Cell} (h : Placed S cells offset length value) :
    length = 0 ↔ value = none := by
  cases value with
  | none => simp [h.2]
  | some v =>
    obtain ⟨off, bytes, hcell, hread, hoff, hlen, hpos, hlt⟩ := h
    simp only [reduceCtorEq, iff_false]
    intro hzero
    have hval := congrArg BitVec.toNat (hlen.symm.trans hzero)
    rw [BitVec.toNat_ofNat, Nat.mod_eq_of_lt (by omega)] at hval
    have : (0 : BitVec 32).toNat = 0 := rfl
    omega

theorem getTopIndex_first {vars : Vars V} (h : Working S vars L m) (hpages : L.pages = 0) :
    getTopIndex vars.file vars.attr = none := by
  rw [getTopIndex, if_pos (by rw [h.top, Layout.top, if_pos hpages])]

theorem getTopIndex_newest {vars : Vars V} (h : Working S vars L m) (hpages : 0 < L.pages) :
    vars.attr.facilityOffset[NAMED_ATTRIBUTES_FACILITY] =
        BitVec.ofNat 64 (L.pageOff (L.pages - 1)) ∧
      getTopIndex vars.file vars.attr = some (L.index (L.pages - 1)) := by
  have hlast : L.pages - 1 < L.pages := by omega
  have htop := h.top
  rw [Layout.top, if_neg (by omega)] at htop
  have hlt := h.indexed.size_lt (h.indexed.page _ hlast)
  have hne : BitVec.ofNat 64 (L.pageOff (L.pages - 1)) ≠ -1 :=
    ofNat_ne_neg_one (by simp only at hlt; omega)
  refine ⟨htop, ?_⟩
  rw [getTopIndex, htop, if_neg hne, h.indexed.getRecord_page hlast]

theorem putRecord_page {f : File} (h : Indexed S f L) {q : ℕ} (hq : q < L.pages)
    (index : NamedAttributesIndex) :
    putRecord namedAttributesIndex f (BitVec.ofNat 64 (L.pageOff q)) index =
      (f.write (L.pageOff q) (namedAttributesIndex.encode index),
        BitVec.ofNat 64 (L.pageOff q)) := by
  have hlt := h.size_lt (h.page q hq)
  exact writeProperty_at _ (by simp only at hlt; omega) _

theorem means_absent (h : Means L m) (hnew : ∀ d < L.count, key (L.entry d).1 ≠ key x) :
    Function.update m (key x) none = m := by
  have habsent := h.other (key x) hnew
  rw [← habsent, Function.update_eq_self]

theorem working_addPage {vars : Vars V} (h : Working S vars L m) (hx : Short x)
    (hplaced : Placed S L.cells offset length value)
    (hroom : vars.file.size + namedAttributesIndex.size ≤ rfaLimit)
    (hfull : L.count = 128 * L.pages)
    (hnew : ∀ d < L.count, key (L.entry d).1 ≠ key x) :
    let a : NamedAttribute := ⟨nameField x, offset, length⟩
    let vars' : Vars V := { vars with
      file := vars.file.write vars.file.size (namedAttributesIndex.encode (newIndex L.top a))
      attr := { vars.attr with
        facilityOffset := vars.attr.facilityOffset.set NAMED_ATTRIBUTES_FACILITY
          (BitVec.ofNat 64 vars.file.size) named_lt }
      attrUpdate := true }
    let L' := L.addPage vars.file.size a x value
    Working S vars' L' (Function.update m (key x) value) ∧ Kept vars vars' L L' := by
  intro a vars' L'
  obtain ⟨hsize, hindexed⟩ := h.indexed.addPage hfull hroom a x value hx rfl hplaced hnew
  have hmeans := h.means.enter (Nat.le_refl _) a x value (fun hlt => absurd hlt (by omega))
    fun d hd _ => hnew d hd
  refine ⟨⟨hindexed, ⟨hmeans.entry, hmeans.other⟩, ?_⟩, ?_, rfl, rfl, ?_, Or.inl rfl, fun _ => rfl⟩
  · simp [vars', L', Layout.top, Layout.addPage]
  · exact addPage_cells L vars.file.size a x value (by rintro ⟨⟩)
  · exact Nat.le_of_eq hsize

theorem working_storeSlot {vars : Vars V} (h : Working S vars L m) {q : ℕ} (hq : q < L.pages)
    (i : Fin NAMED_ATTRIBUTES_PER_INDEX) (he : 128 * q + i.val ≤ L.count)
    (a : NamedAttribute) (y : Name) (hy : Short y) (ha : a.name = nameField y)
    (hkey : key y = key x) (hplaced : Placed S L.cells a.offset a.length value)
    (hold : 128 * q + i.val < L.count → key (L.entry (128 * q + i)).1 = key y)
    (hnew : ∀ d < L.count, d ≠ 128 * q + i.val → key (L.entry d).1 ≠ key y) :
    let vars' : Vars V := { vars with
      file := vars.file.write (L.pageOff q)
        (namedAttributesIndex.encode ((L.index q).store i a)) }
    let L' := L.storeSlot q i a y value
    Working S vars' L' (Function.update m (key x) value) ∧ Kept vars vars' L L' := by
  intro vars' L'
  obtain ⟨hsize, hindexed⟩ := h.indexed.storeSlot hq i he a y value hy ha hplaced hnew
  have hmeans := h.means.enter he a y value hold hnew
  rw [hkey] at hmeans
  refine ⟨⟨hindexed, ⟨hmeans.entry, hmeans.other⟩, h.top⟩, ?_, rfl, rfl, ?_, Or.inr ⟨rfl, rfl⟩, ?_⟩
  · exact storeSlot_cells L q i a y value nofun
  · simp only [vars', hsize]
    omega
  · intro hzero
    omega

theorem setIndex_spec {vars : Vars V} (h : Working S vars L m) (hx : Short x)
    (hplaced : Placed S L.cells offset length value)
    (hroom : vars.file.size + namedAttributesIndex.size ≤ rfaLimit) :
    ∃ vars' L', setIndex vars x offset length = .ok vars' ∧
      Working S vars' L' (Function.update m (key x) value) ∧ Kept vars vars' L L' ∧
      L'.names = slotNames true L.names (x, value) := by
  by_cases hpages : L.pages = 0
  · have hcount := h.indexed.count_le
    have htop : L.top = -1 := by rw [Layout.top, if_pos hpages]
    have hpage := working_addPage h hx hplaced hroom (by omega) fun d hd => by omega
    rw [htop] at hpage
    have hnil : L.names = [] := (names_eq_nil L).mpr (by omega)
    have hnot : key x ∉ L.names.map key := by rw [hnil]; exact List.not_mem_nil
    refine ⟨_, _, ?_, hpage.1, hpage.2, ?_⟩
    · simp only [setIndex, getTopIndex_first h hpages, putRecord, writeProperty_append]
    · rw [slotNames_new hnot (Or.inr ⟨hnil, rfl⟩)]
      exact names_enter_new L ⟨nameField x, offset, length⟩ x value
  · have hlast : L.pages - 1 < L.pages := by omega
    obtain ⟨htop, hget⟩ := getTopIndex_newest h (by omega)
    have hfuel := h.indexed.pages_le_size
    rcases h.indexed.search_eq hx (L.pages - 1) (vars.file.size + 1) hlast (by omega) with
      ⟨q, i, hq, hsearch, he, hkey⟩ | ⟨hsearch, hnew⟩
    · -- the name has a slot
      obtain ⟨hshort, hname, _⟩ := h.indexed.entered _ he
      have hslot := working_storeSlot h hq i (by omega)
        { L.slot (128 * q + i) with offset, length } (L.entry (128 * q + i)).1 hshort hname hkey
        hplaced (fun _ => rfl) fun d hd hne heq => hne (h.indexed.distinct _ _ hd he heq)
      refine ⟨_, _, ?_, hslot.1, hslot.2, ?_⟩
      · simp only [setIndex, hget, htop, hsearch, bind, Except.bind, index_attributes,
          putRecord_page h.indexed hq]
      · rw [slotNames_known ((mem_keys L _).mpr ⟨_, he, hkey⟩)]
        exact names_enter_old L he { L.slot (128 * q + i) with offset, length } value
    · have hnew' : ∀ d < L.count, key (L.entry d).1 ≠ key x := by
        have hcount := h.indexed.count_le
        exact fun d hd => hnew d (by omega) hd
      have hnot : key x ∉ L.names.map key := by
        rw [mem_keys]
        rintro ⟨d, hd, hkey⟩
        exact hnew' d hd hkey
      by_cases hzero : length = 0
      · rw [(placed_length_eq_zero hplaced).mp hzero, means_absent h.means hnew']
        have hcount := h.indexed.le_count
        have hne : L.names ≠ [] := by
          rw [ne_eq, names_eq_nil]
          omega
        refine ⟨vars, L, ?_, h, ⟨rfl, rfl, rfl, by omega, Or.inr ⟨rfl, rfl⟩, fun h0 => by omega⟩,
          (slotNames_delete (Or.inl hne)).symm⟩
        simp only [setIndex, hget, htop, hsearch, bind, Except.bind, hzero, if_pos]
      · have hsome : value.isSome = true := by
          rw [Option.isSome_iff_ne_none]
          exact fun hnone => hzero ((placed_length_eq_zero hplaced).mpr hnone)
        rw [slotNames_new hnot (Or.inl hsome)]
        rcases h.indexed.freeSlot_eq (by omega) with ⟨i, hfree, he⟩ | ⟨hfree, hfull⟩
        · have hslot := working_storeSlot h hlast i (by omega) ⟨nameField x, offset, length⟩ x hx
            rfl rfl hplaced (fun hlt => by omega) fun d hd _ => hnew' d hd
          have hnames := names_enter_new L ⟨nameField x, offset, length⟩ x value
          rw [← he] at hnames
          refine ⟨_, _, ?_, hslot.1, hslot.2, hnames⟩
          have hsame : vars.attr.facilityOffset.set NAMED_ATTRIBUTES_FACILITY
              (BitVec.ofNat 64 (L.pageOff (L.pages - 1))) = vars.attr.facilityOffset := by
            rw [← htop]
            exact Vector.set_getElem_self _
          simp only [setIndex, hget, htop, hsearch, bind, Except.bind, hzero, if_false, hfree,
            putRecord_page h.indexed hlast, hsame]
        · have hpage := working_addPage h hx hplaced hroom hfull hnew'
          rw [← h.top, htop] at hpage
          refine ⟨_, _, ?_, hpage.1, hpage.2,
            names_enter_new L ⟨nameField x, offset, length⟩ x value⟩
          simp only [setIndex, hget, htop, hsearch, bind, Except.bind, hzero, if_false, hfree,
            putRecord, writeProperty_append]

def valueSize (S : Serializer V) (compress : ℤ) : Option V → ℕ
  | some v => (S.serializeOut compress v).length
  | none => 0

/-- The ordinary value that set_xnci moves. -/
def oldValue : OldRecord V → Option V
  | .empty => none
  | .inAttBlock v => some v
  | .inDatafile value => value

theorem keep_facility (attr : ExtendedAttributes) (offset : Offset) :
    (attr.facilityOffset.set STANDARD_RECORD_FACILITY offset
        standard_lt)[NAMED_ATTRIBUTES_FACILITY] =
      attr.facilityOffset[NAMED_ATTRIBUTES_FACILITY] := by
  simp [NAMED_ATTRIBUTES_FACILITY, STANDARD_RECORD_FACILITY]

theorem keepOldRecord_spec {vars : Vars V} (h : Working S vars L m)
    (hplaced : Placed S L.cells offset length value)
    (hroom : vars.file.size + valueSize S vars.nci.compress (oldValue vars.nci.oldRecord) ≤
      rfaLimit) :
    ∃ L', Working S (keepOldRecord S vars) L' m ∧ Placed S L'.cells offset length value ∧
      L'.pages = L.pages ∧ L'.names = L.names ∧
      (keepOldRecord S vars).attrOffset = vars.attrOffset ∧
      (keepOldRecord S vars).file.size ≤
        vars.file.size + valueSize S vars.nci.compress (oldValue vars.nci.oldRecord) := by
  have hkeep : ∀ v, oldValue vars.nci.oldRecord = some v →
      let bytes := S.serializeOut vars.nci.compress v
      let L' := L.addValue vars.file.size bytes
      Indexed S (vars.file.write vars.file.size bytes) L' ∧
        Placed S L'.cells offset length value ∧
        (vars.file.write vars.file.size bytes).size ≤
          vars.file.size + valueSize S vars.nci.compress (oldValue vars.nci.oldRecord) := by
    intro v hv bytes L'
    rw [hv] at hroom ⊢
    obtain ⟨hsize, hindexed, _⟩ := h.indexed.addValue vars.nci.compress v hroom
    exact ⟨hindexed, h.indexed.placed_append _ hplaced, Nat.le_of_eq hsize⟩
  have hstay : Working S vars L m ∧ Placed S L.cells offset length value ∧ L.pages = L.pages ∧
      L.names = L.names ∧ vars.attrOffset = vars.attrOffset ∧
      vars.file.size ≤
        vars.file.size + valueSize S vars.nci.compress (oldValue vars.nci.oldRecord) :=
    ⟨h, hplaced, rfl, rfl, rfl, Nat.le_add_right _ _⟩
  by_cases hext : vars.nci.extendedNci = true
  · rw [keepOldRecord, if_pos hext]
    exact ⟨L, hstay⟩
  · cases hold : vars.nci.oldRecord with
    | empty =>
      simp only [keepOldRecord, hext, hold]
      rw [hold] at hstay
      exact ⟨L, hstay⟩
    | inAttBlock v =>
      obtain ⟨hindexed, hplaced', hsize⟩ := hkeep v (by rw [hold]; rfl)
      rw [hold] at hsize
      simp only [keepOldRecord, hext, hold, putDsc, writeProperty_append]
      exact ⟨L.addValue vars.file.size (S.serializeOut vars.nci.compress v),
        ⟨hindexed, ⟨h.means.entry, h.means.other⟩, (keep_facility _ _).trans h.top⟩,
        hplaced', rfl, rfl, rfl, hsize⟩
    | inDatafile old =>
      cases old with
      | none =>
        simp only [keepOldRecord, hext, hold]
        rw [hold] at hstay
        exact ⟨L, ⟨h.indexed, h.means, h.top⟩, hstay.2⟩
      | some v =>
        obtain ⟨hindexed, hplaced', hsize⟩ := hkeep v (by rw [hold]; rfl)
        rw [hold] at hsize
        simp only [keepOldRecord, hext, hold, putDsc, writeProperty_append]
        exact ⟨L.addValue vars.file.size (S.serializeOut vars.nci.compress v),
          ⟨hindexed, ⟨h.means.entry, h.means.other⟩, (keep_facility _ _).trans h.top⟩,
          hplaced', rfl, rfl, rfl, hsize⟩

structure Recorded (nci : Nci V) (L : Layout V) (attr : ExtendedAttributes) (off : ℕ) : Prop where
  cell : L.cells .attributes = some ⟨off, extendedAttributes.encode attr⟩
  rfa : rfaToSeek nci.rfa = BitVec.ofNat 64 off
  top : attr.facilityOffset[NAMED_ATTRIBUTES_FACILITY] = L.top

/-- A node whose attributes stand for the map. -/
structure Laid (S : Serializer V) (s : State V) (L : Layout V) (m : List Byte → Option V) :
    Prop where
  indexed : Indexed S s.file L
  means : Means L m
  recorded : s.nci.extendedNci = true → ∃ attr off, Recorded s.nci L attr off
  plain : s.nci.extendedNci = false → L.pages = 0

theorem getRecord_attributes {s : State V} (h : Laid S s L m) {attr : ExtendedAttributes}
    {off : ℕ} (hrec : Recorded s.nci L attr off) :
    off < rfaLimit ∧ getRecord extendedAttributes s.file (rfaToSeek s.nci.rfa) = some attr := by
  have hholds := h.indexed.stores.holds _ _ hrec.cell
  have hin := hholds.inside
  have hsmall := h.indexed.small
  rw [extendedAttributes.length_encode] at hin
  have hpos : 0 < extendedAttributes.size := by decide
  have hoff : off < rfaLimit := by
    simp only at hin
    omega
  refine ⟨hoff, ?_⟩
  rw [hrec.rfa]
  exact getRecord_eq _ hholds (Nat.lt_trans hoff (by simp only [rfaLimit]; omega))

def room (S : Serializer V) (s : State V) (value : Option V) : ℕ :=
  valueSize S s.nci.compress value + valueSize S s.nci.compress (oldValue s.nci.oldRecord) +
    namedAttributesIndex.size + extendedAttributes.size

theorem putValue_spec {vars : Vars V} (h : Working S vars L m) (value : Option V)
    (hroom : vars.file.size + valueSize S vars.nci.compress value ≤ rfaLimit)
    (hvalue : valueSize S vars.nci.compress value < 2 ^ 31) :
    ∃ file offset length L',
      putValue S vars value = (file, offset, length) ∧
      Working S { vars with file } L' m ∧ Placed S L'.cells offset length value ∧
      L'.pages = L.pages ∧ L'.names = L.names ∧
      L'.cells .attributes = L.cells .attributes ∧
      file.size = vars.file.size + valueSize S vars.nci.compress value := by
  cases value with
  | none => exact ⟨vars.file, -1, 0, L, rfl, h, ⟨rfl, rfl⟩, rfl, rfl, rfl, rfl⟩
  | some v =>
    obtain ⟨hsize, hindexed, hplaced⟩ := h.indexed.addValue vars.nci.compress v hroom
    let bytes := S.serializeOut vars.nci.compress v
    refine ⟨vars.file.write vars.file.size bytes, BitVec.ofNat 64 vars.file.size,
      BitVec.ofNat 32 bytes.length, L.addValue vars.file.size bytes, ?_,
      ⟨hindexed, ⟨h.means.entry, h.means.other⟩, h.top⟩, hplaced hvalue, rfl, rfl, ?_,
      hsize⟩
    · simp only [putValue, putDsc, writeProperty_append, bytes]
    · exact addValue_cells L vars.file.size _ nofun

theorem setXnci_extended {vars : Vars V} (h : Working S vars L m) (hx : Short x)
    (hroom : vars.file.size + valueSize S vars.nci.compress value + namedAttributesIndex.size ≤
      rfaLimit)
    (hvalue : valueSize S vars.nci.compress value < 2 ^ 31)
    (hoff : vars.attrOffset ≠ -1) (hrfa : rfaToSeek vars.nci.rfa = vars.attrOffset) :
    ∃ vars' L', setXnci S vars x value = .ok vars' ∧
      Working S vars' L' (Function.update m (key x) value) ∧
      L'.cells .attributes = L.cells .attributes ∧ vars'.nci = vars.nci ∧
      vars'.attrOffset = vars.attrOffset ∧
      vars'.file.size ≤ vars.file.size + valueSize S vars.nci.compress value +
        namedAttributesIndex.size ∧
      (vars'.attrUpdate = true ∨ vars'.attr = vars.attr) ∧
      L'.names = slotNames true L.names (x, value) := by
  obtain ⟨file, offset, length, L1, hput, hwork1, hplaced, _, hnames1, hattr1, hsize1⟩ :=
    putValue_spec h value (by omega) hvalue
  obtain ⟨vars', L', hset, hwork', hkept, hnames⟩ := setIndex_spec hwork1 hx hplaced (by
    simp only [hsize1]
    exact hroom)
  rw [hnames1] at hnames
  refine ⟨vars', L', ?_, hwork', hkept.attributes.trans hattr1, hkept.nci, hkept.attrOffset, ?_, ?_,
    hnames⟩
  · simp only [setXnci, hput, hrfa, if_neg hoff]
    exact hset
  · have hsize := hkept.size
    simp only [hsize1] at hsize
    exact hsize
  · rcases hkept.update with hupdate | ⟨hsame, _⟩
    · exact Or.inl hupdate
    · exact Or.inr hsame

theorem setXnci_plain {vars : Vars V} (h : Working S vars L m) (hx : Short x)
    (hroom : vars.file.size + valueSize S vars.nci.compress value +
      valueSize S vars.nci.compress (oldValue vars.nci.oldRecord) + namedAttributesIndex.size ≤
      rfaLimit)
    (hvalue : valueSize S vars.nci.compress value < 2 ^ 31)
    (hoff : vars.attrOffset = -1) (hpages : L.pages = 0) :
    (setXnci S vars x value = .ok vars ∧ Function.update m (key x) value = m ∧
      slotNames false L.names (x, value) = L.names) ∨
    ∃ vars' L', setXnci S vars x value = .ok vars' ∧
      Working S vars' L' (Function.update m (key x) value) ∧
      vars'.attrOffset = -1 ∧ vars'.attrUpdate = true ∧
      vars'.file.size ≤ vars.file.size + valueSize S vars.nci.compress value +
        valueSize S vars.nci.compress (oldValue vars.nci.oldRecord) +
        namedAttributesIndex.size ∧
      L'.names ≠ [] ∧ L'.names = slotNames false L.names (x, value) := by
  obtain ⟨file, offset, length, L1, hput, hwork1, hplaced, hpages1, hnames1, _, hsize1⟩ :=
    putValue_spec h value (by omega) hvalue
  by_cases hzero : length = 0
  · left
    have hnone := (placed_length_eq_zero hplaced).mp hzero
    have hcount := h.indexed.count_le
    subst hnone
    refine ⟨?_, means_absent h.means fun d hd => by omega, slotNames_delete (Or.inr rfl)⟩
    simp only [setXnci, putValue, if_pos hoff, if_pos]
  · right
    have hsome : value.isSome = true := by
      rw [Option.isSome_iff_ne_none]
      exact fun hnone => hzero ((placed_length_eq_zero hplaced).mpr hnone)
    have hcount := h.indexed.count_le
    have hnil : L.names = [] := (names_eq_nil L).mpr (by omega)
    have hnot : key x ∉ L.names.map key := by rw [hnil]; exact List.not_mem_nil
    obtain ⟨L2, hwork2, hplaced2, hpages2, hnames2, hoff2, hsize2⟩ :=
      keepOldRecord_spec hwork1 hplaced (by
        simp only [hsize1]
        omega)
    simp only [hsize1] at hsize2
    obtain ⟨vars', L', hset, hwork', hkept, hnames⟩ := setIndex_spec hwork2 hx hplaced2 (by omega)
    rw [hnames2, hnames1, slotNames_new hnot (Or.inl hsome)] at hnames
    have hentered : L'.names = slotNames false L.names (x, value) := by
      rw [slotNames_new hnot (Or.inl hsome)]
      exact hnames
    have hne : L'.names ≠ [] := by rw [hnames]; exact List.append_ne_nil_of_right_ne_nil _ nofun
    refine ⟨vars', L', ?_, hwork', ?_, ?_, ?_, hne, hentered⟩
    · simp only [setXnci, hput, if_pos hoff, if_neg hzero]
      exact hset
    · rw [hkept.attrOffset, hoff2]
      exact hoff
    · exact hkept.first (hpages2.trans (hpages1.trans hpages))
    · have hsize := hkept.size
      omega

/-- The record of the attributes written, at its old or a new place. -/
def withAttributes (L : Layout V) (c : Cell) : Layout V :=
  { L with cells := Function.update L.cells .attributes (some c) }

theorem withAttributes_cell (L : Layout V) (c : Cell) :
    (withAttributes L c).cells .attributes = some c := by
  simp only [withAttributes, Function.update_self]

theorem indexed_attributes {f f' : File} (h : Indexed S f L) (c : Cell)
    (hstores : Stores f' (Function.update L.cells .attributes (some c)))
    (hsmall : f'.size ≤ rfaLimit) :
    Indexed S f' (withAttributes L c) := by
  have hstay : ∀ k, k ≠ .attributes →
      Function.update L.cells .attributes (some c) k = L.cells k :=
    fun k hk => Function.update_of_ne hk _ _
  refine ⟨hstores, hsmall, ?_, h.rising, h.count_le, h.le_count, ?_, h.free, h.distinct⟩
  · intro p hp
    exact (hstay (.page p) nofun).trans (h.page p hp)
  · intro e he
    obtain ⟨hshort, hname, hplaced⟩ := h.entered e he
    exact ⟨hshort, hname, Indexed.placed_congr hplaced fun off d hd _ _ =>
      (hstay (.value off) nofun).trans hd⟩

theorem nameTooLong_short (hx : Short x) : nameTooLong x = false := by
  have hpos := hx.pos
  have hlt := hx.lt
  simp only [nameTooLong, Bool.or_eq_false_iff, decide_eq_false_iff_not]
  omega

theorem treeSetXNci_extended {s : State V} (h : Laid S s L m) (hx : Short x)
    (hroom : s.file.size + room S s value ≤ rfaLimit)
    (hvalue : valueSize S s.nci.compress value < 2 ^ 31) {attr : ExtendedAttributes} {off : ℕ}
    (hext : s.nci.extendedNci = true) (hrec : Recorded s.nci L attr off) :
    ∃ s' L', treeSetXNci S s x value = .ok s' ∧
      Laid S s' L' (Function.update m (key x) value) ∧
      s'.file.size ≤ s.file.size + room S s value ∧
      L'.names = slotNames true L.names (x, value) ∧ s'.nci.extendedNci = true := by
  obtain ⟨hoff, hget⟩ := getRecord_attributes h hrec
  have hlimit : rfaLimit < 2 ^ 63 := by simp [rfaLimit]
  have hne : BitVec.ofNat 64 off ≠ -1 := ofNat_ne_neg_one (by omega)
  have hbegin : beginExtendedNci s = ⟨s.file, s.nci, attr, BitVec.ofNat 64 off, false⟩ := by
    simp only [beginExtendedNci, hext, if_true, hget]
    rw [hrec.rfa]
  have hwork : Working S (⟨s.file, s.nci, attr, BitVec.ofNat 64 off, false⟩ : Vars V) L m :=
    ⟨h.indexed, h.means, hrec.top⟩
  simp only [room] at hroom ⊢
  have hroom' : s.file.size + valueSize S s.nci.compress value + namedAttributesIndex.size ≤
      rfaLimit := by omega
  obtain ⟨vars', L', hset, hwork', hcell, hnci, hoff', hsize, hupdate, hnames⟩ :=
    setXnci_extended hwork hx hroom' hvalue hne hrec.rfa
  simp only at hcell hnci hoff' hsize hupdate
  rw [hrec.cell] at hcell
  have hin := (hwork'.indexed.stores.holds _ _ hcell).inside
  simp only [extendedAttributes.length_encode] at hin
  by_cases hwrite : vars'.attrUpdate = true
  · let bytes := extendedAttributes.encode vars'.attr
    have hlen : bytes.length = (extendedAttributes.encode attr).length := by
      simp only [bytes, extendedAttributes.length_encode]
    have hput : putRecord extendedAttributes vars'.file vars'.attrOffset vars'.attr =
        (vars'.file.write off bytes, BitVec.ofNat 64 off) := by
      rw [hoff', putRecord, writeProperty_at _ (by omega)]
    have hfile : (vars'.file.write off bytes).size = vars'.file.size := by
      simp only [File.write, bytes, extendedAttributes.length_encode]
      omega
    have hindexed := indexed_attributes hwork'.indexed ⟨off, bytes⟩
      (hwork'.indexed.stores.replace hcell bytes hlen) (by rw [hfile]; exact hwork'.indexed.small)
    refine ⟨⟨vars'.file.write off bytes, { vars'.nci with
        rfa := seekToRfa (BitVec.ofNat 64 off), extendedNci := true }⟩, _, ?_,
      ⟨hindexed, ⟨hwork'.means.entry, hwork'.means.other⟩, fun _ => ⟨vars'.attr, off, ?_⟩,
        (by rintro ⟨⟩)⟩, ?_, hnames, rfl⟩
    · simp only [treeSetXNci, nameTooLong_short hx, hbegin, hset, bind, Except.bind, hwrite, hput,
        Bool.false_eq_true, if_false, if_true]
    · exact ⟨withAttributes_cell _ _, rfaToSeek_seekToRfa off hoff, hwork'.top⟩
    · simp only [hfile]
      omega
  · have hattr : vars'.attr = attr := hupdate.resolve_left hwrite
    refine ⟨⟨vars'.file, s.nci⟩, L', ?_, ⟨hwork'.indexed, hwork'.means,
      fun _ => ⟨attr, off, hcell, hrec.rfa, ?_⟩, fun hplain => ?_⟩,
      by simp only; omega, hnames, hext⟩
    · simp only [treeSetXNci, nameTooLong_short hx, hbegin, hset, bind, Except.bind, hwrite,
        Bool.false_eq_true, if_false]
    · rw [← hattr]
      exact hwork'.top
    · rw [hext] at hplain
      cases hplain

theorem treeSetXNci_plain {s : State V} (h : Laid S s L m) (hx : Short x)
    (hroom : s.file.size + room S s value ≤ rfaLimit)
    (hvalue : valueSize S s.nci.compress value < 2 ^ 31) (hext : s.nci.extendedNci = false) :
    ∃ s' L', treeSetXNci S s x value = .ok s' ∧
      Laid S s' L' (Function.update m (key x) value) ∧
      s'.file.size ≤ s.file.size + room S s value ∧
      L'.names = slotNames false L.names (x, value) ∧
      (L'.names = [] → s'.nci.extendedNci = false) := by
  have hpages := h.plain hext
  have hbegin : beginExtendedNci s = ⟨s.file, s.nci, .none, -1, false⟩ := by
    simp only [beginExtendedNci, hext, Bool.false_eq_true, if_false]
  have hwork : Working S (⟨s.file, s.nci, .none, -1, false⟩ : Vars V) L m := by
    refine ⟨h.indexed, h.means, ?_⟩
    simp only [Layout.top, if_pos hpages, ExtendedAttributes.none]
    exact Vector.getElem_replicate ..
  simp only [room] at hroom ⊢
  have hroom' : s.file.size + valueSize S s.nci.compress value +
      valueSize S s.nci.compress (oldValue s.nci.oldRecord) + namedAttributesIndex.size ≤
      rfaLimit := by omega
  have hspec := setXnci_plain hwork hx hroom' hvalue rfl hpages
  simp only at hspec
  rcases hspec with ⟨hset, hmap, hsame⟩ |
    ⟨vars', L', hset, hwork', hoff', hwrite, hsize, hne, hnames⟩
  · rw [hmap]
    refine ⟨s, L, ?_, h, Nat.le_add_right _ _, hsame.symm, fun _ => hext⟩
    simp only [treeSetXNci, nameTooLong_short hx, hbegin, hset, bind, Except.bind,
      Bool.false_eq_true, if_false]
  · let off := vars'.file.size
    let bytes := extendedAttributes.encode vars'.attr
    have hpos : 0 < extendedAttributes.size := by decide
    have hfile : (vars'.file.write off bytes).size = off + extendedAttributes.size := by
      simp only [File.write, bytes, off, extendedAttributes.length_encode]
      omega
    have hput : putRecord extendedAttributes vars'.file vars'.attrOffset vars'.attr =
        (vars'.file.write off bytes, BitVec.ofNat 64 off) := by
      rw [hoff', putRecord, writeProperty_append]
    have hindexed := indexed_attributes hwork'.indexed ⟨off, bytes⟩
      (hwork'.indexed.stores.append _ _) (by rw [hfile]; omega)
    refine ⟨⟨vars'.file.write off bytes, { vars'.nci with
        rfa := seekToRfa (BitVec.ofNat 64 off), extendedNci := true }⟩, _, ?_,
      ⟨hindexed, ⟨hwork'.means.entry, hwork'.means.other⟩, fun _ => ⟨vars'.attr, off, ?_⟩,
        (by rintro ⟨⟩)⟩, ?_, hnames, fun hnil => absurd hnil hne⟩
    · simp only [treeSetXNci, nameTooLong_short hx, hbegin, hset, bind, Except.bind, hwrite, hput,
        Bool.false_eq_true, if_false, if_true]
    · exact ⟨withAttributes_cell _ _, rfaToSeek_seekToRfa off (by omega), hwork'.top⟩
    · simp only [hfile]
      omega

theorem treeSetXNci_spec {s : State V} (h : Laid S s L m) (hx : Short x)
    (hroom : s.file.size + room S s value ≤ rfaLimit)
    (hvalue : valueSize S s.nci.compress value < 2 ^ 31) :
    ∃ s' L', treeSetXNci S s x value = .ok s' ∧
      Laid S s' L' (Function.update m (key x) value) ∧
      s'.file.size ≤ s.file.size + room S s value ∧
      L'.names = slotNames s.nci.extendedNci L.names (x, value) ∧
      (L'.names = [] → s'.nci.extendedNci = s.nci.extendedNci) := by
  cases hext : s.nci.extendedNci with
  | true =>
    obtain ⟨attr, off, hrec⟩ := h.recorded hext
    obtain ⟨s', L', hset, hlaid, hsize, hnames, hext'⟩ :=
      treeSetXNci_extended h hx hroom hvalue hext hrec
    exact ⟨s', L', hset, hlaid, hsize, hnames, fun _ => hext'⟩
  | false => exact treeSetXNci_plain h hx hroom hvalue hext

theorem getDsc_placed {f : File} (h : Indexed S f L) (dsc : Option V)
    (hplaced : Placed S L.cells offset length value) :
    length ≠ -1 ∧ getDsc S f offset length dsc = value.orElse fun _ => dsc := by
  cases value with
  | none =>
    obtain ⟨rfl, rfl⟩ := hplaced
    refine ⟨by decide, ?_⟩
    simp only [getDsc, readPropertySafe_none, Option.bind_none, Option.orElse_none]
  | some v =>
    obtain ⟨off, bytes, hcell, hread, rfl, rfl, hpos, hlt⟩ := hplaced
    have hoff := h.size_lt hcell
    have hlen : (BitVec.ofNat 32 bytes.length).toNat = bytes.length := by
      rw [BitVec.toNat_ofNat, Nat.mod_eq_of_lt (by omega)]
    constructor
    · intro hneg
      have hval := congrArg BitVec.toNat hneg
      have hneg1 : (-1 : BitVec 32).toNat = 2 ^ 32 - 1 := by decide
      omega
    · have hholds : Holds f off bytes := h.stores.holds _ _ hcell
      have hbytes := readPropertySafe_eq hholds (by simp only at hoff; omega)
      simp only [getDsc, hlen, hbytes, Option.bind_some, hread]
      rfl

/-- What is read of a name: the value it has. A name without one is not found, or it leaves the
descriptor as it was. -/
theorem getXnci_eq {vars : Vars V} (h : Working S vars L m) (hx : Short x) (dsc : Option V) :
    ∃ held, (dsc = none → held = none) ∧ getXnci S vars.file vars.attr x dsc =
      ((m (key x)).orElse fun _ => held).elim (.error .failure) .ok := by
  have hcount := h.indexed.count_le
  by_cases hpages : L.pages = 0
  · have habsent := h.means.other (key x) fun d hd => by omega
    refine ⟨none, fun _ => rfl, ?_⟩
    simp only [getXnci, getTopIndex_first h hpages, habsent]
    rfl
  · obtain ⟨htop, hnewest⟩ := getTopIndex_newest h (by omega)
    have hfuel := h.indexed.pages_le_size
    rcases h.indexed.search_eq hx (L.pages - 1) (vars.file.size + 1) (by omega) (by omega) with
      ⟨q, i, hq, hsearch, he, hkey⟩ | ⟨hsearch, hnew⟩
    · have hplaced := (h.indexed.entered _ he).placed
      have hmean := h.means.entry _ he
      rw [hkey] at hmean
      obtain ⟨hlen, hdsc⟩ := getDsc_placed h.indexed dsc hplaced
      refine ⟨dsc, id, ?_⟩
      simp only [getXnci, hnewest, htop, hsearch, bind, Except.bind, index_attributes,
        if_neg hlen, hdsc, hmean]
      cases (L.entry (128 * q + i)).2.orElse fun _ => dsc with
      | none => rfl
      | some v => rfl
    · have habsent := h.means.other (key x) fun d hd => hnew d (by omega) hd
      refine ⟨none, fun _ => rfl, ?_⟩
      simp only [getXnci, hnewest, htop, hsearch, bind, Except.bind, habsent]
      rfl

theorem getXnci_none {vars : Vars V} (h : Working S vars L m) (hx : Short x) :
    getXnci S vars.file vars.attr x none = (m (key x)).elim (.error .failure) .ok := by
  obtain ⟨held, hheld, hget⟩ := getXnci_eq h hx none
  rw [hget, hheld rfl]
  cases m (key x) with
  | none => rfl
  | some v => rfl

theorem treeGetXNci_spec {s : State V} (h : Laid S s L m) (hx : Short x)
    (hnames : key x ≠ XNCI_ATTRIBUTE_NAMES) (dsc : Option V) :
    (∀ v, m (key x) = some v → treeGetXNci S s x dsc = .ok (.value v)) ∧
    (m (key x) = none → treeGetXNci S s x none = .error .failure) := by
  have hnames' : x.chars.map tolower ≠ XNCI_ATTRIBUTE_NAMES := hnames
  cases hext : s.nci.extendedNci with
  | false =>
    have hcount := h.indexed.count_le
    have hpages := h.plain hext
    have habsent := h.means.other (key x) fun d hd => by omega
    simp only [treeGetXNci, nameTooLong_short hx, hext, Bool.false_eq_true, if_false, habsent]
    simp
  | true =>
    obtain ⟨attr, off, hrec⟩ := h.recorded hext
    obtain ⟨hoff, hget⟩ := getRecord_attributes h hrec
    have hwork : Working S (⟨s.file, s.nci, attr, -1, false⟩ : Vars V) L m :=
      ⟨h.indexed, h.means, hrec.top⟩
    have hxnci : ∀ dsc, treeGetXNci S s x dsc =
        (getXnci S s.file attr x dsc).map Found.value := by
      intro dsc
      simp only [treeGetXNci, nameTooLong_short hx, hext, Bool.false_eq_true, if_false, if_true,
        hget, if_neg hnames']
      rfl
    constructor
    · intro v hv
      obtain ⟨held, -, hread⟩ := getXnci_eq hwork hx dsc
      rw [hxnci, hread, hv]
      rfl
    · intro hnone
      rw [hxnci, getXnci_none hwork hx, hnone]
      rfl

/-- A node that has no attribute names yet: it has no extended attributes, or these
have no index. -/
structure Unnamed (s : State V) : Prop where
  small : s.file.size ≤ rfaLimit
  attr : s.nci.extendedNci = true → ∃ attr off,
    Holds s.file off (extendedAttributes.encode attr) ∧
    rfaToSeek s.nci.rfa = BitVec.ofNat 64 off ∧
    attr.facilityOffset[NAMED_ATTRIBUTES_FACILITY] = -1

theorem laid_unnamed {s : State V} (h : Unnamed s) :
    ∃ L, Laid S s L (fun _ => none) ∧ L.names = [] := by
  have hlaid : ∀ cells : Key → Option Cell, Stores s.file cells →
      (∀ off, cells (.value off) = none) →
      let L : Layout V :=
        ⟨cells, 0, fun _ => 0, 0, fun _ => emptyAttribute, fun _ => (⟨[], nofun⟩, none)⟩
      Indexed S s.file L ∧ Means L fun _ => none := by
    intro cells hstores _ L
    refine ⟨⟨hstores, h.small, nofun, nofun, Nat.le_refl _, by simp only [L]; omega, nofun,
      fun _ _ => rfl, nofun⟩, nofun, fun _ _ => rfl⟩
  cases hext : s.nci.extendedNci with
  | false =>
    obtain ⟨hindexed, hmeans⟩ := hlaid (fun _ => none) ⟨nofun, nofun⟩ fun _ => rfl
    refine ⟨_, ⟨hindexed, hmeans, fun htrue => ?_, fun _ => rfl⟩, rfl⟩
    rw [hext] at htrue
    cases htrue
  | true =>
    obtain ⟨attr, off, hholds, hrfa, htop⟩ := h.attr hext
    let c : Cell := ⟨off, extendedAttributes.encode attr⟩
    let cells : Key → Option Cell := fun k => if k = .attributes then some c else none
    have hcell : cells .attributes = some c := if_pos rfl
    have hcells : ∀ k d, cells k = some d → k = .attributes ∧ d = c := by
      intro k d hk
      by_cases hattr : k = .attributes
      · simp only [cells, if_pos hattr, Option.some.injEq] at hk
        exact ⟨hattr, hk.symm⟩
      · simp only [cells, if_neg hattr, reduceCtorEq] at hk
    have hstores : Stores s.file cells := by
      constructor
      · intro k d hk
        obtain ⟨_, rfl⟩ := hcells k d hk
        exact hholds
      · intro j k d e hjk hj hk
        obtain ⟨rfl, _⟩ := hcells j d hj
        exact absurd (hcells k e hk).1.symm hjk
    obtain ⟨hindexed, hmeans⟩ := hlaid cells hstores fun off => if_neg nofun
    exact ⟨_, ⟨hindexed, hmeans, fun _ => ⟨attr, off, hcell, hrfa, htop⟩, fun _ => rfl⟩, rfl⟩

structure Fits (S : Serializer V) (s : State V) (op : Name × Option V) : Prop where
  short : Short op.1
  value : valueSize S s.nci.compress op.2 < 2 ^ 31
  room : s.file.size + room S s op.2 ≤ rfaLimit

def setOp (S : Serializer V) (s : State V) (op : Name × Option V) : Except Status (State V) :=
  treeSetXNci S s op.1 op.2

/-- The map after one set or delete. -/
def assign (m : List Byte → Option V) (op : Name × Option V) : List Byte → Option V :=
  Function.update m (key op.1) op.2

/-- After any run of sets and deletes each name but the reserved one reads the value
last set for it, and is not found when there is none. -/
theorem treeGetXNci_run (S : Serializer V) (s : State V) (ops : List (Name × Option V))
    (hstart : Unnamed s) (hfits : Admissible (setOp S) (Fits S) s ops) :
    ∃ s', run (setOp S) s ops = .ok s' ∧
      ∀ x, Short x → key x ≠ XNCI_ATTRIBUTE_NAMES →
        let m := ops.foldl assign fun _ => none
        (∀ dsc v, m (key x) = some v → treeGetXNci S s' x dsc = .ok (.value v)) ∧
        (m (key x) = none → treeGetXNci S s' x none = .error .failure) := by
  have hstep : ∀ (s : State V) (m : List Byte → Option V) op, (∃ L, Laid S s L m) →
      Fits S s op → ∃ s', setOp S s op = .ok s' ∧ ∃ L, Laid S s' L (assign m op) := by
    rintro s m op ⟨L, hlaid⟩ hfit
    obtain ⟨s', L', hset, hlaid', _⟩ := treeSetXNci_spec hlaid hfit.short hfit.room hfit.value
    exact ⟨s', hset, L', hlaid'⟩
  obtain ⟨s', hrun, L, hlaid⟩ :=
    run_simulates hstep s (fun _ => none) ops
      ((laid_unnamed hstart).imp fun _ h => h.1) hfits
  refine ⟨s', hrun, fun x hx hnames => ⟨fun dsc => ?_, ?_⟩⟩
  · exact (treeGetXNci_spec hlaid hx hnames dsc).1
  · exact (treeGetXNci_spec hlaid hx hnames none).2

def oneByte : Serializer Byte where
  serializeOut _ v := [v]
  serializeIn := List.head?
  in_out _ _ := rfl
  out_pos _ _ := Nat.one_pos

def emptyNode : State Byte := ⟨⟨0, fun _ => 0⟩, ⟨false, Vector.replicate 6 0, .empty, 0⟩⟩

theorem unnamed_emptyNode : Unnamed emptyNode := ⟨Nat.zero_le _, nofun⟩

def name (chars : List Byte) (h : ∀ c ∈ chars, c ≠ 0 := by decide) : Name := ⟨chars, h⟩

theorem room_oneByte (s : State Byte) (value : Option Byte) : room oneByte s value ≤ 10000 := by
  have hone : ∀ value : Option Byte, valueSize oneByte s.nci.compress value ≤ 1 := by
    intro value
    cases value with
    | none => exact Nat.zero_le _
    | some v => exact Nat.le_refl _
  have hvalue := hone value
  have hold := hone (oldValue s.nci.oldRecord)
  have hindex : namedAttributesIndex.size = 9736 := rfl
  have hattr : extendedAttributes.size = 104 := rfl
  simp only [room]
  omega

theorem fits_two {x y : Name} (hx : Short x) (hy : Short y) (v w : Option Byte) :
    Admissible (setOp oneByte) (Fits oneByte) emptyNode [(x, v), (y, w)] := by
  have hvalue : ∀ (s : State Byte) v, valueSize oneByte s.nci.compress v < 2 ^ 31 := by
    intro s v
    cases v with
    | none => exact Nat.two_pow_pos 31
    | some v => simp [valueSize, oneByte]
  have hlimit : 30000 < rfaLimit := by simp [rfaLimit]
  have hsize : emptyNode.file.size = 0 := rfl
  have hroom := room_oneByte emptyNode v
  have hfirst : emptyNode.file.size + room oneByte emptyNode v ≤ rfaLimit := by omega
  refine ⟨⟨hx, hvalue _ _, hfirst⟩, fun s1 h1 => ⟨⟨hy, hvalue _ _, ?_⟩, fun _ _ => trivial⟩⟩
  obtain ⟨L, hlaid, _⟩ := laid_unnamed unnamed_emptyNode
  obtain ⟨s1', L1, h1', _, hsize1, _⟩ := treeSetXNci_spec hlaid hx hfirst (hvalue _ _)
  obtain rfl : s1' = s1 := Except.ok.inj (h1'.symm.trans h1)
  have hroom1 := room_oneByte s1' w
  simp only at hroom1 ⊢
  omega

/-- "alpha" set to 7 and then "ALPHA" to 9: "Alpha" reads 9. -/
theorem treeGetXNci_run_alpha :
    ∃ s', run (setOp oneByte) emptyNode
        [(name [97, 108, 112, 104, 97], some 7), (name [65, 76, 80, 72, 65], some 9)] = .ok s' ∧
      treeGetXNci oneByte s' (name [65, 108, 112, 104, 97]) none = .ok (.value 9) := by
  have hshort : ∀ x : Name, x.chars.length = 5 → Short x := by
    intro x hx
    constructor
    · omega
    · rw [hx]
      decide
  have hfits := fits_two (hshort (name [97, 108, 112, 104, 97]) rfl)
    (hshort (name [65, 76, 80, 72, 65]) rfl) (some 7) (some 9)
  obtain ⟨s', hrun, hget⟩ := treeGetXNci_run oneByte emptyNode _ unnamed_emptyNode hfits
  refine ⟨s', hrun, (hget (name [65, 108, 112, 104, 97]) (hshort _ rfl) ?_).1 none 9 ?_⟩
  · decide
  · decide

/-- A value set under the reserved name is not read back. -/
theorem treeGetXNci_attributeNames :
    ∃ s', treeSetXNci oneByte emptyNode (name XNCI_ATTRIBUTE_NAMES) (some 7) = .ok s' ∧
      ∀ v, treeGetXNci oneByte s' (name XNCI_ATTRIBUTE_NAMES) none ≠ .ok (.value v) := by
  have hshort : Short (name XNCI_ATTRIBUTE_NAMES) := by
    constructor
    · decide
    · decide
  have hroom := room_oneByte emptyNode (some 7)
  have hlimit : 30000 < rfaLimit := by simp [rfaLimit]
  obtain ⟨L, hlaid, _⟩ := laid_unnamed unnamed_emptyNode
  obtain ⟨s', L', hset, _, _⟩ := treeSetXNci_spec (S := oneByte) hlaid hshort (by
    simp only [emptyNode] at hroom ⊢
    exact Nat.le_trans (Nat.add_le_add_left hroom 0) (by omega)) (by decide)
  refine ⟨s', hset, fun v hget => ?_⟩
  have hkey : (name XNCI_ATTRIBUTE_NAMES).chars.map tolower = XNCI_ATTRIBUTE_NAMES := by decide
  simp only [treeGetXNci, nameTooLong_short hshort, Bool.false_eq_true, if_false, hkey,
    if_true] at hget
  split at hget
  · cases hget
  · split at hget
    · cases hget
    · cases hget

end MdsPlus.NamedAttributeMap
