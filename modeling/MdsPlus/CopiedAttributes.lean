import MdsPlus.AttributeNames
import MdsPlus.ExtendedCopies
import MdsPlus.SegmentRuns

/-!
Attributes of a node copied into another datafile. The walk back through the index pages hands
no place for the length on, and writes to it all the same; so attributes are copied as long as
they lie on one page.
-/

namespace MdsPlus.CopiedAttributes

open BitMemory ByteFile Datafile NamedAttributes NamedAttributePages NamedAttributeMap
  AttributeNames Outcome ExtendedCopies
open SegmentRecords (Records Dsc treeGetDsc)

variable {V : Type}

/-- The values of the names, as the old file has them. -/
abbrev Values (V : Type) := List Byte → Option (Dsc V)

/-- Values in a file that has no index yet. -/
def bare (cells : Key → Option Cell) : Layout (Dsc V) :=
  ⟨cells, 0, fun _ => 0, 0, fun _ => emptyAttribute, fun _ => (⟨[], nofun⟩, none)⟩

def valueOf (L : Layout (Dsc V)) (e : ℕ) : Option (Dsc V) :=
  if e < L.count then (L.entry e).2 else none

structure Partway (S : Records V) (L : Layout (Dsc V)) (out : File) (cells : Key → Option Cell)
    (index : NamedAttributesIndex) (todo : List (Fin NAMED_ATTRIBUTES_PER_INDEX)) : Prop where
  indexed : Indexed S.toSerializer out (bare cells)
  previous : index.previousOffset = -1
  name : ∀ i : Fin NAMED_ATTRIBUTES_PER_INDEX, index.attributes[i].name = (L.slot i).name
  waits : ∀ i ∈ todo, index.attributes[i] = L.slot i
  free : ∀ i : Fin NAMED_ATTRIBUTES_PER_INDEX, L.count ≤ i → index.attributes[i] = emptyAttribute
  placed : ∀ i : Fin NAMED_ATTRIBUTES_PER_INDEX, i ∉ todo → i < L.count →
    Placed S.toSerializer cells index.attributes[i].offset index.attributes[i].length
      (L.entry i).2

section Page

variable {S : Records V} {fin out : File} {L : Layout (Dsc V)} {cells : Key → Option Cell}
  {index : NamedAttributesIndex} {compress : ℤ}

theorem treeGetDsc_placed (h : Indexed S.toSerializer fin L) {offset : Offset} {length : BitVec 32}
    {v : Dsc V} (hplaced : Placed S.toSerializer L.cells offset length (some v)) :
    treeGetDsc S fin offset length.toNat = .ok v := by
  have hread := (getDsc_placed h none hplaced).2
  rw [getDsc] at hread
  rw [treeGetDsc]
  cases hbytes : (readPropertySafe fin offset length.toNat).bind S.serializeIn with
  | none =>
    rw [hbytes] at hread
    cases hread
  | some d =>
    rw [hbytes] at hread
    rw [Option.some.inj hread]

theorem first_ne_zero (h : Indexed S.toSerializer fin L) {e : ℕ} (he : e < L.count) :
    (L.slot e).name[0] ≠ 0 := by
  obtain ⟨hshort, hname, -⟩ := h.entered e he
  have hpos := hshort.pos
  rw [hname, nameField, Vector.getElem_ofFn, ne_eq, getD_eq_zero]
  simp only
  omega

theorem partway_pass {i : Fin NAMED_ATTRIBUTES_PER_INDEX}
    {todo : List (Fin NAMED_ATTRIBUTES_PER_INDEX)} (hp : Partway S L out cells index (i :: todo))
    (hplaced : i < L.count → Placed S.toSerializer cells (L.slot i).offset (L.slot i).length
      (L.entry i).2) : Partway S L out cells index todo := by
  refine ⟨hp.indexed, hp.previous, hp.name, fun j hj => hp.waits j (List.mem_cons_of_mem _ hj),
    hp.free, fun j hj hlt => ?_⟩
  by_cases hji : j = i
  · rw [hji] at hlt ⊢
    rw [hp.waits i (List.mem_cons_self ..)]
    exact hplaced hlt
  · exact hp.placed j (fun hmem => (List.mem_cons.mp hmem).elim hji hj) hlt

theorem partway_value {i : Fin NAMED_ATTRIBUTES_PER_INDEX}
    {todo : List (Fin NAMED_ATTRIBUTES_PER_INDEX)} (hp : Partway S L out cells index (i :: todo))
    (hi : i ∉ todo) (hlt : i < L.count) {v : Dsc V} (hv : (L.entry i).2 = some v)
    (hroom : out.size + (S.serializeOut compress v).length ≤ rfaLimit)
    (hvalue : (S.serializeOut compress v).length < 2 ^ 31) :
    let bytes := S.serializeOut compress v
    Partway S L (out.write out.size bytes)
        (Function.update cells (.value out.size) (some ⟨out.size, bytes⟩))
        (index.store i ⟨(L.slot i).name, BitVec.ofNat 64 out.size, BitVec.ofNat 32 bytes.length⟩)
        todo ∧
      (out.write out.size bytes).size = out.size + bytes.length := by
  intro bytes
  obtain ⟨hsize, hindexed, hplaced⟩ := hp.indexed.addValue compress v hroom
  have hself : ∀ a, (index.store i a).attributes[i] = a := fun a => Vector.getElem_set_self _
  have hother : ∀ a, ∀ j, j ≠ i → (index.store i a).attributes[j] = index.attributes[j] :=
    fun a j hj => Vector.getElem_set_ne i.isLt j.isLt fun h => hj (Fin.ext h.symm)
  refine ⟨⟨hindexed, hp.previous, fun j => ?_, fun j hj => ?_, fun j hj => ?_,
    fun j hj hcount => ?_⟩, hsize⟩
  · by_cases hji : j = i
    · rw [hji, hself]
    · rw [hother _ j hji]
      exact hp.name j
  · rw [hother _ j fun h => hi (h ▸ hj)]
    exact hp.waits j (List.mem_cons_of_mem _ hj)
  · rw [hother _ j fun h => absurd (h ▸ hlt) (Nat.not_lt.mpr hj)]
    exact hp.free j hj
  · by_cases hji : j = i
    · rw [hji, hself, hv]
      exact hplaced hvalue
    · rw [hother _ j hji]
      refine hp.indexed.placed_append _ (hp.placed j (fun hmem => ?_) hcount)
      exact (List.mem_cons.mp hmem).elim hji hj

theorem copyAttribute_spec (h : Indexed S.toSerializer fin L)
    {i : Fin NAMED_ATTRIBUTES_PER_INDEX} {todo : List (Fin NAMED_ATTRIBUTES_PER_INDEX)}
    (hp : Partway S L out cells index (i :: todo)) (hi : i ∉ todo)
    (hroom : out.size + valueSize S.toSerializer compress (valueOf L i) ≤ rfaLimit)
    (hvalue : valueSize S.toSerializer compress (valueOf L i) < 2 ^ 31) :
    ∃ out' cells' index', copyAttribute S fin compress (out, index) i = (out', index') ∧
      Partway S L out' cells' index' todo ∧
      out'.size = out.size + valueSize S.toSerializer compress (valueOf L i) := by
  have hslot := hp.waits i (List.mem_cons_self ..)
  by_cases hlt : (i : ℕ) < L.count
  · have hfirst := first_ne_zero h hlt
    have hplaced := (h.entered i hlt).placed
    rw [valueOf, if_pos hlt] at hroom hvalue ⊢
    cases hv : (L.entry i).2 with
    | none =>
      rw [hv] at hplaced
      refine ⟨out, cells, index, ?_, partway_pass hp fun _ => hv ▸ hplaced, rfl⟩
      simp only [copyAttribute, hslot]
      rw [if_neg fun h => h.2 hplaced.1]
    | some v =>
      rw [hv] at hplaced hroom hvalue
      obtain ⟨hpart, hsize⟩ := partway_value hp hi hlt hv hroom hvalue
      have hlength := (getDsc_placed h none hplaced).1
      have hoffset : (L.slot i).offset ≠ -1 := by
        obtain ⟨off, bytes, hcell, -, hoff, -⟩ := hplaced
        have hin := h.size_lt hcell
        rw [hoff]
        exact ofNat_ne_neg_one (by simp only at hin; omega)
      refine ⟨_, _, _, ?_, hpart, hsize⟩
      simp only [copyAttribute, hslot]
      rw [if_pos ⟨hfirst, hoffset⟩, if_neg hlength, treeGetDsc_placed h hplaced]
      simp only [putDsc, writeProperty_append]
  · have hempty := hp.free i (Nat.not_lt.mp hlt)
    rw [valueOf, if_neg hlt]
    refine ⟨out, cells, index, ?_, partway_pass hp fun h => absurd h hlt, rfl⟩
    have hzero : emptyAttribute.name[0] = 0 := Vector.getElem_replicate _
    simp only [copyAttribute, hempty]
    rw [if_neg fun h => h.1 hzero]

theorem copyAttributes_run (h : Indexed S.toSerializer fin L)
    {todo : List (Fin NAMED_ATTRIBUTES_PER_INDEX)} (hnodup : todo.Nodup)
    (hp : Partway S L out cells index todo)
    (hroom : out.size + (todo.map fun i : Fin NAMED_ATTRIBUTES_PER_INDEX =>
      valueSize S.toSerializer compress (valueOf L i)).sum ≤ rfaLimit)
    (hvalue : ∀ e, valueSize S.toSerializer compress (valueOf L e) < 2 ^ 31) :
    ∃ out' cells' index', todo.foldl (copyAttribute S fin compress) (out, index) =
        (out', index') ∧ Partway S L out' cells' index' [] ∧
      out'.size = out.size + (todo.map fun i : Fin NAMED_ATTRIBUTES_PER_INDEX =>
        valueSize S.toSerializer compress (valueOf L i)).sum := by
  induction todo generalizing out cells index with
  | nil => exact ⟨out, cells, index, rfl, hp, rfl⟩
  | cons i todo ih =>
    obtain ⟨hi, hnodup⟩ := List.nodup_cons.mp hnodup
    rw [List.map_cons, List.sum_cons] at hroom ⊢
    obtain ⟨out₁, cells₁, index₁, hstep, hp₁, hsize₁⟩ :=
      copyAttribute_spec h hp hi (by omega) (hvalue i)
    obtain ⟨out', cells', index', hfold, hp', hsize'⟩ := ih hnodup hp₁ (by omega)
    refine ⟨out', cells', index', ?_, hp', by omega⟩
    rw [List.foldl_cons, hstep]
    exact hfold

def copied (L : Layout (Dsc V)) (cells : Key → Option Cell) (off : ℕ)
    (index : NamedAttributesIndex) : Layout (Dsc V) where
  cells := Function.update cells (.page 0) (some ⟨off, namedAttributesIndex.encode index⟩)
  pages := 1
  pageOff _ := off
  count := L.count
  slot e := if h : e < NAMED_ATTRIBUTES_PER_INDEX then index.attributes[e] else emptyAttribute
  entry := L.entry

theorem index_copied (hprevious : index.previousOffset = -1) (off : ℕ) :
    (copied L cells off index).index 0 = index := by
  obtain ⟨previous, attributes⟩ := index
  obtain rfl : previous = -1 := hprevious
  simp only [Layout.index, if_true, NamedAttributesIndex.mk.injEq, true_and]
  apply Vector.ext
  intro i hi
  rw [Vector.getElem_ofFn, Nat.mul_zero, Nat.zero_add]
  exact dif_pos hi

theorem indexed_copied (h : Indexed S.toSerializer fin L) (hpages : L.pages = 1)
    (hp : Partway S L out cells index [])
    (hroom : out.size + namedAttributesIndex.size ≤ rfaLimit) :
    Indexed S.toSerializer (out.write out.size (namedAttributesIndex.encode index))
      (copied L cells out.size index) := by
  have hcount := h.count_le
  have hlt := h.le_count
  have hlen := namedAttributesIndex.length_encode index
  have hsize : (out.write out.size (namedAttributesIndex.encode index)).size =
      out.size + namedAttributesIndex.size := by
    simp only [File.write, hlen]
    omega
  have hslot : ∀ e, e < NAMED_ATTRIBUTES_PER_INDEX → ∃ i : Fin NAMED_ATTRIBUTES_PER_INDEX,
      (i : ℕ) = e ∧ (copied L cells out.size index).slot e = index.attributes[i] :=
    fun e he => ⟨⟨e, he⟩, rfl, dif_pos he⟩
  refine ⟨hp.indexed.stores.append _ _, by rw [hsize]; exact hroom, fun p hone => ?_,
    fun p hone => ?_, ?_, ?_, fun e he => ?_, fun e he => ?_, h.distinct⟩
  · obtain rfl : p = 0 := Nat.lt_one_iff.mp hone
    rw [index_copied hp.previous]
    exact Function.update_self (Key.page 0) _ cells
  · simp only [copied] at hone
    omega
  · simp only [copied]
    omega
  · simp only [copied]
    omega
  · have he' : e < L.count := he
    obtain ⟨i, rfl, hsame⟩ := hslot e (by simp only [NAMED_ATTRIBUTES_PER_INDEX]; omega)
    obtain ⟨hshort, hname, -⟩ := h.entered i he'
    refine ⟨hshort, ?_, ?_⟩
    · rw [hsame, hp.name i]
      exact hname
    · rw [hsame]
      refine Indexed.placed_congr (hp.placed i List.not_mem_nil he') fun off c hc _ _ => ?_
      have hother : Key.value off ≠ .page 0 := by rintro ⟨⟩
      rw [← hc]
      exact Function.update_of_ne hother (some ⟨out.size, namedAttributesIndex.encode index⟩) cells
  · by_cases hin : e < NAMED_ATTRIBUTES_PER_INDEX
    · obtain ⟨i, rfl, hsame⟩ := hslot e hin
      exact hsame.trans (hp.free i he)
    · exact dif_neg hin

theorem means_copied {m : Values V} (h : Means L m) (off : ℕ) :
    Means (copied L cells off index) m := ⟨h.entry, h.other⟩

end Page

/-! ### The pages of a node -/

def copiedSize (S : Records V) (compress : ℤ) (m : Values V) (names : List Name) : ℕ :=
  (names.map fun x => valueSize S.toSerializer compress (m (key x))).sum +
    namedAttributesIndex.size

section Node

variable {S : Records V} {s : State (Dsc V)} {L : Layout (Dsc V)} {m : Values V} {compress : ℤ}
  {out : File} {attr : ExtendedAttributes} {off : ℕ}

theorem sum_values (hmeans : Means L m) (hcount : L.count ≤ NAMED_ATTRIBUTES_PER_INDEX) :
    ((List.finRange NAMED_ATTRIBUTES_PER_INDEX).map fun i : Fin NAMED_ATTRIBUTES_PER_INDEX =>
      valueSize S.toSerializer compress (valueOf L i)).sum =
    (L.names.map fun x => valueSize S.toSerializer compress (m (key x))).sum := by
  let g : ℕ → ℕ := fun e => valueSize S.toSerializer compress (valueOf L e)
  have hnames : L.names.map (fun x => valueSize S.toSerializer compress (m (key x))) =
      (List.range L.count).map g := by
    rw [Layout.names, List.map_map]
    refine List.map_congr_left fun e he => ?_
    have hlt := List.mem_range.mp he
    simp only [Function.comp_apply, g]
    rw [hmeans.entry e hlt, valueOf, if_pos hlt]
  have hslots : ((List.finRange NAMED_ATTRIBUTES_PER_INDEX).map
      fun i : Fin NAMED_ATTRIBUTES_PER_INDEX => g i) =
      (List.range NAMED_ATTRIBUTES_PER_INDEX).map g := by
    rw [← List.map_coe_finRange_eq_range, List.map_map]
    rfl
  rw [hnames]
  refine (congrArg List.sum hslots).trans ?_
  obtain ⟨k, hk⟩ := Nat.exists_eq_add_of_le hcount
  have hrest : (((List.range k).map (L.count + ·)).map g).sum = 0 := by
    refine List.sum_eq_zero fun n hn => ?_
    obtain ⟨e, he, rfl⟩ := List.mem_map.mp hn
    obtain ⟨j, -, rfl⟩ := List.mem_map.mp he
    simp only [g, valueOf]
    rw [if_neg (by omega)]
    rfl
  rw [hk, List.range_add, List.map_append, List.sum_append, hrest, Nat.add_zero]

theorem copyAttributes_one (h : Laid S.toSerializer s L m) (hrec : Recorded s.nci L attr off)
    (hpages : L.pages = 1)
    (hroom : out.size + copiedSize S compress m L.names ≤ rfaLimit)
    (hvalue : ∀ x ∈ L.names, valueSize S.toSerializer compress (m (key x)) < 2 ^ 31) :
    ∃ out' attr' L', copyAttributes S s.file out attr compress = .ok (out', attr') ∧
      Indexed S.toSerializer out' L' ∧ Means L' m ∧
      attr'.facilityOffset[NAMED_ATTRIBUTES_FACILITY] = L'.top := by
  have hpage := h.indexed.getRecord_page (p := 0) (by omega)
  have htop : attr.facilityOffset[NAMED_ATTRIBUTES_FACILITY] = BitVec.ofNat 64 (L.pageOff 0) := by
    rw [hrec.top, Layout.top, if_neg (by omega), hpages]
  have hthere : attr.facilityOffset[NAMED_ATTRIBUTES_FACILITY] ≠ -1 := by
    intro hnone
    rw [← htop, hnone, getRecord_none] at hpage
    cases hpage
  have hcount := h.indexed.count_le
  have hsum := @sum_values _ S L m compress h.means
    (by simp only [NAMED_ATTRIBUTES_PER_INDEX]; omega)
  simp only [copiedSize] at hroom
  have hslot : ∀ i : Fin NAMED_ATTRIBUTES_PER_INDEX, (L.index 0).attributes[i] = L.slot i := by
    intro i
    rw [index_attributes, Nat.mul_zero, Nat.zero_add]
  have hstart : Partway S L out (fun _ => none) (L.index 0) (List.finRange _) := by
    refine ⟨⟨⟨by rintro _ _ ⟨⟩, by rintro _ _ _ _ _ ⟨⟩⟩, by omega, by rintro _ ⟨⟩, by rintro _ ⟨⟩,
      Nat.le_refl _, ?_, by rintro _ ⟨⟩, fun _ _ => rfl, by rintro _ _ ⟨⟩⟩, rfl,
      fun i => by rw [hslot], fun i _ => hslot i, fun i hi => ?_, fun i hi => ?_⟩
    · simp only [bare]
      omega
    · rw [hslot, h.indexed.free i hi]
    · exact absurd (List.mem_finRange i) hi
  have hsmall : ∀ e, valueSize S.toSerializer compress (valueOf L e) < 2 ^ 31 := by
    intro e
    by_cases he : e < L.count
    · have hin : (L.entry e).1 ∈ L.names := List.mem_map.mpr ⟨e, List.mem_range.mpr he, rfl⟩
      have hsize := hvalue _ hin
      rw [h.means.entry e he] at hsize
      rwa [valueOf, if_pos he]
    · rw [valueOf, if_neg he]
      exact Nat.two_pow_pos 31
  obtain ⟨out₁, cells, index, hfold, hp, hsize⟩ :=
    @copyAttributes_run _ S s.file out L _ _ compress h.indexed _ (List.nodup_finRange _) hstart
      (by rw [hsum]; omega) hsmall
  rw [hsum] at hsize
  have hcopy : copyNamedAttributes S s.file compress (s.file.size + 1) out
      (BitVec.ofNat 64 (L.pageOff 0)) (some attr.facilityLength[NAMED_ATTRIBUTES_FACILITY]) =
      .ok (out₁.write out₁.size (namedAttributesIndex.encode index), BitVec.ofNat 64 out₁.size,
        some 0) := by
    have hprevious : (L.index 0).previousOffset = -1 := rfl
    rw [copyNamedAttributes, hpage]
    simp only [hprevious]
    rw [if_neg fun h => h rfl]
    have hsame : ({ L.index 0 with previousOffset := -1 } : NamedAttributesIndex) = L.index 0 := rfl
    simp only [bind, Except.bind, hsame, hfold, putRecord, writeProperty_append]
  refine ⟨_, setFacility attr NAMED_ATTRIBUTES_FACILITY (BitVec.ofNat 64 out₁.size) 0,
    copied L cells out₁.size index, ?_, indexed_copied h.indexed hpages hp (by omega),
    means_copied h.means _, ?_⟩
  · rw [copyAttributes, if_pos hthere, htop, hcopy]
    rfl
  · exact Vector.getElem_set_self _

theorem copyAttributes_more (h : Laid S.toSerializer s L m) (hrec : Recorded s.nci L attr off)
    (hpages : 1 < L.pages) : copyAttributes S s.file out attr compress = .error .undefined := by
  obtain ⟨p, hp⟩ : ∃ p, L.pages = p + 2 := ⟨L.pages - 2, by omega⟩
  have hpage := h.indexed.getRecord_page (p := p + 1) (by omega)
  have hbefore := h.indexed.getRecord_page (p := p) (by omega)
  have htop : attr.facilityOffset[NAMED_ATTRIBUTES_FACILITY] =
      BitVec.ofNat 64 (L.pageOff (p + 1)) := by
    rw [hrec.top, Layout.top, if_neg (by omega), hp]
    rfl
  have hprevious : (L.index (p + 1)).previousOffset = BitVec.ofNat 64 (L.pageOff p) := rfl
  have hthere : ∀ {q}, getRecord namedAttributesIndex s.file (BitVec.ofNat 64 (L.pageOff q)) ≠
      none → BitVec.ofNat 64 (L.pageOff q) ≠ -1 := by
    intro q hread hnone
    rw [hnone, getRecord_none] at hread
    exact hread rfl
  obtain ⟨fuel, hfuel⟩ : ∃ fuel, s.file.size = fuel + 1 := by
    have hle := h.indexed.pages_le_size
    exact ⟨s.file.size - 1, by omega⟩
  rw [copyAttributes, htop, if_pos (hthere (hpage ▸ by rintro ⟨⟩)), hfuel,
    copyNamedAttributes, hpage]
  simp only [hprevious]
  rw [if_pos (hthere (hbefore ▸ (by rintro ⟨⟩))), copyNamedAttributes, hbefore]
  rfl

theorem copyAttributes_iff (h : Laid S.toSerializer s L m) (hrec : Recorded s.nci L attr off)
    (hroom : out.size + copiedSize S compress m L.names ≤ rfaLimit)
    (hvalue : ∀ x ∈ L.names, valueSize S.toSerializer compress (m (key x)) < 2 ^ 31) :
    (∃ out' attr', copyAttributes S s.file out attr compress = .ok (out', attr') ∧
      ∀ x, Short x → getXnci S.toSerializer out' attr' x none =
        getXnci S.toSerializer s.file attr x none) ↔
    L.names.length ≤ NAMED_ATTRIBUTES_PER_INDEX := by
  have hcount := h.indexed.count_le
  have hlt := h.indexed.le_count
  have hwork : Working S.toSerializer (⟨s.file, s.nci, attr, -1, false⟩ : NamedAttributes.Vars _)
      L m := ⟨h.indexed, h.means, hrec.top⟩
  have hlength : L.names.length = L.count := by
    simp only [Layout.names, List.length_map, List.length_range]
  rw [hlength, NAMED_ATTRIBUTES_PER_INDEX]
  rcases Nat.lt_trichotomy L.pages 1 with hnone | hone | hmore
  · have hnil : attr.facilityOffset[NAMED_ATTRIBUTES_FACILITY] = -1 := by
      rw [hrec.top, Layout.top, if_pos (Nat.lt_one_iff.mp hnone)]
    refine iff_of_true ⟨out, attr, ?_, fun x hx => ?_⟩ (by omega)
    · rw [copyAttributes, if_neg (not_not.mpr hnil)]
    · simp only [getXnci, getTopIndex, hnil, if_true]
  · obtain ⟨out', attr', L', hcopy, hindexed, hmeans, htop⟩ :=
      copyAttributes_one h hrec hone hroom hvalue
    refine iff_of_true ⟨out', attr', hcopy, fun x hx => ?_⟩ (by omega)
    have hwork' : Working S.toSerializer
        (⟨out', s.nci, attr', -1, false⟩ : NamedAttributes.Vars _) L' m :=
      ⟨hindexed, hmeans, htop⟩
    exact (getXnci_none hwork' hx).trans (getXnci_none hwork hx).symm
  · refine iff_of_false ?_ (by omega)
    rintro ⟨out', attr', hcopy, _⟩
    rw [copyAttributes_more h hrec hmore] at hcopy
    cases hcopy

end Node

/-- After any run of sets and deletes the attributes are copied exactly where no more names have
a slot than one page has. -/
theorem attributes_copied_iff (S : Records V) (s : State (Dsc V))
    (ops : List (Name × Option (Dsc V))) (hstart : Unnamed s)
    (hfits : Admissible (setOp S.toSerializer) (Fits S.toSerializer) s ops) :
    ∃ s', run (setOp S.toSerializer) s ops = .ok s' ∧
      let m := ops.foldl assign fun _ => none
      let names := ops.foldl (slotNames s.nci.extendedNci) []
      (s'.nci.extendedNci = true → ∃ attr,
        getRecord extendedAttributes s'.file (rfaToSeek s'.nci.rfa) = some attr ∧
        ∀ out compress, out.size + copiedSize S compress m names ≤ rfaLimit →
          (∀ x ∈ names, valueSize S.toSerializer compress (m (key x)) < 2 ^ 31) →
          ((∃ out' attr', copyAttributes S s'.file out attr compress = .ok (out', attr') ∧
            ∀ x, Short x → getXnci S.toSerializer out' attr' x none =
              getXnci S.toSerializer s'.file attr x none) ↔
          names.length ≤ NAMED_ATTRIBUTES_PER_INDEX)) := by
  obtain ⟨s', L, hrun, hlaid, hnames⟩ := laid_run S.toSerializer s ops hstart hfits
  refine ⟨s', hrun, fun hext => ?_⟩
  obtain ⟨attr, off, hrec⟩ := hlaid.recorded hext
  refine ⟨attr, (getRecord_attributes hlaid hrec).2, fun out compress => ?_⟩
  rw [← hnames]
  exact copyAttributes_iff hlaid hrec

/-! ### A node with one attribute, and with one more than a page holds -/

open SegmentRuns (unary)

def newNode : State (Dsc Unit) := ⟨⟨0, fun _ => 0⟩, ⟨false, Vector.replicate 6 0, .empty, -1⟩⟩

theorem unnamed_newNode : Unnamed newNode := ⟨Nat.zero_le _, nofun⟩

section Kept

variable {S : Serializer V} {s s' : State V} {vars vars' : NamedAttributes.Vars V} {x : Name}
  {value : Option V}

theorem setIndex_nci {offset : Offset} {length : BitVec 32}
    (h : setIndex vars x offset length = .ok vars') : vars'.nci = vars.nci := by
  rw [setIndex] at h
  split at h
  · rw [← Except.ok.inj h]
  · obtain ⟨found, -, h⟩ := bind_eq_ok.mp h
    cases found with
    | some p => rw [← Except.ok.inj h]
    | none =>
      simp only at h
      split at h
      · rw [← Except.ok.inj h]
      · split at h
        · rw [← Except.ok.inj h]
        · rw [← Except.ok.inj h]

theorem treeSetXNci_oldRecord (h : treeSetXNci S s x value = .ok s')
    (hold : s.nci.oldRecord = .empty) : s'.nci.oldRecord = .empty := by
  have hbegin : (beginExtendedNci s).nci = s.nci := by
    rw [beginExtendedNci]
    split
    · rfl
    · rfl
  have hkeep : ∀ vars : NamedAttributes.Vars V, vars.nci.oldRecord = .empty →
      keepOldRecord S vars = vars := by
    intro vars hempty
    simp only [keepOldRecord, hempty, ite_self]
  rw [treeSetXNci, ite_error_eq_ok] at h
  obtain ⟨vars, hset, hdone⟩ := bind_eq_ok.mp h.2
  have hnci : vars.nci = s.nci := by
    simp only [setXnci] at hset
    generalize putValue S (beginExtendedNci s) value = p at hset
    split at hset
    · split at hset
      · rw [← Except.ok.inj hset]
        exact hbegin
      · rw [hkeep _ (by rw [hbegin, hold])] at hset
        exact (setIndex_nci hset).trans hbegin
    · exact (setIndex_nci hset).trans hbegin
  split at hdone
  · rw [← Except.ok.inj hdone]
    exact hnci ▸ hold
  · rw [← Except.ok.inj hdone]
    exact hold

end Kept

theorem fits_sets {s : State (Dsc Unit)} {L : Layout (Dsc Unit)} {m : Values Unit}
    (h : Laid unary.toSerializer s L m) (hold : s.nci.oldRecord = .empty)
    {ops : List (Name × Option (Dsc Unit))}
    (hops : ∀ op ∈ ops, Short op.1 ∧ op.2 = some (.quadword 0))
    (hroom : s.file.size + ops.length * 10000 ≤ rfaLimit) :
    Admissible (setOp unary.toSerializer) (Fits unary.toSerializer) s ops := by
  have hindex : namedAttributesIndex.size = 9736 := rfl
  have hattr : extendedAttributes.size = 104 := rfl
  induction ops generalizing s L m with
  | nil => trivial
  | cons op ops ih =>
    obtain ⟨hshort, hvalue⟩ := hops op (List.mem_cons_self ..)
    rw [List.length_cons] at hroom
    have hsize : ∀ compress, valueSize unary.toSerializer compress op.2 = 1 := by
      intro compress
      rw [hvalue]
      rfl
    have hlow : room unary.toSerializer s op.2 ≤ 10000 := by
      have hnone : valueSize unary.toSerializer s.nci.compress (oldValue s.nci.oldRecord) = 0 := by
        rw [hold]
        rfl
      rw [room, hsize, hnone, hindex, hattr]
      omega
    have hsmall : valueSize unary.toSerializer s.nci.compress op.2 < 2 ^ 31 := by
      rw [hsize]
      omega
    refine ⟨⟨hshort, hsmall, by omega⟩, fun s' hset => ?_⟩
    obtain ⟨s₁, L₁, hset₁, hlaid₁, hsize₁, -⟩ := treeSetXNci_spec h hshort (by omega) hsmall
    obtain rfl : s₁ = s' := Except.ok.inj (hset₁.symm.trans hset)
    exact ih hlaid₁ (treeSetXNci_oldRecord hset hold)
      (fun op hop => hops op (List.mem_cons_of_mem _ hop)) (by omega)

/-- One attribute comes over. -/
theorem alpha_copied : ∃ s',
    run (setOp unary.toSerializer) newNode [(alpha, some (.quadword 0))] = .ok s' ∧
    ∃ attr, getRecord extendedAttributes s'.file (rfaToSeek s'.nci.rfa) = some attr ∧
      ∃ out' attr',
        copyAttributes unary s'.file ⟨0, fun _ => 0⟩ attr (-1) = .ok (out', attr') ∧
        ∀ x, Short x → getXnci unary.toSerializer out' attr' x none =
          getXnci unary.toSerializer s'.file attr x none := by
  obtain ⟨L, hstart, hnil⟩ := laid_unnamed unnamed_newNode
  have hfits : Admissible (setOp unary.toSerializer) (Fits unary.toSerializer) newNode
      [(alpha, some (.quadword 0))] := by
    refine fits_sets hstart rfl (fun op hop => ?_) (by decide)
    obtain rfl := List.mem_singleton.mp hop
    exact ⟨short_alpha.1, rfl⟩
  obtain ⟨s', hrun, hcopied⟩ := attributes_copied_iff unary _ _ unnamed_newNode hfits
  obtain ⟨s₁, hrun₁, hext⟩ := exists_value
    (x := run (setOp unary.toSerializer) newNode [(alpha, some (.quadword 0))])
    (fun s => s.nci.extendedNci) (c := true) (by decide +kernel)
  obtain rfl : s₁ = s' := Except.ok.inj (hrun₁.symm.trans hrun)
  obtain ⟨attr, hget, hiff⟩ := hcopied hext
  refine ⟨s₁, hrun, attr, hget, (hiff ⟨0, fun _ => 0⟩ (-1) ?_ ?_).mpr ?_⟩
  · decide +kernel
  · decide +kernel
  · decide

def letter (n : Fin 16) : Byte := BitVec.ofNat 8 (97 + n)

theorem letter_spec : ∀ n, letter n ≠ 0 ∧ tolower (letter n) = letter n := by decide

theorem letter_inj : ∀ n k, letter n = letter k → n = k := by decide

def nth (i : Fin 129) : Name where
  chars := [letter ⟨i / 16, by omega⟩, letter ⟨i % 16, by omega⟩]
  noNul := by
    intro c hc
    obtain rfl | rfl : c = _ ∨ c = _ := by simpa using hc
    · exact (letter_spec _).1
    · exact (letter_spec _).1

theorem key_nth (i : Fin 129) : key (nth i) = (nth i).chars := by
  simp only [key, nth, List.map_cons, List.map_nil, (letter_spec _).2]

theorem nth_inj {i j : Fin 129} (h : key (nth i) = key (nth j)) : i = j := by
  rw [key_nth, key_nth] at h
  simp only [nth, List.cons.injEq, and_true] at h
  have hhigh := Fin.mk.inj (letter_inj _ _ h.1)
  have hlow := Fin.mk.inj (letter_inj _ _ h.2)
  omega

theorem slotNames_all {extended : Bool} {names : List Name} {ops : List (Name × Option V)}
    (hnew : ((names ++ ops.map Prod.fst).map key).Nodup) (hset : ∀ op ∈ ops, op.2.isSome) :
    ops.foldl (slotNames extended) names = names ++ ops.map Prod.fst := by
  induction ops generalizing names with
  | nil => exact (List.append_nil _).symm
  | cons op ops ih =>
    have hsplit : names ++ (op :: ops).map Prod.fst = (names ++ [op.1]) ++ ops.map Prod.fst := by
      rw [List.append_assoc]
      rfl
    have hnot : key op.1 ∉ names.map key := by
      rw [List.map_append, List.map_cons, List.map_cons] at hnew
      exact fun hmem => (List.disjoint_of_nodup_append hnew) hmem (List.mem_cons_self ..)
    rw [hsplit] at hnew ⊢
    rw [List.foldl_cons, slotNames_new hnot (Or.inl (hset op (List.mem_cons_self ..)))]
    exact ih hnew fun op hop => hset op (List.mem_cons_of_mem _ hop)

def many : List (Name × Option (Dsc Unit)) :=
  (List.finRange 129).map fun i => (nth i, some (.quadword 0))

theorem names_many : many.foldl (slotNames false) [] = (List.finRange 129).map nth := by
  have hfst : many.map Prod.fst = (List.finRange 129).map nth := by
    rw [many, List.map_map]
    rfl
  rw [slotNames_all, hfst, List.nil_append]
  · rw [hfst, List.nil_append, List.map_map]
    exact (List.nodup_finRange _).map fun i j h => nth_inj h
  · intro op hop
    obtain ⟨i, -, rfl⟩ := List.mem_map.mp hop
    rfl

/-- The attribute after a full page is not copied: the length is written to no place. -/
theorem second_page_undefined : ∃ s',
    run (setOp unary.toSerializer) newNode many = .ok s' ∧
    ∃ attr, getRecord extendedAttributes s'.file (rfaToSeek s'.nci.rfa) = some attr ∧
      ∀ out compress,
        copyAttributes unary s'.file out attr compress = .error .undefined := by
  obtain ⟨L, hstart, hnil⟩ := laid_unnamed unnamed_newNode
  have hops : ∀ op ∈ many, Short op.1 ∧ op.2 = some (.quadword 0) := by
    intro op hop
    obtain ⟨i, -, rfl⟩ := List.mem_map.mp hop
    have htwo : (nth i).chars.length = 2 := rfl
    refine ⟨⟨Nat.succ_pos _, ?_⟩, rfl⟩
    rw [htwo]
    decide
  have hmany : many.length = 129 := by rw [many, List.length_map, List.length_finRange]
  have hfits := fits_sets hstart rfl hops (by rw [hmany]; decide)
  obtain ⟨s', L, hrun, hlaid, hnames⟩ := laid_run unary.toSerializer _ _ unnamed_newNode hfits
  rw [show newNode.nci.extendedNci = false from rfl, names_many] at hnames
  have hlength : L.count = 129 := by
    have hlen := congrArg List.length hnames
    simpa only [Layout.names, List.length_map, List.length_range, List.length_finRange] using hlen
  have hcount := hlaid.indexed.count_le
  have hext : s'.nci.extendedNci = true := by
    by_contra hplain
    have hpages := hlaid.plain (Bool.not_eq_true _ ▸ hplain)
    omega
  obtain ⟨attr, off, hrec⟩ := hlaid.recorded hext
  exact ⟨s', hrun, attr, (getRecord_attributes hlaid hrec).2,
    fun out compress => copyAttributes_more hlaid hrec (by omega)⟩

end MdsPlus.CopiedAttributes
