import MdsPlus.DescriptorTrees

/-!
Comparing two descriptors. Wrappers are stripped off, headers are compared field by field and
then data or nested descriptors in order, up to the first difference.
-/

namespace MdsPlus.Comparisons

open BitMemory DescriptorTrees

/-- Strip off the wrappers. An array of pointers of the wrapper's type is stripped off, too: none
where its pointers are then read as a descriptor. -/
def strip (d : Desc) : Option Desc :=
  match unwrap d with
  | .apd dtype h pointer dscs => if dtype = dtypeDsc then none else some (.apd dtype h pointer dscs)
  | d => some d

/-- The fields of two array headers up to the flags, the length of the elements among them. -/
def sameFields (h1 h2 : ArrayHead) : Bool :=
  h1.length = h2.length && h1.scale = h2.scale && h1.digits = h2.digits &&
    h1.binscale = h2.binscale && h1.redim = h2.redim && h1.column = h2.column

def sameDims : Dims → Dims → Bool
  | .plain dimct1, .plain dimct2 => dimct1 = dimct2
  | .coeff _ m1, .coeff _ m2 => m1 = m2
  | .bounds _ m1, .bounds _ m2 => m1 = m2
  | _, _ => false

/-- `a0`, if there is one. -/
def Dims.a0 : Dims → Option ℤ
  | .plain _ => none
  | .coeff a0 _ => some a0
  | .bounds a0 _ => some a0

def distance (h : ArrayHead) (pointer : ℤ) : Option ℤ := (Dims.a0 h.dims).map fun a0 => pointer - a0

def sameHead (h1 : ArrayHead) (pointer1 : ℤ) (h2 : ArrayHead) (pointer2 : ℤ) : Bool :=
  sameFields h1 h2 && sameDims h1.dims h2.dims && distance h1 pointer1 = distance h2 pointer2

/-- `arsize` of an array of pointers. -/
def pointersSize (h : ArrayHead) (dscs : List Desc) : ℕ := h.length.toNat * dscs.length

mutual

/-- `MdsCompareXd`; none where pointers are read as a descriptor or a length of zero is divided
by. The loop over an array of pointers starts with its list of pointers as the first descriptor. -/
def mdsCompareXd : Desc → Desc → Option Bool
  | .dsc target, d2 => mdsCompareXd target d2
  | .null, d2 => (strip d2).map fun
      | .null => true
      | _ => false
  | .s _ dtype1 data1, d2 => (strip d2).map fun
      | .s _ dtype2 data2 => dtype1 = dtype2 && data1 = data2
      | _ => false
  | .xs _ dtype1 data1, d2 => (strip d2).map fun
      | .xs _ dtype2 data2 => dtype1 = dtype2 && data1 = data2
      | _ => false
  | .r dtype1 data1 dscptrs1, d2 =>
      (strip d2).bind fun
        | .r dtype2 data2 dscptrs2 =>
            if dtype1 = dtype2 ∧ dscptrs1.length = dscptrs2.length ∧ data1 = data2 then
              compareAll dscptrs1 dscptrs2
            else some false
        | _ => some false
  | .a dtype1 h1 data1, d2 => (strip d2).map fun
      | .a dtype2 h2 data2 => dtype1 = dtype2 && sameHead h1 0 h2 0 && data1 = data2
      | _ => false
  | .apd dtype1 h1 pointer1 dscs1, d2 =>
      if dtype1 = dtypeDsc then none
      else
        (strip d2).bind fun
          | .apd dtype2 h2 pointer2 dscs2 =>
              if dtype1 = dtype2 ∧ sameHead h1 pointer1 h2 pointer2 ∧
                  pointersSize h1 dscs1 = pointersSize h2 dscs2 then
                if h1.length = 0 ∨ dscs1 ≠ [] then none else some true
              else some false
          | _ => some false
  | .ca dtype1 h1 arsize1 pointer1 target1, d2 =>
      (strip d2).bind fun
        | .ca dtype2 h2 arsize2 pointer2 target2 =>
            if dtype1 = dtype2 ∧ sameHead h1 pointer1 h2 pointer2 ∧ arsize1 = arsize2 then
              mdsCompareXd target1 target2
            else some false
        | _ => some false
  | .other _ _ _, d2 => (strip d2).map fun _ => false

def compareAll : List Desc → List Desc → Option Bool
  | d1 :: ds1, d2 :: ds2 =>
      (mdsCompareXd d1 d2).bind fun equal => if equal then compareAll ds1 ds2 else some false
  | _, _ => some true

end

/-! ### When the comparison is right -/

/-- The comparison ends with the answer whether the trees are equal. -/
def Right (d1 d2 : Desc) : Prop :=
  (mdsCompareXd d1 d2 = some true ∧ Same d1 d2) ∨ (mdsCompareXd d1 d2 = some false ∧ ¬ Same d1 d2)

/-- The pairs of two lists of descriptors, up to the first that differ. -/
inductive Compared : List Desc → List Desc → Desc × Desc → Prop
  | here (d1 d2 : Desc) (ds1 ds2 : List Desc) : Compared (d1 :: ds1) (d2 :: ds2) (d1, d2)
  | later {d1 d2 : Desc} {ds1 ds2 : List Desc} {q : Desc × Desc} (hsame : Same d1 d2)
      (h : Compared ds1 ds2 q) : Compared (d1 :: ds1) (d2 :: ds2) q

/-- The nested descriptors that are compared next, where the headers are equal. -/
def Part (d1 d2 : Desc) (q : Desc × Desc) : Prop :=
  match unwrap d1, unwrap d2 with
  | .r dtype1 data1 dscptrs1, .r dtype2 data2 dscptrs2 =>
      (dtype1 = dtype2 ∧ dscptrs1.length = dscptrs2.length ∧ data1 = data2) ∧
        Compared dscptrs1 dscptrs2 q
  | .ca dtype1 h1 arsize1 pointer1 target1, .ca dtype2 h2 arsize2 pointer2 target2 =>
      (dtype1 = dtype2 ∧ sameHead h1 pointer1 h2 pointer2 ∧ arsize1 = arsize2) ∧
        q = (target1, target2)
  | _, _ => False

/-- A pair of descriptors and the pairs that are compared below it. -/
inductive Met : Desc × Desc → Desc × Desc → Prop
  | self (p : Desc × Desc) : Met p p
  | part {p q r : Desc × Desc} (h : Part p.1 p.2 q) (hmet : Met q r) : Met p r

/-- Two headers that differ in `a0` at most. -/
def Alike (h1 h2 : ArrayHead) : Prop := sameFields h1 h2 ∧ sameDims h1.dims h2.dims

instance (h1 h2 : ArrayHead) : Decidable (Alike h1 h2) :=
  inferInstanceAs (Decidable (sameFields h1 h2 ∧ sameDims h1.dims h2.dims))

/-- The `a0` of two arrays agree just as their distances from what is pointed to. -/
def Steady (h1 : ArrayHead) (pointer1 : ℤ) (h2 : ArrayHead) (pointer2 : ℤ) : Prop :=
  Dims.a0 h1.dims = Dims.a0 h2.dims ↔ distance h1 pointer1 = distance h2 pointer2

/-- What the comparison of two descriptors can judge. -/
def Judged (d1 d2 : Desc) : Prop :=
  match unwrap d1, unwrap d2 with
  | .apd dtype1 h1 pointer1 dscs1, .apd dtype2 h2 pointer2 dscs2 =>
      dtype1 ≠ dtypeDsc ∧ dtype2 ≠ dtypeDsc ∧
        (dtype1 = dtype2 → Alike h1 h2 → pointersSize h1 dscs1 = pointersSize h2 dscs2 →
          if distance h1 pointer1 = distance h2 pointer2 then
            h1.length ≠ 0 ∧ dscs1 = [] ∧ Dims.a0 h1.dims = Dims.a0 h2.dims
          else Dims.a0 h1.dims ≠ Dims.a0 h2.dims ∨ contentAll dscs1 ≠ contentAll dscs2)
  | .apd dtype _ _ _, _ => dtype ≠ dtypeDsc
  | _, .apd dtype _ _ _ => dtype ≠ dtypeDsc
  | .ca dtype1 h1 arsize1 pointer1 target1, .ca dtype2 h2 arsize2 pointer2 target2 =>
      dtype1 = dtype2 → Alike h1 h2 → arsize1 = arsize2 → Same target1 target2 →
        Steady h1 pointer1 h2 pointer2
  | .other cls1 dtype1 data1, .other cls2 dtype2 data2 =>
      ¬ (cls1 = cls2 ∧ dtype1 = dtype2 ∧ data1 = data2)
  | _, _ => True

/-! ### Behind the wrappers -/

theorem unwrap_unwrap (d : Desc) : unwrap (unwrap d) = unwrap d := by
  cases hd : unwrap d with
  | dsc target => exact absurd hd (unwrap_ne_dsc d target)
  | _ => rfl

theorem strip_unwrap (d : Desc) : strip (unwrap d) = strip d := by
  unfold strip
  rw [unwrap_unwrap]

theorem mdsCompareXd_unwrap_left (d1 d2 : Desc) :
    mdsCompareXd (unwrap d1) d2 = mdsCompareXd d1 d2 := by
  induction d1 using unwrap.induct with
  | case1 target ih => exact ih
  | case2 d h => rw [unwrap]; exact h

theorem mdsCompareXd_unwrap_right (d1 d2 : Desc) :
    mdsCompareXd d1 (unwrap d2) = mdsCompareXd d1 d2 := by
  rw [← mdsCompareXd_unwrap_left d1, ← mdsCompareXd_unwrap_left d1]
  cases hd : unwrap d1 with
  | dsc target => exact absurd hd (unwrap_ne_dsc d1 target)
  | _ => simp only [mdsCompareXd, strip_unwrap]

theorem right_unwrap (d1 d2 : Desc) : Right (unwrap d1) (unwrap d2) ↔ Right d1 d2 := by
  unfold Right Same
  rw [mdsCompareXd_unwrap_left, mdsCompareXd_unwrap_right, content_unwrap, content_unwrap]

theorem judged_unwrap (d1 d2 : Desc) : Judged (unwrap d1) (unwrap d2) ↔ Judged d1 d2 := by
  unfold Judged
  rw [unwrap_unwrap, unwrap_unwrap]

theorem part_unwrap (d1 d2 : Desc) (q : Desc × Desc) :
    Part (unwrap d1) (unwrap d2) q ↔ Part d1 d2 q := by
  unfold Part
  rw [unwrap_unwrap, unwrap_unwrap]

/-! ### One pair of descriptors -/

theorem right_of_iff {d1 d2 : Desc} {equal : Bool} (h : mdsCompareXd d1 d2 = some equal)
    (hequal : equal = true ↔ Same d1 d2) : Right d1 d2 := by
  cases equal with
  | true => exact .inl ⟨h, hequal.mp rfl⟩
  | false => exact .inr ⟨h, fun hsame => Bool.false_ne_true (hequal.mpr hsame)⟩

theorem not_right_of_none {d1 d2 : Desc} (h : mdsCompareXd d1 d2 = none) : ¬ Right d1 d2 := by
  rintro (⟨htrue, -⟩ | ⟨hfalse, -⟩)
  · rw [h] at htrue
    cases htrue
  · rw [h] at hfalse
    cases hfalse

theorem sameDims_a0_iff (d1 d2 : Dims) : sameDims d1 d2 ∧ Dims.a0 d1 = Dims.a0 d2 ↔ d1 = d2 := by
  cases d1 <;> cases d2 <;> simp [sameDims, Dims.a0, and_comm]

theorem alike_a0_iff (h1 h2 : ArrayHead) :
    Alike h1 h2 ∧ Dims.a0 h1.dims = Dims.a0 h2.dims ↔ h1 = h2 := by
  obtain ⟨length1, scale1, digits1, binscale1, redim1, column1, dims1⟩ := h1
  obtain ⟨length2, scale2, digits2, binscale2, redim2, column2, dims2⟩ := h2
  simp only [Alike, and_assoc, sameDims_a0_iff, sameFields, Bool.and_eq_true, decide_eq_true_eq,
    ArrayHead.mk.injEq]

theorem sameHead_a_iff (h1 h2 : ArrayHead) : sameHead h1 0 h2 0 ↔ h1 = h2 := by
  rw [← alike_a0_iff]
  unfold sameHead Alike distance
  simp only [Bool.and_eq_true, decide_eq_true_eq]
  refine and_congr_right fun _ => ?_
  cases Dims.a0 h1.dims <;> cases Dims.a0 h2.dims <;> simp

theorem sameHead_iff (h1 h2 : ArrayHead) (pointer1 pointer2 : ℤ) :
    sameHead h1 pointer1 h2 pointer2 ↔
      Alike h1 h2 ∧ distance h1 pointer1 = distance h2 pointer2 := by
  simp only [sameHead, Alike, Bool.and_eq_true, decide_eq_true_eq]

/-- What is left of a descriptor when the wrappers have been stripped off. -/
structure Bare (d : Desc) : Prop where
  not_dsc : ∀ target, d ≠ .dsc target
  not_apd : ∀ h pointer dscs, d ≠ .apd dtypeDsc h pointer dscs

theorem strip_bare {d : Desc} (h : Bare d) : strip d = some d := by
  cases d with
  | dsc target => exact absurd rfl (h.not_dsc target)
  | apd dtype head pointer dscs =>
    refine if_neg fun hd => ?_
    subst hd
    exact h.not_apd head pointer dscs rfl
  | _ => rfl

theorem bare_or_none (d : Desc) :
    Bare (unwrap d) ∨
      strip d = none ∧ ∃ h pointer dscs, unwrap d = .apd dtypeDsc h pointer dscs := by
  by_cases happ : ∃ h pointer dscs, unwrap d = .apd dtypeDsc h pointer dscs
  · obtain ⟨h, pointer, dscs, hd⟩ := happ
    refine .inr ⟨?_, h, pointer, dscs, hd⟩
    unfold strip
    rw [hd]
    exact if_pos rfl
  · refine .inl ⟨unwrap_ne_dsc d, fun h pointer dscs hd => happ ⟨h, pointer, dscs, hd⟩⟩

theorem compare_none_left {h : ArrayHead} {pointer : ℤ} {dscs : List Desc} (d2 : Desc) :
    mdsCompareXd (.apd dtypeDsc h pointer dscs) d2 = none := by
  rw [mdsCompareXd, if_pos rfl]

theorem compare_none_right {d1 d2 : Desc} (h1 : Bare d1) (h2 : strip d2 = none) :
    mdsCompareXd d1 d2 = none := by
  cases d1 with
  | dsc target => exact absurd rfl (h1.not_dsc target)
  | _ => simp [mdsCompareXd, h2]

def kind : Desc → ℕ
  | .null => 0
  | .dsc _ => 1
  | .s .. => 2
  | .xs .. => 3
  | .r .. => 4
  | .a .. => 5
  | .apd .. => 6
  | .ca .. => 7
  | .other .. => 8

theorem Bare.dtype_ne {dtype : Byte} {h : ArrayHead} {pointer : ℤ} {dscs : List Desc}
    (hbare : Bare (.apd dtype h pointer dscs)) : dtype ≠ dtypeDsc := by
  rintro rfl
  exact hbare.not_apd h pointer dscs rfl

/-- Descriptors of different classes are told apart. -/
theorem right_of_kinds {d1 d2 : Desc} (h1 : Bare d1) (h2 : Bare d2) (hkind : kind d1 ≠ kind d2) :
    Right d1 d2 := by
  have hstrip := strip_bare h2
  right
  cases d1 with
  | dsc target => exact absurd rfl (h1.not_dsc target)
  | apd dtype h pointer dscs =>
    have hne := h1.dtype_ne
    cases d2 with
    | dsc target => exact absurd rfl (h2.not_dsc target)
    | apd => exact absurd rfl hkind
    | _ => simp [mdsCompareXd, hne, hstrip, Same, content]
  | _ =>
    cases d2 with
    | dsc target => exact absurd rfl (h2.not_dsc target)
    | _ => first
      | exact absurd rfl hkind
      | simp [mdsCompareXd, hstrip, Same, content]

theorem judged_of_kinds {d1 d2 : Desc} (h1 : Bare d1) (h2 : Bare d2) (hkind : kind d1 ≠ kind d2) :
    Judged d1 d2 := by
  cases d1 with
  | dsc target => exact absurd rfl (h1.not_dsc target)
  | apd dtype h pointer dscs =>
    have hne := h1.dtype_ne
    cases d2 with
    | dsc target => exact absurd rfl (h2.not_dsc target)
    | apd => exact absurd rfl hkind
    | _ => exact hne
  | _ =>
    cases d2 with
    | dsc target => exact absurd rfl (h2.not_dsc target)
    | apd => exact h2.dtype_ne
    | _ => first
      | exact absurd rfl hkind
      | trivial

/-! ### Descriptors of one class -/

theorem Alike.length_eq {h1 h2 : ArrayHead} (h : Alike h1 h2) : h1.length = h2.length := by
  have hfields := h.1
  simp only [sameFields, Bool.and_eq_true, decide_eq_true_eq] at hfields
  exact hfields.1.1.1.1.1

theorem pointersSize_eq {h1 h2 : ArrayHead} {dscs1 dscs2 : List Desc} (h : Alike h1 h2)
    (hdscs : contentAll dscs1 = contentAll dscs2) :
    pointersSize h1 dscs1 = pointersSize h2 dscs2 := by
  have hlen := congrArg List.length hdscs
  rw [contentAll_eq_map, contentAll_eq_map, List.length_map, List.length_map] at hlen
  rw [pointersSize, pointersSize, h.length_eq, hlen]

theorem dscs_eq_nil {h1 h2 : ArrayHead} {dscs2 : List Desc} (h : Alike h1 h2)
    (hlen : h1.length ≠ 0) (hsize : pointersSize h1 [] = pointersSize h2 dscs2) : dscs2 = [] := by
  have hpos : h2.length.toNat ≠ 0 := by
    rw [← h.length_eq]
    exact fun hzero => hlen (BitVec.eq_of_toNat_eq hzero)
  have hzero : h2.length.toNat * dscs2.length = 0 := hsize.symm
  rcases Nat.mul_eq_zero.mp hzero with hz | hz
  · exact absurd hz hpos
  · exact List.length_eq_zero_iff.mp hz

theorem right_apd_iff {dtype1 dtype2 : Byte} (hne1 : dtype1 ≠ dtypeDsc) (hne2 : dtype2 ≠ dtypeDsc)
    (h1 h2 : ArrayHead) (pointer1 pointer2 : ℤ) (dscs1 dscs2 : List Desc) :
    Right (.apd dtype1 h1 pointer1 dscs1) (.apd dtype2 h2 pointer2 dscs2) ↔
      Judged (.apd dtype1 h1 pointer1 dscs1) (.apd dtype2 h2 pointer2 dscs2) := by
  have hsame : Same (.apd dtype1 h1 pointer1 dscs1) (.apd dtype2 h2 pointer2 dscs2) ↔
      dtype1 = dtype2 ∧ (Alike h1 h2 ∧ Dims.a0 h1.dims = Dims.a0 h2.dims) ∧
        contentAll dscs1 = contentAll dscs2 := by
    simp only [Same, content, Desc.apd.injEq, true_and, alike_a0_iff]
  have hstrip : strip (.apd dtype2 h2 pointer2 dscs2) = some (.apd dtype2 h2 pointer2 dscs2) :=
    if_neg hne2
  have hcompare : mdsCompareXd (.apd dtype1 h1 pointer1 dscs1) (.apd dtype2 h2 pointer2 dscs2) =
      if dtype1 = dtype2 ∧ (Alike h1 h2 ∧ distance h1 pointer1 = distance h2 pointer2) ∧
          pointersSize h1 dscs1 = pointersSize h2 dscs2 then
        if h1.length = 0 ∨ dscs1 ≠ [] then none else some true
      else some false := by
    rw [mdsCompareXd, if_neg hne1, hstrip, Option.bind_some]
    refine if_congr ?_ rfl rfl
    rw [sameHead_iff]
  have hjudged : Judged (.apd dtype1 h1 pointer1 dscs1) (.apd dtype2 h2 pointer2 dscs2) ↔
      (dtype1 = dtype2 → Alike h1 h2 → pointersSize h1 dscs1 = pointersSize h2 dscs2 →
        if distance h1 pointer1 = distance h2 pointer2 then
          h1.length ≠ 0 ∧ dscs1 = [] ∧ Dims.a0 h1.dims = Dims.a0 h2.dims
        else Dims.a0 h1.dims ≠ Dims.a0 h2.dims ∨ contentAll dscs1 ≠ contentAll dscs2) :=
    ⟨fun h => h.2.2, fun h => ⟨hne1, hne2, h⟩⟩
  unfold Right
  rw [hsame, hcompare, hjudged]
  by_cases hall : dtype1 = dtype2 ∧ Alike h1 h2 ∧ pointersSize h1 dscs1 = pointersSize h2 dscs2
  · obtain ⟨hdtype, halike, hsize⟩ := hall
    by_cases hdist : distance h1 pointer1 = distance h2 pointer2
    · rw [if_pos ⟨hdtype, ⟨halike, hdist⟩, hsize⟩]
      by_cases hempty : h1.length = 0 ∨ dscs1 ≠ []
      · have hbad : ¬ (h1.length ≠ 0 ∧ dscs1 = [] ∧ Dims.a0 h1.dims = Dims.a0 h2.dims) :=
          fun h => hempty.elim h.1 fun hne => hne h.2.1
        rw [if_pos hempty, if_pos hdist]
        refine iff_of_false ?_ fun h => hbad (h hdtype halike hsize)
        rintro (⟨htrue, -⟩ | ⟨hfalse, -⟩)
        · cases htrue
        · cases hfalse
      · rw [if_neg hempty, if_pos hdist]
        rw [not_or, not_not] at hempty
        obtain ⟨hlen, rfl⟩ := hempty
        obtain rfl := dscs_eq_nil halike hlen hsize
        have hlength : ¬ h1.length = 0#16 := hlen
        simp [hdtype, halike, hsize, hlength]
    · rw [if_neg fun h => hdist h.2.1.2, if_neg hdist]
      simp [hdtype, halike, hsize, imp_iff_not_or]
  · have hcode : ¬ (dtype1 = dtype2 ∧ (Alike h1 h2 ∧ distance h1 pointer1 = distance h2 pointer2) ∧
        pointersSize h1 dscs1 = pointersSize h2 dscs2) := fun h => hall ⟨h.1, h.2.1.1, h.2.2⟩
    have hdiff : ¬ (dtype1 = dtype2 ∧ (Alike h1 h2 ∧ Dims.a0 h1.dims = Dims.a0 h2.dims) ∧
        contentAll dscs1 = contentAll dscs2) :=
      fun h => hall ⟨h.1, h.2.1.1, pointersSize_eq h.2.1.1 h.2.2⟩
    rw [if_neg hcode]
    exact iff_of_true (.inr ⟨rfl, hdiff⟩) fun hd ha hs => absurd ⟨hd, ha, hs⟩ hall

theorem right_ca {dtype1 dtype2 : DataType} {h1 h2 : ArrayHead} {arsize1 arsize2 : Word}
    {pointer1 pointer2 : ℤ} {target1 target2 : Desc}
    (hpart : ∀ q, Part (.ca dtype1 h1 arsize1 pointer1 target1)
      (.ca dtype2 h2 arsize2 pointer2 target2) q → Right q.1 q.2) :
    Right (.ca dtype1 h1 arsize1 pointer1 target1) (.ca dtype2 h2 arsize2 pointer2 target2) ↔
      Judged (.ca dtype1 h1 arsize1 pointer1 target1) (.ca dtype2 h2 arsize2 pointer2 target2) := by
  have hsame : Same (.ca dtype1 h1 arsize1 pointer1 target1)
        (.ca dtype2 h2 arsize2 pointer2 target2) ↔
      dtype1 = dtype2 ∧ (Alike h1 h2 ∧ Dims.a0 h1.dims = Dims.a0 h2.dims) ∧ arsize1 = arsize2 ∧
        Same target1 target2 := by
    simp only [Same, content, Desc.ca.injEq, true_and, alike_a0_iff]
  have hcompare : mdsCompareXd (.ca dtype1 h1 arsize1 pointer1 target1)
        (.ca dtype2 h2 arsize2 pointer2 target2) =
      if dtype1 = dtype2 ∧ sameHead h1 pointer1 h2 pointer2 ∧ arsize1 = arsize2 then
        mdsCompareXd target1 target2
      else some false := by
    rw [mdsCompareXd]
    rfl
  have hjudged : Judged (.ca dtype1 h1 arsize1 pointer1 target1)
        (.ca dtype2 h2 arsize2 pointer2 target2) ↔
      (dtype1 = dtype2 → Alike h1 h2 → arsize1 = arsize2 → Same target1 target2 →
        Steady h1 pointer1 h2 pointer2) := Iff.rfl
  by_cases hheads : dtype1 = dtype2 ∧ sameHead h1 pointer1 h2 pointer2 ∧ arsize1 = arsize2
  · have hright : Right target1 target2 := hpart (target1, target2) ⟨hheads, rfl⟩
    obtain ⟨hdtype, hhead, harsize⟩ := hheads
    rw [sameHead_iff] at hhead
    obtain ⟨halike, hdist⟩ := hhead
    unfold Right at hright ⊢
    rw [hsame, hcompare, hjudged, if_pos ⟨hdtype, (sameHead_iff ..).mpr ⟨halike, hdist⟩, harsize⟩]
    rcases hright with ⟨hr, htarget⟩ | ⟨hr, htarget⟩
    · simp [hr, htarget, hdtype, halike, harsize, Steady, hdist]
    · simp [hr, htarget]
  · unfold Right
    rw [hsame, hcompare, hjudged, if_neg hheads]
    rw [sameHead_iff] at hheads
    by_cases hall : dtype1 = dtype2 ∧ Alike h1 h2 ∧ arsize1 = arsize2
    · obtain ⟨hdtype, halike, harsize⟩ := hall
      have hdist : distance h1 pointer1 ≠ distance h2 pointer2 :=
        fun hd => hheads ⟨hdtype, ⟨halike, hd⟩, harsize⟩
      simp [hdtype, halike, harsize, Steady, hdist, imp_not_comm]
    · refine iff_of_true (.inr ⟨rfl, fun h => hall ⟨h.1, h.2.1.1, h.2.2.1⟩⟩) ?_
      exact fun hd ha hs => absurd ⟨hd, ha, hs⟩ hall

theorem compareAll_right {ds1 ds2 : List Desc} (hlen : ds1.length = ds2.length)
    (hright : ∀ q, Compared ds1 ds2 q → Right q.1 q.2) :
    (compareAll ds1 ds2 = some true ∧ contentAll ds1 = contentAll ds2) ∨
      (compareAll ds1 ds2 = some false ∧ contentAll ds1 ≠ contentAll ds2) := by
  induction ds1 generalizing ds2 with
  | nil =>
    obtain rfl := List.length_eq_zero_iff.mp hlen.symm
    left
    simp [compareAll]
  | cons d1 ds1 ih =>
    cases ds2 with
    | nil => cases hlen
    | cons d2 ds2 =>
      have hhead : Right d1 d2 := hright (d1, d2) (.here ..)
      rw [compareAll, contentAll, contentAll]
      rcases hhead with ⟨hd, hsame⟩ | ⟨hd, hsame⟩
      · have htail := ih (Nat.succ.inj hlen) fun q hq => hright q (.later hsame hq)
        have hcontent : content d1 = content d2 := hsame
        rw [hd, hcontent]
        rcases htail with ⟨hds, heq⟩ | ⟨hds, hne⟩
        · exact .inl ⟨hds, congrArg _ heq⟩
        · exact .inr ⟨hds, fun h => hne (List.cons.inj h).2⟩
      · rw [hd]
        exact .inr ⟨rfl, fun h => hsame (List.cons.inj h).1⟩

theorem right_r {dtype1 dtype2 : DataType} {data1 data2 : List Byte} {dscptrs1 dscptrs2 : List Desc}
    (hparts : ∀ q, Part (.r dtype1 data1 dscptrs1) (.r dtype2 data2 dscptrs2) q →
      Right q.1 q.2) :
    Right (.r dtype1 data1 dscptrs1) (.r dtype2 data2 dscptrs2) := by
  have hsame : Same (.r dtype1 data1 dscptrs1) (.r dtype2 data2 dscptrs2) ↔
      dtype1 = dtype2 ∧ data1 = data2 ∧ contentAll dscptrs1 = contentAll dscptrs2 := by
    simp only [Same, content, Desc.r.injEq]
  have hcompare : mdsCompareXd (.r dtype1 data1 dscptrs1) (.r dtype2 data2 dscptrs2) =
      if dtype1 = dtype2 ∧ dscptrs1.length = dscptrs2.length ∧ data1 = data2 then
        compareAll dscptrs1 dscptrs2
      else some false := by
    rw [mdsCompareXd]
    rfl
  by_cases hheads : dtype1 = dtype2 ∧ dscptrs1.length = dscptrs2.length ∧ data1 = data2
  · have hright : ∀ q, Compared dscptrs1 dscptrs2 q → Right q.1 q.2 :=
      fun q hq => hparts q ⟨hheads, hq⟩
    unfold Right
    rw [hsame, hcompare, if_pos hheads]
    obtain ⟨hdtype, hlen, hdata⟩ := hheads
    rcases compareAll_right hlen hright with ⟨hall, heq⟩ | ⟨hall, hne⟩
    · exact .inl ⟨hall, hdtype, hdata, heq⟩
    · exact .inr ⟨hall, fun h => hne h.2.2⟩
  · refine .inr ⟨hcompare.trans (if_neg hheads), fun h => ?_⟩
    obtain ⟨hdtype, hdata, hdscs⟩ := hsame.mp h
    have hlen := congrArg List.length hdscs
    rw [contentAll_eq_map, contentAll_eq_map, List.length_map, List.length_map] at hlen
    exact hheads ⟨hdtype, hlen, hdata⟩

theorem right_bare_iff {d1 d2 : Desc} (h1 : Bare d1) (h2 : Bare d2)
    (hparts : ∀ q, Part d1 d2 q → Right q.1 q.2) : Right d1 d2 ↔ Judged d1 d2 := by
  by_cases hkind : kind d1 = kind d2
  · cases d1 with
    | dsc target => exact absurd rfl (h1.not_dsc target)
    | null =>
      cases d2 <;> try cases hkind
      exact iff_of_true (right_of_iff rfl ⟨fun _ => rfl, fun _ => rfl⟩) trivial
    | s dynamic1 dtype1 data1 =>
      cases d2 <;> try cases hkind
      refine iff_of_true (right_of_iff rfl ?_) trivial
      simp [Same, content, unwrap]
    | xs dynamic1 dtype1 data1 =>
      cases d2 <;> try cases hkind
      refine iff_of_true (right_of_iff rfl ?_) trivial
      simp [Same, content, unwrap]
    | r dtype1 data1 dscptrs1 =>
      cases d2 <;> try cases hkind
      exact iff_of_true (right_r hparts) trivial
    | a dtype1 head1 data1 =>
      cases d2 <;> try cases hkind
      refine iff_of_true (right_of_iff rfl ?_) trivial
      simp [Same, content, unwrap, sameHead_a_iff, and_assoc]
    | apd dtype1 head1 pointer1 dscs1 =>
      cases d2 <;> try cases hkind
      exact right_apd_iff h1.dtype_ne h2.dtype_ne ..
    | ca dtype1 head1 arsize1 pointer1 target1 =>
      cases d2 <;> try cases hkind
      exact right_ca hparts
    | other cls1 dtype1 data1 =>
      cases d2 <;> try cases hkind
      simp [Right, mdsCompareXd, strip, unwrap, Same, content, Judged]
  · exact iff_of_true (right_of_kinds h1 h2 hkind) (judged_of_kinds h1 h2 hkind)

theorem not_judged_left {h : ArrayHead} {pointer : ℤ} {dscs : List Desc} (d2 : Desc) :
    ¬ Judged (.apd dtypeDsc h pointer dscs) d2 := by
  unfold Judged
  cases hd : unwrap d2 <;> simp [unwrap]

theorem not_judged_right {h : ArrayHead} {pointer : ℤ} {dscs : List Desc} (d1 : Desc) :
    ¬ Judged d1 (.apd dtypeDsc h pointer dscs) := by
  unfold Judged
  cases hd : unwrap d1 <;> simp [unwrap]

theorem right_iff_judged {d1 d2 : Desc} (hparts : ∀ q, Part d1 d2 q → Right q.1 q.2) :
    Right d1 d2 ↔ Judged d1 d2 := by
  rw [← right_unwrap, ← judged_unwrap]
  have hbare : ∀ q, Part (unwrap d1) (unwrap d2) q → Right q.1 q.2 :=
    fun q hq => hparts q ((part_unwrap ..).mp hq)
  rcases bare_or_none d1 with h1 | ⟨-, head, pointer, dscs, hd1⟩
  · rcases bare_or_none d2 with h2 | ⟨hnone, head, pointer, dscs, hd2⟩
    · exact right_bare_iff h1 h2 hbare
    · rw [← strip_unwrap] at hnone
      refine iff_of_false (not_right_of_none (compare_none_right h1 hnone)) ?_
      rw [hd2]
      exact not_judged_right _
  · rw [hd1]
    exact iff_of_false (not_right_of_none (compare_none_left _)) (not_judged_left _)

/-! ### Every pair of trees -/

theorem sizeOf_unwrap_le (d : Desc) : sizeOf (unwrap d) ≤ sizeOf d := by
  induction d using unwrap.induct with
  | case1 target ih =>
    rw [unwrap, Desc.dsc.sizeOf_spec]
    omega
  | case2 d h =>
    have hd : unwrap d = d := by rw [unwrap]; exact h
    exact Nat.le_of_eq (congrArg sizeOf hd)

theorem Compared.mem {ds1 ds2 : List Desc} {q : Desc × Desc} (h : Compared ds1 ds2 q) :
    q.1 ∈ ds1 := by
  induction h with
  | here d1 d2 ds1 ds2 => exact List.mem_cons_self ..
  | later hsame h ih => exact List.mem_cons_of_mem _ ih

theorem Part.sizeOf_lt {d1 d2 : Desc} {q : Desc × Desc} (h : Part d1 d2 q) :
    sizeOf q.1 < sizeOf d1 := by
  refine Nat.lt_of_lt_of_le ?_ (sizeOf_unwrap_le d1)
  unfold Part at h
  split at h
  · next hd1 hd2 =>
    rw [hd1, Desc.r.sizeOf_spec]
    have hmem := List.sizeOf_lt_of_mem h.2.mem
    omega
  · next hd1 hd2 =>
    obtain ⟨-, rfl⟩ := h
    rw [hd1, Desc.ca.sizeOf_spec]
    dsimp only
    omega
  · cases h

theorem right_of_judged (d1 d2 : Desc) (h : ∀ q, Met (d1, d2) q → Judged q.1 q.2) :
    Right d1 d2 := by
  have hself : Judged d1 d2 := h _ (.self _)
  refine (right_iff_judged fun q hq => ?_).mpr hself
  have hlt := hq.sizeOf_lt
  exact right_of_judged q.1 q.2 fun r hr => h r (.part hq hr)
termination_by sizeOf d1

theorem Met.trans {p q r : Desc × Desc} (hpq : Met p q) (hqr : Met q r) : Met p r := by
  induction hpq with
  | self => exact hqr
  | part h _ ih => exact .part h (ih hqr)

/-- Every comparison that two trees lead to ends with the right answer just if the comparison can
judge all of them. -/
theorem compare_iff (d1 d2 : Desc) :
    (∀ q, Met (d1, d2) q → Right q.1 q.2) ↔ ∀ q, Met (d1, d2) q → Judged q.1 q.2 := by
  constructor
  · intro hright q hq
    refine (right_iff_judged fun r hr => ?_).mp (hright q hq)
    exact hright r (hq.trans (.part hr (.self r)))
  · intro hjudged q hq
    exact right_of_judged q.1 q.2 fun r hr => hjudged r (hq.trans hr)

/-- An array of one pointer and a descriptor of class NCA (10) differ from themselves. -/
theorem list_ne_list :
    ¬ Right (.apd 214 ⟨8, 0, 0, false, false, false, .plain 1⟩ 0 [.null])
        (.apd 214 ⟨8, 0, 0, false, false, false, .plain 1⟩ 0 [.null]) ∧
      ¬ Right (.other 10 ⟨8, by decide⟩ [1]) (.other 10 ⟨8, by decide⟩ [1]) := by
  constructor
  · exact not_right_of_none rfl
  · rintro (⟨htrue, -⟩ | ⟨-, hne⟩)
    · cases htrue
    · exact hne rfl

/-! ### Either order -/

theorem sameHead_comm (h1 h2 : ArrayHead) (pointer1 pointer2 : ℤ) :
    sameHead h1 pointer1 h2 pointer2 = sameHead h2 pointer2 h1 pointer1 := by
  have hdims : sameDims h1.dims h2.dims = sameDims h2.dims h1.dims := by
    cases h1.dims <;> cases h2.dims <;> simp [sameDims, eq_comm]
  simp only [sameHead, sameFields, hdims, eq_comm]

theorem compareAll_comm {ds1 ds2 : List Desc}
    (h : ∀ d1 ∈ ds1, ∀ d2, mdsCompareXd d1 d2 = mdsCompareXd d2 d1) :
    compareAll ds1 ds2 = compareAll ds2 ds1 := by
  induction ds1 generalizing ds2 with
  | nil => cases ds2 <;> simp [compareAll]
  | cons d1 ds1 ih =>
    cases ds2 with
    | nil => simp [compareAll]
    | cons d2 ds2 =>
      rw [compareAll, compareAll, h d1 List.mem_cons_self,
        ih fun d hd => h d (List.mem_cons_of_mem d1 hd)]

theorem none_of_apd {h1 h2 : ArrayHead} {dscs1 dscs2 : List Desc} (h : Alike h1 h2)
    (hsize : pointersSize h1 dscs1 = pointersSize h2 dscs2) (hnone : h2.length = 0 ∨ dscs2 ≠ []) :
    h1.length = 0 ∨ dscs1 ≠ [] := by
  by_contra hsome
  obtain ⟨hlen, hdscs⟩ := not_or.mp hsome
  obtain rfl := not_not.mp hdscs
  rcases hnone with hzero | hne
  · exact hlen (h.length_eq.trans hzero)
  · exact hne (dscs_eq_nil h hlen hsize)

theorem comm_of_kind {d1 d2 : Desc} (h1 : Bare d1) (h2 : Bare d2) (hkind : kind d1 = kind d2)
    (hnested : ∀ d, sizeOf d < sizeOf d1 → ∀ e, mdsCompareXd d e = mdsCompareXd e d) :
    mdsCompareXd d1 d2 = mdsCompareXd d2 d1 := by
  have hstrip1 := strip_bare h1
  have hstrip2 := strip_bare h2
  cases d1 with
  | dsc target => exact absurd rfl (h1.not_dsc target)
  | r dtype1 data1 dscptrs1 =>
    cases d2 <;> try cases hkind
    next dtype2 data2 dscptrs2 =>
      have hall : compareAll dscptrs1 dscptrs2 = compareAll dscptrs2 dscptrs1 := by
        refine compareAll_comm fun d hd => hnested d ?_
        have hlt := List.sizeOf_lt_of_mem hd
        rw [Desc.r.sizeOf_spec]
        omega
      rw [mdsCompareXd, mdsCompareXd, hstrip1, hstrip2]
      simp only [Option.bind_some, hall]
      congr 1
      simp only [eq_comm]
  | apd dtype1 head1 pointer1 dscs1 =>
    cases d2 <;> try cases hkind
    next dtype2 head2 pointer2 dscs2 =>
      have hswap {dtype1 dtype2 : Byte} {head1 head2 : ArrayHead} {pointer1 pointer2 : ℤ}
          {dscs1 dscs2 : List Desc} (h : dtype1 = dtype2 ∧ sameHead head1 pointer1 head2 pointer2 ∧
            pointersSize head1 dscs1 = pointersSize head2 dscs2) :
          dtype2 = dtype1 ∧ sameHead head2 pointer2 head1 pointer1 ∧
            pointersSize head2 dscs2 = pointersSize head1 dscs1 :=
        ⟨h.1.symm, sameHead_comm head1 .. ▸ h.2.1, h.2.2.symm⟩
      rw [mdsCompareXd, mdsCompareXd, if_neg h1.dtype_ne, if_neg h2.dtype_ne, hstrip1, hstrip2]
      simp only [Option.bind_some]
      by_cases hall : dtype1 = dtype2 ∧ sameHead head1 pointer1 head2 pointer2 ∧
          pointersSize head1 dscs1 = pointersSize head2 dscs2
      · rw [if_pos hall, if_pos (hswap hall)]
        exact if_congr
          ⟨none_of_apd ((sameHead_iff ..).mp (hswap hall).2.1).1 hall.2.2.symm,
            none_of_apd ((sameHead_iff ..).mp hall.2.1).1 hall.2.2⟩ rfl rfl
      · rw [if_neg hall, if_neg fun h => hall (hswap h)]
  | ca dtype1 head1 arsize1 pointer1 target1 =>
    cases d2 <;> try cases hkind
    next dtype2 head2 arsize2 pointer2 target2 =>
      have htarget := hnested target1 (by rw [Desc.ca.sizeOf_spec]; omega) target2
      rw [mdsCompareXd, mdsCompareXd, hstrip1, hstrip2]
      simp only [Option.bind_some, htarget, sameHead_comm head1]
      congr 1
      simp only [eq_comm]
  | _ =>
    cases d2 <;> try cases hkind
    simp [mdsCompareXd, strip, unwrap, sameHead_comm, eq_comm]

theorem mdsCompareXd_comm (d1 d2 : Desc) : mdsCompareXd d1 d2 = mdsCompareXd d2 d1 := by
  have hle := sizeOf_unwrap_le d1
  have hnested : ∀ d, sizeOf d < sizeOf (unwrap d1) → ∀ e, mdsCompareXd d e = mdsCompareXd e d :=
    fun d hd e => mdsCompareXd_comm d e
  rw [← mdsCompareXd_unwrap_left d1, ← mdsCompareXd_unwrap_right _ d2,
    ← mdsCompareXd_unwrap_left d2, ← mdsCompareXd_unwrap_right _ d1]
  rcases bare_or_none d1 with h1 | ⟨hnone1, head1, pointer1, dscs1, hd1⟩
  · rcases bare_or_none d2 with h2 | ⟨hnone2, head2, pointer2, dscs2, hd2⟩
    · by_cases hkind : kind (unwrap d1) = kind (unwrap d2)
      · exact comm_of_kind h1 h2 hkind hnested
      · have hback := right_of_kinds h2 h1 (Ne.symm hkind)
        rcases right_of_kinds h1 h2 hkind with ⟨ha, hs⟩ | ⟨ha, hs⟩
        · rcases hback with ⟨hb, -⟩ | ⟨-, ht⟩
          · rw [ha, hb]
          · exact absurd hs.symm ht
        · rcases hback with ⟨-, ht⟩ | ⟨hb, -⟩
          · exact absurd ht.symm hs
          · rw [ha, hb]
    · rw [← strip_unwrap] at hnone2
      rw [compare_none_right h1 hnone2, hd2, compare_none_left]
  · rw [← strip_unwrap] at hnone1
    rw [hd1, compare_none_left, ← hd1]
    rcases bare_or_none d2 with h2 | ⟨-, head2, pointer2, dscs2, hd2⟩
    · rw [compare_none_right h2 hnone1]
    · rw [hd2, compare_none_left]
termination_by sizeOf d1

end MdsPlus.Comparisons
