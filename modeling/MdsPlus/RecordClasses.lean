import MdsPlus.RecordCounts

/-!
Whether the counts agree, class by class. The header of each class is counted as it is written and
decoded, but for strings whose length is taken for another, records of nothing, arrays whose length
is zero and arrays of pointers with multipliers.
-/

namespace MdsPlus.RecordClasses

open BitMemory DescriptorTrees SerializedRecords DescriptorRecords RecordSizes BlockLayout
open RecordCounts

/-! ### Strings -/

theorem holdsBytes_nil (mem : Memory) (pos : ℕ) : HoldsBytes mem pos [] :=
  fun i hi => absurd hi (Nat.not_lt_zero i)

section Decoded

variable {mem : Memory} {pos : ℕ} {cls : SerializedRecords.Class} {flags : List Bool} {inp out : ℕ}
  {bodies : List (List Byte)} {outs : List ℕ} {t : Tree}

theorem not_divides (hf : Front mem pos cls flags (BitVec.ofNat 32 inp) (BitVec.ofNat 32 out))
    (hapd : cls ≠ .apd) (ha : cls ≠ .a) (write : Bool) : ¬ Divides write mem pos := by
  intro h
  rcases h with h | h
  · exact hapd (hf.cls.symm.trans h.1)
  · exact ha (hf.cls.symm.trans h.2.1)

theorem bytesOut_eq_filled
    (hf : Front mem pos cls flags (BitVec.ofNat 32 inp) (BitVec.ofNat 32 out)) (ha : cls ≠ .a) :
    bytesOut mem pos = filled mem pos := by
  unfold filled
  split
  · next h => exact absurd (hf.cls.symm.trans h) ha
  · rfl

theorem decodes_of_front
    (hf : Front mem pos cls flags (BitVec.ofNat 32 inp) (BitVec.ofNat 32 out)) (hcls : cls ≠ .other)
    (hdiv : ∀ write, ¬ Divides write mem pos) (h : Matches flags bodies outs)
    (hmem : HoldsBytes mem (pos + inp) bodies.flatten)
    (hrecord : inp + bodies.flatten.length = recordSize t) (hfits : recordSize t < 2 ^ 32)
    (hdecoded : ends (cls = .r) out outs = decodedSize t) :
    ∃ depth, ∀ write, copyRecDx mem write depth pos =
      .ok ⟨.success, BitVec.ofNat 32 (decodedSize t), BitVec.ofNat 32 (recordSize t)⟩ := by
  rw [← hrecord] at hfits ⊢
  obtain ⟨depth, hd⟩ := copyRecDx_front hf hcls hdiv h hmem hfits
  rw [← hdecoded]
  exact ⟨depth, (hd depth (Nat.le_refl depth)).1⟩

end Decoded

section Strings

variable {exact dynamic : Bool} {length : BitVec 16} {dtype : Byte} {data : List Byte}

theorem copyDxRec_s : copyDxRec (.s dynamic dtype data) =
    node 0 (8 + BitVec.ofNat 32 data.length) (fun _ => sBytes dynamic dtype data) [] := by
  rw [copyDxRec]

theorem copyDxRec_xs : copyDxRec (.xs dynamic length dtype data) =
    node 0 (12 + BitVec.ofNat 32 data.length) (fun _ => xsBytes dynamic length dtype data) [] := by
  rw [copyDxRec]

theorem kept_s (hdata : data.length < 2 ^ 16) :
    Kept exact (.s dynamic dtype data) ↔ Sound exact (.s dynamic dtype data) := by
  have hlength : (BitVec.ofNat 16 data.length).toNat = data.length := Nat.mod_eq_of_lt hdata
  have hfix := (fixLength dtype (BitVec.ofNat 16 data.length)).isLt
  have hround := roundUp_lt (n := 16 + data.length) (show 0 < 8 by omega)
  have hdecoded : 8 + data.length + 0 < 2 ^ 32 → ∀ mem,
      HoldsBytes mem 0 (sBytes dynamic dtype data ++ []) →
      (Decoded exact mem (BitVec.ofNat 32 (8 + data.length + 0)) ↔
        fixLength dtype (BitVec.ofNat 16 data.length) = BitVec.ofNat 16 data.length) := by
    intro _ mem hmem
    rw [List.append_nil] at hmem
    obtain ⟨hf, hl⟩ := front_s hmem
    have hstop : ∀ base, headEnd mem 0 base =
        16 + (fixLength dtype (BitVec.ofNat 16 data.length)).toNat := by
      intro base
      rw [headEnd, hf.cls, hl]
    rw [decoded_iff_lt exact _ hf nofun (not_divides hf nofun nofun) .nil (holdsBytes_nil mem _)
      (by rw [List.flatten_nil, List.length_nil]; omega) hstop (le_roundUp (by omega))
      (roundUp_lt (by omega)) (by omega) (bytesOut_eq_filled hf nofun)]
    constructor
    · rintro ⟨heq, -⟩
      have hval := congrArg BitVec.toNat heq
      rw [List.flatten_nil, List.length_nil, BitVec.toNat_ofNat, BitVec.toNat_ofNat,
        Nat.mod_eq_of_lt (by omega), Nat.mod_eq_of_lt (by omega)] at hval
      apply BitVec.eq_of_toNat_eq
      omega
    · intro heq
      rw [heq, hlength, ends]
      exact ⟨rfl, by omega⟩
  rw [kept_node copyDxRec_s (fun _ _ => sBytes_length dynamic dtype data) (by omega) .nil hdecoded]
  constructor
  · rintro ⟨-, hfits, hagrees⟩
    refine ⟨hagrees, ?_, ?_⟩
    · rw [recordSize]
      exact hfits
    · rw [decodedSize]
      omega
  · intro h
    refine ⟨(BitVec.ofNat_add 8 data.length).symm, ?_, h.agrees⟩
    rw [List.flatten_nil, List.length_nil]
    omega

theorem good_s (hdata : data.length < 2 ^ 16) (h : Sound exact (.s dynamic dtype data)) :
    ∃ bytes, Good (.s dynamic dtype data) bytes := by
  have hlength : (BitVec.ofNat 16 data.length).toNat = data.length := Nat.mod_eq_of_lt hdata
  have hrecord : 8 + data.length + ([] : List (List Byte)).flatten.length =
      recordSize (.s dynamic dtype data) := by
    rw [recordSize, List.flatten_nil, List.length_nil, Nat.add_zero]
  refine good_node copyDxRec_s (fun _ _ => sBytes_length dynamic dtype data)
    (BitVec.ofNat_add 8 data.length).symm .nil hrecord h.record h.decoded fun mem pos hmem => ?_
  rw [List.flatten_nil, List.append_nil] at hmem
  obtain ⟨hf, -⟩ := front_s hmem
  rw [h.agrees, hlength] at hf
  exact decodes_of_front hf nofun (not_divides hf nofun nofun) .nil (holdsBytes_nil mem _) hrecord
    h.record (by rw [decodedSize, ends])

theorem kept_xs :
    Kept exact (.xs dynamic length dtype data) ↔ Sound exact (.xs dynamic length dtype data) := by
  have hdecoded : 12 + data.length + 0 < 2 ^ 32 → ∀ mem,
      HoldsBytes mem 0 (xsBytes dynamic length dtype data ++ []) →
      (Decoded exact mem (BitVec.ofNat 32 (12 + data.length + 0)) ↔
        roundUp (24 + data.length) 8 < 2 ^ 32) := by
    intro hfits mem hmem
    rw [List.append_nil] at hmem
    obtain ⟨hf, hl⟩ := front_xs hmem
    have hstop : ∀ base, headEnd mem 0 base = 24 + data.length := by
      intro base
      rw [headEnd, hf.cls, hl]
      exact congrArg (24 + ·) (Nat.mod_eq_of_lt (by omega))
    rw [decoded_iff_lt exact _ hf nofun (not_divides hf nofun nofun) .nil (holdsBytes_nil mem _)
      hfits hstop (le_roundUp (by omega)) (roundUp_lt (by omega)) (by omega)
      (bytesOut_eq_filled hf nofun)]
    exact and_iff_right rfl
  rw [kept_node copyDxRec_xs (fun _ _ => xsBytes_length dynamic length dtype data) (by omega) .nil
    hdecoded]
  constructor
  · rintro ⟨-, hfits, hround⟩
    refine ⟨trivial, ?_, ?_⟩
    · rw [recordSize]
      exact hfits
    · rw [decodedSize]
      exact hround
  · intro h
    have hrecord := h.record
    have hround := h.decoded
    rw [recordSize] at hrecord
    rw [decodedSize] at hround
    exact ⟨(BitVec.ofNat_add 12 data.length).symm, hrecord, hround⟩

theorem good_xs (h : Sound exact (.xs dynamic length dtype data)) :
    ∃ bytes, Good (.xs dynamic length dtype data) bytes := by
  have hrecord : 12 + data.length + ([] : List (List Byte)).flatten.length =
      recordSize (.xs dynamic length dtype data) := by
    rw [recordSize, List.flatten_nil, List.length_nil, Nat.add_zero]
  refine good_node copyDxRec_xs (fun _ _ => xsBytes_length dynamic length dtype data)
    (BitVec.ofNat_add 12 data.length).symm .nil hrecord h.record h.decoded fun mem pos hmem => ?_
  rw [List.flatten_nil, List.append_nil] at hmem
  obtain ⟨hf, -⟩ := front_xs hmem
  exact decodes_of_front hf nofun (not_divides hf nofun nofun) .nil (holdsBytes_nil mem _) hrecord
    h.record (by rw [decodedSize, ends])

end Strings

/-! ### Arrays -/

section Arrays

variable {exact : Bool} {dtype : Byte} {h : ArrayHead} {data : List Byte}

theorem copyDxRec_a : copyDxRec (.a dtype h data) =
    node 0 (16 + shapeCount h.dims + BitVec.ofNat 32 data.length) (fun _ => aBytes dtype h data)
      [] := by
  rw [copyDxRec]

theorem alignRoom_eq_zero_iff (dtype : Byte) (length : BitVec 16) :
    (alignRoom dtype length).toNat = 0 ↔ ¬ (dtype = dtypeT ∨ fixLength dtype length ≠ 0) := by
  unfold alignRoom
  split
  · next htext => exact iff_of_false (by decide) fun h => h (.inl htext)
  · next htext =>
    rw [BitVec.toNat_setWidth_of_le (by omega), not_or, not_not]
    exact ⟨fun hzero => ⟨htext, BitVec.eq_of_toNat_eq hzero⟩, fun h => by rw [h.2]; rfl⟩

/-- Wherever an array is written, its data is behind its header and within the count. The worst
place for it is just behind a multiple of its alignment. -/
theorem array_laid_iff {dsc room len : ℕ} (hdsc : 0 < dsc) (hroom : 0 < room)
    (hdscsize : dsc + room < 2 ^ 32) (hlen : len < 2 ^ 32) :
    (∀ base, roundUp (base + dsc) room - base + len ≤ (dsc + len + room + len) % 2 ^ 32) ↔
      dsc + len + room + len < 2 ^ 32 := by
  constructor
  · intro h
    obtain ⟨base, hbase⟩ : ∃ base, base + dsc = dsc * room + 1 :=
      ⟨dsc * room + 1 - dsc,
        Nat.sub_add_cancel (Nat.le_succ_of_le (Nat.le_mul_of_pos_right dsc hroom))⟩
    have hworst := h base
    rw [hbase, roundUp_succ dsc hroom] at hworst
    have hmod := Nat.mod_lt (dsc + len + room + len) (show 0 < 2 ^ 32 by omega)
    omega
  · intro h base
    have hlt := roundUp_lt (n := base + dsc) hroom
    rw [Nat.mod_eq_of_lt h]
    omega

theorem not_decoded_of_divides {mem : Memory} {size : Word} (hword : readWord mem 0 ≠ 0)
    (hdiv : Divides true mem 0) : ¬ Decoded exact mem size := by
  rintro ⟨⟨depth, out, hd⟩, -⟩
  have hok := (hd (depth + 1) (Nat.le_succ depth)).1 true
  rw [copyRecDx_divides depth hword hdiv] at hok
  exact nomatch hok

theorem array_filled_iff (dsc room : Word) {len : ℕ} (hlen : len < 2 ^ 32) :
    dsc + BitVec.ofNat 32 len + room + BitVec.ofNat 32 len = dsc + room + BitVec.ofNat 32 len ↔
      len = 0 := by
  constructor
  · intro heq
    have hzero : BitVec.ofNat 32 len = 0 := by bv_omega
    have hval := congrArg BitVec.toNat hzero
    rw [BitVec.toNat_ofNat, Nat.mod_eq_of_lt hlen] at hval
    exact hval
  · rintro rfl
    simp

theorem arrayCount_eq (h : ArrayHead) (len : ℕ) :
    16 + shapeCount h.dims + BitVec.ofNat 32 len =
      BitVec.ofNat 32 (16 + shapeSize h.dims + len) := by
  rw [shapeCount, BitVec.ofNat_add, BitVec.ofNat_add]
  rfl

theorem not_divides_a {write : Bool} {mem : Memory} {pos : ℕ} (hcls : classOf mem pos = .a)
    (hsize : alignSize mem pos ≠ 0) : ¬ Divides write mem pos := by
  rintro (h | h)
  · rw [hcls] at h
    exact nomatch h.1
  · exact hsize h.2.2

theorem kept_a (hdimct : DescriptorRecords.dimct h.dims < 2 ^ 8) (hdata : data.length < 2 ^ 32) :
    Kept exact (.a dtype h data) ↔ Sound exact (.a dtype h data) := by
  have hshape := shapeOutSize_le hdimct
  have hroomlt : (alignRoom dtype h.length).toNat ≤ 2 ^ 16 := by
    unfold alignRoom
    split
    · decide
    · rw [BitVec.toNat_setWidth_of_le (by omega)]
      exact Nat.le_of_lt (fixLength dtype h.length).isLt
  have hdecoded : 16 + shapeSize h.dims + data.length + 0 < 2 ^ 32 → ∀ mem,
      HoldsBytes mem 0 (aBytes dtype h data ++ []) →
      (Decoded exact mem (BitVec.ofNat 32 (16 + shapeSize h.dims + data.length + 0)) ↔
        Alike exact (.a dtype h data) ∧ decodedSize (.a dtype h data) < 2 ^ 32) := by
    intro hfits mem hmem
    rw [List.append_nil] at hmem
    obtain ⟨hf, halign, hout, harsize⟩ := front_a hdimct hmem
    rw [Alike, decodedSize]
    by_cases hroom : (alignRoom dtype h.length).toNat = 0
    · have hzero : alignSize mem 0 = 0 := halign.trans (BitVec.eq_of_toNat_eq hroom)
      refine iff_of_false (not_decoded_of_divides hf.word (.inr ⟨rfl, hf.cls, hzero⟩)) ?_
      exact fun hsound => (alignRoom_eq_zero_iff dtype h.length).mp hroom hsound.1.1
    · have hdiv : ∀ write, ¬ Divides write mem 0 := by
        refine fun write => not_divides_a hf.cls fun hzero => hroom ?_
        rw [← halign, hzero]
        rfl
      have hagrees := not_not.mp (mt (alignRoom_eq_zero_iff dtype h.length).mpr hroom)
      have hlen : (BitVec.ofNat 32 data.length).toNat = data.length := Nat.mod_eq_of_lt hdata
      have hlaid := array_laid_iff (show 0 < 24 + shapeOutSize h.dims by omega)
        (Nat.pos_of_ne_zero hroom) (by omega) hdata
      have hfilled : bytesOut mem 0 = filled mem 0 ↔ data = [] := by
        unfold bytesOut filled
        rw [hf.cls]
        dsimp only
        rw [hout, halign, harsize, array_filled_iff _ _ hdata, List.length_eq_zero_iff]
      rw [decoded_iff exact _ hf (by rintro ⟨⟩) hdiv .nil (holdsBytes_nil mem _) hfits, hfilled]
      have hend : ∀ base, headEnd mem 0 base =
          roundUp (base + (24 + shapeOutSize h.dims)) (alignRoom dtype h.length).toNat - base +
            data.length := by
        intro base
        rw [headEnd, hf.cls]
        dsimp only
        rw [hout, halign, harsize, hlen]
      simp only [places, ends, LaidOut, hend, hlaid]
      exact ⟨fun hd => ⟨⟨hagrees, hd.2.1⟩, hd.2.2⟩, fun hd => ⟨rfl, hd.1.2, hd.2⟩⟩
  rw [kept_node copyDxRec_a (fun _ _ => aBytes_length dtype h data) (by omega) .nil hdecoded]
  constructor
  · rintro ⟨-, hfits, hagrees, hdecoded⟩
    refine ⟨hagrees, ?_, hdecoded⟩
    rw [recordSize]
    exact hfits
  · intro hsound
    have hrecord := hsound.record
    rw [recordSize] at hrecord
    refine ⟨?_, hrecord, hsound.agrees, hsound.decoded⟩
    exact arrayCount_eq h data.length

theorem good_a (hdimct : DescriptorRecords.dimct h.dims < 2 ^ 8)
    (hsound : Sound exact (.a dtype h data)) : ∃ bytes, Good (.a dtype h data) bytes := by
  have hrecord : 16 + shapeSize h.dims + data.length + ([] : List (List Byte)).flatten.length =
      recordSize (.a dtype h data) := by
    rw [recordSize, List.flatten_nil, List.length_nil, Nat.add_zero]
  refine good_node copyDxRec_a (fun _ _ => aBytes_length dtype h data)
    (arrayCount_eq h data.length) .nil hrecord hsound.record hsound.decoded fun mem pos hmem => ?_
  rw [List.flatten_nil, List.append_nil] at hmem
  obtain ⟨hf, halign, -, -⟩ := front_a hdimct hmem
  have hroom : (alignRoom dtype h.length).toNat ≠ 0 :=
    fun hzero => (alignRoom_eq_zero_iff dtype h.length).mp hzero hsound.agrees.1
  have hdiv : ∀ write, ¬ Divides write mem pos := by
    refine fun write => not_divides_a hf.cls fun hzero => hroom ?_
    rw [← halign, hzero]
    rfl
  exact decodes_of_front hf nofun hdiv .nil (holdsBytes_nil mem _) hrecord hsound.record
    (by rw [decodedSize, ends])

end Arrays

/-! ### Descriptors with nested ones -/

section Nested

variable {exact : Bool} {h : ArrayHead}

/-- The pointers of an array are counted as they are written only in arrays without multipliers,
and where one pointer is left out of the count for the bounds while an `a0` takes its place. -/
theorem apdCount_eq_iff {dims : Dims} {num : ℕ} (hdimct : DescriptorRecords.dimct dims < 2 ^ 8)
    (hnum : 8 * num < 2 ^ 32) :
    apdCount dims num = BitVec.ofNat 32 (16 + shapeSize dims + 4 * num) ↔
      (hasCoeff dims → hasBounds dims ∧ num = 1) := by
  cases dims with
  | plain dimct => simp [apdCount, shapeSize, hasCoeff, hasBounds, BitVec.ofNat_add, Nat.mul_comm]
  | coeff a0 m =>
    replace hdimct : m.length < 2 ^ 8 := hdimct
    have hcount : apdCount (.coeff a0 m) num =
        BitVec.ofNat 32 (16 + (8 + 4 * m.length) + num * 4) := by
      rw [BitVec.ofNat_add, BitVec.ofNat_add]
      rfl
    have hsize : shapeSize (.coeff a0 m) = 4 + 4 * m.length := rfl
    rw [hcount, hsize, ← BitVec.toNat_inj, BitVec.toNat_ofNat, BitVec.toNat_ofNat,
      Nat.mod_eq_of_lt (by omega), Nat.mod_eq_of_lt (by omega)]
    exact iff_of_false (by omega) fun hone => Bool.false_ne_true (hone rfl).1
  | bounds a0 m =>
    replace hdimct : m.length < 2 ^ 8 := hdimct
    have hcount : apdCount (.bounds a0 m) num =
        BitVec.ofNat 32 (16 + (8 + 4 * m.length) + 4 * m.length * 2) := by
      rw [BitVec.ofNat_add, BitVec.ofNat_add]
      rfl
    have hsize : shapeSize (.bounds a0 m) = 4 + 4 * m.length + 4 * m.length * 2 := rfl
    rw [hcount, hsize, ← BitVec.toNat_inj, BitVec.toNat_ofNat, BitVec.toNat_ofNat,
      Nat.mod_eq_of_lt (by omega), Nat.mod_eq_of_lt (by omega)]
    exact ⟨fun heq _ => ⟨rfl, by omega⟩, fun hone => by have := (hone rfl).2; omega⟩

variable {dtype : Byte} {dscs : List Tree}

theorem copyDxRec_apd : copyDxRec (.apd dtype h dscs) =
    node 4 (apdCount h.dims dscs.length) (apdBytes dtype h) (copyAll dscs) := by
  rw [copyDxRec]

theorem apd_header (table : List Word) (htable : table.length = (copyAll dscs).length) :
    (apdBytes dtype h table).length = 16 + shapeSize h.dims + 4 * dscs.length := by
  rw [apdBytes_length, htable, copyAll_length]

theorem apd_flags (ts : List Tree) :
    List.replicate ts.length true = (copyAll ts).map fun s => true || s.isSome := by
  rw [← copyAll_length ts]
  simp

theorem front_apd_of_offsets (hdimct : DescriptorRecords.dimct h.dims < 2 ^ 8)
    (harsize : 8 * dscs.length < 2 ^ 32) {mem : Memory} {pos start : ℕ} {bytes : List Byte}
    (hmem : HoldsBytes mem pos (apdBytes dtype h (offsets 4 (copyAll dscs) start) ++ bytes)) :
    (Front mem pos .apd ((copyAll dscs).map fun s => true || s.isSome)
        (BitVec.ofNat 32 (16 + shapeSize h.dims + 4 * dscs.length))
        (BitVec.ofNat 32 (24 + shapeOutSize h.dims + 8 * dscs.length)) ∧
      (∀ write, ¬ Divides write mem pos) ∧
      ∀ base, headEnd mem pos base = 24 + shapeOutSize h.dims + 8 * dscs.length) ∧
    HoldsBytes mem (pos + (16 + shapeSize h.dims + 4 * dscs.length)) bytes := by
  have hlength : (offsets 4 (copyAll dscs) start).length = dscs.length := by
    rw [offsets_length, copyAll_length]
  rw [holdsBytes_append, apd_header _ (offsets_length 4 (copyAll dscs) start)] at hmem
  obtain ⟨hf, hlen, hnum, hout⟩ := front_apd hdimct (by rw [hlength]; exact harsize) hmem.1
  rw [hlength, apd_flags] at hf
  rw [hlength] at hnum
  refine ⟨⟨hf, fun write => ?_, fun base => ?_⟩, hmem.2⟩
  · rintro (⟨-, hzero⟩ | ⟨-, hcls, -⟩)
    · rw [hlen] at hzero
      exact absurd hzero (by decide)
    · rw [hf.cls] at hcls
      exact nomatch hcls
  · rw [headEnd, hf.cls]
    dsimp only
    rw [hout, hnum, Nat.mul_comm dscs.length]

theorem kept_apd (hdimct : DescriptorRecords.dimct h.dims < 2 ^ 8)
    (harsize : 8 * dscs.length < 2 ^ 32)
    (hgood : ∀ t ∈ dscs, t.isNull = false → ∃ bytes, Good t bytes) :
    Kept exact (.apd dtype h dscs) ↔ Sound exact (.apd dtype h dscs) := by
  obtain ⟨bodies, hslots, hlength, hmatch⟩ := exists_bodies true hgood
  have hdecoded : 16 + shapeSize h.dims + 4 * dscs.length + bodies.flatten.length < 2 ^ 32 →
      ∀ mem, HoldsBytes mem 0 (apdBytes dtype h (offsets 4 (copyAll dscs)
        (16 + shapeSize h.dims + 4 * dscs.length)) ++ bodies.flatten) →
      (Decoded exact mem (BitVec.ofNat 32
          (16 + shapeSize h.dims + 4 * dscs.length + bodies.flatten.length)) ↔
        decodedSize (.apd dtype h dscs) < 2 ^ 32) := by
    intro hfits mem hmem
    obtain ⟨⟨hf, hdiv, hend⟩, hrest⟩ := front_apd_of_offsets hdimct harsize hmem
    rw [Nat.zero_add] at hrest
    rw [decoded_iff_lt exact _ hf nofun hdiv hmatch hrest hfits hend (Nat.le_refl _) (by omega)
      (by omega) (bytesOut_eq_filled hf nofun), decodedSize]
    exact and_iff_right rfl
  rw [kept_node copyDxRec_apd apd_header (by omega) hslots hdecoded,
    apdCount_eq_iff hdimct harsize]
  have hrecord : recordSize (.apd dtype h dscs) =
      16 + shapeSize h.dims + 4 * dscs.length + bodies.flatten.length := by
    rw [recordSize, hlength]
    rfl
  exact ⟨fun hd => ⟨hd.1, by rw [hrecord]; exact hd.2.1, hd.2.2⟩,
    fun hsound => ⟨hsound.agrees, hrecord ▸ hsound.record, hsound.decoded⟩⟩

theorem good_apd (hdimct : DescriptorRecords.dimct h.dims < 2 ^ 8)
    (harsize : 8 * dscs.length < 2 ^ 32)
    (hgood : ∀ t ∈ dscs, t.isNull = false → ∃ bytes, Good t bytes)
    (hsound : Sound exact (.apd dtype h dscs)) : ∃ bytes, Good (.apd dtype h dscs) bytes := by
  obtain ⟨bodies, hslots, hlength, hmatch⟩ := exists_bodies true hgood
  have hrecord : 16 + shapeSize h.dims + 4 * dscs.length + bodies.flatten.length =
      recordSize (.apd dtype h dscs) := by
    rw [recordSize, hlength]
    rfl
  refine good_node copyDxRec_apd apd_header ((apdCount_eq_iff hdimct harsize).mpr hsound.agrees)
    hslots hrecord hsound.record hsound.decoded fun mem pos hmem => ?_
  obtain ⟨⟨hf, hdiv, -⟩, hrest⟩ := front_apd_of_offsets hdimct harsize hmem
  exact decodes_of_front hf nofun hdiv hmatch hrest hrecord hsound.record (by rw [decodedSize]; rfl)

variable {arsize : Word} {target : Tree}

theorem copyDxRec_ca : copyDxRec (.ca dtype h arsize target) =
    node 0 (16 + shapeCount h.dims) (fun _ => caBytes dtype h arsize target.isNull)
      (copyAll [target]) := by
  rw [copyDxRec]
  rfl

theorem ca_flags (t : Tree) :
    [!t.isNull] = (copyAll [t]).map fun s => false || s.isSome := by
  rw [copyAll, copyAll, slot]
  cases t.isNull <;> rfl

theorem recordSizes_singleton (t : Tree) : recordSizes 0 [t] = recordSize t := by
  rw [recordSizes, recordSizes]
  cases t with
  | null => rw [recordSize]; rfl
  | _ => rfl

theorem decodedSizes_singleton (t : Tree) :
    decodedSizes false [t] = if t.isNull then [] else [decodedSize t] := by
  rw [decodedSizes, decodedSizes, Bool.not_false, Bool.and_true]

theorem front_ca_of_holds (hdimct : DescriptorRecords.dimct h.dims < 2 ^ 8) {mem : Memory}
    {pos : ℕ} {bytes : List Byte}
    (hmem : HoldsBytes mem pos (caBytes dtype h arsize target.isNull ++ bytes)) :
    (Front mem pos .ca ((copyAll [target]).map fun s => false || s.isSome)
        (BitVec.ofNat 32 (16 + shapeSize h.dims))
        (BitVec.ofNat 32 (roundUp (24 + shapeOutSize h.dims) 8)) ∧
      (∀ write, ¬ Divides write mem pos) ∧
      ∀ base, headEnd mem pos base = 24 + shapeOutSize h.dims) ∧
    HoldsBytes mem (pos + (16 + shapeSize h.dims)) bytes := by
  rw [holdsBytes_append, caBytes_length] at hmem
  obtain ⟨hf, hout⟩ := front_ca hdimct hmem.1
  rw [ca_flags] at hf
  refine ⟨⟨hf, not_divides hf nofun nofun, fun base => ?_⟩, hmem.2⟩
  rw [headEnd, hf.cls]
  dsimp only
  rw [hout]

theorem kept_ca (hdimct : DescriptorRecords.dimct h.dims < 2 ^ 8)
    (hgood : ∀ t ∈ [target], t.isNull = false → ∃ bytes, Good t bytes) :
    Kept exact (.ca dtype h arsize target) ↔ Sound exact (.ca dtype h arsize target) := by
  obtain ⟨bodies, hslots, hlength, hmatch⟩ := exists_bodies false hgood
  have hdecoded : 16 + shapeSize h.dims + bodies.flatten.length < 2 ^ 32 →
      ∀ mem, HoldsBytes mem 0 (caBytes dtype h arsize target.isNull ++ bodies.flatten) →
      (Decoded exact mem (BitVec.ofNat 32 (16 + shapeSize h.dims + bodies.flatten.length)) ↔
        decodedSize (.ca dtype h arsize target) < 2 ^ 32) := by
    intro hfits mem hmem
    obtain ⟨⟨hf, hdiv, hend⟩, hrest⟩ := front_ca_of_holds hdimct hmem
    rw [Nat.zero_add] at hrest
    rw [decoded_iff_lt exact _ hf nofun hdiv hmatch hrest hfits hend (le_roundUp (by omega))
      (roundUp_lt (by omega)) (by omega) (bytesOut_eq_filled hf nofun),
      decodedSize, decodedSizes_singleton]
    exact and_iff_right rfl
  rw [kept_node copyDxRec_ca (fun _ _ => caBytes_length dtype h arsize target.isNull) (by omega)
    hslots hdecoded]
  have hrecord : recordSize (.ca dtype h arsize target) =
      16 + shapeSize h.dims + bodies.flatten.length := by
    rw [recordSize, hlength]
    exact congrArg (16 + shapeSize h.dims + ·) (recordSizes_singleton target).symm
  constructor
  · rintro ⟨-, hfits, hdecoded⟩
    exact ⟨trivial, hrecord ▸ hfits, hdecoded⟩
  · intro hsound
    exact ⟨(BitVec.ofNat_add 16 (shapeSize h.dims)).symm, hrecord ▸ hsound.record, hsound.decoded⟩

theorem good_ca (hdimct : DescriptorRecords.dimct h.dims < 2 ^ 8)
    (hgood : ∀ t ∈ [target], t.isNull = false → ∃ bytes, Good t bytes)
    (hsound : Sound exact (.ca dtype h arsize target)) :
    ∃ bytes, Good (.ca dtype h arsize target) bytes := by
  obtain ⟨bodies, hslots, hlength, hmatch⟩ := exists_bodies false hgood
  have hrecord : 16 + shapeSize h.dims + bodies.flatten.length =
      recordSize (.ca dtype h arsize target) := by
    rw [recordSize, hlength]
    exact congrArg (16 + shapeSize h.dims + ·) (recordSizes_singleton target)
  refine good_node copyDxRec_ca (fun _ _ => caBytes_length dtype h arsize target.isNull)
    (BitVec.ofNat_add 16 (shapeSize h.dims)).symm hslots hrecord hsound.record hsound.decoded
    fun mem pos hmem => ?_
  obtain ⟨⟨hf, hdiv, -⟩, hrest⟩ := front_ca_of_holds hdimct hmem
  exact decodes_of_front hf nofun hdiv hmatch hrest hrecord hsound.record
    (by rw [decodedSize, ← decodedSizes_singleton]; rfl)

variable {rtype : RecordType} {data : List Byte} {dscptrs : List Tree}

theorem copyDxRec_r : copyDxRec (.r rtype data dscptrs) =
    node 0 (BitVec.ofNat 32 (12 + dscptrs.length * 4) + BitVec.ofNat 32 data.length)
      (rBytes rtype data) (copyAll dscptrs) := by
  rw [copyDxRec]

theorem recordCount_eq (num len : ℕ) :
    BitVec.ofNat 32 (12 + num * 4) + BitVec.ofNat 32 len =
      BitVec.ofNat 32 (12 + 4 * num + len) := by
  rw [← BitVec.ofNat_add, Nat.mul_comm num]

theorem r_header (table : List Word) (htable : table.length = (copyAll dscptrs).length) :
    (rBytes rtype data table).length = 12 + 4 * dscptrs.length + data.length := by
  rw [rBytes_length, htable, copyAll_length]

theorem front_r_of_offsets (hdata : data.length < 2 ^ 16) (hndesc : dscptrs.length < 2 ^ 8)
    {bodies : List (List Byte)} (hslots : List.Forall₂ (LaidSlot 0) (copyAll dscptrs) bodies)
    (hfits : 12 + 4 * dscptrs.length + data.length + bodies.flatten.length < 2 ^ 32)
    {mem : Memory} {pos : ℕ} {bytes : List Byte}
    (hmem : HoldsBytes mem pos (rBytes rtype data (offsets 0 (copyAll dscptrs)
      (12 + 4 * dscptrs.length + data.length)) ++ bytes)) :
    (Front mem pos .r ((copyAll dscptrs).map fun s => false || s.isSome)
        (BitVec.ofNat 32 (12 + 4 * dscptrs.length + data.length))
        (BitVec.ofNat 32 (roundUp (24 + dscptrs.length * 8 + data.length) 8)) ∧
      (∀ write, ¬ Divides write mem pos) ∧
      ∀ base, headEnd mem pos base = max 32 (24 + dscptrs.length * 8 + data.length)) ∧
    HoldsBytes mem (pos + (12 + 4 * dscptrs.length + data.length)) bytes := by
  have hlength : (offsets 0 (copyAll dscptrs)
      (12 + 4 * dscptrs.length + data.length)).length = dscptrs.length := by
    rw [offsets_length, copyAll_length]
  rw [holdsBytes_append, r_header _ (offsets_length 0 (copyAll dscptrs) _)] at hmem
  obtain ⟨hf, hn, hl⟩ := front_r (by rw [hlength]; exact hndesc) hdata hmem.1
  rw [hlength, offsets_ne_zero hslots (by omega) hfits] at hf
  rw [hlength] at hn
  refine ⟨⟨hf, not_divides hf nofun nofun, fun base => ?_⟩, hmem.2⟩
  rw [headEnd, hf.cls]
  dsimp only
  rw [hn, hl, BitVec.toNat_ofNat, Nat.mod_eq_of_lt hdata]

theorem record_laid_iff (n len : ℕ) (sizes : List ℕ) (hempty : n = 0 → sizes = []) :
    LaidOut (max 32 (24 + n * 8 + len))
        (places (2 ^ 32) true (roundUp (24 + n * 8 + len) 8) sizes)
        (ends true (roundUp (24 + n * 8 + len) 8) sizes % 2 ^ 32) ↔
      (len ≠ 0 ∨ n ≠ 0) ∧ ends true (roundUp (24 + n * 8 + len) 8) sizes < 2 ^ 32 := by
  by_cases h : len = 0 ∧ n = 0
  · obtain ⟨rfl, rfl⟩ := h
    rw [hempty rfl]
    have hover : ¬ max 32 (24 + 0 * 8 + 0) ≤ roundUp (24 + 0 * 8 + 0) 8 % 2 ^ 32 := by decide
    exact iff_of_false hover fun hne => hne.1.elim (fun hl => hl rfl) fun hn => hn rfl
  · have hne : len ≠ 0 ∨ n ≠ 0 := by omega
    have hlow := le_roundUp (n := 24 + n * 8 + len) (show 0 < 8 by omega)
    have hhigh := roundUp_lt (n := 24 + n * 8 + len) (show 0 < 8 by omega)
    have hmod := roundUp_mod (24 + n * 8 + len) 8
    rw [laidOut_places_iff (by omega) true sizes (by omega) (by omega) (by omega)]
    exact (and_iff_right hne).symm

theorem kept_r (hdata : data.length < 2 ^ 16) (hndesc : dscptrs.length < 2 ^ 8)
    (hgood : ∀ t ∈ dscptrs, t.isNull = false → ∃ bytes, Good t bytes) :
    Kept exact (.r rtype data dscptrs) ↔ Sound exact (.r rtype data dscptrs) := by
  obtain ⟨bodies, hslots, hlength, hmatch⟩ := exists_bodies false hgood
  have hdecoded : 12 + 4 * dscptrs.length + data.length + bodies.flatten.length < 2 ^ 32 →
      ∀ mem, HoldsBytes mem 0 (rBytes rtype data (offsets 0 (copyAll dscptrs)
        (12 + 4 * dscptrs.length + data.length)) ++ bodies.flatten) →
      (Decoded exact mem (BitVec.ofNat 32
          (12 + 4 * dscptrs.length + data.length + bodies.flatten.length)) ↔
        Alike exact (.r rtype data dscptrs) ∧
          decodedSize (.r rtype data dscptrs) < 2 ^ 32) := by
    intro hfits mem hmem
    obtain ⟨⟨hf, hdiv, hend⟩, hrest⟩ := front_r_of_offsets hdata hndesc hslots hfits hmem
    rw [Nat.zero_add] at hrest
    have hempty : dscptrs.length = 0 → decodedSizes false dscptrs = [] := by
      intro hzero
      rw [List.length_eq_zero_iff.mp hzero, decodedSizes]
    have hlaid := record_laid_iff dscptrs.length data.length _ hempty
    have hfilled := bytesOut_eq_filled hf (by rintro ⟨⟩)
    rw [decoded_iff exact _ hf (by rintro ⟨⟩) hdiv hmatch hrest hfits, decodedSize, Alike]
    rw [ne_eq, ne_eq, List.length_eq_zero_iff, List.length_eq_zero_iff] at hlaid
    simp only [hend]
    exact ⟨fun hd => hlaid.mp (hd.2.2 0),
      fun hd => ⟨trivial, fun _ => hfilled, fun _ => hlaid.mpr hd⟩⟩
  rw [kept_node copyDxRec_r r_header (by omega) hslots hdecoded]
  have hrecord : recordSize (.r rtype data dscptrs) =
      12 + 4 * dscptrs.length + data.length + bodies.flatten.length := by
    rw [recordSize, hlength]
    rfl
  constructor
  · rintro ⟨-, hfits, hagrees, hdecoded⟩
    exact ⟨hagrees, hrecord ▸ hfits, hdecoded⟩
  · intro hsound
    exact ⟨recordCount_eq _ _, hrecord ▸ hsound.record, hsound.agrees, hsound.decoded⟩

theorem good_r (hdata : data.length < 2 ^ 16) (hndesc : dscptrs.length < 2 ^ 8)
    (hgood : ∀ t ∈ dscptrs, t.isNull = false → ∃ bytes, Good t bytes)
    (hsound : Sound exact (.r rtype data dscptrs)) :
    ∃ bytes, Good (.r rtype data dscptrs) bytes := by
  obtain ⟨bodies, hslots, hlength, hmatch⟩ := exists_bodies false hgood
  have hrecord : 12 + 4 * dscptrs.length + data.length + bodies.flatten.length =
      recordSize (.r rtype data dscptrs) := by
    rw [recordSize, hlength]
    rfl
  have hfits := hrecord ▸ hsound.record
  refine good_node copyDxRec_r r_header (recordCount_eq _ _) hslots hrecord hsound.record
    hsound.decoded fun mem pos hmem => ?_
  obtain ⟨⟨hf, hdiv, -⟩, hrest⟩ := front_r_of_offsets hdata hndesc hslots hfits hmem
  exact decodes_of_front hf nofun hdiv hmatch hrest hrecord hsound.record (by rw [decodedSize]; rfl)

end Nested

/-! ### All descriptors -/

theorem kept_null (exact : Bool) : Kept exact .null ↔ Sound exact .null := by
  refine iff_of_true ⟨?_, ?_, ?_, ?_⟩ ⟨trivial, ?_, ?_⟩
  · rw [copyDxRec]
  · rw [copyDxRec]
    rfl
  · intro mem i _
    rw [copyDxRec]
  · intro hne
    rw [copyDxRec] at hne
    exact absurd rfl hne
  · rw [recordSize]
    omega
  · rw [decodedSize]
    omega

theorem not_kept_other (exact : Bool) (cls : OtherClass) (dtype : Byte) :
    ¬ Kept exact (.other cls dtype) := by
  intro h
  have hstatus := h.status
  rw [copyDxRec] at hstatus
  exact nomatch hstatus

/-- Where the nested descriptors are good, the counts of a descriptor agree exactly when it is
sound. -/
theorem kept_iff_sound {exact : Bool} {t : Tree} (hsized : Sized t)
    (hgood : ∀ u ∈ nestedIn t, u.isNull = false → ∃ bytes, Good u bytes) :
    Kept exact t ↔ Sound exact t := by
  cases hsized with
  | null => exact kept_null exact
  | s h => exact kept_s h
  | xs h => exact kept_xs
  | r h hndesc _ => exact kept_r h hndesc hgood
  | a hdimct hdata => exact kept_a hdimct hdata
  | apd hdimct _ harsize _ => exact kept_apd hdimct harsize hgood
  | ca hdimct _ => exact kept_ca hdimct hgood
  | other => exact iff_of_false (not_kept_other exact _ _) fun h => h.agrees

theorem good_of_sound {exact : Bool} {t : Tree} (hsized : Sized t)
    (hgood : ∀ u ∈ nestedIn t, u.isNull = false → ∃ bytes, Good u bytes)
    (hnull : t.isNull = false) (h : Sound exact t) : ∃ bytes, Good t bytes := by
  cases hsized with
  | null => cases hnull
  | s hdata => exact good_s hdata h
  | xs _ => exact good_xs h
  | r hdata hndesc _ => exact good_r hdata hndesc hgood h
  | a hdimct _ => exact good_a hdimct h
  | apd hdimct _ harsize _ => exact good_apd hdimct harsize hgood h
  | ca hdimct _ => exact good_ca hdimct hgood h
  | other => exact absurd h.agrees id

theorem sized_of_nested {t u : Tree} (h : Sized t) (hu : u ∈ nestedIn t) : Sized u := by
  cases h with
  | r _ _ hdscptrs => exact hdscptrs u hu
  | apd _ _ _ hdscs => exact hdscs u hu
  | ca _ htarget => exact List.mem_singleton.mp hu ▸ htarget
  | _ => exact absurd hu List.not_mem_nil

theorem sizeOf_nested {t u : Tree} (hu : u ∈ nestedIn t) : sizeOf u < sizeOf t := by
  cases t with
  | r dtype data dscptrs =>
    have hlt := List.sizeOf_lt_of_mem hu
    simp only [nestedIn] at hlt
    simp only [Tree.r.sizeOf_spec]
    omega
  | apd dtype h dscs =>
    have hlt := List.sizeOf_lt_of_mem hu
    simp only [nestedIn] at hlt
    simp only [Tree.apd.sizeOf_spec]
    omega
  | ca dtype h arsize target =>
    obtain rfl := List.mem_singleton.mp hu
    simp only [Tree.ca.sizeOf_spec]
    omega
  | _ => exact absurd hu List.not_mem_nil

theorem good_of_called {exact : Bool} (t : Tree) (hsized : Sized t) (hnull : t.isNull = false)
    (h : ∀ u, Called t u → Sound exact u) : ∃ bytes, Good t bytes :=
  good_of_sound hsized
    (fun u hu hne => good_of_called u (sized_of_nested hsized hu) hne fun v hv =>
      h v (.nested hu hne hv))
    hnull (h t .self)
termination_by sizeOf t
decreasing_by exact sizeOf_nested hu

theorem called_iff {exact : Bool} (t : Tree) (hsized : Sized t) :
    (∀ u, Called t u → Kept exact u) ↔ ∀ u, Called t u → Sound exact u := by
  have hnested : ∀ u ∈ nestedIn t, u.isNull = false →
      ((∀ v, Called u v → Kept exact v) ↔ ∀ v, Called u v → Sound exact v) :=
    fun u hu _ => called_iff u (sized_of_nested hsized hu)
  constructor
  · intro hkept
    have hsound : ∀ u ∈ nestedIn t, u.isNull = false → ∀ v, Called u v → Sound exact v :=
      fun u hu hne => (hnested u hu hne).mp fun v hv => hkept v (.nested hu hne hv)
    have hgood : ∀ u ∈ nestedIn t, u.isNull = false → ∃ bytes, Good u bytes :=
      fun u hu hne => good_of_called u (sized_of_nested hsized hu) hne (hsound u hu hne)
    intro u hu
    cases hu with
    | self => exact (kept_iff_sound hsized hgood).mp (hkept t .self)
    | nested hu hne hv => exact hsound _ hu hne _ hv
  · intro hsound
    have hgood : ∀ u ∈ nestedIn t, u.isNull = false → ∃ bytes, Good u bytes :=
      fun u hu hne => good_of_called u (sized_of_nested hsized hu) hne fun v hv =>
        hsound v (.nested hu hne hv)
    intro u hu
    cases hu with
    | self => exact (kept_iff_sound hsized hgood).mpr (hsound t .self)
    | nested hu hne hv =>
      exact (hnested _ hu hne).mpr (fun v hv => hsound v (.nested hu hne hv)) _ hv
termination_by sizeOf t
decreasing_by exact sizeOf_nested hu

abbrev Descriptor := { t : Tree // Sized t }

end MdsPlus.RecordClasses
