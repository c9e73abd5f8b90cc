import MdsPlus.DescriptorCopies

/-!
Which descriptors are copied as they are, class by class. What a class writes in front of its nested
descriptors stays within what it counts, but for extended headers with bytes of their own; what it
writes is a copy, but for arrays that are not contiguous and compressed arrays of nothing.
-/

namespace MdsPlus.CopyClasses

open BitMemory BlockLayout DescriptorImages DescriptorCopies
open DescriptorTrees (ArrayHead DataType)
open SerializedRecords (dtypeT fixLength)
open DescriptorRecords (HoldsBytes hasCoeff hasBounds dimct wordBytes holdsBytes_append)
open RecordSizes (shapeOutSize shapeOutSize_le wordBytes_length)

/-! ### Where the bytes of a header stand -/

theorem fitted_data {own : List Store} {p : BitVec 64} {data : List Byte} {base mid last : ℕ}
    (hown : ∀ s ∈ own, base ≤ s.1 ∧ s.stop ≤ mid) (hapart : own.Pairwise Apart)
    (hmid : base ≤ mid ∧ mid ≤ last)
    (hp : data ≠ [] → mid ≤ p.toNat ∧ p.toNat + data.length ≤ last) :
    (∀ s ∈ own ++ dataStore p data, base ≤ s.1 ∧ s.stop ≤ last) ∧
      (own ++ dataStore p data).Pairwise Apart := by
  unfold dataStore
  split
  · rw [List.append_nil]
    exact ⟨fun s hs => ⟨(hown s hs).1, Nat.le_trans (hown s hs).2 hmid.2⟩, hapart⟩
  · next hdata =>
    obtain ⟨hlow, hhigh⟩ := hp hdata
    constructor
    · intro s hs
      rcases List.mem_append.mp hs with hs | hs
      · exact ⟨(hown s hs).1, Nat.le_trans (hown s hs).2 hmid.2⟩
      · obtain rfl := List.mem_singleton.mp hs
        exact ⟨Nat.le_trans hmid.1 hlow, hhigh⟩
    · refine List.pairwise_append.mpr ⟨hapart, List.pairwise_singleton .., fun s hs s' hs' => ?_⟩
      obtain rfl := List.mem_singleton.mp hs'
      exact .inl (Nat.le_trans (hown s hs).2 hlow)

theorem headStore_stop (addr : ℕ) (length : BitVec 16) (dtype cls : Byte) :
    (headStore addr length dtype cls).stop = addr + 4 := rfl

theorem fitted_header (base : ℕ) (length : BitVec 16) (dtype cls : Byte) (tail : List Byte) :
    (∀ s ∈ ([headStore base length dtype cls, (base + 8, tail)] : List Store),
        base ≤ s.1 ∧ s.stop ≤ base + 8 + tail.length) ∧
      ([headStore base length dtype cls, (base + 8, tail)] : List Store).Pairwise Apart := by
  constructor
  · intro s hs
    rcases List.mem_cons.mp hs with rfl | hs
    · rw [headStore_stop]
      exact ⟨Nat.le_refl base, by omega⟩
    · obtain rfl := List.mem_singleton.mp hs
      exact ⟨Nat.le_add_right base 8, Nat.le_refl _⟩
  · refine List.pairwise_pair.mpr (.inl ?_)
    rw [headStore_stop]
    exact Nat.add_le_add_left (by omega) base

theorem le_data (passes : Passes) (base : ℕ) {x y : Store} {p : BitVec 64} {data : List Byte}
    (hdata : data ≠ []) (h : passes.stores base = x :: y :: dataStore p data) :
    p.toNat + data.length - base ≤ headEnd (passes.stores base) base := by
  have hmem : ((p.toNat, data) : Store) ∈ passes.stores base := by
    rw [h, dataStore, if_neg hdata]
    exact List.mem_cons_of_mem x (List.mem_cons_of_mem y List.mem_cons_self)
  exact le_headEnd base hmem

/-! ### Strings -/

section Strings

variable {dynamic : Bool} {length : BitVec 16} {dtype : DataType} {data : List Byte}

theorem copyDx_s : copyDx (.s dynamic dtype data) =
    node (BitVec.ofNat 32 (16 + data.length + stringAlign dtype data.length)) false
      (fun base _ => sStores dtype data base) (copyAll false []) := by
  rw [copyDx, copyAll]

theorem copyDx_xs : copyDx (.xs dynamic length dtype data) =
    node (BitVec.ofNat 32 (sizeAligned (24 + data.length))) false
      (fun base _ => xsStores dtype data base length) (copyAll false []) := by
  rw [copyDx, copyAll]

theorem stringAlign_le (dtype : Byte) (length : ℕ) : stringAlign dtype length ≤ length := by
  unfold stringAlign
  split <;> omega

theorem fitted_s :
    Fitted (16 + data.length + stringAlign dtype data.length) 0
      (fun base _ => sStores dtype data base) := by
  intro base table hbase _
  have hlast := hbase.fits
  have hle := stringAlign_le dtype data.length
  obtain ⟨hown, hapart⟩ := fitted_header base (BitVec.ofNat 16 data.length) dtype 1
    (ptrBytes (if data = [] then 0
      else BitVec.ofNat 64 (align (base + 16) (stringAlign dtype data.length))))
  rw [ptrBytes_length] at hown
  refine fitted_data hown hapart (by omega) fun hne => ?_
  have hpos : 0 < stringAlign dtype data.length := by
    have hlen := List.length_pos_iff.mpr hne
    unfold stringAlign
    split <;> omega
  obtain ⟨hlow, hhigh⟩ := align_bounds (n := base + 16) hpos
  rw [if_neg hne, BitVec.toNat_ofNat, Nat.mod_eq_of_lt (by omega)]
  omega

theorem good_s (hdata : data.length < 2 ^ 16) : Good (.s dynamic dtype data) := by
  have hle := stringAlign_le dtype data.length
  have hfits : copySize (.s dynamic dtype data) < 2 ^ 32 := by
    rw [copySize]
    omega
  refine good_node copyDx_s rfl (fun h => absurd rfl h) nofun (by omega) hfits fitted_s ?_
  intro base hi mem hbase table hheld _
  rw [content, Represents, hbase.toNat (by rw [copySize]; omega)]
  exact ⟨_, hheld⟩

theorem kept_s (hdata : data.length < 2 ^ 16) : Kept (.s dynamic dtype data) := by
  have hgood : Good (.s dynamic dtype data) := good_s hdata
  exact kept_of_good hgood
    fun hbase => laid_node copyDx_s rfl nofun (by omega) hgood.fits fitted_s hbase

/-- Bytes behind an extended header are written past what was counted for them. -/
theorem not_kept_xs (hdata : data.length < 2 ^ 32) (hne : data ≠ []) :
    ¬ Kept (.xs dynamic length dtype data) := by
  intro h
  have hlen := List.length_pos_iff.mpr hne
  have hsize : (copyDx (.xs dynamic length dtype data)).size.toNat ≤ 24 + data.length + 8 := by
    have hround := roundUp_lt (n := 24 + data.length) (show 0 < 8 by omega)
    have hmod := Nat.mod_le (roundUp (24 + data.length) 8) (2 ^ 32)
    rw [copyDx_xs, copyAll, node]
    simp only [countSlots, BitVec.toNat_ofNat, sizeAligned_eq]
    omega
  have hle := (h.laid (allocated_eight (by omega))).le
  have hstop := le_data (copyDx (.xs dynamic length dtype data)) 8 hne (by rw [copyDx_xs]; rfl)
  have hp : (BitVec.ofNat 64 (8 + 24 * 16)).toNat = 392 := rfl
  rw [hp] at hstop
  omega

theorem fitted_xs : Fitted 24 0 (fun base _ => xsStores dtype [] base length) := by
  intro base table _ _
  obtain ⟨hown, hapart⟩ := fitted_header base length dtype 193
    (ptrBytes (BitVec.ofNat 64 (base + 24 * 16)) ++ wordBytes 0)
  rw [List.length_append, ptrBytes_length, wordBytes_length] at hown
  exact fitted_data hown hapart (by omega) fun hne => absurd rfl hne

theorem good_xs : Good (.xs dynamic length dtype []) := by
  have hsize : copySize (.xs dynamic length dtype []) = 24 := by
    rw [copySize]
    rfl
  refine good_node copyDx_xs rfl (fun h => absurd rfl h) nofun (by decide) (by omega) fitted_xs ?_
  intro base hi mem hbase table hheld _
  rw [content, Represents, hbase.toNat (by omega)]
  exact ⟨_, hheld⟩

theorem kept_xs_iff (hdata : data.length < 2 ^ 32) :
    Kept (.xs dynamic length dtype data) ↔ Sound (.xs dynamic length dtype data) := by
  constructor
  · intro h
    have hempty : data = [] := not_not.mp fun hne => not_kept_xs hdata hne h
    subst hempty
    exact ⟨rfl, good_xs.fits⟩
  · intro h
    obtain rfl : data = [] := h.copyable
    exact kept_of_good good_xs
      fun hbase => laid_node copyDx_xs rfl nofun (by decide) good_xs.fits fitted_xs hbase

end Strings

/-! ### Arrays -/

section Arrays

variable {dtype : DataType} {h : ArrayHead} {data : List Byte}

theorem copyDx_a : copyDx (.a dtype h data) =
    node (BitVec.ofNat 32 (24 + shapeOutSize h.dims + data.length +
        arrayAlign dtype (fixLength dtype h.length)))
      (compressionThreshold < data.length) (fun base _ => aStores dtype h data base)
      (copyAll false []) := by
  rw [copyDx, copyAll]

theorem arrayAlign_bounds (dtype : Byte) (length : BitVec 16) :
    0 < arrayAlign dtype length ∧ arrayAlign dtype length < 2 ^ 16 := by
  unfold arrayAlign
  split
  · omega
  · next h =>
    rw [not_or] at h
    have hlt := length.isLt
    exact ⟨Nat.pos_of_ne_zero fun hzero => h.2 (BitVec.eq_of_toNat_eq hzero), hlt⟩

theorem fitted_a : Fitted (24 + shapeOutSize h.dims + data.length +
      arrayAlign dtype (fixLength dtype h.length)) 0 (fun base _ => aStores dtype h data base) := by
  intro base table hbase _
  have hlast := hbase.fits
  obtain ⟨hpos, hlt⟩ := arrayAlign_bounds dtype (fixLength dtype h.length)
  obtain ⟨hlow, hhigh⟩ := align_bounds (n := base + (24 + shapeOutSize h.dims)) hpos
  obtain ⟨hown, hapart⟩ := fitted_header base (fixLength dtype h.length) dtype 4
    (arrayTail (BitVec.ofNat 64 (align (base + (24 + shapeOutSize h.dims))
        (arrayAlign dtype (fixLength dtype h.length))))
      (BitVec.ofNat 64 (align (base + (24 + shapeOutSize h.dims))
        (arrayAlign dtype (fixLength dtype h.length))) + BitVec.ofInt 64 (a0Of h.dims))
      { h with length := fixLength dtype h.length } (BitVec.ofNat 32 data.length))
  rw [arrayTail_length] at hown
  dsimp only at hown
  refine fitted_data hown hapart (by omega) fun hne => ?_
  have hlen := List.length_pos_iff.mpr hne
  rw [BitVec.toNat_ofNat, Nat.mod_eq_of_lt (by omega)]
  omega

theorem good_a (hfits : copySize (.a dtype h data) < 2 ^ 32) : Good (.a dtype h data) := by
  refine good_node copyDx_a rfl (fun h => absurd rfl h) nofun (by omega) hfits fitted_a ?_
  intro base hi mem hbase table hheld _
  rw [content, Represents, hbase.toNat (by rw [copySize]; omega)]
  exact ⟨_, hheld⟩

theorem kept_a_iff (hdimct : dimct h.dims < 2 ^ 8) (hdata : data.length < 2 ^ 32) :
    Kept (.a dtype h data) ↔ Sound (.a dtype h data) := by
  constructor
  · intro hkept
    refine ⟨trivial, ?_⟩
    have hshape := shapeOutSize_le hdimct
    obtain ⟨hpos, hlt⟩ := arrayAlign_bounds dtype (fixLength dtype h.length)
    obtain ⟨hlow, hhigh⟩ := align_bounds (n := 8 + (24 + shapeOutSize h.dims)) hpos
    rw [copySize]
    by_cases hempty : data = []
    · rw [hempty, List.length_nil]
      omega
    · have hlen := List.length_pos_iff.mpr hempty
      have hsize : (copyDx (.a dtype h data)).size = BitVec.ofNat 32
          (24 + shapeOutSize h.dims + data.length +
            arrayAlign dtype (fixLength dtype h.length)) := by
        rw [copyDx_a]
        rfl
      have hle := (hkept.laid (allocated_eight (by omega))).le
      rw [hsize, BitVec.toNat_ofNat] at hle
      have hp : (BitVec.ofNat 64 (align (8 + (24 + shapeOutSize h.dims))
          (arrayAlign dtype (fixLength dtype h.length)))).toNat = _ := Nat.mod_eq_of_lt (by omega)
      have hstop := le_data (copyDx (.a dtype h data)) 8 hempty (by rw [copyDx_a]; rfl)
      rw [hp] at hstop
      omega
  · intro hsound
    exact kept_of_good (good_a hsound.fits)
      fun hbase => laid_node copyDx_a rfl nofun (by omega) hsound.fits fitted_a hbase

end Arrays

/-! ### Arrays that are not contiguous -/

section Strided

variable {dtype : DataType} {h : StridedHead} {data : List Byte}

theorem multipliers_length (m : List (Word × Word × Word)) :
    (multipliers m).length = m.length := by
  induction m using multipliers.induct with
  | case1 => rfl
  | case2 => rfl
  | case3 m l u m' b rest ih => rw [multipliers, List.length_cons, List.length_cons, ih]

theorem fixedArray_dimct (h : StridedHead) : dimct (fixedArray h).dims = dimct h.val.dims := by
  obtain ⟨⟨length, scale, digits, binscale, redim, column, dims⟩, hbounds, hdim⟩ := h
  cases dims with
  | plain n => exact absurd hbounds Bool.false_ne_true
  | coeff a0 m => exact absurd hbounds Bool.false_ne_true
  | bounds a0 m => exact multipliers_length m

theorem fixedArray_shape (h : StridedHead) :
    shapeOutSize (fixedArray h).dims = 8 + 12 * dimct (fixedArray h).dims := by
  have hdims : (fixedArray h).dims =
      .bounds (a0Of h.val.dims) (multipliers (stridesOf h.val.dims)) := rfl
  rw [hdims]
  simp only [shapeOutSize, hasCoeff, hasBounds, dimct, if_true]
  omega

theorem holds_ptr_inj {mem : Memory} {addr : ℕ} {p q : BitVec 64}
    (hp : HoldsBytes mem addr (ptrBytes p)) (hq : HoldsBytes mem addr (ptrBytes q)) : p = q := by
  refine ptrBytes_inj (List.ext_getElem rfl fun i hi hi' => ?_)
  exact (hp i hi).symm.trans (hq i hi')

theorem ptr_of_tail {mem : Memory} {addr n : ℕ} {p a0 : BitVec 64} {h : ArrayHead} {arsize : Word}
    {tail : List Byte} (htail : tail = (arrayTail p a0 h arsize).take n) (hn : 8 ≤ n)
    (hmem : HoldsBytes mem addr tail) : HoldsBytes mem addr (ptrBytes p) := by
  rw [htail, arrayTail, List.append_assoc, List.append_assoc, List.take_append,
    List.take_of_length_le (show (ptrBytes p).length ≤ n from hn), holdsBytes_append] at hmem
  exact hmem.1

theorem ptr_of_arrayTail {mem : Memory} {addr : ℕ} {p a0 : BitVec 64} {h : ArrayHead}
    {arsize : Word} (hmem : HoldsBytes mem addr (arrayTail p a0 h arsize)) :
    HoldsBytes mem addr (ptrBytes p) := by
  refine ptr_of_tail (List.take_of_length_le (Nat.le_refl _)).symm ?_ hmem
  rw [arrayTail_length]
  omega

theorem ncaSize_fixedArray (h : StridedHead) :
    ncaSize (fixedArray h) = 28 + 12 * dimct (fixedArray h).dims := by
  unfold ncaSize
  omega

theorem nca_written (dtype : DataType) (data : List Byte)
    (hdimct : dimct (fixedArray h).dims < 2 ^ 8) (mem : Memory) :
    let p := BitVec.ofNat 64 (36 + 12 * dimct (fixedArray h).dims)
    HoldsBytes (writeAll (ncaStores dtype (fixedArray h) data 8) mem) 16 (ptrBytes p) ∧
      (data = [] → ∀ i, 36 + 12 * dimct (fixedArray h).dims ≤ i →
        writeAll (ncaStores dtype (fixedArray h) data 8) mem i = mem i) := by
  intro p
  have hsize := ncaSize_fixedArray h
  have hplace : BitVec.ofNat 64 (8 + ncaSize (fixedArray h)) = p := by
    rw [hsize, ← Nat.add_assoc]
  have hp : p.toNat = 36 + 12 * dimct (fixedArray h).dims := Nat.mod_eq_of_lt (by omega)
  obtain ⟨tail, htail⟩ : ∃ tail,
      tail = (arrayTail p (p + BitVec.ofInt 64 (a0Of (fixedArray h).dims))
        (fixedArray h) (BitVec.ofNat 32 data.length)).take (ncaSize (fixedArray h) - 8) := ⟨_, rfl⟩
  have hlength : tail.length = 20 + 12 * dimct (fixedArray h).dims := by
    rw [htail, List.length_take, arrayTail_length, fixedArray_shape, hsize]
    omega
  have hstores : ncaStores dtype (fixedArray h) data 8 =
      [headStore 8 (fixedArray h).length dtype 4, (8 + 8, tail)] ++ dataStore p data := by
    rw [ncaStores, hplace, htail]
    rfl
  obtain ⟨hown, hapart⟩ := fitted_header 8 (fixedArray h).length dtype 4 tail
  rw [hlength] at hown
  rw [hstores]
  constructor
  · have hall : ([headStore 8 (fixedArray h).length dtype 4, (8 + 8, tail)] ++
        dataStore p data).Pairwise Apart :=
      (fitted_data hown hapart (by omega) fun _ => ⟨by omega, Nat.le_refl _⟩).2
    have hmem : HoldsBytes (writeAll _ mem) 16 tail :=
      holds_writeAll hall (8 + 8, tail) (List.mem_cons_of_mem _ List.mem_cons_self)
    exact ptr_of_tail htail (by omega) hmem
  · rintro rfl i hi
    rw [dataStore, if_pos rfl, List.append_nil]
    refine writeAll_of_outside fun s hs => ?_
    have hstop := (hown s hs).2
    omega

/-- What is written for it at the address eight is no copy of it: the last four bytes of its header
are not there, or the data is. -/
theorem nca_not_represented (dtype : DataType) (data : List Byte)
    (hdimct : dimct (fixedArray h).dims < 2 ^ 8) :
    ∃ mem, ∀ hi, ¬ Represents 8 hi (writeAll (ncaStores dtype (fixedArray h) data 8) mem)
      (BitVec.ofNat 64 8) (.a dtype (fixedArray h) data) := by
  obtain ⟨bytes, hbytes⟩ : ∃ bytes, bytes = arrayTail
      (BitVec.ofNat 64 (36 + 12 * dimct (fixedArray h).dims))
      (BitVec.ofNat 64 (36 + 12 * dimct (fixedArray h).dims) +
        BitVec.ofInt 64 (a0Of (fixedArray h).dims)) (fixedArray h) (BitVec.ofNat 32 data.length) :=
    ⟨_, rfl⟩
  have hlength : bytes.length = 24 + 12 * dimct (fixedArray h).dims := by
    rw [hbytes, arrayTail_length, fixedArray_shape]
    omega
  -- memory that does not happen to have the missing bytes
  refine ⟨fun _ => ~~~ bytes.getD (20 + 12 * dimct (fixedArray h).dims) 0, fun hi hrep => ?_⟩
  obtain ⟨hptr, hold⟩ := nca_written dtype data hdimct
    fun _ => ~~~ bytes.getD (20 + 12 * dimct (fixedArray h).dims) 0
  rw [Represents] at hrep
  obtain ⟨p, hheld⟩ := hrep
  have htail := hheld.holds _ (List.mem_cons_of_mem _ List.mem_cons_self)
  have hp : p = BitVec.ofNat 64 (36 + 12 * dimct (fixedArray h).dims) :=
    holds_ptr_inj (ptr_of_arrayTail htail) hptr
  subst hp
  have hnat : (BitVec.ofNat 64 (36 + 12 * dimct (fixedArray h).dims)).toNat = _ :=
    Nat.mod_eq_of_lt (by omega)
  by_cases hempty : data = []
  · have hindex : 20 + 12 * dimct (fixedArray h).dims < bytes.length := by omega
    rw [← hbytes] at htail
    have hholds : HoldsBytes _ 16 bytes := htail
    have hbyte := hholds _ hindex
    rw [hold hempty _ (by omega), List.getD_eq_getElem _ _ hindex] at hbyte
    bv_omega
  · have hapart := (List.pairwise_cons.mp (List.pairwise_cons.mp hheld.apart).2).1
      ((BitVec.ofNat 64 (36 + 12 * dimct (fixedArray h).dims)).toNat, data)
      (by rw [dataStore, if_neg hempty]; exact List.mem_singleton_self _)
    have height : (BitVec.ofNat 64 8).toNat = 8 := rfl
    rw [Apart, Store.stop, Store.stop, hnat] at hapart
    dsimp only at hapart
    rw [← hbytes, hlength, height] at hapart
    omega

theorem not_kept_nca (hdimct : dimct h.val.dims < 2 ^ 8) : ¬ Kept (.nca dtype h data) := by
  intro hkept
  have hstatus := hkept.status
  rw [copyDx] at hstatus
  split at hstatus
  · exact nomatch hstatus
  next hdivides =>
    have hcopy : copyDx (.nca dtype h data) =
        node (BitVec.ofNat 32 (sizeAligned (ncaSize (fixedArray h) + data.length)))
          (compressionThreshold < data.length)
          (fun base _ => ncaStores dtype (fixedArray h) data base) [] := by
      rw [copyDx, if_neg hdivides]
    have hwrite : ∀ mem, (copyDx (.nca dtype h data)).write 8 mem =
        writeAll (ncaStores dtype (fixedArray h) data 8) mem := by
      intro mem
      rw [hcopy]
      rfl
    obtain ⟨mem, hmem⟩ := nca_not_represented dtype data
      (show dimct (fixedArray h).dims < 2 ^ 8 by rw [fixedArray_dimct]; exact hdimct)
    have hsize := (copyDx (.nca dtype h data)).size.isLt
    have hsame := hkept.same mem (allocated_eight (by omega))
    rw [content] at hsame
    by_cases hzero : (copyDx (.nca dtype h data)).size = 0
    · rw [mdsCopyDxXd, if_neg fun hne => hne.2 hzero] at hsame
      have hroom : 8 ≤ (0 : BitVec 64).toNat := (hsame.room rfl).1
      exact absurd hroom (by decide)
    · rw [mdsCopyDxXd, if_pos ⟨hkept.status, hzero⟩] at hsame
      dsimp only at hsame
      rw [hwrite] at hsame
      exact hmem _ hsame

end Strided

/-! ### Descriptors with nested ones -/

section Pointers

variable {h : PointersHead} {ptype : Byte} {dscs : List Tree}

theorem copyDx_apd : copyDx (.apd ptype h dscs) =
    node (BitVec.ofNat 32 (sizeAligned (24 + shapeOutSize h.val.dims + 8 * dscs.length))) false
      (fun base table => apdStores ptype h.val base table) (copyAll true dscs) := by
  rw [copyDx]

theorem fitted_apd :
    Fitted (sizeAligned (24 + shapeOutSize h.val.dims + 8 * dscs.length)) dscs.length
      (fun base table => apdStores ptype h.val base table) := by
  intro base table hbase htable
  have hlast := hbase.fits
  have hle := le_roundUp (n := 24 + shapeOutSize h.val.dims + 8 * dscs.length)
    (show 0 < 8 by omega)
  rw [sizeAligned_eq] at hlast ⊢
  obtain ⟨hown, hapart⟩ := fitted_header base h.val.length ptype 196
    (arrayTail (BitVec.ofNat 64 (base + (24 + shapeOutSize h.val.dims)))
      (BitVec.ofInt 64 (a0Of h.val.dims)) h.val (BitVec.ofNat 32 (8 * table.length)))
  rw [arrayTail_length] at hown
  refine fitted_data hown hapart (by omega) fun hne => ?_
  have hlen := List.length_pos_iff.mpr hne
  rw [tableBytes_length] at hlen ⊢
  rw [BitVec.toNat_ofNat, Nat.mod_eq_of_lt (by omega)]
  omega

theorem good_apd (hgood : ∀ t ∈ dscs, Good t) (hfits : copySize (.apd ptype h dscs) < 2 ^ 32) :
    Good (.apd ptype h dscs) := by
  have hround := roundUp_mod (24 + shapeOutSize h.val.dims + 8 * dscs.length) 8
  have hle := le_roundUp (n := 24 + shapeOutSize h.val.dims + 8 * dscs.length)
    (show 0 < 8 by omega)
  have hsize : copySize (.apd ptype h dscs) =
      ends true (sizeAligned (24 + shapeOutSize h.val.dims + 8 * dscs.length))
        (copySizes true dscs) := by
    rw [copySize, sizeAligned_eq]
  rw [← sizeAligned_eq] at hround hle
  refine good_node copyDx_apd hsize (fun _ => hround) hgood (by omega) hfits fitted_apd ?_
  intro base hi mem hbase table hheld hall
  have hends := le_ends true (sizeAligned (24 + shapeOutSize h.val.dims + 8 * dscs.length))
    (copySizes true dscs)
  rw [content, Represents, hbase.toNat (by omega)]
  exact ⟨_, table, hheld, hall⟩

theorem kept_apd_iff (hdimct : dimct h.val.dims < 2 ^ 8) (harsize : 8 * dscs.length < 2 ^ 32)
    (hgood : ∀ t ∈ dscs, Good t) : Kept (.apd ptype h dscs) ↔ Sound (.apd ptype h dscs) := by
  have hshape := shapeOutSize_le hdimct
  have hhigh := roundUp_lt (n := 24 + shapeOutSize h.val.dims + 8 * dscs.length)
    (show 0 < 8 by omega)
  have hlow := le_roundUp (n := 24 + shapeOutSize h.val.dims + 8 * dscs.length)
    (show 0 < 8 by omega)
  have hsize : copySize (.apd ptype h dscs) =
      ends true (sizeAligned (24 + shapeOutSize h.val.dims + 8 * dscs.length))
        (copySizes true dscs) := by
    rw [copySize, sizeAligned_eq]
  rw [← sizeAligned_eq] at hhigh hlow
  refine (kept_node_iff copyDx_apd hsize hgood (by omega) (by omega) fitted_apd ?_
    (good_apd hgood)).trans ⟨fun hfits => ⟨trivial, hfits⟩, fun hsound => hsound.fits⟩
  intro base table hbase htable
  have hlast := hbase.fits
  by_cases hempty : tableBytes table = []
  · refine ⟨_, List.mem_cons_of_mem _ List.mem_cons_self, ?_⟩
    have hzero := congrArg List.length hempty
    rw [tableBytes_length, List.length_nil] at hzero
    rw [Store.stop, arrayTail_length]
    dsimp only
    omega
  · refine ⟨((BitVec.ofNat 64 (base + (24 + shapeOutSize h.val.dims))).toNat, tableBytes table),
      ?_, ?_⟩
    · refine List.mem_cons_of_mem _ (List.mem_cons_of_mem _ ?_)
      rw [dataStore, if_neg hempty]
      exact List.mem_singleton_self _
    · have hlen := List.length_pos_iff.mpr hempty
      rw [tableBytes_length] at hlen
      rw [Store.stop, tableBytes_length, BitVec.toNat_ofNat, Nat.mod_eq_of_lt (by omega)]
      omega

end Pointers

section Records

variable {dtype : DataType} {pointer : BitVec 64} {data : List Byte} {dscptrs : List Tree}

theorem copyDx_r : copyDx (.r dtype pointer data dscptrs) =
    node (BitVec.ofNat 32 (sizeAligned (24 + dscptrs.length * 8 + data.length))) false
      (fun base table => rStores dtype data base pointer table) (copyAll false dscptrs) := by
  rw [copyDx]

theorem fitted_r : Fitted (sizeAligned (24 + dscptrs.length * 8 + data.length)) dscptrs.length
    (fun base table => rStores dtype data base pointer table) := by
  intro base table hbase htable
  have hlast := hbase.fits
  have hle := le_roundUp (n := 24 + dscptrs.length * 8 + data.length) (show 0 < 8 by omega)
  rw [sizeAligned_eq] at hlast ⊢
  obtain ⟨p, hp⟩ : ∃ p, p = if data = [] then pointer else
      BitVec.ofNat 64 (base + (24 + table.length * 8)) := ⟨_, rfl⟩
  obtain ⟨hown, hapart⟩ := fitted_header base (BitVec.ofNat 16 data.length) dtype 194
    (ptrBytes p ++ [BitVec.ofNat 8 table.length])
  have hheader : (ptrBytes p ++ [BitVec.ofNat 8 table.length]).length = 9 := rfl
  rw [hheader] at hown
  have hstores : rStores dtype data base pointer table =
      ([headStore base (BitVec.ofNat 16 data.length) dtype 194,
        (base + 8, ptrBytes p ++ [BitVec.ofNat 8 table.length])] ++
        [(base + 24, tableBytes table)]) ++ dataStore p data := by
    rw [rStores, ← hp]
    rfl
  have htablestop : Store.stop (base + 24, tableBytes table) = base + (24 + table.length * 8) := by
    rw [Store.stop, tableBytes_length]
    dsimp only
    omega
  have htabled : ∀ s ∈ ([headStore base (BitVec.ofNat 16 data.length) dtype 194,
      (base + 8, ptrBytes p ++ [BitVec.ofNat 8 table.length])] ++
        [(base + 24, tableBytes table)] : List Store),
      base ≤ s.1 ∧ s.stop ≤ base + (24 + table.length * 8) := by
    intro s hs
    rcases List.mem_append.mp hs with hs | hs
    · obtain ⟨hlow, hhigh⟩ := hown s hs
      omega
    · obtain rfl := List.mem_singleton.mp hs
      rw [htablestop]
      exact ⟨Nat.le_add_right base 24, Nat.le_refl _⟩
  dsimp only
  rw [hstores]
  refine fitted_data htabled ?_ (by omega) fun hne => ?_
  · refine List.pairwise_append.mpr ⟨hapart, List.pairwise_singleton .., fun s hs s' hs' => ?_⟩
    obtain rfl := List.mem_singleton.mp hs'
    have hhigh := (hown s hs).2
    exact .inl (show s.stop ≤ base + 24 by omega)
  · have hlen := List.length_pos_iff.mpr hne
    rw [hp, if_neg hne, BitVec.toNat_ofNat, Nat.mod_eq_of_lt (by omega)]
    omega

theorem good_r (hgood : ∀ t ∈ dscptrs, Good t)
    (hfits : copySize (.r dtype pointer data dscptrs) < 2 ^ 32) :
    Good (.r dtype pointer data dscptrs) := by
  have hround := roundUp_mod (24 + dscptrs.length * 8 + data.length) 8
  have hle := le_roundUp (n := 24 + dscptrs.length * 8 + data.length) (show 0 < 8 by omega)
  have hsize : copySize (.r dtype pointer data dscptrs) =
      ends true (sizeAligned (24 + dscptrs.length * 8 + data.length))
        (copySizes false dscptrs) := by
    rw [copySize, sizeAligned_eq]
  rw [← sizeAligned_eq] at hround hle
  refine good_node copyDx_r hsize (fun _ => hround) hgood (by omega) hfits fitted_r ?_
  intro base hi mem hbase table hheld hall
  have hends := le_ends true (sizeAligned (24 + dscptrs.length * 8 + data.length))
    (copySizes false dscptrs)
  rw [content, Represents, hbase.toNat (by omega)]
  exact ⟨_, table, hheld, hall⟩

theorem kept_r_iff (hdata : data.length < 2 ^ 16) (hndesc : dscptrs.length < 2 ^ 8)
    (hgood : ∀ t ∈ dscptrs, Good t) :
    Kept (.r dtype pointer data dscptrs) ↔ Sound (.r dtype pointer data dscptrs) := by
  have hhigh := roundUp_lt (n := 24 + dscptrs.length * 8 + data.length) (show 0 < 8 by omega)
  have hlow := le_roundUp (n := 24 + dscptrs.length * 8 + data.length) (show 0 < 8 by omega)
  have hsize : copySize (.r dtype pointer data dscptrs) =
      ends true (sizeAligned (24 + dscptrs.length * 8 + data.length))
        (copySizes false dscptrs) := by
    rw [copySize, sizeAligned_eq]
  rw [← sizeAligned_eq] at hhigh hlow
  refine (kept_node_iff copyDx_r hsize hgood (by omega) (by omega) fitted_r ?_
    (good_r hgood)).trans ⟨fun hfits => ⟨trivial, hfits⟩, fun hsound => hsound.fits⟩
  intro base table hbase htable
  have hlast := hbase.fits
  by_cases hempty : data = []
  · refine ⟨(base + 24, tableBytes table),
      List.mem_cons_of_mem _ (List.mem_cons_of_mem _ List.mem_cons_self), ?_⟩
    rw [hempty, List.length_nil] at hhigh
    rw [hempty, List.length_nil, Store.stop, tableBytes_length]
    dsimp only
    omega
  · refine ⟨((BitVec.ofNat 64 (base + (24 + table.length * 8))).toNat, data), ?_, ?_⟩
    · refine List.mem_cons_of_mem _ (List.mem_cons_of_mem _ (List.mem_cons_of_mem _ ?_))
      rw [dataStore, if_neg hempty, if_neg hempty]
      exact List.mem_singleton_self _
    · have hlen := List.length_pos_iff.mpr hempty
      rw [Store.stop, BitVec.toNat_ofNat, Nat.mod_eq_of_lt (by omega)]
      dsimp only
      omega

end Records

section Compressed

variable {dtype : DataType} {h : ArrayHead} {arsize : Word} {target : Tree}

theorem copyDx_ca : copyDx (.ca dtype h arsize target) =
    node (BitVec.ofNat 32 (sizeAligned (24 + shapeOutSize h.dims))) false
      (fun base _ => caStores dtype h base arsize target.isNull) (copyAll false [target]) := by
  rw [copyDx, copyAll, copyAll]

theorem copySizes_singleton (t : Tree) :
    copySizes false [t] = if t.isNull then [] else [copySize t] := by
  rw [copySizes, copySizes, Bool.not_false, Bool.and_true]

theorem copySize_ca (dtype : DataType) (h : ArrayHead) (arsize : Word) (target : Tree) :
    copySize (.ca dtype h arsize target) =
      ends true (sizeAligned (24 + shapeOutSize h.dims)) (copySizes false [target]) := by
  rw [copySize, sizeAligned_eq, copySizes_singleton]

theorem fitted_ca : Fitted (sizeAligned (24 + shapeOutSize h.dims)) [target].length
    (fun base _ => caStores dtype h base arsize target.isNull) := by
  intro base table _ _
  have hle := le_roundUp (n := 24 + shapeOutSize h.dims) (show 0 < 8 by omega)
  obtain ⟨p, hp⟩ : ∃ p, p = if target.isNull then 0 else
      BitVec.ofNat 64 (align (base + sizeAligned (24 + shapeOutSize h.dims)) 8) := ⟨_, rfl⟩
  obtain ⟨hown, hapart⟩ := fitted_header base h.length dtype 195
    (arrayTail p (BitVec.ofInt 64 (a0Of h.dims)) h arsize)
  have hstores : caStores dtype h base arsize target.isNull =
      [headStore base h.length dtype 195,
        (base + 8, arrayTail p (BitVec.ofInt 64 (a0Of h.dims)) h arsize)] := by
    rw [caStores, ← hp]
    rfl
  rw [arrayTail_length] at hown
  dsimp only
  rw [hstores, sizeAligned_eq]
  refine ⟨fun s hs => ?_, hapart⟩
  obtain ⟨hlow, hhigh⟩ := hown s hs
  omega

theorem content_eq_null {t : Tree} : content t = .null ↔ (unwrap t).isNull := by
  induction t using unwrap.induct with
  | case1 t ih => exact ih
  | case2 t h =>
    rw [unwrap]
    · cases t with
      | null => exact iff_of_true rfl rfl
      | dsc t => exact absurd rfl (h t)
      | _ => exact iff_of_false (by rw [content]; exact nofun) Bool.false_ne_true
    · exact h

theorem copySize_ne_zero {t : Tree} (h : Good t) (hne : (unwrap t).isNull = false) :
    copySize t ≠ 0 := by
  intro hzero
  have hsame := h.same (fun _ => 0) (hzero ▸ allocated_eight (Nat.zero_le _))
  have hcontent : (content t).isNull = false := by
    cases hc : content t with
    | null =>
      rw [content_eq_null.mp hc] at hne
      cases hne
    | _ => rfl
  have hroom := hsame.room hcontent
  omega

theorem copySize_eq_zero {t : Tree} (h : Good t) (hnothing : (unwrap t).isNull = true) :
    copySize t = 0 := by
  by_contra hne
  have hfits := h.fits
  have hsame := h.same (fun _ => 0) (allocated_eight (by omega))
  rw [if_neg hne, content_eq_null.mpr hnothing, Represents] at hsame
  exact absurd hsame (by decide)

theorem good_ca (hgood : ∀ t ∈ [target], Good t)
    (hcopyable : target.isNull ∨ (unwrap target).isNull = false)
    (hfits : copySize (.ca dtype h arsize target) < 2 ^ 32) : Good (.ca dtype h arsize target) := by
  have hround := roundUp_mod (24 + shapeOutSize h.dims) 8
  have hle := le_roundUp (n := 24 + shapeOutSize h.dims) (show 0 < 8 by omega)
  have hsize := copySize_ca dtype h arsize target
  rw [← sizeAligned_eq] at hround hle
  refine good_node copyDx_ca hsize (fun _ => hround) hgood (by omega) hfits fitted_ca ?_
  intro base hi mem hbase table hheld hall
  have hends := le_ends true (sizeAligned (24 + shapeOutSize h.dims)) (copySizes false [target])
  have haligned := hbase.aligned
  rw [content, Represents, hbase.toNat (by omega)]
  refine ⟨_, hheld, ?_⟩
  have htable : table = [if target.isNull then 0 else
      BitVec.ofNat 64 (align (base + sizeAligned (24 + shapeOutSize h.dims)) 8)] := by
    rw [align_of_mod (by omega)]
    cases hnull : target.isNull with
    | true => simp [table, copyAll, slot, hnull, pointers]
    | false =>
      have htarget := hgood target List.mem_cons_self
      have hne : (unwrap target).isNull = false := by
        rcases hcopyable with h | h
        · rw [hnull] at h
          cases h
        · exact h
      have hsome : (copyDx target).size ≠ 0 :=
        fun hz => copySize_ne_zero htarget hne ((size_eq_zero_iff htarget).mp hz)
      have hword : (BitVec.ofNat 32 (sizeAligned (24 + shapeOutSize h.dims))).toNat = _ :=
        Nat.mod_eq_of_lt (by omega)
      have hslots : copyAll false [target] = [some (copyDx target)] := by
        rw [copyAll, copyAll, slot, hnull]
        rfl
      simp only [table, hslots, pointers, if_neg hsome, hword, Bool.false_eq_true, if_false]
  rw [htable] at hall
  exact hall.1

theorem not_kept_ca (hdimct : dimct h.dims < 2 ^ 8) (hgood : ∀ t ∈ [target], Good t)
    (hnull : target.isNull = false) (hnothing : (unwrap target).isNull = true) :
    ¬ Kept (.ca dtype h arsize target) := by
  intro hkept
  have hshape := shapeOutSize_le hdimct
  have hhigh := roundUp_lt (n := 24 + shapeOutSize h.dims) (show 0 < 8 by omega)
  have hlow := le_roundUp (n := 24 + shapeOutSize h.dims) (show 0 < 8 by omega)
  have hround := roundUp_mod (24 + shapeOutSize h.dims) 8
  have htarget := hgood target List.mem_cons_self
  have hcontent := content_eq_null.mpr hnothing
  have hzero := copySize_eq_zero htarget hnothing
  have hsize := copySize_ca dtype h arsize target
  rw [← sizeAligned_eq] at hhigh hlow hround
  have hends : copySize (.ca dtype h arsize target) = sizeAligned (24 + shapeOutSize h.dims) := by
    rw [hsize, copySizes_singleton, hnull, hzero]
    exact next_zero hround
  have hword : (copyDx (.ca dtype h arsize target)).size.toNat =
      sizeAligned (24 + shapeOutSize h.dims) := by
    rw [copyDx_ca]
    refine (congrArg (fun c => BitVec.toNat (Prod.snd c))
      (countSlots_of_good false hgood _)).trans ?_
    dsimp only
    rw [← hsize, hends, BitVec.toNat_ofNat, Nat.mod_eq_of_lt (by omega)]
  have hpos : (copyDx (.ca dtype h arsize target)).size ≠ 0 := by
    intro hz
    have hnat : (0 : Word).toNat = 0 := rfl
    rw [hz, hnat] at hword
    omega
  have hheld := held_node copyDx_ca hsize (fun _ => hround) hgood (by omega) fitted_ca (fun _ => 0)
    (allocated_eight (by omega))
  have hsame := hkept.same (fun _ => 0) (allocated_eight (by omega))
  rw [mdsCopyDxXd, if_pos ⟨hkept.status, hpos⟩, content, hcontent, Represents] at hsame
  obtain ⟨p, hcopy, hp⟩ := hsame
  have htail := hcopy.holds _ (List.mem_cons_of_mem _ List.mem_cons_self)
  have htail' := hheld.holds _ (List.mem_cons_of_mem _ List.mem_cons_self)
  have hptr := holds_ptr_inj (ptr_of_arrayTail htail) (ptr_of_arrayTail htail')
  rw [hp, hnull, if_neg Bool.false_ne_true, align_of_mod (by omega)] at hptr
  have hval := congrArg BitVec.toNat hptr
  rw [BitVec.toNat_ofNat, Nat.mod_eq_of_lt (by omega)] at hval
  have hnat : (0 : BitVec 64).toNat = 0 := rfl
  omega

theorem kept_ca_iff (hdimct : dimct h.dims < 2 ^ 8) (hgood : ∀ t ∈ [target], Good t) :
    Kept (.ca dtype h arsize target) ↔ Sound (.ca dtype h arsize target) := by
  have hshape := shapeOutSize_le hdimct
  have hhigh := roundUp_lt (n := 24 + shapeOutSize h.dims) (show 0 < 8 by omega)
  have hlow := le_roundUp (n := 24 + shapeOutSize h.dims) (show 0 < 8 by omega)
  have hsize := copySize_ca dtype h arsize target
  rw [← sizeAligned_eq] at hhigh hlow
  have hiff : (target.isNull ∨ (unwrap target).isNull = false) →
      (Kept (.ca dtype h arsize target) ↔ copySize (.ca dtype h arsize target) < 2 ^ 32) := by
    intro hcopyable
    refine kept_node_iff copyDx_ca hsize hgood (by omega) (by omega) fitted_ca ?_
      (good_ca hgood hcopyable)
    intro base table _ _
    refine ⟨_, List.mem_cons_of_mem _ List.mem_cons_self, ?_⟩
    rw [Store.stop, arrayTail_length]
    dsimp only
    omega
  constructor
  · intro hkept
    have hcopyable : target.isNull ∨ (unwrap target).isNull = false := by
      by_contra hnot
      rw [not_or, Bool.not_eq_true, Bool.not_eq_false] at hnot
      exact not_kept_ca hdimct hgood hnot.1 hnot.2 hkept
    exact ⟨hcopyable, (hiff hcopyable).mp hkept⟩
  · intro hsound
    exact (hiff hsound.copyable).mpr hsound.fits

end Compressed

/-! ### All descriptors -/

inductive Sized : Tree → Prop
  | null : Sized .null
  | dsc {target : Tree} (h : Sized target) : Sized (.dsc target)
  | s {dynamic : Bool} {dtype : DataType} {data : List Byte} (h : data.length < 2 ^ 16) :
      Sized (.s dynamic dtype data)
  | xs {dynamic : Bool} {length : BitVec 16} {dtype : DataType} {data : List Byte}
      (h : data.length < 2 ^ 32) : Sized (.xs dynamic length dtype data)
  | r {dtype : DataType} {pointer : BitVec 64} {data : List Byte} {dscptrs : List Tree}
      (h : data.length < 2 ^ 16) (hndesc : dscptrs.length < 2 ^ 8)
      (hdscptrs : ∀ t ∈ dscptrs, Sized t) : Sized (.r dtype pointer data dscptrs)
  | a {dtype : DataType} {h : ArrayHead} {data : List Byte} (hdimct : dimct h.dims < 2 ^ 8)
      (hdata : data.length < 2 ^ 32) : Sized (.a dtype h data)
  | nca {dtype : DataType} {h : StridedHead} {data : List Byte} (hdimct : dimct h.val.dims < 2 ^ 8)
      (hdata : data.length < 2 ^ 32) : Sized (.nca dtype h data)
  | apd {dtype : Byte} {h : PointersHead} {dscs : List Tree} (hdimct : dimct h.val.dims < 2 ^ 8)
      (harsize : 8 * dscs.length < 2 ^ 32) (hdscs : ∀ t ∈ dscs, Sized t) : Sized (.apd dtype h dscs)
  | ca {dtype : DataType} {h : ArrayHead} {arsize : Word} {target : Tree}
      (hdimct : dimct h.dims < 2 ^ 8) (htarget : Sized target) : Sized (.ca dtype h arsize target)
  | other {cls : OtherClass} {dtype : DataType} : Sized (.other cls dtype)

theorem good_null : Good .null :=
  ⟨rfl, rfl, by decide, fun _ _ => rfl, fun _ _ => rfl⟩

theorem kept_null : Kept .null := kept_of_good good_null fun _ => Nat.le_refl 0

theorem not_kept_other (cls : OtherClass) (dtype : DataType) : ¬ Kept (.other cls dtype) := by
  intro h
  have hstatus := h.status
  rw [copyDx] at hstatus
  exact nomatch hstatus

theorem unwrap_of_ne {t : Tree} (h : ∀ target, t ≠ .dsc target) : unwrap t = t := by
  rw [unwrap]
  exact h

section Wrappers

variable (t : Tree)

theorem copyDx_unwrap : copyDx (unwrap t) = copyDx t := by
  induction t using unwrap.induct with
  | case1 t ih => exact ih
  | case2 t h => rw [unwrap_of_ne h]

theorem content_unwrap : content (unwrap t) = content t := by
  induction t using unwrap.induct with
  | case1 t ih => exact ih
  | case2 t h => rw [unwrap_of_ne h]

theorem copySize_unwrap : copySize (unwrap t) = copySize t := by
  induction t using unwrap.induct with
  | case1 t ih => exact ih
  | case2 t h => rw [unwrap_of_ne h]

theorem unwrap_unwrap : unwrap (unwrap t) = unwrap t := by
  induction t using unwrap.induct with
  | case1 t ih => exact ih
  | case2 t h => rw [unwrap_of_ne h, unwrap_of_ne h]

end Wrappers

theorem mdsCopyDxXd_unwrap (t : Tree) (base : ℕ) (mem : Memory) :
    mdsCopyDxXd (unwrap t) base mem = mdsCopyDxXd t base mem := by
  rw [mdsCopyDxXd, mdsCopyDxXd, copyDx_unwrap]

theorem kept_unwrap (t : Tree) : Kept (unwrap t) ↔ Kept t := by
  constructor
  · rintro ⟨hstatus, hwithin, hlaid, hsame⟩
    simp only [copyDx_unwrap, mdsCopyDxXd_unwrap, content_unwrap] at hstatus hwithin hlaid hsame
    exact ⟨hstatus, hwithin, hlaid, hsame⟩
  · rintro ⟨hstatus, hwithin, hlaid, hsame⟩
    constructor <;> simp only [copyDx_unwrap, mdsCopyDxXd_unwrap, content_unwrap]
    · exact hstatus
    · exact hwithin
    · exact hlaid
    · exact hsame

theorem good_of_unwrap {t : Tree} (h : Good (unwrap t)) : Good t := by
  obtain ⟨hstatus, hsize, hfits, hwithin, hsame⟩ := h
  simp only [copyDx_unwrap, copySize_unwrap, content_unwrap] at hstatus hsize hfits hwithin hsame
  exact ⟨hstatus, hsize, hfits, hwithin, hsame⟩

theorem sound_unwrap (t : Tree) : Sound (unwrap t) ↔ Sound t :=
  ⟨fun h => ⟨unwrap_unwrap t ▸ h.copyable, copySize_unwrap t ▸ h.fits⟩,
    fun h => ⟨(unwrap_unwrap t).symm ▸ h.copyable, (copySize_unwrap t).symm ▸ h.fits⟩⟩

theorem unwrap_ne_dsc (t target : Tree) : unwrap t ≠ .dsc target := by
  induction t using unwrap.induct with
  | case1 t ih => exact ih
  | case2 t h => rw [unwrap_of_ne h]; exact h target

theorem sized_unwrap {t : Tree} (h : Sized t) : Sized (unwrap t) := by
  induction t using unwrap.induct with
  | case1 t ih =>
    cases h with
    | dsc h => exact ih h
  | case2 t hne => rwa [unwrap_of_ne hne]

section Unwrapped

variable {t : Tree}

theorem kept_iff_of_unwrapped (hsized : Sized t) (hne : ∀ target, t ≠ .dsc target)
    (hgood : ∀ u ∈ nestedIn t, Good u) : Kept t ↔ Sound t := by
  cases hsized with
  | null => exact iff_of_true kept_null ⟨trivial, good_null.fits⟩
  | @dsc target _ => exact absurd rfl (hne target)
  | s h => exact iff_of_true (kept_s h) ⟨trivial, (good_s h).fits⟩
  | xs h => exact kept_xs_iff h
  | r h hndesc _ => exact kept_r_iff h hndesc hgood
  | a hdimct hdata => exact kept_a_iff hdimct hdata
  | nca hdimct _ => exact iff_of_false (not_kept_nca hdimct) fun h => h.copyable
  | apd hdimct harsize _ => exact kept_apd_iff hdimct harsize hgood
  | ca hdimct _ => exact kept_ca_iff hdimct hgood
  | other => exact iff_of_false (not_kept_other _ _) fun h => h.copyable

theorem good_of_unwrapped (hsized : Sized t) (hne : ∀ target, t ≠ .dsc target)
    (hgood : ∀ u ∈ nestedIn t, Good u) (h : Sound t) : Good t := by
  cases hsized with
  | null => exact good_null
  | @dsc target _ => exact absurd rfl (hne target)
  | s hdata => exact good_s hdata
  | @xs dynamic length dtype data _ =>
    obtain rfl : data = [] := h.copyable
    exact good_xs
  | r _ _ _ => exact good_r hgood h.fits
  | a _ _ => exact good_a h.fits
  | nca _ _ => exact absurd h.copyable id
  | apd _ _ _ => exact good_apd hgood h.fits
  | ca _ _ => exact good_ca hgood h.copyable h.fits
  | other => exact absurd h.copyable id

theorem kept_iff_sound (hsized : Sized t) (hgood : ∀ u ∈ nestedIn (unwrap t), Good u) :
    Kept t ↔ Sound t := by
  rw [← kept_unwrap, ← sound_unwrap]
  exact kept_iff_of_unwrapped (sized_unwrap hsized) (unwrap_ne_dsc t) hgood

theorem good_of_sound (hsized : Sized t) (hgood : ∀ u ∈ nestedIn (unwrap t), Good u)
    (h : Sound t) : Good t :=
  good_of_unwrap (good_of_unwrapped (sized_unwrap hsized) (unwrap_ne_dsc t) hgood
    ((sound_unwrap t).mpr h))

theorem sized_of_nested {u : Tree} (h : Sized t) (hu : u ∈ nestedIn t) : Sized u := by
  cases h with
  | r _ _ hdscptrs => exact hdscptrs u hu
  | apd _ _ hdscs => exact hdscs u hu
  | ca _ htarget => exact List.mem_singleton.mp hu ▸ htarget
  | _ => exact absurd hu List.not_mem_nil

theorem sizeOf_nested {u : Tree} (hu : u ∈ nestedIn t) : sizeOf u < sizeOf t := by
  cases t with
  | r dtype pointer data dscptrs =>
    have hlt := List.sizeOf_lt_of_mem hu
    simp only [nestedIn] at hlt
    simp only [Tree.r.sizeOf_spec]
    omega
  | apd dtype h dscs =>
    have hlt := List.sizeOf_lt_of_mem hu
    simp only [nestedIn] at hlt
    simp only [Tree.apd.sizeOf_spec]
    omega
  | ca dtype h arsize target =>
    obtain rfl := List.mem_singleton.mp hu
    simp only [Tree.ca.sizeOf_spec]
    omega
  | _ => exact absurd hu List.not_mem_nil

end Unwrapped

theorem sizeOf_unwrap (t : Tree) : sizeOf (unwrap t) ≤ sizeOf t := by
  induction t using unwrap.induct with
  | case1 t ih =>
    have hlt : sizeOf (Tree.dsc t) = 1 + sizeOf t := rfl
    rw [unwrap]
    omega
  | case2 t h => exact Nat.le_of_eq (congrArg sizeOf (unwrap_of_ne h))

theorem good_of_called (t : Tree) (hsized : Sized t) (h : ∀ u, Called t u → Sound u) : Good t :=
  good_of_sound hsized
    (fun u hu => good_of_called u (sized_of_nested (sized_unwrap hsized) hu) fun v hv =>
      h v (.nested hu hv))
    (h t .self)
termination_by sizeOf t
decreasing_by exact Nat.lt_of_lt_of_le (sizeOf_nested hu) (sizeOf_unwrap t)

theorem called_iff (t : Tree) (hsized : Sized t) :
    (∀ u, Called t u → Kept u) ↔ ∀ u, Called t u → Sound u := by
  have hnested : ∀ u ∈ nestedIn (unwrap t),
      ((∀ v, Called u v → Kept v) ↔ ∀ v, Called u v → Sound v) :=
    fun u hu => called_iff u (sized_of_nested (sized_unwrap hsized) hu)
  have hgood : (∀ u ∈ nestedIn (unwrap t), ∀ v, Called u v → Sound v) →
      ∀ u ∈ nestedIn (unwrap t), Good u := fun hsound u hu =>
    good_of_called u (sized_of_nested (sized_unwrap hsized) hu) (hsound u hu)
  constructor
  · intro hkept
    have hsound : ∀ u ∈ nestedIn (unwrap t), ∀ v, Called u v → Sound v :=
      fun u hu => (hnested u hu).mp fun v hv => hkept v (.nested hu hv)
    intro u hu
    cases hu with
    | self => exact (kept_iff_sound hsized (hgood hsound)).mp (hkept t .self)
    | nested hu hv => exact hsound _ hu _ hv
  · intro hsound
    have hrest : ∀ u ∈ nestedIn (unwrap t), ∀ v, Called u v → Sound v :=
      fun u hu v hv => hsound v (.nested hu hv)
    intro u hu
    cases hu with
    | self => exact (kept_iff_sound hsized (hgood hrest)).mpr (hsound t .self)
    | nested hu hv => exact (hnested _ hu).mpr (hrest _ hu) _ hv
termination_by sizeOf t
decreasing_by exact Nat.lt_of_lt_of_le (sizeOf_nested hu) (sizeOf_unwrap t)

/-- A descriptor whose numbers its fields can hold. -/
abbrev Descriptor := { t : Tree // Sized t }

end MdsPlus.CopyClasses
