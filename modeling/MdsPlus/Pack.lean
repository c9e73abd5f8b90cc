import MdsPlus.BitMemory
import Mathlib.Algebra.Group.Nat.Defs

/-!
MdsPk and MdsUnpk: bit fields of any width laid end to end in an array of words.
The packer keeps a partly filled word in a register and stores it when full;
the unpacker gathers each field from one or two words. Both are described by
the bit list that memory holds, so a field is never looked at word by word again.
-/

namespace MdsPlus.Pack

open BitMemory

/-- The table of low-bit masks; its last entry is all ones. -/
def masks (size : ℕ) : Word := BitVec.ofNat 32 (2 ^ size - 1)

/-- The packer between two fields: the word being filled and its used bits. -/
structure PackState where
  pack : Memory
  ppack : ℕ
  off : ℕ
  hold : Word

def pkField (size : ℕ) (s : PackState) (item : Word) : PackState :=
  let hold := s.hold ||| ((masks size &&& item) <<< s.off)
  if s.off ≥ 32 - size then
    { pack := writeWord s.pack s.ppack hold
      ppack := s.ppack + 4
      off := s.off - (32 - size)
      hold := (masks size &&& item) >>> (32 - s.off) }
  else { s with off := s.off + size, hold := hold }

/-- One turn of the loop for whole words that start off a byte boundary. -/
def pkWord (s : PackState) (item : Word) : PackState :=
  { pack := writeWord s.pack s.ppack (s.hold ||| (item <<< s.off))
    ppack := s.ppack + 4
    off := s.off
    hold := item >>> (32 - s.off) }

/-- The store after either loop: a partly filled word clears its high bits. -/
def flush (s : PackState) : Memory :=
  if s.off = 0 then s.pack else writeWord s.pack s.ppack s.hold

def mdsPk (nbits : ℤ) (items : List Word) (pack : Memory) (bit : ℕ) : Memory × ℕ :=
  let size := nbits.natAbs
  let off := bit % 32
  let ppack := 4 * (bit / 32)
  let hold := if off = 0 then 0 else readWord pack ppack &&& masks off
  if size = 0 ∨ items = [] then (pack, bit)
  else if size = 32 then
    if off % 8 = 0 then
      (writeWords pack (ppack + off / 8) items, bit + size * items.length)
    else
      (flush (items.foldl pkWord ⟨pack, ppack, off, hold⟩), bit + size * items.length)
  else
    (flush (items.foldl (pkField size) ⟨pack, ppack, off, hold⟩), bit + size * items.length)

/-- The bits of one field, from the word that starts it and perhaps the next. -/
def unpkHold (size : ℕ) (pack : Memory) (ppack off : ℕ) : Word :=
  if off ≥ 32 - size then
    (readWord pack ppack >>> off) ||| ((readWord pack (ppack + 4) <<< (32 - off)) &&& masks size)
  else (readWord pack ppack >>> off) &&& masks size

/-- The gathering loop; `finish` is the sign extension or nothing. -/
def unpkFields (size : ℕ) (finish : Word → Word) (pack : Memory) : ℕ → ℕ → ℕ → List Word
  | 0, _, _ => []
  | n + 1, ppack, off =>
      finish (unpkHold size pack ppack off) ::
        if off ≥ 32 - size then unpkFields size finish pack n (ppack + 4) (off - (32 - size))
        else unpkFields size finish pack n ppack (off + size)

def signField (size : ℕ) (hold : Word) : Word :=
  if hold > masks size >>> 1 then hold - (masks size + 1) else hold

def unpkAligned (pack : Memory) : ℕ → ℕ → List Word
  | 0, _ => []
  | n + 1, a => readWord pack a :: unpkAligned pack n (a + 4)

def unpkWords (pack : Memory) (off : ℕ) : ℕ → ℕ → List Word
  | 0, _ => []
  | n + 1, ppack =>
      ((readWord pack ppack >>> off) ||| (readWord pack (ppack + 4) <<< (32 - off))) ::
        unpkWords pack off n (ppack + 4)

def mdsUnpk (nbits : ℤ) (nitems : ℕ) (pack : Memory) (bit : ℕ) : List Word × ℕ :=
  let size := nbits.natAbs
  let off := bit % 32
  let ppack := 4 * (bit / 32)
  let items :=
    if size = 32 then
      if off % 8 = 0 then unpkAligned pack nitems (ppack + off / 8)
      else unpkWords pack off nitems ppack
    else if nbits < 0 then unpkFields size (signField size) pack nitems ppack off
    else if nbits > 0 then unpkFields size id pack nitems ppack off
    else List.replicate nitems 0
  (items, bit + size * nitems)

theorem masks_getLsbD (size j : ℕ) (hj : j < 32) :
    (masks size).getLsbD j = decide (j < size) := by
  simp only [masks, BitVec.getLsbD_ofNat, hj, decide_true, Nat.testBit_two_pow_sub_one,
    Bool.true_and]

theorem masks_and_getLsbD (size j : ℕ) (w : Word) (hj : j < 32) :
    (masks size &&& w).getLsbD j = (decide (j < size) && w.getLsbD j) := by
  rw [BitVec.getLsbD_and, masks_getLsbD size j hj]

theorem masks_word (w : Word) : masks 32 &&& w = w := by
  apply word_ext
  intro j hj
  rw [masks_and_getLsbD 32 j w hj, decide_eq_true hj, Bool.true_and]

theorem pkWord_eq_pkField (s : PackState) (item : Word) : pkWord s item = pkField 32 s item := by
  simp [pkWord, pkField, masks_word]

/-- The register of a packer never uses bits at or above its fill level. -/
def Clean (s : PackState) : Prop :=
  s.off < 32 ∧ ∀ j, s.off ≤ j → s.hold.getLsbD j = false

theorem hold_or_getLsbD (size : ℕ) (s : PackState) (hs : Clean s) (item : Word) (j : ℕ)
    (hj : j < 32) :
    (s.hold ||| ((masks size &&& item) <<< s.off)).getLsbD j =
      if j < s.off then s.hold.getLsbD j
      else (decide (j - s.off < size) && item.getLsbD (j - s.off)) := by
  rw [BitVec.getLsbD_or, BitVec.getLsbD_shiftLeft]
  by_cases hlt : j < s.off
  · simp [hlt]
  · have hle : s.off ≤ j := Nat.le_of_not_lt hlt
    rw [hs.2 j hle, masks_and_getLsbD size (j - s.off) item (by omega)]
    simp [hlt, hj]

theorem hold_shift_getLsbD (size : ℕ) (off : ℕ) (item : Word) (j : ℕ) :
    ((masks size &&& item) >>> (32 - off)).getLsbD j =
      (decide (32 - off + j < size) && item.getLsbD (32 - off + j)) := by
  rw [BitVec.getLsbD_ushiftRight]
  by_cases hlt : 32 - off + j < 32
  · exact masks_and_getLsbD size _ item hlt
  · rw [BitVec.getLsbD_of_ge _ _ (Nat.le_of_not_lt hlt),
      BitVec.getLsbD_of_ge item _ (Nat.le_of_not_lt hlt), Bool.and_false]

theorem pkField_clean (size : ℕ) (hsize : size ≤ 32) (s : PackState) (hs : Clean s)
    (item : Word) : Clean (pkField size s item) := by
  obtain ⟨hoff, _⟩ := id hs
  unfold pkField
  split
  · rename_i hfull
    refine ⟨by dsimp only; omega, ?_⟩
    intro j hj
    dsimp only at hj ⊢
    rw [hold_shift_getLsbD]
    simp [show ¬ (32 - s.off + j < size) by omega]
  · rename_i hroom
    refine ⟨by dsimp only; omega, ?_⟩
    intro j hj
    dsimp only at hj ⊢
    by_cases hj32 : j < 32
    · rw [hold_or_getLsbD size s hs item j hj32, if_neg (by omega)]
      simp [show ¬ (j - s.off < size) by omega]
    · exact BitVec.getLsbD_of_ge _ _ (Nat.le_of_not_lt hj32)

private theorem lowBits_room (size : ℕ) (s : PackState) (hs : Clean s) (item : Word)
    (hroom : s.off + size ≤ 32) :
    lowBits s.off s.hold ++ lowBits size item =
      lowBits (s.off + size) (s.hold ||| ((masks size &&& item) <<< s.off)) := by
  apply List.ext_getElem
  · simp
  · intro k hk hk'
    simp only [lowBits_length] at hk'
    rw [lowBits_getElem, hold_or_getLsbD size s hs item k (by omega)]
    by_cases hlt : k < s.off
    · rw [if_pos hlt, List.getElem_append_left (by simpa using hlt), lowBits_getElem]
    · rw [if_neg hlt, List.getElem_append_right (by simpa using hlt), lowBits_getElem]
      simp [show k - s.off < size by omega]

private theorem lowBits_full (size : ℕ) (hsize : size ≤ 32) (s : PackState) (hs : Clean s)
    (item : Word) (hfull : s.off ≥ 32 - size) :
    lowBits s.off s.hold ++ lowBits size item =
      lowBits 32 (s.hold ||| ((masks size &&& item) <<< s.off)) ++
        lowBits (s.off - (32 - size)) ((masks size &&& item) >>> (32 - s.off)) := by
  have hoff := hs.1
  apply List.ext_getElem
  · simp only [List.length_append, lowBits_length]
    omega
  · intro k hk hk'
    simp only [List.length_append, lowBits_length] at hk
    have hlow (w : Word) : (lowBits 32 w).length = 32 := lowBits_length 32 w
    by_cases h32 : k < 32
    · rw [List.getElem_append_left (Nat.lt_of_lt_of_eq h32 (hlow _).symm), lowBits_getElem,
        hold_or_getLsbD size s hs item k h32]
      by_cases hlt : k < s.off
      · rw [if_pos hlt, List.getElem_append_left (by simpa using hlt), lowBits_getElem]
      · rw [if_neg hlt, List.getElem_append_right (by simpa using hlt), lowBits_getElem]
        simp [show k - s.off < size by omega]
    · rw [List.getElem_append_right (Nat.le_trans (Nat.le_of_eq (hlow _)) (Nat.le_of_not_lt h32)),
        lowBits_getElem, hold_shift_getLsbD,
        List.getElem_append_right (by simp only [lowBits_length]; omega), lowBits_getElem]
      simp only [lowBits_length]
      rw [show 32 - s.off + (k - 32) = k - s.off by omega]
      simp [show k - s.off < size by omega]

theorem flush_foldl_pkField (size : ℕ) (hsize : size ≤ 32) (items : List Word)
    (s : PackState) (hs : Clean s) :
    (∀ i, i < 8 * s.ppack → bit (flush (items.foldl (pkField size) s)) i = bit s.pack i) ∧
      HoldsBits (flush (items.foldl (pkField size) s)) (8 * s.ppack)
        (lowBits s.off s.hold ++ fields size items) := by
  induction items generalizing s with
  | nil =>
    simp only [List.foldl_nil, fields_nil, List.append_nil, flush]
    by_cases hoff : s.off = 0
    · simpa [hoff] using holdsBits_nil s.pack (8 * s.ppack)
    · simp only [hoff, if_false]
      exact ⟨fun i hi => bit_writeWord_lt _ _ _ i hi,
        holdsBits_writeWord _ _ _ _ (Nat.le_of_lt hs.1)⟩
  | cons item items ih =>
    have hclean := pkField_clean size hsize s hs item
    obtain ⟨hbelow, hheld⟩ := ih (pkField size s item) hclean
    rw [List.foldl_cons, fields_cons, ← List.append_assoc]
    by_cases hfull : s.off ≥ 32 - size
    · have hstep : pkField size s item =
          { pack := writeWord s.pack s.ppack (s.hold ||| ((masks size &&& item) <<< s.off))
            ppack := s.ppack + 4
            off := s.off - (32 - size)
            hold := (masks size &&& item) >>> (32 - s.off) } := by
        simp [pkField, hfull]
      rw [hstep] at hbelow hheld ⊢
      dsimp only at hbelow hheld
      constructor
      · intro i hi
        rw [hbelow i (by omega), bit_writeWord_lt _ _ _ i hi]
      · rw [lowBits_full size hsize s hs item hfull, List.append_assoc, holdsBits_append]
        constructor
        · apply (holdsBits_writeWord s.pack s.ppack 32 _ (Nat.le_refl 32)).congr
          intro i _ hi
          simp only [lowBits_length] at hi
          exact hbelow i (by omega)
        · simpa [Nat.mul_add] using hheld
    · have hstep : pkField size s item =
          { s with off := s.off + size
                   hold := s.hold ||| ((masks size &&& item) <<< s.off) } := by
        simp [pkField, hfull]
      rw [hstep] at hbelow hheld ⊢
      dsimp only at hbelow hheld
      rw [lowBits_room size s hs item (by omega)]
      exact ⟨hbelow, hheld⟩

theorem foldl_pkWord (items : List Word) (s : PackState) :
    items.foldl pkWord s = items.foldl (pkField 32) s := by
  induction items generalizing s with
  | nil => rfl
  | cons item items ih => rw [List.foldl_cons, List.foldl_cons, pkWord_eq_pkField, ih]

private theorem start_clean (pack : Memory) (bit : ℕ) :
    Clean ⟨pack, 4 * (bit / 32), bit % 32,
      if bit % 32 = 0 then 0 else readWord pack (4 * (bit / 32)) &&& masks (bit % 32)⟩ := by
  refine ⟨Nat.mod_lt _ (by omega), ?_⟩
  intro j hj
  dsimp only at hj ⊢
  split
  · simp
  · by_cases hj32 : j < 32
    · rw [BitVec.and_comm, masks_and_getLsbD _ j _ hj32]
      simp [show ¬ j < bit % 32 by omega]
    · exact BitVec.getLsbD_of_ge _ _ (Nat.le_of_not_lt hj32)

private theorem start_lowBits (pack : Memory) (b : ℕ) (k : ℕ)
    (hk : k < (lowBits (b % 32) (if b % 32 = 0 then 0 else
      readWord pack (4 * (b / 32)) &&& masks (b % 32))).length) :
    (lowBits (b % 32) (if b % 32 = 0 then 0 else
      readWord pack (4 * (b / 32)) &&& masks (b % 32)))[k] =
      bit pack (8 * (4 * (b / 32)) + k) := by
  simp only [lowBits_length] at hk
  have hb : b % 32 < 32 := Nat.mod_lt _ (by omega)
  rw [lowBits_getElem, if_neg (by omega), BitVec.and_comm, masks_and_getLsbD _ k _ (by omega),
    readWord_getLsbD _ _ k (by omega)]
  simp [hk]

/-- Packing leaves the bits before the start bit unchanged, lays the fields from
the start bit on, and advances the bit pointer by their total width. -/
theorem mdsPk_spec (nbits : ℤ) (hsize : nbits.natAbs ≤ 32) (items : List Word)
    (pack : Memory) (b : ℕ) :
    (∀ i, i < b → bit (mdsPk nbits items pack b).1 i = bit pack i) ∧
      HoldsBits (mdsPk nbits items pack b).1 b (fields nbits.natAbs items) ∧
      (mdsPk nbits items pack b).2 = b + nbits.natAbs * items.length := by
  have hb : 8 * (4 * (b / 32)) + b % 32 = b := by omega
  -- both loops end in the same invariant, read here from the start bit
  have hloop : ∀ F, F = flush (items.foldl (pkField nbits.natAbs) ⟨pack, 4 * (b / 32), b % 32,
      if b % 32 = 0 then 0 else readWord pack (4 * (b / 32)) &&& masks (b % 32)⟩) →
      (∀ i, i < b → bit F i = bit pack i) ∧ HoldsBits F b (fields nbits.natAbs items) := by
    rintro F rfl
    obtain ⟨hbelow, hheld⟩ :=
      flush_foldl_pkField nbits.natAbs hsize items _ (start_clean pack b)
    rw [holdsBits_append] at hheld
    obtain ⟨hreg, hfields⟩ := hheld
    constructor
    · intro i hi
      by_cases hword : i < 8 * (4 * (b / 32))
      · exact hbelow i hword
      · have hk : i - 8 * (4 * (b / 32)) < b % 32 := by omega
        have h := hreg (i - 8 * (4 * (b / 32))) (by simpa using hk)
        rw [start_lowBits] at h
        simpa [show 8 * (4 * (b / 32)) + (i - 8 * (4 * (b / 32))) = i by omega] using h
    · simpa only [lowBits_length, hb] using hfields
  unfold mdsPk
  dsimp only
  split
  · rename_i hnone
    rcases hnone with hzero | hnil
    · simp [hzero, holdsBits_nil]
    · simp [hnil, holdsBits_nil]
  · split
    · rename_i h32
      split
      · rename_i hbyte
        have hstart : 8 * (4 * (b / 32) + b % 32 / 8) = b := by omega
        refine ⟨fun i hi => bit_writeWords_lt _ _ _ i (by omega), ?_, rfl⟩
        have h := holdsBits_writeWords pack (4 * (b / 32) + b % 32 / 8) items
        rw [hstart] at h
        rw [h32]
        exact h
      · rw [foldl_pkWord]
        obtain ⟨h1, h2⟩ := hloop _ rfl
        rw [h32] at h1 h2 ⊢
        exact ⟨h1, h2, rfl⟩
    · obtain ⟨h1, h2⟩ := hloop _ rfl
      exact ⟨h1, h2, rfl⟩

theorem unpkHold_eq (size : ℕ) (hsize : size ≤ 32) (pack : Memory) (ppack off : ℕ)
    (hoff : off < 32) (w : Word) (h : HoldsBits pack (8 * ppack + off) (lowBits size w)) :
    unpkHold size pack ppack off = masks size &&& w := by
  have hbit : ∀ j, j < size → bit pack (8 * ppack + off + j) = w.getLsbD j := by
    intro j hj
    rw [h j (by simpa using hj), lowBits_getElem]
  apply word_ext
  intro j hj
  rw [masks_and_getLsbD size j w hj]
  unfold unpkHold
  split
  · rename_i hfull
    rw [BitVec.getLsbD_or, BitVec.getLsbD_ushiftRight, BitVec.and_comm,
      masks_and_getLsbD size j _ hj, BitVec.getLsbD_shiftLeft]
    by_cases hin : off + j < 32
    · rw [readWord_getLsbD _ _ _ hin, ← Nat.add_assoc, hbit j (by omega)]
      simp [hj, show j < 32 - off by omega, show j < size by omega]
    · rw [BitVec.getLsbD_of_ge _ _ (Nat.le_of_not_lt hin),
        readWord_getLsbD _ _ _ (by omega)]
      by_cases hjs : j < size
      · rw [show 8 * (ppack + 4) + (j - (32 - off)) = 8 * ppack + off + j by omega, hbit j hjs]
        simp [hj, hjs, show ¬ j < 32 - off by omega]
      · simp [hjs]
  · rename_i hroom
    rw [BitVec.and_comm, masks_and_getLsbD size j _ hj, BitVec.getLsbD_ushiftRight]
    by_cases hjs : j < size
    · rw [readWord_getLsbD _ _ _ (by omega), ← Nat.add_assoc, hbit j hjs]
    · simp [hjs]

theorem unpkFields_eq (size : ℕ) (hsize : size ≤ 32) (finish : Word → Word) (pack : Memory)
    (ws : List Word) (ppack off : ℕ) (hoff : off < 32)
    (h : HoldsBits pack (8 * ppack + off) (fields size ws)) :
    unpkFields size finish pack ws.length ppack off =
      ws.map (fun w => finish (masks size &&& w)) := by
  induction ws generalizing ppack off with
  | nil => rfl
  | cons w ws ih =>
    rw [fields_cons, holdsBits_append, lowBits_length] at h
    obtain ⟨hw, hws⟩ := h
    rw [List.length_cons, unpkFields, unpkHold_eq size hsize pack ppack off hoff w hw,
      List.map_cons]
    split
    · rw [ih (ppack + 4) (off - (32 - size)) (by omega)]
      simpa [show 8 * (ppack + 4) + (off - (32 - size)) = 8 * ppack + off + size by omega] using hws
    · rw [ih ppack (off + size) (by omega)]
      simpa [Nat.add_assoc] using hws

theorem unpkAligned_eq (pack : Memory) (ws : List Word) (a : ℕ)
    (h : HoldsBits pack (8 * a) (fields 32 ws)) : unpkAligned pack ws.length a = ws := by
  induction ws generalizing a with
  | nil => rfl
  | cons w ws ih =>
    rw [fields_cons, holdsBits_append, lowBits_length] at h
    rw [List.length_cons, unpkAligned, readWord_eq_of_holdsBits pack a w h.1,
      ih (a + 4) (by simpa [Nat.mul_add] using h.2)]

theorem unpkWords_eq (pack : Memory) (ws : List Word) (ppack off : ℕ) (hoff : off < 32)
    (h : HoldsBits pack (8 * ppack + off) (fields 32 ws)) :
    unpkWords pack off ws.length ppack = ws := by
  induction ws generalizing ppack with
  | nil => rfl
  | cons w ws ih =>
    rw [fields_cons, holdsBits_append, lowBits_length] at h
    have hhold := unpkHold_eq 32 (Nat.le_refl 32) pack ppack off hoff w h.1
    simp only [unpkHold, Nat.sub_self, ge_iff_le, Nat.zero_le, if_true, masks_word,
      BitVec.and_comm _ (masks 32)] at hhold
    rw [List.length_cons, unpkWords, hhold, ih (ppack + 4)]
    simpa [show 8 * (ppack + 4) + off = 8 * ppack + off + 32 by omega] using h.2

theorem toNat_masks_and (size : ℕ) (w : Word) : (masks size &&& w).toNat = w.toNat % 2 ^ size := by
  apply Nat.eq_of_testBit_eq
  intro j
  rw [Nat.testBit_mod_two_pow, ← BitVec.getLsbD, ← BitVec.getLsbD]
  by_cases hj : j < 32
  · exact masks_and_getLsbD size j w hj
  · simp [BitVec.getLsbD_of_ge _ j (Nat.le_of_not_lt hj)]

theorem signField_eq (size : ℕ) (hpos : 0 < size) (hlt : size < 32) (w : Word) :
    signField size (masks size &&& w) = (w.setWidth size).signExtend 32 := by
  have hpow : 2 ^ size = 2 * 2 ^ (size - 1) := by
    rw [← Nat.pow_succ', Nat.succ_eq_add_one, Nat.sub_add_cancel hpos]
  have hhalf : 0 < 2 ^ (size - 1) := Nat.two_pow_pos _
  have hle : 2 ^ size ≤ 2 ^ 31 := Nat.pow_le_pow_right (by omega) (by omega)
  have hmod : w.toNat % 2 ^ size < 2 ^ size := Nat.mod_lt _ (by omega)
  have hmask : (masks size).toNat = 2 ^ size - 1 := by
    simp only [masks, BitVec.toNat_ofNat]
    exact Nat.mod_eq_of_lt (by omega)
  have hmax : (masks size >>> 1).toNat = 2 ^ (size - 1) - 1 := by
    rw [BitVec.toNat_ushiftRight, hmask, Nat.shiftRight_eq_div_pow]
    omega
  have hmsb : (w.setWidth size).msb = decide (2 ^ (size - 1) ≤ w.toNat % 2 ^ size) := by
    rw [BitVec.msb_eq_decide, BitVec.toNat_setWidth]
  have hself : (BitVec.setWidth 32 (BitVec.setWidth size w)).toNat = w.toNat % 2 ^ size := by
    rw [BitVec.toNat_setWidth, BitVec.toNat_setWidth]
    exact Nat.mod_eq_of_lt (by omega)
  apply BitVec.eq_of_toNat_eq
  rw [BitVec.toNat_signExtend, hmsb, hself, signField]
  by_cases hneg : 2 ^ (size - 1) ≤ w.toNat % 2 ^ size
  · have hgt : masks size &&& w > masks size >>> 1 := by
      rw [gt_iff_lt, BitVec.lt_def, toNat_masks_and, hmax]
      omega
    have hfull : (masks size + 1).toNat = 2 ^ size := by
      have hone : (1 : Word).toNat = 1 := rfl
      rw [BitVec.toNat_add, hmask, hone]
      omega
    rw [if_pos hgt, BitVec.toNat_sub, toNat_masks_and, hfull, if_pos (by simpa using hneg)]
    omega
  · have hle' : ¬ masks size &&& w > masks size >>> 1 := by
      rw [gt_iff_lt, BitVec.lt_def, toNat_masks_and, hmax]
      omega
    rw [if_neg hle', toNat_masks_and, if_neg (by simpa using hneg), Nat.add_zero]

/-- The low `size` bits of a word read as a two's complement number. -/
def signExt (size : ℕ) (w : Word) : Word := (w.setWidth size).signExtend 32

theorem mdsUnpk_unsigned (size : ℕ) (hpos : 0 < size) (hlt : size < 32) (ws : List Word)
    (pack : Memory) (b : ℕ) (h : HoldsBits pack b (fields size ws)) :
    mdsUnpk size ws.length pack b =
      (ws.map (fun w => masks size &&& w), b + size * ws.length) := by
  have hb : 8 * (4 * (b / 32)) + b % 32 = b := by omega
  unfold mdsUnpk
  simp only [Int.natAbs_natCast]
  rw [if_neg (by omega), if_neg (by omega), if_pos (by omega),
    unpkFields_eq size (by omega) id pack ws _ _ (Nat.mod_lt _ (by omega)) (by rwa [hb])]
  rfl

theorem mdsUnpk_signed (size : ℕ) (hsize : size ≤ 32) (ws : List Word)
    (pack : Memory) (b : ℕ) (h : HoldsBits pack b (fields size ws)) :
    mdsUnpk (-size) ws.length pack b = (ws.map (signExt size), b + size * ws.length) := by
  have hb : 8 * (4 * (b / 32)) + b % 32 = b := by omega
  have hoff : b % 32 < 32 := Nat.mod_lt _ (by omega)
  unfold mdsUnpk
  simp only [Int.natAbs_neg, Int.natAbs_natCast]
  by_cases h32 : size = 32
  · subst h32
    have hmap : ws.map (signExt 32) = ws := by
      conv_rhs => rw [← List.map_id ws]
      exact List.map_congr_left fun w _ => by simp [signExt]
    rw [if_pos rfl, hmap]
    split
    · rw [unpkAligned_eq pack ws _ (by
        rwa [show 8 * (4 * (b / 32) + b % 32 / 8) = b by omega])]
    · rw [unpkWords_eq pack ws _ _ hoff (by rwa [hb])]
  · rw [if_neg h32]
    by_cases hpos : 0 < size
    · rw [if_pos (by omega),
        unpkFields_eq size hsize (signField size) pack ws _ _ hoff (by rwa [hb])]
      simp only [signField_eq size hpos (by omega)]
      rfl
    · have hzero : size = 0 := by omega
      subst hzero
      have hmap : ws.map (signExt 0) = List.replicate ws.length 0 := by
        rw [List.eq_replicate_iff]
        refine ⟨List.length_map _, ?_⟩
        intro w hw
        obtain ⟨v, _, rfl⟩ := List.mem_map.mp hw
        rw [signExt, show v.setWidth 0 = 0#0 from Subsingleton.elim _ _]
        rfl
      simp [hmap]

/-- What is packed is unpacked with the negated width as the sign-extended low bits of each item. The
bits in front of it stay, and both ways the bit pointer goes on by the width of all items. -/
theorem mdsUnpk_mdsPk (nbits : ℤ) (hsize : nbits.natAbs ≤ 32) (items : List Word) (pack : Memory)
    (b : ℕ) :
    mdsUnpk (-nbits.natAbs) items.length (mdsPk nbits items pack b).1 b =
        (items.map (signExt nbits.natAbs), b + nbits.natAbs * items.length) ∧
      (mdsPk nbits items pack b).2 = b + nbits.natAbs * items.length ∧
      ∀ i, i < b → bit (mdsPk nbits items pack b).1 i = bit pack i := by
  obtain ⟨hbefore, hheld, hend⟩ := mdsPk_spec nbits hsize items pack b
  exact ⟨mdsUnpk_signed nbits.natAbs hsize items _ b hheld, hend, hbefore⟩

/-- Three bits of each of two items, from bit 30 on. -/
theorem mdsUnpk_mdsPk_three :
    mdsUnpk (-3) 2 (mdsPk 3 [5, 11] (fun _ => 255#8) 30).1 30 = ([-3, 3], 36) :=
  (mdsUnpk_mdsPk 3 (by decide) [5, 11] _ 30).1

/-! ### Fields of several widths -/

/-- Items are packed with one width after the other, each from the bit pointer on. -/
def packAll (p : Memory × ℕ) (runs : List (Fin 33 × List Word)) : Memory × ℕ :=
  runs.foldl (fun p run => mdsPk run.1.val run.2 p.1 p.2) p

def unpackAll (pack : Memory) : ℕ → List (Fin 33 × ℕ) → List (List Word)
  | _, [] => []
  | bit, (width, nitems) :: runs =>
      (mdsUnpk (-width.val) nitems pack bit).1 ::
        unpackAll pack (mdsUnpk (-width.val) nitems pack bit).2 runs

theorem packAll_below (runs : List (Fin 33 × List Word)) (p : Memory × ℕ) :
    p.2 ≤ (packAll p runs).2 ∧ ∀ i, i < p.2 → bit (packAll p runs).1 i = bit p.1 i := by
  induction runs generalizing p with
  | nil => exact ⟨Nat.le_refl _, fun _ _ => rfl⟩
  | cons run runs ih =>
    obtain ⟨hbelow, -, hend⟩ := mdsPk_spec run.1.val (Nat.le_of_lt_succ run.1.isLt) run.2 p.1 p.2
    obtain ⟨hle, hrest⟩ := ih (mdsPk run.1.val run.2 p.1 p.2)
    rw [hend] at hle hrest
    refine ⟨Nat.le_trans (Nat.le_add_right ..) hle, fun i hi => ?_⟩
    exact (hrest i (Nat.lt_of_lt_of_le hi (Nat.le_add_right ..))).trans (hbelow i hi)

/-- All of the items are unpacked again, whatever their widths are. -/
theorem unpackAll_packAll (runs : List (Fin 33 × List Word)) (pack : Memory) (b : ℕ) :
    unpackAll (packAll (pack, b) runs).1 b (runs.map fun run => (run.1, run.2.length)) =
      runs.map fun run => run.2.map (signExt run.1) := by
  induction runs generalizing pack b with
  | nil => rfl
  | cons run runs ih =>
    obtain ⟨width, items⟩ := run
    have hwidth : ((width.val : ℕ) : ℤ).natAbs ≤ 32 := Nat.le_of_lt_succ width.isLt
    obtain ⟨-, hheld, hend⟩ := mdsPk_spec width.val hwidth items pack b
    have hbelow := (packAll_below runs (mdsPk width.val items pack b)).2
    rw [Int.natAbs_natCast] at hheld hend
    have hkept :
        HoldsBits (packAll (pack, b) ((width, items) :: runs)).1 b (fields width items) := by
      refine hheld.congr fun i _ hi => hbelow i ?_
      rwa [hend, ← fields_length]
    rw [List.map_cons, unpackAll, mdsUnpk_signed width hwidth items _ b hkept, ← hend]
    exact congrArg _ (ih (mdsPk width.val items pack b).1 (mdsPk width.val items pack b).2)

end MdsPlus.Pack
