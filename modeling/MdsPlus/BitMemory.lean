import Mathlib.Data.List.Basic

/-!
Byte-addressed memory read as a string of bits, least significant bit first.
Words are loaded and stored little-endian at any byte address. A block of
memory holds a bit list when its bits agree with the list; this is the only
view of memory that the packing proofs use.
-/

namespace MdsPlus.BitMemory

abbrev Byte := BitVec 8
abbrev Word := BitVec 32
abbrev Memory := ℕ → Byte

def bit (m : Memory) (i : ℕ) : Bool := (m (i / 8)).getLsbD (i % 8)

def readWord (m : Memory) (a : ℕ) : Word := m (a + 3) ++ m (a + 2) ++ m (a + 1) ++ m a

def writeWord (m : Memory) (a : ℕ) (w : Word) : Memory :=
  fun j => if a ≤ j ∧ j < a + 4 then w.extractLsb' (8 * (j - a)) 8 else m j

/-- Store consecutive words, as a memory copy from an array of words does. -/
def writeWords (m : Memory) (a : ℕ) : List Word → Memory
  | [] => m
  | w :: ws => writeWords (writeWord m a w) (a + 4) ws

theorem readWord_getLsbD (m : Memory) (a j : ℕ) (hj : j < 32) :
    (readWord m a).getLsbD j = bit m (8 * a + j) := by
  have hdiv : (8 * a + j) / 8 = a + j / 8 := by omega
  have hmod : (8 * a + j) % 8 = j % 8 := by omega
  simp only [readWord, bit, hdiv, hmod, BitVec.getLsbD_append]
  have hcases : j / 8 = 0 ∨ j / 8 = 1 ∨ j / 8 = 2 ∨ j / 8 = 3 := by omega
  rcases hcases with h | h | h | h
  · have hj8 : j < 8 := by omega
    simp [h, hj8, Nat.mod_eq_of_lt hj8]
  · have hj8 : ¬ j < 8 := by omega
    have hj' : j - 8 < 8 := by omega
    have hjm : j % 8 = j - 8 := by omega
    simp [h, hj8, hj', hjm]
  · have hj8 : ¬ j < 8 := by omega
    have hj16 : ¬ j - 8 < 8 := by omega
    have hj' : j - 8 - 8 < 8 := by omega
    have hjm : j % 8 = j - 8 - 8 := by omega
    simp only [h, hj8, hj16, hj', hjm, if_true, if_false]
  · have hj8 : ¬ j < 8 := by omega
    have hj16 : ¬ j - 8 < 8 := by omega
    have hj24 : ¬ j - 8 - 8 < 8 := by omega
    have hjm : j % 8 = j - 8 - 8 - 8 := by omega
    simp only [h, hj8, hj16, hj24, hjm, if_false]

theorem bit_writeWord (m : Memory) (a : ℕ) (w : Word) (i : ℕ) :
    bit (writeWord m a w) i =
      if 8 * a ≤ i ∧ i < 8 * a + 32 then w.getLsbD (i - 8 * a) else bit m i := by
  unfold bit writeWord
  by_cases h : 8 * a ≤ i ∧ i < 8 * a + 32
  · have hbyte : a ≤ i / 8 ∧ i / 8 < a + 4 := by omega
    have hidx : 8 * (i / 8 - a) + i % 8 = i - 8 * a := by omega
    have hlt : i % 8 < 8 := Nat.mod_lt _ (by omega)
    simp only [h, hbyte, and_self, if_true, BitVec.getLsbD_extractLsb', hlt, decide_true,
      Bool.true_and, hidx]
  · have hbyte : ¬ (a ≤ i / 8 ∧ i / 8 < a + 4) := by omega
    simp only [h, hbyte, if_false]

theorem bit_writeWord_lt (m : Memory) (a : ℕ) (w : Word) (i : ℕ) (hi : i < 8 * a) :
    bit (writeWord m a w) i = bit m i := by
  rw [bit_writeWord, if_neg (by omega)]

theorem bit_writeWords_lt (m : Memory) (a : ℕ) (ws : List Word) (i : ℕ) (hi : i < 8 * a) :
    bit (writeWords m a ws) i = bit m i := by
  induction ws generalizing m a with
  | nil => rfl
  | cons w ws ih =>
    rw [writeWords, ih _ _ (by omega), bit_writeWord_lt m a w i hi]

/-- The low `n` bits of a word, least significant first. -/
def lowBits (n : ℕ) (w : Word) : List Bool := (List.range n).map w.getLsbD

@[simp] theorem lowBits_length (n : ℕ) (w : Word) : (lowBits n w).length = n := by
  simp [lowBits]

@[simp] theorem lowBits_zero (w : Word) : lowBits 0 w = [] := rfl

@[simp] theorem lowBits_getElem (n : ℕ) (w : Word) (k : ℕ) (hk : k < (lowBits n w).length) :
    (lowBits n w)[k] = w.getLsbD k := by
  simp [lowBits]

def fields (n : ℕ) (ws : List Word) : List Bool := ws.flatMap (lowBits n)

@[simp] theorem fields_nil (n : ℕ) : fields n [] = [] := rfl

@[simp] theorem fields_cons (n : ℕ) (w : Word) (ws : List Word) :
    fields n (w :: ws) = lowBits n w ++ fields n ws := rfl

@[simp] theorem fields_length (n : ℕ) (ws : List Word) :
    (fields n ws).length = n * ws.length := by
  induction ws with
  | nil => rfl
  | cons w ws ih => simp [ih, Nat.mul_add, Nat.add_comm]

@[simp] theorem fields_width_zero (ws : List Word) : fields 0 ws = [] :=
  List.length_eq_zero_iff.mp (by simp)

def HoldsBits (m : Memory) (start : ℕ) (bits : List Bool) : Prop :=
  ∀ k (hk : k < bits.length), bit m (start + k) = bits[k]

theorem holdsBits_nil (m : Memory) (start : ℕ) : HoldsBits m start [] := by
  intro k hk
  simp at hk

theorem holdsBits_append (m : Memory) (start : ℕ) (xs ys : List Bool) :
    HoldsBits m start (xs ++ ys) ↔
      HoldsBits m start xs ∧ HoldsBits m (start + xs.length) ys := by
  constructor
  · intro h
    constructor
    · intro k hk
      rw [h k (by simp only [List.length_append]; omega), List.getElem_append_left hk]
    · intro k hk
      have hk' := h (xs.length + k) (by simp only [List.length_append]; omega)
      rw [List.getElem_append_right (by omega)] at hk'
      simpa [Nat.add_assoc] using hk'
  · rintro ⟨hx, hy⟩ k hk
    by_cases hlt : k < xs.length
    · rw [List.getElem_append_left hlt]
      exact hx k hlt
    · have hy' := hy (k - xs.length) (by simp only [List.length_append] at hk; omega)
      rw [List.getElem_append_right (by omega)]
      simpa [show start + xs.length + (k - xs.length) = start + k by omega] using hy'

theorem HoldsBits.congr {m m' : Memory} {start : ℕ} {bits : List Bool}
    (h : HoldsBits m start bits)
    (heq : ∀ i, start ≤ i → i < start + bits.length → bit m' i = bit m i) :
    HoldsBits m' start bits := by
  intro k hk
  rw [heq (start + k) (by omega) (by omega)]
  exact h k hk

theorem holdsBits_writeWord (m : Memory) (a n : ℕ) (w : Word) (hn : n ≤ 32) :
    HoldsBits (writeWord m a w) (8 * a) (lowBits n w) := by
  intro k hk
  simp only [lowBits_length] at hk
  rw [bit_writeWord, if_pos (by omega)]
  simp

theorem holdsBits_writeWords (m : Memory) (a : ℕ) (ws : List Word) :
    HoldsBits (writeWords m a ws) (8 * a) (fields 32 ws) := by
  induction ws generalizing m a with
  | nil => exact holdsBits_nil _ _
  | cons w ws ih =>
    rw [fields_cons, holdsBits_append, writeWords]
    constructor
    · apply (holdsBits_writeWord m a 32 w (Nat.le_refl 32)).congr
      intro i _ hi
      simp only [lowBits_length] at hi
      exact bit_writeWords_lt _ _ _ _ (by omega)
    · simpa [Nat.mul_add] using ih (writeWord m a w) (a + 4)

theorem word_ext {x y : Word} (h : ∀ j, j < 32 → x.getLsbD j = y.getLsbD j) : x = y :=
  BitVec.eq_of_getLsbD_eq h

theorem readWord_eq_of_holdsBits (m : Memory) (a : ℕ) (w : Word)
    (h : HoldsBits m (8 * a) (lowBits 32 w)) : readWord m a = w := by
  apply word_ext
  intro j hj
  rw [readWord_getLsbD m a j hj, h j (by simpa using hj)]
  simp

end MdsPlus.BitMemory
