import MdsPlus.BitMemory
import Mathlib.Tactic.Linarith
import Mathlib.Tactic.Positivity
import Mathlib.Tactic.Ring

/-!
Elements of arrays and how they are compared: integers of one to sixteen bytes by their words, the
high one first, and texts by their characters.
-/

namespace MdsPlus.ElementOrder

open BitMemory (Byte)

inductive Fault
  | outOfRange
  | overflow
  | nullPtr
  | endless
  | divideByZero
deriving DecidableEq

/-- The integer types and text. -/
inductive Dtype
  | bu | wu | lu | qu | ou
  | b | w | l | q | o
  | t
deriving DecidableEq

def Dtype.signed : Dtype → Bool
  | .b | .w | .l | .q | .o | .t => true
  | _ => false

/-- The bytes of an integer; a text has any number. -/
def Dtype.size : Dtype → Option ℕ
  | .bu | .b => some 1
  | .wu | .w => some 2
  | .lu | .l => some 4
  | .qu | .q => some 8
  | .ou | .o => some 16
  | .t => none

def natOf : List Byte → ℕ
  | [] => 0
  | a :: rest => a.toNat + 256 * natOf rest

def intOf (signed : Bool) (bytes : List Byte) : ℤ :=
  if signed ∧ 256 ^ bytes.length ≤ 2 * natOf bytes then natOf bytes - 256 ^ bytes.length
  else natOf bytes

/-! ### Comparisons -/

/-- GTR_BU, GTR_WU, GTR_B and GTR_W: the difference. -/
def difference (signed : Bool) (a b : List Byte) : ℤ := intOf signed a - intOf signed b

def words (signed : Bool) : ℕ → List Byte → List ℤ
  | 0, _ => []
  | n + 1, bytes => intOf signed ((bytes.drop (4 * n)).take 4) :: words false n bytes

def greater : List ℤ → List ℤ → Bool
  | a :: as, b :: bs => a > b || (a == b && greater as bs)
  | _, _ => false

def gtrWords (signed : Bool) (n : ℕ) (a b : List Byte) : ℤ :=
  if greater (words signed n a) (words signed n b) then 1 else 0

def neqWords (n : ℕ) (a b : List Byte) : ℤ := if words false n a ≠ words false n b then 1 else 0

def char (c : Byte) : ℤ := c.toInt

/-- GTR_T: the difference of the first characters that differ, or else of the last ones. A text
without characters has no last one. -/
def textDifference : List Byte → List Byte → Except Fault ℤ
  | x :: xs, y :: ys =>
      if x ≠ y ∨ xs = [] then .ok (char x - char y) else textDifference xs ys
  | _, _ => .error .outOfRange

def gtr : Dtype → List Byte → List Byte → Except Fault ℤ
  | .bu, a, b | .wu, a, b => .ok (difference false a b)
  | .b, a, b | .w, a, b => .ok (difference true a b)
  | .lu, a, b => .ok (gtrWords false 1 a b)
  | .qu, a, b => .ok (gtrWords false 2 a b)
  | .ou, a, b => .ok (gtrWords false 4 a b)
  | .l, a, b => .ok (gtrWords true 1 a b)
  | .q, a, b => .ok (gtrWords true 2 a b)
  | .o, a, b => .ok (gtrWords true 4 a b)
  | .t, a, b => textDifference a b

def neq : Dtype → List Byte → List Byte → Except Fault ℤ
  | .bu, a, b | .wu, a, b => .ok (difference false a b)
  | .b, a, b | .w, a, b => .ok (difference true a b)
  | .lu, a, b | .l, a, b => .ok (neqWords 1 a b)
  | .qu, a, b | .q, a, b => .ok (neqWords 2 a b)
  | .ou, a, b | .o, a, b => .ok (neqWords 4 a b)
  | .t, a, b => textDifference a b

/-! ### The order -/

/-- What elements are ordered by: the value of an integer, or the characters of a text. -/
def value (d : Dtype) (bytes : List Byte) : List ℤ :=
  match d with
  | .t => bytes.map char
  | d => [intOf d.signed bytes]

def Element (d : Dtype) (len : ℕ) (bytes : List Byte) : Prop :=
  bytes.length = len ∧ ∀ n, d.size = some n → len = n

/-! ### Numbers -/

theorem natOf_lt (bytes : List Byte) : natOf bytes < 256 ^ bytes.length := by
  induction bytes with
  | nil => exact Nat.one_pos
  | cons a rest ih =>
    have hbyte := a.isLt
    rw [natOf, List.length_cons, Nat.pow_succ]
    omega

theorem natOf_append (low high : List Byte) :
    natOf (low ++ high) = natOf low + 256 ^ low.length * natOf high := by
  induction low with
  | nil => simp [natOf]
  | cons a low ih =>
    rw [List.cons_append, natOf, natOf, ih, List.length_cons, Nat.pow_succ]
    ring

theorem natOf_injective {a b : List Byte} (hlen : a.length = b.length) (h : natOf a = natOf b) :
    a = b := by
  induction a generalizing b with
  | nil => exact (List.eq_nil_of_length_eq_zero hlen.symm).symm
  | cons x a ih =>
    cases b with
    | nil => cases hlen
    | cons y b =>
      rw [natOf, natOf] at h
      have hx := x.isLt
      have hy := y.isLt
      have hbyte : x = y := BitVec.eq_of_toNat_eq (by omega)
      have hrest : natOf a = natOf b := by omega
      rw [hbyte, ih (Nat.succ.inj hlen) hrest]

theorem intOf_unsigned (bytes : List Byte) : intOf false bytes = natOf bytes := by
  simp [intOf]

theorem intOf_injective {signed : Bool} {a b : List Byte} (hlen : a.length = b.length)
    (h : intOf signed a = intOf signed b) : a = b := by
  refine natOf_injective hlen ?_
  have ha := natOf_lt a
  have hb := natOf_lt b
  rw [hlen] at ha
  rw [intOf, intOf, hlen] at h
  generalize hsize : 256 ^ b.length = size at ha hb
  have hcast : (256 : ℤ) ^ b.length = size := by
    rw [← hsize]
    norm_cast
  rw [hcast] at h
  split at h <;> split at h <;> omega

/-! ### Words -/

def number : List ℤ → ℤ
  | [] => 0
  | a :: rest => a * 4294967296 ^ rest.length + number rest

def IsWord (z : ℤ) : Prop := 0 ≤ z ∧ z < 4294967296

theorem number_range {ws : List ℤ} (h : ∀ w ∈ ws, IsWord w) :
    0 ≤ number ws ∧ number ws < 4294967296 ^ ws.length := by
  induction ws with
  | nil => exact ⟨le_rfl, Int.one_pos⟩
  | cons a rest ih =>
    obtain ⟨hlow, hhigh⟩ := h a List.mem_cons_self
    obtain ⟨hrest, hrest'⟩ := ih fun w hw => h w (List.mem_cons_of_mem a hw)
    rw [number, List.length_cons, pow_succ]
    constructor
    · positivity
    · nlinarith

theorem number_cons_lt {a b : ℤ} {as bs : List ℤ} (hlen : as.length = bs.length)
    (ha : ∀ w ∈ as, IsWord w) (hb : ∀ w ∈ bs, IsWord w) :
    number (b :: bs) < number (a :: as) ↔ b < a ∨ a = b ∧ number bs < number as := by
  obtain ⟨has, has'⟩ := number_range ha
  obtain ⟨hbs, hbs'⟩ := number_range hb
  rw [number, number, ← hlen]
  rw [← hlen] at hbs'
  rcases lt_trichotomy b a with hlt | rfl | hgt
  · refine iff_of_true ?_ (Or.inl hlt)
    have hstep : (b + 1) * 4294967296 ^ as.length ≤ a * 4294967296 ^ as.length :=
      mul_le_mul_of_nonneg_right hlt (by positivity)
    linarith
  · simp
  · refine iff_of_false (fun h => ?_) fun h => ?_
    · have hstep : (a + 1) * 4294967296 ^ as.length ≤ b * 4294967296 ^ as.length :=
        mul_le_mul_of_nonneg_right hgt (by positivity)
      linarith
    · rcases h with h | h
      · exact absurd h (not_lt_of_gt hgt)
      · exact absurd h.1 (ne_of_lt hgt)

theorem greater_cons {a b : ℤ} {as bs : List ℤ} :
    greater (a :: as) (b :: bs) = true ↔ b < a ∨ a = b ∧ greater as bs = true := by
  simp [greater]

theorem greater_words {as bs : List ℤ} (hlen : as.length = bs.length)
    (ha : ∀ w ∈ as, IsWord w) (hb : ∀ w ∈ bs, IsWord w) :
    greater as bs = true ↔ number bs < number as := by
  induction as generalizing bs with
  | nil =>
    rw [List.eq_nil_of_length_eq_zero hlen.symm]
    simp [greater]
  | cons a as ih =>
    cases bs with
    | nil => cases hlen
    | cons b bs =>
      have hlen' := Nat.succ.inj hlen
      have ha' := fun w hw => ha w (List.mem_cons_of_mem a hw)
      have hb' := fun w hw => hb w (List.mem_cons_of_mem b hw)
      rw [greater_cons, number_cons_lt hlen' ha' hb', ih hlen' ha' hb']

theorem intOf_isWord {bytes : List Byte} (h : bytes.length ≤ 4) : IsWord (intOf false bytes) := by
  have hlt := natOf_lt bytes
  have hpow : 256 ^ bytes.length ≤ 256 ^ 4 := Nat.pow_le_pow_right (by omega) h
  rw [intOf_unsigned]
  constructor <;> omega

theorem words_isWord (n : ℕ) (bytes : List Byte) : ∀ w ∈ words false n bytes, IsWord w := by
  induction n with
  | zero => nofun
  | succ n ih =>
    intro w hw
    rw [words] at hw
    rcases List.mem_cons.1 hw with rfl | hw
    · exact intOf_isWord (by rw [List.length_take]; exact Nat.min_le_left 4 _)
    · exact ih w hw

theorem length_words (signed : Bool) (n : ℕ) (bytes : List Byte) :
    (words signed n bytes).length = n := by
  induction n generalizing signed with
  | zero => rfl
  | succ n ih => rw [words, List.length_cons, ih]

theorem natOf_split {bytes : List Byte} {n : ℕ} (h : bytes.length = 4 * (n + 1)) :
    natOf bytes = natOf (bytes.take (4 * n)) +
      256 ^ (4 * n) * natOf ((bytes.drop (4 * n)).take 4) := by
  have hlow : (bytes.take (4 * n)).length = 4 * n := by
    rw [List.length_take]
    omega
  have hhigh : (bytes.drop (4 * n)).take 4 = bytes.drop (4 * n) :=
    List.take_of_length_le (by rw [List.length_drop]; omega)
  have happend := natOf_append (bytes.take (4 * n)) (bytes.drop (4 * n))
  rw [List.take_append_drop, hlow] at happend
  rw [hhigh, happend]

theorem words_take {bytes : List Byte} {n k : ℕ} (h : n ≤ k) :
    words false n (bytes.take (4 * k)) = words false n bytes := by
  induction n with
  | zero => rfl
  | succ n ih =>
    rw [words, words, ih (by omega), List.drop_take, List.take_take,
      Nat.min_eq_left (by omega : 4 ≤ 4 * k - 4 * n)]

theorem number_unsigned {n : ℕ} {bytes : List Byte} (h : bytes.length = 4 * n) :
    number (words false n bytes) = natOf bytes := by
  induction n generalizing bytes with
  | zero =>
    rw [List.eq_nil_of_length_eq_zero h]
    rfl
  | succ n ih =>
    have hlow : (bytes.take (4 * n)).length = 4 * n := by
      rw [List.length_take]
      omega
    have hpow : (4294967296 : ℤ) ^ n = 256 ^ (4 * n) := by
      rw [pow_mul]
      norm_num
    rw [words, number, length_words, ← words_take le_rfl, ih hlow, natOf_split h, intOf_unsigned,
      hpow]
    push_cast
    ring

theorem number_words {signed : Bool} {n : ℕ} {bytes : List Byte}
    (h : bytes.length = 4 * (n + 1)) : number (words signed (n + 1) bytes) = intOf signed bytes := by
  cases signed with
  | false => rw [number_unsigned h, intOf_unsigned]
  | true =>
    have hlow : (bytes.take (4 * n)).length = 4 * n := by
      rw [List.length_take]
      omega
    have hhigh : ((bytes.drop (4 * n)).take 4).length = 4 := by
      rw [List.length_take, List.length_drop]
      omega
    have hpow : (4294967296 : ℤ) ^ n = (256 ^ (4 * n) : ℕ) := by
      push_cast
      rw [pow_mul]
      norm_num
    have hsize : 256 ^ (4 * (n + 1)) = 256 ^ (4 * n) * 4294967296 := by
      rw [Nat.mul_succ, Nat.pow_add]
    have hlt := natOf_lt (bytes.take (4 * n))
    rw [hlow] at hlt
    rw [words, number, length_words, ← words_take le_rfl, number_unsigned hlow, intOf, intOf, hhigh,
      h, natOf_split h, hpow, hsize]
    have hcast : (256 : ℤ) ^ (4 * (n + 1)) = (256 ^ (4 * n) : ℕ) * 4294967296 := by
      exact_mod_cast hsize
    have hfour : 256 ^ 4 = 4294967296 := by norm_num
    have hfour' : (256 : ℤ) ^ 4 = 4294967296 := by norm_num
    rw [hcast, hfour, hfour']
    generalize natOf (bytes.take (4 * n)) = low at *
    generalize natOf ((bytes.drop (4 * n)).take 4) = high at *
    generalize 256 ^ (4 * n) = size at *
    clear hsize hcast hpow hfour hfour'
    -- the high word decides the sign
    by_cases hneg : 4294967296 ≤ 2 * high
    · have hle := Nat.mul_le_mul_left size (show 2147483648 ≤ high by omega)
      have hwhole : size * 4294967296 ≤ 2 * (low + size * high) := by linarith
      rw [if_pos ⟨rfl, hneg⟩, if_pos ⟨rfl, hwhole⟩]
      push_cast
      ring
    · have hle := Nat.mul_le_mul_left size (show high + 1 ≤ 2147483648 by omega)
      rw [Nat.mul_add] at hle
      rw [if_neg fun hboth => hneg hboth.2, if_neg fun hboth => ?_]
      · push_cast
        ring
      · have hge := hboth.2
        omega

/-! ### Comparisons follow the order -/

theorem gtrWords_pos {signed : Bool} {n : ℕ} {a b : List Byte} (ha : a.length = 4 * (n + 1))
    (hb : b.length = 4 * (n + 1)) :
    0 < gtrWords signed (n + 1) a b ↔ intOf signed b < intOf signed a := by
  have hlen : (words false n a).length = (words false n b).length := by
    rw [length_words, length_words]
  have hgreater : greater (words signed (n + 1) a) (words signed (n + 1) b) = true ↔
      intOf signed b < intOf signed a := by
    rw [← number_words ha, ← number_words hb, words, words, greater_cons,
      number_cons_lt hlen (words_isWord n a) (words_isWord n b),
      greater_words hlen (words_isWord n a) (words_isWord n b)]
  rw [← hgreater, gtrWords]
  split
  · rename_i htrue
    exact iff_of_true one_pos htrue
  · rename_i hnot
    exact iff_of_false (lt_irrefl 0) hnot

theorem difference_pos {signed : Bool} {a b : List Byte} :
    0 < difference signed a b ↔ intOf signed b < intOf signed a := by
  rw [difference]
  omega

theorem char_injective {x y : Byte} (h : char x = char y) : x = y := BitVec.eq_of_toInt_eq h

theorem textDifference_spec {a b : List Byte} (hlen : a.length = b.length) (hpos : 0 < a.length) :
    ∃ c, textDifference a b = .ok c ∧ (0 < c ↔ b.map char < a.map char) ∧ (c = 0 ↔ a = b) := by
  induction a generalizing b with
  | nil => cases hpos
  | cons x a ih =>
    cases b with
    | nil => cases hlen
    | cons y b =>
      have hlen' := Nat.succ.inj hlen
      rw [textDifference]
      by_cases hxy : x = y
      · subst hxy
        cases a with
        | nil =>
          rw [List.eq_nil_of_length_eq_zero hlen'.symm]
          exact ⟨char x - char x, by simp, by simp, by simp⟩
        | cons x' a =>
          obtain ⟨c, hc, hgreater, hzero⟩ := ih hlen' (Nat.succ_pos _)
          refine ⟨c, by simpa using hc, ?_, ?_⟩
          · rw [hgreater]
            simp
          · rw [hzero]
            simp
      · refine ⟨char x - char y, by simp [hxy], ?_, ?_⟩
        · rw [List.map_cons, List.map_cons, List.cons_lt_cons_iff, sub_pos]
          refine ⟨Or.inl, fun h => h.resolve_right fun heq => hxy (char_injective heq.1).symm⟩
        · refine iff_of_false (fun h => ?_) fun h => hxy (List.cons.inj h).1
          exact hxy (char_injective (sub_eq_zero.1 h))

theorem value_lt_iff {x y : ℤ} : [x] < [y] ↔ x < y := by
  simp [List.cons_lt_cons_iff]

theorem gtr_spec {d : Dtype} {len : ℕ} {a b : List Byte} (ha : Element d len a)
    (hb : Element d len b) (hlen : 0 < len) :
    ∃ c, gtr d a b = .ok c ∧ (0 < c ↔ value d b < value d a) := by
  have hword : ∀ n, d.size = some (4 * (n + 1)) →
      a.length = 4 * (n + 1) ∧ b.length = 4 * (n + 1) := fun n hn =>
    ⟨ha.1.trans (ha.2 _ hn), hb.1.trans (hb.2 _ hn)⟩
  cases d with
  | bu | wu | b | w => exact ⟨_, rfl, difference_pos.trans value_lt_iff.symm⟩
  | lu | l =>
    obtain ⟨ha, hb⟩ := hword 0 rfl
    exact ⟨_, rfl, (gtrWords_pos ha hb).trans value_lt_iff.symm⟩
  | qu | q =>
    obtain ⟨ha, hb⟩ := hword 1 rfl
    exact ⟨_, rfl, (gtrWords_pos ha hb).trans value_lt_iff.symm⟩
  | ou | o =>
    obtain ⟨ha, hb⟩ := hword 3 rfl
    exact ⟨_, rfl, (gtrWords_pos ha hb).trans value_lt_iff.symm⟩
  | t =>
    obtain ⟨c, hc, hgreater, -⟩ := textDifference_spec (ha.1.trans hb.1.symm) (ha.1 ▸ hlen)
    exact ⟨c, hc, hgreater⟩

theorem value_injective {d : Dtype} {a b : List Byte} (hlen : a.length = b.length)
    (h : value d a = value d b) : a = b := by
  cases d with
  | t => exact List.map_injective_iff.2 (fun _ _ => char_injective) h
  | _ => exact intOf_injective hlen (List.cons.inj h).1

end MdsPlus.ElementOrder
