import MdsPlus.ElementOrder

/-!
Integers of the expression language: digits in one of four radixes, and letters for the sign and
the size behind them. The digits are accumulated in sixteen bytes.
-/

namespace MdsPlus.IntegerTokens

open BitMemory (Byte)
open ElementOrder (Dtype natOf intOf natOf_append natOf_lt)

inductive Status
  | extraneous
  | tooBig
deriving DecidableEq

structure Scalar where
  dtype : Dtype
  bytes : List Byte
deriving DecidableEq

inductive Size
  | b | w | l | q | o
deriving DecidableEq

def Size.length : Size → ℕ
  | .b => 1
  | .w => 2
  | .l => 4
  | .q => 8
  | .o => 16

def Size.dtype (signed : Bool) : Size → Dtype
  | .b => if signed then .b else .bu
  | .w => if signed then .w else .wu
  | .l => if signed then .l else .lu
  | .q => if signed then .q else .qu
  | .o => if signed then .o else .ou

def isBlank (c : Char) : Bool := c = ' ' || c = '\t'

def digit (c : Char) : Option ℕ :=
  if '0' ≤ c ∧ c ≤ '9' then some (c.toNat - '0'.toNat)
  else if 'A' ≤ c ∧ c ≤ 'F' then some (c.toNat - 'A'.toNat + 10)
  else none

def radixOf : Char → Option ℕ
  | 'B' => some 2
  | 'O' => some 8
  | 'X' => some 16
  | _ => none

def selectRadix : List Char → ℕ × ℕ × List Char
  | c :: d :: rest =>
    match radixOf c with
    | none => (10, 0, c :: d :: rest)
    | some radix =>
      let carry := (digit d).getD radix
      (radix, carry, if carry ≥ radix then c :: d :: rest else d :: rest)
  | now => (10, 0, now)

/-- One digit more: the bytes, and what is carried out of them. -/
def accumulate (radix : ℕ) : ℕ → List Byte → List Byte × ℕ
  | carry, [] => ([], carry)
  | carry, q :: qq =>
    let (rest, out) := accumulate radix ((carry + q.toNat * radix) / 256) qq
    (BitVec.ofNat 8 (carry + q.toNat * radix) :: rest, out)

def convert (radix : ℕ) : List Byte → ℕ → List Char → List Byte × ℕ × List Char
  | qq, carry, [] => (qq, carry, [])
  | qq, carry, c :: now =>
    match digit c with
    | none => (qq, carry, c :: now)
    | some k =>
      if k ≥ radix then (qq, 0, c :: now)
      else convert radix (accumulate radix k qq).1 (accumulate radix k qq).2 now

/-- Negation until nonzero, then complement. -/
def negate : List Byte → List Byte
  | [] => []
  | q :: qq => if -q = 0 then -q :: negate qq else -q :: qq.map (~~~ ·)

def signOf : Char → Option Bool
  | 'U' => some false
  | 'S' => some true
  | _ => none

def sizeOf : Char → Option Size
  | 'B' => some .b
  | 'W' => some .w
  | 'L' => some .l
  | 'Q' => some .q
  | 'O' => some .o
  | _ => none

def letter {α : Type} (f : Char → Option α) : List Char → Option α × List Char
  | [] => (none, [])
  | c :: now =>
    match f c with
    | none => (none, c :: now)
    | some a => (some a, now)

def suffix (now : List Char) : Option Bool × Option Size × List Char :=
  let (sign, now) := letter signOf now
  let (size, now) := letter sizeOf now
  match sign with
  | some s => (some s, size, now)
  | none =>
    let (sign, now) := letter signOf now
    (sign, size, now)

/-- Find the output size and check the high order bits. -/
def check (negative : Bool) (qq : List Byte) (carry : ℕ) (now : List Char) :
    Except Status Scalar :=
  let (sign, size, now) := suffix now
  let now := now.dropWhile isBlank
  let signed := sign.getD true
  let size := size.getD .l
  let top := signed && decide (128 ≤ (qq.getD (size.length - 1) 0).toNat)
  if carry ≠ 0 ∨ signed = true ∧ top ≠ negative then .error .tooBig
  else if (qq.drop size.length).any fun q => q ≠ if top then 255 else 0 then .error .tooBig
  else if now.head?.any (· ≠ '\x00') then .error .extraneous
  else .ok ⟨size.dtype signed, qq.take size.length⟩

def dropZero (now : List Char) : List Char := if now.head? = some '0' then now.tail else now

/-- The bytes of the number, what is carried out of them, and the text behind the digits. -/
def number (now : List Char) : List Byte × ℕ × List Char :=
  let (radix, carry, now) := selectRadix (dropZero now)
  convert radix (List.replicate 16 0) carry now

def lexInt (text : List Char) : Except Status Scalar :=
  let now := (text.dropWhile isBlank).map Char.toUpper
  let negative := now.head? = some '-'
  let now := if negative ∨ now.head? = some '+' then now.tail else now
  let (qq, carry, now) := number now
  check negative (if negative then negate qq else qq) carry now

/-! ### Integers as they are written -/

inductive Radix
  | binary | octal | decimal | hexadecimal
deriving DecidableEq

def Radix.base : Radix → ℕ
  | .binary => 2
  | .octal => 8
  | .decimal => 10
  | .hexadecimal => 16

def Radix.letters : Radix → List Char
  | .binary => ['0', 'B']
  | .octal => ['0', 'O']
  | .decimal => []
  | .hexadecimal => ['0', 'X']

def digitChar (k : ℕ) : Char := (Nat.digitChar k).toUpper

def signLetter : Option Bool → List Char
  | none => []
  | some false => ['U']
  | some true => ['S']

def sizeLetter : Option Size → List Char
  | none => []
  | some .b => ['B']
  | some .w => ['W']
  | some .l => ['L']
  | some .q => ['Q']
  | some .o => ['O']

structure Suffix where
  sign : Option Bool
  size : Option Size
  signFirst : Bool
deriving DecidableEq

def Suffix.text (s : Suffix) : List Char :=
  if s.signFirst then signLetter s.sign ++ sizeLetter s.size
  else sizeLetter s.size ++ signLetter s.sign

def Suffix.signed (s : Suffix) : Bool := s.sign.getD true

/-- Without a letter for the size it is a long. -/
def Suffix.length (s : Suffix) : ℕ := (s.size.getD .l).length

def Suffix.bound (s : Suffix) : ℕ :=
  if s.signed then 128 * 256 ^ (s.length - 1) else 256 ^ s.length

structure Numeral where
  radix : Radix
  digits : List ℕ
  suffix : Suffix
  digits_ne : digits ≠ []
  digit_lt : ∀ k ∈ digits, k < radix.base
  ends : radix = .hexadecimal → suffix.text.head? ≠ some 'B'

def Numeral.text (n : Numeral) : List Char :=
  n.radix.letters ++ (n.digits.map digitChar ++ n.suffix.text)

def horner (base : ℕ) (digits : List ℕ) : ℕ := digits.foldl (fun v k => v * base + k) 0

def Numeral.value (n : Numeral) : ℕ := horner n.radix.base n.digits

def Reads (n : Numeral) (text : List Char) : Prop :=
  if n.value < n.suffix.bound then
    ∃ r, lexInt text = .ok r ∧ r.dtype = (n.suffix.size.getD .l).dtype n.suffix.signed ∧
      r.bytes.length = n.suffix.length ∧ intOf n.suffix.signed r.bytes = n.value
  else ∃ e, lexInt text = .error e

def ZeroOctaword (n : Numeral) : Prop :=
  n.radix = .decimal ∧ n.digits = [0] ∧
    (n.suffix.text = ['O', 'U'] ∨ n.suffix.text = ['O', 'S'])

instance (n : Numeral) : Decidable (ZeroOctaword n) := inferInstanceAs (Decidable (_ ∧ _ ∧ _))

/-- A zero whose letter O is taken for that of a radix, or a number too large for sixteen bytes
that leaves one of the type in them, with nothing carried out by the last digit or with a letter B
behind it. -/
def Lost (n : Numeral) : Prop :=
  ZeroOctaword n ∨
    256 ^ 16 ≤ n.value ∧ n.value % 256 ^ 16 < n.suffix.bound ∧
      (n.suffix.text.head? = some 'B' ∨
        n.value / n.radix.base % 256 ^ 16 * n.radix.base + n.value % n.radix.base < 256 ^ 16)

variable {radix carry : ℕ} {qq : List Byte} {ds : List ℕ} {rest : List Char}

/-! ### Digits -/

theorem digit_digitChar {k : ℕ} (hk : k < 16) : digit (digitChar k) = some k := by
  revert k
  decide

theorem horner_append (base : ℕ) (ds : List ℕ) (k : ℕ) :
    horner base (ds ++ [k]) = horner base ds * base + k := by
  rw [horner, List.foldl_append]
  rfl

theorem accumulate_spec (radix carry : ℕ) (qq : List Byte) :
    (accumulate radix carry qq).1.length = qq.length ∧
      natOf (accumulate radix carry qq).1 + 256 ^ qq.length * (accumulate radix carry qq).2 =
        natOf qq * radix + carry := by
  induction qq generalizing carry with
  | nil => exact ⟨rfl, by simp [accumulate, natOf]⟩
  | cons q qq ih =>
    obtain ⟨hlength, hvalue⟩ := ih ((carry + q.toNat * radix) / 256)
    refine ⟨congrArg Nat.succ hlength, ?_⟩
    have hdiv := Nat.mod_add_div (carry + q.toNat * radix) 256
    simp only [accumulate, natOf, BitVec.toNat_ofNat, List.length_cons, Nat.pow_succ]
    generalize accumulate radix ((carry + q.toNat * radix) / 256) qq = r at *
    have hscale : 256 ^ qq.length * 256 * r.2 = 256 * (256 ^ qq.length * r.2) := by ring
    have hproduct : (q.toNat + 256 * natOf qq) * radix =
        q.toNat * radix + 256 * (natOf qq * radix) := by ring
    rw [hscale, hproduct]
    omega

theorem accumulate_eq (radix carry : ℕ) (hlen : qq.length = 16) :
    natOf (accumulate radix carry qq).1 = (natOf qq * radix + carry) % 256 ^ 16 ∧
      (accumulate radix carry qq).2 = (natOf qq * radix + carry) / 256 ^ 16 := by
  obtain ⟨hlength, hvalue⟩ := accumulate_spec radix carry qq
  have hlt := natOf_lt (accumulate radix carry qq).1
  rw [hlength, hlen] at hlt
  rw [hlen] at hvalue
  rw [← hvalue, Nat.add_mul_mod_self_left, Nat.mod_eq_of_lt hlt,
    Nat.add_mul_div_left _ _ (by positivity), Nat.div_eq_of_lt hlt, Nat.zero_add]
  exact ⟨rfl, rfl⟩

/-- The digits one after the other. -/
def accumulated (radix : ℕ) (ds : List ℕ) : List Byte × ℕ :=
  ds.foldl (fun s k => accumulate radix k s.1) (List.replicate 16 0, 0)

theorem accumulated_spec (hds : ∀ k ∈ ds, k < radix) :
    (accumulated radix ds).1.length = 16 ∧
      natOf (accumulated radix ds).1 = horner radix ds % 256 ^ 16 ∧
      (accumulated radix ds).2 =
        (horner radix ds / radix % 256 ^ 16 * radix + horner radix ds % radix) / 256 ^ 16 := by
  induction ds using List.reverseRecOn with
  | nil =>
    refine ⟨rfl, rfl, ?_⟩
    simp [accumulated, horner]
  | append_singleton ds k ih =>
    obtain ⟨hlength, hvalue, -⟩ := ih fun j hj => hds j (List.mem_append_left _ hj)
    have hk := hds k (List.mem_append_right _ (List.mem_singleton_self k))
    have hlast : accumulated radix (ds ++ [k]) = accumulate radix k (accumulated radix ds).1 := by
      rw [accumulated, List.foldl_append]
      rfl
    obtain ⟨hbytes, hcarry⟩ := accumulate_eq radix k hlength
    have hdiv : (horner radix ds * radix + k) / radix = horner radix ds := by
      rw [Nat.mul_comm, Nat.mul_add_div (by omega), Nat.div_eq_of_lt hk, Nat.add_zero]
    have hmod : (horner radix ds * radix + k) % radix = k := by
      rw [Nat.mul_comm, Nat.mul_add_mod, Nat.mod_eq_of_lt hk]
    rw [hlast, horner_append, hdiv, hmod, hbytes, hcarry, hvalue]
    refine ⟨(accumulate_spec radix k _).1.trans hlength, ?_, rfl⟩
    rw [Nat.add_mod, Nat.mod_mul_mod, ← Nat.add_mod]

theorem convert_digits (hradix : radix ≤ 16) (hds : ∀ k ∈ ds, k < radix) (qq : List Byte)
    (carry : ℕ) :
    convert radix qq carry (ds.map digitChar ++ rest) =
      convert radix (ds.foldl (fun s k => accumulate radix k s.1) (qq, carry)).1
        (ds.foldl (fun s k => accumulate radix k s.1) (qq, carry)).2 rest := by
  induction ds generalizing qq carry with
  | nil => rfl
  | cons k ds ih =>
    obtain ⟨hk, hds⟩ := List.forall_mem_cons.1 hds
    have hdigit := digit_digitChar (k := k) (by omega)
    rw [List.map_cons, List.cons_append, convert, hdigit]
    simp only [if_neg (not_le.2 hk)]
    exact ih hds _ _

/-! ### The letters -/

theorem suffix_text (s : Suffix) : suffix s.text = (s.sign, s.size, []) := by
  rcases s with ⟨_ | (_ | _), _ | (_ | _ | _ | _ | _), _ | _⟩ <;> rfl

theorem convert_suffix (s : Suffix)
    (hends : radix = 16 → s.text.head? ≠ some 'B') (hsmall : radix = 16 ∨ radix ≤ 11)
    (qq : List Byte) (carry : ℕ) :
    convert radix qq carry s.text =
      (qq, if s.text.head? = some 'B' then 0 else carry, s.text) := by
  cases hnow : s.text with
  | nil => rfl
  | cons c now =>
    have hdigit : digit c = if c = 'B' then some 11 else none := by
      revert hnow
      rcases s with ⟨_ | (_ | _), _ | (_ | _ | _ | _ | _), _ | _⟩ <;> rintro ⟨⟩ <;> rfl
    have hhead : (c :: now).head? = some 'B' ↔ c = 'B' := by
      rw [List.head?_cons, Option.some.injEq]
    rw [hnow] at hends
    rw [convert, hdigit, if_congr hhead rfl rfl]
    by_cases hc : c = 'B'
    · have hle : 11 ≥ radix := by
        rcases hsmall with heq | hle
        · exact absurd (hhead.2 hc) (hends heq)
        · exact hle
      simp only [if_pos hc, if_pos hle]
    · simp only [if_neg hc]

theorem number_suffix (s : Suffix) :
    number ('0' :: s.text) =
      (List.replicate 16 0, if s.text = ['O', 'U'] ∨ s.text = ['O', 'S'] then 8 else 0, s.text) := by
  rcases s with ⟨_ | (_ | _), _ | (_ | _ | _ | _ | _), _ | _⟩ <;> rfl

theorem digitChar_decimal {k : ℕ} (hk : k < 10) :
    radixOf (digitChar k) = none ∧ digitChar k ∉ ['-', '+', ' ', '\t'] ∧
      (digitChar k = '0' ↔ k = 0) := by
  revert k
  decide

theorem selectRadix_decimal {k : ℕ} (hk : k < 10) (now : List Char) :
    selectRadix (digitChar k :: now) = (10, 0, digitChar k :: now) := by
  cases now with
  | nil => rfl
  | cons d rest => rw [selectRadix, (digitChar_decimal hk).1]

theorem selectRadix_letter {c : Char} {k : ℕ} (hc : radixOf c = some radix) (hk : k < radix)
    (hradix : radix ≤ 16) (now : List Char) :
    selectRadix (c :: digitChar k :: now) = (radix, k, digitChar k :: now) := by
  simp only [selectRadix, hc, digit_digitChar (Nat.lt_of_lt_of_le hk hradix), Option.getD_some,
    if_neg (not_le.2 hk)]

theorem convert_accumulated (hradix : radix ≤ 16) (hds : ∀ k ∈ ds, k < radix) (hne : ds ≠ [])
    (carry : ℕ) (rest : List Char) :
    convert radix (List.replicate 16 0) carry (ds.map digitChar ++ rest) =
      convert radix (accumulated radix ds).1 (accumulated radix ds).2 rest := by
  obtain ⟨k, ds, rfl⟩ := List.exists_cons_of_ne_nil hne
  rw [convert_digits hradix hds]
  rfl

theorem number_letter {c : Char} (hc : radixOf c = some radix) (hradix : radix ≤ 16)
    (hds : ∀ k ∈ ds, k < radix) (hne : ds ≠ []) :
    number ('0' :: c :: (ds.map digitChar ++ rest)) =
      convert radix (accumulated radix ds).1 (accumulated radix ds).2 rest := by
  have hrun := fun carry => convert_accumulated hradix hds hne carry rest
  obtain ⟨k, ds, rfl⟩ := List.exists_cons_of_ne_nil hne
  have hk := (List.forall_mem_cons.1 hds).1
  have hselect := selectRadix_letter hc hk hradix (ds.map digitChar ++ rest)
  change (match selectRadix (c :: digitChar k :: (ds.map digitChar ++ rest)) with
    | (radix, carry, now) => convert radix (List.replicate 16 0) carry now) = _
  rw [hselect]
  exact hrun k

theorem number_decimal (hds : ∀ k ∈ ds, k < 10) (hne : ds ≠ []) (hzero : ds ≠ [0]) :
    number (ds.map digitChar ++ rest) =
      convert 10 (accumulated 10 ds).1 (accumulated 10 ds).2 rest := by
  -- behind a leading zero there is another digit
  obtain ⟨ds', hne', hds', hdrop, hsame⟩ : ∃ ds', ds' ≠ [] ∧ (∀ k ∈ ds', k < 10) ∧
      dropZero (ds.map digitChar ++ rest) = ds'.map digitChar ++ rest ∧
      accumulated 10 ds' = accumulated 10 ds := by
    obtain ⟨k, ds, rfl⟩ := List.exists_cons_of_ne_nil hne
    obtain ⟨hk, htail⟩ := List.forall_mem_cons.1 hds
    by_cases hk0 : k = 0
    · subst hk0
      exact ⟨ds, fun hnil => hzero (by rw [hnil]), htail, rfl, rfl⟩
    · refine ⟨k :: ds, hne, hds, ?_, rfl⟩
      rw [dropZero, if_neg]
      intro hhead
      exact hk0 ((digitChar_decimal hk).2.2.1 (Option.some.inj hhead))
  have hrun := convert_accumulated (by omega) hds' hne' 0 rest
  obtain ⟨k, ds', rfl⟩ := List.exists_cons_of_ne_nil hne'
  have hselect := selectRadix_decimal (hds' k List.mem_cons_self) (ds'.map digitChar ++ rest)
  rw [number, hdrop, ← hsame, ← hrun]
  change (match selectRadix (digitChar k :: (ds'.map digitChar ++ rest)) with
    | (radix, carry, now) => convert radix (List.replicate 16 0) carry now) = _
  rw [hselect]
  rfl

/-! ### The high order bits -/

theorem natOf_eq_zero_iff (bytes : List Byte) : natOf bytes = 0 ↔ ∀ q ∈ bytes, q = 0 := by
  induction bytes with
  | nil => exact iff_of_true rfl nofun
  | cons q bytes ih =>
    have hq : q.toNat = 0 ↔ q = 0 := ⟨fun h => BitVec.eq_of_toNat_eq h, fun h => by rw [h]; rfl⟩
    rw [List.forall_mem_cons, natOf, ← ih, ← hq]
    omega

theorem lt_bound_iff (s : Suffix) (hlen : qq.length = 16) : natOf qq < s.bound ↔
    ¬ (s.signed = true ∧ 128 ≤ (qq.getD (s.length - 1) 0).toNat) ∧
      ∀ q ∈ qq.drop s.length, q = 0 := by
  obtain ⟨i, hi, hlength⟩ : ∃ i < 16, s.length = i + 1 := by
    rw [Suffix.length]
    cases s.size.getD .l with
    | b => exact ⟨0, by omega, rfl⟩
    | w => exact ⟨1, by omega, rfl⟩
    | l => exact ⟨3, by omega, rfl⟩
    | q => exact ⟨7, by omega, rfl⟩
    | o => exact ⟨15, by omega, rfl⟩
  have hinside : i < qq.length := by omega
  have hget : qq.getD i 0 = qq[i] := by
    rw [List.getD_eq_getElem?_getD, List.getElem?_eq_getElem hinside]
    rfl
  have hlow := natOf_lt (qq.take i)
  have hsplit := natOf_append (qq.take i) (qq.drop i)
  have htake : (qq.take i).length = i := by
    rw [List.length_take]
    omega
  rw [htake] at hlow hsplit
  rw [List.take_append_drop, List.drop_eq_getElem_cons hinside, natOf] at hsplit
  rw [Suffix.bound, hlength, Nat.add_sub_cancel, ← natOf_eq_zero_iff, hget, hsplit]
  have hbyte := (qq[i]).isLt
  generalize natOf (qq.take i) = low at *
  generalize natOf (qq.drop (i + 1)) = high at *
  generalize (qq[i]).toNat = q at *
  have hless : ∀ y, low + 256 ^ i * (q + 256 * high) < y * 256 ^ i ↔ q + 256 * high < y := by
    intro y
    constructor
    · intro hlt
      by_contra hle
      have := Nat.mul_le_mul_left (256 ^ i) (not_lt.1 hle)
      linarith
    · intro hlt
      have := Nat.mul_le_mul_left (256 ^ i) (Nat.succ_le_of_lt hlt)
      rw [Nat.mul_succ] at this
      linarith
  by_cases hsigned : s.signed = true
  · rw [if_pos hsigned, hless, and_iff_right hsigned]
    omega
  · have hpow : 256 ^ (i + 1) = 256 * 256 ^ i := by rw [Nat.pow_succ, Nat.mul_comm]
    rw [if_neg hsigned, hpow, hless]
    simp only [hsigned, Bool.false_eq_true, false_and, not_false_eq_true, true_and]
    omega

theorem check_eq (s : Suffix) (hlen : qq.length = 16) (carry : ℕ) :
    check false qq carry s.text =
      if carry = 0 ∧ natOf qq < s.bound then
        .ok ⟨(s.size.getD .l).dtype s.signed, qq.take s.length⟩
      else .error .tooBig := by
  have hbound := lt_bound_iff s hlen
  obtain ⟨top, htop, hiff⟩ : ∃ top, (s.signed && decide (128 ≤ (qq.getD (s.length - 1) 0).toNat)) =
      top ∧ (top = true ↔ s.signed = true ∧ 128 ≤ (qq.getD (s.length - 1) 0).toNat) :=
    ⟨_, rfl, by rw [Bool.and_eq_true, decide_eq_true_eq]⟩
  rw [← hiff] at hbound
  rw [check, suffix_text]
  change (if carry ≠ 0 ∨ s.signed = true ∧
      (s.signed && decide (128 ≤ (qq.getD (s.length - 1) 0).toNat)) ≠ false then _ else
    if (qq.drop s.length).any fun q => decide (q ≠
      if (s.signed && decide (128 ≤ (qq.getD (s.length - 1) 0).toNat)) = true then 255 else 0)
    then _ else Except.ok (Scalar.mk ((s.size.getD .l).dtype s.signed) (qq.take s.length))) = _
  rw [htop]
  by_cases hsign : top = true
  · have hsigned := (hiff.1 hsign).1
    rw [if_pos (Or.inr ⟨hsigned, fun hfalse => (nomatch hsign.symm.trans hfalse)⟩),
      if_neg fun h => (hbound.1 h.2).1 hsign]
  · obtain rfl := Bool.eq_false_of_not_eq_true hsign
    by_cases hcarry : carry = 0
    · rw [if_neg fun h => h.elim (fun hne => hne hcarry) fun hne => hne.2 rfl]
      have hany : ((qq.drop s.length).any fun q => decide (q ≠ if false = true then 255 else 0)) =
          true ↔ ¬ ∀ q ∈ qq.drop s.length, q = 0 := by
        simp
      by_cases hhigh : ∀ q ∈ qq.drop s.length, q = 0
      · rw [if_neg fun h => hany.1 h hhigh, if_pos ⟨hcarry, hbound.2 ⟨hsign, hhigh⟩⟩]
      · rw [if_pos (hany.2 hhigh), if_neg fun h => hhigh (hbound.1 h.2).2]
    · rw [if_pos (Or.inl hcarry), if_neg fun h => hcarry h.1]

theorem bound_spec (s : Suffix) : s.length ≤ 16 ∧ 0 < s.bound ∧ s.bound ≤ 256 ^ 16 ∧
    (s.signed = true → 2 * s.bound = 256 ^ s.length) := by
  rw [Suffix.bound, Suffix.length]
  cases s.signed with
  | false =>
    cases s.size.getD .l with
    | _ => exact ⟨by decide, by decide, by decide, nofun⟩
  | true =>
    cases s.size.getD .l with
    | _ => exact ⟨by decide, by decide, by decide, fun _ => by decide⟩

theorem intOf_take (s : Suffix) (hlen : qq.length = 16) (hlt : natOf qq < s.bound) :
    (qq.take s.length).length = s.length ∧ intOf s.signed (qq.take s.length) = natOf qq := by
  obtain ⟨hle, -, -, hsigned⟩ := bound_spec s
  have htake : (qq.take s.length).length = s.length := by
    rw [List.length_take]
    omega
  have hhigh := (natOf_eq_zero_iff _).2 ((lt_bound_iff s hlen).1 hlt).2
  have hsplit := natOf_append (qq.take s.length) (qq.drop s.length)
  rw [List.take_append_drop, hhigh, Nat.mul_zero, Nat.add_zero] at hsplit
  refine ⟨htake, ?_⟩
  rw [intOf, htake, ← hsplit, if_neg]
  rintro ⟨hsign, hlarge⟩
  have := hsigned hsign
  omega

section Numeral

variable (n : Numeral)

theorem base_le : n.radix.base ≤ 16 ∧ (n.radix.base = 16 ∨ n.radix.base ≤ 11) ∧
    (n.radix.base = 16 → n.suffix.text.head? ≠ some 'B') := by
  have hends := n.ends
  cases hradix : n.radix with
  | hexadecimal => exact ⟨le_rfl, Or.inl rfl, fun _ => hends hradix⟩
  | _ => exact ⟨by decide, Or.inr (by decide), nofun⟩

theorem number_text (h : ¬ ZeroOctaword n) : number n.text =
    ((accumulated n.radix.base n.digits).1,
      if n.suffix.text.head? = some 'B' then 0 else (accumulated n.radix.base n.digits).2,
      n.suffix.text) := by
  obtain ⟨hle, hsmall, hends⟩ := base_le n
  have hsuffix := convert_suffix n.suffix hends hsmall
  have hlt := n.digit_lt
  have hne := n.digits_ne
  rw [Numeral.text]
  cases hradix : n.radix with
  | binary =>
    rw [hradix] at hlt hsuffix
    exact (number_letter rfl (by decide) hlt hne).trans (hsuffix _ _)
  | octal =>
    rw [hradix] at hlt hsuffix
    exact (number_letter rfl (by decide) hlt hne).trans (hsuffix _ _)
  | hexadecimal =>
    rw [hradix] at hlt hsuffix
    exact (number_letter rfl (by decide) hlt hne).trans (hsuffix _ _)
  | decimal =>
    rw [hradix] at hlt hsuffix
    by_cases hzero : n.digits = [0]
    · rw [hzero]
      refine (number_suffix n.suffix).trans ?_
      have hnot : ¬ (n.suffix.text = ['O', 'U'] ∨ n.suffix.text = ['O', 'S']) := fun hor =>
        h ⟨hradix, hzero, hor⟩
      rw [if_neg hnot]
      split <;> rfl
    · exact (number_decimal hlt hne hzero).trans (hsuffix _ _)

theorem lexInt_eq {text : List Char} (h : text.map Char.toUpper = n.text) :
    lexInt text = check false (number n.text).1 (number n.text).2.1 (number n.text).2.2 := by
  obtain ⟨k, hk, now, hnow⟩ : ∃ k < 10, ∃ now, n.text = digitChar k :: now := by
    rw [Numeral.text]
    cases hradix : n.radix with
    | decimal =>
      obtain ⟨k, ds, hdigits⟩ := List.exists_cons_of_ne_nil n.digits_ne
      have hlt := n.digit_lt k (by rw [hdigits]; exact List.mem_cons_self)
      rw [hradix] at hlt
      rw [hdigits]
      exact ⟨k, hlt, _, rfl⟩
    | _ => exact ⟨0, by omega, _, rfl⟩
  have hplain := (digitChar_decimal hk).2.1
  simp only [List.mem_cons, List.not_mem_nil, or_false, not_or] at hplain
  obtain ⟨hminus, hplus, hspace, htab⟩ := hplain
  have hskip : text.dropWhile isBlank = text := by
    cases text with
    | nil => rfl
    | cons c rest =>
      have hc : c.toUpper = digitChar k := (List.cons.inj (h.trans hnow)).1
      apply List.dropWhile_cons_of_neg
      intro hblank
      rw [isBlank, Bool.or_eq_true, decide_eq_true_eq, decide_eq_true_eq] at hblank
      rcases hblank with rfl | rfl
      · exact hspace hc.symm
      · exact htab hc.symm
  have hhead : n.text.head? = some (digitChar k) := by
    rw [hnow]
    rfl
  have hminus' : n.text.head? ≠ some '-' := fun heq => hminus (Option.some.inj (hhead.symm.trans heq))
  have hplus' : n.text.head? ≠ some '+' := fun heq => hplus (Option.some.inj (hhead.symm.trans heq))
  simp only [lexInt, hskip, h, hminus', hplus', decide_false, or_self, if_false]

theorem horner_zero (h : ZeroOctaword n) : n.value = 0 := by
  rw [Numeral.value, h.2.1, h.1]
  rfl

/-- What is carried out is lost. -/
def dropped : ℕ :=
  if n.suffix.text.head? = some 'B' then 0
  else (n.value / n.radix.base % 256 ^ 16 * n.radix.base + n.value % n.radix.base) / 256 ^ 16

theorem lexInt_text {text : List Char} (h : text.map Char.toUpper = n.text) :
    lexInt text = if ¬ ZeroOctaword n ∧ dropped n = 0 ∧ n.value % 256 ^ 16 < n.suffix.bound then
      .ok ⟨(n.suffix.size.getD .l).dtype n.suffix.signed,
        (accumulated n.radix.base n.digits).1.take n.suffix.length⟩
    else .error .tooBig := by
  rw [lexInt_eq n h]
  by_cases hzero : ZeroOctaword n
  · have hnumber : number n.text = (List.replicate 16 0, 8, n.suffix.text) := by
      obtain ⟨hradix, hdigits, hor⟩ := hzero
      rw [Numeral.text, hradix, hdigits]
      refine (number_suffix n.suffix).trans ?_
      rw [if_pos hor]
    have hnot : ¬ ((8 : ℕ) = 0 ∧ natOf (List.replicate 16 0) < n.suffix.bound) := by omega
    rw [hnumber, check_eq n.suffix rfl, if_neg hnot, if_neg fun h => h.1 hzero]
  · obtain ⟨hlength, hvalue, hcarry⟩ := accumulated_spec n.digit_lt
    have hdropped : (if n.suffix.text.head? = some 'B' then 0
        else (accumulated n.radix.base n.digits).2) = dropped n := by
      rw [hcarry]
      rfl
    rw [number_text n hzero, check_eq n.suffix hlength, hvalue, hdropped]
    exact (if_congr (and_iff_right hzero) rfl rfl).symm

theorem dropped_eq_zero_iff : dropped n = 0 ↔ n.suffix.text.head? = some 'B' ∨
    n.value / n.radix.base % 256 ^ 16 * n.radix.base + n.value % n.radix.base < 256 ^ 16 := by
  rw [dropped]
  split
  · rename_i hb
    exact iff_of_true rfl (Or.inl hb)
  · rename_i hb
    rw [Nat.div_eq_zero_iff_lt (by positivity), or_iff_right hb]

theorem dropped_small (h : n.value < 256 ^ 16) : dropped n = 0 := by
  have hdiv := Nat.div_le_self n.value n.radix.base
  have hsum := Nat.div_add_mod' n.value n.radix.base
  rw [dropped_eq_zero_iff, Nat.mod_eq_of_lt (hdiv.trans_lt h), hsum]
  exact Or.inr h

/-- An integer is read as it should be unless it is lost. -/
theorem numeral_reads_iff {text : List Char} (h : text.map Char.toUpper = n.text) :
    Reads n text ↔ ¬ Lost n := by
  obtain ⟨-, hpos, hle, -⟩ := bound_spec n.suffix
  obtain ⟨hlength, hvalue, -⟩ := accumulated_spec n.digit_lt
  have hrun := lexInt_text n h
  rw [Reads, Lost, ← dropped_eq_zero_iff]
  by_cases hfits : n.value < n.suffix.bound
  · have hsmall : n.value < 256 ^ 16 := by omega
    have hmod := Nat.mod_eq_of_lt hsmall
    have hnot : ¬ (256 ^ 16 ≤ n.value ∧ n.value % 256 ^ 16 < n.suffix.bound ∧ dropped n = 0) :=
      fun hboth => absurd hboth.1 (by omega)
    rw [if_pos hfits, or_iff_left hnot, hrun]
    by_cases hzero : ZeroOctaword n
    · rw [if_neg fun hboth => hboth.1 hzero]
      exact iff_of_false (fun ⟨r, hr, _⟩ => nomatch hr) (not_not_intro hzero)
    · have hbytes : natOf (accumulated n.radix.base n.digits).1 = n.value := hvalue.trans hmod
      obtain ⟨htake, hint⟩ := intOf_take n.suffix hlength (by rw [hbytes]; exact hfits)
      rw [if_pos ⟨hzero, dropped_small n hsmall, by rw [hmod]; exact hfits⟩]
      refine iff_of_true ⟨_, rfl, rfl, htake, ?_⟩ hzero
      rw [hint, hbytes]
  · have hzero : ¬ ZeroOctaword n := by
      intro hzero
      rw [horner_zero n hzero] at hfits
      exact hfits hpos
    rw [if_neg hfits, or_iff_right hzero, hrun]
    by_cases haccepted : dropped n = 0 ∧ n.value % 256 ^ 16 < n.suffix.bound
    · have hlarge : 256 ^ 16 ≤ n.value := by
        by_contra hlt
        rw [Nat.mod_eq_of_lt (not_le.1 hlt)] at haccepted
        exact hfits haccepted.2
      rw [if_pos ⟨hzero, haccepted⟩]
      exact iff_of_false (fun ⟨e, he⟩ => nomatch he)
        (not_not_intro ⟨hlarge, haccepted.2, haccepted.1⟩)
    · rw [if_neg fun hboth => haccepted hboth.2]
      exact iff_of_true ⟨_, rfl⟩ fun hlost => haccepted ⟨hlost.2.2, hlost.2.1⟩

end Numeral

/-- The unsigned quadword 0x1fqu. -/
def hexQuadword : Numeral where
  radix := .hexadecimal
  digits := [1, 15]
  suffix := ⟨some false, some .q, false⟩
  digits_ne := by decide
  digit_lt := by decide
  ends := fun _ => by decide

theorem reads_hexQuadword : Reads hexQuadword ['0', 'x', '1', 'f', 'q', 'u'] := by
  apply (numeral_reads_iff hexQuadword (by decide)).2
  rintro (⟨hradix, -⟩ | ⟨hlarge, -⟩)
  · cases hradix
  · revert hlarge
    decide

def hexLarge : Numeral where
  radix := .hexadecimal
  digits := 1 :: List.replicate 33 0
  suffix := ⟨none, none, false⟩
  digits_ne := by decide
  digit_lt := by decide
  ends := fun _ => by decide

theorem reads_fails :
    ¬ ∀ (n : Numeral) (text : List Char), text.map Char.toUpper = n.text → Reads n text := by
  intro hall
  have htext : hexLarge.text.map Char.toUpper = hexLarge.text := by decide
  have hreads := hall hexLarge hexLarge.text htext
  rw [Reads, if_neg (by decide), lexInt_text hexLarge htext, if_pos (by decide)] at hreads
  obtain ⟨e, he⟩ := hreads
  cases he

end MdsPlus.IntegerTokens
