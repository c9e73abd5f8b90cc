import MdsPlus.Cmprs

/-!
What MdsXpand reads when the packed bytes are not those MdsCmprs made. Every access to the table
of masks, to the packed bits and to the unpacked exceptions is checked; numbers of type int wrap.
A run is sound when its header promises no more than the buffer holds.
-/

namespace MdsPlus.XpandReads

open BitMemory Pack Cmprs

/-- An access that goes wrong: the copy of the packed bytes has no room, a width has no mask, bits
lie outside of the buffer, or no exception is left. -/
inductive Breach
  | copy
  | masks
  | packed
  | exceptions
deriving DecidableEq

def int (v : ℤ) : ℤ := (BitVec.ofInt 32 v).toInt

def InBuffer (arsize : Word) (start : ℤ) (bits : ℕ) : Prop :=
  bits = 0 ∨ 0 ≤ start ∧ start + bits ≤ 8 * arsize.toNat

instance (arsize : Word) (start : ℤ) (bits : ℕ) : Decidable (InBuffer arsize start bits) :=
  inferInstanceAs (Decidable (bits = 0 ∨ 0 ≤ start ∧ start + bits ≤ 8 * arsize.toNat))

def unpk (pack : Memory) (arsize : Word) (nbits : ℤ) (nitems : ℕ) (bit : ℤ) :
    Except Breach (List Word × ℤ) :=
  if 32 < nbits.natAbs then .error .masks
  else if InBuffer arsize bit (nbits.natAbs * nitems) then
    .ok ((mdsUnpk nbits nitems (padded pack arsize.toNat) bit.toNat).1,
      int (bit + (nbits.natAbs * nitems : ℕ)))
  else .error .packed

/-- The mark of a width. For a width of zero it is shifted by -1, which leaves the mark to the
machine. -/
def markFor (shifted : Word) (yn : ℕ) : Word := if yn = 0 then shifted else markOf yn

def sum (useExce : Bool) (mark : Word) (diff exce : List Word) (bit : ℤ) :
    Except Breach (List Word × ℤ) :=
  match restore useExce mark 0 diff exce with
  | .ok items => .ok (items, bit)
  | .error _ => .error .exceptions

/-- The first `j` items of a run whose fields start at `bit`. -/
def expandRun (shifted : Word) (pack : Memory) (arsize : Word) (h : Header) (j : ℕ) (bit : ℤ) :
    Except Breach (List Word × ℤ) := do
  let (diff, bit) ← unpk pack arsize (-h.yn) j bit
  if h.xe = 0 then sum false 0 diff diff bit
  else
    let (exce, bit) ←
      unpk pack arsize (-h.ye) h.xe (int (bit + (h.yn * (h.xlast + 1 - j) : ℕ)))
    sum true (markFor shifted h.yn) diff exce bit

/-- Success or LibINVSTRDES, the bytes stored and the bit pointer. -/
structure Expanded where
  success : Bool
  bytes : List Byte
  bit : ℤ

def header (pack : Memory) (arsize : Word) (bit : ℤ) : Header :=
  readHeader (padded pack arsize.toNat) bit.toNat

def wanted (pack : Memory) (arsize : Word) (nitems : ℕ) (bit : ℤ) : ℕ :=
  min ((header pack arsize bit).xlast + 1) nitems

theorem wanted_pos (pack : Memory) (arsize : Word) {nitems : ℕ} (hpos : nitems ≠ 0) (bit : ℤ) :
    0 < wanted pack arsize nitems bit := by
  unfold wanted
  omega

def expandLoop (br : Branch) (shifted : Word) (pack : Memory) (arsize : Word) (limit : ℤ)
    (nitems : ℕ) (bit : ℤ) : Except Breach Expanded :=
  if nitems = 0 then .ok ⟨true, [], bit⟩
  else if limit < int (bit + 32) then .ok ⟨false, [], bit⟩
  else do
    let (_, start) ← unpk pack arsize 16 2 bit
    let h := header pack arsize bit
    let j := wanted pack arsize nitems bit
    if limit < int (start + (h.ye * h.xe + h.yn * j : ℕ)) then .ok ⟨false, [], start⟩
    else
      let (items, next) ← expandRun shifted pack arsize h j start
      let rest ← expandLoop br shifted pack arsize limit (nitems - j) next
      .ok ⟨rest.success, items.flatMap br.store ++ rest.bytes, rest.bit⟩
termination_by nitems
decreasing_by exact Nat.sub_lt (by omega) (wanted_pos pack arsize (by assumption) bit)

/-- `arsize + 4` is counted in 32 bits. -/
def mdsXpand (shifted : Word) (nitems : ℤ) (pack : Memory) (arsize : Word) (dtype length : ℕ)
    (bit : ℤ) : Except Breach Expanded :=
  let step := stepOf dtype length
  if 2 ^ 32 ≤ arsize.toNat + 4 then .error .copy
  else
    expandLoop (branchOf dtype step) shifted pack arsize (int (arsize.toInt * 8))
      (int (nitems * (length / step : ℕ))).toNat bit

/-! ### Runs that are sound -/

section Runs

variable (shifted : Word) (pack : Memory) (arsize : Word) (limit : ℤ)

def fieldsAt (bit : ℤ) : ℤ := int (bit + 32)

def wantedFields (nitems : ℕ) (bit : ℤ) : List Word :=
  (mdsUnpk (-(header pack arsize bit).yn) (wanted pack arsize nitems bit)
    (padded pack arsize.toNat) (fieldsAt bit).toNat).1

def exceptionsAt (nitems : ℕ) (bit : ℤ) : ℤ :=
  let h := header pack arsize bit
  let j := wanted pack arsize nitems bit
  int (int (fieldsAt bit + (h.yn * j : ℕ)) + (h.yn * (h.xlast + 1 - j) : ℕ))

def nextRun (nitems : ℕ) (bit : ℤ) : ℤ :=
  let h := header pack arsize bit
  if h.xe = 0 then int (fieldsAt bit + (h.yn * wanted pack arsize nitems bit : ℕ))
  else int (exceptionsAt pack arsize nitems bit + (h.ye * h.xe : ℕ))

def Opened (nitems : ℕ) (bit : ℤ) : Prop := nitems ≠ 0 ∧ int (bit + 32) ≤ limit

/-- The run passes the check of its size. -/
def Taken (nitems : ℕ) (bit : ℤ) : Prop :=
  let h := header pack arsize bit
  Opened limit nitems bit ∧
    int (fieldsAt bit + (h.ye * h.xe + h.yn * wanted pack arsize nitems bit : ℕ)) ≤ limit

/-- The exceptions of a run lie in the buffer and are as many as the marks ask for. -/
structure SoundExceptions (nitems : ℕ) (bit : ℤ) : Prop where
  width : (header pack arsize bit).ye ≤ 32
  packed : InBuffer arsize (exceptionsAt pack arsize nitems bit)
    ((header pack arsize bit).ye * (header pack arsize bit).xe)
  marks : (wantedFields pack arsize nitems bit).count
    (markFor shifted (header pack arsize bit).yn) ≤ (header pack arsize bit).xe

structure SoundFields (nitems : ℕ) (bit : ℤ) : Prop where
  width : (header pack arsize bit).yn ≤ 32
  packed : InBuffer arsize (fieldsAt bit)
    ((header pack arsize bit).yn * wanted pack arsize nitems bit)
  exceptions : (header pack arsize bit).xe ≠ 0 → SoundExceptions shifted pack arsize nitems bit

structure SoundRun (nitems : ℕ) (bit : ℤ) : Prop where
  header : InBuffer arsize bit 32
  fields : Taken pack arsize limit nitems bit → SoundFields shifted pack arsize nitems bit

/-- The runs that decoding gets to, by the items left and the bit pointer. -/
inductive Reached : ℕ × ℤ → ℕ × ℤ → Prop
  | self (s : ℕ × ℤ) : Reached s s
  | next {nitems : ℕ} {bit : ℤ} {s : ℕ × ℤ} (htaken : Taken pack arsize limit nitems bit)
      (h : Reached (nitems - wanted pack arsize nitems bit, nextRun pack arsize nitems bit) s) :
      Reached (nitems, bit) s

def Sound (nitems : ℕ) (bit : ℤ) : Prop :=
  ∀ s, Reached pack arsize limit (nitems, bit) s → Opened limit s.1 s.2 →
    SoundRun shifted pack arsize limit s.1 s.2

end Runs

/-! ### Unpacking and summing -/

theorem unpkFields_length (size : ℕ) (finish : Word → Word) (pack : Memory) (n ppack off : ℕ) :
    (unpkFields size finish pack n ppack off).length = n := by
  induction n generalizing ppack off with
  | zero => rfl
  | succ n ih =>
    unfold unpkFields
    split
    · rw [List.length_cons, ih]
    · rw [List.length_cons, ih]

theorem unpkAligned_length (pack : Memory) (n a : ℕ) : (unpkAligned pack n a).length = n := by
  induction n generalizing a with
  | zero => rfl
  | succ n ih => rw [unpkAligned, List.length_cons, ih]

theorem unpkWords_length (pack : Memory) (off n ppack : ℕ) :
    (unpkWords pack off n ppack).length = n := by
  induction n generalizing ppack with
  | zero => rfl
  | succ n ih => rw [unpkWords, List.length_cons, ih]

theorem mdsUnpk_length (nbits : ℤ) (nitems : ℕ) (pack : Memory) (bit : ℕ) :
    (mdsUnpk nbits nitems pack bit).1.length = nitems := by
  unfold mdsUnpk
  simp only
  split_ifs
  · exact unpkAligned_length ..
  · exact unpkWords_length ..
  · exact unpkFields_length ..
  · exact unpkFields_length ..
  · exact List.length_replicate

theorem restore_field {useExce : Bool} {mark d : Word} (hd : ¬ (useExce ∧ d = mark)) (old : Word)
    (diff exce : List Word) :
    restore useExce mark old (d :: diff) exce =
      (restore useExce mark (old + d) diff exce).map fun items => (old + d) :: items := by
  conv_lhs => unfold restore
  rw [if_neg hd]
  cases restore useExce mark (old + d) diff exce with
  | error e => rfl
  | ok items => rfl

theorem restore_mark (mark e old : Word) (diff exce : List Word) :
    restore true mark old (mark :: diff) (e :: exce) =
      (restore true mark (old + e) diff exce).map fun items => (old + e) :: items := by
  conv_lhs => unfold restore
  rw [if_pos ⟨rfl, rfl⟩]
  dsimp only
  cases restore true mark (old + e) diff exce with
  | error e => rfl
  | ok items => rfl

theorem map_ok_iff {ε α β : Type} (f : α → β) (x : Except ε α) :
    (∃ b, x.map f = .ok b) ↔ ∃ a, x = .ok a := by
  cases x with
  | error e => simp [Except.map]
  | ok a => simp [Except.map]

theorem restore_false (mark old : Word) (diff exce : List Word) :
    ∃ items, restore false mark old diff exce = .ok items := by
  induction diff generalizing old with
  | nil => exact ⟨[], rfl⟩
  | cons d diff ih =>
    rw [restore_field fun h => Bool.false_ne_true h.1, map_ok_iff]
    exact ih (old + d)

theorem restore_true_iff (mark old : Word) (diff exce : List Word) :
    (∃ items, restore true mark old diff exce = .ok items) ↔ diff.count mark ≤ exce.length := by
  induction diff generalizing old exce with
  | nil => exact iff_of_true ⟨[], by unfold restore; rfl⟩ (Nat.zero_le _)
  | cons d diff ih =>
    by_cases hd : d = mark
    · subst hd
      rw [List.count_cons_self]
      cases exce with
      | nil =>
        refine iff_of_false ?_ (Nat.not_succ_le_zero _)
        rintro ⟨items, hitems⟩
        unfold restore at hitems
        rw [if_pos ⟨rfl, rfl⟩] at hitems
        cases hitems
      | cons e exce => rw [restore_mark, map_ok_iff, ih, List.length_cons, Nat.add_le_add_iff_right]
    · rw [restore_field fun h => hd h.2, map_ok_iff, ih, List.count_cons_of_ne hd]

theorem sum_ok_iff (useExce : Bool) (mark : Word) (diff exce : List Word) (bit : ℤ)
    (r : List Word × ℤ) :
    sum useExce mark diff exce bit = .ok r ↔
      restore useExce mark 0 diff exce = .ok r.1 ∧ r.2 = bit := by
  unfold sum
  cases restore useExce mark 0 diff exce with
  | error e => simp
  | ok items => simp [Prod.ext_iff, eq_comm]

theorem unpk_ok_iff (pack : Memory) (arsize : Word) (nbits : ℤ) (nitems : ℕ) (bit : ℤ)
    (r : List Word × ℤ) :
    unpk pack arsize nbits nitems bit = .ok r ↔
      nbits.natAbs ≤ 32 ∧ InBuffer arsize bit (nbits.natAbs * nitems) ∧
        r = ((mdsUnpk nbits nitems (padded pack arsize.toNat) bit.toNat).1,
          int (bit + (nbits.natAbs * nitems : ℕ))) := by
  unfold unpk
  split_ifs with hwidth hin
  · simp only [false_iff]
    exact fun h => absurd h.1 (Nat.not_le_of_lt hwidth)
  · simp only [Except.ok.injEq]
    exact ⟨fun h => ⟨Nat.le_of_not_lt hwidth, hin, h.symm⟩, fun h => h.2.2.symm⟩
  · simp only [false_iff]
    exact fun h => hin h.2.1

/-! ### One run -/

theorem ok_bind_iff {ε α β : Type} (x : Except ε α) (f : α → Except ε β) (b : β) :
    x >>= f = .ok b ↔ ∃ a, x = .ok a ∧ f a = .ok b := by
  cases x with
  | error e =>
    constructor
    · rintro ⟨⟩
    · rintro ⟨a, ⟨⟩, -⟩
  | ok a =>
    constructor
    · exact fun h => ⟨a, rfl, h⟩
    · rintro ⟨a', ha, hf⟩
      cases ha
      exact hf

section Runs

variable (shifted : Word) (pack : Memory) (arsize : Word) (limit : ℤ)

theorem expandRun_ok_iff (nitems : ℕ) (bit : ℤ) (next : ℤ) :
    (∃ items, expandRun shifted pack arsize (header pack arsize bit)
        (wanted pack arsize nitems bit) (fieldsAt bit) = .ok (items, next)) ↔
      SoundFields shifted pack arsize nitems bit ∧ next = nextRun pack arsize nitems bit := by
  have hyn : (-((header pack arsize bit).yn : ℤ)).natAbs = (header pack arsize bit).yn := by
    rw [Int.natAbs_neg, Int.natAbs_natCast]
  have hye : (-((header pack arsize bit).ye : ℤ)).natAbs = (header pack arsize bit).ye := by
    rw [Int.natAbs_neg, Int.natAbs_natCast]
  unfold expandRun
  simp only [ok_bind_iff, unpk_ok_iff, hyn]
  by_cases hxe : (header pack arsize bit).xe = 0
  · have hnext : nextRun pack arsize nitems bit = int (fieldsAt bit +
        ((header pack arsize bit).yn * wanted pack arsize nitems bit : ℕ)) := if_pos hxe
    rw [hnext]
    constructor
    · rintro ⟨items, r, ⟨hwidth, hin, rfl⟩, hsum⟩
      rw [if_pos hxe, sum_ok_iff] at hsum
      exact ⟨⟨hwidth, hin, fun h => absurd hxe h⟩, hsum.2⟩
    · rintro ⟨hsound, rfl⟩
      obtain ⟨items, hitems⟩ := restore_false 0 0 (wantedFields pack arsize nitems bit)
        (wantedFields pack arsize nitems bit)
      refine ⟨items, _, ⟨hsound.width, hsound.packed, rfl⟩, ?_⟩
      rw [if_pos hxe, sum_ok_iff]
      exact ⟨hitems, rfl⟩
  · have hnext : nextRun pack arsize nitems bit = int (exceptionsAt pack arsize nitems bit +
        ((header pack arsize bit).ye * (header pack arsize bit).xe : ℕ)) := if_neg hxe
    rw [hnext]
    constructor
    · rintro ⟨items, r, ⟨hwidth, hin, rfl⟩, hexce⟩
      rw [if_neg hxe] at hexce
      simp only [ok_bind_iff, unpk_ok_iff, hye] at hexce
      obtain ⟨r, ⟨hwidth', hin', rfl⟩, hsum⟩ := hexce
      rw [sum_ok_iff] at hsum
      have hmarks := (restore_true_iff ..).mp ⟨_, hsum.1⟩
      rw [mdsUnpk_length] at hmarks
      exact ⟨⟨hwidth, hin, fun _ => ⟨hwidth', hin', hmarks⟩⟩, hsum.2⟩
    · rintro ⟨hsound, rfl⟩
      obtain ⟨hwidth', hin', hmarks⟩ := hsound.exceptions hxe
      rw [← mdsUnpk_length (-(header pack arsize bit).ye) (header pack arsize bit).xe
        (padded pack arsize.toNat) (exceptionsAt pack arsize nitems bit).toNat] at hmarks
      obtain ⟨items, hitems⟩ := (restore_true_iff _ 0 _ _).mpr hmarks
      refine ⟨items, _, ⟨hsound.width, hsound.packed, rfl⟩, ?_⟩
      rw [if_neg hxe]
      simp only [ok_bind_iff, unpk_ok_iff, hye]
      refine ⟨_, ⟨hwidth', hin', rfl⟩, ?_⟩
      rw [sum_ok_iff]
      exact ⟨hitems, rfl⟩

/-! ### Every run -/

theorem sound_iff (nitems : ℕ) (bit : ℤ) :
    Sound shifted pack arsize limit nitems bit ↔
      (Opened limit nitems bit → SoundRun shifted pack arsize limit nitems bit) ∧
        (Taken pack arsize limit nitems bit →
          Sound shifted pack arsize limit (nitems - wanted pack arsize nitems bit)
            (nextRun pack arsize nitems bit)) := by
  constructor
  · intro hsound
    exact ⟨hsound _ (.self _), fun htaken s hs => hsound s (.next htaken hs)⟩
  · rintro ⟨hself, hrest⟩ s hs
    cases hs with
    | self => exact hself
    | next htaken h => exact hrest htaken s h

theorem unpk_header_iff (bit start : ℤ) :
    (∃ words, unpk pack arsize 16 2 bit = .ok (words, start)) ↔
      InBuffer arsize bit 32 ∧ start = fieldsAt bit := by
  simp only [unpk_ok_iff]
  constructor
  · rintro ⟨words, -, hin, heq⟩
    exact ⟨hin, (Prod.ext_iff.mp heq).2⟩
  · rintro ⟨hin, rfl⟩
    exact ⟨_, by decide, hin, rfl⟩

theorem turn_ok_iff (br : Branch) {nitems : ℕ} {bit : ℤ} (hopened : Opened limit nitems bit) :
    (∃ r, expandLoop br shifted pack arsize limit nitems bit = .ok r) ↔
      SoundRun shifted pack arsize limit nitems bit ∧
        (Taken pack arsize limit nitems bit →
          ∃ r, expandLoop br shifted pack arsize limit
            (nitems - wanted pack arsize nitems bit) (nextRun pack arsize nitems bit) = .ok r) := by
  conv_lhs => unfold expandLoop
  rw [if_neg hopened.1, if_neg (Int.not_lt.mpr hopened.2)]
  simp only [ok_bind_iff]
  by_cases htaken : Taken pack arsize limit nitems bit
  · have hcheck := Int.not_lt.mpr htaken.2
    constructor
    · rintro ⟨r, ⟨words, start⟩, hheader, hrun⟩
      obtain ⟨hin, rfl⟩ := (unpk_header_iff ..).mp ⟨words, hheader⟩
      dsimp only at hrun
      rw [if_neg hcheck, ok_bind_iff] at hrun
      obtain ⟨⟨items, next⟩, hitems, hrest⟩ := hrun
      obtain ⟨hfields, rfl⟩ := (expandRun_ok_iff ..).mp ⟨items, hitems⟩
      rw [ok_bind_iff] at hrest
      obtain ⟨rest, hrest, -⟩ := hrest
      exact ⟨⟨hin, fun _ => hfields⟩, fun _ => ⟨rest, hrest⟩⟩
    · rintro ⟨hsound, hrest⟩
      obtain ⟨words, hheader⟩ := (unpk_header_iff pack arsize bit _).mpr ⟨hsound.header, rfl⟩
      obtain ⟨items, hitems⟩ := (expandRun_ok_iff shifted pack arsize nitems bit _).mpr
        ⟨hsound.fields htaken, rfl⟩
      obtain ⟨rest, hrest⟩ := hrest htaken
      refine ⟨⟨rest.success, items.flatMap br.store ++ rest.bytes, rest.bit⟩, _, hheader, ?_⟩
      dsimp only
      rw [if_neg hcheck, ok_bind_iff]
      refine ⟨_, hitems, ?_⟩
      rw [ok_bind_iff]
      exact ⟨rest, hrest, rfl⟩
  · have hcheck : limit < int (fieldsAt bit + ((header pack arsize bit).ye *
        (header pack arsize bit).xe + (header pack arsize bit).yn * wanted pack arsize nitems bit
          : ℕ)) := Int.not_le.mp fun h => htaken ⟨hopened, h⟩
    constructor
    · rintro ⟨r, ⟨words, start⟩, hheader, hrun⟩
      obtain ⟨hin, rfl⟩ := (unpk_header_iff ..).mp ⟨words, hheader⟩
      exact ⟨⟨hin, fun h => absurd h htaken⟩, fun h => absurd h htaken⟩
    · rintro ⟨hsound, -⟩
      obtain ⟨words, hheader⟩ := (unpk_header_iff pack arsize bit _).mpr ⟨hsound.header, rfl⟩
      exact ⟨⟨false, [], fieldsAt bit⟩, _, hheader, if_pos hcheck⟩

theorem expandLoop_ok_iff (br : Branch) (nitems : ℕ) (bit : ℤ) :
    (∃ r, expandLoop br shifted pack arsize limit nitems bit = .ok r) ↔
      Sound shifted pack arsize limit nitems bit := by
  induction nitems using Nat.strongRecOn generalizing bit with
  | _ nitems ih =>
    rw [sound_iff]
    by_cases hopened : Opened limit nitems bit
    · rw [turn_ok_iff shifted pack arsize limit br hopened]
      refine and_congr (imp_iff_right hopened).symm (imp_congr_right fun _ => ?_)
      have hpos := wanted_pos pack arsize hopened.1 bit
      exact ih _ (Nat.sub_lt (Nat.pos_of_ne_zero hopened.1) hpos) _
    · refine iff_of_true ?_ ⟨fun h => absurd h hopened, fun h => absurd h.1 hopened⟩
      unfold expandLoop
      by_cases hnone : nitems = 0
      · exact ⟨_, if_pos hnone⟩
      · rw [if_neg hnone]
        exact ⟨_, if_pos (Int.not_le.mp fun h => hopened ⟨hnone, h⟩)⟩

end Runs

/-- Expanding ends, with success or an error, and without an access that goes wrong, just if there
is room for the copy and every run it opens is sound. -/
theorem mdsXpand_ok_iff (shifted : Word) (nitems : ℤ) (pack : Memory) (arsize : Word)
    (dtype length : ℕ) (bit : ℤ) :
    (∃ r, mdsXpand shifted nitems pack arsize dtype length bit = .ok r) ↔
      arsize.toNat + 4 < 2 ^ 32 ∧
        Sound shifted pack arsize (int (arsize.toInt * 8))
          (int (nitems * (length / stepOf dtype length : ℕ))).toNat bit := by
  unfold mdsXpand
  by_cases hroom : arsize.toNat + 4 < 2 ^ 32
  · rw [if_neg (Nat.not_le.mpr hroom), expandLoop_ok_iff]
    exact (and_iff_right hroom).symm
  · rw [if_pos (Nat.not_lt.mp hroom)]
    exact iff_of_false (fun ⟨r, h⟩ => by cases h) fun h => hroom h.1

/-- Three buffers with what goes wrong: fields of 33 bits; two marks and one exception; and one item
wanted of 1024, with the exception behind all of them. -/
theorem corrupt_breaches :
    mdsXpand 0 1 (fun a => [33, 0, 0, 0].getD a 0) 9 8 4 0 = .error .masks ∧
      mdsXpand 0 2 (fun a => [66, 0, 64, 0, 10].getD a 0) 5 8 4 0 = .error .exceptions ∧
      mdsXpand 0 1 (fun a => [0xC2, 0xFF, 64, 0, 0].getD a 0) 5 8 4 0 = .error .packed := by
  unfold mdsXpand expandLoop
  exact ⟨rfl, rfl, rfl⟩

end MdsPlus.XpandReads
