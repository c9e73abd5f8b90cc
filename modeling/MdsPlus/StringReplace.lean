import MdsPlus.BitMemory
import MdsPlus.Outcome
import Mathlib.Algebra.Order.Ring.Int

/-!
The replacement of a part of a string. The string that comes of it is put together in a block got
for it, of a length told by a formula in words of sixteen bits, and copied to a descriptor.
-/

namespace MdsPlus.StringReplace

open BitMemory Outcome

inductive Fault
  | outOfRange | overrun
  deriving DecidableEq

/-- The bytes of a string descriptor; their number is a word. -/
structure Text where
  bytes : List Byte
  length_lt : bytes.length < 65536

inductive Class
  | S | D | A
  deriving DecidableEq

/-- A descriptor that is copied to, with the bytes at its pointer. -/
structure Target where
  cls : Class
  length : ℕ
  bytes : List Byte
  null : Bool

def minmax (l x u : ℤ) : ℤ := if x < l then l else if x > u then u else x

/-- What a new block holds is not known. -/
def malloc (junk : ℕ → Byte) (len : ℕ) : List Byte := (List.range len).map junk

def strGet1Dx (junk : ℕ → Byte) (len : ℕ) (out : Target) : Target :=
  if out.length = len then out
  else { out with length := len, bytes := malloc junk len, null := decide (len = 0) }

def strCopyDx (junk : ℕ → Byte) (out : Target) (src : List Byte) : Target :=
  let out := if out.cls = .D ∧ src.length ≠ out.length then strGet1Dx junk src.length out else out
  if out.length ≠ 0 ∧ out.null = false then
    let outlength := (if out.cls = .A then out.bytes.length else out.length) % 65536
    { out with
      bytes := src.take (min outlength src.length) ++
        List.replicate (outlength - src.length) 32 ++ out.bytes.drop outlength }
  else out

/-- Bytes are copied one by one behind those already in the block. -/
def copy (room : ℕ) (src : List Byte) : ℕ → ℕ → List Byte → Except Fault (List Byte)
  | 0, _, dst => .ok dst
  | n + 1, sptr, dst =>
      match src[sptr]? with
      | none => .error .outOfRange
      | some b =>
          if dst.length < room then copy room src n (sptr + 1) (dst ++ [b]) else .error .overrun

def dstlen (inp : Text) (start last : ℤ) (rep : Text) : ℕ :=
  ((start - 1 + rep.bytes.length + inp.bytes.length - last + 1) % 65536).toNat

/-- The bytes that the three loops write. -/
def fill (inp : Text) (start last : ℤ) (rep : Text) : Except Fault (List Byte) := do
  let room := dstlen inp start last rep
  let dst ← copy room inp.bytes (start - 1).toNat 0 []
  let dst ← copy room rep.bytes rep.bytes.length 0 dst
  copy room inp.bytes (inp.bytes.length - last).toNat last.toNat dst

def result (junk : ℕ → Byte) (inp : Text) (start last : ℤ) (rep : Text) :
    Except Fault (List Byte) := do
  let dst ← fill inp start last rep
  let room := dstlen inp start last rep
  .ok (dst.take room ++ (malloc junk room).drop dst.length)

def strReplace (junk : ℕ → Byte) (out : Target) (inp : Text) (startIdx endIdx : ℤ) (rep : Text) :
    Except Fault Target := do
  let start := minmax 1 startIdx inp.bytes.length
  let last := minmax 1 endIdx inp.bytes.length
  let dst ← result junk inp start last rep
  .ok (strCopyDx junk out dst)

def clamp (inp : Text) (i : ℤ) : ℕ := (max 1 (min i inp.bytes.length)).toNat

/-- In the place of the bytes from one subscript to the other stands the replacement. -/
def replaced (inp : Text) (startIdx endIdx : ℤ) (rep : Text) : List Byte :=
  inp.bytes.take (clamp inp startIdx - 1) ++ rep.bytes ++ inp.bytes.drop (clamp inp endIdx)

/-- Whatever the new blocks hold, the loops write the bytes of the result and no others, and
these are copied out. -/
def Replaces (inp : Text) (startIdx endIdx : ℤ) (rep : Text) : Prop :=
  ∀ junk, ∃ dst,
    fill inp (minmax 1 startIdx inp.bytes.length) (minmax 1 endIdx inp.bytes.length) rep =
      .ok dst ∧
    dst.length =
      dstlen inp (minmax 1 startIdx inp.bytes.length) (minmax 1 endIdx inp.bytes.length) rep ∧
    dst = replaced inp startIdx endIdx rep ∧
    ∀ out, strReplace junk out inp startIdx endIdx rep =
      .ok (strCopyDx junk out (replaced inp startIdx endIdx rep))

variable {inp rep : Text} {room : ℕ} {src dst : List Byte} {startIdx endIdx : ℤ}

theorem length_of_copy {n sptr : ℕ} {w : List Byte} (h : copy room src n sptr dst = .ok w) :
    w.length = dst.length + n := by
  induction n generalizing sptr dst with
  | zero =>
    cases h
    rfl
  | succ n ih =>
    rw [copy] at h
    split at h
    · cases h
    · split at h
      · have hrest := ih h
        rw [List.length_append, List.length_singleton] at hrest
        omega
      · cases h

theorem copy_eq {n sptr : ℕ} (hsrc : sptr + n ≤ src.length) (hroom : dst.length + n ≤ room) :
    copy room src n sptr dst = .ok (dst ++ (src.drop sptr).take n) := by
  induction n generalizing sptr dst with
  | zero => rw [copy, List.take_zero, List.append_nil]
  | succ n ih =>
    have hlt : sptr < src.length := by omega
    rw [copy, List.getElem?_eq_getElem hlt]
    simp only
    rw [if_pos (by omega), ih (by omega)
      (by rw [List.length_append, List.length_singleton]; omega),
      List.drop_eq_getElem_cons hlt, List.take_succ_cons, List.append_assoc,
      List.singleton_append]

theorem length_of_fill {start last : ℤ} (h : fill inp start last rep = .ok dst) :
    dst.length =
      (start - 1).toNat + rep.bytes.length + (inp.bytes.length - last).toNat := by
  rw [fill] at h
  obtain ⟨a, ha, h⟩ := bind_eq_ok.1 h
  obtain ⟨b, hb, h⟩ := bind_eq_ok.1 h
  have hfirst := length_of_copy ha
  have hsecond := length_of_copy hb
  have hthird := length_of_copy h
  rw [List.length_nil] at hfirst
  omega

theorem dstlen_ne {start last : ℤ} (hstart : 1 ≤ start) (hlast : last ≤ inp.bytes.length)
    (h : fill inp start last rep = .ok dst) : dst.length ≠ dstlen inp start last rep := by
  have hlength := length_of_fill h
  rw [dstlen]
  omega

theorem minmax_bounds {x : ℤ} (hne : inp.bytes ≠ []) :
    1 ≤ minmax 1 x inp.bytes.length ∧ minmax 1 x inp.bytes.length ≤ inp.bytes.length := by
  have hpos := List.length_pos_of_ne_nil hne
  rw [minmax]
  split
  · omega
  · split <;> omega

theorem minmax_empty (x : ℤ) : minmax 1 x (0 : ℕ) = if x < 1 then 1 else 0 := by
  rw [minmax]
  split
  · rfl
  · split <;> omega

theorem replaced_empty (hempty : inp.bytes = []) : replaced inp startIdx endIdx rep = rep.bytes := by
  rw [replaced, hempty, List.take_nil, List.drop_nil, List.nil_append, List.append_nil]

theorem fill_empty {start last : ℤ} (hempty : inp.bytes = [])
    (hsame : (start = 0 ∧ last = 0) ∨ (start = 1 ∧ last = 1)) :
    fill inp start last rep = .ok rep.bytes ∧
      dstlen inp start last rep = rep.bytes.length := by
  have hlen : inp.bytes.length = 0 := by rw [hempty, List.length_nil]
  have hrep := rep.length_lt
  have hroom : dstlen inp start last rep = rep.bytes.length := by
    rw [dstlen, hlen]
    omega
  refine ⟨?_, hroom⟩
  have hnone : (start - 1).toNat = 0 := by omega
  have hrest : ((inp.bytes.length : ℤ) - last).toNat = 0 := by omega
  have hcopy : copy rep.bytes.length rep.bytes rep.bytes.length 0 [] = .ok rep.bytes := by
    rw [copy_eq (by omega) (by rw [List.length_nil]; omega), List.drop_zero, List.take_length,
      List.nil_append]
  rw [fill, hroom, hnone, hrest, copy, ok_bind, hcopy, ok_bind, copy]

theorem result_eq (junk : ℕ → Byte) {start last : ℤ} (hfill : fill inp start last rep = .ok dst)
    (hroom : dstlen inp start last rep = dst.length) : result junk inp start last rep = .ok dst := by
  have hrest : (malloc junk dst.length).drop dst.length = [] := by
    rw [List.drop_eq_nil_iff, malloc, List.length_map, List.length_range]
  rw [result, hfill, ok_bind]
  dsimp only
  rw [hroom, hrest, List.take_length, List.append_nil]

/-- A part is replaced as it should be exactly when the string is empty and both subscripts are
below one or both are not. -/
theorem replaces_iff (inp : Text) (startIdx endIdx : ℤ) (rep : Text) :
    Replaces inp startIdx endIdx rep ↔ inp.bytes = [] ∧ (startIdx < 1 ↔ endIdx < 1) := by
  constructor
  · intro h
    obtain ⟨dst, hfill, hlength, _⟩ := h fun _ => 0
    by_cases hempty : inp.bytes = []
    · refine ⟨hempty, ?_⟩
      have hlen : inp.bytes.length = 0 := by rw [hempty, List.length_nil]
      have hwritten := length_of_fill hfill
      have hrep := rep.length_lt
      rw [dstlen, hwritten, hlen, minmax_empty, minmax_empty] at hlength
      split at hlength <;> split at hlength <;> omega
    · exact absurd hlength
        (dstlen_ne (minmax_bounds hempty).1 (minmax_bounds hempty).2 hfill)
  · rintro ⟨hempty, hiff⟩ junk
    have hlen : inp.bytes.length = 0 := by rw [hempty, List.length_nil]
    have hsame : (minmax 1 startIdx inp.bytes.length = 0 ∧ minmax 1 endIdx inp.bytes.length = 0) ∨
        (minmax 1 startIdx inp.bytes.length = 1 ∧ minmax 1 endIdx inp.bytes.length = 1) := by
      rw [hlen, minmax_empty, minmax_empty]
      by_cases hlow : startIdx < 1
      · exact Or.inr ⟨if_pos hlow, if_pos (hiff.1 hlow)⟩
      · exact Or.inl ⟨if_neg hlow, if_neg (mt hiff.2 hlow)⟩
    obtain ⟨hfill, hroom⟩ := @fill_empty inp rep _ _ hempty hsame
    refine ⟨rep.bytes, hfill, hroom.symm, (replaced_empty hempty).symm, fun out => ?_⟩
    rw [strReplace, result_eq junk hfill hroom, ok_bind, replaced_empty hempty]

/-- One byte in the middle of three: the result has a byte that was never written. -/
theorem middle_not_replaced :
    ¬ Replaces ⟨[97, 98, 99], by decide⟩ 2 2 ⟨[120], by decide⟩ := by
  intro h
  obtain ⟨dst, hfill, hlength, _⟩ := h fun _ => 0
  have hdst := length_of_fill hfill
  rw [hdst] at hlength
  revert hlength
  decide

end MdsPlus.StringReplace
