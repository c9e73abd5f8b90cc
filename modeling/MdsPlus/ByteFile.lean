import MdsPlus.Codec
import Mathlib.Data.List.GetD

/-!
A file of bytes and the records laid out in it. Records are disjoint cells, each
under a key of its own; appending a record or rewriting one in place leaves the
others where they are.
-/

namespace MdsPlus.ByteFile

open BitMemory

structure File where
  size : ℕ
  byte : ℕ → Byte

def File.read (f : File) (off len : ℕ) : Option (List Byte) :=
  if off + len ≤ f.size then some ((List.range len).map fun i => f.byte (off + i)) else none

def File.write (f : File) (off : ℕ) (bytes : List Byte) : File where
  size := max f.size (off + bytes.length)
  byte a :=
    if off ≤ a ∧ a < off + bytes.length then bytes.getD (a - off) 0
    else if a < f.size then f.byte a else 0

structure Holds (f : File) (off : ℕ) (bytes : List Byte) : Prop where
  inside : off + bytes.length ≤ f.size
  byte_eq : ∀ i (hi : i < bytes.length), f.byte (off + i) = bytes[i]

theorem Holds.read_eq {f : File} {off : ℕ} {bytes : List Byte} (h : Holds f off bytes) :
    f.read off bytes.length = some bytes := by
  rw [File.read, if_pos h.inside]
  congr 1
  apply List.ext_getElem
  · simp
  · intro i _ hi
    simpa using h.byte_eq i hi

theorem holds_write (f : File) (off : ℕ) (bytes : List Byte) :
    Holds (f.write off bytes) off bytes where
  inside := Nat.le_max_right _ _
  byte_eq := by
    intro i hi
    simp only [File.write]
    rw [if_pos (by omega), Nat.add_sub_cancel_left]
    exact List.getD_eq_getElem _ _ hi

theorem Holds.part {f : File} {off : ℕ} {bytes : List Byte} (h : Holds f off bytes) (k n : ℕ)
    (hkn : k + n ≤ bytes.length) : Holds f (off + k) ((bytes.drop k).take n) where
  inside := by
    have := h.inside
    simp only [List.length_take, List.length_drop]
    omega
  byte_eq := by
    intro i hi
    simp only [List.length_take, List.length_drop] at hi
    rw [Nat.add_assoc, h.byte_eq (k + i) (by omega), List.getElem_take, List.getElem_drop]

theorem Holds.left {f : File} {off : ℕ} {xs ys : List Byte} (h : Holds f off (xs ++ ys)) :
    Holds f off xs := by
  have hpart := h.part 0 xs.length (by simp)
  simpa using hpart

theorem Holds.right {f : File} {off : ℕ} {xs ys : List Byte} (h : Holds f off (xs ++ ys)) :
    Holds f (off + xs.length) ys := by
  have hpart := h.part xs.length ys.length (by simp)
  simpa using hpart

theorem Holds.write_of_disjoint {f : File} {off off' : ℕ} {bytes bytes' : List Byte}
    (h : Holds f off bytes)
    (hd : off + bytes.length ≤ off' ∨ off' + bytes'.length ≤ off) :
    Holds (f.write off' bytes') off bytes where
  inside := Nat.le_trans h.inside (Nat.le_max_left _ _)
  byte_eq := by
    intro i hi
    have hin := h.inside
    simp only [File.write]
    rw [if_neg (by omega), if_pos (by omega)]
    exact h.byte_eq i hi

structure Grows (f g : File) : Prop where
  size_le : f.size ≤ g.size
  byte_eq : ∀ a < f.size, g.byte a = f.byte a

theorem Grows.refl (f : File) : Grows f f := ⟨Nat.le_refl _, fun _ _ => rfl⟩

theorem Grows.trans {f g h : File} (hfg : Grows f g) (hgh : Grows g h) : Grows f h where
  size_le := Nat.le_trans hfg.size_le hgh.size_le
  byte_eq := by
    intro a ha
    have hle := hfg.size_le
    rw [hgh.byte_eq a (by omega), hfg.byte_eq a ha]

theorem grows_append (f : File) (bytes : List Byte) : Grows f (f.write f.size bytes) where
  size_le := Nat.le_max_left _ _
  byte_eq := by
    intro a ha
    simp only [File.write]
    rw [if_neg (by omega), if_pos ha]

theorem Holds.grows {f g : File} {off : ℕ} {bytes : List Byte} (h : Holds f off bytes)
    (hg : Grows f g) : Holds g off bytes where
  inside := Nat.le_trans h.inside hg.size_le
  byte_eq := by
    intro i hi
    have hin := h.inside
    rw [hg.byte_eq _ (by omega)]
    exact h.byte_eq i hi

/-- The block with `new` laid over it from position `k` on. -/
def overlay (bytes : List Byte) (k : ℕ) (new : List Byte) : List Byte :=
  bytes.take k ++ new ++ bytes.drop (k + new.length)

theorem overlay_length (bytes : List Byte) (k : ℕ) (new : List Byte)
    (h : k + new.length ≤ bytes.length) : (overlay bytes k new).length = bytes.length := by
  simp only [overlay, List.length_append, List.length_take, List.length_drop]
  omega

theorem overlay_getElem (bytes : List Byte) (k : ℕ) (new : List Byte)
    (h : k + new.length ≤ bytes.length) (i : ℕ) (hi : i < (overlay bytes k new).length)
    (hi' : i < bytes.length) :
    (overlay bytes k new)[i] =
      if hn : k ≤ i ∧ i < k + new.length then new[i - k] else bytes[i] := by
  have hlen : (bytes.take k).length = k := by
    rw [List.length_take]
    omega
  simp only [overlay, List.append_assoc, List.getElem_append, List.getElem_take,
    List.getElem_drop, hlen]
  by_cases hlow : i < k
  · rw [dif_pos hlow, dif_neg (by omega)]
  · by_cases hmid : i < k + new.length
    · rw [dif_neg hlow, dif_pos (by omega), dif_pos (by omega)]
    · rw [dif_neg hlow, dif_neg (by omega), dif_neg (by omega)]
      congr 1
      omega

theorem Holds.write_inside {f : File} {off : ℕ} {bytes : List Byte} (h : Holds f off bytes)
    (k : ℕ) (new : List Byte) (hk : k + new.length ≤ bytes.length) :
    Holds (f.write (off + k) new) off (overlay bytes k new) where
  inside := by
    rw [overlay_length _ _ _ hk]
    exact Nat.le_trans h.inside (Nat.le_max_left _ _)
  byte_eq := by
    intro i hi
    have hin := h.inside
    have hi' := hi
    rw [overlay_length _ _ _ hk] at hi'
    rw [overlay_getElem bytes k new hk i hi hi']
    simp only [File.write]
    by_cases hmid : k ≤ i ∧ i < k + new.length
    · rw [if_pos (by omega), dif_pos hmid, List.getD_eq_getElem _ _ (by omega)]
      congr 1
      omega
    · rw [if_neg (by omega), if_pos (by omega), dif_neg hmid, h.byte_eq i hi']

structure Cell where
  off : ℕ
  bytes : List Byte

def Cell.Disjoint (c d : Cell) : Prop :=
  c.off + c.bytes.length ≤ d.off ∨ d.off + d.bytes.length ≤ c.off

/-- The records of a file under their keys. -/
structure Stores {κ : Type} (f : File) (cells : κ → Option Cell) : Prop where
  holds : ∀ k c, cells k = some c → Holds f c.off c.bytes
  disjoint : ∀ j k c d, j ≠ k → cells j = some c → cells k = some d → c.Disjoint d

namespace Stores

variable {κ : Type} [DecidableEq κ] {f : File} {cells : κ → Option Cell}

theorem append (h : Stores f cells) (k : κ) (bytes : List Byte) :
    Stores (f.write f.size bytes) (Function.update cells k (some ⟨f.size, bytes⟩)) where
  holds := by
    intro j c hj
    by_cases hjk : j = k
    · rw [hjk, Function.update_self] at hj
      cases hj
      exact holds_write f f.size bytes
    · rw [Function.update_of_ne hjk] at hj
      have hold := h.holds j c hj
      exact hold.write_of_disjoint (Or.inl hold.inside)
  disjoint := by
    intro i j c d hij hi hj
    by_cases hik : i = k
    · have hjk : j ≠ k := fun hjk => hij (hik.trans hjk.symm)
      rw [hik, Function.update_self] at hi
      rw [Function.update_of_ne hjk] at hj
      cases hi
      exact Or.inr (h.holds j d hj).inside
    · rw [Function.update_of_ne hik] at hi
      by_cases hjk : j = k
      · rw [hjk, Function.update_self] at hj
        cases hj
        exact Or.inl (h.holds i c hi).inside
      · rw [Function.update_of_ne hjk] at hj
        exact h.disjoint i j c d hij hi hj

theorem overlay (h : Stores f cells) {k : κ} {c : Cell} (hk : cells k = some c) (n : ℕ)
    (new : List Byte) (hn : n + new.length ≤ c.bytes.length) :
    Stores (f.write (c.off + n) new)
      (Function.update cells k (some ⟨c.off, ByteFile.overlay c.bytes n new⟩)) where
  holds := by
    intro j d hj
    by_cases hjk : j = k
    · rw [hjk, Function.update_self] at hj
      cases hj
      exact (h.holds k c hk).write_inside n new hn
    · rw [Function.update_of_ne hjk] at hj
      have hd := h.disjoint j k d c hjk hj hk
      apply (h.holds j d hj).write_of_disjoint
      rcases hd with hd | hd
      · exact Or.inl (by omega)
      · exact Or.inr (by omega)
  disjoint := by
    have hlen := overlay_length c.bytes n new hn
    intro i j d e hij hi hj
    by_cases hik : i = k
    · have hjk : j ≠ k := fun hjk => hij (hik.trans hjk.symm)
      rw [hik, Function.update_self] at hi
      rw [Function.update_of_ne hjk] at hj
      cases hi
      have hd := h.disjoint k j c e (Ne.symm hjk) hk hj
      simp only [Cell.Disjoint, hlen] at hd ⊢
      exact hd
    · rw [Function.update_of_ne hik] at hi
      by_cases hjk : j = k
      · rw [hjk, Function.update_self] at hj
        cases hj
        have hd := h.disjoint i k d c hik hi hk
        simp only [Cell.Disjoint, hlen] at hd ⊢
        exact hd
      · rw [Function.update_of_ne hjk] at hj
        exact h.disjoint i j d e hij hi hj

theorem replace (h : Stores f cells) {k : κ} {c : Cell} (hk : cells k = some c)
    (new : List Byte) (hlen : new.length = c.bytes.length) :
    Stores (f.write c.off new) (Function.update cells k (some ⟨c.off, new⟩)) := by
  have hnew : ByteFile.overlay c.bytes 0 new = new := by
    simp [ByteFile.overlay, hlen]
  have hover := h.overlay hk 0 new (by omega)
  rwa [hnew] at hover

theorem move (h : Stores f cells) {k : κ} {c : Cell} (hk : cells k = some c) (k' : κ) :
    Stores f (Function.update (Function.update cells k none) k' (some c)) where
  holds := by
    intro j d hj
    by_cases hjk' : j = k'
    · rw [hjk', Function.update_self] at hj
      cases hj
      exact h.holds k c hk
    · rw [Function.update_of_ne hjk'] at hj
      by_cases hjk : j = k
      · rw [hjk, Function.update_self] at hj
        cases hj
      · rw [Function.update_of_ne hjk] at hj
        exact h.holds j d hj
  disjoint := by
    have hother : ∀ j d, j ≠ k' → Function.update (Function.update cells k none) k' (some c) j =
        some d → j ≠ k ∧ cells j = some d := by
      intro j d hjk' hj
      rw [Function.update_of_ne hjk'] at hj
      by_cases hjk : j = k
      · rw [hjk, Function.update_self] at hj
        cases hj
      · rw [Function.update_of_ne hjk] at hj
        exact ⟨hjk, hj⟩
    intro i j d e hij hi hj
    by_cases hik : i = k'
    · have hjk : j ≠ k' := fun hjk => hij (hik.trans hjk.symm)
      rw [hik, Function.update_self] at hi
      cases hi
      obtain ⟨hne, hj⟩ := hother j e hjk hj
      exact h.disjoint k j c e (Ne.symm hne) hk hj
    · obtain ⟨hne, hi⟩ := hother i d hik hi
      by_cases hjk : j = k'
      · rw [hjk, Function.update_self] at hj
        cases hj
        exact h.disjoint i k d c hne hi hk
      · obtain ⟨_, hj⟩ := hother j e hjk hj
        exact h.disjoint i j d e hij hi hj

end Stores

end MdsPlus.ByteFile
