import MdsPlus.TagTable
import Mathlib.Tactic.Linarith

/-!
Tag names as the tables hold them: full length and without terminators. On such
names the bounded comparison is the lexicographic order.
-/

namespace MdsPlus.TagNames

open TagTable

/-- A name of full length that the comparison reads to its end. -/
structure TagName (name : List CChar) : Prop where
  length_eq : name.length = tagNameSize
  noNul : ∀ c ∈ name, c ≠ 0

theorem strncmp_self (n : ℕ) (a : List CChar) : strncmp n a a = 0 := by
  induction a generalizing n with
  | nil => cases n <;> rfl
  | cons c a ih =>
    cases n with
    | zero => rfl
    | succ n => simp [strncmp, ih]

theorem strncmp_lt_iff (n : ℕ) (a b : List CChar) (ha : a.length = n) (hb : b.length = n)
    (hnul : ∀ c ∈ a, c ≠ 0) : strncmp n a b < 0 ↔ a < b := by
  induction n generalizing a b with
  | zero =>
    obtain rfl := List.length_eq_zero_iff.mp ha
    obtain rfl := List.length_eq_zero_iff.mp hb
    simp [strncmp]
  | succ n ih =>
    obtain ⟨c, a, rfl⟩ := List.exists_cons_of_length_eq_add_one ha
    obtain ⟨d, b, rfl⟩ := List.exists_cons_of_length_eq_add_one hb
    have hc : c ≠ 0 := hnul c (List.mem_cons_self ..)
    rw [strncmp, List.cons_lt_cons_iff]
    by_cases hcd : c = d
    · rw [if_neg (by simpa using hcd), if_neg hc,
        ih a b (by simpa using ha) (by simpa using hb) fun x hx => hnul x (List.mem_cons_of_mem _ hx)]
      simp [hcd]
    · rw [if_pos hcd]
      simp only [hcd, false_and, or_false, Fin.lt_def]
      omega

theorem strncmp_swap (n : ℕ) (a b : List CChar) : strncmp n b a = -strncmp n a b := by
  induction n generalizing a b with
  | zero => simp [strncmp]
  | succ n ih =>
    cases a with
    | nil => cases b <;> simp [strncmp]
    | cons c a =>
      cases b with
      | nil => simp [strncmp]
      | cons d b =>
        simp only [strncmp]
        by_cases hcd : c = d
        · simp only [hcd, ne_eq, not_true, if_false]
          split
          · rfl
          · exact ih a b
        · rw [if_pos fun h => hcd h.symm, if_pos hcd]
          omega

theorem strncmp_spec {a b : List CChar} (ha : TagName a) (hb : TagName b) :
    (strncmp tagNameSize a b < 0 ↔ a < b) ∧ (strncmp tagNameSize a b = 0 ↔ a = b) ∧
      (0 < strncmp tagNameSize a b ↔ b < a) := by
  have hlt := strncmp_lt_iff tagNameSize a b ha.length_eq hb.length_eq ha.noNul
  have hgt := strncmp_lt_iff tagNameSize b a hb.length_eq ha.length_eq hb.noNul
  rw [strncmp_swap tagNameSize a b] at hgt
  refine ⟨hlt, ?_, ?_⟩
  · constructor
    · intro h0
      rcases lt_trichotomy a b with h | h | h
      · have := hlt.mpr h
        omega
      · exact h
      · have := hgt.mpr h
        omega
    · rintro rfl
      exact strncmp_self _ _
  · rw [← hgt]
    omega

theorem toupper_ne_zero {c : CChar} (h : c ≠ 0) : toupper c ≠ 0 := by
  have hall : ∀ c : CChar, c ≠ 0 → toupper c ≠ 0 := by decide +kernel
  exact hall c h

theorem tagName_blankFilled (chars : List CChar) (hlen : chars.length ≤ tagNameSize)
    (hnul : ∀ c ∈ chars, c ≠ 0) : TagName (blankFilled chars) where
  length_eq := by
    simp only [blankFilled, List.length_append, List.length_map, List.length_replicate]
    omega
  noNul := by
    intro c hc
    rcases List.mem_append.mp hc with hc | hc
    · obtain ⟨d, hd, rfl⟩ := List.mem_map.mp hc
      exact toupper_ne_zero (hnul d hd)
    · rw [List.eq_of_mem_replicate hc]
      decide

theorem tagName_searchName (tagnam : CString) : TagName (searchName tagnam) := by
  apply tagName_blankFilled
  · rw [List.length_take]
    omega
  · exact fun c hc => tagnam.noNul c (List.mem_of_mem_take hc)

end MdsPlus.TagNames
