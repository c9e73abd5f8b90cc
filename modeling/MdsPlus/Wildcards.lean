import Mathlib.Data.List.Infix

/-!
Words that match a pattern. A symbol of a pattern stands for itself, for any one letter, or
for any letters at all. A matcher that goes on after a star from the first place where the
letters up to the next star fit loses no match.
-/

namespace MdsPlus.Wildcards

/-- What a letter stands for in a pattern. -/
inductive Symbol
  | plain
  | any
  | star
  deriving DecidableEq

variable {α : Type*} (symbol : α → Symbol)

inductive Matches : List α → List α → Prop
  | nil : Matches [] []
  | plain {c : α} {pat word : List α} :
      symbol c = .plain → Matches pat word → Matches (c :: pat) (c :: word)
  | any {c d : α} {pat word : List α} :
      symbol c = .any → Matches pat word → Matches (c :: pat) (d :: word)
  | skip {c : α} {pat word : List α} :
      symbol c = .star → Matches pat word → Matches (c :: pat) word
  | take {c d : α} {pat word : List α} :
      symbol c = .star → Matches (c :: pat) word → Matches (c :: pat) (d :: word)

variable {symbol} {c d : α} {pat word : List α}

theorem matches_nil_iff : Matches symbol [] word ↔ word = [] := by
  constructor
  · intro h
    cases h
    rfl
  · rintro rfl
    exact .nil

theorem matches_plain_iff (hc : symbol c = .plain) :
    Matches symbol (c :: pat) word ↔ ∃ rest, word = c :: rest ∧ Matches symbol pat rest := by
  constructor
  · intro h
    cases h with
    | plain _ h => exact ⟨_, rfl, h⟩
    | any hany _ => simp [hc] at hany
    | skip hstar _ => simp [hc] at hstar
    | take hstar _ => simp [hc] at hstar
  · rintro ⟨rest, rfl, h⟩
    exact .plain hc h

theorem matches_any_iff (hc : symbol c = .any) :
    Matches symbol (c :: pat) word ↔ ∃ d rest, word = d :: rest ∧ Matches symbol pat rest := by
  constructor
  · intro h
    cases h with
    | plain hplain _ => simp [hc] at hplain
    | any _ h => exact ⟨_, _, rfl, h⟩
    | skip hstar _ => simp [hc] at hstar
    | take hstar _ => simp [hc] at hstar
  · rintro ⟨d, rest, rfl, h⟩
    exact .any hc h

theorem matches_star_iff (hc : symbol c = .star) :
    Matches symbol (c :: pat) word ↔ ∃ rest, rest <:+ word ∧ Matches symbol pat rest := by
  constructor
  · intro h
    generalize hp : c :: pat = p at h
    induction h with
    | nil => cases hp
    | plain hplain _ _ =>
      cases hp
      simp [hc] at hplain
    | any hany _ _ =>
      cases hp
      simp [hc] at hany
    | skip _ h _ =>
      cases hp
      exact ⟨_, List.suffix_rfl, h⟩
    | take _ _ ih =>
      obtain ⟨rest, hrest, h⟩ := ih hp
      exact ⟨rest, hrest.trans (List.suffix_cons _ _), h⟩
  · rintro ⟨rest, ⟨front, rfl⟩, h⟩
    induction front with
    | nil => exact .skip hc h
    | cons d front ih => exact .take hc ih

theorem matches_literal_iff (h : ∀ c ∈ pat, symbol c = .plain) :
    Matches symbol pat word ↔ word = pat := by
  induction pat generalizing word with
  | nil => exact matches_nil_iff
  | cons c pat ih =>
    rw [matches_plain_iff (h c List.mem_cons_self)]
    simp only [ih fun d hd => h d (List.mem_cons_of_mem c hd), exists_eq_right]

theorem matches_star_cons_iff (hc : symbol c = .star) :
    Matches symbol (c :: pat) (d :: word) ↔
      Matches symbol pat (d :: word) ∨ Matches symbol (c :: pat) word := by
  rw [matches_star_iff hc, matches_star_iff hc]
  constructor
  · rintro ⟨rest, hrest, h⟩
    rcases List.suffix_cons_iff.1 hrest with rfl | hrest
    · exact Or.inl h
    · exact Or.inr ⟨rest, hrest, h⟩
  · rintro (h | ⟨rest, hrest, h⟩)
    · exact ⟨_, List.suffix_rfl, h⟩
    · exact ⟨rest, hrest.trans (List.suffix_cons _ _), h⟩

theorem matches_star_nil_iff (hc : symbol c = .star) :
    Matches symbol (c :: pat) [] ↔ Matches symbol pat [] := by
  rw [matches_star_iff hc]
  simp

theorem matches_last_star (hc : symbol c = .star) (word : List α) : Matches symbol [c] word :=
  (matches_star_iff hc).2 ⟨[], List.nil_suffix, .nil⟩

theorem Matches.of_suffix {rest : List α} (hc : symbol c = .star)
    (h : Matches symbol (c :: pat) rest) (hrest : rest <:+ word) :
    Matches symbol (c :: pat) word := by
  obtain ⟨tail, htail, hpat⟩ := (matches_star_iff hc).1 h
  exact (matches_star_iff hc).2 ⟨tail, htail.trans hrest, hpat⟩

end MdsPlus.Wildcards
