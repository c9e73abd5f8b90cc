import MdsPlus.TagTable
import MdsPlus.Wildcards

/-!
The matcher of the string routines. A star of the pattern stands for any characters, a percent
sign for one. After a mismatch the characters behind the last star are compared again from the
next place of the candidate.
-/

namespace MdsPlus.StrMatchWild

open TagTable Wildcards

def strSymbol (c : CChar) : Symbol := if c = 42 then .star else if c = 37 then .any else .plain

/-- How the letters up to the next star of the pattern, or to its end, compare. -/
inductive Pass
  | whole
  | star (pat cand : List CChar)
  | short
  | differs

/-- The candidate ends before the pattern does, they differ, or a star is reached. -/
def pass : List CChar → List CChar → Pass
  | [], [] => .whole
  | [], _ :: _ => .differs
  | pc :: pat, [] => if pc = 42 then .star pat [] else .short
  | pc :: pat, c :: cand =>
      if pc = 42 then .star pat (c :: cand)
      else if c ≠ pc ∧ pc ≠ 37 then .differs
      else pass pat cand

theorem pass_star (pat cand : List CChar) : pass (42 :: pat) cand = .star pat cand := by
  cases cand <;> simp [pass]

theorem pass_nil {pc : CChar} (hpc : pc ≠ 42) (pat : List CChar) :
    pass (pc :: pat) [] = .short := by
  simp [pass, hpc]

theorem pass_cons {pc : CChar} (hpc : pc ≠ 42) (pat : List CChar) (c : CChar)
    (cand : List CChar) :
    pass (pc :: pat) (c :: cand) = if c ≠ pc ∧ pc ≠ 37 then .differs else pass pat cand := by
  simp [pass, hpc]

theorem pass_star_length {pat cand pat' cand' : List CChar} (h : pass pat cand = .star pat' cand') :
    pat'.length < pat.length := by
  induction pat generalizing cand with
  | nil => cases cand <;> simp [pass] at h
  | cons pc pat ih =>
    by_cases hpc : pc = 42
    · rw [hpc, pass_star] at h
      simp [(Pass.star.inj h).1]
    · cases cand with
      | nil => simp [pass_nil hpc] at h
      | cons c cand =>
        rw [pass_cons hpc] at h
        split at h
        · cases h
        · exact Nat.lt_succ_of_lt (ih h)

/-- Behind a star: where the letters up to the next star differ, they are compared again from
the next place of the candidate. -/
def fromStar (spat scand : List CChar) : Bool :=
  match _h : pass spat scand with
  | .whole => true
  | .short => false
  | .star [] _ => true
  | .star pat cand => fromStar pat cand
  | .differs =>
      match scand with
      | [] => false
      | _ :: scand => fromStar spat scand
termination_by (spat.length, scand.length)
decreasing_by
  · exact Prod.Lex.left _ _ (pass_star_length _h)
  · exact Prod.Lex.right _ (by simp)

/-- Up to the first star there is no other place. -/
def matchWild (cand pat : List CChar) : Bool :=
  match pass pat cand with
  | .whole => true
  | .short => false
  | .differs => false
  | .star [] _ => true
  | .star pat cand => fromStar pat cand

variable {pat cand pat' cand' : List CChar}

theorem fromStar_eq (spat scand : List CChar) :
    fromStar spat scand =
      match pass spat scand with
      | .whole => true
      | .short => false
      | .star [] _ => true
      | .star pat cand => fromStar pat cand
      | .differs =>
          match scand with
          | [] => false
          | _ :: scand => fromStar spat scand := by
  rw [fromStar]
  split <;> simp only [*]
  cases scand <;> rfl

theorem strSymbol_star : strSymbol 42 = .star := rfl

theorem matches_cons_iff {pc : CChar} (hpc : pc ≠ 42) {word : List CChar} :
    Matches strSymbol (pc :: pat) word ↔
      ∃ c rest, word = c :: rest ∧ ¬ (c ≠ pc ∧ pc ≠ 37) ∧ Matches strSymbol pat rest := by
  by_cases hany : pc = 37
  · subst hany
    rw [matches_any_iff rfl]
    simp
  · rw [matches_plain_iff (by simp [strSymbol, hpc, hany])]
    simp [hany]

theorem matches_of_pass (h : pass pat cand = .whole) : Matches strSymbol pat cand := by
  induction pat generalizing cand with
  | nil =>
    cases cand with
    | nil => exact .nil
    | cons c cand => simp [pass] at h
  | cons pc pat ih =>
    by_cases hpc : pc = 42
    · simp [hpc, pass_star] at h
    · cases cand with
      | nil => simp [pass_nil hpc] at h
      | cons c cand =>
        rw [pass_cons hpc] at h
        split at h
        · cases h
        · rename_i hsame
          exact (matches_cons_iff hpc).2 ⟨c, cand, rfl, hsame, ih h⟩

theorem not_matches_of_short (h : pass pat cand = .short) {word : List CChar}
    (hlen : word.length ≤ cand.length) : ¬ Matches strSymbol pat word := by
  induction pat generalizing cand word with
  | nil => cases cand <;> simp [pass] at h
  | cons pc pat ih =>
    by_cases hpc : pc = 42
    · simp [hpc, pass_star] at h
    · rw [matches_cons_iff hpc]
      rintro ⟨d, rest, rfl, _, hrest⟩
      cases cand with
      | nil => simp at hlen
      | cons c cand =>
        rw [pass_cons hpc] at h
        split at h
        · cases h
        · exact ih h (by simpa using hlen) hrest

theorem not_matches_of_differs (h : pass pat cand = .differs) : ¬ Matches strSymbol pat cand := by
  induction pat generalizing cand with
  | nil =>
    cases cand with
    | nil => simp [pass] at h
    | cons c cand => simp [matches_nil_iff]
  | cons pc pat ih =>
    by_cases hpc : pc = 42
    · simp [hpc, pass_star] at h
    · cases cand with
      | nil => simp [pass_nil hpc] at h
      | cons c cand =>
        rw [matches_cons_iff hpc]
        rintro ⟨d, rest, hword, hsame, hrest⟩
        obtain ⟨rfl, rfl⟩ := List.cons.inj hword
        rw [pass_cons hpc, if_neg hsame] at h
        exact ih h hrest

theorem matches_of_star (h : pass pat cand = .star pat' cand') :
    (Matches strSymbol (42 :: pat') cand' → Matches strSymbol pat cand) ∧
      ∀ word, word <:+ cand → Matches strSymbol pat word →
        Matches strSymbol (42 :: pat') cand' := by
  induction pat generalizing cand with
  | nil => cases cand <;> simp [pass] at h
  | cons pc pat ih =>
    by_cases hpc : pc = 42
    · rw [hpc, pass_star] at h
      obtain ⟨rfl, rfl⟩ := Pass.star.inj h
      rw [hpc]
      exact ⟨id, fun word hword hmatch => hmatch.of_suffix strSymbol_star hword⟩
    · cases cand with
      | nil => simp [pass_nil hpc] at h
      | cons c cand =>
        rw [pass_cons hpc] at h
        split at h
        · cases h
        rename_i hsame
        obtain ⟨hto, hfrom⟩ := ih h
        refine ⟨fun hrest => (matches_cons_iff hpc).2 ⟨c, cand, rfl, hsame, hto hrest⟩, ?_⟩
        intro word hword hmatch
        obtain ⟨d, rest, rfl, _, hrest⟩ := (matches_cons_iff hpc).1 hmatch
        have htail : rest <:+ cand := by
          rcases List.suffix_cons_iff.1 hword with heq | hsuffix
          · rw [(List.cons.inj heq).2]
          · exact (List.suffix_cons d rest).trans hsuffix
        exact hfrom rest htail hrest

theorem fromStar_iff (spat scand : List CChar) :
    fromStar spat scand = true ↔ Matches strSymbol (42 :: spat) scand := by
  induction spat, scand using fromStar.induct with
  | case1 spat scand h =>
    rw [fromStar_eq, h]
    simp only [true_iff]
    exact .skip strSymbol_star (matches_of_pass h)
  | case2 spat scand h =>
    rw [fromStar_eq, h]
    simp only [Bool.false_eq_true, false_iff]
    intro hmatch
    obtain ⟨rest, hrest, hpat⟩ := (matches_star_iff strSymbol_star).1 hmatch
    exact not_matches_of_short h hrest.length_le hpat
  | case3 spat scand cand h =>
    rw [fromStar_eq, h]
    simp only [true_iff]
    exact .skip strSymbol_star ((matches_of_star h).1 (matches_last_star strSymbol_star cand))
  | case4 spat scand pat cand hne h ih =>
    obtain ⟨hto, hfrom⟩ := matches_of_star h
    rw [fromStar_eq, h]
    simp only [ih]
    constructor
    · exact fun hrest => .skip strSymbol_star (hto hrest)
    · intro hmatch
      obtain ⟨rest, hrest, hpat⟩ := (matches_star_iff strSymbol_star).1 hmatch
      exact hfrom rest hrest hpat
  | case5 spat h =>
    rw [fromStar_eq, h]
    simp only [Bool.false_eq_true, false_iff, matches_star_nil_iff strSymbol_star]
    exact not_matches_of_differs h
  | case6 spat c scand h ih =>
    rw [fromStar_eq, h]
    simp only [ih, matches_star_cons_iff strSymbol_star, not_matches_of_differs h, false_or]

theorem matchWild_iff : matchWild cand pat = true ↔ Matches strSymbol pat cand := by
  rw [matchWild]
  split
  · rename_i h
    simpa using matches_of_pass h
  · rename_i h
    simpa using not_matches_of_short h (Nat.le_refl _)
  · rename_i h
    simpa using not_matches_of_differs h
  · rename_i cand' h
    simpa using (matches_of_star h).1 (matches_last_star strSymbol_star cand')
  · rename_i pat' cand' _ h
    rw [fromStar_iff]
    exact ⟨(matches_of_star h).1, (matches_of_star h).2 cand List.suffix_rfl⟩

end MdsPlus.StrMatchWild
