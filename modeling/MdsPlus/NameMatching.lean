import MdsPlus.NodeSearch
import MdsPlus.Wildcards

/-!
What the matcher of names accepts. It looks at single characters and goes past the end of a name
where the pattern has a character that goes with any other; two stars that follow each other do
not go with the end of a name. A pattern without these is matched as its characters say, and so
is one that takes the name without them.
-/

namespace MdsPlus.NameMatching

open BitMemory NodeSearch Wildcards

def nameSymbol (c : Byte) : Symbol :=
  if c = 42#8 then .star else if c = 63#8 ∨ c = 37#8 then .any else .plain

variable {a c : Byte} {first second : List Byte}

/-- The matcher on two strings up to their ends. No answer is for a read behind the second. -/
def matchWithin : List Byte → List Byte → Option Bool
  | [], second => some (decide (second = []))
  | c :: first, [] =>
      if c = 42#8 then some (decide (first = []))
      else if c = 63#8 ∨ c = 37#8 then none
      else some false
  | c :: first, d :: second =>
      if c = 63#8 ∨ c = 37#8 ∨ c = d then matchWithin first second
      else if c = 42#8 then
        match matchWithin first (d :: second) with
        | some false => matchWithin (c :: first) second
        | answer => answer
      else some false
termination_by first second => first.length + second.length

/-- A pattern takes a whole name and leaves a rest of itself. A star takes characters that are no
stars, and none at the end of the name; or it is a character like others. -/
inductive Leads : List Byte → List Byte → List Byte → Prop
  | done {rest : List Byte} : Leads rest [] rest
  | one {c d : Byte} {first second rest : List Byte} :
      c = 63#8 ∨ c = 37#8 ∨ c = d → Leads first second rest → Leads (c :: first) (d :: second) rest
  | skip {d : Byte} {first second rest : List Byte} :
      d ≠ 42#8 → Leads first (d :: second) rest → Leads (42#8 :: first) (d :: second) rest
  | take {d : Byte} {first second rest : List Byte} :
      d ≠ 42#8 → Leads (42#8 :: first) second rest → Leads (42#8 :: first) (d :: second) rest

/-- Nothing is left of the pattern, or its last star. -/
def Accepts (first second : List Byte) : Prop := Leads first second [] ∨ Leads first second [42#8]

/-- A character that goes with any other is left. -/
def Overreads (first second : List Byte) : Prop :=
  ∃ c rest, (c = 63#8 ∨ c = 37#8) ∧ Leads first second (c :: rest)

/-- The answer is that of the pattern, and nothing is read behind the name. -/
def Answers (first second : List Byte) : Prop :=
  ∃ answer, matchWithin first second = some answer ∧
    (answer = true ↔ Matches nameSymbol first second)

structure Settles (first second : List Byte) : Prop where
  accepts : Matches nameSymbol first second → Accepts first second
  within : ¬ Matches nameSymbol first second → ¬ Overreads first second

variable {d : Byte} {rest rest' : List Byte}

theorem leads_nil_iff : Leads first [] rest ↔ rest = first := by
  constructor
  · intro h
    cases h
    rfl
  · rintro rfl
    exact .done

theorem leads_one_iff (h : c = 63#8 ∨ c = 37#8 ∨ c = d) :
    Leads (c :: first) (d :: second) rest ↔ Leads first second rest := by
  constructor
  · intro hleads
    cases hleads with
    | one _ hleads => exact hleads
    | skip hd _ => simp [hd.symm] at h
    | take hd _ => simp [hd.symm] at h
  · exact .one h

theorem leads_star_iff (hd : d ≠ 42#8) :
    Leads (42#8 :: first) (d :: second) rest ↔
      Leads first (d :: second) rest ∨ Leads (42#8 :: first) second rest := by
  constructor
  · intro h
    cases h with
    | one hone _ => simp [hd.symm] at hone
    | skip _ h => exact Or.inl h
    | take _ h => exact Or.inr h
  · exact fun h => h.elim (.skip hd) (.take hd)

theorem not_leads (h : ¬ (c = 63#8 ∨ c = 37#8 ∨ c = d)) (hstar : c ≠ 42#8) :
    ¬ Leads (c :: first) (d :: second) rest := by
  intro hleads
  cases hleads with
  | one hone _ => exact h hone
  | skip _ _ => exact hstar rfl
  | take _ _ => exact hstar rfl

theorem not_leads_nil : ¬ Leads [] (d :: second) rest := nofun

theorem Leads.length_le (h : Leads first second rest) : rest.length ≤ first.length := by
  induction h with
  | done => exact le_refl _
  | one _ _ ih => exact ih.trans (Nat.le_succ _)
  | skip _ _ ih => exact ih.trans (Nat.le_succ _)
  | take _ _ ih => exact ih

theorem Leads.tail (h : Leads (c :: first) second rest) (hrest : rest.length ≤ first.length) :
    ∃ tail, tail <:+ second ∧ Leads first tail rest := by
  generalize hp : c :: first = p at h
  induction h with
  | done =>
    subst hp
    exact absurd hrest (Nat.not_succ_le_self _)
  | one _ h _ =>
    cases hp
    exact ⟨_, List.suffix_cons _ _, h⟩
  | skip _ h _ =>
    cases hp
    exact ⟨_, List.suffix_rfl, h⟩
  | take _ _ ih =>
    obtain ⟨tail, htail, h⟩ := ih hrest hp
    exact ⟨tail, htail.trans (List.suffix_cons _ _), h⟩

/-- Where a pattern leaves more of itself with a name than with the end of it, the two cross. -/
theorem Leads.cross (h : Leads first second rest) {last : List Byte} (hlast : last <:+ second)
    (h' : Leads first last rest') (hle : rest'.length ≤ rest.length) :
    Leads first second rest' := by
  induction h generalizing last with
  | done =>
    rw [List.suffix_nil] at hlast
    exact hlast ▸ h'
  | one hone h ih =>
    rcases List.suffix_cons_iff.1 hlast with rfl | hlast
    · exact h'
    · obtain ⟨tail, htail, htail'⟩ := h'.tail (hle.trans h.length_le)
      exact .one hone (ih (htail.trans hlast) htail' hle)
  | skip hd h ih =>
    rcases List.suffix_cons_iff.1 hlast with rfl | hlast'
    · exact h'
    · obtain ⟨tail, htail, htail'⟩ := h'.tail (hle.trans h.length_le)
      exact .skip hd (ih (htail.trans hlast) htail' hle)
  | take hd h ih =>
    rcases List.suffix_cons_iff.1 hlast with rfl | hlast
    · exact h'
    · exact .take hd (ih hlast h' hle)

theorem accepts_of_overreads (h : Overreads first (d :: second))
    (h' : Accepts (42#8 :: first) second) : Accepts first (d :: second) := by
  obtain ⟨c, rest, -, hleads⟩ := h
  have hone : ∀ {rest'}, rest'.length ≤ 1 → Leads (42#8 :: first) second rest' →
      Leads first (d :: second) rest' := by
    intro rest' hrest' hleads'
    have hlong : rest'.length ≤ (c :: rest).length := hrest'.trans (Nat.le_add_left _ _)
    obtain ⟨tail, htail, hleads''⟩ := hleads'.tail (hlong.trans hleads.length_le)
    exact hleads.cross (htail.trans (List.suffix_cons _ _)) hleads'' hlong
  exact h'.imp (hone (Nat.zero_le 1)) (hone (le_refl 1))

def Tells (first second : List Byte) : Option Bool → Prop
  | some true => Accepts first second
  | some false => ¬ Accepts first second ∧ ¬ Overreads first second
  | none => ¬ Accepts first second ∧ Overreads first second

section Steps

variable (h : c = 63#8 ∨ c = 37#8 ∨ c = d) (hd : d ≠ 42#8)
include h

theorem accepts_one_iff : Accepts (c :: first) (d :: second) ↔ Accepts first second := by
  simp only [Accepts, leads_one_iff h]

theorem overreads_one_iff : Overreads (c :: first) (d :: second) ↔ Overreads first second := by
  simp only [Overreads, leads_one_iff h]

omit h
include hd

theorem accepts_star_iff :
    Accepts (42#8 :: first) (d :: second) ↔
      Accepts first (d :: second) ∨ Accepts (42#8 :: first) second := by
  simp only [Accepts, leads_star_iff hd]
  exact or_or_or_comm

theorem overreads_star_iff :
    Overreads (42#8 :: first) (d :: second) ↔
      Overreads first (d :: second) ∨ Overreads (42#8 :: first) second := by
  simp only [Overreads, leads_star_iff hd, and_or_left, exists_or]

end Steps

theorem overreads_nil_iff : Overreads (c :: first) [] ↔ c = 63#8 ∨ c = 37#8 := by
  simp [Overreads, leads_nil_iff]

theorem matchWithin_tells (first second : List Byte) :
    Tells first second (matchWithin first second) := by
  induction first, second using matchWithin.induct with
  | case1 second =>
    cases second with
    | nil => simp [matchWithin, Tells, Accepts, leads_nil_iff]
    | cons d second => simp [matchWithin, Tells, Accepts, Overreads, not_leads_nil]
  | case2 first =>
    cases first with
    | nil => simp [matchWithin, Tells, Accepts, leads_nil_iff]
    | cons c first => simp [matchWithin, Tells, Accepts, overreads_nil_iff, leads_nil_iff]
  | case3 c first hstar hany | case4 c first hstar hany =>
    simp [matchWithin, Tells, Accepts, overreads_nil_iff, leads_nil_iff, hstar, hany, Ne.symm hstar]
  | case5 c first d second hone ih =>
    rw [matchWithin, if_pos hone]
    cases hanswer : matchWithin first second with
    | none => simpa only [hanswer, Tells, accepts_one_iff hone, overreads_one_iff hone] using ih
    | some answer =>
      cases answer <;>
        simpa only [hanswer, Tells, accepts_one_iff hone, overreads_one_iff hone] using ih
  | case6 first d second hfalse hne ihwhole ihlater =>
    have hd : d ≠ 42#8 := fun heq => hne (Or.inr (Or.inr heq.symm))
    rw [matchWithin, if_neg hne, if_pos rfl, hfalse]
    rw [hfalse] at ihwhole
    cases hanswer : matchWithin (42#8 :: first) second with
    | none =>
      rw [hanswer] at ihlater
      exact ⟨fun h => ((accepts_star_iff hd).1 h).elim ihwhole.1 ihlater.1,
        (overreads_star_iff hd).2 (Or.inr ihlater.2)⟩
    | some answer =>
      rw [hanswer] at ihlater
      cases answer with
      | true => exact (accepts_star_iff hd).2 (Or.inr ihlater)
      | false =>
        exact ⟨fun h => ((accepts_star_iff hd).1 h).elim ihwhole.1 ihlater.1,
          fun h => ((overreads_star_iff hd).1 h).elim ihwhole.2 ihlater.2⟩
  | case7 first d second hne hnot ih =>
    have hd : d ≠ 42#8 := fun heq => hne (Or.inr (Or.inr heq.symm))
    rw [matchWithin, if_neg hne, if_pos rfl]
    cases hanswer : matchWithin first (d :: second) with
    | none =>
      rw [hanswer] at ih
      -- What the star takes later cannot make up for a read behind the name.
      exact ⟨fun h => ih.1 (((accepts_star_iff hd).1 h).elim id (accepts_of_overreads ih.2)),
        (overreads_star_iff hd).2 (Or.inl ih.2)⟩
    | some answer =>
      rw [hanswer] at ih
      cases answer with
      | true => exact (accepts_star_iff hd).2 (Or.inl ih)
      | false => exact absurd hanswer hnot
  | case8 c first d second hne hstar =>
    rw [matchWithin, if_neg hne, if_neg hstar]
    simp [Tells, Accepts, Overreads, not_leads hne hstar]

theorem Leads.matches (h : Leads first second rest) (hrest : Matches nameSymbol rest []) :
    Matches nameSymbol first second := by
  induction h with
  | done => exact hrest
  | @one c d first second rest hone _ ih =>
    have ih := ih hrest
    by_cases hstar : c = 42#8
    · exact .take (by simp [nameSymbol, hstar]) (.skip (by simp [nameSymbol, hstar]) ih)
    · by_cases hany : c = 63#8 ∨ c = 37#8
      · exact .any (by simp [nameSymbol, hstar, hany]) ih
      · obtain rfl : c = d := by tauto
        exact .plain (by simp [nameSymbol, hstar, hany]) ih
  | skip _ _ ih => exact .skip rfl (ih hrest)
  | take _ _ ih => exact .take rfl (ih hrest)

theorem Accepts.matches (h : Accepts first second) : Matches nameSymbol first second :=
  h.elim (fun h => h.matches .nil) fun h => h.matches (.skip rfl .nil)

/-- The matcher is right exactly where a pattern that matches does so with stars that take no star,
and where one that does not match leaves nothing that goes with any character. -/
theorem matchWithin_answers_iff (first second : List Byte) :
    Answers first second ↔ Settles first second := by
  have htells := matchWithin_tells first second
  constructor
  · rintro ⟨answer, hanswer, hright⟩
    rw [hanswer] at htells
    cases answer with
    | true => exact ⟨fun _ => htells, fun hnot => absurd (hright.1 rfl) hnot⟩
    | false => exact ⟨fun h => absurd (hright.2 h) Bool.false_ne_true, fun _ => htells.2⟩
  · intro h
    cases hanswer : matchWithin first second with
    | none =>
      rw [hanswer] at htells
      exact absurd htells.2 (h.within fun hmatches => htells.1 (h.accepts hmatches))
    | some answer =>
      rw [hanswer] at htells
      refine ⟨answer, hanswer, ?_⟩
      cases answer with
      | true => exact iff_of_true rfl htells.matches
      | false => exact iff_of_false nofun fun hmatches => htells.1 (h.accepts hmatches)

/-- The pattern A% and the name A. -/
theorem percent_overreads :
    matchWithin [65#8, 37#8] [65#8] = none ∧ ¬ Answers [65#8, 37#8] [65#8] := by
  have hnone : matchWithin [65#8, 37#8] [65#8] = none := by simp [matchWithin]
  refine ⟨hnone, fun ⟨_, hanswer, _⟩ => ?_⟩
  rw [hnone] at hanswer
  cases hanswer

end MdsPlus.NameMatching
