import MdsPlus.Outcome
import MdsPlus.StrMatchWild

/-!
The loop of the matcher on the two strings as they lie in memory. Where it is in the candidate and
in the pattern, and where it goes on behind the last star, are told by a place and a count of
the characters that are left. No character behind the end of a string is read.
-/

namespace MdsPlus.MatchLoop

open Outcome StrMatchWild TagTable Wildcards

/-- A place in a string, and how many of its characters are left. -/
structure Descr where
  ptr : ℕ
  length : ℤ

structure State where
  cand : Descr
  scand : Descr
  pat : Descr
  spat : Descr

inductive Next
  | done (answer : Bool)
  | go (s : State)

def Descr.advance (d : Descr) : Descr := ⟨d.ptr + 1, d.length - 1⟩

def readChar (text : List CChar) (ptr : ℕ) : Except Fault CChar :=
  match text[ptr]? with
  | some c => .ok c
  | none => .error .outOfRange

/-- The last star takes one character more. -/
def backtrack (s : State) : Next :=
  if s.scand.length - 1 < 0 then .done false
  else .go ⟨s.scand.advance, s.scand.advance, s.spat, s.spat⟩

def step (cand pat : List CChar) (s : State) : Except Fault Next :=
  if s.pat.length - 1 < 0 then
    .ok (if s.cand.length = 0 then .done true else backtrack s)
  else do
    let pc ← readChar pat s.pat.ptr
    if pc = 42 then
      .ok (if s.pat.length - 1 = 0 then .done true
        else .go ⟨s.cand, s.cand, s.pat.advance, s.pat.advance⟩)
    else if s.cand.length - 1 < 0 then .ok (.done false)
    else do
      let c ← readChar cand s.cand.ptr
      if c ≠ pc ∧ pc ≠ 37 then .ok (backtrack s)
      else .ok (.go ⟨s.cand.advance, s.scand, s.pat.advance, s.spat⟩)

def loop (cand pat : List CChar) : ℕ → State → Except Fault Bool
  | 0, _ => .error .endless
  | fuel + 1, s => do
      match ← step cand pat s with
      | .done answer => .ok answer
      | .go s => loop cand pat fuel s

def matchWild (fuel : ℕ) (cand pat : List CChar) : Except Fault Bool :=
  loop cand pat fuel
    ⟨⟨0, cand.length⟩, ⟨0, 0⟩, ⟨0, pat.length⟩, ⟨0, pat.length⟩⟩

inductive Status
  | StrMATCH | StrNOMATCH
  deriving DecidableEq

def strMatchWild (fuel : ℕ) (candidate pattern : List CChar) : Except Fault Status := do
  let answer ← matchWild fuel candidate pattern
  .ok (if answer then .StrMATCH else .StrNOMATCH)

def Left (text : List CChar) (d : Descr) (rest : List CChar) : Prop :=
  d.length = rest.length ∧ rest <+: text.drop d.ptr

/-- The matching that is still to be done, and the one from the last star on. -/
structure Tracks (cand pat : List CChar) (s : State) (c p sc sp : List CChar) : Prop where
  cand_left : Left cand s.cand c
  pat_left : Left pat s.pat p
  scand_left : Left cand s.scand sc
  spat_left : Left pat s.spat sp

/-- After a mismatch behind the last star it is tried again, one character later. -/
def answer (sp sc : List CChar) : Pass → Bool
  | .whole => true
  | .short => false
  | .star [] _ => true
  | .star p c => fromStar p c
  | .differs =>
      match sc with
      | [] => false
      | _ :: sc => fromStar sp sc

/-- Enough turns of the loop come to an answer. -/
def Returns (cand pat : List CChar) (s : State) (a : Bool) : Prop :=
  ∃ n, ∀ fuel ≥ n, loop cand pat fuel s = .ok a

variable {cand pat text : List CChar} {s : State} {d : Descr} {c p sc sp rest : List CChar}

theorem Left.nil_iff (h : Left text d rest) : d.length - 1 < 0 ↔ rest = [] := by
  rw [h.1, ← List.length_eq_zero_iff]
  omega

theorem Left.advance {a : CChar} (h : Left text d (a :: rest)) : Left text d.advance rest := by
  obtain ⟨hlength, tail, htail⟩ := h
  refine ⟨?_, tail, ?_⟩
  · change d.length - 1 = _
    rw [hlength, List.length_cons]
    omega
  · rw [Descr.advance, ← List.tail_drop, ← htail]
    rfl

theorem Left.readChar_eq {a : CChar} (h : Left text d (a :: rest)) :
    readChar text d.ptr = .ok a := by
  obtain ⟨_, tail, htail⟩ := h
  have hhead : text[d.ptr]? = some a := by
    rw [← List.head?_drop, ← htail]
    rfl
  rw [readChar, hhead]

theorem answer_eq (p c : List CChar) : answer p c (pass p c) = fromStar p c := by
  rw [fromStar_eq]
  cases pass p c with
  | whole => rfl
  | short => rfl
  | differs => cases c <;> rfl
  | star p' c' => cases p' <;> rfl

theorem returns_of_done {a : Bool} (h : step cand pat s = .ok (.done a)) :
    Returns cand pat s a := by
  refine ⟨1, fun fuel hfuel => ?_⟩
  obtain ⟨n, rfl⟩ := Nat.exists_eq_add_of_le' hfuel
  rw [loop, h, ok_bind]

theorem returns_of_go {s' : State} {a : Bool} (h : step cand pat s = .ok (.go s'))
    (hreturns : Returns cand pat s' a) : Returns cand pat s a := by
  obtain ⟨n, hn⟩ := hreturns
  refine ⟨n + 1, fun fuel hfuel => ?_⟩
  obtain ⟨m, rfl⟩ := Nat.exists_eq_add_of_le' (Nat.le_of_add_left_le hfuel)
  rw [loop, h, ok_bind]
  exact hn m (by omega)

theorem backtrack_eq (h : Tracks cand pat s c p sc sp) :
    (sc = [] ∧ backtrack s = .done false) ∨
      ∃ a sc' s', sc = a :: sc' ∧ backtrack s = .go s' ∧
        Tracks cand pat s' sc' sp sc' sp := by
  cases sc with
  | nil => exact Or.inl ⟨rfl, if_pos (h.scand_left.nil_iff.2 rfl)⟩
  | cons a sc' =>
    have hpos : ¬ s.scand.length - 1 < 0 := by
      rw [h.scand_left.nil_iff]
      exact List.cons_ne_nil a sc'
    exact Or.inr ⟨a, sc', _, rfl, if_neg hpos, h.scand_left.advance, h.spat_left, h.scand_left.advance, h.spat_left⟩

/-- The loop comes to the answer on what is left, the star taking more where it differs: the
pattern behind the star becomes shorter, or the candidate, or what is left of the pattern. -/
theorem returns_answer (sp sc p c : List CChar) (s : State) (h : Tracks cand pat s c p sc sp)
    (hle : p.length ≤ sp.length) : Returns cand pat s (answer sp sc (pass p c)) := by
  have hdiffers : step cand pat s = .ok (backtrack s) → pass p c = .differs →
      Returns cand pat s (answer sp sc (pass p c)) := by
    intro hstep hpass
    rw [hpass]
    rcases backtrack_eq h with ⟨hsc, hback⟩ | ⟨a, sc', s', hsc, hback, htracks⟩
    · rw [hback] at hstep
      rw [hsc]
      exact returns_of_done hstep
    · rw [hback] at hstep
      have hrest := returns_answer sp sc' sp sc' s' htracks (Nat.le_refl _)
      rw [answer_eq] at hrest
      rw [hsc]
      exact returns_of_go hstep hrest
  cases hp : p with
  | nil =>
    subst hp
    have hend := h.pat_left.nil_iff.2 rfl
    cases c with
    | nil =>
      have hnone : s.cand.length = 0 := h.cand_left.1
      apply returns_of_done
      rw [step, if_pos hend, if_pos hnone]
      rfl
    | cons x c =>
      have hmore : ¬ s.cand.length = 0 := by
        rw [h.cand_left.1, List.length_cons]
        omega
      refine hdiffers ?_ rfl
      rw [step, if_pos hend, if_neg hmore]
  | cons pc p' =>
    rw [hp] at h hdiffers hle
    have hpos : ¬ s.pat.length - 1 < 0 := by
      rw [h.pat_left.nil_iff]
      exact List.cons_ne_nil pc p'
    by_cases hstar : pc = 42
    · subst hstar
      rw [pass_star]
      cases hp' : p' with
      | nil =>
        have hlast : s.pat.length - 1 = 0 := by
          rw [h.pat_left.1, hp']
          rfl
        apply returns_of_done
        rw [step, if_neg hpos, h.pat_left.readChar_eq, ok_bind, if_pos rfl, if_pos hlast]
        rfl
      | cons b p'' =>
        have hmore : ¬ s.pat.length - 1 = 0 := by
          rw [h.pat_left.1, hp', List.length_cons, List.length_cons]
          omega
        have hrest := returns_answer p' c p' c ⟨s.cand, s.cand, s.pat.advance, s.pat.advance⟩
          ⟨h.cand_left, h.pat_left.advance, h.cand_left, h.pat_left.advance⟩ (Nat.le_refl _)
        rw [answer_eq, hp'] at hrest
        refine returns_of_go ?_ hrest
        rw [step, if_neg hpos, h.pat_left.readChar_eq, ok_bind, if_pos rfl, if_neg hmore]
    · cases hc : c with
      | nil =>
        rw [pass_nil hstar]
        rw [hc] at h
        apply returns_of_done
        rw [step, if_neg hpos, h.pat_left.readChar_eq, ok_bind, if_neg hstar,
          if_pos (h.cand_left.nil_iff.2 rfl)]
        rfl
      | cons x c' =>
        rw [hc] at h hdiffers
        have hcand : ¬ s.cand.length - 1 < 0 := by
          rw [h.cand_left.nil_iff]
          exact List.cons_ne_nil x c'
        have hstep : step cand pat s = if x ≠ pc ∧ pc ≠ 37 then .ok (backtrack s)
            else .ok (.go ⟨s.cand.advance, s.scand, s.pat.advance, s.spat⟩) := by
          rw [step, if_neg hpos, h.pat_left.readChar_eq, ok_bind, if_neg hstar, if_neg hcand,
            h.cand_left.readChar_eq, ok_bind]
        by_cases hsame : x ≠ pc ∧ pc ≠ 37
        · rw [if_pos hsame] at hstep
          refine hdiffers hstep ?_
          rw [pass_cons hstar, if_pos hsame]
        · rw [if_neg hsame] at hstep
          rw [pass_cons hstar, if_neg hsame]
          exact returns_of_go hstep (returns_answer sp sc p' c' _
            ⟨h.cand_left.advance, h.pat_left.advance, h.scand_left, h.spat_left⟩
            (Nat.le_of_succ_le hle))
termination_by (sp.length, sc.length, p.length)
decreasing_by
  · rw [hsc]
    exact Prod.Lex.right _ (Prod.Lex.left _ _ (Nat.lt_succ_self _))
  · exact Prod.Lex.left _ _ (Nat.lt_of_succ_le hle)
  · rw [hp]
    exact Prod.Lex.right _ (Prod.Lex.right _ (Nat.lt_succ_self _))

theorem matchWild_returns (cand pat : List CChar) :
    ∃ n, ∀ fuel ≥ n, matchWild fuel cand pat = .ok (StrMatchWild.matchWild cand pat) := by
  have hanswer : StrMatchWild.matchWild cand pat = answer pat [] (pass pat cand) := by
    rw [StrMatchWild.matchWild]
    cases pass pat cand with
    | whole => rfl
    | short => rfl
    | differs => rfl
    | star p c => cases p <;> rfl
  rw [hanswer]
  exact returns_answer pat [] pat cand _ ⟨⟨rfl, List.prefix_rfl⟩, ⟨rfl, List.prefix_rfl⟩,
    ⟨rfl, List.nil_prefix⟩, ⟨rfl, List.prefix_rfl⟩⟩ (Nat.le_refl _)

/-- The matcher ends, without a read outside of the strings, and a match is reported exactly
when the whole candidate matches the pattern. -/
theorem strMatchWild_returns (candidate pattern : List CChar) :
    ∃ status n, (∀ fuel ≥ n, strMatchWild fuel candidate pattern = .ok status) ∧
      (status = .StrMATCH ↔ Matches strSymbol pattern candidate) := by
  obtain ⟨n, hn⟩ := matchWild_returns candidate pattern
  refine ⟨if StrMatchWild.matchWild candidate pattern then .StrMATCH else .StrNOMATCH, n,
    fun fuel hfuel => ?_, ?_⟩
  · rw [strMatchWild, hn fuel hfuel, ok_bind]
  · rw [← matchWild_iff]
    cases StrMatchWild.matchWild candidate pattern <;> simp

end MdsPlus.MatchLoop
