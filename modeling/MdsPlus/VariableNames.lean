import MdsPlus.InsertTree

/-!
Names of variables as strings of bytes: comparison without case, and wildcards.
-/

namespace MdsPlus.VariableNames

abbrev Name := List ℕ

def toupper (c : ℕ) : ℕ := if 97 ≤ c ∧ c ≤ 122 then c - 32 else c

def tolower (c : ℕ) : ℕ := if 65 ≤ c ∧ c ≤ 90 then c + 32 else c

def strUpcase (name : Name) : Name := name.map toupper

def strncasecmp : ℕ → Name → Name → ℤ
  | n + 1, a :: l, b :: m =>
      if tolower a ≠ tolower b then (tolower a : ℤ) - tolower b
      else if a = 0 then 0
      else strncasecmp n l m
  | _, _, _ => 0

/-- Names are compared without case. -/
def strCaseBlindCompare (str1 str2 : Name) : ℤ :=
  let len := min str1.length str2.length
  let ans := strncasecmp len str1 str2
  if ans ≠ 0 then ans
  else if str1.length > str2.length then (str1.getD len 0 : ℤ)
  else if str2.length > str1.length then -(str2.getD len 0 : ℤ)
  else 0

def star : ℕ := 42

def percent : ℕ := 37

/-- StrPosition of one character, which looks at C strings. -/
def hasChar (name : Name) (c : ℕ) : Bool := (name.takeWhile (· ≠ 0)).contains c

def isWild (name : Name) : Bool := hasChar name star || hasChar name percent

/-- match_wild. The pattern is what is left of `spat` after so many characters, and with the
candidate it goes back to where a star has been. -/
def matchWild (spat : Name) (k : ℕ) (scand cand : Name) : Bool :=
  match _hdrop : spat.drop k with
  | [] =>
      if cand.isEmpty then true
      else
        match scand with
        | [] => false
        | _ :: scand => matchWild spat 0 scand scand
  | pc :: pat =>
      if pc = star then
        if pat.isEmpty then true else matchWild pat 0 cand cand
      else
        match cand with
        | [] => false
        | c :: cand =>
            if c ≠ pc ∧ pc ≠ percent then
              match scand with
              | [] => false
              | _ :: scand => matchWild spat 0 scand scand
            else matchWild spat (k + 1) scand cand
termination_by (spat.length, scand.length, spat.length - k)
decreasing_by
  · exact Prod.Lex.right _ (Prod.Lex.left _ _ (Nat.lt_succ_self _))
  · have hlength := congrArg List.length _hdrop
    rw [List.length_drop, List.length_cons] at hlength
    exact Prod.Lex.left _ _ (by omega)
  · exact Prod.Lex.right _ (Prod.Lex.left _ _ (Nat.lt_succ_self _))
  · have hlength := congrArg List.length _hdrop
    rw [List.length_drop, List.length_cons] at hlength
    exact Prod.Lex.right _ (Prod.Lex.right _ (by omega))

def strMatchWild (candidate pattern : Name) : Bool := matchWild pattern 0 [] candidate

end MdsPlus.VariableNames
