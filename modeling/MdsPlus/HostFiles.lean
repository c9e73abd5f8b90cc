import Mathlib.Algebra.Group.Nat.Defs
import Mathlib.Data.List.DropRight

/-!
The file of hosts that says who may connect. It is read in pieces of at most 1022 characters; a
piece with a rule is tried on the strings for the client until one of them decides.
-/

namespace MdsPlus.HostFiles

abbrev Text := List Char

inductive Access
  | noMatch
  | granted
  | denied
deriving DecidableEq

/-- The server: whether it serves many clients from one process, how a string is matched with a
pattern, and whether a blank happens to stand in front of the buffer for a line or of the copy of
a string. -/
structure Server where
  multi : Bool
  strMatchWild : Text → Text → Bool
  blankBeforeLine : Bool
  blankBeforeCopy : Bool

/-- The one who asks, `username` and `matchString`, and what `become_user` makes of a remote and a
local user. -/
structure Client where
  username : Option Text
  matchStrings : List Text
  becomeUser : Option Text → Option Text → Access

/-! ### The strings of a line -/

def isSpace (c : Char) : Bool := c = ' ' ∨ 9 ≤ c.toNat ∧ c.toNat ≤ 13

def trim (s : Text) : Text := (s.dropWhile isSpace).rdropWhile isSpace

/-- `filter_string`. In a string of blanks the end is looked for in front of the string, too; none
where that ends one of the blanks there. -/
def filterString (blankBefore upcase : Bool) (s : Text) : Option Text :=
  if s.dropWhile isSpace = [] ∧ blankBefore then none
  else some (if upcase then (trim s).map Char.toUpper else trim s)

/-- What is read up to a zero. -/
def cString (s : Text) : Text := s.takeWhile (· ≠ '\x00')

def accessPart (line : Text) : Text := line.takeWhile (· ≠ '|')

def localUser (line : Text) : Option Text :=
  match line.dropWhile (· ≠ '|') with
  | [] => none
  | _ :: rest => some (trim rest)

/-- A line of the file that is no comment and not blank. -/
structure Rule where
  deny : Bool
  accessId : Text
  localUser : Option Text
deriving DecidableEq

def multiId : Text := ['M', 'U', 'L', 'T', 'I']

/-- `StrMatchWild` on the descriptors, whose length has 16 bits. -/
def matchesId (v : Server) (candidate accessId : Text) : Bool :=
  v.strMatchWild (candidate.take (candidate.length % 2 ^ 16)) accessId

def tryMatch (v : Server) (c : Client) (r : Rule) (candidate : Text) : Access :=
  if r.deny then if matchesId v candidate r.accessId then .denied else .noMatch
  else if candidate = multiId ∧ r.accessId = multiId then c.becomeUser none r.localUser
  else if matchesId v candidate r.accessId then
    if v.multi then .granted else c.becomeUser c.username r.localUser
  else .noMatch

def tryMatches (v : Server) (c : Client) (r : Rule) : List Text → Option Access
  | [] => some .noMatch
  | m :: rest => do
      let candidate ← filterString v.blankBeforeCopy true m
      if tryMatch v c r candidate = .noMatch then tryMatches v c r rest
      else some (tryMatch v c r candidate)

/-- What is done with the string of a line. A `!` with nothing behind it denies every user. -/
def treatLine (v : Server) (c : Client) (line : Text) : Option Access :=
  if line.head? = some '#' then some .noMatch
  else do
    let accessId ← filterString v.blankBeforeLine true (accessPart line)
    if accessId = [] then some .noMatch
    else if accessId.head? = some '!' then
      let rest ← filterString false false accessId.tail
      if rest = [] then some (if c.username.isSome then .denied else .noMatch)
      else tryMatches v c ⟨true, rest, localUser line⟩ c.matchStrings
    else tryMatches v c ⟨false, accessId, localUser line⟩ c.matchStrings

/-! ### Reading the file -/

/-- `fgets`: at most `n` characters, and none behind a newline. -/
def fgets : ℕ → Text → Text × Text
  | 0, file => ([], file)
  | _ + 1, [] => ([], [])
  | n + 1, ch :: file =>
      if ch = '\n' then ([ch], file) else (ch :: (fgets n file).1, (fgets n file).2)

theorem fgets_length (n : ℕ) (file : Text) : (fgets n file).2.length ≤ file.length := by
  induction n generalizing file with
  | zero => exact le_rfl
  | succ n ih =>
    cases file with
    | nil => exact le_rfl
    | cons ch file =>
      rw [fgets]
      split
      · exact Nat.le_succ _
      · exact Nat.le_succ_of_le (ih file)

theorem fgets_shorter {file : Text} (n : ℕ) (h : file ≠ []) :
    (fgets (n + 1) file).2.length < file.length := by
  cases file with
  | nil => exact absurd rfl h
  | cons ch file =>
    rw [fgets]
    split
    · exact Nat.lt_succ_self _
    · exact Nat.lt_succ_of_le (fgets_length n file)

def reads (file : Text) : List Text :=
  if file = [] then [] else (fgets 1022 file).1 :: reads (fgets 1022 file).2
termination_by file.length
decreasing_by exact fgets_shorter 1021 ‹_›

def readLoop (v : Server) (c : Client) : List Text → Option Access
  | [] => some .noMatch
  | piece :: rest => do
      let access ← treatLine v c (cString piece)
      if access = .noMatch then readLoop v c rest else some access

def checkClient (v : Server) (c : Client) : Option Text → Option Access
  | none => some .denied
  | some file => readLoop v c (reads file)

/-! ### What the file says -/

def lines : Text → List Text
  | [] => []
  | ch :: file =>
      if ch = '\n' then [ch] :: lines file
      else
        match lines file with
        | [] => [[ch]]
        | line :: rest => (ch :: line) :: rest

def ruleOf (line : Text) : Option Rule :=
  let s := cString line
  let accessId := (trim (accessPart s)).map Char.toUpper
  if s.head? = some '#' ∨ accessId = [] then none
  else if accessId.head? = some '!' then some ⟨true, trim accessId.tail, localUser s⟩
  else some ⟨false, accessId, localUser s⟩

/-- `!` with nothing behind it. -/
def Rule.bare (r : Rule) : Bool := r.deny ∧ r.accessId = []

def Rule.verdict (v : Server) (c : Client) (r : Rule) : Access :=
  if r.bare then if c.username.isSome then .denied else .noMatch
  else
    ((c.matchStrings.map fun m => tryMatch v c r ((trim m).map Char.toUpper)).find?
      (· ≠ .noMatch)).getD .noMatch

def decision (v : Server) (c : Client) (rules : List Rule) : Access :=
  ((rules.map (Rule.verdict v c)).find? (· ≠ .noMatch)).getD .noMatch

/-- The rules that are consulted: those up to the first one that decides. -/
def consulted (v : Server) (c : Client) : List (ℕ × Rule) → List (ℕ × Rule)
  | [] => []
  | r :: rest => if r.2.verdict v c = .noMatch then r :: consulted v c rest else [r]

/-- What is found in each line, with the number of the line. -/
def numbered (find : Text → List Rule) (lines : List Text) : List (ℕ × Rule) :=
  lines.zipIdx.flatMap fun l => (find l.1).map fun r => (l.2, r)

def lineRules (file : Text) : List (ℕ × Rule) :=
  numbered (fun line => (ruleOf line).toList) (lines file)

def pieceRules (file : Text) : List (ℕ × Rule) :=
  numbered (fun line => (reads line).filterMap ruleOf) (lines file)

/-- What is asked of `CheckClient`: the first rule that decides, among those of the lines. -/
structure FirstMatch (v : Server) (c : Client) (file : Text) : Prop where
  access : checkClient v c (some file) = some (decision v c ((lineRules file).map Prod.snd))
  perLine : consulted v c (pieceRules file) = consulted v c (lineRules file)

/-- A line that is looked at and has nothing but blanks in front of a `|`. -/
def Blank (line : Text) : Prop :=
  (cString line).head? ≠ some '#' ∧ (accessPart (cString line)).dropWhile isSpace = []

/-- In pieces each line still has its rule and no other; where a blank stands in front of a buffer
nothing blank is trimmed in it. -/
structure Legible (v : Server) (file : Text) : Prop where
  whole : ∀ line ∈ lines file, (reads line).filterMap ruleOf = (ruleOf line).toList
  line : v.blankBeforeLine → ∀ piece ∈ reads file, ¬ Blank piece
  copy : v.blankBeforeCopy → ∀ piece ∈ reads file, ∀ r ∈ ruleOf piece, r.bare

/-! ### The pieces of the lines -/

theorem reads_nil : reads [] = [] := by
  rw [reads, if_pos rfl]

theorem reads_cons {file : Text} (h : file ≠ []) :
    reads file = (fgets 1022 file).1 :: reads (fgets 1022 file).2 := by
  rw [reads, if_neg h]

theorem fgets_line {n : ℕ} {text : Text} (rest : Text) (h : '\n' ∉ text) (hroom : text.length < n) :
    fgets n (text ++ '\n' :: rest) = (text ++ ['\n'], rest) := by
  induction n generalizing text with
  | zero => exact absurd hroom (Nat.not_lt_zero _)
  | succ n ih =>
    cases text with
    | nil => rw [List.nil_append, fgets, if_pos rfl, List.nil_append]
    | cons ch text =>
      rw [List.mem_cons, not_or] at h
      rw [List.length_cons, Nat.succ_lt_succ_iff] at hroom
      rw [List.cons_append, fgets, if_neg (Ne.symm h.1), ih h.2 hroom, List.cons_append]

theorem fgets_text {n : ℕ} {text : Text} (rest : Text) (h : '\n' ∉ text) (hroom : n ≤ text.length) :
    fgets n (text ++ rest) = (text.take n, text.drop n ++ rest) := by
  induction n generalizing text with
  | zero => rfl
  | succ n ih =>
    cases text with
    | nil => exact absurd hroom (Nat.not_succ_le_zero _)
    | cons ch text =>
      rw [List.mem_cons, not_or] at h
      rw [List.length_cons, Nat.succ_le_succ_iff] at hroom
      rw [List.cons_append, fgets, if_neg (Ne.symm h.1), ih h.2 hroom, List.take_succ_cons,
        List.drop_succ_cons]

theorem fgets_all {n : ℕ} {text : Text} (h : '\n' ∉ text) (hroom : text.length ≤ n) :
    fgets n text = (text, []) := by
  induction n generalizing text with
  | zero =>
    obtain rfl := List.length_eq_zero_iff.mp (Nat.le_zero.mp hroom)
    rfl
  | succ n ih =>
    cases text with
    | nil => rfl
    | cons ch text =>
      rw [List.mem_cons, not_or] at h
      rw [List.length_cons, Nat.succ_le_succ_iff] at hroom
      rw [fgets, if_neg (Ne.symm h.1), ih h.2 hroom]

theorem reads_append {text : Text} (rest : Text) (h : '\n' ∉ text) :
    reads (text ++ '\n' :: rest) = reads (text ++ ['\n']) ++ reads rest := by
  induction hn : text.length using Nat.strong_induction_on generalizing text with
  | _ n ih =>
    rw [reads_cons (List.append_ne_nil_of_right_ne_nil text (List.cons_ne_nil '\n' rest)),
      reads_cons (List.append_ne_nil_of_right_ne_nil text (List.cons_ne_nil '\n' []))]
    by_cases hroom : text.length < 1022
    · rw [fgets_line rest h hroom, fgets_line [] h hroom, reads_nil]
      rfl
    · have hlong : 1022 ≤ text.length := Nat.not_lt.mp hroom
      have hdrop : '\n' ∉ text.drop 1022 := fun hmem => h (List.mem_of_mem_drop hmem)
      rw [fgets_text ('\n' :: rest) h hlong, fgets_text ['\n'] h hlong]
      have hrest := ih (text.drop 1022).length (by rw [List.length_drop]; omega) hdrop rfl
      simp only [hrest, List.cons_append]

theorem lines_append {text : Text} (rest : Text) (h : '\n' ∉ text) :
    lines (text ++ '\n' :: rest) = (text ++ ['\n']) :: lines rest := by
  induction text with
  | nil => rw [List.nil_append, lines, if_pos rfl, List.nil_append]
  | cons ch text ih =>
    rw [List.mem_cons, not_or] at h
    rw [List.cons_append, lines, if_neg (Ne.symm h.1), ih h.2]
    rfl

theorem lines_text {text : Text} (h : '\n' ∉ text) (hne : text ≠ []) : lines text = [text] := by
  induction text with
  | nil => exact absurd rfl hne
  | cons ch text ih =>
    rw [List.mem_cons, not_or] at h
    rw [lines, if_neg (Ne.symm h.1)]
    cases text with
    | nil => rfl
    | cons ch' text => rw [ih h.2 (List.cons_ne_nil _ _)]

theorem file_cases (file : Text) :
    '\n' ∉ file ∨ ∃ text rest, '\n' ∉ text ∧ file = text ++ '\n' :: rest := by
  induction file with
  | nil => exact .inl List.not_mem_nil
  | cons ch file ih =>
    by_cases hch : ch = '\n'
    · exact .inr ⟨[], file, List.not_mem_nil, by rw [hch, List.nil_append]⟩
    · rcases ih with hnone | ⟨text, rest, hnone, rfl⟩
      · exact .inl fun hmem => (List.mem_cons.mp hmem).elim (fun h => hch h.symm) hnone
      · refine .inr ⟨ch :: text, rest, ?_, rfl⟩
        exact fun hmem => (List.mem_cons.mp hmem).elim (fun h => hch h.symm) hnone

theorem reads_eq (file : Text) : reads file = (lines file).flatMap reads := by
  induction hn : file.length using Nat.strong_induction_on generalizing file with
  | _ n ih =>
    rcases file_cases file with hnone | ⟨text, rest, hnone, rfl⟩
    · by_cases hfile : file = []
      · rw [hfile, reads_nil]
        rfl
      · rw [lines_text hnone hfile, List.flatMap_singleton]
    · rw [reads_append rest hnone, lines_append rest hnone, List.flatMap_cons]
      rw [← ih rest.length (by rw [← hn]; simp only [List.length_append, List.length_cons]; omega)
        rest rfl]

theorem numbered_snd (find : Text → List Rule) (ls : List Text) :
    (numbered find ls).map Prod.snd = ls.flatMap find := by
  unfold numbered
  rw [List.map_flatMap]
  simp only [List.map_map]
  have hsnd : ∀ l : Text × ℕ, (find l.1).map (Prod.snd ∘ fun r => (l.2, r)) = find l.1 := by
    intro l
    exact List.map_id _
  simp only [hsnd]
  generalize 0 = k
  induction ls generalizing k with
  | nil => rfl
  | cons l ls ih => rw [List.zipIdx_cons, List.flatMap_cons, List.flatMap_cons, ih]

theorem pieceRules_snd (file : Text) :
    (pieceRules file).map Prod.snd = (reads file).filterMap ruleOf := by
  unfold pieceRules
  rw [numbered_snd, reads_eq file, List.filterMap_flatMap]

theorem mem_numbered {find : Text → List Rule} {ls : List Text} {k i : ℕ} {r : Rule}
    (h : (i, r) ∈ (ls.zipIdx k).flatMap fun l => (find l.1).map fun r => (l.2, r)) : k ≤ i := by
  obtain ⟨l, hl, hr⟩ := List.mem_flatMap.mp h
  obtain ⟨r', -, heq⟩ := List.mem_map.mp hr
  obtain rfl : l.2 = i := congrArg Prod.fst heq
  exact List.le_snd_of_mem_zipIdx hl

theorem numbered_inj {f g : Text → List Rule} {ls : List Text} (h : numbered f ls = numbered g ls) :
    ∀ l ∈ ls, f l = g l := by
  unfold numbered at h
  generalize 0 = k at h
  induction ls generalizing k with
  | nil => exact fun l hl => absurd hl List.not_mem_nil
  | cons l ls ih =>
    have hhead : ∀ find : Text → List Rule,
        ((((l :: ls).zipIdx k).flatMap fun l => (find l.1).map fun r => (l.2, r)).filter
          (·.1 = k)).map Prod.snd = find l := by
      intro find
      rw [List.zipIdx_cons, List.flatMap_cons, List.filter_append, List.map_append]
      have hrest : ((ls.zipIdx (k + 1)).flatMap fun l => (find l.1).map fun r => (l.2, r)).filter
          (·.1 = k) = [] := by
        rw [List.filter_eq_nil_iff]
        rintro ⟨i, r⟩ hr
        have hle := mem_numbered hr
        simp only [decide_eq_true_eq]
        omega
      rw [hrest, List.map_nil, List.append_nil, List.filter_map, List.map_map]
      have hall : (find l).filter ((fun r : ℕ × Rule => decide (r.1 = k)) ∘ fun r => (k, r)) =
          find l := List.filter_eq_self.mpr fun r _ => decide_eq_true rfl
      rw [hall]
      exact List.map_id _
    have htail : ∀ find : Text → List Rule,
        (((l :: ls).zipIdx k).flatMap fun l => (find l.1).map fun r => (l.2, r)).drop
          (find l).length = (ls.zipIdx (k + 1)).flatMap fun l => (find l.1).map fun r => (l.2, r) := by
      intro find
      rw [List.zipIdx_cons, List.flatMap_cons]
      exact List.drop_left' (List.length_map ..)
    have hl : f l = g l := by rw [← hhead f, ← hhead g, h]
    intro l' hl'
    rcases List.mem_cons.mp hl' with rfl | hmem
    · exact hl
    · refine ih (k + 1) ?_ l' hmem
      rw [← htail f, ← htail g, h, hl]

/-! ### What is made of a piece -/

theorem filterString_eq {blankBefore : Bool} {s : Text} (upcase : Bool)
    (h : ¬ (s.dropWhile isSpace = [] ∧ blankBefore)) :
    filterString blankBefore upcase s =
      some (if upcase then (trim s).map Char.toUpper else trim s) := by
  unfold filterString
  rw [if_neg h]

theorem filterString_false (upcase : Bool) (s : Text) :
    filterString false upcase s =
      some (if upcase then (trim s).map Char.toUpper else trim s) :=
  filterString_eq upcase fun h => Bool.false_ne_true h.2

theorem treatLine_blank {v : Server} (c : Client) {piece : Text} (h : Blank piece)
    (hbefore : v.blankBeforeLine) : treatLine v c (cString piece) = none := by
  unfold treatLine filterString
  rw [if_neg h.1, if_pos ⟨h.2, hbefore⟩]
  rfl

theorem deny_eq (v : Server) (c : Client) (rest : Text) (user : Option Text) :
    (if rest = [] then some (if c.username.isSome then Access.denied else .noMatch)
      else tryMatches v c ⟨true, rest, user⟩ c.matchStrings) =
    if Rule.bare ⟨true, rest, user⟩ then some (Rule.verdict v c ⟨true, rest, user⟩)
    else tryMatches v c ⟨true, rest, user⟩ c.matchStrings := by
  unfold Rule.verdict
  by_cases hrest : rest = []
  · have hbare : Rule.bare ⟨true, rest, user⟩ = true := decide_eq_true ⟨rfl, hrest⟩
    rw [if_pos hrest, if_pos hbare, if_pos hbare]
  · have hbare : ¬ Rule.bare ⟨true, rest, user⟩ = true := by
      simp only [Rule.bare, hrest, and_false, decide_false, Bool.false_eq_true, not_false_eq_true]
    rw [if_neg hrest, if_neg hbare]

theorem treatLine_eq {v : Server} (c : Client) {piece : Text}
    (h : ¬ (Blank piece ∧ v.blankBeforeLine)) :
    treatLine v c (cString piece) =
      (ruleOf piece).elim (some .noMatch) fun r =>
        if r.bare then some (r.verdict v c) else tryMatches v c r c.matchStrings := by
  unfold treatLine ruleOf
  by_cases hcomment : (cString piece).head? = some '#'
  · rw [if_pos hcomment, if_pos (.inl hcomment)]
    rfl
  · have hinside : ¬ ((accessPart (cString piece)).dropWhile isSpace = [] ∧ v.blankBeforeLine) :=
      fun hb => h ⟨⟨hcomment, hb.1⟩, hb.2⟩
    rw [if_neg hcomment, filterString_eq true hinside]
    simp only [if_true, Option.bind_eq_bind, Option.bind_some]
    by_cases hempty : (trim (accessPart (cString piece))).map Char.toUpper = []
    · rw [if_pos hempty, if_pos (.inr hempty)]
      rfl
    · rw [if_neg hempty, if_neg (not_or.mpr ⟨hcomment, hempty⟩)]
      by_cases hdeny : ((trim (accessPart (cString piece))).map Char.toUpper).head? = some '!'
      · rw [if_pos hdeny, if_pos hdeny, filterString_false, Option.elim_some]
        exact deny_eq v c _ _
      · rw [if_neg hdeny, if_neg hdeny]
        simp [Rule.bare]

theorem tryMatches_eq {v : Server} (c : Client) (r : Rule) (h : ¬ v.blankBeforeCopy)
    (ms : List Text) :
    tryMatches v c r ms =
      some (((ms.map fun m => tryMatch v c r ((trim m).map Char.toUpper)).find?
        (· ≠ .noMatch)).getD .noMatch) := by
  induction ms with
  | nil => rfl
  | cons m ms ih =>
    rw [tryMatches, filterString_eq true (fun hb => h hb.2), ih]
    simp only [if_true, Option.bind_eq_bind, Option.bind_some, List.map_cons]
    by_cases hm : tryMatch v c r ((trim m).map Char.toUpper) = .noMatch
    · rw [if_pos hm, List.find?_cons_of_neg (by simpa using hm)]
    · rw [if_neg hm, List.find?_cons_of_pos (by simpa using hm)]
      rfl

theorem treatLine_legible {v : Server} (c : Client) {piece : Text}
    (hline : v.blankBeforeLine → ¬ Blank piece)
    (hcopy : v.blankBeforeCopy → ∀ r ∈ ruleOf piece, r.bare) :
    treatLine v c (cString piece) = some ((ruleOf piece).elim .noMatch (Rule.verdict v c)) := by
  rw [treatLine_eq c fun hb => hline hb.2 hb.1]
  cases hrule : ruleOf piece with
  | none => rfl
  | some r =>
    rw [Option.elim_some, Option.elim_some]
    split
    · rfl
    · rename_i hbare
      rw [tryMatches_eq c r fun hbefore => hbare (hcopy hbefore r hrule)]
      unfold Rule.verdict
      rw [if_neg hbare]

theorem readLoop_eq {v : Server} {c : Client} {pieces : List Text}
    (h : ∀ piece ∈ pieces,
      treatLine v c (cString piece) = some ((ruleOf piece).elim .noMatch (Rule.verdict v c))) :
    readLoop v c pieces = some (decision v c (pieces.filterMap ruleOf)) := by
  induction pieces with
  | nil => rfl
  | cons piece pieces ih =>
    have hrest := ih fun p hp => h p (List.mem_cons_of_mem _ hp)
    rw [readLoop, h piece (List.mem_cons_self ..), hrest]
    unfold decision
    cases hrule : ruleOf piece with
    | none => rw [List.filterMap_cons_none hrule]; rfl
    | some r =>
      rw [List.filterMap_cons_some hrule]
      simp only [Option.bind_eq_bind, Option.bind_some, Option.elim_some, List.map_cons]
      by_cases hr : r.verdict v c = .noMatch
      · rw [if_pos hr, List.find?_cons_of_neg (by simpa using hr)]
      · rw [if_neg hr, List.find?_cons_of_pos (by simpa using hr)]
        rfl

theorem readLoop_none {v : Server} {c : Client} {pieces : List Text} {piece : Text}
    (hmem : piece ∈ pieces) (hnone : treatLine v c (cString piece) = none)
    (hothers : ∀ p ∈ pieces,
      treatLine v c (cString p) = none ∨ treatLine v c (cString p) = some .noMatch) :
    readLoop v c pieces = none := by
  induction pieces with
  | nil => exact absurd hmem List.not_mem_nil
  | cons p pieces ih =>
    rw [readLoop]
    rcases hothers p (List.mem_cons_self ..) with hp | hp
    · rw [hp]
      rfl
    · rw [hp]
      rcases List.mem_cons.mp hmem with rfl | hmem
      · rw [hp] at hnone
        cases hnone
      · exact ih hmem fun q hq => hothers q (List.mem_cons_of_mem _ hq)

/-! ### The file as a whole -/

theorem firstMatch_of_legible {v : Server} {file : Text} (h : Legible v file) (c : Client) :
    FirstMatch v c file := by
  have hrules : pieceRules file = lineRules file := by
    unfold pieceRules lineRules numbered
    refine List.flatMap_congr fun l hl => ?_
    simp only [h.whole l.1 (List.fst_mem_of_mem_zipIdx hl)]
  constructor
  case access =>
    rw [checkClient, readLoop_eq, ← pieceRules_snd, hrules]
    intro piece hpiece
    exact treatLine_legible c (fun hb => h.line hb piece hpiece) fun hb => h.copy hb piece hpiece
  case perLine => rw [hrules]

theorem consulted_all {v : Server} {c : Client} (h : ∀ r, Rule.verdict v c r = .noMatch)
    (rules : List (ℕ × Rule)) : consulted v c rules = rules := by
  induction rules with
  | nil => rfl
  | cons r rules ih => rw [consulted, if_pos (h r.2), ih]

/-- Somebody without a name. -/
def nobody (matchStrings : List Text) : Client := ⟨none, matchStrings, fun _ _ => .noMatch⟩

theorem verdict_nobody (v : Server) (r : Rule) : r.verdict v (nobody []) = .noMatch := by
  unfold Rule.verdict
  split <;> rfl

theorem treatLine_nobody (v : Server) (piece : Text) :
    treatLine v (nobody []) (cString piece) = none ∨
      treatLine v (nobody []) (cString piece) = some .noMatch := by
  by_cases hb : Blank piece ∧ v.blankBeforeLine
  · exact .inl (treatLine_blank _ hb.1 hb.2)
  · right
    rw [treatLine_eq _ hb]
    cases ruleOf piece with
    | none => rfl
    | some r =>
      rw [Option.elim_some, verdict_nobody]
      split <;> rfl

theorem treatLine_empty {v : Server} (hbefore : v.blankBeforeCopy) (piece : Text) :
    treatLine v (nobody [[]]) (cString piece) = none ∨
      treatLine v (nobody [[]]) (cString piece) = some .noMatch ∧ ∀ r ∈ ruleOf piece, r.bare := by
  by_cases hb : Blank piece ∧ v.blankBeforeLine
  · exact .inl (treatLine_blank _ hb.1 hb.2)
  · rw [treatLine_eq _ hb]
    cases ruleOf piece with
    | none => exact .inr ⟨rfl, fun r hr => absurd hr nofun⟩
    | some r =>
      rw [Option.elim_some]
      split
      · rename_i hbare
        refine .inr ⟨?_, fun r' hr' => Option.some.inj hr' ▸ hbare⟩
        unfold Rule.verdict
        rw [if_pos hbare]
        rfl
      · left
        have hnil : filterString v.blankBeforeCopy true [] = none := if_pos ⟨rfl, hbefore⟩
        change tryMatches v (nobody [[]]) r [[]] = none
        rw [tryMatches, hnil]
        rfl

theorem legible_of_firstMatch {v : Server} {file : Text} (h : ∀ c, FirstMatch v c file) :
    Legible v file := by
  have haccess : ∀ c, readLoop v c (reads file) ≠ none := by
    intro c hnone
    have hsome := (h c).access
    rw [checkClient, hnone] at hsome
    cases hsome
  constructor
  case whole =>
    have hall := (h (nobody [])).perLine
    rw [consulted_all (verdict_nobody v), consulted_all (verdict_nobody v)] at hall
    exact numbered_inj hall
  case line =>
    intro hbefore piece hpiece hblank
    exact haccess _ (readLoop_none hpiece (treatLine_blank (nobody []) hblank hbefore)
      fun p _ => treatLine_nobody v p)
  case copy =>
    intro hbefore piece hpiece r hr
    rcases treatLine_empty hbefore piece with hnone | ⟨-, hbare⟩
    · refine absurd (readLoop_none hpiece hnone fun p _ => ?_) (haccess _)
      exact (treatLine_empty hbefore p).imp_right And.left
    · exact hbare r hr

/-- The first rule that decides is found, whoever asks, exactly when the lines of the file keep
their rules in the pieces that are read. -/
theorem firstMatch_iff (v : Server) (file : Text) : (∀ c, FirstMatch v c file) ↔ Legible v file :=
  ⟨legible_of_firstMatch, firstMatch_of_legible⟩

/-- A comment that is longer than the buffer for a line. -/
def longComment : Text :=
  ('#' :: List.replicate 1021 'x') ++ ['*', '|', 'S', 'E', 'L', 'F']

theorem reads_longComment :
    reads longComment = ['#' :: List.replicate 1021 'x', ['*', '|', 'S', 'E', 'L', 'F']] := by
  have hnone : '\n' ∉ '#' :: List.replicate 1021 'x' := by
    simp only [List.mem_cons, List.mem_replicate, not_or, not_and]
    exact ⟨by decide, fun _ => by decide⟩
  have hlen : ('#' :: List.replicate 1021 'x').length = 1022 := by
    rw [List.length_cons, List.length_replicate]
  rw [longComment, reads_cons (List.append_ne_nil_of_right_ne_nil _ (List.cons_ne_nil _ _)),
    fgets_text _ hnone hlen.ge,
    List.take_of_length_le hlen.le, List.drop_of_length_le hlen.le, List.nil_append,
    reads_cons (List.cons_ne_nil _ _), fgets_all (by decide) (by decide), reads_nil]

/-- The end of a long comment lets everybody in. -/
theorem longComment_grants : ¬ ∀ v c file, FirstMatch v c file := by
  intro hall
  have haccess := (hall ⟨false, fun _ p => p = ['*'], false, false⟩
    ⟨some ['x'], [['x', '@', 'h']], fun _ _ => .granted⟩ longComment).access
  have hnone : '\n' ∉ longComment := by
    simp only [longComment, List.mem_append, List.mem_cons, List.mem_replicate, not_or, not_and]
    exact ⟨⟨by decide, fun _ => by decide⟩, by decide⟩
  have hrules : lineRules longComment = [] := by
    unfold lineRules
    rw [lines_text hnone (List.cons_ne_nil _ _)]
    rfl
  rw [hrules, checkClient, reads_longComment] at haccess
  cases haccess

end MdsPlus.HostFiles
