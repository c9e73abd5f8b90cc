import MdsPlus.TextTokens

/-!
The rules of the lexer of expressions. Of all rules the one that takes the most bytes is used, and
the first of those that take as many.
-/

namespace MdsPlus.ExpressionTokens

open BitMemory (Byte)

abbrev Text := List Byte

def IsBlank (c : Byte) : Bool := c = 32 || c = 9

def IsWhite (c : Byte) : Bool := c = 32 || c = 9 || c = 13 || c = 10 || c = 12

def IsDigit (c : Byte) : Bool := 48 ≤ c && c ≤ 57

def IsAlpha (c : Byte) : Bool := 65 ≤ c && c ≤ 90 || 97 ≤ c && c ≤ 122

def IsAlnum (c : Byte) : Bool := IsAlpha c || IsDigit c

def IsAnum (c : Byte) : Bool := IsAlnum c || c = 95 || c = 36

def StartsIdent (c : Byte) : Bool := IsAlpha c || c = 36 || c = 95

/-- The letters DEFGHSTV and defghstv. -/
def IsExponent (c : Byte) : Bool :=
  68 ≤ c && c ≤ 72 || 83 ≤ c && c ≤ 84 || c = 86 ||
    100 ≤ c && c ≤ 104 || 115 ≤ c && c ≤ 116 || c = 118

/-! ### Patterns -/

/-- How many bytes in front are of a kind. -/
def run (p : Byte → Bool) (text : Text) : ℕ := (text.takeWhile p).length

/-- Up to the first asterisk that has a slash behind it. -/
def commentEnd : Text → Option ℕ
  | 42 :: 47 :: _ => some 2
  | _ :: rest => (commentEnd rest).map (· + 1)
  | [] => none

/-- Up to the first quote that no backslash takes; none takes the end of a line. -/
def quoteEnd (quote : Byte) : Text → Option ℕ
  | [] => none
  | [c] => if c = quote then some 1 else none
  | c :: d :: rest =>
      if c = quote then some 1
      else if c = 92 then
        if d = 10 then none else (quoteEnd quote rest).map (· + 2)
      else (quoteEnd quote (d :: rest)).map (· + 1)

def identEnd : Text → Option ℕ
  | [] => none
  | c :: rest => if StartsIdent c then some (run IsAnum rest + 1) else none

def intEnd : Text → Option ℕ
  | [] => none
  | c :: rest => if IsDigit c then some (run IsAlnum rest + 1) else none

def digitsEnd (text : Text) : Option ℕ := if run IsDigit text = 0 then none else some (run IsDigit text)

def exponentEnd : Text → Option ℕ
  | [] => none
  | c :: rest =>
      if IsExponent c then
        match rest with
        | [] => none
        | d :: more =>
            if d = 43 ∨ d = 45 then (digitsEnd more).map (· + 2)
            else (digitsEnd (d :: more)).map (· + 1)
      else none

def dotEnd : Text → Option ℕ
  | 46 :: _ => some 1
  | _ => none

def seq (first second : Text → Option ℕ) (text : Text) : Option ℕ := do
  let n ← first text
  let m ← second (text.drop n)
  return n + m

def optional (p : Text → Option ℕ) (text : Text) : Option ℕ := some ((p text).getD 0)

def either (p q : Text → Option ℕ) (text : Text) : Option ℕ :=
  match p text, q text with
  | some n, some m => some (max n m)
  | some n, none => some n
  | none, r => r

def many (p : Text → Option ℕ) : ℕ → Text → ℕ
  | 0, _ => 0
  | fuel + 1, text =>
      match p text with
      | some n => n + many p fuel (text.drop n)
      | none => 0

def repeated (p : Text → Option ℕ) (text : Text) : Option ℕ := some (many p text.length text)

def byteEnd (c : Byte) : Text → Option ℕ
  | [] => none
  | d :: _ => if d = c then some 1 else none

def f3 : Text → Option ℕ := seq (optional dotEnd) (seq digitsEnd exponentEnd)

def f2 : Text → Option ℕ := seq digitsEnd (seq dotEnd (seq (optional digitsEnd) exponentEnd))

def f1 : Text → Option ℕ := seq (optional digitsEnd) (seq dotEnd digitsEnd)

def f0 : Text → Option ℕ := seq digitsEnd dotEnd

def floatEnd : Text → Option ℕ := either f0 (either f1 (either f2 f3))

def separatorEnd : Text → Option ℕ := either dotEnd (byteEnd 58)

/-- From the top, from the node or a tag of it, or up the tree. -/
def originEnd : Text → Option ℕ :=
  either (either identEnd (seq separatorEnd identEnd))
    (either
      (either (seq (byteEnd 92) identEnd)
        (seq (byteEnd 92) (seq identEnd (seq (byteEnd 58) (seq (byteEnd 58) identEnd)))))
      (seq dotEnd (seq (byteEnd 45) (repeated (seq (optional dotEnd) (byteEnd 45))))))

def pathEnd : Text → Option ℕ := seq originEnd (repeated (seq separatorEnd identEnd))

def libcallEnd : Text → Option ℕ :=
  seq (byteEnd 45) (seq (byteEnd 62)
    (seq (fun text => if run IsAnum text = 0 then none else some (run IsAnum text))
      (seq (optional (seq (byteEnd 35) intEnd))
        (optional (either (byteEnd 58) (seq dotEnd dotEnd))))))

inductive Pattern
  /-- The bytes themselves. -/
  | lit (head : Text)
  /-- Bytes with blanks behind them. -/
  | blanks (head : Text)
  /-- Bytes, so many blanks or more, and an equals sign. -/
  | assign (head : Text) (least : ℕ)
  | comment
  | quoted (quote : Byte)
  | white
  | float
  | int
  | ident
  | path
  | libcall
  | any
deriving DecidableEq

/-- How many bytes a pattern takes at most. -/
def Pattern.scan : Pattern → Text → Option ℕ
  | .lit head, text => (head.isPrefixOf? text).map fun _ => head.length
  | .blanks head, text => (head.isPrefixOf? text).map fun rest => head.length + run IsBlank rest
  | .assign head least, text => do
      let rest ← head.isPrefixOf? text
      if least ≤ run IsBlank rest ∧ (rest.drop (run IsBlank rest)).head? = some 61 then
        some (head.length + run IsBlank rest + 1)
      else none
  | .comment, text => do
      let rest ← [47, 42].isPrefixOf? text
      (commentEnd rest).map (· + 2)
  | .quoted _, [] => none
  | .quoted quote, c :: rest => if c = quote then (quoteEnd quote rest).map (· + 1) else none
  | .white, text => if run IsWhite text = 0 then none else some (run IsWhite text)
  | .float, text => floatEnd text
  | .int, text => intEnd text
  | .ident, text => identEnd text
  | .path, text => pathEnd text
  | .libcall, text => libcallEnd text
  | .any, [] => none
  | .any, c :: _ => if c = 10 then none else some 1

/-- Which bytes a pattern may begin with. -/
def Pattern.starts : Pattern → Byte → Bool
  | .lit head, c => head.head?.getD c = c
  | .blanks head, c => head.head?.getD c = c
  | .assign head _, c => head.head?.getD c = c
  | .comment, c => c = 47
  | .quoted quote, c => c = quote
  | .white, c => IsWhite c
  | .float, c => IsDigit c || c = 46
  | .int, c => IsDigit c
  | .ident, c => StartsIdent c
  | .path, c => StartsIdent c || c = 92 || c = 46 || c = 58
  | .libcall, c => c = 45
  | .any, c => c ≠ 10

/-! ### Rules -/

inductive Token
  | bineq | lges | leqs | shift | lors | lands | power | concat | inc | range | unarys | promo
  | iand | add | ior | mul
deriving DecidableEq

inductive Opcode
  | le | ge | eq | ne | or | and | power | concat | shiftLeft | shiftRight | preInc | preDec
  | dtypeRange | not | inot | promote | iand | add | subtract | lt | gt | ior | divide | mod
  | multiply
deriving DecidableEq

inductive Action
  | skip
  | unbalance
  | text
  | op (token : Token) (opcode : Opcode)
  | char
  | opens (bracket : Fin 3)
  | closes (bracket : Fin 3)
  | float
  | int
  | ident
  | path
  | libcall
deriving DecidableEq

instance neZero_brackets : NeZero 3 := ⟨by decide⟩

def rules : List (Pattern × Action) :=
  [(.comment, .skip),
   (.lit [47, 42], .unbalance),
   (.quoted 39, .text),
   (.lit [39], .unbalance),
   (.quoted 34, .text),
   (.lit [34], .unbalance),
   (.white, .skip),
   -- <= >= == != <>
   (.assign [60, 61] 0, .op .bineq .le),
   (.assign [62, 61] 0, .op .bineq .ge),
   (.assign [61, 61] 0, .op .bineq .eq),
   (.assign [33, 61] 0, .op .bineq .ne),
   (.assign [60, 62] 0, .op .bineq .ne),
   (.blanks [60, 61], .op .lges .le),
   (.blanks [62, 61], .op .lges .ge),
   (.blanks [61, 61], .op .lges .eq),
   (.blanks [33, 61], .op .leqs .ne),
   (.blanks [60, 62], .op .leqs .ne),
   -- << >> || && ** //
   (.assign [60, 60] 0, .op .bineq .le),
   (.assign [62, 62] 0, .op .bineq .ge),
   (.assign [124, 124] 0, .op .bineq .or),
   (.assign [38, 38] 0, .op .bineq .and),
   (.assign [42, 42] 0, .op .bineq .power),
   (.assign [47, 47] 0, .op .bineq .concat),
   (.blanks [60, 60], .op .shift .shiftLeft),
   (.blanks [62, 62], .op .shift .shiftRight),
   (.blanks [124, 124], .op .lors .or),
   (.blanks [38, 38], .op .lands .and),
   (.blanks [42, 42], .op .power .power),
   (.blanks [47, 47], .op .concat .concat),
   -- ++ -- .. : ! ~ @
   (.lit [43, 43], .op .inc .preInc),
   (.lit [45, 45], .op .inc .preDec),
   (.lit [46, 46], .op .range .dtypeRange),
   (.lit [58], .op .range .dtypeRange),
   (.lit [33], .op .unarys .not),
   (.lit [126], .op .unarys .inot),
   (.lit [64], .op .promo .promote),
   -- & + - < > ^ |
   (.assign [38] 0, .op .bineq .iand),
   (.assign [43] 0, .op .bineq .add),
   (.assign [45] 0, .op .bineq .subtract),
   (.assign [60] 1, .op .bineq .lt),
   (.assign [62] 1, .op .bineq .gt),
   (.assign [94] 0, .op .bineq .power),
   (.assign [124] 0, .op .bineq .ior),
   -- / % *
   (.assign [47] 0, .op .bineq .divide),
   (.assign [37] 0, .op .bineq .mod),
   (.assign [42] 0, .op .bineq .multiply),
   (.blanks [38], .op .iand .iand),
   (.blanks [43], .op .add .add),
   (.blanks [45], .op .add .subtract),
   (.blanks [60], .op .lges .lt),
   (.blanks [62], .op .lges .gt),
   (.blanks [94], .op .power .power),
   (.blanks [124], .op .ior .ior),
   (.blanks [47], .op .mul .divide),
   (.blanks [37], .op .mul .mod),
   (.blanks [42], .char),
   -- ( ) [ ] and the braces
   (.lit [40], .opens 0),
   (.lit [41], .closes 0),
   (.lit [91], .opens 1),
   (.lit [93], .closes 1),
   (.lit [123], .opens 2),
   (.lit [125], .closes 2),
   (.float, .float),
   (.int, .int),
   (.ident, .ident),
   (.path, .path),
   (.libcall, .libcall),
   (.any, .char)]

/-- The longest match of all rules, the first of them where several are as long. -/
def best : List (Pattern × Action) → Text → Option (ℕ × Action)
  | [], _ => none
  | (p, a) :: rs, text =>
      match p.scan text, best rs text with
      | none, r => r
      | some n, none => some (n, a)
      | some n, some (m, b) => if m ≤ n then some (n, a) else some (m, b)

abbrev Lexeme := Action × Text

/-- Brackets that are open, for each of the three kinds. -/
abbrev Balance := Fin 3 → ℕ

/-- The lexemes of a text, with a semicolon behind the last one, or `none` when a comment, a quote
or a bracket is not closed. -/
def lexemes : ℕ → Balance → Text → Option (List Lexeme)
  | _, open_, [] => if ∀ k, open_ k = 0 then some [(.char, [59])] else none
  | 0, _, _ :: _ => none
  | fuel + 1, open_, c :: cs =>
      match best rules (c :: cs) with
      | none => none
      | some (n, a) =>
          let rest := (c :: cs).drop n
          let found := (a, (c :: cs).take n)
          match a with
          | .skip => lexemes fuel open_ rest
          | .unbalance => none
          | .opens k =>
              (lexemes fuel (Function.update open_ k (open_ k + 1)) rest).map (found :: ·)
          | .closes k =>
              if open_ k = 0 then none
              else (lexemes fuel (Function.update open_ k (open_ k - 1)) rest).map (found :: ·)
          | _ => (lexemes fuel open_ rest).map (found :: ·)

/-! ### The rules for a byte -/

variable {p : Pattern} {c : Byte} {cs rest : Text} {n : ℕ} {a : Action}

theorem isPrefixOf?_none {head : Text} (h : head.head?.getD c ≠ c) :
    head.isPrefixOf? (c :: cs) = none := by
  cases head with
  | nil => exact absurd rfl h
  | cons d ds =>
    have hd : (d == c) = false := beq_false_of_ne h
    rw [List.isPrefixOf?, hd]
    rfl

theorem run_none {q : Byte → Bool} (h : q c = false) : run q (c :: cs) = 0 := by
  rw [run, List.takeWhile_cons, h]
  rfl

theorem digitsEnd_none (h : IsDigit c = false) : digitsEnd (c :: cs) = none :=
  if_pos (run_none h)

theorem dotEnd_none (h : c ≠ 46) : dotEnd (c :: cs) = none := by
  apply dotEnd.eq_2
  intro rest heq
  exact h (List.cons.inj heq).1

theorem seq_none {f g : Text → Option ℕ} {text : Text} (h : f text = none) :
    seq f g text = none := by
  rw [seq, h]
  rfl

theorem optional_none {f : Text → Option ℕ} {text : Text} (h : f text = none) :
    optional f text = some 0 := by
  rw [optional, h]
  rfl

theorem seq_optional {f g : Text → Option ℕ} {text : Text} (h : f text = none) :
    seq (optional f) g text = g text := by
  rw [seq, optional_none h]
  cases hg : g text with
  | none => simp [hg]
  | some n => simp [hg]

theorem either_none {f g : Text → Option ℕ} {text : Text} (hf : f text = none) :
    either f g text = g text := by
  rw [either, hf]

theorem floatEnd_none (hdigit : IsDigit c = false) (hdot : c ≠ 46) :
    floatEnd (c :: cs) = none := by
  have hdigits := @digitsEnd_none c cs hdigit
  have hdots := @dotEnd_none c cs hdot
  have h1 : f1 (c :: cs) = none := by
    rw [f1, seq_optional hdigits]
    exact seq_none hdots
  have h3 : f3 (c :: cs) = none := by
    rw [f3, seq_optional hdots]
    exact seq_none hdigits
  have h0 : f0 (c :: cs) = none := seq_none hdigits
  have h2 : f2 (c :: cs) = none := seq_none hdigits
  rw [floatEnd, either_none h0, either_none h1, either_none h2, h3]

theorem identEnd_none (h : StartsIdent c = false) : identEnd (c :: cs) = none := by
  rw [identEnd, h]
  rfl

theorem byteEnd_none {d : Byte} (h : c ≠ d) : byteEnd d (c :: cs) = none := if_neg h

theorem pathEnd_none (hident : StartsIdent c = false) (hback : c ≠ 92) (hdot : c ≠ 46)
    (hcolon : c ≠ 58) : pathEnd (c :: cs) = none := by
  have hsep : separatorEnd (c :: cs) = none := by
    rw [separatorEnd, either_none (dotEnd_none hdot)]
    exact byteEnd_none hcolon
  have hbyte : byteEnd 92 (c :: cs) = none := byteEnd_none hback
  have hnode : either identEnd (seq separatorEnd identEnd) (c :: cs) = none := by
    rw [either_none (identEnd_none hident)]
    exact seq_none hsep
  have htag : either (seq (byteEnd 92) identEnd)
      (seq (byteEnd 92) (seq identEnd (seq (byteEnd 58) (seq (byteEnd 58) identEnd)))) (c :: cs) =
        none := by
    rw [either_none (seq_none hbyte)]
    exact seq_none hbyte
  apply seq_none
  rw [originEnd, either_none hnode, either_none htag]
  exact seq_none (dotEnd_none hdot)

theorem scan_none (h : p.starts c = false) : p.scan (c :: cs) = none := by
  cases p with
  | lit head =>
    rw [Pattern.scan, isPrefixOf?_none (of_decide_eq_false h)]
    rfl
  | blanks head =>
    rw [Pattern.scan, isPrefixOf?_none (of_decide_eq_false h)]
    rfl
  | assign head least =>
    rw [Pattern.scan, isPrefixOf?_none (of_decide_eq_false h)]
    rfl
  | comment =>
    have hne : c ≠ 47 := of_decide_eq_false h
    have hfirst : ([47, 42] : Text).head?.getD c ≠ c := hne.symm
    rw [Pattern.scan, isPrefixOf?_none hfirst]
    rfl
  | quoted quote => exact if_neg (of_decide_eq_false h)
  | white => exact if_pos (run_none h)
  | float =>
    obtain ⟨hdigit, hdot⟩ := Bool.or_eq_false_iff.1 h
    exact floatEnd_none hdigit (of_decide_eq_false hdot)
  | int =>
    rw [Pattern.scan, intEnd, show IsDigit c = false from h]
    rfl
  | ident => exact identEnd_none h
  | path =>
    obtain ⟨h, hcolon⟩ := Bool.or_eq_false_iff.1 h
    obtain ⟨h, hdot⟩ := Bool.or_eq_false_iff.1 h
    obtain ⟨hident, hback⟩ := Bool.or_eq_false_iff.1 h
    exact pathEnd_none hident (of_decide_eq_false hback) (of_decide_eq_false hdot)
      (of_decide_eq_false hcolon)
  | libcall => exact seq_none (byteEnd_none (of_decide_eq_false h))
  | any =>
    have heq : c = 10 := not_not.1 (of_decide_eq_false h)
    exact if_pos heq

theorem best_filter (rs : List (Pattern × Action)) :
    best rs (c :: cs) = best (rs.filter fun r => r.1.starts c) (c :: cs) := by
  induction rs with
  | nil => rfl
  | cons r rs ih =>
    obtain ⟨p, a⟩ := r
    by_cases hstarts : p.starts c = true
    · have hfilter := @List.filter_cons_of_pos _ (fun r : Pattern × Action => r.1.starts c) (p, a)
        rs hstarts
      rw [hfilter, best, best, ih]
    · have hfilter := @List.filter_cons_of_neg _ (fun r : Pattern × Action => r.1.starts c) (p, a)
        rs hstarts
      have hscan := @scan_none p c cs (eq_false_of_ne_true hstarts)
      rw [hfilter, best, hscan, ih]

/-! ### Lexemes -/

/-- Actions that neither skip the bytes nor stop, nor are for a bracket. -/
def Action.plain : Action → Bool
  | .skip | .unbalance | .opens _ | .closes _ => false
  | _ => true

variable {fuel : ℕ} {open_ : Balance} {text piece : Text} {ls : List Lexeme}

/-- The text is taken apart into these lexemes, with so many turns as it has bytes at most. -/
def Lexed (open_ : Balance) (text : Text) (ls : List Lexeme) : Prop :=
  ∀ fuel ≥ text.length, lexemes fuel open_ text = some ls

theorem lexed_nil (h : ∀ k, open_ k = 0) : Lexed open_ [] [(.char, [59])] := by
  intro fuel _
  rw [lexemes, if_pos h]

theorem lexed_plain (hpiece : piece ≠ []) (hplain : a.plain = true)
    (h : best rules (piece ++ rest) = some (piece.length, a)) (hrest : Lexed open_ rest ls) :
    Lexed open_ (piece ++ rest) ((a, piece) :: ls) := by
  intro fuel hfuel
  obtain ⟨c, cs, rfl⟩ := List.exists_cons_of_ne_nil hpiece
  rw [List.cons_append, List.length_cons, List.length_append] at hfuel
  obtain ⟨n, rfl⟩ := Nat.exists_eq_add_of_le' (Nat.one_le_of_lt hfuel)
  rw [List.cons_append] at h ⊢
  have htake : (c :: (cs ++ rest)).take (c :: cs).length = c :: cs :=
    @List.take_left _ (c :: cs) rest
  have hdrop : (c :: (cs ++ rest)).drop (c :: cs).length = rest :=
    @List.drop_left _ (c :: cs) rest
  have hmore := hrest n (by omega)
  rw [lexemes, h]
  simp only [htake, hdrop]
  cases a with
  | skip | unbalance | opens | closes => cases hplain
  | _ => simp only [hmore, Option.map_some]

theorem lexed_opens {k : Fin 3} (h : best rules (c :: rest) = some (1, .opens k))
    (hrest : Lexed (Function.update open_ k (open_ k + 1)) rest ls) :
    Lexed open_ (c :: rest) ((.opens k, [c]) :: ls) := by
  intro fuel hfuel
  rw [List.length_cons] at hfuel
  obtain ⟨n, rfl⟩ := Nat.exists_eq_add_of_le' (Nat.one_le_of_lt hfuel)
  rw [lexemes, h]
  simp only [List.drop_one, List.tail_cons, hrest n (by omega)]
  rfl

theorem lexed_closes {k : Fin 3} (h : best rules (c :: rest) = some (1, .closes k))
    (hopen : open_ k ≠ 0) (hrest : Lexed (Function.update open_ k (open_ k - 1)) rest ls) :
    Lexed open_ (c :: rest) ((.closes k, [c]) :: ls) := by
  intro fuel hfuel
  rw [List.length_cons] at hfuel
  obtain ⟨n, rfl⟩ := Nat.exists_eq_add_of_le' (Nat.one_le_of_lt hfuel)
  rw [lexemes, h]
  simp only [List.drop_one, List.tail_cons, if_neg hopen, hrest n (by omega)]
  rfl

/-- What follows a number or a name ends it. -/
def Ends (p : Byte → Bool) (text : Text) : Prop := ∀ c ∈ text.head?, p c = false

theorem run_append {q : Byte → Bool} (hall : ∀ c ∈ piece, q c = true) (hends : Ends q rest) :
    run q (piece ++ rest) = piece.length := by
  have htake : rest.takeWhile q = [] := by
    cases rest with
    | nil => rfl
    | cons c cs => rw [List.takeWhile_cons, hends c rfl]; rfl
  rw [run, List.takeWhile_append_of_pos hall, htake, List.append_nil]

theorem best_comma : best rules (44 :: rest) = some (1, .char) := by
  rw [best_filter]
  rfl

theorem best_opens : best rules (40 :: rest) = some (1, .opens 0) := by
  rw [best_filter]
  rfl

theorem best_closes : best rules (41 :: rest) = some (1, .closes 0) := by
  rw [best_filter]
  rfl

theorem isPrefixOf?_append (head rest : Text) : head.isPrefixOf? (head ++ rest) = some rest := by
  induction head with
  | nil => rfl
  | cons d ds ih =>
    rw [List.cons_append, List.isPrefixOf?, if_pos (beq_self_eq_true d)]
    exact ih

theorem scan_blanks (head rest : Text) :
    (Pattern.blanks head).scan (head ++ rest) = some (head.length + run IsBlank rest) := by
  rw [Pattern.scan, isPrefixOf?_append]
  rfl

theorem scan_assign (head rest : Text) (least : ℕ) :
    (Pattern.assign head least).scan (head ++ rest) =
      if least ≤ run IsBlank rest ∧ (rest.drop (run IsBlank rest)).head? = some 61 then
        some (head.length + run IsBlank rest + 1)
      else none := by
  rw [Pattern.scan, isPrefixOf?_append]
  rfl

theorem assign_none {head : Text} {least : ℕ} {d : Byte} (hblank : IsBlank d = false)
    (hequals : d ≠ 61) : (Pattern.assign head least).scan (head ++ d :: rest) = none := by
  rw [scan_assign, run_none hblank]
  exact if_neg fun h => hequals (Option.some.inj h.2)

theorem blanks_alone {head : Text} {d : Byte} (hblank : IsBlank d = false) :
    (Pattern.blanks head).scan (head ++ d :: rest) = some head.length := by
  rw [scan_blanks, run_none hblank, Nat.add_zero]

theorem best_minus {d : Byte} (hd : IsDigit d = true) :
    best rules (45 :: d :: rest) = some (1, .op .add .subtract) := by
  have hother : d ≠ 45 ∧ d ≠ 61 ∧ d ≠ 62 ∧ IsBlank d = false := by
    revert d
    decide +kernel
  obtain ⟨hminus, hequals, hgreater, hblank⟩ := hother
  have hfilter : rules.filter (fun r => r.1.starts 45) =
      [(.lit [45, 45], .op .inc .preDec), (.assign [45] 0, .op .bineq .subtract),
        (.blanks [45], .op .add .subtract), (.libcall, .libcall), (.any, .char)] := by
    decide +kernel
  have hdec : (Pattern.lit [45, 45]).scan (45 :: d :: rest) = none := by
    have hsecond : ([45, 45] : Text).isPrefixOf? (45 :: d :: rest) = none :=
      @isPrefixOf?_none d rest [45] hminus.symm
    rw [Pattern.scan, hsecond]
    rfl
  have hassign : (Pattern.assign [45] 0).scan (45 :: d :: rest) = none :=
    @assign_none rest [45] 0 d hblank hequals
  have hblanks : (Pattern.blanks [45]).scan (45 :: d :: rest) = some 1 :=
    @blanks_alone rest [45] d hblank
  have hcall : Pattern.libcall.scan (45 :: d :: rest) = none := by
    change (seq (byteEnd 62) _ (d :: rest)).bind _ = none
    rw [seq_none (byteEnd_none hgreater)]
    rfl
  rw [best_filter, hfilter, best, best, best, best, best, hdec, hassign, hblanks, hcall]
  rfl

theorem seq_some {f g : Text → Option ℕ} {text : Text} (h : f text = some n) :
    seq f g text = (g (text.drop n)).map (n + ·) := by
  rw [seq, h]
  cases hg : g (text.drop n) with
  | none => simp [hg]
  | some m => simp [hg]

theorem floatEnd_digits {digits after : Text} (hne : digits ≠ [])
    (hdigits : ∀ d ∈ digits, IsDigit d = true)
    (hafter : ∀ d ∈ after.head?, IsDigit d = false ∧ d ≠ 46 ∧ IsExponent d = false) :
    floatEnd (digits ++ after) = none := by
  have hends : Ends IsDigit after := fun d hd => (hafter d hd).1
  have hrun := run_append hdigits hends
  have hpos : digits.length ≠ 0 := fun hzero => hne (List.length_eq_zero_iff.1 hzero)
  have hdigitsEnd : digitsEnd (digits ++ after) = some digits.length := by
    rw [digitsEnd, hrun, if_neg hpos]
  have hoptional : optional digitsEnd (digits ++ after) = some digits.length := by
    rw [optional, hdigitsEnd]
    rfl
  have hdrop : (digits ++ after).drop digits.length = after := List.drop_left
  have hdot : dotEnd after = none := by
    cases after with
    | nil => rfl
    | cons d more => exact dotEnd_none (hafter d rfl).2.1
  have hexponent : exponentEnd after = none := by
    cases after with
    | nil => rfl
    | cons d more => exact if_neg (ne_true_of_eq_false (hafter d rfl).2.2)
  have hfront : dotEnd (digits ++ after) = none := by
    obtain ⟨d, ds, rfl⟩ := List.exists_cons_of_ne_nil hne
    apply dotEnd_none
    rintro rfl
    exact absurd (hdigits 46 List.mem_cons_self) (by decide)
  have h0 : f0 (digits ++ after) = none := by
    rw [f0, seq_some hdigitsEnd, hdrop, hdot]
    rfl
  have h1 : f1 (digits ++ after) = none := by
    rw [f1, seq_some hoptional, hdrop, seq_none hdot]
    rfl
  have h2 : f2 (digits ++ after) = none := by
    rw [f2, seq_some hdigitsEnd, hdrop, seq_none hdot]
    rfl
  have h3 : f3 (digits ++ after) = none := by
    rw [f3, seq_optional hfront, seq_some hdigitsEnd, hdrop, hexponent]
    rfl
  rw [floatEnd, either_none h0, either_none h1, either_none h2, h3]

theorem best_int {digits letters : Text} (hne : digits ≠ [])
    (hdigits : ∀ d ∈ digits, IsDigit d = true) (hletters : ∀ d ∈ letters, IsAlnum d = true)
    (hafter : ∀ d ∈ (letters ++ rest).head?, IsDigit d = false ∧ d ≠ 46 ∧ IsExponent d = false)
    (hends : Ends IsAlnum rest) :
    best rules (digits ++ letters ++ rest) = some ((digits ++ letters).length, .int) := by
  have hfloat := floatEnd_digits hne hdigits hafter
  obtain ⟨d, ds, rfl⟩ := List.exists_cons_of_ne_nil hne
  have hd := hdigits d List.mem_cons_self
  have hfilter : ∀ d : Byte, IsDigit d = true → rules.filter (fun r => r.1.starts d) =
      [(.float, .float), (.int, .int), (.any, .char)] := by
    decide +kernel
  have hall : ∀ e ∈ ds ++ letters, IsAlnum e = true := by
    intro e he
    rcases List.mem_append.1 he with he | he
    · rw [IsAlnum, hdigits e (List.mem_cons_of_mem d he), Bool.or_true]
    · exact hletters e he
  have hint : Pattern.int.scan (d :: (ds ++ (letters ++ rest))) =
      some (d :: (ds ++ letters)).length := by
    rw [Pattern.scan, intEnd, hd, if_pos rfl, ← List.append_assoc, run_append hall hends]
    rfl
  have hany : Pattern.any.scan (d :: (ds ++ (letters ++ rest))) = some 1 := by
    apply if_neg
    rintro rfl
    exact absurd hd (by decide)
  rw [List.append_assoc, List.cons_append, best_filter, hfilter d hd, best, best, best, best, hint,
    hany]
  change (match floatEnd (d :: ds ++ (letters ++ rest)), _ with
    | none, r => r
    | some n, none => some (n, Action.float)
    | some n, some (m, b) => if m ≤ n then some (n, Action.float) else some (m, b)) = _
  rw [hfloat]
  exact if_pos (Nat.succ_le_succ (Nat.zero_le _))

theorem quoteEnd_body {quote : Byte} {body : Text} (hquote : quote ≠ 92)
    (h : TextTokens.Body quote body) :
    quoteEnd quote (body ++ quote :: rest) = some (body.length + 1) := by
  induction h with
  | nil =>
    cases rest with
    | nil => exact if_pos rfl
    | cons d more => exact if_pos rfl
  | escaped hc hbody ih =>
    rw [List.cons_append, List.cons_append, quoteEnd, if_neg hquote.symm, if_pos rfl, if_neg hc, ih]
    rfl
  | @plain c body hne hback hbody ih =>
    have hstep : quoteEnd quote (c :: (body ++ quote :: rest)) =
        (quoteEnd quote (body ++ quote :: rest)).map (· + 1) := by
      cases hnext : body ++ quote :: rest with
      | nil => exact absurd hnext (by simp)
      | cons d more => rw [quoteEnd, if_neg hne, if_neg hback]
    rw [List.cons_append, hstep, ih]
    rfl

theorem best_text {body : Text} (h : TextTokens.Body 34 body) :
    best rules (34 :: body ++ 34 :: rest) = some (body.length + 2, .text) := by
  have hfilter : rules.filter (fun r => r.1.starts 34) =
      [(.quoted 34, .text), (.lit [34], .unbalance), (.any, .char)] := by
    decide +kernel
  have hquoted : (Pattern.quoted 34).scan (34 :: (body ++ 34 :: rest)) =
      some (body.length + 2) := by
    rw [Pattern.scan, if_pos rfl, quoteEnd_body (by decide) h]
    rfl
  have hlit : (Pattern.lit [34]).scan (34 :: (body ++ 34 :: rest)) = some 1 := rfl
  have hany : Pattern.any.scan (34 :: (body ++ 34 :: rest)) = some 1 := rfl
  rw [List.cons_append, best_filter, hfilter, best, best, best, best, hquoted, hlit, hany]
  exact if_pos (Nat.succ_le_succ (Nat.zero_le _))

theorem either_left {f g : Text → Option ℕ} {text : Text} (h : g text = none) :
    either f g text = f text := by
  rw [either, h]
  cases f text with
  | _ => rfl

theorem best_ident {d : Byte} {name : Text} (hd : StartsIdent d = true)
    (hname : ∀ e ∈ name, IsAnum e = true) (hends : Ends IsAnum rest)
    (hafter : ∀ e ∈ rest.head?, e ≠ 46 ∧ e ≠ 58) :
    best rules (d :: name ++ rest) = some (name.length + 1, .ident) := by
  have hfilter : ∀ d : Byte, StartsIdent d = true → rules.filter (fun r => r.1.starts d) =
      [(.ident, .ident), (.path, .path), (.any, .char)] := by
    decide +kernel
  have hother : ∀ d : Byte, StartsIdent d = true → d ≠ 46 ∧ d ≠ 58 ∧ d ≠ 92 ∧ d ≠ 10 := by
    decide +kernel
  obtain ⟨hdot, hcolon, hback, hline⟩ := hother d hd
  have hident : identEnd (d :: (name ++ rest)) = some (name.length + 1) := by
    rw [identEnd, if_pos hd, run_append hname hends]
  have hsep : separatorEnd (d :: (name ++ rest)) = none := by
    rw [separatorEnd, either_none (dotEnd_none hdot)]
    exact byteEnd_none hcolon
  have hbyte : byteEnd 92 (d :: (name ++ rest)) = none := byteEnd_none hback
  have horigin : originEnd (d :: (name ++ rest)) = some (name.length + 1) := by
    have hother : either
        (either (seq (byteEnd 92) identEnd)
          (seq (byteEnd 92) (seq identEnd (seq (byteEnd 58) (seq (byteEnd 58) identEnd)))))
        (seq dotEnd (seq (byteEnd 45) (repeated (seq (optional dotEnd) (byteEnd 45)))))
        (d :: (name ++ rest)) = none := by
      rw [either_left (seq_none (dotEnd_none hdot)), either_left (seq_none hbyte)]
      exact seq_none hbyte
    rw [originEnd, either_left hother, either_left (seq_none hsep), hident]
  have hmembers : repeated (seq separatorEnd identEnd) rest = some 0 := by
    cases rest with
    | nil => rfl
    | cons e more =>
      have hnone : separatorEnd (e :: more) = none := by
        rw [separatorEnd, either_none (dotEnd_none (hafter e rfl).1)]
        exact byteEnd_none (hafter e rfl).2
      rw [repeated, List.length_cons, many, seq_none hnone]
  have hdrop : (d :: (name ++ rest)).drop (name.length + 1) = rest := @List.drop_left _ (d :: name) rest
  have hpath : pathEnd (d :: (name ++ rest)) = some (name.length + 1) := by
    rw [pathEnd, seq_some horigin, hdrop, hmembers]
    rfl
  have hany : Pattern.any.scan (d :: (name ++ rest)) = some 1 := if_neg hline
  rw [List.cons_append, best_filter, hfilter d hd, best, best, best, best, Pattern.scan, hident,
    Pattern.scan, hpath, hany]
  simp

theorem best_libcall {name : Text} (hne : name ≠ []) (hname : ∀ e ∈ name, IsAnum e = true) :
    best rules (45 :: 62 :: name ++ 40 :: rest) = some (name.length + 2, .libcall) := by
  have hfilter : rules.filter (fun r => r.1.starts 45) =
      [(.lit [45, 45], .op .inc .preDec), (.assign [45] 0, .op .bineq .subtract),
        (.blanks [45], .op .add .subtract), (.libcall, .libcall), (.any, .char)] := by
    decide +kernel
  have hends : Ends IsAnum (40 :: rest) := by
    rintro e ⟨⟩
    rfl
  have hpos : name.length ≠ 0 := fun hzero => hne (List.length_eq_zero_iff.1 hzero)
  have hname' : (fun text : Text => if run IsAnum text = 0 then none else some (run IsAnum text))
      (name ++ 40 :: rest) = some name.length := by
    simp only [run_append hname hends, if_neg hpos]
  have hdrop : (name ++ 40 :: rest).drop name.length = 40 :: rest := List.drop_left
  have hnumber : seq (byteEnd 35) intEnd (40 :: rest) = none := seq_none (byteEnd_none (by decide))
  have hrange : either (byteEnd 58) (seq dotEnd dotEnd) (40 :: rest) = none := by
    rw [either_none (byteEnd_none (by decide))]
    exact seq_none (dotEnd_none (by decide))
  have hminus : byteEnd 45 (45 :: 62 :: (name ++ 40 :: rest)) = some 1 := rfl
  have hgreater : byteEnd 62 (62 :: (name ++ 40 :: rest)) = some 1 := rfl
  have hcall : Pattern.libcall.scan (45 :: 62 :: (name ++ 40 :: rest)) =
      some (name.length + 2) := by
    rw [Pattern.scan, libcallEnd, seq_some hminus, List.drop_one, List.tail_cons,
      seq_some hgreater, List.drop_one, List.tail_cons, seq_some hname', hdrop,
      seq_optional hnumber, optional_none hrange]
    simp only [Option.map_some, Option.some.injEq]
    omega
  have hdec : (Pattern.lit [45, 45]).scan (45 :: 62 :: (name ++ 40 :: rest)) = none := rfl
  have hassign : (Pattern.assign [45] 0).scan (45 :: 62 :: (name ++ 40 :: rest)) = none :=
    @assign_none _ [45] 0 62 rfl (by decide)
  have hblanks : (Pattern.blanks [45]).scan (45 :: 62 :: (name ++ 40 :: rest)) = some 1 :=
    @blanks_alone _ [45] 62 rfl
  have hany : Pattern.any.scan (45 :: 62 :: (name ++ 40 :: rest)) = some 1 := rfl
  rw [List.cons_append, List.cons_append, best_filter, hfilter, best, best, best, best, best, best,
    hdec, hassign, hblanks, hcall, hany]
  simp only [if_pos (Nat.succ_le_succ (Nat.zero_le (name.length + 1)))]
  exact if_neg (by omega)

end MdsPlus.ExpressionTokens
