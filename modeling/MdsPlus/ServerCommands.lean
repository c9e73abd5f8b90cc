import MdsPlus.ExpressionTokens
import MdsPlus.IntegerTokens
import Mathlib.Data.List.DropRight
import Mathlib.Data.Nat.Digits.Defs

/-!
Commands for an action server. The call is printed as an expression into a buffer, and the server
takes the expression apart and calls its routine with the values of the arguments.
-/

namespace MdsPlus.ServerCommands

open BitMemory (Byte)
open Outcome
open ElementOrder (Dtype intOf natOf)
open IntegerTokens (lexInt Numeral Suffix)
open ExpressionTokens

inductive Fault
  | overrun
deriving DecidableEq

/-- A text in memory ends at its zero. -/
structure CString where
  bytes : List Byte
  no_zero : 0 ∉ bytes

inductive Argument
  | cstring (s : CString)
  | long (v : BitVec 32)
  | char (c : Byte)
  | other

structure Request where
  addr : BitVec 32
  port : BitVec 16
  op : BitVec 32
  before : Bool
  jobid : BitVec 32
  args : List Argument

/-- SrvJobBEFORE_NOTIFY, or no flag. -/
def Request.flags (r : Request) : BitVec 32 := if r.before then 1 else 0

/-! ### The command -/

def decimal (n : ℕ) : List ℕ := if n = 0 then [0] else (Nat.digits 10 n).reverse

def printNat (n : ℕ) : Text := (decimal n).map fun k => BitVec.ofNat 8 (48 + k)

def printInt (v : ℤ) : Text := if v < 0 then 45 :: printNat v.natAbs else printNat v.natAbs

def capacity : ℕ := 4096

def putChar (out : Text) (c : Byte) : Except Fault Text :=
  if out.length < capacity then .ok (out ++ [c]) else .error .overrun

/-- A zero is written behind the text. -/
def sprintf (out text : Text) : Except Fault Text :=
  if out.length + text.length < capacity then .ok (out ++ text) else .error .overrun

def putEscape (out : Text) (c : Byte) : Except Fault Text :=
  if c = 34 ∨ c = 92 then putChar out 92 else .ok out

def putQuoted : Text → Text → Except Fault Text
  | out, [] => .ok out
  | out, c :: cs => do
      let out ← putEscape out c
      let out ← putChar out c
      putQuoted out cs

def putArgument (out : Text) : Argument → Except Fault Text
  | .cstring s => do
      let out ← sprintf out [34]
      let out ← putQuoted out s.bytes
      sprintf out [34]
  | .long v => sprintf out (printInt v.toInt)
  | .char c => sprintf out (printInt c.toInt)
  | .other => .ok out

def putArguments : Text → List Argument → Except Fault Text
  | out, [] => .ok out
  | out, a :: as => do
      let out ← putChar out 44
      let out ← putArgument out a
      putArguments out as

/-- At least none and at most eight. -/
def numargs (numargsIn : ℤ) : ℕ :=
  if numargsIn < 0 then 0 else if numargsIn > 8 then 8 else numargsIn.toNat

def image : Text := [77, 100, 115, 83, 101, 114, 118, 101, 114, 83, 104, 114]

def routine : Text := [83, 101, 114, 118, 101, 114, 81, 65, 99, 116, 105, 111, 110]

def Request.head (r : Request) : Text :=
  image ++ 45 :: 62 :: routine ++ 40 :: printNat r.addr.toNat ++ [108, 117] ++ 44 ::
    printNat r.port.toNat ++ [119, 117] ++ 44 :: printInt r.op.toInt ++ 44 ::
      printInt r.flags.toInt ++ 44 :: printInt r.jobid.toInt

def Request.command (r : Request) : Except Fault Text := do
  let out ← sprintf [] r.head
  let out ← putArguments out (r.args.take (numargs r.args.length))
  putChar out 41

/-! ### The call -/

inductive Value
  | number (dtype : Dtype) (v : ℤ)
  | text (s : Text)

def toChar (c : Byte) : Char := Char.ofNat c.toNat

def intValue (t : Text) : Option Value :=
  match lexInt (t.map toChar) with
  | .ok s => some (.number s.dtype (intOf s.dtype.signed s.bytes))
  | .error _ => none

def textValue (t : Text) : Option Text :=
  match TextTokens.lexText t.length t with
  | .ok s => s
  | .error _ => none

/-- The negative in the type of the number. -/
def unaryMinus : Value → Option Value
  | .number d v =>
      d.size.map fun n =>
        .number d (if d.signed then Int.bmod (-v) (256 ^ n) else -v % (256 ^ n : ℕ))
  | .text _ => none

def adjacent (s : Text) : List Lexeme → Option (Value × List Lexeme)
  | (.text, t) :: rest => do
      let more ← textValue t
      adjacent (s ++ more) rest
  | rest => some (.text s, rest)

/-- An expression that is a number or texts, or none. -/
def opt : List Lexeme → Option (Option Value × List Lexeme)
  | (.int, t) :: rest => (intValue t).map fun v => (some v, rest)
  | (.text, t) :: rest => do
      let s ← textValue t
      let (v, rest) ← adjacent s rest
      return (some v, rest)
  | (.op .add opcode, _) :: rest => do
      let (v, rest) ← opt rest
      let v ← v
      let v ← if opcode = .subtract then unaryMinus v else some v
      return (some v, rest)
  | rest => some (none, rest)

/-- The arguments up to the parenthesis, which may be missing between commas. -/
def sub : ℕ → List Lexeme → Option (List (Option Value) × List Lexeme)
  | 0, _ => none
  | fuel + 1, ls => do
      let (v, rest) ← opt ls
      match rest with
      | (.char, [44]) :: rest => do
          let (vs, rest) ← sub fuel rest
          return (v :: vs, rest)
      | (.closes 0, _) :: rest => some ([v], rest)
      | _ => none

structure Call where
  image : Text
  routine : Text
  args : List (Option Value)

/-- The name behind the arrow, without the punctuation behind it. -/
def libcallName (t : Text) : Text := (t.drop 2).rdropWhile fun c => c = 46 || c = 58

/-- An image with a routine and its arguments, of which there is room for 250 behind a comma. -/
def call : List Lexeme → Option Call
  | (.ident, name) :: (.libcall, t) :: (.opens 0, _) :: ls => do
      let (args, rest) ← sub ls.length ls
      if args.length ≤ 250 ∧ rest = [(.char, [59])] then some ⟨name, libcallName t, args⟩ else none
  | _ => none

def evaluate (text : Text) : Option Call := do
  let ls ← lexemes text.length (fun _ => 0) text
  call ls

/-! ### What is asked for -/

def Argument.value : Argument → Option Value
  | .cstring s => some (.text s.bytes)
  | .long v => some (.number .l v.toInt)
  | .char c => some (.number .l c.toInt)
  | .other => none

def Request.values (r : Request) : List (Option Value) :=
  some (.number .lu r.addr.toNat) :: some (.number .wu r.port.toNat) ::
    some (.number .l r.op.toInt) :: some (.number .l r.flags.toInt) ::
      some (.number .l r.jobid.toInt) :: r.args.map Argument.value

/-- The command fits its buffer and is a call with what was asked for. -/
def Delivered (r : Request) : Prop :=
  ∃ text, r.command = .ok text ∧ evaluate text = some ⟨image, routine, r.values⟩

def intRoom (v : ℤ) : ℕ := (decimal v.natAbs).length + if v < 0 then 1 else 0

/-- A quote and a backslash in a text take two bytes. -/
def Argument.room : Argument → ℕ
  | .cstring s => s.bytes.length + s.bytes.countP (fun c => c = 34 ∨ c = 92) + 2
  | .long v => intRoom v.toInt
  | .char c => intRoom c.toInt
  | .other => 0

def Request.room (r : Request) : ℕ :=
  37 + (decimal r.addr.toNat).length + (decimal r.port.toNat).length + intRoom r.op.toInt +
    intRoom r.flags.toInt + intRoom r.jobid.toInt + (r.args.map fun a => a.room + 1).sum

/-- The number whose digits are too large for a long. -/
def lowest : ℤ := -2147483648

def Argument.number : Argument → Option ℤ
  | .long v => some v.toInt
  | .char c => some c.toInt
  | _ => none

def Request.numbers (r : Request) : List ℤ :=
  r.op.toInt :: r.flags.toInt :: r.jobid.toInt :: r.args.filterMap Argument.number

/-! ### What is printed -/

variable {front more : Text} {r : Request}

/-- The text is appended if there is room for it, and for a zero behind it perhaps. -/
def Appends (f : Text → Except Fault Text) (text : Text) : Prop :=
  ∀ out : Text, out.length ≤ capacity →
    f out = .ok (out ++ text) ∧ (out ++ text).length ≤ capacity ∨
      f out = .error .overrun ∧ capacity ≤ (out ++ text).length

theorem appends_putChar (c : Byte) : Appends (putChar · c) [c] := by
  intro out _
  rw [List.length_append, List.length_singleton]
  by_cases h : out.length < capacity
  · exact Or.inl ⟨if_pos h, h⟩
  · exact Or.inr ⟨if_neg h, by omega⟩

theorem appends_sprintf (text : Text) : Appends (sprintf · text) text := by
  intro out _
  rw [List.length_append]
  by_cases h : out.length + text.length < capacity
  · exact Or.inl ⟨if_pos h, Nat.le_of_lt h⟩
  · exact Or.inr ⟨if_neg h, not_lt.1 h⟩

theorem appends_ok : Appends .ok [] := by
  intro out hout
  rw [List.append_nil]
  exact Or.inl ⟨rfl, hout⟩

theorem Appends.bind {f g : Text → Except Fault Text} (hf : Appends f front)
    (hg : Appends g more) : Appends (fun out => f out >>= g) (front ++ more) := by
  intro out hout
  rw [← List.append_assoc]
  rcases hf out hout with ⟨hok, hle⟩ | ⟨herror, hle⟩
  · simp only [hok, ok_bind]
    exact hg (out ++ front) hle
  · refine Or.inr ⟨?_, ?_⟩
    · simp only [herror]
      rfl
    · rw [List.length_append]
      exact Nat.le_add_right_of_le hle

def escaped (s : Text) : Text := s.flatMap fun c => if c = 34 ∨ c = 92 then [92, c] else [c]

def Argument.text : Argument → Text
  | .cstring s => 34 :: escaped s.bytes ++ [34]
  | .long v => printInt v.toInt
  | .char c => printInt c.toInt
  | .other => []

def argumentsText (as : List Argument) : Text := as.flatMap fun a => 44 :: a.text

def Request.text (r : Request) : Text := r.head ++ argumentsText (r.args.take 8) ++ [41]

theorem appends_putQuoted (s : Text) : Appends (putQuoted · s) (escaped s) := by
  induction s with
  | nil => exact appends_ok
  | cons c s ih =>
    have hfirst : Appends (putEscape · c) (if c = 34 ∨ c = 92 then [92] else []) := by
      by_cases hc : c = 34 ∨ c = 92
      · simp only [putEscape, if_pos hc]
        exact appends_putChar 92
      · simp only [putEscape, if_neg hc]
        exact appends_ok
    have htext : escaped (c :: s) =
        (if c = 34 ∨ c = 92 then [92] else []) ++ ([c] ++ escaped s) := by
      rw [escaped, List.flatMap_cons]
      by_cases hc : c = 34 ∨ c = 92
      · rw [if_pos hc, if_pos hc]
        rfl
      · rw [if_neg hc, if_neg hc]
        rfl
    rw [htext]
    exact hfirst.bind ((appends_putChar c).bind ih)

theorem appends_putArgument (a : Argument) : Appends (putArgument · a) a.text := by
  cases a with
  | cstring s =>
    exact (appends_sprintf [34]).bind ((appends_putQuoted s.bytes).bind (appends_sprintf [34]))
  | long v => exact appends_sprintf _
  | char c => exact appends_sprintf _
  | other => exact appends_ok

theorem appends_putArguments (as : List Argument) :
    Appends (putArguments · as) (argumentsText as) := by
  induction as with
  | nil => exact appends_ok
  | cons a as ih =>
    have htext : argumentsText (a :: as) = [44] ++ (a.text ++ argumentsText as) := by
      rw [argumentsText, List.flatMap_cons]
      rfl
    rw [htext]
    exact (appends_putChar 44).bind ((appends_putArgument a).bind ih)

theorem take_numargs {α : Type} (l : List α) : l.take (numargs l.length) = l.take 8 := by
  rw [numargs, if_neg (by omega)]
  split
  · rfl
  · rw [Int.toNat_natCast, List.take_length, List.take_of_length_le (by omega)]

theorem command_eq (r : Request) :
    r.command = if r.text.length ≤ capacity then .ok r.text else .error .overrun := by
  have hrun := (appends_sprintf r.head).bind (appends_putArguments (r.args.take 8)) []
    (Nat.zero_le capacity)
  have hlength : r.text.length = ([] ++ (r.head ++ argumentsText (r.args.take 8))).length + 1 := by
    rw [Request.text, List.nil_append, List.length_append, List.length_singleton]
  rw [Request.command, take_numargs]
  simp only [← bind_assoc]
  rcases hrun with ⟨hok, -⟩ | ⟨herror, hle⟩
  · simp only at hok
    rw [hok, ok_bind, hlength]
    rfl
  · simp only at herror
    rw [herror, if_neg (by omega)]
    rfl

theorem length_escaped (s : Text) :
    (escaped s).length = s.length + s.countP (fun c => c = 34 ∨ c = 92) := by
  induction s with
  | nil => rfl
  | cons c s ih =>
    rw [escaped, List.flatMap_cons, List.length_append, List.length_cons]
    rw [escaped] at ih
    by_cases hc : c = 34 ∨ c = 92
    · rw [if_pos hc, List.countP_cons_of_pos (by simpa using hc), ih]
      simp only [List.length_cons, List.length_nil]
      omega
    · rw [if_neg hc, List.countP_cons_of_neg (by simpa using hc), ih]
      simp only [List.length_cons, List.length_nil]
      omega

theorem length_printNat (n : ℕ) : (printNat n).length = (decimal n).length := List.length_map _

theorem length_printInt (v : ℤ) : (printInt v).length = intRoom v := by
  rw [printInt, intRoom]
  split
  · rw [List.length_cons, length_printNat]
  · rw [length_printNat, Nat.add_zero]

theorem length_argument (a : Argument) : a.text.length = a.room := by
  cases a with
  | cstring s =>
    rw [Argument.text, Argument.room, List.length_append, List.length_cons, length_escaped,
      List.length_singleton]
  | long v => exact length_printInt _
  | char c => exact length_printInt _
  | other => rfl

theorem length_argumentsText (as : List Argument) :
    (argumentsText as).length = (as.map fun a => a.room + 1).sum := by
  rw [argumentsText, List.length_flatMap]
  congr 1
  apply List.map_congr_left
  intro a _
  rw [List.length_cons, length_argument]

theorem length_text (h : r.args.length ≤ 8) : r.text.length = r.room := by
  rw [Request.text, Request.room, List.take_of_length_le h, List.length_append,
    List.length_append, length_argumentsText]
  simp only [Request.head, List.length_append, List.length_cons, length_printNat, length_printInt,
    image, routine, List.length_nil]
  omega

/-! ### The digits -/

theorem decimal_spec (n : ℕ) : decimal n ≠ [] ∧ (∀ k ∈ decimal n, k < 10) ∧
    IntegerTokens.horner 10 (decimal n) = n := by
  rw [decimal]
  by_cases hn : n = 0
  · rw [if_pos hn, hn]
    refine ⟨List.cons_ne_nil 0 [], ?_, rfl⟩
    intro k hk
    rw [List.mem_singleton.1 hk]
    omega
  · rw [if_neg hn]
    refine ⟨?_, ?_, ?_⟩
    · rw [ne_eq, List.reverse_eq_nil_iff]
      exact Nat.digits_ne_nil_iff_ne_zero.2 hn
    · intro k hk
      exact Nat.digits_lt_base (by omega) (List.mem_reverse.1 hk)
    · have hvalue := Nat.ofDigits_digits 10 n
      rw [Nat.ofDigits_eq_foldr] at hvalue
      rw [IntegerTokens.horner, List.foldl_reverse]
      refine Eq.trans ?_ hvalue
      congr 1
      funext k v
      rw [Nat.mul_comm, Nat.add_comm]
      rfl

def numeral (n : ℕ) (s : Suffix) : Numeral where
  radix := .decimal
  digits := decimal n
  suffix := s
  digits_ne := (decimal_spec n).1
  digit_lt := (decimal_spec n).2.1
  ends := nofun

theorem digit_printed {k : ℕ} (hk : k < 10) : IsDigit (BitVec.ofNat 8 (48 + k)) = true ∧
    (toChar (BitVec.ofNat 8 (48 + k))).toUpper = IntegerTokens.digitChar k := by
  revert k
  decide +kernel

theorem printNat_spec (n : ℕ) : printNat n ≠ [] ∧ ∀ d ∈ printNat n, IsDigit d = true := by
  obtain ⟨hne, hlt, -⟩ := decimal_spec n
  refine ⟨fun hnil => hne (List.map_eq_nil_iff.1 hnil), ?_⟩
  intro d hd
  obtain ⟨k, hk, rfl⟩ := List.mem_map.1 hd
  exact (digit_printed (hlt k hk)).1

section Numbers

variable {n : ℕ} {s : Suffix} {letters : Text}

theorem numeral_text (hletters : (letters.map toChar).map Char.toUpper = s.text) :
    ((printNat n ++ letters).map toChar).map Char.toUpper = (numeral n s).text := by
  have hdigits : ((printNat n).map toChar).map Char.toUpper =
      (decimal n).map IntegerTokens.digitChar := by
    rw [printNat, List.map_map, List.map_map]
    apply List.map_congr_left
    intro k hk
    exact (digit_printed ((decimal_spec n).2.1 k hk)).2
  rw [List.map_append, List.map_append, hdigits, hletters]
  rfl

theorem intValue_eq (hletters : (letters.map toChar).map Char.toUpper = s.text)
    (hsize : s.size ≠ some .o) (hn : n < 256 ^ 16) : intValue (printNat n ++ letters) =
      if n < s.bound then some (.number ((s.size.getD .l).dtype s.signed) n) else none := by
  have hvalue : (numeral n s).value = n := (decimal_spec n).2.2
  have hzero : ¬ IntegerTokens.ZeroOctaword (numeral n s) := by
    rintro ⟨-, -, htext⟩
    have hletter : ∀ s : Suffix, s.text = ['O', 'U'] ∨ s.text = ['O', 'S'] → s.size = some .o := by
      rintro ⟨_ | (_ | _), _ | (_ | _ | _ | _ | _), _ | _⟩ h
      all_goals first | rfl | exact absurd h (by decide)
    exact hsize (hletter s htext)
  have hdropped := IntegerTokens.dropped_small (numeral n s) (hvalue.symm ▸ hn)
  have hmod : (numeral n s).value % 256 ^ 16 = n := by rw [hvalue, Nat.mod_eq_of_lt hn]
  obtain ⟨hlength, hnat, -⟩ := IntegerTokens.accumulated_spec (numeral n s).digit_lt
  change natOf _ = (numeral n s).value % 256 ^ 16 at hnat
  rw [hmod] at hnat
  rw [intValue, IntegerTokens.lexInt_text (numeral n s) (numeral_text hletters), hmod]
  by_cases hfits : n < s.bound
  · have hsigned : ((s.size.getD .l).dtype s.signed).signed = s.signed := by
      cases s.size.getD .l with
      | _ => cases s.signed with
        | _ => rfl
    have hint := (IntegerTokens.intOf_take s hlength (by rw [hnat]; exact hfits)).2
    rw [if_pos ⟨hzero, hdropped, hfits⟩, if_pos hfits]
    change some (Value.number ((s.size.getD .l).dtype s.signed)
      (intOf ((s.size.getD .l).dtype s.signed).signed (List.take s.length _))) = _
    rw [hsigned, hint, hnat]
  · rw [if_neg fun h => hfits h.2.2, if_neg hfits]

end Numbers

/-! ### Quoted texts -/

theorem body_escaped (s : Text) : TextTokens.Body 34 (escaped s) := by
  induction s with
  | nil => exact .nil
  | cons c s ih =>
    rw [escaped, List.flatMap_cons]
    by_cases hc : c = 34 ∨ c = 92
    · rw [if_pos hc]
      refine .escaped ?_ ih
      rintro rfl
      exact absurd hc (by decide)
    · rw [if_neg hc]
      exact .plain (fun heq => hc (Or.inl heq)) (fun heq => hc (Or.inr heq)) ih

theorem textValue_escaped {s : Text} (hzero : 0 ∉ s) (h : (escaped s).length < 65534) :
    textValue (34 :: escaped s ++ [34]) = some s := by
  have hpos : ∀ c ∈ s, 0 < (if c = 34 ∨ c = 92 then [92, c] else [c]).length := by
    intro c _
    split <;> exact Nat.succ_pos _
  have hread := @TextTokens.lexText_pieces s 34 (fun c => if c = 34 ∨ c = 92 then [92, c] else [c])
    hpos ?_ ?_ (34 :: escaped s ++ [34]).length ?_
  · rw [textValue]
    change (match TextTokens.lexText _ (34 :: s.flatMap _ ++ [34]) with
      | .ok s => s
      | .error _ => none) = _
    rw [hread]
  · intro c hc text last room sp dst rest hdrop hlast hroom
    by_cases hspecial : c = 34 ∨ c = 92
    · rw [if_pos hspecial] at hdrop hlast ⊢
      have hletter : TextTokens.letterOf c = some c := by
        rcases hspecial with rfl | rfl
        · rfl
        · rfl
      exact TextTokens.turn_letter hdrop hletter hlast hroom
    · rw [if_neg hspecial] at hdrop hlast ⊢
      have hne : c ≠ 0 := fun heq => hzero (heq ▸ hc)
      exact TextTokens.turn_plain hdrop (fun heq => hspecial (Or.inr heq)) hne hroom
  · rw [List.length_append, List.length_cons, List.length_singleton]
    exact Nat.add_lt_add_right h 2
  · have hle := TextTokens.length_le_pieces hpos
    rw [List.length_append, List.length_cons, List.length_singleton]
    exact Nat.lt_add_right 1 (Nat.lt_succ_of_le hle)

/-! ### Arguments -/

/-- What stands for an argument: its bytes, its lexemes and its value, if it has one that can be
read. -/
structure Item where
  text : Text
  lexs : List Lexeme
  value : Option (Option Value)

/-- Behind an argument there is a comma or the parenthesis. -/
def Follows (rest : Text) : Prop := ∃ more, rest = 44 :: more ∨ rest = 41 :: more

def FollowsLexs (ls : List Lexeme) : Prop :=
  ∃ more t, ls = (.char, [44]) :: more ∨ ls = (.closes 0, t) :: more

structure Item.Reads (i : Item) : Prop where
  lexed : ∀ {open_ rest ls}, Follows rest → Lexed open_ rest ls →
    Lexed open_ (i.text ++ rest) (i.lexs ++ ls)
  parsed : ∀ {ls}, FollowsLexs ls → opt (i.lexs ++ ls) = i.value.map fun v => (v, ls)

theorem Follows.first {rest : Text} (h : Follows rest) :
    ∀ d ∈ rest.head?, IsDigit d = false ∧ d ≠ 46 ∧ IsExponent d = false ∧ IsAlnum d = false := by
  obtain ⟨more, rfl | rfl⟩ := h
  · rintro d ⟨⟩
    decide
  · rintro d ⟨⟩
    decide

theorem reads_number {n : ℕ} {letters : Text} (hletters : ∀ d ∈ letters, IsAlnum d = true)
    (hfirst : ∀ d ∈ letters.head?, IsDigit d = false ∧ d ≠ 46 ∧ IsExponent d = false) :
    (Item.mk (printNat n ++ letters) [(.int, printNat n ++ letters)]
      ((intValue (printNat n ++ letters)).map some)).Reads where
  lexed := by
    intro open_ rest ls hfollows hrest
    obtain ⟨hne, hdigits⟩ := printNat_spec n
    have hafter : ∀ d ∈ (letters ++ rest).head?,
        IsDigit d = false ∧ d ≠ 46 ∧ IsExponent d = false := by
      cases letters with
      | nil =>
        intro d hd
        obtain ⟨h1, h2, h3, -⟩ := hfollows.first d hd
        exact ⟨h1, h2, h3⟩
      | cons c cs => exact hfirst
    have hends : Ends IsAlnum rest := fun d hd => (hfollows.first d hd).2.2.2
    have hbest := best_int hne hdigits hletters hafter hends
    refine lexed_plain ?_ rfl hbest hrest
    intro hnil
    exact hne (List.append_eq_nil_iff.1 hnil).1
  parsed := by
    intro ls _
    rw [List.singleton_append, opt, Option.map_map]
    rfl

theorem reads_negative (n : ℕ) :
    (Item.mk (45 :: printNat n) [(.op .add .subtract, [45]), (.int, printNat n)]
      (((intValue (printNat n)).bind unaryMinus).map some)).Reads where
  lexed := by
    intro open_ rest ls hfollows hrest
    have hnumber := (@reads_number n [] nofun nofun).lexed hfollows hrest
    simp only [List.append_nil] at hnumber
    obtain ⟨hne, hdigits⟩ := printNat_spec n
    obtain ⟨d, ds, hprinted⟩ := List.exists_cons_of_ne_nil hne
    have hbest := @best_minus (ds ++ rest) d (hdigits d (hprinted ▸ List.mem_cons_self))
    rw [← List.cons_append, ← hprinted] at hbest
    exact @lexed_plain _ _ open_ [45] _ (List.cons_ne_nil 45 []) rfl hbest hnumber
  parsed := by
    intro ls _
    simp only [List.cons_append, List.nil_append, opt]
    cases intValue (printNat n) with
    | none => rfl
    | some v =>
      cases hv : unaryMinus v with
      | none => simp [hv]
      | some w => simp [hv]

theorem reads_quoted {s : CString} (h : (escaped s.bytes).length < 65534) :
    (Item.mk (34 :: escaped s.bytes ++ [34]) [(.text, 34 :: escaped s.bytes ++ [34])]
      (some (some (.text s.bytes)))).Reads where
  lexed := by
    intro open_ rest ls _ hrest
    have hbest := @best_text rest _ (body_escaped s.bytes)
    refine lexed_plain (by simp) rfl ?_ hrest
    rw [List.append_assoc, List.singleton_append, hbest, List.length_append, List.length_cons]
    rfl
  parsed := by
    intro ls hfollows
    have hvalue := textValue_escaped s.no_zero h
    have hend : adjacent s.bytes ls = some (.text s.bytes, ls) := by
      obtain ⟨more, t, rfl | rfl⟩ := hfollows
      · rfl
      · rfl
    rw [List.singleton_append, opt, hvalue]
    simp [hend]

theorem reads_missing : (Item.mk [] [] (some none)).Reads where
  lexed := fun _ hrest => hrest
  parsed := by
    intro ls hfollows
    obtain ⟨more, t, rfl | rfl⟩ := hfollows
    · rfl
    · rfl

/-! ### Lists of arguments -/

/-- Arguments behind commas, up to the parenthesis. -/
def listed : List Item → Text
  | [] => [41]
  | i :: is => 44 :: i.text ++ listed is

def listedLexs : List Item → List Lexeme
  | [] => [(.closes 0, [41]), (.char, [59])]
  | i :: is => (.char, [44]) :: i.lexs ++ listedLexs is

theorem follows_listed (is : List Item) : Follows (listed is) := by
  cases is with
  | nil => exact ⟨[], Or.inr rfl⟩
  | cons i is => exact ⟨i.text ++ listed is, Or.inl rfl⟩

theorem followsLexs_listed (is : List Item) : FollowsLexs (listedLexs is) := by
  cases is with
  | nil => exact ⟨[(.char, [59])], [41], Or.inr rfl⟩
  | cons i is => exact ⟨i.lexs ++ listedLexs is, [], Or.inl rfl⟩

theorem lexed_listed {is : List Item} (h : ∀ i ∈ is, i.Reads) :
    Lexed (Function.update (fun _ => 0) 0 1) (listed is) (listedLexs is) := by
  induction is with
  | nil =>
    refine lexed_closes best_closes (by decide) (lexed_nil ?_)
    decide
  | cons i is ih =>
    obtain ⟨hi, his⟩ := List.forall_mem_cons.1 h
    have hrest := hi.lexed (follows_listed is) (ih his)
    exact @lexed_plain _ _ _ [44] _ (List.cons_ne_nil 44 []) rfl best_comma hrest

variable {i : Item} {is : List Item}

theorem sub_values (hi : i.Reads) (his : ∀ j ∈ is, j.Reads) {vs : List (Option Value)}
    (h : (i :: is).map Item.value = vs.map some) :
    ∀ fuel > is.length, sub fuel (i.lexs ++ listedLexs is) = some (vs, [(.char, [59])]) := by
  induction is generalizing i vs with
  | nil =>
    intro fuel hfuel
    obtain ⟨n, rfl⟩ := Nat.exists_eq_add_of_le' (Nat.one_le_of_lt hfuel)
    obtain ⟨v, vs, rfl⟩ : ∃ v vs', vs = v :: vs' := by
      cases vs with
      | nil => cases h
      | cons v vs => exact ⟨v, vs, rfl⟩
    obtain ⟨hv, hvs⟩ := List.cons.inj h
    obtain rfl : vs = [] := List.map_eq_nil_iff.1 hvs.symm
    have hparsed := hi.parsed (followsLexs_listed [])
    rw [hv] at hparsed
    rw [sub, hparsed]
    rfl
  | cons j is ih =>
    intro fuel hfuel
    obtain ⟨n, rfl⟩ := Nat.exists_eq_add_of_le' (Nat.one_le_of_lt hfuel)
    obtain ⟨v, vs, rfl⟩ : ∃ v vs', vs = v :: vs' := by
      cases vs with
      | nil => cases h
      | cons v vs => exact ⟨v, vs, rfl⟩
    obtain ⟨hv, hvs⟩ := List.cons.inj h
    obtain ⟨hj, his⟩ := List.forall_mem_cons.1 his
    have hparsed := hi.parsed (followsLexs_listed (j :: is))
    have hrest := ih hj his hvs n (Nat.lt_of_succ_lt_succ hfuel)
    rw [hv] at hparsed
    rw [sub, hparsed]
    change (sub n (j.lexs ++ listedLexs is) >>= fun _ => _) = _
    rw [hrest]
    rfl

theorem sub_none (hi : i.Reads) (his : ∀ j ∈ is, j.Reads)
    (h : ∃ j ∈ i :: is, j.value = none) (fuel : ℕ) :
    sub fuel (i.lexs ++ listedLexs is) = none := by
  induction is generalizing i fuel with
  | nil =>
    cases fuel with
    | zero => rfl
    | succ n =>
      obtain ⟨j, hj, hnone⟩ := h
      obtain rfl := List.mem_singleton.1 hj
      have hparsed := hi.parsed (followsLexs_listed [])
      rw [hnone] at hparsed
      rw [sub, hparsed]
      rfl
  | cons j is ih =>
    cases fuel with
    | zero => rfl
    | succ n =>
      have hparsed := hi.parsed (followsLexs_listed (j :: is))
      obtain ⟨hj, his⟩ := List.forall_mem_cons.1 his
      rw [sub, hparsed]
      cases hv : i.value with
      | none => rfl
      | some v =>
        obtain ⟨k, hk, hnone⟩ := h
        have hk' : k ∈ j :: is := by
          rcases List.mem_cons.1 hk with rfl | hk
          · rw [hv] at hnone
            cases hnone
          · exact hk
        have hrest := ih hj his ⟨k, hk', hnone⟩ n
        change (sub n (j.lexs ++ listedLexs is) >>= fun _ => _) = _
        rw [hrest]
        rfl

theorem length_listedLexs (is : List Item) : is.length < (listedLexs is).length := by
  induction is with
  | nil => exact Nat.succ_pos 1
  | cons i is ih =>
    rw [listedLexs, List.length_append, List.length_cons, List.length_cons]
    omega

def callText (i : Item) (is : List Item) : Text :=
  image ++ (45 :: 62 :: routine ++ 40 :: (i.text ++ listed is))

theorem lexed_call (hi : i.Reads) (his : ∀ j ∈ is, j.Reads) :
    Lexed (fun _ => 0) (callText i is)
      ((.ident, image) :: (.libcall, 45 :: 62 :: routine) :: (.opens 0, [40]) ::
        (i.lexs ++ listedLexs is)) := by
  have hname : ∀ e ∈ image, IsAnum e = true := by decide +kernel
  have hroutine : ∀ e ∈ routine, IsAnum e = true := by decide +kernel
  have hargs := lexed_opens best_opens (hi.lexed (follows_listed is) (lexed_listed his))
  have hcall := @best_libcall (i.text ++ listed is) routine (List.cons_ne_nil _ _) hroutine
  have hrest := @lexed_plain _ _ _ (45 :: 62 :: routine) _ (List.cons_ne_nil _ _) rfl hcall hargs
  have hends : Ends IsAnum (45 :: 62 :: routine ++ 40 :: (i.text ++ listed is)) := by
    rintro e ⟨⟩
    rfl
  have hafter : ∀ e ∈ (45 :: 62 :: routine ++ 40 :: (i.text ++ listed is)).head?,
      e ≠ 46 ∧ e ≠ 58 := by
    rintro e ⟨⟩
    decide
  have hident := @best_ident (45 :: 62 :: routine ++ 40 :: (i.text ++ listed is)) 77
    [100, 115, 83, 101, 114, 118, 101, 114, 83, 104, 114] (by decide)
    (fun e he => hname e (List.mem_cons_of_mem 77 he)) hends hafter
  exact @lexed_plain _ _ _ image _ (List.cons_ne_nil _ _) rfl hident hrest

theorem evaluate_eq (hi : i.Reads) (his : ∀ j ∈ is, j.Reads) :
    evaluate (callText i is) =
      (sub (i.lexs ++ listedLexs is).length (i.lexs ++ listedLexs is)).bind fun r =>
        if r.1.length ≤ 250 ∧ r.2 = [(.char, [59])] then some ⟨image, routine, r.1⟩ else none := by
  have hname : libcallName (45 :: 62 :: routine) = routine := by decide
  rw [evaluate, lexed_call hi his _ le_rfl, Option.bind_eq_bind, Option.bind_some, call, hname]
  rfl

theorem evaluate_values (hi : i.Reads) (his : ∀ j ∈ is, j.Reads) {vs : List (Option Value)}
    (h : (i :: is).map Item.value = vs.map some) (hle : vs.length ≤ 250) :
    evaluate (callText i is) = some ⟨image, routine, vs⟩ := by
  have hlength := length_listedLexs is
  rw [evaluate_eq hi his, sub_values hi his h _ (by rw [List.length_append]; omega)]
  exact if_pos ⟨hle, rfl⟩

theorem evaluate_none (hi : i.Reads) (his : ∀ j ∈ is, j.Reads)
    (h : ∃ j ∈ i :: is, j.value = none) : evaluate (callText i is) = none := by
  rw [evaluate_eq hi his, sub_none hi his h]
  rfl

/-! ### The arguments of a request -/

def numberItem (n : ℕ) (letters : Text) : Item :=
  ⟨printNat n ++ letters, [(.int, printNat n ++ letters)],
    (intValue (printNat n ++ letters)).map some⟩

def intItem (v : ℤ) : Item :=
  if v < 0 then
    ⟨45 :: printNat v.natAbs, [(.op .add .subtract, [45]), (.int, printNat v.natAbs)],
      ((intValue (printNat v.natAbs)).bind unaryMinus).map some⟩
  else numberItem v.natAbs []

def Argument.item : Argument → Item
  | .cstring s => ⟨34 :: escaped s.bytes ++ [34], [(.text, 34 :: escaped s.bytes ++ [34])],
      some (some (.text s.bytes))⟩
  | .long v => intItem v.toInt
  | .char c => intItem c.toInt
  | .other => ⟨[], [], some none⟩

def Request.first (r : Request) : Item := numberItem r.addr.toNat [108, 117]

def Request.others (r : Request) (as : List Argument) : List Item :=
  numberItem r.port.toNat [119, 117] :: intItem r.op.toInt :: intItem r.flags.toInt ::
    intItem r.jobid.toInt :: as.map Argument.item

theorem intItem_text (v : ℤ) : (intItem v).text = printInt v := by
  rw [intItem, printInt]
  split
  · rfl
  · exact List.append_nil _

theorem reads_intItem (v : ℤ) : (intItem v).Reads := by
  rw [intItem]
  split
  · exact reads_negative _
  · exact reads_number nofun nofun

theorem intItem_value {v : ℤ} (hlow : lowest ≤ v) (hhigh : v < 2147483648) :
    (intItem v).value = if v = lowest then none else some (some (.number .l v)) := by
  have hread := fun hn => @intValue_eq v.natAbs ⟨none, none, false⟩ [] rfl nofun hn
  have hbound : Suffix.bound ⟨none, none, false⟩ = 2147483648 := rfl
  rw [List.append_nil, hbound] at hread
  rw [lowest] at hlow ⊢
  rw [intItem]
  by_cases hneg : v < 0
  · rw [if_pos hneg]
    simp only [hread (by omega)]
    by_cases hlowest : v = -2147483648
    · rw [if_pos hlowest, if_neg (by omega)]
      rfl
    · have hwrap : Int.bmod (-(v.natAbs : ℤ)) 4294967296 = v := by
        rw [Int.bmod_eq_of_le (by omega) (by omega)]
        omega
      rw [if_neg hlowest, if_pos (by omega)]
      change some (some (Value.number .l (Int.bmod (-(v.natAbs : ℤ)) 4294967296))) = _
      rw [hwrap]
  · rw [if_neg hneg, if_neg (by omega), numberItem, List.append_nil]
    simp only [hread (by omega)]
    rw [if_pos (by omega)]
    change some (some (Value.number .l (v.natAbs : ℤ))) = _
    rw [Int.natAbs_of_nonneg (by omega)]

theorem long_range (v : BitVec 32) : lowest ≤ v.toInt ∧ v.toInt < 2147483648 := by
  have hlow := @BitVec.le_toInt 32 v
  have hhigh := @BitVec.toInt_lt 32 v
  rw [lowest]
  omega

theorem char_range (c : Byte) : lowest < c.toInt ∧ c.toInt < 2147483648 := by
  have hlow := @BitVec.le_toInt 8 c
  have hhigh := @BitVec.toInt_lt 8 c
  rw [lowest]
  omega

theorem first_value (r : Request) :
    r.first.value = some (some (.number .lu r.addr.toNat)) := by
  have hlt := r.addr.isLt
  have hbound : Suffix.bound ⟨some false, some .l, false⟩ = 2 ^ 32 := rfl
  have hread := @intValue_eq r.addr.toNat ⟨some false, some .l, false⟩ [108, 117] (by decide)
    nofun (by omega)
  rw [hbound, if_pos hlt] at hread
  rw [Request.first, numberItem, hread]
  rfl

theorem port_value (r : Request) : (numberItem r.port.toNat [119, 117]).value =
    some (some (.number .wu r.port.toNat)) := by
  have hlt := r.port.isLt
  have hbound : Suffix.bound ⟨some false, some .w, false⟩ = 2 ^ 16 := rfl
  have hread := @intValue_eq r.port.toNat ⟨some false, some .w, false⟩ [119, 117] (by decide)
    nofun (by omega)
  rw [hbound, if_pos hlt] at hread
  rw [numberItem, hread]
  rfl

theorem item_value (a : Argument) :
    a.item.value = if a.number = some lowest then none else some a.value := by
  cases a with
  | cstring s => rfl
  | long v =>
    obtain ⟨hlow, hhigh⟩ := long_range v
    rw [Argument.item, intItem_value hlow hhigh, Argument.number, Argument.value]
    simp only [Option.some.injEq]
  | char c =>
    obtain ⟨hlow, hhigh⟩ := char_range c
    rw [Argument.item, intItem_value hlow.le hhigh, Argument.number, Argument.value]
    simp only [Option.some.injEq]
  | other => rfl

theorem reads_item {a : Argument} (h : a.text.length ≤ capacity) : a.item.Reads := by
  cases a with
  | cstring s =>
    rw [Argument.text, List.length_append, List.length_cons, capacity] at h
    exact reads_quoted (by omega)
  | long v => exact reads_intItem _
  | char c => exact reads_intItem _
  | other => exact reads_missing

theorem listed_items (as : List Argument) :
    listed (as.map Argument.item) = argumentsText as ++ [41] := by
  induction as with
  | nil => rfl
  | cons a as ih =>
    have htext : a.item.text = a.text := by
      cases a with
      | long v => exact intItem_text _
      | char c => exact intItem_text _
      | _ => rfl
    rw [List.map_cons, listed, ih, htext, argumentsText, argumentsText, List.flatMap_cons,
      List.append_assoc]

theorem text_eq (r : Request) : r.text = callText r.first (r.others (r.args.take 8)) := by
  rw [callText, Request.others, listed, listed, listed, listed, listed_items, intItem_text,
    intItem_text, intItem_text]
  simp only [Request.text, Request.head, Request.first, numberItem, List.append_assoc,
    List.cons_append, List.nil_append]

theorem reads_request (h : r.text.length ≤ capacity) :
    r.first.Reads ∧ ∀ j ∈ r.others (r.args.take 8), j.Reads := by
  have hletters : ∀ d ∈ ([108, 117] : Text), IsAlnum d = true := by decide
  have hletters' : ∀ d ∈ ([119, 117] : Text), IsAlnum d = true := by decide
  refine ⟨reads_number hletters (by decide), ?_⟩
  rw [Request.others]
  simp only [List.forall_mem_cons]
  refine ⟨reads_number hletters' (by decide), reads_intItem _, reads_intItem _, reads_intItem _, ?_⟩
  intro j hj
  obtain ⟨a, ha, rfl⟩ := List.mem_map.1 hj
  apply reads_item
  have hle : a.text.length ≤ (argumentsText (r.args.take 8)).length := by
    rw [argumentsText, List.length_flatMap]
    refine le_trans (Nat.le_succ _) (List.le_sum_of_mem (List.mem_map.2 ⟨a, ha, rfl⟩))
  rw [Request.text, List.length_append, List.length_append] at h
  omega

def Request.sent (r : Request) : Request := { r with args := r.args.take 8 }

theorem values_of (h : lowest ∉ r.sent.numbers) :
    (r.first :: r.others (r.args.take 8)).map Item.value = r.sent.values.map some := by
  rw [Request.numbers] at h
  simp only [List.mem_cons, not_or] at h
  obtain ⟨hop, hflags, hjobid, hargs⟩ := h
  have hint : ∀ v : BitVec 32, lowest ≠ v.toInt →
      (intItem v.toInt).value = some (some (.number .l v.toInt)) := by
    intro v hv
    rw [intItem_value (long_range v).1 (long_range v).2, if_neg hv.symm]
  have hrest : ((r.args.take 8).map Argument.item).map Item.value =
      ((r.args.take 8).map Argument.value).map some := by
    rw [List.map_map, List.map_map]
    apply List.map_congr_left
    intro a ha
    have hne : a.number ≠ some lowest := fun heq => hargs (List.mem_filterMap.2 ⟨a, ha, heq⟩)
    exact (item_value a).trans (if_neg hne)
  rw [Request.others]
  simp only [List.map_cons, first_value, port_value, hrest, hint r.op hop, hint r.flags hflags,
    hint r.jobid hjobid]
  rfl

theorem none_of (h : lowest ∈ r.sent.numbers) :
    ∃ j ∈ r.first :: r.others (r.args.take 8), j.value = none := by
  have hint : ∀ v : BitVec 32, lowest = v.toInt → (intItem v.toInt).value = none := by
    intro v hv
    rw [intItem_value (long_range v).1 (long_range v).2, if_pos hv.symm]
  rw [Request.numbers, List.mem_cons, List.mem_cons, List.mem_cons] at h
  rcases h with hop | hflags | hjobid | hargs
  · exact ⟨intItem r.op.toInt, by simp [Request.others], hint r.op hop⟩
  · exact ⟨intItem r.flags.toInt, by simp [Request.others], hint r.flags hflags⟩
  · exact ⟨intItem r.jobid.toInt, by simp [Request.others], hint r.jobid hjobid⟩
  · obtain ⟨a, ha, hlowest⟩ := List.mem_filterMap.1 hargs
    have hmem : a.item ∈ (r.args.take 8).map Argument.item := List.mem_map_of_mem ha
    exact ⟨a.item, List.mem_append_right [_, _, _, _, _] hmem,
      (item_value a).trans (if_pos hlowest)⟩

theorem evaluate_text (h : r.text.length ≤ capacity) : evaluate r.text =
    if lowest ∈ r.sent.numbers then none else some ⟨image, routine, r.sent.values⟩ := by
  obtain ⟨hfirst, hothers⟩ := reads_request h
  rw [text_eq]
  split
  · rename_i hlowest
    exact evaluate_none hfirst hothers (none_of hlowest)
  · rename_i hlowest
    refine evaluate_values hfirst hothers (values_of hlowest) ?_
    simp only [Request.sent, Request.values, List.length_cons, List.length_map, List.length_take]
    omega

/-- A call comes with what was asked for just when its text fits the buffer, there are no more
arguments than are sent, and none of the numbers is the lowest one. -/
theorem command_delivered_iff (r : Request) :
    Delivered r ↔ r.args.length ≤ 8 ∧ r.room ≤ capacity ∧ lowest ∉ r.numbers := by
  have hsent : r.args.length ≤ 8 → r.sent = r := fun h => by
    rw [Request.sent, List.take_of_length_le h]
  constructor
  · rintro ⟨text, hcommand, hcall⟩
    rw [command_eq] at hcommand
    split at hcommand
    · rename_i hfits
      cases hcommand
      rw [evaluate_text hfits] at hcall
      split at hcall
      · cases hcall
      · rename_i hlowest
        have hvalues : r.sent.values = r.values := congrArg Call.args (Option.some.inj hcall)
        have hlength := congrArg List.length hvalues
        simp only [Request.sent, Request.values, List.length_cons, List.length_map,
          List.length_take] at hlength
        have hle : r.args.length ≤ 8 := by omega
        rw [hsent hle] at hlowest
        rw [length_text hle] at hfits
        exact ⟨hle, hfits, hlowest⟩
    · cases hcommand
  · rintro ⟨hle, hroom, hlowest⟩
    have hfits : r.text.length ≤ capacity := by rwa [length_text hle]
    refine ⟨r.text, ?_, ?_⟩
    · rw [command_eq, if_pos hfits]
    · rw [evaluate_text hfits, hsent hle, if_neg hlowest]

/-- A command for the server to execute, of 4096 letters. -/
def longCommand : Request where
  addr := 16777343
  port := 8800
  op := 2
  before := false
  jobid := 1
  args := [.cstring ⟨List.replicate 4096 97,
    fun h => absurd (List.eq_of_mem_replicate h) (by decide)⟩]

theorem longCommand_overruns : longCommand.command = .error .overrun ∧ ¬ Delivered longCommand := by
  have hrun : longCommand.command = .error .overrun := by
    have hroom : ¬ longCommand.text.length ≤ capacity := by
      have hone : longCommand.args.length ≤ 8 := Nat.succ_le_succ (Nat.zero_le 7)
      have hargs : 4096 ≤ (longCommand.args.map fun a => a.room + 1).sum := by
        rw [longCommand, List.map_singleton, List.sum_singleton, Argument.room,
          List.length_replicate]
        omega
      rw [length_text hone, Request.room, capacity]
      omega
    rw [command_eq, if_neg hroom]
  refine ⟨hrun, ?_⟩
  rintro ⟨text, hcommand, -⟩
  rw [hrun] at hcommand
  cases hcommand

end MdsPlus.ServerCommands
