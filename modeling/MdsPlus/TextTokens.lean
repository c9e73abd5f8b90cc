import MdsPlus.BitMemory
import MdsPlus.Outcome
import Mathlib.Algebra.Order.Ring.Nat

/-!
Texts in quotes. A text is printed with escapes for the bytes that cannot stand in it for
themselves; a quoted text is taken apart where it lies, from its first quote to its last.
-/

namespace MdsPlus.TextTokens

open BitMemory Outcome

inductive Fault
  | outOfRange | overrun | endless | tooLong

/-! ### Printing -/

/-- Three bits of a byte, whose sign is extended, as an octal digit. -/
def octalDigit (c : Byte) (shift : ℕ) : Byte := c.sshiftRight shift &&& 7 ||| 48

/-- What is printed for a byte that does not stand for itself. -/
def escape (quote c : Byte) : Option (List Byte) :=
  if c = quote then some [92, quote]
  else if c = 92 then some [92, 92]
  else if c = 10 then some [92, 110]
  else if c = 9 then some [92, 116]
  else if c = 11 then some [92, 118]
  else if c = 8 then some [92, 98]
  else if c = 13 then some [92, 114]
  else if c = 12 then some [92, 102]
  else if 32 ≤ c ∧ c ≤ 126 then none
  else some [92, octalDigit c 6, octalDigit c 3, octalDigit c 0]

/-- Apostrophes enclose a text that has more quotes than apostrophes. -/
def quoteOf (s : List Byte) : Byte := if s.count 39 < s.count 34 then 39 else 34

def strAppend (out tail : List Byte) : Except Fault (List Byte) :=
  if tail = [] then .ok out
  else if out.length + tail.length > 65535 then .error .tooLong
  else .ok (out ++ tail)

/-- Bytes that stand for themselves are appended as a block, whose length is a word. -/
def appendBlock (out block : List Byte) : Except Fault (List Byte) :=
  strAppend out (block.take (block.length % 65536))

def printLoop (quote : Byte) : List Byte → List Byte → List Byte → Except Fault (List Byte)
  | block, [], out => appendBlock out block
  | block, c :: cs, out =>
      match escape quote c with
      | none => printLoop quote (block ++ [c]) cs out
      | some e => do
          let out ← appendBlock out block
          let out ← strAppend out e
          printLoop quote [] cs out

/-- Tdi0Decompile of a text. -/
def decompile (s out : List Byte) : Except Fault (List Byte) := do
  let out ← strAppend out [quoteOf s]
  let out ← printLoop (quoteOf s) [] s out
  strAppend out [quoteOf s]

/-! ### Reading -/

def get (text : List Byte) (sp : ℕ) : Except Fault Byte :=
  match text[sp]? with
  | some c => .ok c
  | none => .error .outOfRange

def put (room : ℕ) (dst : List Byte) (c : Byte) : Except Fault (List Byte) :=
  if dst.length < room then .ok (dst ++ [c]) else .error .overrun

/-- Letters and signs that have a meaning behind a backslash. -/
def letterOf (e : Byte) : Option Byte :=
  if e = 110 then some 10
  else if e = 116 then some 9
  else if e = 118 then some 11
  else if e = 98 then some 8
  else if e = 114 then some 13
  else if e = 102 then some 12
  else if e = 97 then some 7
  else if e = 92 ∨ e = 63 ∨ e = 39 ∨ e = 34 then some e
  else none

def IsOctal (e : Byte) : Prop := 48 ≤ e ∧ e ≤ 55

instance (e : Byte) : Decidable (IsOctal e) := inferInstanceAs (Decidable (_ ∧ _))

def hexValue (e : Byte) : Option Byte :=
  if 48 ≤ e ∧ e ≤ 57 then some (e - 48)
  else if 65 ≤ e ∧ e ≤ 70 then some (e - 65 + 10)
  else if 97 ≤ e ∧ e ≤ 102 then some (e - 97 + 10)
  else none

def octalDigits (text : List Byte) (last : ℕ) : ℕ → ℕ → Byte → Except Fault (ℕ × Byte)
  | 0, sp, c => .ok (sp, c)
  | n + 1, sp, c =>
      if sp < last then do
        let d ← get text sp
        if IsOctal d then octalDigits text last n (sp + 1) (c <<< 3 ||| (d - 48)) else .ok (sp, c)
      else .ok (sp, c)

/-- Up to so many hexadecimal digits from the next byte on. -/
def hexDigits (text : List Byte) (last : ℕ) : ℕ → ℕ → Byte → Except Fault (ℕ × Byte)
  | 0, sp, c => .ok (sp + 1, c)
  | n + 1, sp, c =>
      if sp + 1 < last then do
        let d ← get text (sp + 1)
        match hexValue d with
        | some v => hexDigits text last n (sp + 1) (c <<< 4 ||| v)
        | none => .ok (sp + 1, c)
      else .ok (sp + 1, c)

/-- What a turn of the loop comes to: the end, or another place with the bytes so far. -/
inductive Turn
  | stop
  | next (sp : ℕ) (dst : List Byte)

/-- A backslash with the byte behind it. -/
def turnEscape (text : List Byte) (last room sp : ℕ) (dst : List Byte) : Except Fault Turn := do
  let e ← get text sp
  match letterOf e with
  | some c => do
      let dst ← put room dst c
      .ok (.next (sp + 1) dst)
  | none =>
      if IsOctal e then do
        let (sp, c) ← octalDigits text last 2 (sp + 1) (e - 48)
        let dst ← put room dst c
        .ok (.next sp dst)
      else if e = 120 then do
        let (sp, c) ← hexDigits text last 2 sp 0
        let dst ← put room dst c
        .ok (.next sp dst)
      else .ok (.next sp dst)

def turn (text : List Byte) (last room sp : ℕ) (dst : List Byte) : Except Fault Turn := do
  let c ← get text sp
  if c = 92 then
    if sp + 1 < last then turnEscape text last room (sp + 1) dst else .ok (.next (sp + 1) dst)
  else if c = 0 then .ok .stop
  else do
    let dst ← put room dst c
    .ok (.next (sp + 1) dst)

def loop (text : List Byte) (last room : ℕ) : ℕ → ℕ → List Byte → Except Fault (List Byte)
  | 0, _, _ => .error .endless
  | fuel + 1, sp, dst =>
      if sp < last then do
        match ← turn text last room sp dst with
        | .stop => .ok dst
        | .next sp dst => loop text last room fuel sp dst
      else .ok dst

/-- The text of a token, or `none` when it does not end with its quote. -/
def lexText (fuel : ℕ) (text : List Byte) : Except Fault (Option (List Byte)) :=
  if text.getLast? ≠ text.head? then .ok none
  else do
    let dst ← loop text (text.length - 1) (text.length - 2) fuel 1 []
    .ok (some (dst.take (dst.length % 65536)))

/-! ### The rules of the lexer -/

/-- What the rules take between quotes: a backslash takes any byte with it but a line's end. -/
inductive Body (quote : Byte) : List Byte → Prop
  | nil : Body quote []
  | escaped {c : Byte} {rest : List Byte} : c ≠ 10 → Body quote rest → Body quote (92 :: c :: rest)
  | plain {c : Byte} {rest : List Byte} : c ≠ quote → c ≠ 92 → Body quote rest →
      Body quote (c :: rest)

def IsLiteral (text : List Byte) : Prop :=
  ∃ quote body, (quote = 39 ∨ quote = 34) ∧ Body quote body ∧ text = quote :: body ++ [quote]

def printed (quote : Byte) (s : List Byte) : List Byte :=
  s.flatMap fun c => (escape quote c).getD [c]

def literal (s : List Byte) : List Byte := quoteOf s :: printed (quoteOf s) s ++ [quoteOf s]

/-! ### What is printed -/

variable {s block out text dst rest : List Byte} {quote c : Byte} {sp last room : ℕ}

theorem strAppend_ok {tail : List Byte} (h : out.length + tail.length < 65536) :
    strAppend out tail = .ok (out ++ tail) := by
  rw [strAppend]
  split
  · rename_i hnil
    rw [hnil, List.append_nil]
  · rw [if_neg (by omega)]

theorem appendBlock_ok (h : out.length + block.length < 65536) :
    appendBlock out block = .ok (out ++ block) := by
  rw [appendBlock, Nat.mod_eq_of_lt (by omega), List.take_length]
  exact strAppend_ok h

theorem printed_cons : printed quote (c :: s) = (escape quote c).getD [c] ++ printed quote s :=
  List.flatMap_cons

theorem printLoop_ok (h : out.length + block.length + (printed quote s).length < 65536) :
    printLoop quote block s out = .ok (out ++ block ++ printed quote s) := by
  induction s generalizing block out with
  | nil =>
    rw [printLoop, appendBlock_ok (by omega)]
    rw [printed, List.flatMap_nil, List.append_nil]
  | cons c s ih =>
    rw [printed_cons, List.length_append] at h
    rw [printLoop, printed_cons]
    cases hescape : escape quote c with
    | none =>
      rw [hescape, Option.getD_none, List.length_singleton] at h
      simp only [Option.getD_none]
      rw [ih (by rw [List.length_append, List.length_singleton]; omega)]
      simp only [List.append_assoc]
    | some e =>
      rw [hescape, Option.getD_some] at h
      simp only [Option.getD_some]
      rw [appendBlock_ok (by omega), ok_bind,
        strAppend_ok (by rw [List.length_append]; omega), ok_bind,
        ih (by rw [List.length_append, List.length_append, List.length_nil]; omega)]
      simp only [List.append_assoc, List.append_nil]

theorem decompile_ok (h : (literal s).length < 65536) : decompile s [] = .ok (literal s) := by
  rw [literal, List.length_append, List.length_cons, List.length_singleton] at h
  rw [decompile, strAppend_ok (by simp), ok_bind, List.nil_append,
    printLoop_ok (by rw [List.length_singleton, List.length_nil]; omega), ok_bind,
    strAppend_ok (by simp only [List.length_append, List.length_singleton, List.length_nil]; omega),
    literal]
  rfl

theorem quoteOf_cases (s : List Byte) : quoteOf s = 39 ∨ quoteOf s = 34 := by
  rw [quoteOf]
  split
  · exact Or.inl rfl
  · exact Or.inr rfl

theorem octalDigit_spec (c : Byte) (shift : ℕ) :
    IsOctal (octalDigit c shift) ∧ letterOf (octalDigit c shift) = none := by
  have hall : ∀ d : Byte, IsOctal (d &&& 7 ||| 48) ∧ letterOf (d &&& 7 ||| 48) = none := by
    decide +kernel
  exact hall _

theorem octalDigits_join (c : Byte) :
    ((octalDigit c 6 - 48) <<< 3 ||| (octalDigit c 3 - 48)) <<< 3 ||| (octalDigit c 0 - 48) = c := by
  have hall : ∀ c : Byte, ((octalDigit c 6 - 48) <<< 3 ||| (octalDigit c 3 - 48)) <<< 3 |||
      (octalDigit c 0 - 48) = c := by
    decide +kernel
  exact hall c

theorem escape_cases {e : List Byte} (hquote : quote = 39 ∨ quote = 34)
    (h : escape quote c = some e) :
    (∃ a, e = [92, a] ∧ letterOf a = some c) ∨
      e = [92, octalDigit c 6, octalDigit c 3, octalDigit c 0] := by
  have hself : letterOf quote = some quote := by
    rcases hquote with rfl | rfl
    · rfl
    · rfl
  have hletter : ∀ {a b : Byte} {rest : Option (List Byte)}, letterOf a = some b →
      (if c = b then some [92, a] else rest) = some e →
      (∃ a, e = [92, a] ∧ letterOf a = some c) ∨ rest = some e := by
    intro a b rest hab hif
    by_cases hc : c = b
    · rw [if_pos hc, Option.some.injEq] at hif
      exact Or.inl ⟨a, hif.symm, hc ▸ hab⟩
    · rw [if_neg hc] at hif
      exact Or.inr hif
  rw [escape] at h
  refine (hletter hself h).elim Or.inl fun h => ?_
  refine (hletter rfl h).elim Or.inl fun h => ?_
  refine (hletter rfl h).elim Or.inl fun h => ?_
  refine (hletter rfl h).elim Or.inl fun h => ?_
  refine (hletter rfl h).elim Or.inl fun h => ?_
  refine (hletter rfl h).elim Or.inl fun h => ?_
  refine (hletter rfl h).elim Or.inl fun h => ?_
  refine (hletter rfl h).elim Or.inl fun h => ?_
  split at h
  · cases h
  · exact Or.inr (Option.some.inj h).symm

theorem escape_none (h : escape quote c = none) : c ≠ quote ∧ c ≠ 92 ∧ c ≠ 0 := by
  refine ⟨?_, ?_, ?_⟩
  · rintro rfl
    rw [escape, if_pos rfl] at h
    cases h
  · rintro rfl
    rw [escape] at h
    split at h
    · cases h
    · rw [if_pos rfl] at h
      cases h
  · rintro rfl
    rw [escape] at h
    split at h
    · cases h
    · revert h
      decide

theorem body_printed (hquote : quote = 39 ∨ quote = 34) (s : List Byte) :
    Body quote (printed quote s) := by
  induction s with
  | nil => exact .nil
  | cons c s ih =>
    rw [printed_cons]
    cases hescape : escape quote c with
    | none =>
      obtain ⟨hne, hback, -⟩ := escape_none hescape
      exact .plain hne hback ih
    | some e =>
      have hplain : ∀ {d : Byte}, IsOctal d → d ≠ quote ∧ d ≠ 92 ∧ d ≠ 10 := by
        rintro d ⟨hlow, hhigh⟩
        refine ⟨?_, ?_, ?_⟩
        · rintro rfl
          rcases hquote with rfl | rfl
          · exact absurd hlow (by decide)
          · exact absurd hlow (by decide)
        · rintro rfl
          exact absurd hhigh (by decide)
        · rintro rfl
          exact absurd hlow (by decide)
      rw [Option.getD_some]
      rcases escape_cases hquote hescape with ⟨a, rfl, ha⟩ | rfl
      · refine .escaped ?_ ih
        rintro rfl
        cases ha
      · have h6 := hplain (octalDigit_spec c 6).1
        have h3 := hplain (octalDigit_spec c 3).1
        have h0 := hplain (octalDigit_spec c 0).1
        exact .escaped h6.2.2 (.plain h3.1 h3.2.1 (.plain h0.1 h0.2.1 ih))

theorem isLiteral_literal (s : List Byte) : IsLiteral (literal s) :=
  ⟨quoteOf s, _, quoteOf_cases s, body_printed (quoteOf_cases s) s, rfl⟩

theorem body_unique {body body' tail tail' : List Byte} (h : Body quote body)
    (h' : Body quote body') (hquote : quote ≠ 92)
    (heq : body ++ quote :: tail = body' ++ quote :: tail') : body = body' := by
  induction h generalizing body' with
  | nil =>
    cases h' with
    | nil => rfl
    | escaped _ _ => exact absurd (List.cons.inj heq).1 hquote
    | plain hne _ _ => exact absurd (List.cons.inj heq).1.symm hne
  | escaped _ _ ih =>
    cases h' with
    | nil => exact absurd (List.cons.inj heq).1.symm hquote
    | escaped _ hrest =>
      simp only [List.cons_append, List.cons.injEq, true_and] at heq
      obtain ⟨rfl, htail⟩ := heq
      rw [ih hrest htail]
    | plain _ hne _ => exact absurd (List.cons.inj heq).1.symm hne
  | plain hne hback _ ih =>
    cases h' with
    | nil => exact absurd (List.cons.inj heq).1 hne
    | escaped _ _ => exact absurd (List.cons.inj heq).1 hback
    | plain _ _ hrest =>
      obtain ⟨rfl, htail⟩ := List.cons.inj heq
      rw [ih hrest htail]

theorem isLiteral_unique {more part : List Byte} (h : IsLiteral text) (hpart : IsLiteral part)
    (hstart : part <+: text ++ more) : part = text := by
  obtain ⟨quote, body, hquote, hbody, rfl⟩ := h
  obtain ⟨quote', body', -, hbody', rfl⟩ := hpart
  obtain ⟨tail, htail⟩ := hstart
  simp only [List.cons_append, List.append_assoc, List.cons.injEq] at htail
  obtain ⟨rfl, htail⟩ := htail
  have hne : quote' ≠ 92 := by
    rcases hquote with rfl | rfl
    · decide
    · decide
  rw [body_unique hbody' hbody hne htail]

/-! ### What is read -/

theorem get_ok (h : sp < text.length) : ∃ c, get text sp = .ok c := by
  rw [get, List.getElem?_eq_getElem h]
  exact ⟨_, rfl⟩

theorem put_ok (h : dst.length < room) : put room dst c = .ok (dst ++ [c]) := if_pos h

theorem octalDigits_ok (hlast : last ≤ text.length) (n : ℕ) (c : Byte) (h : sp ≤ last) :
    ∃ sp' c', octalDigits text last n sp c = .ok (sp', c') ∧ sp ≤ sp' ∧ sp' ≤ last := by
  induction n generalizing sp c with
  | zero => exact ⟨sp, c, rfl, Nat.le_refl sp, h⟩
  | succ n ih =>
    rw [octalDigits]
    by_cases hmore : sp < last
    · obtain ⟨d, hd⟩ := get_ok (Nat.lt_of_lt_of_le hmore hlast)
      rw [if_pos hmore, hd, ok_bind]
      by_cases hoctal : IsOctal d
      · rw [if_pos hoctal]
        obtain ⟨sp', c', hok, hle, hle'⟩ := ih (c <<< 3 ||| (d - 48)) (Nat.succ_le_of_lt hmore)
        exact ⟨sp', c', hok, Nat.le_of_succ_le hle, hle'⟩
      · rw [if_neg hoctal]
        exact ⟨sp, c, rfl, Nat.le_refl sp, h⟩
    · rw [if_neg hmore]
      exact ⟨sp, c, rfl, Nat.le_refl sp, h⟩

theorem hexDigits_ok (hlast : last ≤ text.length) (n : ℕ) (c : Byte) (h : sp < last) :
    ∃ sp' c', hexDigits text last n sp c = .ok (sp', c') ∧ sp < sp' ∧ sp' ≤ last := by
  induction n generalizing sp c with
  | zero => exact ⟨sp + 1, c, rfl, Nat.lt_succ_self sp, h⟩
  | succ n ih =>
    rw [hexDigits]
    by_cases hmore : sp + 1 < last
    · obtain ⟨d, hd⟩ := get_ok (Nat.lt_of_lt_of_le hmore hlast)
      rw [if_pos hmore, hd, ok_bind]
      cases hexValue d with
      | some v =>
        obtain ⟨sp', c', hok, hlt, hle⟩ := ih (c <<< 4 ||| v) hmore
        exact ⟨sp', c', hok, by omega, hle⟩
      | none => exact ⟨sp + 1, c, rfl, Nat.lt_succ_self sp, h⟩
    · rw [if_neg hmore]
      exact ⟨sp + 1, c, rfl, Nat.lt_succ_self sp, h⟩

/-- A turn goes on in the text, and writes no more bytes than it reads. -/
def Advances (last sp : ℕ) (r : Turn) : Prop :=
  match r with
  | .stop => True
  | .next sp' dst => sp < sp' ∧ sp' ≤ last ∧ dst.length < sp'

theorem turnEscape_ok (hlast : last ≤ text.length) (hdst : dst.length < sp) (h : sp + 1 < last) :
    ∃ r, turnEscape text last (last - 1) (sp + 1) dst = .ok r ∧ Advances last sp r := by
  obtain ⟨e, he⟩ := get_ok (Nat.lt_of_lt_of_le h hlast)
  have hput : ∀ c, put (last - 1) dst c = .ok (dst ++ [c]) := fun c => put_ok (by omega)
  have hlength : ∀ c : Byte, (dst ++ [c]).length = dst.length + 1 := fun c => by
    rw [List.length_append, List.length_singleton]
  rw [turnEscape, he, ok_bind]
  cases letterOf e with
  | some c =>
    simp only
    rw [hput, ok_bind]
    refine ⟨_, rfl, ?_, ?_, ?_⟩
    · omega
    · omega
    · rw [hlength]
      omega
  | none =>
    simp only
    by_cases hoctal : IsOctal e
    · obtain ⟨sp', c, hok, hle, hle'⟩ := octalDigits_ok hlast 2 (e - 48) (Nat.succ_le_of_lt h)
      rw [if_pos hoctal, hok, ok_bind]
      simp only
      rw [hput, ok_bind]
      refine ⟨_, rfl, ?_, hle', ?_⟩
      · omega
      · rw [hlength]
        omega
    · rw [if_neg hoctal]
      by_cases hhex : e = 120
      · obtain ⟨sp', c, hok, hlt, hle⟩ := hexDigits_ok hlast 2 0 h
        rw [if_pos hhex, hok, ok_bind]
        simp only
        rw [hput, ok_bind]
        refine ⟨_, rfl, ?_, hle, ?_⟩
        · omega
        · rw [hlength]
          omega
      · rw [if_neg hhex]
        exact ⟨_, rfl, Nat.lt_succ_self sp, Nat.le_of_lt h, by omega⟩

theorem turn_ok (hlast : last ≤ text.length) (hdst : dst.length < sp) (h : sp < last) :
    ∃ r, turn text last (last - 1) sp dst = .ok r ∧ Advances last sp r := by
  obtain ⟨c, hc⟩ := get_ok (Nat.lt_of_lt_of_le h hlast)
  rw [turn, hc, ok_bind]
  by_cases hback : c = 92
  · rw [if_pos hback]
    by_cases hmore : sp + 1 < last
    · rw [if_pos hmore]
      exact turnEscape_ok hlast hdst hmore
    · rw [if_neg hmore]
      exact ⟨_, rfl, Nat.lt_succ_self sp, h, by omega⟩
  · rw [if_neg hback]
    by_cases hzero : c = 0
    · rw [if_pos hzero]
      exact ⟨_, rfl, trivial⟩
    · rw [if_neg hzero, put_ok (by omega), ok_bind]
      refine ⟨_, rfl, Nat.lt_succ_self sp, h, ?_⟩
      rw [List.length_append, List.length_singleton]
      omega

theorem loop_ok (hlast : last ≤ text.length) (sp : ℕ) (dst : List Byte)
    (hdst : dst.length < sp) :
    ∃ out, ∀ fuel > last - sp, loop text last (last - 1) fuel sp dst = .ok out := by
  by_cases h : sp < last
  · obtain ⟨r, hr, hadvances⟩ := turn_ok hlast hdst h
    cases r with
    | stop =>
      refine ⟨dst, fun fuel hfuel => ?_⟩
      obtain ⟨n, rfl⟩ := Nat.exists_eq_add_of_le' (Nat.one_le_of_lt hfuel)
      rw [loop, if_pos h, hr, ok_bind]
    | next sp' dst' =>
      obtain ⟨hlt, hle, hlength⟩ := hadvances
      obtain ⟨out, hout⟩ := loop_ok hlast sp' dst' hlength
      refine ⟨out, fun fuel hfuel => ?_⟩
      obtain ⟨n, rfl⟩ := Nat.exists_eq_add_of_le' (Nat.one_le_of_lt hfuel)
      rw [loop, if_pos h, hr, ok_bind]
      exact hout n (by omega)
  · refine ⟨dst, fun fuel hfuel => ?_⟩
    obtain ⟨n, rfl⟩ := Nat.exists_eq_add_of_le' (Nat.one_le_of_lt hfuel)
    rw [loop, if_neg h]
termination_by last - sp
decreasing_by omega

/-! ### What is printed is read -/

theorem get_drop (h : text.drop sp = c :: rest) :
    get text sp = .ok c ∧ text.drop (sp + 1) = rest := by
  have hhead : text[sp]? = some c := by rw [← List.head?_drop, h, List.head?_cons]
  refine ⟨?_, ?_⟩
  · rw [get, hhead]
  · rw [← List.tail_drop, h, List.tail_cons]

theorem turn_plain (h : text.drop sp = c :: rest) (hback : c ≠ 92) (hzero : c ≠ 0)
    (hroom : dst.length < room) :
    turn text last room sp dst = .ok (.next (sp + 1) (dst ++ [c])) := by
  rw [turn, (get_drop h).1, ok_bind, if_neg hback, if_neg hzero, put_ok hroom, ok_bind]

theorem turn_letter {a : Byte} (h : text.drop sp = 92 :: a :: rest) (ha : letterOf a = some c)
    (hlast : sp + 1 < last) (hroom : dst.length < room) :
    turn text last room sp dst = .ok (.next (sp + 2) (dst ++ [c])) := by
  obtain ⟨hfirst, hnext⟩ := get_drop h
  rw [turn, hfirst, ok_bind, if_pos rfl, if_pos hlast, turnEscape, (get_drop hnext).1, ok_bind, ha]
  simp only
  rw [put_ok hroom, ok_bind]

theorem turn_octal
    (h : text.drop sp = 92 :: octalDigit c 6 :: octalDigit c 3 :: octalDigit c 0 :: rest)
    (hlast : sp + 3 < last) (hroom : dst.length < room) :
    turn text last room sp dst = .ok (.next (sp + 4) (dst ++ [c])) := by
  obtain ⟨h0, hdrop⟩ := get_drop h
  obtain ⟨h1, hdrop⟩ := get_drop hdrop
  obtain ⟨h2, hdrop⟩ := get_drop hdrop
  obtain ⟨h3, -⟩ := get_drop hdrop
  have hdigits : octalDigits text last 2 (sp + 1 + 1) (octalDigit c 6 - 48) = .ok (sp + 4, c) := by
    rw [octalDigits, if_pos (by omega), h2, ok_bind, if_pos (octalDigit_spec c 3).1, octalDigits,
      if_pos (by omega), h3, ok_bind, if_pos (octalDigit_spec c 0).1, octalDigits,
      octalDigits_join]
  rw [turn, h0, ok_bind, if_pos rfl, if_pos (by omega), turnEscape, h1, ok_bind,
    (octalDigit_spec c 6).2]
  simp only
  rw [if_pos (octalDigit_spec c 6).1, hdigits, ok_bind]
  simp only
  rw [put_ok hroom, ok_bind]

theorem turn_printed (hquote : quote = 39 ∨ quote = 34)
    (h : text.drop sp = (escape quote c).getD [c] ++ rest)
    (hlast : sp + ((escape quote c).getD [c]).length ≤ last) (hroom : dst.length < room) :
    turn text last room sp dst =
      .ok (.next (sp + ((escape quote c).getD [c]).length) (dst ++ [c])) := by
  cases hescape : escape quote c with
  | none =>
    rw [hescape] at h
    obtain ⟨-, hback, hzero⟩ := escape_none hescape
    exact turn_plain h hback hzero hroom
  | some e =>
    rw [hescape, Option.getD_some] at h hlast
    rcases escape_cases hquote hescape with ⟨a, rfl, ha⟩ | rfl
    · exact turn_letter h ha hlast hroom
    · exact turn_octal h hlast hroom

theorem length_pos_escape (quote c : Byte) : 0 < ((escape quote c).getD [c]).length := by
  rw [escape]
  repeat' split
  all_goals exact Nat.succ_pos _

theorem loop_pieces {piece : Byte → List Byte} (hpos : ∀ c ∈ s, 0 < (piece c).length)
    (hturn : ∀ c ∈ s, ∀ sp dst rest, text.drop sp = piece c ++ rest →
      sp + (piece c).length ≤ last → dst.length < room →
      turn text last room sp dst = .ok (.next (sp + (piece c).length) (dst ++ [c])))
    (h : text.drop sp = s.flatMap piece ++ rest) (hlast : last = sp + (s.flatMap piece).length)
    (hroom : dst.length + (s.flatMap piece).length ≤ room) :
    ∀ fuel > s.length, loop text last room fuel sp dst = .ok (dst ++ s) := by
  induction s generalizing sp dst with
  | nil =>
    intro fuel hfuel
    obtain ⟨n, rfl⟩ := Nat.exists_eq_add_of_le' (Nat.one_le_of_lt hfuel)
    have hend : ¬ sp < last := by
      rw [hlast]
      exact Nat.lt_irrefl _
    rw [loop, if_neg hend, List.append_nil]
  | cons c s ih =>
    intro fuel hfuel
    obtain ⟨n, rfl⟩ := Nat.exists_eq_add_of_le' (Nat.one_le_of_lt hfuel)
    obtain ⟨hfirst, hposs⟩ := List.forall_mem_cons.1 hpos
    obtain ⟨hone, hturns⟩ := List.forall_mem_cons.1 hturn
    rw [List.flatMap_cons, List.length_append] at hlast hroom
    rw [List.flatMap_cons, List.append_assoc] at h
    have hrest : text.drop (sp + (piece c).length) = s.flatMap piece ++ rest := by
      rw [← List.drop_drop, h, List.drop_left]
    rw [loop, if_pos (by omega), hone sp dst _ h (by omega) (by omega), ok_bind]
    simp only
    rw [ih hposs hturns hrest (by omega)
      (by rw [List.length_append, List.length_singleton]; omega) n (Nat.lt_of_succ_lt_succ hfuel),
      List.append_assoc, List.singleton_append]

theorem length_le_pieces {piece : Byte → List Byte} (hpos : ∀ c ∈ s, 0 < (piece c).length) :
    s.length ≤ (s.flatMap piece).length := by
  induction s with
  | nil => exact Nat.zero_le _
  | cons c s ih =>
    obtain ⟨hfirst, hposs⟩ := List.forall_mem_cons.1 hpos
    have hrest := ih hposs
    rw [List.flatMap_cons, List.length_append, List.length_cons]
    omega

theorem lexText_pieces {piece : Byte → List Byte} (hpos : ∀ c ∈ s, 0 < (piece c).length)
    (hturn : ∀ c ∈ s, ∀ text last room sp dst rest, text.drop sp = piece c ++ rest →
      sp + (piece c).length ≤ last → dst.length < room →
      turn text last room sp dst = .ok (.next (sp + (piece c).length) (dst ++ [c])))
    (h : (quote :: s.flatMap piece ++ [quote]).length < 65536) :
    ∀ fuel > s.length, lexText fuel (quote :: s.flatMap piece ++ [quote]) = .ok (some s) := by
  intro fuel hfuel
  have hle := length_le_pieces hpos
  obtain ⟨text, htext⟩ : ∃ text, text = quote :: s.flatMap piece ++ [quote] := ⟨_, rfl⟩
  have hlength : text.length = (s.flatMap piece).length + 2 := by
    rw [htext, List.length_append, List.length_cons, List.length_singleton]
  have hsame : ¬ text.getLast? ≠ text.head? := by
    rw [htext, not_not, List.getLast?_concat]
    rfl
  have hdrop : text.drop 1 = s.flatMap piece ++ [quote] := by
    rw [htext]
    rfl
  have hloop := @loop_pieces s text [] _ 1 (text.length - 1) (text.length - 2) piece hpos
    (fun c hc => hturn c hc text _ _) hdrop (by omega) (by rw [List.length_nil]; omega) fuel hfuel
  rw [← htext] at h ⊢
  rw [lexText, if_neg hsame, hloop, ok_bind, List.nil_append, Nat.mod_eq_of_lt (by omega),
    List.take_length]

theorem lexText_literal (h : (literal s).length < 65536) :
    ∀ fuel > s.length, lexText fuel (literal s) = .ok (some s) :=
  lexText_pieces (fun c _ => length_pos_escape (quoteOf s) c)
    (fun _ _ _ _ _ _ _ _ hdrop hlast hroom => turn_printed (quoteOf_cases s) hdrop hlast hroom) h

theorem lexText_ends (h : 2 ≤ text.length) :
    ∃ out, ∀ fuel ≥ text.length, lexText fuel text = .ok out := by
  have hroom : text.length - 2 = text.length - 1 - 1 := rfl
  obtain ⟨out, hout⟩ := @loop_ok text (text.length - 1) (Nat.sub_le _ _) 1 [] Nat.zero_lt_one
  by_cases hsame : text.getLast? ≠ text.head?
  · exact ⟨none, fun fuel _ => if_pos hsame⟩
  · refine ⟨some (out.take (out.length % 65536)), fun fuel hfuel => ?_⟩
    rw [lexText, if_neg hsame, hroom, hout fuel (by omega), ok_bind]

/-- The literal printed for a text is the only quoted text that the lexer finds there, and it is
read as the text. Whatever stands in quotes is read without leaving it and its buffer. -/
theorem lexText_decompile (s : List Byte) (h : (literal s).length < 65536) :
    (∃ lit, decompile s [] = .ok lit ∧ IsLiteral lit ∧
      (∀ more part, IsLiteral part → part <+: lit ++ more → part = lit) ∧
      ∀ fuel > s.length, lexText fuel lit = .ok (some s)) ∧
    ∀ text, 2 ≤ text.length → ∃ out, ∀ fuel ≥ text.length, lexText fuel text = .ok out :=
  ⟨⟨literal s, decompile_ok h, isLiteral_literal s,
    fun _ _ hpart hstart => isLiteral_unique (isLiteral_literal s) hpart hstart,
    lexText_literal h⟩, fun _ => lexText_ends⟩

/-- A quote, a zero with a digit behind it, a backslash and a byte above 127. -/
theorem lexText_decompile_five :
    (∃ lit, decompile [34, 0, 49, 92, 255] [] = .ok lit ∧ IsLiteral lit ∧
      (∀ more part, IsLiteral part → part <+: lit ++ more → part = lit) ∧
      ∀ fuel > 5, lexText fuel lit = .ok (some [34, 0, 49, 92, 255])) ∧
    ∀ text, 2 ≤ text.length → ∃ out, ∀ fuel ≥ text.length, lexText fuel text = .ok out :=
  lexText_decompile [34, 0, 49, 92, 255] (by decide)

end MdsPlus.TextTokens
