import MdsPlus.GrammarNodes

/-!
Runs of the expression parser: tokens are shifted, and a production takes its symbols from the stack
and puts its own there. Nothing is stored outside of a node when those that are appended to or
shifted are whole.
-/

namespace MdsPlus.GrammarRuns

open GrammarNodes Outcome

inductive Token
  | error | ident | point | text | value
  | breakWord | caseWord | cond | default | doWord | elseWord | elsew | forWord
  | goto | ifWord | label | returnWord | switch | usingWord | whereWord | whileWord
  | cast | const | inc | arg | sizeof
  | add | concat | iand | inWord | ior | ixor
  | power | promo | shift | bineq | mul | mod
  | funWord | vbl | modif | modifa
  | land | leq | lge | lor | unary | leqv
  | lands | leqs | lges | lors | unarys | leqvs
  | comma | backquote | equals | range | question | times
  | leftParen | rightParen | leftBracket | rightBracket | leftBrace | rightBrace | semicolon
deriving DecidableEq

inductive Symbol
  | token (t : Token)
  | program | stmts | stmt | vector | vector0 | fundef | fundef0 | fundef1 | using0 | using1 | using
  | label | exp | ass | opt | unaryX | postX | primaX | paren | sub | text
deriving DecidableEq

def labels : List Token :=
  [.arg, .breakWord, .caseWord, .cast, .cond, .const, .default, .doWord, .elseWord, .elsew,
    .forWord, .funWord, .goto, .ident, .ifWord, .label, .land, .leq, .leqv, .lge, .lor, .modif,
    .modifa, .mod, .returnWord, .sizeof, .switch, .unary, .usingWord, .vbl, .whereWord, .whileWord]

def unaries : List Token := [.unary, .unarys, .inc]

/-- Operators whose productions build two arguments. -/
def binaries : List Token :=
  [.promo, .leqv, .lor, .lors, .land, .lands, .ior, .ixor, .iand, .leq, .leqs, .lge, .lges, .inWord,
    .shift, .add, .mul, .mod, .power]

inductive Name
  | ident | constant | path
  /-- An argument of the expression, which is copied. -/
  | argument (c : Copy)

inductive Rule
  | label (t : Token)
  | signed | unary (t : Token) | unaryPost
  | quotedAss | assUnary | assign | assignOp | conditional | range | binary (t : Token) | concat
  | times | star | assError
  | vectorClose | vectorNull | vectorOpen | vectorComma
  | optExp | optEmpty | expComma | expAss | subExp | subEmpty | parenExp | parenStmts
  | usingOpen | usingFull | usingNull | usingArgs | usingShort
  | postPrimary | flatten | squeeze | subscript | postInc | call | external | typed (known : Bool)
  | postUsing
  | textOne | textMore
  | primaModif | primaModifa | primaTwice | primaLabel (name : Name) | primaValue | primaText
  | primaParen | primaVector
  | funModif | modifFun | fundefPlain | fundefModif | fundef
  | quotedStmt | breakStmt | caseStmt | caseDefault | doStmt | forStmt | gotoStmt | ifElse | ifStmt
  | labelStmt | switchStmt | whereElse | whereStmt | whileStmt | funStmt | braces | optStmt
  | stmtsOne | stmtsMore
  | program | programEmpty | programError | syntaxError

def production : Rule → Symbol × List Symbol
  | .label t => (.label, [.token t])
  | .signed => (.unaryX, [.token .add, .unaryX])
  | .unary t => (.unaryX, [.token t, .unaryX])
  | .unaryPost => (.unaryX, [.postX])
  | .quotedAss => (.ass, [.token .backquote, .ass])
  | .assUnary => (.ass, [.unaryX])
  | .assign => (.ass, [.unaryX, .token .equals, .ass])
  | .assignOp => (.ass, [.unaryX, .token .bineq, .ass])
  | .conditional => (.ass, [.ass, .token .question, .ass, .token .range, .ass])
  | .range => (.ass, [.ass, .token .range, .ass])
  | .binary t => (.ass, [.ass, .token t, .ass])
  | .concat => (.ass, [.ass, .token .concat, .ass])
  | .times => (.ass, [.ass, .token .times, .ass])
  | .star => (.ass, [.token .times])
  | .assError => (.ass, [.token .error])
  | .vectorClose => (.vector, [.vector0, .token .rightBracket])
  | .vectorNull => (.vector, [.token .leftBracket, .token .rightBracket])
  | .vectorOpen => (.vector0, [.token .leftBracket, .ass])
  | .vectorComma => (.vector0, [.vector0, .token .comma, .ass])
  | .optExp => (.opt, [.exp])
  | .optEmpty => (.opt, [])
  | .expComma => (.exp, [.opt, .token .comma, .opt])
  | .expAss => (.exp, [.ass])
  | .subExp => (.sub, [.exp])
  | .subEmpty => (.sub, [])
  | .parenExp => (.paren, [.token .leftParen, .exp, .token .rightParen])
  | .parenStmts => (.paren, [.token .leftParen, .stmts, .token .rightParen])
  | .usingOpen => (.using0, [.token .usingWord, .token .leftParen])
  | .usingFull => (.using1, [.using0, .ass, .token .comma, .ass, .token .comma])
  | .usingNull => (.using1, [.using0, .ass, .token .comma, .token .comma])
  | .usingArgs => (.using, [.using1, .sub, .token .rightParen])
  | .usingShort => (.using, [.using0, .ass, .token .comma, .ass, .token .rightParen])
  | .postPrimary => (.postX, [.primaX])
  | .flatten => (.postX, [.postX, .token .leftBracket, .token .range, .token .rightBracket])
  | .squeeze => (.postX,
      [.postX, .token .leftBracket, .token .range, .token .range, .token .rightBracket])
  | .subscript => (.postX, [.postX, .token .leftBracket, .sub, .token .rightBracket])
  | .postInc => (.postX, [.postX, .token .inc])
  | .call => (.postX, [.label, .token .leftParen, .sub, .token .rightParen])
  | .external => (.postX, [.label, .token .point, .token .leftParen, .sub, .token .rightParen])
  | .typed _ => (.postX,
      [.label, .token .point, .label, .token .leftParen, .sub, .token .rightParen])
  | .postUsing => (.postX, [.using])
  | .textOne => (.text, [.token .text])
  | .textMore => (.text, [.text, .token .text])
  | .primaModif => (.primaX, [.token .modif, .token .vbl])
  | .primaModifa => (.primaX, [.token .modifa, .token .vbl])
  | .primaTwice => (.primaX, [.token .modifa, .token .modifa, .token .vbl])
  | .primaLabel _ => (.primaX, [.label])
  | .primaValue => (.primaX, [.token .value])
  | .primaText => (.primaX, [.text])
  | .primaParen => (.primaX, [.paren])
  | .primaVector => (.primaX, [.vector])
  | .funModif => (.fundef0, [.token .funWord, .token .modif])
  | .modifFun => (.fundef0, [.token .modif, .token .funWord])
  | .fundefPlain => (.fundef1, [.token .funWord, .label, .token .leftParen])
  | .fundefModif => (.fundef1, [.fundef0, .label, .token .leftParen])
  | .fundef => (.fundef, [.fundef1, .sub, .token .rightParen])
  | .quotedStmt => (.stmt, [.token .backquote, .stmt])
  | .breakStmt => (.stmt, [.token .breakWord, .token .semicolon])
  | .caseStmt => (.stmt, [.token .caseWord, .paren, .stmt])
  | .caseDefault => (.stmt, [.token .caseWord, .token .default, .stmt])
  | .doStmt => (.stmt, [.token .doWord, .token .leftBrace, .stmts, .token .rightBrace,
      .token .whileWord, .paren, .token .semicolon])
  | .forStmt => (.stmt, [.token .forWord, .token .leftParen, .opt, .token .semicolon, .opt,
      .token .semicolon, .opt, .token .rightParen, .stmt])
  | .gotoStmt => (.stmt, [.token .goto, .token .vbl, .token .semicolon])
  | .ifElse => (.stmt, [.token .ifWord, .paren, .stmt, .token .elseWord, .stmt])
  | .ifStmt => (.stmt, [.token .ifWord, .paren, .stmt])
  | .labelStmt => (.stmt, [.token .label, .token .vbl, .token .range, .stmt])
  | .switchStmt => (.stmt, [.token .switch, .paren, .stmt])
  | .whereElse => (.stmt, [.token .whereWord, .paren, .stmt, .token .elsew, .stmt])
  | .whereStmt => (.stmt, [.token .whereWord, .paren, .stmt])
  | .whileStmt => (.stmt, [.token .whileWord, .paren, .stmt])
  | .funStmt => (.stmt, [.fundef, .stmt])
  | .braces => (.stmt, [.token .leftBrace, .stmts, .token .rightBrace])
  | .optStmt => (.stmt, [.opt, .token .semicolon])
  | .stmtsOne => (.stmts, [.stmt])
  | .stmtsMore => (.stmts, [.stmts, .stmt])
  | .program => (.program, [.stmts])
  | .programEmpty => (.program, [])
  | .programError => (.program, [.token .error])
  | .syntaxError => (.program, [])

def emptyMarker : Marker := ⟨none, 0⟩

def plainNode : Node := ⟨.other, 0, 0, 0, false⟩

section Actions

variable (t : Table) (o : Oracle)

/-- Only some tokens stand in a production. -/
def oneOf (token : Token) (tokens : List Token) (x : Except Fault Marker) : Except Fault Marker :=
  if token ∈ tokens then x else .error .rejected

/-- A statement or an expression that is evaluated at once. -/
def quoted (m : Marker) : Except Fault Marker := do
  let rptr ← immediate o m.rptr
  .ok ⟨rptr, -2⟩

def resolved (m : Marker) : Except Fault Marker := do
  let rptr ← resolve t o m.rptr
  .ok { m with rptr }

def standing (m : Marker) : Name → Except Fault Marker
  | .ident => .ok { m with rptr := some plainNode }
  | .constant => build t o 2 0 (opcodeOf m)
  | .path => .ok { m with rptr := some plainNode }
  | .argument c => .ok ⟨some c.node, -1⟩

/-- The values of the right side, counted from one, give that of the left side. -/
def action (v : ℕ → Marker) : Rule → Except Fault Marker
  | .label token => oneOf token labels (.ok (v 1))
  | .signed =>
      build t o 3 1 (if (v 1).builtin = opcSubtract then opcUnaryMinus else opcUnaryPlus)
  | .unary token => oneOf token unaries (build t o 3 1 (opcodeOf (v 1)))
  | .unaryPost => .ok (v 1)
  | .quotedAss => quoted o (v 2)
  | .assUnary => .ok (v 1)
  | .assign => build t o 2 2 opcEquals
  | .assignOp => do
      let _ ← build t o 2 2 (opcodeOf (v 2))
      build t o 3 1 opcEqualsFirst
  | .conditional => build t o 3 3 opcConditional
  | .range => range (v 1) (v 3)
  | .binary token => oneOf token binaries (build t o 2 2 (opcodeOf (v 2)))
  | .concat => concat t o (v 1) (v 2) (v 3)
  | .times => build t o 2 2 opcMultiply
  | .star => .ok emptyMarker
  | .assError => .error .rejected
  | .vectorClose => resolved t o (v 1)
  | .vectorNull => do
      let m ← build t o 2 0 opcVector
      resolved t o m
  | .vectorOpen => build t o 255 1 opcVector
  | .vectorComma => vectorItem t o (v 1)
  | .optExp => .ok (v 1)
  | .optEmpty => .ok emptyMarker
  | .expComma => comma t o (v 1)
  | .expAss => .ok (v 1)
  | .subExp => firstSub t o (v 1)
  | .subEmpty => build t o 2 0 opcAbort
  | .parenExp => .ok { (v 2) with builtin := -2 }
  | .parenStmts => .ok { (v 2) with builtin := -2 }
  | .usingOpen => .ok (v 1)
  | .usingFull => build t o 255 2 opcAbort
  | .usingNull => build t o 255 2 opcAbort
  | .usingArgs => usingArgs (v 1) (v 2)
  | .usingShort => build t o 2 2 opcUsing
  | .postPrimary => .ok (v 1)
  | .flatten => build t o 3 1 opcFlatten
  | .squeeze => build t o 3 1 opcSqueeze
  | .subscript => subscript t o (v 3)
  | .postInc =>
      build t o 3 1 (if (v 2).builtin = opcPreInc then opcPostInc else opcPostDec)
  | .call => call t o (v 1) (v 3)
  | .external => external true (v 4)
  | .typed known => external known (v 5)
  | .postUsing => .ok (v 1)
  | .textOne => .ok (v 1)
  | .textMore => .ok { (v 1) with rptr := some plainNode }
  | .primaModif => build t o 3 1 (opcodeOf (v 1))
  | .primaModifa => build t o 3 1 (opcodeOf (v 1))
  | .primaTwice => do
      let _ ← build t o 3 1 (opcodeOf (v 2))
      build t o 3 1 (opcodeOf (v 1))
  | .primaLabel name => standing t o (v 1) name
  | .primaValue => .ok (v 1)
  | .primaText => .ok (v 1)
  | .primaParen => .ok (v 1)
  | .primaVector => .ok (v 1)
  | .funModif => .ok (v 2)
  | .modifFun => .ok (v 1)
  | .fundefPlain => .ok (v 2)
  | .fundefModif => build t o 3 1 (opcodeOf (v 1))
  | .fundef => function (v 2)
  | .quotedStmt => quoted o (v 2)
  | .breakStmt => build t o 2 0 (opcodeOf (v 1))
  | .caseStmt => build t o 255 2 (opcodeOf (v 1))
  | .caseDefault => build t o 255 1 (opcodeOf (v 2))
  | .doStmt => build t o 2 2 (opcodeOf (v 1))
  | .forStmt => build t o 4 4 (opcodeOf (v 1))
  | .gotoStmt => build t o 3 1 (opcodeOf (v 1))
  | .ifElse => build t o 3 3 (opcodeOf (v 1))
  | .ifStmt => build t o 2 2 (opcodeOf (v 1))
  | .labelStmt => build t o 255 2 opcLabel
  | .switchStmt => build t o 2 2 (opcodeOf (v 1))
  | .whereElse => build t o 3 3 (opcodeOf (v 1))
  | .whereStmt => build t o 2 2 (opcodeOf (v 1))
  | .whileStmt => build t o 2 2 (opcodeOf (v 1))
  | .funStmt => body (v 1)
  | .braces => resolved t o (v 2)
  | .optStmt => .ok (v 1)
  | .stmtsOne => .ok (v 1)
  | .stmtsMore => statement t o (v 1) (v 2)
  | .program => resolved t o (v 1)
  | .programEmpty => .ok emptyMarker
  | .programError => .error .rejected
  | .syntaxError => .error .rejected

end Actions

/-! ### Runs -/

abbrev Stack := List (Symbol × Marker)

inductive Act
  /-- A token with its number, and perhaps a text, name or value. -/
  | shift (token : Token) (text : Bool) (builtin : ℤ)
  | reduce (rule : Rule) (o : Oracle)

/-- The symbols of a right side on top of the stack. -/
def taken (s : Stack) (right : List Symbol) : Stack := (s.take right.length).reverse

def valueOf (right : Stack) (i : ℕ) : Marker := (right[i - 1]?.map Prod.snd).getD emptyMarker

def step (t : Table) (s : Stack) : Act → Except Fault Stack
  | .shift token text builtin =>
      .ok ((.token token, ⟨if text then some plainNode else none, builtin⟩) :: s)
  | .reduce rule o =>
      let (left, right) := production rule
      if (taken s right).map Prod.fst = right then do
        let m ← action t o (valueOf (taken s right)) rule
        .ok ((left, m) :: s.drop right.length)
      else .error .rejected

/-- Arguments that are shifted are whole if there are several. -/
def WholeSub (sub : Marker) : Prop := ∀ n ∈ sub.rptr, isFunction n opcComma → Whole n

/-- A node that an action appends to or shifts is whole; a range of two that takes a third is not a
copy; a statement list may also have a free slot; and not too many arguments come to USING. -/
def Proper (v : ℕ → Marker) : Rule → Prop
  | .range => ∀ n ∈ (v 3).rptr, n.dtype = .range → n.ndesc = 2 → n.copied = false
  | .concat => ∀ n ∈ (v 1).rptr, isFunction n opcConcat → n.ndesc < 250 → Whole n
  | .expComma => ∀ n ∈ (v 1).rptr, isComma (v 1) n → n.ndesc < 250 → Whole n
  | .usingArgs => ∀ n ∈ (v 2).rptr, n.ndesc ≤ 253
  | .subscript => WholeSub (v 3)
  | .call => (v 1).builtin < 0 → WholeSub (v 3)
  | .external => WholeSub (v 4)
  | .typed known => known = true → WholeSub (v 5)
  | .fundef => WholeSub (v 2)
  | .stmtsMore => (v 2).rptr ≠ none → ∀ n ∈ (v 1).rptr, isList n →
      Whole n ∨ n.copied = false ∧ n.ndesc < n.slots
  | _ => True

/-- The condition on the next action. -/
def Meets (s : Stack) : Act → Prop
  | .shift _ _ _ => True
  | .reduce rule _ => Proper (valueOf (taken s (production rule).2)) rule

/-! ### What each symbol stands for -/

def Entry : Symbol → Marker → Prop
  | .sub, m => Sub m
  | .vector0, m => Items m
  | .using1, m => Begun m
  | .fundef, m => Defined m
  | _, m => Holds m.rptr

theorem Entry.holds {symbol : Symbol} {m : Marker} (h : Entry symbol m) : Holds m.rptr := by
  cases symbol with
  | sub => exact Sub.holds h
  | vector0 => exact Items.holds h
  | using1 => exact Begun.holds h
  | fundef => exact Defined.holds h
  | _ => exact h

variable {t : Table} {o : Oracle} {v : ℕ → Marker} {m : Marker} {s : Stack}

theorem oneOf_safe {P : Marker → Prop} {token : Token} {tokens : List Token}
    {x : Except Fault Marker} (h : Safe P x) : Safe P (oneOf token tokens x) := by
  rw [oneOf]
  split
  · exact h
  · exact rfl

theorem quoted_safe (m : Marker) : Safe (fun m => Holds m.rptr) (quoted o m) :=
  (immediate_safe m.rptr).bind fun _ hrptr => hrptr

theorem resolved_safe (h : Holds m.rptr) : Safe (fun m => Holds m.rptr) (resolved t o m) :=
  (resolve_safe h).bind fun _ hrptr => hrptr

theorem holds_plain : Holds (some plainNode) :=
  holds_some ⟨by decide, by decide, fun _ _ => by decide, fun _ hrange => by cases hrange⟩

theorem standing_safe (m : Marker) (name : Name) :
    Safe (fun m => Holds m.rptr) (standing t o m name) := by
  cases name with
  | ident | path => exact holds_plain
  | constant => exact build_safe (by omega) (by omega)
  | argument c => exact holds_some c.sound

theorem action_safe (rule : Rule)
    (h : ∀ i symbol, (production rule).2[i]? = some symbol → Entry symbol (v (i + 1)))
    (hproper : Proper v rule) : Safe (Entry (production rule).1) (action t o v rule) := by
  cases rule with
  | label => exact oneOf_safe (h 0 _ rfl)
  | unaryPost | assUnary | optExp | expAss | postPrimary | postUsing | textOne | primaValue
  | primaText | primaParen | primaVector | stmtsOne | usingOpen | modifFun | optStmt =>
    exact h 0 _ rfl
  | funModif | parenExp | parenStmts | fundefPlain => exact h 1 _ rfl
  | star | optEmpty | programEmpty => exact holds_none
  | assError | programError | syntaxError => exact rfl
  | textMore => exact holds_plain
  | primaLabel name => exact standing_safe (v 1) name
  | quotedAss | quotedStmt => exact quoted_safe (v 2)
  | vectorClose => exact resolved_safe (Entry.holds (h 0 _ rfl))
  | program => exact resolved_safe (h 0 _ rfl)
  | braces => exact resolved_safe (h 1 _ rfl)
  | vectorNull => exact (build_safe (by omega) (by omega)).bind fun m hm => resolved_safe hm
  | signed | primaModif | primaModifa | breakStmt | postInc | assign | times | caseStmt
  | caseDefault | gotoStmt | ifStmt | switchStmt | whereStmt | whileStmt | fundefModif | flatten
  | labelStmt | conditional | squeeze | usingShort | ifElse | whereElse | doStmt | forStmt =>
    exact build_safe (by omega) (by omega)
  | unary | binary => exact oneOf_safe (build_safe (by omega) (by omega))
  | primaTwice | assignOp =>
    exact (build_safe (by omega) (by omega)).bind fun _ _ => build_safe (by omega) (by omega)
  | usingFull | usingNull =>
    rw [action, build_abort (by omega) (by omega)]
    exact ⟨_, rfl, rfl, rfl, rfl⟩
  | vectorOpen =>
    rw [action, build_vector (by omega)]
    exact ⟨_, rfl, rfl, by simp only; omega, rfl, rfl⟩
  | vectorComma => exact vectorItem_safe (h 0 _ rfl)
  | range => exact range_safe (h 2 _ rfl) hproper
  | concat => exact concat_safe (h 0 _ rfl) (h 2 _ rfl) hproper
  | expComma => exact comma_safe (h 0 _ rfl) hproper
  | subExp => exact firstSub_safe (h 0 _ rfl)
  | subEmpty => exact sub_abort (by omega) (by omega)
  | usingArgs => exact usingArgs_safe (h 0 _ rfl) (h 1 _ rfl) hproper
  | subscript => exact subscript_safe (h 2 _ rfl) hproper
  | call => exact call_safe (h 2 _ rfl) hproper
  | external => exact external_safe true (h 3 _ rfl) fun _ => hproper
  | typed known => exact external_safe known (h 4 _ rfl) hproper
  | fundef => exact function_safe (h 1 _ rfl) hproper
  | funStmt => exact body_safe (h 0 _ rfl)
  | stmtsMore => exact statement_safe (h 0 _ rfl) (h 1 _ rfl) hproper

/-! ### Stacks -/

def Known (s : Stack) : Prop := ∀ p ∈ s, Entry p.1 p.2

theorem Known.valueOf (h : Known s) {right : List Symbol}
    (hright : (taken s right).map Prod.fst = right) {i : ℕ} {symbol : Symbol}
    (hi : right[i]? = some symbol) : Entry symbol (valueOf (taken s right) (i + 1)) := by
  rw [← hright, List.getElem?_map] at hi
  obtain ⟨p, hp, rfl⟩ := Option.map_eq_some_iff.1 hi
  have hmem : p ∈ s := List.mem_of_mem_take (List.mem_reverse.1 (List.mem_of_getElem? hp))
  rw [GrammarRuns.valueOf, Nat.add_sub_cancel, hp]
  exact h p hmem

theorem step_safe (hs : Known s) (a : Act) (h : Meets s a) : Safe Known (step t s a) := by
  cases a with
  | shift token text builtin =>
    refine List.forall_mem_cons.2 ⟨?_, hs⟩
    change Holds (if text then some plainNode else none)
    split
    · exact holds_plain
    · exact holds_none
  | reduce rule o =>
    rw [step]
    simp only
    split
    · rename_i hright
      refine (action_safe rule (fun i symbol hi => hs.valueOf hright hi) h).bind fun m hm => ?_
      exact List.forall_mem_cons.2 ⟨hm, fun p hp => hs p (List.mem_of_mem_drop hp)⟩
    · exact rfl

theorem run_known (acts : List Act) (hs : Known s) (h : Admissible (step t) Meets s acts) :
    Safe Known (run (step t) s acts) := by
  induction acts generalizing s with
  | nil => exact hs
  | cons a acts ih =>
    obtain ⟨ha, hrest⟩ := h
    have hstep := step_safe (t := t) hs a ha
    rw [run]
    cases hnext : step t s a with
    | error e =>
      rw [hnext] at hstep
      exact hstep
    | ok s' =>
      rw [hnext] at hstep
      exact ih hstep (hrest s' hnext)

/-- In a run whose steps all meet the condition nothing is stored elsewhere and no count wraps. -/
theorem run_safe (t : Table) (acts : List Act) (h : Admissible (step t) Meets [] acts) :
    run (step t) [] acts ≠ .error .overrun ∧ run (step t) [] acts ≠ .error .wrapped := by
  have hsafe := run_known (t := t) acts (List.forall_mem_nil _) h
  constructor
  · intro hrun
    rw [hrun] at hsafe
    cases hsafe
  · intro hrun
    rw [hrun] at hsafe
    cases hsafe

theorem admissible_cons {a : Act} {acts : List Act} {s' : Stack} (h : Meets s a)
    (hstep : step t s a = .ok s') (hrest : Admissible (step t) Meets s' acts) :
    Admissible (step t) Meets s (a :: acts) := by
  refine ⟨h, fun next hnext => ?_⟩
  obtain rfl := Except.ok.inj (hstep.symm.trans hnext)
  exact hrest

def rows : Table where
  info opcode :=
    if opcode = opcVector then ⟨0, 254, true⟩
    else if opcode = opcStatement then ⟨0, 254, false⟩
    else ⟨0, 255, false⟩
  abort := rfl
  vector := rfl

def idle : Oracle := ⟨fun _ => false, fun _ => none⟩

def starred : List Act := [.shift .times false 0, .reduce .star idle]

/-- The range *:*:* is built as one of two and takes a third. -/
theorem run_safe_range :
    let acts := starred ++ .shift .range false 0 :: starred ++ .shift .range false 0 :: starred ++
      [.reduce .range idle, .reduce .range idle]
    run (step rows) [] acts ≠ .error .overrun ∧ run (step rows) [] acts ≠ .error .wrapped := by
  refine run_safe rows _ ?_
  iterate 8 refine admissible_cons trivial rfl ?_
  refine admissible_cons (fun n hn => nomatch hn) rfl ?_
  refine admissible_cons (fun n hn _ _ => ?_) rfl trivial
  cases hn
  rfl

/-- A variable as an expression that is not followed by an operator. -/
def variableActs : List Act :=
  [.shift .vbl true 0, .reduce (.label .vbl) idle, .reduce (.primaLabel .ident) idle,
    .reduce .postPrimary idle, .reduce .unaryPost idle, .reduce .assUnary idle,
    .reduce .expAss idle]

def variableStmt : List Act :=
  variableActs ++ [.reduce .optExp idle, .shift .semicolon false 0, .reduce .optStmt idle]

def statementCall : List Act :=
  [.shift .ident true opcStatement, .reduce (.label .ident) idle, .shift .leftParen false 0] ++
    variableActs ++
    [.reduce .subExp idle, .shift .rightParen false 0, .reduce .call idle, .reduce .unaryPost idle,
      .reduce .assUnary idle, .reduce .expAss idle, .reduce .optExp idle,
      .shift .semicolon false 0, .reduce .optStmt idle, .reduce .stmtsOne idle]

/-- STATEMENT(_a); _b; _c; _d; has slots for three. -/
theorem statementCall_overruns :
    run (step rows) [] (statementCall ++ variableStmt ++ [.reduce .stmtsMore idle] ++
      variableStmt ++ [.reduce .stmtsMore idle] ++ variableStmt ++ [.reduce .stmtsMore idle]) =
      .error .overrun := rfl

end MdsPlus.GrammarRuns
