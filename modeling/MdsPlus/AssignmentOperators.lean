import MdsPlus.ExpressionTokens
import MdsPlus.VariableRuns

/-!
Operators that assign. The lexer has a rule of its own for each operator with an equals sign, and
the result is put into the variable by a second function around the operation.
-/

namespace MdsPlus.AssignmentOperators

open BitMemory (Byte)
open ExpressionTokens
open Variables

/-- An operator with the blanks that must stand before an equals sign, what the rule with an equals
sign makes of it, and what it is without. -/
structure Operator where
  head : Text
  least : ℕ
  assigned : Opcode
  plain : Action
deriving DecidableEq

def doubles : List Operator :=
  [⟨[60, 61], 0, .le, .op .lges .le⟩, ⟨[62, 61], 0, .ge, .op .lges .ge⟩,
    ⟨[61, 61], 0, .eq, .op .lges .eq⟩, ⟨[33, 61], 0, .ne, .op .leqs .ne⟩,
    ⟨[60, 62], 0, .ne, .op .leqs .ne⟩, ⟨[60, 60], 0, .le, .op .shift .shiftLeft⟩,
    ⟨[62, 62], 0, .ge, .op .shift .shiftRight⟩, ⟨[124, 124], 0, .or, .op .lors .or⟩,
    ⟨[38, 38], 0, .and, .op .lands .and⟩, ⟨[42, 42], 0, .power, .op .power .power⟩,
    ⟨[47, 47], 0, .concat, .op .concat .concat⟩]

def singles : List Operator :=
  [⟨[38], 0, .iand, .op .iand .iand⟩, ⟨[43], 0, .add, .op .add .add⟩,
    ⟨[45], 0, .subtract, .op .add .subtract⟩, ⟨[60], 1, .lt, .op .lges .lt⟩,
    ⟨[62], 1, .gt, .op .lges .gt⟩, ⟨[94], 0, .power, .op .power .power⟩,
    ⟨[124], 0, .ior, .op .ior .ior⟩, ⟨[47], 0, .divide, .op .mul .divide⟩,
    ⟨[37], 0, .mod, .op .mul .mod⟩, ⟨[42], 0, .multiply, .char⟩]

def operators : List Operator := doubles ++ singles

/-- Whether there is a rule for the operator with an equals sign and one without. -/
def HasBoth (o : Operator) : Prop :=
  (Pattern.assign o.head o.least, Action.op .bineq o.assigned) ∈ rules ∧
    (Pattern.blanks o.head, o.plain) ∈ rules

/-! ### Nodes -/

inductive Variable
  | plain (name : VariableNames.Name)
  | publicly (name : VariableNames.Name)
  | privately (name : VariableNames.Name)
deriving DecidableEq

def Variable.ident {α : Type} : Variable → Ident α
  | .plain name => .name name
  | .publicly name => .publicly (.name name)
  | .privately name => .privately (.name name)

inductive Fun
  | equals
  | equalsFirst
  | op (opcode : Opcode)
deriving DecidableEq

/-- What the grammar builds; an expression on the right is anything that it builds. -/
inductive Node (Rhs : Type)
  | var (x : Variable)
  | rhs (e : Rhs)
  | fun1 (f : Fun) (a : Node Rhs)
  | fun2 (f : Fun) (a b : Node Rhs)

variable {α Rhs : Type}

def binaryTokens : List Token :=
  [.lors, .lands, .ior, .iand, .leqs, .lges, .concat, .shift, .add, .mul, .power]

/-- The rules for an expression with an operator between two; an asterisk is OPC_MULTIPLY. -/
def binary (a b : Node Rhs) : Action → Option (Node Rhs)
  | .op token opcode => if token ∈ binaryTokens then some (.fun2 (.op opcode) a b) else none
  | .char => some (.fun2 (.op .multiply) a b)
  | _ => none

def assignment (a b : Node Rhs) : Action → Option (Node Rhs)
  | .op .bineq opcode => some (.fun1 .equalsFirst (.fun2 (.op opcode) a b))
  | _ => none

/-- What the lexer makes of the bytes in front of others, if it takes just these. -/
def token (front rest : Text) : Option Action :=
  (best rules (front ++ rest)).bind fun r => if r.1 = front.length then some r.2 else none

/-- A variable, an operator with an equals sign and an expression. -/
def compileAssigned (x : Variable) (front rest : Text) (e : Rhs) : Option (Node Rhs) :=
  (token front rest).bind (assignment (.var x) (.rhs e))

/-- The variable, an equals sign, the variable, an operator and the expression in parentheses. -/
def compilePlain (x : Variable) (front rest : Text) (e : Rhs) : Option (Node Rhs) :=
  (token front (40 :: rest)).bind fun a =>
    (binary (.var x) (.rhs e) a).map (.fun2 .equals (.var x))

/-! ### Evaluation -/

/-- The variables with a status or the data. -/
abbrev Evaluated (α : Type) := Option (Vars α × Except Failure (Option α))

/-- TDI_INTRINSIC_REC is not larger where a function is called. -/
def limit : ℕ := 1800

/-- How functions other than the assignments are evaluated with so many calls around them. The
number of calls around them matters only when there are too many. -/
structure Evaluator (α Rhs : Type) where
  operate : ℕ → Node Rhs → Vars α → Evaluated α
  levels : Node Rhs → Vars α → ℕ
  deep : ∀ {rec rec' node s}, rec + levels node s ≤ limit + 1 → rec' + levels node s ≤ limit + 1 →
    operate rec node s = operate rec' node s

def tdiIntrinsic (rec : ℕ) (s : Vars α) (function : Evaluated α) : Evaluated α :=
  if rec > limit then some (s, .error .other) else function

def tdi1Equals (memory : Memory) (x : Variable) (value : Evaluated α) : Evaluated α :=
  value.bind fun (s, r) =>
    match r with
    | .ok v =>
        (runOp s (.put x.ident (some v) memory)).map fun (s, reply) =>
          match reply with
          | .status none => (s, .ok v)
          | .status (some failure) => (s, .error failure)
          | _ => (s, .error .other)
    | .error failure =>
        (runOp s (.put x.ident none memory)).map fun (s, _) => (s, .error failure)

/-- TdiEvaluate. Tdi1EqualsFirst calls Tdi1Equals for the first argument of its argument. -/
def evaluate (E : Evaluator α Rhs) (memory : Memory) : ℕ → Node Rhs → Vars α → Evaluated α
  | rec, .fun2 .equals (.var x) b, s =>
      tdiIntrinsic rec s (tdi1Equals memory x (evaluate E memory (rec + 1) b s))
  | rec, .fun1 .equalsFirst a, s =>
      tdiIntrinsic rec s
        (match a with
        | .fun2 _ (.var x) _ =>
            tdiIntrinsic (rec + 1) s
              (tdi1Equals memory x (evaluate E memory (rec + 2) a s))
        | _ => some (s, .error .invDtyDsc))
  | rec, node, s => E.operate rec node s

/-- The two texts are compiled and give the same data or status and the same variables. -/
def Same (E : Evaluator α Rhs) (memory : Memory) (rec : ℕ) (s : Vars α) (x : Variable)
    (assigned plain rest : Text) (e : Rhs) : Prop :=
  ∃ node node', compileAssigned x assigned rest e = some node ∧
    compilePlain x plain rest e = some node' ∧
    evaluate E memory rec node s = evaluate E memory rec node' s

/-- << and >>. -/
def shifts : List Text := [[60, 60], [62, 62]]

def Operator.opcode (o : Operator) : Opcode :=
  match o.plain with
  | .op _ opcode => opcode
  | _ => .multiply

/-- Two calls more than those around it do not bring the operation to the limit. -/
def Room (E : Evaluator α Rhs) (rec : ℕ) (s : Vars α) (x : Variable) (o : Operator) (e : Rhs) :
    Prop :=
  ∀ opcode ∈ [o.assigned, o.opcode],
    rec + 2 + E.levels (.fun2 (.op opcode) (.var x) (.rhs e)) s ≤ limit + 1

/-! ### Tokens -/

section Tokens

variable {t blanks rest : Text} {n : ℕ} {b e : Byte} {o : Operator}

theorem hasBoth_iff : HasBoth o ↔ o ∈ operators := by
  have hassign : (rules.all fun r => match r with
      | (.assign head least, .op .bineq assigned) => operators.any fun o =>
          o.head = head && o.least = least && o.assigned = assigned
      | _ => true) = true := by
    decide +kernel
  have hplain : (rules.all fun r => match r with
      | (.blanks head, plain) => operators.any fun o => o.head = head && o.plain = plain
      | _ => true) = true := by
    decide +kernel
  have hinjective : ∀ o ∈ operators, ∀ o' ∈ operators, o.head = o'.head → o = o' := by
    decide +kernel
  have hback : ∀ o ∈ operators,
      (Pattern.assign o.head o.least, Action.op .bineq o.assigned) ∈ rules ∧
        (Pattern.blanks o.head, o.plain) ∈ rules := by
    decide +kernel
  refine ⟨fun ⟨h, h'⟩ => ?_, fun h => hback o h⟩
  have hfirst := List.all_eq_true.1 hassign _ h
  have hsecond := List.all_eq_true.1 hplain _ h'
  simp only [List.any_eq_true, Bool.and_eq_true, decide_eq_true_eq] at hfirst hsecond
  obtain ⟨o₁, ho₁, ⟨hhead, hleast⟩, hassigned⟩ := hfirst
  obtain ⟨o₂, ho₂, hhead', hplain⟩ := hsecond
  obtain rfl := hinjective o₁ ho₁ o₂ ho₂ (hhead.trans hhead'.symm)
  have heq : o = o₁ := by
    cases o
    cases o₁
    simp_all
  rwa [heq]

theorem run_cons (p : Byte → Bool) (c : Byte) (t : Text) :
    run p (c :: t) = if p c then run p t + 1 else 0 := by
  rw [run, List.takeWhile_cons]
  split <;> rfl

/-- The rules that begin with a byte, for the bytes that operators begin with. -/
def slice (c : Byte) : List (Pattern × Action) :=
  if c = 60 then
    [(.assign [60, 61] 0, .op .bineq .le), (.assign [60, 62] 0, .op .bineq .ne),
      (.blanks [60, 61], .op .lges .le), (.blanks [60, 62], .op .leqs .ne),
      (.assign [60, 60] 0, .op .bineq .le), (.blanks [60, 60], .op .shift .shiftLeft),
      (.assign [60] 1, .op .bineq .lt), (.blanks [60], .op .lges .lt), (.any, .char)]
  else if c = 62 then
    [(.assign [62, 61] 0, .op .bineq .ge), (.blanks [62, 61], .op .lges .ge),
      (.assign [62, 62] 0, .op .bineq .ge), (.blanks [62, 62], .op .shift .shiftRight),
      (.assign [62] 1, .op .bineq .gt), (.blanks [62], .op .lges .gt), (.any, .char)]
  else if c = 61 then
    [(.assign [61, 61] 0, .op .bineq .eq), (.blanks [61, 61], .op .lges .eq), (.any, .char)]
  else if c = 33 then
    [(.assign [33, 61] 0, .op .bineq .ne), (.blanks [33, 61], .op .leqs .ne),
      (.lit [33], .op .unarys .not), (.any, .char)]
  else if c = 124 then
    [(.assign [124, 124] 0, .op .bineq .or), (.blanks [124, 124], .op .lors .or),
      (.assign [124] 0, .op .bineq .ior), (.blanks [124], .op .ior .ior), (.any, .char)]
  else if c = 38 then
    [(.assign [38, 38] 0, .op .bineq .and), (.blanks [38, 38], .op .lands .and),
      (.assign [38] 0, .op .bineq .iand), (.blanks [38], .op .iand .iand), (.any, .char)]
  else if c = 42 then
    [(.assign [42, 42] 0, .op .bineq .power), (.blanks [42, 42], .op .power .power),
      (.assign [42] 0, .op .bineq .multiply), (.blanks [42], .char), (.any, .char)]
  else if c = 47 then
    [(.comment, .skip), (.lit [47, 42], .unbalance), (.assign [47, 47] 0, .op .bineq .concat),
      (.blanks [47, 47], .op .concat .concat), (.assign [47] 0, .op .bineq .divide),
      (.blanks [47], .op .mul .divide), (.any, .char)]
  else if c = 43 then
    [(.lit [43, 43], .op .inc .preInc), (.assign [43] 0, .op .bineq .add),
      (.blanks [43], .op .add .add), (.any, .char)]
  else if c = 45 then
    [(.lit [45, 45], .op .inc .preDec), (.assign [45] 0, .op .bineq .subtract),
      (.blanks [45], .op .add .subtract), (.libcall, .libcall), (.any, .char)]
  else if c = 94 then
    [(.assign [94] 0, .op .bineq .power), (.blanks [94], .op .power .power), (.any, .char)]
  else
    [(.assign [37] 0, .op .bineq .mod), (.blanks [37], .op .mul .mod), (.any, .char)]

theorem slice_eq : ∀ c ∈ ([60, 62, 61, 33, 124, 38, 42, 47, 43, 45, 94, 37] : List Byte),
    rules.filter (fun r => r.1.starts c) = slice c := by
  decide +kernel

theorem run_blanks (hblanks : ∀ b ∈ blanks, IsBlank b = true) (he : IsBlank e = false) :
    run IsBlank (blanks ++ e :: rest) = blanks.length ∧
      (blanks ++ e :: rest)[blanks.length]? = some e := by
  refine ⟨run_append hblanks ?_, ?_⟩
  · rintro c ⟨⟩
    exact he
  · rw [List.getElem?_append_right le_rfl, Nat.sub_self]
    rfl

theorem best_slice {c : Byte}
    (hc : c ∈ ([60, 62, 61, 33, 124, 38, 42, 47, 43, 45, 94, 37] : List Byte)) (t : Text) :
    best rules (c :: t) = best (slice c) (c :: t) := by
  rw [best_filter, slice_eq c hc]

theorem best_double (ho : o ∈ doubles) (hrun : run IsBlank t = n) :
    (t[n]? = some 61 →
      best rules (o.head ++ t) = some (o.head.length + n + 1, .op .bineq o.assigned)) ∧
    (t[n]? = some 40 → best rules (o.head ++ t) = some (o.head.length + n, o.plain)) := by
  have h1 : ∀ k, 1 ≤ 2 + k := by omega
  simp only [doubles, List.mem_cons, List.not_mem_nil, or_false] at ho
  refine ⟨fun hend => ?_, fun hend => ?_⟩
  all_goals
    rcases ho with rfl | rfl | rfl | rfl | rfl | rfl | rfl | rfl | rfl | rfl | rfl
    all_goals
      rw [List.cons_append, best_slice (by decide)]
      simp [slice, best, Pattern.scan, List.isPrefixOf?, run_cons, IsBlank, hend, hrun, h1]

theorem best_single (ho : o ∈ singles) :
    (o.least = 0 → best rules (o.head ++ 61 :: rest) =
      some (o.head.length + 1, .op .bineq o.assigned)) ∧
    best rules (o.head ++ 40 :: rest) = some (o.head.length, o.plain) := by
  simp only [singles, List.mem_cons, List.not_mem_nil, or_false] at ho
  refine ⟨fun hleast => ?_, ?_⟩
  · rcases ho with rfl | rfl | rfl | rfl | rfl | rfl | rfl | rfl | rfl | rfl
    all_goals
      rw [List.cons_append, best_slice (by decide)]
      simp [slice, best, Pattern.scan, List.isPrefixOf?, run_cons, IsBlank, libcallEnd, seq,
        byteEnd] at hleast ⊢
  · rcases ho with rfl | rfl | rfl | rfl | rfl | rfl | rfl | rfl | rfl | rfl
    all_goals
      rw [List.cons_append, best_slice (by decide)]
      simp [slice, best, Pattern.scan, List.isPrefixOf?, run_cons, IsBlank, libcallEnd, seq,
        byteEnd]

theorem best_single_blank (ho : o ∈ singles) (hb : IsBlank b = true) (hrun : run IsBlank t = n) :
    (t[n]? = some 61 → best rules (o.head ++ b :: t) =
      some (o.head.length + (n + 1) + 1, .op .bineq o.assigned)) ∧
    (t[n]? = some 40 → best rules (o.head ++ b :: t) = some (o.head.length + (n + 1), o.plain)) := by
  have hb' : b = 32 ∨ b = 9 := by
    rwa [IsBlank, Bool.or_eq_true, decide_eq_true_eq, decide_eq_true_eq] at hb
  simp only [singles, List.mem_cons, List.not_mem_nil, or_false] at ho
  refine ⟨fun hend => ?_, fun hend => ?_⟩
  all_goals
    rcases ho with rfl | rfl | rfl | rfl | rfl | rfl | rfl | rfl | rfl | rfl
    all_goals
      rw [List.cons_append, best_slice (by decide)]
      rcases hb' with rfl | rfl
      all_goals
        simp [slice, best, Pattern.scan, List.isPrefixOf?, run_cons, IsBlank, libcallEnd, seq,
          byteEnd, hend, hrun]

theorem best_assigned (ho : HasBoth o) (hblanks : ∀ b ∈ blanks, IsBlank b = true)
    (hleast : o.least ≤ blanks.length) : best rules (o.head ++ (blanks ++ 61 :: rest)) =
      some (o.head.length + blanks.length + 1, .op .bineq o.assigned) := by
  obtain ⟨hrun, hend⟩ := @run_blanks blanks rest 61 hblanks rfl
  rcases List.mem_append.1 (hasBoth_iff.1 ho) with ho | ho
  · exact (best_double ho hrun).1 hend
  · cases blanks with
    | nil => exact (best_single ho).1 (Nat.le_zero.1 hleast)
    | cons b blanks =>
      obtain ⟨hb, hblanks⟩ := List.forall_mem_cons.1 hblanks
      obtain ⟨hrun, hend⟩ := @run_blanks blanks rest 61 hblanks rfl
      exact (best_single_blank ho hb hrun).1 hend

theorem best_plain (ho : HasBoth o) (hblanks : ∀ b ∈ blanks, IsBlank b = true) :
    best rules (o.head ++ (blanks ++ 40 :: rest)) =
      some (o.head.length + blanks.length, o.plain) := by
  obtain ⟨hrun, hend⟩ := @run_blanks blanks rest 40 hblanks rfl
  rcases List.mem_append.1 (hasBoth_iff.1 ho) with ho | ho
  · exact (best_double ho hrun).2 hend
  · cases blanks with
    | nil => exact (best_single ho).2
    | cons b blanks =>
      obtain ⟨hb, hblanks⟩ := List.forall_mem_cons.1 hblanks
      obtain ⟨hrun, hend⟩ := @run_blanks blanks rest 40 hblanks rfl
      exact (best_single_blank ho hb hrun).2 hend

end Tokens

/-! ### Both ways of assignment -/

variable {E : Evaluator α Rhs} {memory : Memory} {rec : ℕ} {s : Vars α} {x : Variable}
  {o : Operator} {blanks blanks' rest : Text} {e : Rhs}

theorem compileAssigned_eq (ho : HasBoth o) (hblanks : ∀ b ∈ blanks, IsBlank b = true)
    (hleast : o.least ≤ blanks.length) :
    compileAssigned x (o.head ++ (blanks ++ [61])) rest e =
      some (.fun1 .equalsFirst (.fun2 (.op o.assigned) (.var x) (.rhs e))) := by
  have hbest := @best_assigned blanks rest o ho hblanks hleast
  have hfront : o.head ++ (blanks ++ [61]) ++ rest = o.head ++ (blanks ++ 61 :: rest) := by
    simp only [List.append_assoc, List.singleton_append]
  have hlength : (o.head ++ (blanks ++ [61])).length = o.head.length + blanks.length + 1 := by
    simp only [List.length_append, List.length_singleton, Nat.add_assoc]
  rw [compileAssigned, token, hfront, hbest, Option.bind_some, if_pos hlength.symm]
  rfl

theorem compilePlain_eq (ho : HasBoth o) (hblanks : ∀ b ∈ blanks, IsBlank b = true) :
    compilePlain x (o.head ++ blanks) rest e =
      some (.fun2 .equals (.var x) (.fun2 (.op o.opcode) (.var x) (.rhs e))) := by
  have hbest := @best_plain blanks rest o ho hblanks
  have hbinary : ∀ o ∈ operators, binary (.var x) (.rhs e) o.plain =
      some (Node.fun2 (.op o.opcode) (.var x) (.rhs e)) := by
    intro o ho
    have hall : ∀ o ∈ operators, o.plain = .char ∨
        ∃ token ∈ binaryTokens, o.plain = .op token o.opcode := by
      decide
    rcases hall o ho with hchar | ⟨token, htoken, hop⟩
    · rw [Operator.opcode, hchar]
      rfl
    · rw [hop, binary, if_pos htoken]
  rw [compilePlain, token, List.append_assoc, hbest, Option.bind_some,
    if_pos List.length_append.symm, Option.bind_some, hbinary o (hasBoth_iff.1 ho)]
  rfl

theorem opcode_eq (ho : HasBoth o) (h : o.head ∉ shifts) : o.opcode = o.assigned := by
  have hall : ∀ o ∈ operators, o.head ∉ shifts → o.opcode = o.assigned := by decide
  exact hall o (hasBoth_iff.1 ho) h

theorem evaluate_assigned (hrec : rec < limit) (opcode : Opcode) :
    evaluate E memory rec (.fun1 .equalsFirst (.fun2 (.op opcode) (.var x) (.rhs e))) s =
      tdi1Equals memory x (E.operate (rec + 2) (.fun2 (.op opcode) (.var x) (.rhs e)) s) := by
  rw [evaluate, tdiIntrinsic, if_neg (by omega), tdiIntrinsic, if_neg (by omega)]
  rfl

theorem evaluate_plain (hrec : rec < limit) (opcode : Opcode) :
    evaluate E memory rec (.fun2 .equals (.var x) (.fun2 (.op opcode) (.var x) (.rhs e))) s =
      tdi1Equals memory x (E.operate (rec + 1) (.fun2 (.op opcode) (.var x) (.rhs e)) s) := by
  rw [evaluate, tdiIntrinsic, if_neg (by omega)]
  rfl

/-- An operator with an equals sign does what the operation and an assignment do, just when it is
no shift or the comparison that stands for the shift comes to the same. -/
theorem assigned_same_iff (ho : HasBoth o) (hblanks : ∀ b ∈ blanks, IsBlank b = true)
    (hblanks' : ∀ b ∈ blanks', IsBlank b = true) (hleast : o.least ≤ blanks.length)
    (hroom : Room E rec s x o e) :
    Same E memory rec s x (o.head ++ (blanks ++ [61])) (o.head ++ blanks') rest e ↔
      o.head ∉ shifts ∨
        tdi1Equals memory x (E.operate 0 (.fun2 (.op o.assigned) (.var x) (.rhs e)) s) =
          tdi1Equals memory x (E.operate 0 (.fun2 (.op o.opcode) (.var x) (.rhs e)) s) := by
  have hassigned := hroom o.assigned List.mem_cons_self
  have hplain := hroom o.opcode (List.mem_cons_of_mem _ List.mem_cons_self)
  have hrec : rec < limit := by omega
  have hdeep : E.operate (rec + 2) (.fun2 (.op o.assigned) (.var x) (.rhs e)) s =
      E.operate 0 (.fun2 (.op o.assigned) (.var x) (.rhs e)) s := E.deep hassigned (by omega)
  have hdeep' : E.operate (rec + 1) (.fun2 (.op o.opcode) (.var x) (.rhs e)) s =
      E.operate 0 (.fun2 (.op o.opcode) (.var x) (.rhs e)) s := E.deep (by omega) (by omega)
  have hsame : Same E memory rec s x (o.head ++ (blanks ++ [61])) (o.head ++ blanks') rest e ↔
      tdi1Equals memory x (E.operate 0 (.fun2 (.op o.assigned) (.var x) (.rhs e)) s) =
        tdi1Equals memory x (E.operate 0 (.fun2 (.op o.opcode) (.var x) (.rhs e)) s) := by
    rw [Same, compileAssigned_eq ho hblanks hleast, compilePlain_eq ho hblanks']
    simp only [Option.some.injEq, exists_and_left, exists_eq_left', evaluate_assigned hrec,
      evaluate_plain hrec, hdeep, hdeep']
  rw [hsame]
  constructor
  · exact Or.inr
  · rintro (hshift | heq)
    · rw [opcode_eq ho hshift]
    · exact heq

/-! ### Longs -/

def arithmetic : Opcode → ℤ → ℤ → Except Failure (Option ℤ)
  | .add, a, b => .ok (some (a + b))
  | .le, a, b => .ok (some (if a ≤ b then 1 else 0))
  | .ge, a, b => .ok (some (if a ≥ b then 1 else 0))
  | .shiftLeft, a, b => .ok (some (a * 2 ^ b.toNat))
  | .shiftRight, a, b => .ok (some (a / 2 ^ b.toNat))
  | _, _, _ => .error .invOpc

def onConstants : Evaluator ℤ ℤ where
  operate rec node s :=
    match node with
    | .fun2 (.op opcode) (.var x) (.rhs e) =>
        tdiIntrinsic rec s ((runOp s (.get x.ident)).map fun (s, reply) =>
          match reply with
          | .value (.ok (some v)) => (s, arithmetic opcode v e)
          | .value (.error failure) => (s, .error failure)
          | _ => (s, .error .other))
    | _ => some (s, .error .invOpc)
  levels _ _ := 1
  deep := by
    intro rec rec' node s hrec hrec'
    simp only [tdiIntrinsic, if_neg (show ¬ rec > limit by omega),
      if_neg (show ¬ rec' > limit by omega)]

/-- The variable _x is 1. -/
def oneX : Vars ℤ :=
  ((runOp VariableRuns.start (.put (.name VariableRuns.lowerX) (some (some 1))
    VariableRuns.enough)).map Prod.fst).getD VariableRuns.start

theorem assigned_same_iff_add :
    Same onConstants VariableRuns.enough 0 oneX (.plain VariableRuns.lowerX) [43, 61] [43, 32] [49]
      1 :=
  (@assigned_same_iff ℤ ℤ onConstants VariableRuns.enough 0 oneX (.plain VariableRuns.lowerX)
    ⟨[43], 0, .add, .op .add .add⟩ [] [32] [49] 1 (hasBoth_iff.2 (by decide)) nofun (by decide)
    le_rfl fun _ _ => show 3 ≤ 1801 by omega).2 (Or.inl (by decide))

/-- _x <<= 1 leaves 1 in the variable, as _x <= 1 is true, and _x = _x << (1) leaves 2. -/
theorem shift_not_same :
    ¬ Same onConstants VariableRuns.enough 0 oneX (.plain VariableRuns.lowerX) [60, 60, 61] [60, 60]
      [49] 1 := by
  have ho : HasBoth ⟨[60, 60], 0, .le, .op .shift .shiftLeft⟩ := hasBoth_iff.2 (by decide)
  rintro ⟨node, node', hnode, hnode', heq⟩
  have hassigned := @compileAssigned_eq ℤ (.plain VariableRuns.lowerX) _ [] [49] 1 ho nofun le_rfl
  have hplain := @compilePlain_eq ℤ (.plain VariableRuns.lowerX) _ [] [49] 1 ho nofun
  obtain rfl := Option.some.inj (hnode.symm.trans hassigned)
  obtain rfl := Option.some.inj (hnode'.symm.trans hplain)
  have hvalues := congrArg (Option.map Prod.snd) heq
  cases hvalues

end MdsPlus.AssignmentOperators
