import MdsPlus.Outcome
import Mathlib.Data.Int.Notation

/-!
The nodes of the expression grammar. A node is built with slots for its descriptors, and later
actions of the grammar append to the node that they are given or shift what is in it. What is
modelled of a node is its kind, its slots and how many are used.
-/

namespace MdsPlus.GrammarNodes

open Outcome

inductive Dtype
  | function | range | call | other
deriving DecidableEq

abbrev Opcode := ℕ

def opcAbort : Opcode := 31
def opcCase : Opcode := 92
def opcComma : Opcode := 98
def opcConcat : Opcode := 101
def opcConditional : Opcode := 102
def opcDefault : Opcode := 121
def opcEquals : Opcode := 152
def opcEqualsFirst : Opcode := 153
def opcExtFunction : Opcode := 162
def opcFun : Opcode := 171
def opcLabel : Opcode := 212
def opcMultiply : Opcode := 247
def opcPostDec : Opcode := 272
def opcPostInc : Opcode := 273
def opcPreInc : Opcode := 277
def opcStatement : Opcode := 331
def opcSubscript : Opcode := 335
def opcSubtract : Opcode := 336
def opcUnaryMinus : Opcode := 350
def opcUnaryPlus : Opcode := 351
def opcVector : Opcode := 361
def opcUsing : Opcode := 384
def opcSqueeze : Opcode := 459
def opcFlatten : Opcode := 460

/-- A descriptor that an expression points to. One that is the result of an evaluation or an
argument has been copied. -/
structure Node where
  dtype : Dtype
  opcode : Opcode
  slots : ℕ
  ndesc : ℕ
  copied : Bool
deriving DecidableEq

/-- The value of a grammar symbol. -/
structure Marker where
  rptr : Option Node
  builtin : ℤ
deriving DecidableEq

/-- A store outside of the slots, a count that does not fit into a byte, or an error that the parser
returns. -/
inductive Fault
  | overrun | wrapped | rejected
deriving DecidableEq

/-- The record that an evaluation gives; as many slots are copied as it uses. -/
structure Copy where
  dtype : Dtype
  opcode : Opcode
  ndesc : Fin 256

def Copy.node (c : Copy) : Node := ⟨c.dtype, c.opcode, c.ndesc, c.ndesc, true⟩

/-- What becomes of a node that is looked at: whether all its arguments are of standard types, and
what an evaluation gives, if it does not fail. -/
structure Oracle where
  standard : Node → Bool
  evaluate : Option Node → Option (Option Copy)

/-- The fewest and the most arguments, and whether the function is evaluated at once. -/
structure Info where
  m1 : ℕ
  m2 : ℕ
  immed : Bool

/-- TdiRefFunction, with two rows that are relied on. -/
structure Table where
  info : Opcode → Info
  abort : info opcAbort = ⟨0, 255, false⟩
  vector : info opcVector = ⟨0, 254, true⟩

/-! ### Building and storing -/

section Actions

variable (t : Table) (o : Oracle)

/-- tdi_yacc_IMMEDIATE. -/
def immediate (rptr : Option Node) : Except Fault (Option Node) :=
  match o.evaluate rptr with
  | none => .error .rejected
  | some r => .ok (r.map Copy.node)

/-- tdi_yacc_RESOLVE. -/
def resolve (rptr : Option Node) : Except Fault (Option Node) :=
  match rptr with
  | none => .ok none
  | some n =>
    if n.dtype ≠ .function then .ok rptr
    else if n.ndesc < (t.info n.opcode).m1 ∨ n.ndesc > (t.info n.opcode).m2 then immediate o rptr
    else if (t.info n.opcode).immed = false then .ok rptr
    else if o.standard n then immediate o rptr
    else .ok rptr

/-- A node that is new: functions with many slots are resolved later. -/
def checked (slots nused : ℕ) (opcode : Opcode) (n : Node) : Except Fault (Option Node) :=
  if nused > (t.info opcode).m2 then immediate o (some n)
  else if slots ≥ 254 then .ok (some n)
  else if nused < (t.info opcode).m1 then immediate o (some n)
  else resolve t o (some n)

/-- tdi_yacc_BUILD, with slots for descriptors of which some are used. -/
def build (slots nused : ℕ) (opcode : Opcode) : Except Fault Marker :=
  if nused > slots then .error .overrun
  else do
    let rptr ← checked t o slots nused opcode ⟨.function, opcode, slots, nused, false⟩
    .ok ⟨rptr, -1⟩

/-- A descriptor is stored behind those that are there. -/
def append (n : Node) : Except Fault Node :=
  if n.ndesc < n.slots then
    if n.ndesc < 255 then .ok { n with ndesc := n.ndesc + 1 } else .error .wrapped
  else .error .overrun

def appendAll : ℕ → Node → Except Fault Node
  | 0, n => .ok n
  | k + 1, n => do
      let n ← append n
      appendAll k n

/-- The descriptors are moved up by some slots, and those are filled. -/
def shift (k : ℕ) (n : Node) : Except Fault Node :=
  if n.ndesc + k ≤ n.slots then
    if n.ndesc + k ≤ 255 then .ok { n with ndesc := n.ndesc + k } else .error .wrapped
  else .error .overrun

/-! ### Actions -/

def isFunction (n : Node) (opcode : Opcode) : Prop := n.dtype = .function ∧ n.opcode = opcode

instance (n : Node) (opcode : Opcode) : Decidable (isFunction n opcode) :=
  inferInstanceAs (Decidable (_ ∧ _))

def isComma (m : Marker) (n : Node) : Prop := m.builtin ≠ -2 ∧ isFunction n opcComma

instance (m : Marker) (n : Node) : Decidable (isComma m n) := inferInstanceAs (Decidable (_ ∧ _))

def isList (n : Node) : Prop := n.dtype = .function ∧ n.ndesc < 250 ∧
  n.opcode ∈ [opcStatement, opcCase, opcDefault, opcLabel]

instance (n : Node) : Decidable (isList n) := inferInstanceAs (Decidable (_ ∧ _))

def opcodeOf (m : Marker) : Opcode := (m.builtin % 65536).toNat

/-- ass RANGE ass -/
def range (first last : Marker) : Except Fault Marker :=
  match last.rptr with
  | some n =>
    if n.dtype = .range then
      if n.ndesc = 2 then do
        let n ← append n
        .ok ⟨some n, last.builtin⟩
      else .error .rejected
    else .ok ⟨some ⟨.range, 0, 3, 2, false⟩, first.builtin⟩
  | none => .ok ⟨some ⟨.range, 0, 3, 2, false⟩, first.builtin⟩

/-- ass CONCAT ass -/
def concat (left op right : Marker) : Except Fault Marker :=
  match left.rptr with
  | none => .ok right
  | some n =>
    if isFunction n opcConcat ∧ n.ndesc < 250 then do
      let n ← append n
      let rptr ← resolve t o (some n)
      .ok ⟨rptr, left.builtin⟩
    else build t o 255 2 (opcodeOf op)

/-- opt ',' opt -/
def comma (left : Marker) : Except Fault Marker :=
  match left.rptr with
  | none => build t o 255 2 opcComma
  | some n =>
    if isComma left n ∧ n.ndesc < 250 then do
      let n ← append n
      .ok ⟨some n, left.builtin⟩
    else build t o 255 2 opcComma

def firstSub (exp : Marker) : Except Fault Marker :=
  match exp.rptr with
  | none => build t o 3 1 opcAbort
  | some n => if isComma exp n then .ok exp else build t o 3 1 opcAbort

/-- A list that is full is the first item of a new one. -/
def vectorRoom (list : Marker) (n : Node) : Except Fault Marker :=
  if n.ndesc ≥ 250 then do
    let _ ← resolve t o (some n)
    build t o 255 1 opcVector
  else .ok list

def vectorItem (list : Marker) : Except Fault Marker :=
  match list.rptr with
  | none => .error .rejected
  | some n => do
      let list ← vectorRoom t o list n
      match list.rptr with
      | none => .error .rejected
      | some n => do
          let n ← append n
          .ok ⟨some n, list.builtin⟩

def statement (list stmt : Marker) : Except Fault Marker :=
  match list.rptr, stmt.rptr with
  | none, _ => .ok stmt
  | some _, none => .ok list
  | some n, some _ =>
    if isList n then do
      let n ← append n
      .ok ⟨some n, list.builtin⟩
    else build t o 255 2 opcStatement

def usingArgs (begun sub : Marker) : Except Fault Marker :=
  match begun.rptr, sub.rptr with
  | some n, some s => do
      let n ← appendAll s.ndesc { n with opcode := opcUsing }
      .ok ⟨some n, begun.builtin⟩
  | _, _ => .error .rejected

/-- postX '[' sub ']' -/
def subscript (sub : Marker) : Except Fault Marker :=
  match sub.rptr with
  | none => .error .rejected
  | some n => do
      let n ← shift 1 { n with opcode := opcSubscript }
      let rptr ← resolve t o (some n)
      .ok ⟨rptr, sub.builtin⟩

def call (label sub : Marker) : Except Fault Marker :=
  match sub.rptr with
  | none => .error .rejected
  | some n =>
    if label.builtin < 0 then do
      let n ← shift 2 { n with opcode := opcExtFunction }
      .ok ⟨some n, sub.builtin⟩
    else do
      let rptr ← resolve t o (some { n with opcode := opcodeOf label })
      .ok ⟨rptr, sub.builtin⟩

/-- label POINT '(' sub ')', and with a type that may be unknown. -/
def external (known : Bool) (sub : Marker) : Except Fault Marker :=
  match sub.rptr with
  | none => .error .rejected
  | some n =>
    if known then do
      let n ← shift 2 { n with dtype := .call }
      .ok ⟨some n, sub.builtin⟩
    else .error .rejected

def function (sub : Marker) : Except Fault Marker :=
  match sub.rptr with
  | none => .error .rejected
  | some n => do
      let n ← shift 2 { n with opcode := opcFun }
      .ok ⟨some n, sub.builtin⟩

/-- fundef stmt: the second slot is filled. -/
def body (fundef : Marker) : Except Fault Marker :=
  match fundef.rptr with
  | none => .error .rejected
  | some n => if 1 < n.slots then .ok fundef else .error .overrun

end Actions

/-! ### Results -/

/-- Nothing is stored elsewhere: there is a result, or the parser returns an error. -/
def Safe {α : Type} (P : α → Prop) : Except Fault α → Prop
  | .ok a => P a
  | .error e => e = .rejected

section Results

variable {α β : Type} {P : α → Prop} {Q : β → Prop} {x : Except Fault α} {f : α → Except Fault β}

theorem Safe.bind (h : Safe P x) (hf : ∀ a, P a → Safe Q (f a)) : Safe Q (x >>= f) := by
  cases x with
  | error e => exact h
  | ok a => exact hf a h

end Results

/-! ### Sound nodes -/

/-- Built by the parser with all the slots that a count can tell. -/
def Whole (n : Node) : Prop := n.copied = false ∧ n.slots = 255

structure Sound (n : Node) : Prop where
  within : n.ndesc ≤ n.slots
  count : n.ndesc ≤ 255
  comma : Whole n → isFunction n opcComma → n.ndesc ≤ 250
  range : n.copied = false → n.dtype = .range → n.slots = 3

def Holds (rptr : Option Node) : Prop := ∀ n ∈ rptr, Sound n

variable {t : Table} {o : Oracle} {n : Node} {m left right op : Marker}

theorem holds_none : Holds none := nofun

theorem holds_some (h : Sound n) : Holds (some n) := fun _ hn => Option.some.inj hn ▸ h

theorem Copy.sound (c : Copy) : Sound c.node where
  within := Nat.le_refl _
  count := Nat.le_of_lt_succ c.ndesc.isLt
  comma h := nomatch h.1
  range h := nomatch h

theorem immediate_safe (rptr : Option Node) : Safe Holds (immediate o rptr) := by
  rw [immediate]
  cases o.evaluate rptr with
  | none => exact rfl
  | some r =>
    cases r with
    | none => exact holds_none
    | some c => exact holds_some c.sound

theorem resolve_safe {rptr : Option Node} (h : Holds rptr) : Safe Holds (resolve t o rptr) := by
  cases rptr with
  | none => exact h
  | some n =>
    rw [resolve]
    split
    · exact h
    split
    · exact immediate_safe _
    split
    · exact h
    split
    · exact immediate_safe _
    · exact h

theorem sound_new {opcode : Opcode} {slots nused : ℕ} (h : nused ≤ slots) (hfew : nused ≤ 4) :
    Sound ⟨.function, opcode, slots, nused, false⟩ :=
  ⟨h, by simp only; omega, fun _ _ => by simp only; omega, nofun⟩

theorem build_safe {opcode : Opcode} {slots nused : ℕ} (h : nused ≤ slots) (hfew : nused ≤ 4) :
    Safe (fun m => Holds m.rptr) (build t o slots nused opcode) := by
  have hnew : Holds (some ⟨.function, opcode, slots, nused, false⟩) := holds_some (sound_new h hfew)
  rw [build, if_neg (by omega)]
  have hchecked : Safe Holds (checked t o slots nused opcode
      ⟨.function, opcode, slots, nused, false⟩) := by
    rw [checked]
    split
    · exact immediate_safe _
    split
    · exact hnew
    split
    · exact immediate_safe _
    · exact resolve_safe hnew
  exact hchecked.bind fun rptr hrptr => hrptr

theorem build_abort {slots nused : ℕ} (h : nused ≤ slots) (hfew : nused ≤ 4) :
    build t o slots nused opcAbort =
      .ok ⟨some ⟨.function, opcAbort, slots, nused, false⟩, -1⟩ := by
  have hresolve : resolve t o (some ⟨.function, opcAbort, slots, nused, false⟩) =
      .ok (some ⟨.function, opcAbort, slots, nused, false⟩) := by
    rw [resolve, t.abort, if_neg (by simp), if_neg (by simp only; omega), if_pos rfl]
  rw [build, if_neg (by omega), checked, t.abort, if_neg (by simp only; omega),
    if_neg (Nat.not_lt_zero nused), hresolve, ite_self]
  rfl

theorem build_vector {nused : ℕ} (hfew : nused ≤ 4) :
    build t o 255 nused opcVector =
      .ok ⟨some ⟨.function, opcVector, 255, nused, false⟩, -1⟩ := by
  rw [build, if_neg (by omega), checked, t.vector, if_neg (by simp only; omega),
    if_pos (by omega)]
  rfl

/-! ### Appending and shifting -/

theorem append_eq (h : n.ndesc < n.slots) (hcount : n.ndesc < 255) :
    append n = .ok { n with ndesc := n.ndesc + 1 } := by
  rw [append, if_pos h, if_pos hcount]

theorem Sound.append (hn : Sound n) (h : n.ndesc < n.slots) (hfew : n.ndesc < 250) :
    Sound { n with ndesc := n.ndesc + 1 } :=
  ⟨h, by simp only; omega, fun _ _ => hfew, hn.range⟩

theorem appendAll_eq (k : ℕ) (n : Node) (h : n.ndesc + k ≤ n.slots) (hcount : n.ndesc + k ≤ 255) :
    appendAll k n = .ok { n with ndesc := n.ndesc + k } := by
  induction k generalizing n with
  | zero => rfl
  | succ k ih =>
    rw [appendAll, append_eq (by omega) (by omega), ok_bind, ih _ (by simp only; omega)
      (by simp only; omega)]
    simp only [Nat.add_assoc, Nat.add_comm 1]

theorem shift_sound (n : Node) (dtype : Dtype) (opcode : Opcode) (k : ℕ) (hdtype : dtype ≠ .range)
    (hroom : n.ndesc + k ≤ n.slots) (hcount : n.ndesc + k ≤ 255)
    (hopcode : opcode ≠ opcComma ∨ dtype ≠ .function) :
    shift k ⟨dtype, opcode, n.slots, n.ndesc, n.copied⟩ =
        .ok ⟨dtype, opcode, n.slots, n.ndesc + k, n.copied⟩ ∧
      Sound ⟨dtype, opcode, n.slots, n.ndesc + k, n.copied⟩ := by
  refine ⟨by rw [shift, if_pos hroom, if_pos hcount], hroom, hcount, fun _ hf => ?_, fun _ hr => absurd hr hdtype⟩
  exact (hopcode.elim (fun h => h hf.2) fun h => h hf.1).elim

/-! ### What the actions need and give -/

/-- A comma list, or a node that was built for one argument or none. -/
def Sub (m : Marker) : Prop :=
  ∃ n, m.rptr = some n ∧ Sound n ∧ n.dtype = .function ∧
    (n.opcode = opcComma ∨ n.ndesc + 2 ≤ n.slots ∧ n.ndesc ≤ 1)

def Items (m : Marker) : Prop :=
  ∃ n, m.rptr = some n ∧ n.slots = 255 ∧ n.ndesc ≤ 250 ∧ isFunction n opcVector

def Begun (m : Marker) : Prop :=
  ∃ n, m.rptr = some n ∧ n.slots = 255 ∧ n.ndesc = 2 ∧ n.dtype = .function

def Defined (m : Marker) : Prop := ∃ n, m.rptr = some n ∧ Sound n ∧ 1 < n.slots

theorem Sub.holds (h : Sub m) : Holds m.rptr := by
  obtain ⟨n, hn, hsound, -⟩ := h
  rw [hn]
  exact holds_some hsound

theorem Items.holds (h : Items m) : Holds m.rptr := by
  obtain ⟨n, hn, hslots, hfew, hvector⟩ := h
  rw [hn]
  refine holds_some ⟨by omega, by omega, fun _ _ => hfew, fun _ hrange => ?_⟩
  rw [hvector.1] at hrange
  cases hrange

theorem Begun.holds (h : Begun m) : Holds m.rptr := by
  obtain ⟨n, hn, hslots, hfew, hfunction⟩ := h
  rw [hn]
  refine holds_some ⟨by omega, by omega, fun _ _ => by omega, fun _ hrange => ?_⟩
  rw [hfunction] at hrange
  cases hrange

theorem Defined.holds (h : Defined m) : Holds m.rptr := by
  obtain ⟨n, hn, hsound, -⟩ := h
  rw [hn]
  exact holds_some hsound

theorem range_safe (hright : Holds right.rptr)
    (h : ∀ n ∈ right.rptr, n.dtype = .range → n.ndesc = 2 → n.copied = false) :
    Safe (fun m => Holds m.rptr) (range left right) := by
  have hnew : Holds (some ⟨.range, 0, 3, 2, false⟩) :=
    holds_some ⟨by decide, by decide, fun _ _ => by decide, fun _ _ => rfl⟩
  rw [range]
  cases hr : right.rptr with
  | none => exact hnew
  | some n =>
    have hsound := hright n hr
    simp only
    split
    · rename_i hrange
      split
      · rename_i htwo
        have hslots := hsound.range (h n hr hrange htwo) hrange
        rw [append_eq (by omega) (by omega), ok_bind]
        exact holds_some (hsound.append (by omega) (by omega))
      · exact rfl
    · exact hnew

theorem appended {n : Node} (hsound : Sound n) (hfew : n.ndesc < 250) (hwhole : Whole n) :
    append n = .ok { n with ndesc := n.ndesc + 1 } ∧ Sound { n with ndesc := n.ndesc + 1 } := by
  have hslots := hwhole.2
  exact ⟨append_eq (by omega) (by omega), hsound.append (by omega) hfew⟩

theorem concat_safe (hleft : Holds left.rptr) (hright : Holds right.rptr)
    (h : ∀ n ∈ left.rptr, isFunction n opcConcat → n.ndesc < 250 → Whole n) :
    Safe (fun m => Holds m.rptr) (concat t o left op right) := by
  rw [concat]
  cases hl : left.rptr with
  | none => exact hright
  | some n =>
    simp only
    split
    · rename_i hconcat
      obtain ⟨happend, hsound⟩ :=
        appended (hleft n hl) hconcat.2 (h n hl hconcat.1 hconcat.2)
      rw [happend, ok_bind]
      exact (resolve_safe (holds_some hsound)).bind fun rptr hrptr => hrptr
    · exact build_safe (by omega) (by omega)

theorem comma_safe (hleft : Holds left.rptr)
    (h : ∀ n ∈ left.rptr, isComma left n → n.ndesc < 250 → Whole n) :
    Safe (fun m => Holds m.rptr) (comma t o left) := by
  rw [comma]
  cases hl : left.rptr with
  | none => exact build_safe (by omega) (by omega)
  | some n =>
    simp only
    split
    · rename_i hcomma
      obtain ⟨happend, hsound⟩ :=
        appended (hleft n hl) hcomma.2 (h n hl hcomma.1 hcomma.2)
      rw [happend, ok_bind]
      exact holds_some hsound
    · exact build_safe (by omega) (by omega)

theorem sub_abort {slots nused : ℕ} (h : nused + 2 ≤ slots) (hfew : nused ≤ 1) :
    Safe Sub (build t o slots nused opcAbort) := by
  rw [build_abort (by omega) (by omega)]
  exact ⟨_, rfl, sound_new (by omega) (by omega), rfl, Or.inr ⟨h, hfew⟩⟩

theorem firstSub_safe (h : Holds m.rptr) : Safe Sub (firstSub t o m) := by
  rw [firstSub]
  cases hm : m.rptr with
  | none => exact sub_abort (by omega) (by omega)
  | some n =>
    simp only
    split
    · rename_i hcomma
      exact ⟨n, hm, h n hm, hcomma.2.1, Or.inl hcomma.2.2⟩
    · exact sub_abort (by omega) (by omega)

theorem vectorItem_safe (h : Items m) : Safe Items (vectorItem t o m) := by
  have hroom : ∀ n, m.rptr = some n → Safe (fun m => ∃ n, m.rptr = some n ∧ n.slots = 255 ∧
      n.ndesc < 250 ∧ isFunction n opcVector) (vectorRoom t o m n) := by
    intro n hn
    have hholds := h.holds
    rw [vectorRoom]
    obtain ⟨n', hn', hslots, hfew, hvector⟩ := h
    obtain rfl := Option.some.inj (hn'.symm.trans hn)
    split
    · refine (resolve_safe (hn ▸ hholds)).bind fun _ _ => ?_
      rw [build_vector (by omega)]
      exact ⟨_, rfl, rfl, by simp only; omega, rfl, rfl⟩
    · exact ⟨n', hn, hslots, by omega, hvector⟩
  rw [vectorItem]
  cases hm : m.rptr with
  | none => exact rfl
  | some n =>
    refine (hroom n hm).bind ?_
    rintro m' ⟨n', hn', hslots, hfew, hvector⟩
    simp only [hn']
    rw [append_eq (by omega) (by omega), ok_bind]
    exact ⟨_, rfl, hslots, hfew, hvector⟩

theorem statement_safe (hleft : Holds left.rptr) (hright : Holds right.rptr)
    (h : right.rptr ≠ none → ∀ n ∈ left.rptr, isList n →
      Whole n ∨ n.copied = false ∧ n.ndesc < n.slots) :
    Safe (fun m => Holds m.rptr) (statement t o left right) := by
  rw [statement]
  cases hl : left.rptr with
  | none => exact hright
  | some n =>
    have hsound := hleft n hl
    cases hr : right.rptr with
    | none => exact hleft
    | some n' =>
      simp only
      split
      · rename_i hlist
        have hfew := hlist.2.1
        have hfree : n.ndesc < n.slots := by
          rcases h (by rw [hr]; nofun) n hl hlist with hwhole | hfree
          · have := hwhole.2
            omega
          · exact hfree.2
        rw [append_eq hfree (by omega), ok_bind]
        exact holds_some (hsound.append hfree hfew)
      · exact build_safe (by omega) (by omega)

theorem usingArgs_safe (hleft : Begun left) (hright : Sub right)
    (h : ∀ n ∈ right.rptr, n.ndesc ≤ 253) :
    Safe (fun m => Holds m.rptr) (usingArgs left right) := by
  obtain ⟨n, hn, hslots, htwo, hfunction⟩ := hleft
  obtain ⟨s, hs, -⟩ := hright
  have hfew := h s hs
  rw [usingArgs, hn, hs]
  simp only
  rw [appendAll_eq _ _ (by simp only; omega) (by simp only; omega), ok_bind]
  exact holds_some (shift_sound n n.dtype opcUsing s.ndesc (by rw [hfunction]; nofun) (by omega)
    (by omega) (Or.inl (by decide))).2

theorem Sub.room (h : Sub m) {n : Node} (hn : m.rptr = some n)
    (hwhole : isFunction n opcComma → Whole n) :
    n.dtype = .function ∧ n.ndesc + 2 ≤ n.slots ∧ n.ndesc ≤ 250 := by
  obtain ⟨n', hn', hsound, hfunction, hkind⟩ := h
  obtain rfl := Option.some.inj (hn'.symm.trans hn)
  rcases hkind with hcomma | ⟨hroom, hfew⟩
  · have hboth := hwhole ⟨hfunction, hcomma⟩
    have hfew := hsound.comma hboth ⟨hfunction, hcomma⟩
    have hslots := hboth.2
    exact ⟨hfunction, by omega, hfew⟩
  · exact ⟨hfunction, hroom, by omega⟩

theorem subscript_safe (hsub : Sub m) (h : ∀ n ∈ m.rptr, isFunction n opcComma → Whole n) :
    Safe (fun m => Holds m.rptr) (subscript t o m) := by
  rw [subscript]
  cases hm : m.rptr with
  | none => exact rfl
  | some n =>
    obtain ⟨hfunction, hroom, hfew⟩ := hsub.room hm (h n hm)
    obtain ⟨hshift, hsound⟩ := shift_sound n n.dtype opcSubscript 1
      (by rw [hfunction]; nofun) (by omega) (by omega) (Or.inl (by decide))
    simp only
    rw [hshift, ok_bind]
    exact (resolve_safe (holds_some hsound)).bind fun rptr hrptr => hrptr

theorem call_safe (hsub : Sub m) (h : left.builtin < 0 → ∀ n ∈ m.rptr, isFunction n opcComma →
    Whole n) : Safe (fun m => Holds m.rptr) (call t o left m) := by
  rw [call]
  cases hm : m.rptr with
  | none => exact rfl
  | some n =>
    simp only
    split
    · rename_i hneg
      obtain ⟨hfunction, hroom, hfew⟩ := hsub.room hm (h hneg n hm)
      obtain ⟨hshift, hsound⟩ := shift_sound n n.dtype opcExtFunction 2
        (by rw [hfunction]; nofun) hroom (by omega) (Or.inl (by decide))
      rw [hshift, ok_bind]
      exact holds_some hsound
    · refine (resolve_safe ?_).bind fun rptr hrptr => hrptr
      obtain ⟨n', hn', hsound, hfunction, hkind⟩ := hsub
      obtain rfl := Option.some.inj (hn'.symm.trans hm)
      refine holds_some ⟨hsound.within, hsound.count, fun hwhole _ => ?_, fun _ hrange => ?_⟩
      · rcases hkind with hcomma | ⟨-, hfew⟩
        · exact hsound.comma hwhole ⟨hfunction, hcomma⟩
        · simp only
          omega
      · simp only [hfunction] at hrange
        cases hrange

theorem external_safe (known : Bool) (hsub : Sub m)
    (h : known = true → ∀ n ∈ m.rptr, isFunction n opcComma → Whole n) :
    Safe (fun m => Holds m.rptr) (external known m) := by
  rw [external]
  cases hm : m.rptr with
  | none => exact rfl
  | some n =>
    simp only
    split
    · rename_i hknown
      obtain ⟨-, hroom, hfew⟩ := hsub.room hm (h hknown n hm)
      obtain ⟨hshift, hsound⟩ := shift_sound n .call n.opcode 2 nofun
        hroom (by omega) (Or.inr nofun)
      rw [hshift, ok_bind]
      exact holds_some hsound
    · exact rfl

theorem function_safe (hsub : Sub m) (h : ∀ n ∈ m.rptr, isFunction n opcComma → Whole n) :
    Safe Defined (function m) := by
  rw [function]
  cases hm : m.rptr with
  | none => exact rfl
  | some n =>
    obtain ⟨hfunction, hroom, hfew⟩ := hsub.room hm (h n hm)
    obtain ⟨hshift, hsound⟩ := shift_sound n n.dtype opcFun 2
      (by rw [hfunction]; nofun) hroom (by omega) (Or.inl (by decide))
    simp only
    rw [hshift, ok_bind]
    exact ⟨_, rfl, hsound, by simp only; omega⟩

theorem body_safe (h : Defined m) : Safe (fun m => Holds m.rptr) (body m) := by
  obtain ⟨n, hn, hsound, hslots⟩ := h
  rw [body, hn]
  simp only
  rw [if_pos hslots]
  change Holds m.rptr
  rw [hn]
  exact holds_some hsound

end MdsPlus.GrammarNodes
