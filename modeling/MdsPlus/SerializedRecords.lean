import MdsPlus.BitMemory

/-!
Decoding a serialized descriptor. A first pass over the record counts the bytes, a second one
writes the descriptors; both go over nested descriptors wherever they stand behind what was
decoded before. Lengths are divided by where an array of pointers is resized and where the data
of an array is aligned.
-/

namespace MdsPlus.SerializedRecords

open BitMemory

/-! ### The fields of a header -/

inductive Class
  | s
  | xs
  | r
  | a
  | apd
  | ca
  | other
deriving DecidableEq

def readClass (b : Byte) : Class :=
  if b = 1 ∨ b = 2 then .s
  else if b = 193 ∨ b = 192 then .xs
  else if b = 194 then .r
  else if b = 4 then .a
  else if b = 196 then .apd
  else if b = 195 then .ca
  else .other

def dtypeT : Byte := 14

def mdsFixDscLength (dtype : Byte) (length : BitVec 16) : BitVec 16 :=
  if dtype ∈ [6, 2] then 1
  else if dtype ∈ [7, 3] then 2
  else if dtype ∈ [8, 4, 10, 52] then 4
  else if dtype ∈ [11, 27, 53, 9, 5] then 8
  else if dtype ∈ [26, 25] then 16
  else length

def fixLength (dtype : Byte) (length : BitVec 16) : BitVec 16 :=
  if length = 0 then mdsFixDscLength dtype length else length

section Fields

variable (mem : Memory) (pos : ℕ)

def dtype : Byte := mem (pos + 2)

def classOf : Class := readClass (mem (pos + 3))

/-- The length of an element, which may follow from the type. -/
def length : BitVec 16 := fixLength (dtype mem pos) (mem (pos + 1) ++ mem pos)

def offset : Word := readWord mem (pos + 4)

def lLength : Word := readWord mem (pos + 8)

def ndesc : ℕ := (mem (pos + 8)).toNat

def dscptrs (j : ℕ) : Word := readWord mem (pos + 12 + 4 * j)

def coeff : Bool := (mem (pos + 10)).getLsbD 6

def bounds : Bool := (mem (pos + 10)).getLsbD 7

def dimct : ℕ := (mem (pos + 11)).toNat

def arsize : Word := readWord mem (pos + 12)

end Fields

/-! ### What a descriptor takes -/

def alignPtr (bytes : Word) : Word := BitVec.ofNat 32 ((bytes.toNat + 7) / 8 * 8)

section Sizes

variable (mem : Memory) (pos : ℕ)

/-- The multipliers and bounds of an array in the record, and in a descriptor. -/
def shapeIn : ℕ :=
  (if coeff mem pos then 4 + 4 * dimct mem pos else 0) +
    if bounds mem pos then 4 * dimct mem pos * 2 else 0

def shapeOut : ℕ :=
  (if coeff mem pos then 8 + 4 * dimct mem pos else 0) +
    if bounds mem pos then 4 * dimct mem pos * 2 else 0

def alignSize : Word :=
  if dtype mem pos = dtypeT then 1 else (length mem pos).setWidth 32

def pointersSize : Word :=
  if length mem pos ≠ 8 then arsize mem pos / (length mem pos).setWidth 32 * 8 else arsize mem pos

def numDsc : ℕ := (pointersSize mem pos).toNat / 8

def nested : List Bool :=
  match classOf mem pos with
  | .r => (List.range (ndesc mem pos)).map fun j => decide (dscptrs mem pos j ≠ 0)
  | .apd => List.replicate (numDsc mem pos) true
  | .ca => [decide (offset mem pos ≠ 0)]
  | _ => []

/-- The bytes of the record in front of the nested ones. -/
def bytesIn : Word :=
  match classOf mem pos with
  | .s => 8 + (length mem pos).setWidth 32
  | .xs => 12 + lLength mem pos
  | .r => BitVec.ofNat 32 (12 + ndesc mem pos * 4) + (length mem pos).setWidth 32
  | .a => BitVec.ofNat 32 (16 + shapeIn mem pos) + arsize mem pos
  | .apd => BitVec.ofNat 32 (16 + shapeIn mem pos) + BitVec.ofNat 32 (numDsc mem pos * 4)
  | .ca => BitVec.ofNat 32 (16 + shapeIn mem pos)
  | .other => 0

/-- The bytes of the descriptor in front of the nested ones. -/
def bytesOut : Word :=
  match classOf mem pos with
  | .s => alignPtr (16 + (length mem pos).setWidth 32)
  | .xs => alignPtr (24 + lLength mem pos)
  | .r => alignPtr (BitVec.ofNat 32 (24 + ndesc mem pos * 8) + (length mem pos).setWidth 32)
  | .a => BitVec.ofNat 32 (24 + shapeOut mem pos) + arsize mem pos + alignSize mem pos +
      arsize mem pos
  | .apd => BitVec.ofNat 32 (24 + shapeOut mem pos) + pointersSize mem pos
  | .ca => alignPtr (BitVec.ofNat 32 (24 + shapeOut mem pos))
  | .other => 0

end Sizes

/-! ### Decoding -/

inductive Status
  | success
  | invStrDes
deriving DecidableEq

/-- What comes of a descriptor: `b_out` and `b_in`. -/
structure Result where
  status : Status
  bOut : Word
  bIn : Word

/-- Why there is no result: a division by zero, or the nested descriptors go deeper than was
tried. -/
inductive Stop
  | division
  | deeper

/-- A length of zero is divided by: by the first pass, or by the one that writes. -/
def Divides (write : Bool) (mem : Memory) (pos : ℕ) : Prop :=
  (classOf mem pos = .apd ∧ length mem pos = 0) ∨
    (write ∧ classOf mem pos = .a ∧ alignSize mem pos = 0)

instance (write : Bool) (mem : Memory) (pos : ℕ) : Decidable (Divides write mem pos) :=
  inferInstanceAs (Decidable (_ ∨ _))

/-- The loop over the nested descriptors; those of a record are aligned. -/
def copyNested (copy : ℕ → Except Stop Result) (pos : ℕ) (pad : Bool) :
    List Bool → Word → Word → Except Stop Result
  | [], out, inp => .ok ⟨.success, out, inp⟩
  | false :: rest, out, inp => copyNested copy pos pad rest out inp
  | true :: rest, out, inp => do
      let r ← copy (pos + inp.toNat)
      let out := if pad then alignPtr (out + r.bOut) else out + r.bOut
      if r.status = .success then copyNested copy pos pad rest out (inp + r.bIn)
      else .ok ⟨r.status, out, inp + r.bIn⟩

def copyRecDx (mem : Memory) (write : Bool) : ℕ → ℕ → Except Stop Result
  | 0, _ => .error .deeper
  | depth + 1, pos =>
      if readWord mem pos = 0 then .ok ⟨.success, 16, 4⟩
      else if classOf mem pos = .other then .ok ⟨.invStrDes, 0, 0⟩
      else if Divides write mem pos then .error .division
      else
        copyNested (copyRecDx mem write depth) pos (classOf mem pos = .r) (nested mem pos)
          (bytesOut mem pos) (bytesIn mem pos)

/-- So many bytes are taken with the descriptors that stand one behind the other. -/
inductive TakesAll (mem : Memory) : ℕ → List Bool → Word → Word → Prop
  | nil {pos : ℕ} {n : Word} : TakesAll mem pos [] n n
  | skip {pos : ℕ} {rest : List Bool} {n m : Word} (h : TakesAll mem pos rest n m) :
      TakesAll mem pos (false :: rest) n m
  | empty {pos : ℕ} {rest : List Bool} {n m : Word} (h : readWord mem (pos + n.toNat) = 0)
      (hrest : TakesAll mem pos rest (n + 4) m) : TakesAll mem pos (true :: rest) n m
  | record {pos : ℕ} {rest : List Bool} {n k m : Word} (h : readWord mem (pos + n.toNat) ≠ 0)
      (hclass : classOf mem (pos + n.toNat) ≠ .other)
      (hsize : ¬ Divides false mem (pos + n.toNat))
      (hinner : TakesAll mem (pos + n.toNat) (nested mem (pos + n.toNat))
        (bytesIn mem (pos + n.toNat)) k)
      (hrest : TakesAll mem pos rest (n + k) m) : TakesAll mem pos (true :: rest) n m

/-- A descriptor stands in the record and takes so many bytes of it. -/
def Takes (mem : Memory) (pos : ℕ) (n : Word) : Prop :=
  readWord mem pos = 0 ∧ n = 4 ∨
    readWord mem pos ≠ 0 ∧ classOf mem pos ≠ .other ∧ ¬ Divides false mem pos ∧
      TakesAll mem pos (nested mem pos) (bytesIn mem pos) n

theorem TakesAll.take {mem : Memory} {pos : ℕ} {rest : List Bool} {n k m : Word}
    (h : Takes mem (pos + n.toNat) k) (hrest : TakesAll mem pos rest (n + k) m) :
    TakesAll mem pos (true :: rest) n m := by
  rcases h with ⟨hword, rfl⟩ | ⟨hword, hclass, hsize, hinner⟩
  · exact .empty hword hrest
  · exact .record hword hclass hsize hinner hrest

inductive Header (mem : Memory) : ℕ → Prop
  | outer (h : readWord mem 0 ≠ 0) : Header mem 0
  | inner {pos : ℕ} {before after : List Bool} {n : Word} (h : Header mem pos)
      (hnested : nested mem pos = before ++ true :: after)
      (hbefore : TakesAll mem pos before (bytesIn mem pos) n)
      (hn : readWord mem (pos + n.toNat) ≠ 0) : Header mem (pos + n.toNat)

/-- The first pass comes to an end and finds something to write. -/
def Accepted (mem : Memory) : Prop :=
  ∃ depth r, copyRecDx mem false depth 0 = .ok r ∧ r.status = .success ∧ r.bOut ≠ 0

/-! ### How deep is tried -/

/-- What comes out of the one decoder comes out of the other. -/
def Agrees (copy copy' : ℕ → Except Stop Result) : Prop :=
  ∀ pos, copy pos ≠ .error .deeper → copy' pos = copy pos

theorem copyNested_agrees {copy copy' : ℕ → Except Stop Result} (h : Agrees copy copy') (pos : ℕ)
    (pad : Bool) (slots : List Bool) (out inp : Word)
    (hne : copyNested copy pos pad slots out inp ≠ .error .deeper) :
    copyNested copy' pos pad slots out inp = copyNested copy pos pad slots out inp := by
  induction slots generalizing out inp with
  | nil => rfl
  | cons slot rest ih =>
    cases slot with
    | false => exact ih out inp hne
    | true =>
      unfold copyNested at hne ⊢
      cases hcopy : copy (pos + inp.toNat) with
      | error e =>
        rw [hcopy] at hne
        rw [h _ (by rw [hcopy]; exact hne), hcopy]
        rfl
      | ok r =>
        rw [hcopy] at hne
        rw [h _ (by rw [hcopy]; exact nofun), hcopy]
        simp only [bind, Except.bind] at hne ⊢
        split
        · rename_i hstatus
          rw [if_pos hstatus] at hne
          exact ih _ _ hne
        · rfl

theorem copyRecDx_succ (mem : Memory) (write : Bool) (depth : ℕ) :
    Agrees (copyRecDx mem write depth) (copyRecDx mem write (depth + 1)) := by
  induction depth with
  | zero => exact fun pos hne => absurd rfl hne
  | succ depth ih =>
    intro pos hne
    rw [copyRecDx] at hne
    rw [copyRecDx, copyRecDx]
    split
    · rfl
    · rename_i hword
      rw [if_neg hword] at hne
      split
      · rfl
      · rename_i hclass
        rw [if_neg hclass] at hne
        split
        · rfl
        · rename_i hdiv
          rw [if_neg hdiv] at hne
          exact copyNested_agrees ih _ _ _ _ _ hne

/-- A result does not change when more is tried. -/
theorem copyRecDx_agrees {mem : Memory} {write : Bool} {depth depth' : ℕ} (h : depth ≤ depth') :
    Agrees (copyRecDx mem write depth) (copyRecDx mem write depth') := by
  induction h with
  | refl => exact fun pos _ => rfl
  | step _ ih =>
    intro pos hne
    rw [copyRecDx_succ mem write _ pos (by rw [ih pos hne]; exact hne), ih pos hne]

theorem copyRecDx_eq {mem : Memory} {write : Bool} {pos : ℕ} (depth : ℕ)
    (hword : readWord mem pos ≠ 0) (hclass : classOf mem pos ≠ .other)
    (hdiv : ¬ Divides write mem pos) :
    copyRecDx mem write (depth + 1) pos =
      copyNested (copyRecDx mem write depth) pos (classOf mem pos = .r) (nested mem pos)
        (bytesOut mem pos) (bytesIn mem pos) := by
  rw [copyRecDx, if_neg hword, if_neg hclass, if_neg hdiv]

theorem copyRecDx_divides {mem : Memory} {write : Bool} {pos : ℕ} (depth : ℕ)
    (hword : readWord mem pos ≠ 0) (hdiv : Divides write mem pos) :
    copyRecDx mem write (depth + 1) pos = .error .division := by
  have hclass : classOf mem pos ≠ .other := by
    rcases hdiv with ⟨hc, -⟩ | ⟨-, hc, -⟩ <;> rw [hc] <;> exact nofun
  rw [copyRecDx, if_neg hword, if_neg hclass, if_pos hdiv]

/-! ### Decoding follows the format -/

theorem TakesAll.append {mem : Memory} {pos : ℕ} {before rest : List Bool} {n m k : Word}
    (h : TakesAll mem pos before n m) (hrest : TakesAll mem pos rest m k) :
    TakesAll mem pos (before ++ rest) n k := by
  induction before generalizing n with
  | nil =>
    cases h
    exact hrest
  | cons slot before ih =>
    cases h with
    | skip h => exact .skip (ih h)
    | empty h hbefore => exact .empty h (ih hbefore)
    | record h hclass hsize hinner hbefore => exact .record h hclass hsize hinner (ih hbefore)

theorem copyNested_division {mem : Memory} {write : Bool} {depth depth' : ℕ} (h : depth ≤ depth')
    {pos : ℕ} {pad : Bool} {slots : List Bool} {out inp : Word}
    (hd : copyNested (copyRecDx mem write depth) pos pad slots out inp = .error .division) :
    copyNested (copyRecDx mem write depth') pos pad slots out inp = .error .division := by
  rw [copyNested_agrees (copyRecDx_agrees h) _ _ _ _ _ (by rw [hd]; exact nofun), hd]

theorem copyNested_ok {copy : ℕ → Except Stop Result} {pos : ℕ} (pad : Bool) (slots : List Bool)
    (out : Word) {inp : Word} {r : Result} (h : copy (pos + inp.toNat) = .ok r)
    (hr : r.status = .success) :
    copyNested copy pos pad (true :: slots) out inp =
      copyNested copy pos pad slots (if pad then alignPtr (out + r.bOut) else out + r.bOut)
        (inp + r.bIn) := by
  rw [copyNested, h]
  exact if_pos hr

theorem copyNested_error {copy : ℕ → Except Stop Result} {pos : ℕ} (pad : Bool)
    (slots : List Bool) (out : Word) {inp : Word} (h : copy (pos + inp.toNat) = .error .division) :
    copyNested copy pos pad (true :: slots) out inp = .error .division := by
  rw [copyNested, h]
  rfl

theorem copyRecDx_ok {mem : Memory} {write : Bool} {depth depth' pos : ℕ} {r : Result}
    (h : depth ≤ depth') (hr : copyRecDx mem write depth pos = .ok r) :
    copyRecDx mem write depth' pos = .ok r := by
  rw [copyRecDx_agrees h pos (by rw [hr]; exact nofun), hr]

theorem copyRecDx_empty {mem : Memory} (write : Bool) (depth : ℕ) {pos : ℕ}
    (h : readWord mem pos = 0) : copyRecDx mem write (depth + 1) pos = .ok ⟨.success, 16, 4⟩ := by
  rw [copyRecDx, if_pos h]

/-- A pass divides by zero there or comes to the descriptors behind these. -/
def RunsTo (write : Bool) (mem : Memory) (pos : ℕ) (pad : Bool) (slots rest : List Bool)
    (out n m : Word) : Prop :=
  (∃ depth, copyNested (copyRecDx mem write depth) pos pad (slots ++ rest) out n =
    .error .division) ∨
  ∃ depth out', ∀ depth' ≥ depth,
    copyNested (copyRecDx mem write depth') pos pad (slots ++ rest) out n =
      copyNested (copyRecDx mem write depth') pos pad rest out' m

theorem RunsTo.take {write : Bool} {mem : Memory} {pos : ℕ} {pad : Bool} {slots rest : List Bool}
    {out n m : Word} {depth : ℕ} {r : Result}
    (hd : copyRecDx mem write depth (pos + n.toNat) = .ok r) (hr : r.status = .success)
    (h : ∀ out, RunsTo write mem pos pad slots rest out (n + r.bIn) m) :
    RunsTo write mem pos pad (true :: slots) rest out n m := by
  rcases h (if pad then alignPtr (out + r.bOut) else out + r.bOut) with
    ⟨depth', hd'⟩ | ⟨depth', out', hd'⟩
  · refine .inl ⟨max depth depth', ?_⟩
    rw [List.cons_append, copyNested_ok pad _ out (copyRecDx_ok (Nat.le_max_left ..) hd) hr]
    exact copyNested_division (Nat.le_max_right ..) hd'
  · refine .inr ⟨max depth depth', out', fun depth'' hle => ?_⟩
    have hfirst := copyRecDx_ok (Nat.le_trans (Nat.le_max_left ..) hle) hd
    rw [List.cons_append, copyNested_ok pad _ out hfirst hr]
    exact hd' depth'' (Nat.le_trans (Nat.le_max_right ..) hle)

theorem TakesAll.run {mem : Memory} {pos : ℕ} {slots : List Bool} {n m : Word} (write : Bool)
    (h : TakesAll mem pos slots n m) (pad : Bool) (rest : List Bool) (out : Word) :
    RunsTo write mem pos pad slots rest out n m := by
  induction h generalizing pad rest out with
  | nil => exact .inr ⟨0, out, fun _ _ => rfl⟩
  | skip _ ih => exact ih pad rest out
  | empty hword _ ih => exact .take (copyRecDx_empty write 0 hword) rfl fun out => ih pad rest out
  | @record pos slots n k m hword hclass hsize _ _ ihinner ih =>
    by_cases hdiv : Divides write mem (pos + n.toNat)
    · exact .inl ⟨1, copyNested_error pad _ out (copyRecDx_divides 0 hword hdiv)⟩
    · have hcopy := fun depth => copyRecDx_eq depth hword hclass hdiv
      rcases ihinner (classOf mem (pos + n.toNat) = .r) [] (bytesOut mem (pos + n.toNat)) with
        ⟨depth, hd⟩ | ⟨depth, out', hd⟩
      · rw [List.append_nil] at hd
        exact .inl ⟨depth + 1, copyNested_error pad _ out (by rw [hcopy, hd])⟩
      · have hall := hd depth (Nat.le_refl _)
        rw [List.append_nil] at hall
        have hok : copyRecDx mem write (depth + 1) (pos + n.toNat) = .ok ⟨.success, out', k⟩ := by
          rw [hcopy, hall]
          rfl
        exact .take hok rfl fun out => ih pad rest out

end MdsPlus.SerializedRecords
