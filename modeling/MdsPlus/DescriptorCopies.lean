import MdsPlus.DescriptorImages

/-!
Copying a descriptor with all it points to into one piece of memory. A first pass counts the bytes,
a second one writes them: each header with its data, and behind it the nested descriptors, aligned
and each behind the one before. The copy has the pointers of its new place.
-/

namespace MdsPlus.DescriptorCopies

open BitMemory BlockLayout DescriptorImages
open DescriptorTrees (ArrayHead DataType)
open SerializedRecords (dtypeT fixLength)
open DescriptorRecords (dimct)
open RecordSizes (shapeOutSize)

inductive Status
  | success
  | compressible
  | invStrDes
  | division
deriving DecidableEq

def align (n size : ℕ) : ℕ := if n % size = 0 then n else n + size - n % size

def sizeAligned (bytes : ℕ) : ℕ := if bytes % 8 = 0 then bytes else bytes + 8 - bytes % 8

def alignWord (bytes : Word) : Word := BitVec.ofNat 32 (sizeAligned bytes.toNat)

def dtypePath : Byte := 193

def compressionThreshold : ℕ := 128

/-! ### The two passes -/

/-- What comes of a descriptor: the status, the count, whether an array is long enough to be
compressed, and what the second pass writes at an address: the bytes in front of the nested
descriptors, where these are and how long, and all of it. -/
structure Passes where
  status : Status
  size : Word
  compressible : Bool
  stores : ℕ → List Store
  blocks : List (ℕ × ℕ)
  write : ℕ → Memory → Memory

def nothing (status : Status) : Passes := ⟨status, 0, false, fun _ => [], [], fun _ mem => mem⟩

/-- The loop over the nested descriptors ends with the first that fails. A null pointer may be left
out. -/
def countSlots : List (Option Passes) → Word → Status × Word
  | [], out => (.success, out)
  | none :: slots, out => countSlots slots out
  | some p :: slots, out =>
      if p.status = .success then countSlots slots (alignWord (out + p.size))
      else (p.status, alignWord (out + p.size))

/-- The pointers to the nested descriptors of what is written at `base`. -/
def pointers (base : ℕ) : List (Option Passes) → Word → List (BitVec 64)
  | [], _ => []
  | none :: slots, out => 0 :: pointers base slots out
  | some p :: slots, out =>
      (if p.size = 0 then 0 else BitVec.ofNat 64 (base + out.toNat)) ::
        pointers base slots (alignWord (out + p.size))

def writeSlots (base : ℕ) : List (Option Passes) → Word → Memory → Memory
  | [], _, mem => mem
  | none :: slots, out, mem => writeSlots base slots out mem
  | some p :: slots, out, mem =>
      writeSlots base slots (alignWord (out + p.size)) (p.write (base + out.toNat) mem)

def slotBlocks : List (Option Passes) → Word → List (ℕ × ℕ)
  | [], _ => []
  | none :: slots, out => slotBlocks slots out
  | some p :: slots, out =>
      (out.toNat, p.size.toNat) :: slotBlocks slots (alignWord (out + p.size))

def node (front : Word) (compressible : Bool) (stores : ℕ → List (BitVec 64) → List Store)
    (slots : List (Option Passes)) : Passes :=
  let storesAt := fun base => stores base (pointers base slots front)
  { status := (countSlots slots front).1
    size := (countSlots slots front).2
    compressible := compressible || slots.any fun slot => slot.any Passes.compressible
    stores := storesAt
    blocks := slotBlocks slots front
    write := fun base mem => writeSlots base slots front (writeAll (storesAt base) mem) }

def stringAlign (dtype : Byte) (length : ℕ) : ℕ :=
  if (dtype = dtypeT ∨ dtype = dtypePath) ∧ length ≠ 0 then 1 else length

def arrayAlign (dtype : Byte) (length : BitVec 16) : ℕ :=
  if dtype = dtypeT ∨ length = 0 then 1 else length.toNat

/-! ### What is written in front of the nested descriptors -/

section Stores

variable (dtype : Byte) (h : ArrayHead) (data : List Byte) (base : ℕ)

def sStores : List Store :=
  let size := stringAlign dtype data.length
  sImage dtype data (if data = [] then 0 else BitVec.ofNat 64 (align (base + 16) size)) base 1

/-- The pointer is moved on by so many descriptors as the header has bytes. -/
def xsStores (length : BitVec 16) : List Store :=
  xsImage dtype data (BitVec.ofNat 64 (base + 24 * 16)) base 193 length

def rStores (pointer : BitVec 64) (table : List (BitVec 64)) : List Store :=
  rImage dtype data table
    (if data = [] then pointer else BitVec.ofNat 64 (base + (24 + table.length * 8))) base

/-- The bytes of the header of an array that is not contiguous: `a0` counts as four. -/
def ncaSize (h : ArrayHead) : ℕ := 24 + 4 * (dimct h.dims + 1) + 4 * dimct h.dims * 2

/-- The header is copied as far as it is counted, the data behind it. -/
def ncaStores : List Store :=
  let p := BitVec.ofNat 64 (base + ncaSize h)
  headStore base h.length dtype 4 ::
    (base + 8, (arrayTail p (p + BitVec.ofInt 64 (a0Of h.dims)) h
      (BitVec.ofNat 32 data.length)).take (ncaSize h - 8)) :: dataStore p data

def aStores : List Store :=
  let length := fixLength dtype h.length
  aImage dtype { h with length := length } data
    (BitVec.ofNat 64 (align (base + (24 + shapeOutSize h.dims)) (arrayAlign dtype length))) base 4

def apdStores (table : List (BitVec 64)) : List Store :=
  apdImage dtype h table (BitVec.ofNat 64 (base + (24 + shapeOutSize h.dims))) base

def caStores (arsize : Word) (isNull : Bool) : List Store :=
  let bytes := sizeAligned (24 + shapeOutSize h.dims)
  caImage dtype h (if isNull then 0 else BitVec.ofNat 64 (align (base + bytes) 8)) base arsize

end Stores

/-! ### Copying -/

def slot (gaps : Bool) (t : Tree) (p : Passes) : Option Passes :=
  if t.isNull && !gaps then none else some p

mutual

def copyDx : Tree → Passes
  | .null => nothing .success
  | .dsc target => copyDx target
  | .s _ dtype data =>
      node (BitVec.ofNat 32 (16 + data.length + stringAlign dtype data.length)) false
        (fun base _ => sStores dtype data base) []
  | .xs _ length dtype data =>
      node (BitVec.ofNat 32 (sizeAligned (24 + data.length))) false
        (fun base _ => xsStores dtype data base length) []
  | .r dtype pointer data dscptrs =>
      node (BitVec.ofNat 32 (sizeAligned (24 + dscptrs.length * 8 + data.length))) false
        (fun base table => rStores dtype data base pointer table) (copyAll false dscptrs)
  | .nca dtype h data =>
      if dividesByZero (stridesOf h.val.dims) then nothing .division
      else
        node (BitVec.ofNat 32 (sizeAligned (ncaSize (fixedArray h) + data.length)))
          (compressionThreshold < data.length)
          (fun base _ => ncaStores dtype (fixedArray h) data base) []
  | .a dtype h data =>
      node (BitVec.ofNat 32 (24 + shapeOutSize h.dims + data.length +
          arrayAlign dtype (fixLength dtype h.length)))
        (compressionThreshold < data.length) (fun base _ => aStores dtype h data base) []
  | .apd dtype h dscs =>
      node (BitVec.ofNat 32 (sizeAligned (24 + shapeOutSize h.val.dims + 8 * dscs.length))) false
        (fun base table => apdStores dtype h.val base table) (copyAll true dscs)
  | .ca dtype h arsize target =>
      node (BitVec.ofNat 32 (sizeAligned (24 + shapeOutSize h.dims))) false
        (fun base _ => caStores dtype h base arsize target.isNull)
        [slot false target (copyDx target)]
  | .other _ _ => nothing .invStrDes

def copyAll (gaps : Bool) : List Tree → List (Option Passes)
  | [] => []
  | t :: ts => slot gaps t (copyDx t) :: copyAll gaps ts

end

structure Copy where
  status : Status
  length : Word
  pointer : BitVec 64
  mem : Memory

/-- `MdsCopyDxXd`, the memory for the copy being given out at `base`. -/
def mdsCopyDxXd (t : Tree) (base : ℕ) (mem : Memory) : Copy :=
  let p := copyDx t
  if p.status = .success ∧ p.size ≠ 0 then
    { status := if p.compressible then .compressible else .success
      length := p.size
      pointer := BitVec.ofNat 64 base
      mem := p.write base mem }
  else ⟨p.status, 0, 0, mem⟩

/-! ### What a copy is -/

structure Allocated (base size : ℕ) : Prop where
  aligned : base % 8 = 0
  pos : 0 < base
  fits : base + size ≤ 2 ^ 64

/-- Where the bytes in front of the nested descriptors end, from the beginning on. -/
def headEnd (stores : List Store) (base : ℕ) : ℕ :=
  (stores.map fun s => s.stop - base).foldr max 0

/-- A descriptor is copied: nothing is written outside of what was counted, the descriptors in it
stand one behind the other, and the memory that was given out has all of a copy that says the
same. -/
structure Kept (t : Tree) : Prop where
  status : (copyDx t).status = .success
  within : ∀ {base : ℕ} {mem : Memory} {i : ℕ}, Allocated base (copyDx t).size.toNat →
    (i < base ∨ base + (copyDx t).size.toNat ≤ i) → (mdsCopyDxXd t base mem).mem i = mem i
  laid : ∀ {base : ℕ}, Allocated base (copyDx t).size.toNat →
    LaidOut (headEnd ((copyDx t).stores base) base) (copyDx t).blocks (copyDx t).size.toNat
  same : ∀ {base : ℕ} (mem : Memory), Allocated base (copyDx t).size.toNat →
    Represents base (base + (copyDx t).size.toNat) (mdsCopyDxXd t base mem).mem
      (mdsCopyDxXd t base mem).pointer (content t)

def unwrap : Tree → Tree
  | .dsc target => unwrap target
  | t => t

def nestedIn : Tree → List Tree
  | .r _ _ _ dscptrs => dscptrs
  | .apd _ _ dscs => dscs
  | .ca _ _ _ target => [target]
  | _ => []

inductive Called : Tree → Tree → Prop
  | self {t : Tree} : Called t t
  | nested {t u v : Tree} (hu : u ∈ nestedIn (unwrap t)) (h : Called u v) : Called t v

/-! ### When a copy is good -/

mutual

/-- How many bytes there are to count. -/
def copySize : Tree → ℕ
  | .null => 0
  | .dsc target => copySize target
  | .s _ dtype data => 16 + data.length + stringAlign dtype data.length
  | .xs _ _ _ data => roundUp (24 + data.length) 8
  | .r _ _ data dscptrs =>
      ends true (roundUp (24 + dscptrs.length * 8 + data.length) 8) (copySizes false dscptrs)
  | .nca _ h data => roundUp (ncaSize (fixedArray h) + data.length) 8
  | .a dtype h data =>
      24 + shapeOutSize h.dims + data.length + arrayAlign dtype (fixLength dtype h.length)
  | .apd _ h dscs =>
      ends true (roundUp (24 + shapeOutSize h.val.dims + 8 * dscs.length) 8) (copySizes true dscs)
  | .ca _ h _ target =>
      ends true (roundUp (24 + shapeOutSize h.dims) 8)
        (if target.isNull then [] else [copySize target])
  | .other _ _ => 0

def copySizes (gaps : Bool) : List Tree → List ℕ
  | [] => []
  | t :: ts =>
      if t.isNull && !gaps then copySizes gaps ts else copySize t :: copySizes gaps ts

end

/-- What is copied as it is: no bytes behind an extended header, no array that is not contiguous,
no compressed array that points to a wrapper of nothing. -/
def Copyable : Tree → Prop
  | .xs _ _ _ data => data = []
  | .nca _ _ _ => False
  | .ca _ _ _ target => target.isNull ∨ (unwrap target).isNull = false
  | .other _ _ => False
  | _ => True

structure Sound (t : Tree) : Prop where
  copyable : Copyable (unwrap t)
  fits : copySize t < 2 ^ 32

/-! ### Alignment -/

theorem align_bounds {n size : ℕ} (h : 0 < size) : n ≤ align n size ∧ align n size < n + size := by
  have hmod := Nat.mod_lt n h
  unfold align
  split <;> omega

theorem align_of_mod {n size : ℕ} (h : n % size = 0) : align n size = n := if_pos h

theorem sizeAligned_eq (n : ℕ) : sizeAligned n = roundUp n 8 := by
  unfold sizeAligned roundUp
  split <;> omega

theorem alignWord_add (out size : ℕ) :
    alignWord (BitVec.ofNat 32 out + BitVec.ofNat 32 size) =
      BitVec.ofNat 32 (next true out size) := by
  rw [← BitVec.ofNat_add]
  apply BitVec.eq_of_toNat_eq
  unfold alignWord next
  rw [sizeAligned_eq, BitVec.toNat_ofNat, BitVec.toNat_ofNat, BitVec.toNat_ofNat, if_pos rfl]
  unfold roundUp
  omega

theorem next_mod (out size : ℕ) : next true out size % 8 = 0 := roundUp_mod (out + size) 8

theorem next_zero {out : ℕ} (h : out % 8 = 0) : next true out 0 = out := by
  unfold next roundUp
  rw [if_pos rfl]
  omega

theorem Allocated.of_le {base size : ℕ} (h : Allocated base size) {place size' : ℕ}
    (hplace : place % 8 = 0) (hle : place + size' ≤ size) : Allocated (base + place) size' := by
  have haligned := h.aligned
  have hpos := h.pos
  have hfits := h.fits
  constructor <;> omega

theorem Allocated.toNat {base size : ℕ} (h : Allocated base size) (hsize : 0 < size) :
    (BitVec.ofNat 64 base).toNat = base := by
  have hfits := h.fits
  exact Nat.mod_eq_of_lt (by omega)

/-! ### The nested descriptors -/

structure Good (t : Tree) : Prop where
  status : (copyDx t).status = .success
  size : (copyDx t).size = BitVec.ofNat 32 (copySize t)
  fits : copySize t < 2 ^ 32
  within : ∀ {base : ℕ} {mem : Memory} {i : ℕ}, Allocated base (copySize t) →
    (i < base ∨ base + copySize t ≤ i) → (copyDx t).write base mem i = mem i
  same : ∀ {base : ℕ} (mem : Memory), Allocated base (copySize t) →
    Represents base (base + copySize t) ((copyDx t).write base mem)
      (if copySize t = 0 then 0 else BitVec.ofNat 64 base) (content t)

theorem size_eq_zero_iff {t : Tree} (h : Good t) : (copyDx t).size = 0 ↔ copySize t = 0 := by
  rw [h.size, ← BitVec.toNat_inj, BitVec.toNat_ofNat, Nat.mod_eq_of_lt h.fits]
  rfl

theorem size_toNat {t : Tree} (h : Good t) : (copyDx t).size.toNat = copySize t := by
  rw [h.size, BitVec.toNat_ofNat, Nat.mod_eq_of_lt h.fits]

section Nested

variable {ts : List Tree}

theorem countSlots_of_good (gaps : Bool) (h : ∀ t ∈ ts, Good t) (out : ℕ) :
    countSlots (copyAll gaps ts) (BitVec.ofNat 32 out) =
      (.success, BitVec.ofNat 32 (ends true out (copySizes gaps ts))) := by
  induction ts generalizing out with
  | nil => rfl
  | cons t ts ih =>
    have hgood := h t List.mem_cons_self
    have hrest := fun out => ih (fun u hu => h u (List.mem_cons_of_mem t hu)) out
    rw [copyAll, copySizes, slot]
    split
    · exact hrest out
    · rw [countSlots, if_pos hgood.status, hgood.size, alignWord_add, hrest, ends]

theorem slotBlocks_of_good (gaps : Bool) (h : ∀ t ∈ ts, Good t) (out : ℕ) :
    slotBlocks (copyAll gaps ts) (BitVec.ofNat 32 out) =
      places (2 ^ 32) true out (copySizes gaps ts) := by
  induction ts generalizing out with
  | nil => rfl
  | cons t ts ih =>
    have hgood := h t List.mem_cons_self
    have hrest := fun out => ih (fun u hu => h u (List.mem_cons_of_mem t hu)) out
    rw [copyAll, copySizes, slot]
    split
    · exact hrest out
    · rw [slotBlocks, size_toNat hgood, hgood.size, alignWord_add, hrest, places,
        BitVec.toNat_ofNat]

theorem writeSlots_of_good (gaps : Bool) (h : ∀ t ∈ ts, Good t) {base out : ℕ}
    (hout : ts ≠ [] → out % 8 = 0) (hfits : ends true out (copySizes gaps ts) < 2 ^ 32)
    (hbase : Allocated base (ends true out (copySizes gaps ts))) (mem : Memory) :
    (∀ i, i < base + out ∨ base + ends true out (copySizes gaps ts) ≤ i →
      writeSlots base (copyAll gaps ts) (BitVec.ofNat 32 out) mem i = mem i) ∧
    RepresentsAll (base + out) (base + ends true out (copySizes gaps ts))
      (writeSlots base (copyAll gaps ts) (BitVec.ofNat 32 out) mem)
      (pointers base (copyAll gaps ts) (BitVec.ofNat 32 out)) (contentAll ts) := by
  induction ts generalizing out mem with
  | nil => exact ⟨fun _ _ => rfl, trivial⟩
  | cons t ts ih =>
    have hgood := h t List.mem_cons_self
    have hrest := @ih fun u hu => h u (List.mem_cons_of_mem t hu)
    have haligned := hout (List.cons_ne_nil t ts)
    rw [copySizes] at hfits hbase ⊢
    rw [copyAll, slot, contentAll]
    by_cases hskip : (t.isNull && !gaps) = true
    · simp only [hskip, if_true] at hfits hbase ⊢
      obtain ⟨hwithin, hall⟩ := hrest (fun _ => haligned) hfits hbase mem
      have hnull : content t = .null := by
        cases t with
        | null => rfl
        | _ => cases hskip
      refine ⟨hwithin, ?_, hall⟩
      rw [hnull]
      exact rfl
    · simp only [hskip, if_false, Bool.false_eq_true] at hfits hbase ⊢
      rw [ends] at hfits hbase ⊢
      have hnext := (next_bounds true out (copySize t)).1
      have hends := le_ends true (next true out (copySize t)) (copySizes gaps ts)
      have hword : (BitVec.ofNat 32 out).toNat = out := Nat.mod_eq_of_lt (by omega)
      have halloc : Allocated (base + out) (copySize t) := hbase.of_le haligned (by omega)
      obtain ⟨hwithin, hall⟩ := hrest (fun _ => next_mod out (copySize t)) hfits hbase
        ((copyDx t).write (base + out) mem)
      have hsame := hgood.same mem halloc
      rw [writeSlots, pointers, hword, hgood.size, alignWord_add]
      refine ⟨fun i hi => ?_, ?_, ?_⟩
      · rw [hwithin i (by omega)]
        exact hgood.within halloc (by omega)
      · rw [← hgood.size]
        simp only [size_eq_zero_iff hgood]
        exact hsame.frame (Nat.le_refl _) (by omega) fun i hlow hhigh => hwithin i (.inl (by omega))
      · exact hall.frame (by omega) (Nat.le_refl _) fun _ _ _ => rfl

end Nested

/-! ### One descriptor -/

section Node

variable {t : Tree} {f : ℕ} {compressible : Bool} {stores : ℕ → List (BitVec 64) → List Store}
  {gaps : Bool} {ts : List Tree}

/-- The bytes in front of the nested descriptors stand within the first `f`, no two of them in one
place. -/
def Fitted (f num : ℕ) (stores : ℕ → List (BitVec 64) → List Store) : Prop :=
  ∀ {base : ℕ} {table : List (BitVec 64)}, Allocated base f → table.length = num →
    (∀ s ∈ stores base table, base ≤ s.1 ∧ s.stop ≤ base + f) ∧
      (stores base table).Pairwise Apart

theorem pointers_length (base : ℕ) (slots : List (Option Passes)) (out : Word) :
    (pointers base slots out).length = slots.length := by
  induction slots generalizing out with
  | nil => rfl
  | cons slot slots ih =>
    cases slot with
    | none => rw [pointers, List.length_cons, List.length_cons, ih]
    | some p => rw [pointers, List.length_cons, List.length_cons, ih]

theorem copyAll_length (gaps : Bool) (ts : List Tree) : (copyAll gaps ts).length = ts.length := by
  induction ts with
  | nil => rfl
  | cons t ts ih => rw [copyAll, List.length_cons, List.length_cons, ih]

theorem held_node (ht : copyDx t = node (BitVec.ofNat 32 f) compressible stores (copyAll gaps ts))
    (hsize : copySize t = ends true f (copySizes gaps ts)) (halign : ts ≠ [] → f % 8 = 0)
    (hgood : ∀ u ∈ ts, Good u) (hfits : copySize t < 2 ^ 32) (hstores : Fitted f ts.length stores)
    {base : ℕ} (mem : Memory) (hbase : Allocated base (copySize t)) :
    Held base (base + f) ((copyDx t).write base mem)
      (stores base (pointers base (copyAll gaps ts) (BitVec.ofNat 32 f))) := by
  have hle : f ≤ copySize t := hsize ▸ le_ends true f _
  obtain ⟨hwithin, hapart⟩ := hstores (hbase.of_le (Nat.zero_mod 8) (by omega))
    (show (pointers base (copyAll gaps ts) (BitVec.ofNat 32 f)).length = _ by
      rw [pointers_length, copyAll_length])
  have hheld : Held base (base + f) (writeAll _ mem) _ := held_writeAll hwithin hapart
  rw [ht]
  refine hheld.frame (Nat.le_refl _) (Nat.le_refl _) fun i _ hhigh => ?_
  exact (writeSlots_of_good gaps hgood halign (hsize ▸ hfits) (hsize ▸ hbase) _).1 i (.inl hhigh)

theorem good_node (ht : copyDx t = node (BitVec.ofNat 32 f) compressible stores (copyAll gaps ts))
    (hsize : copySize t = ends true f (copySizes gaps ts)) (halign : ts ≠ [] → f % 8 = 0)
    (hgood : ∀ u ∈ ts, Good u) (hpos : 0 < f) (hfits : copySize t < 2 ^ 32)
    (hstores : Fitted f ts.length stores)
    (hrep : ∀ {base hi : ℕ} {mem : Memory}, Allocated base (copySize t) →
      let table := pointers base (copyAll gaps ts) (BitVec.ofNat 32 f)
      Held base hi mem (stores base table) → RepresentsAll base hi mem table (contentAll ts) →
      Represents base hi mem (BitVec.ofNat 64 base) (content t)) :
    Good t := by
  have hle : f ≤ copySize t := hsize ▸ le_ends true f _
  have hcount := countSlots_of_good gaps hgood f
  have hnested := fun {base : ℕ} (hbase : Allocated base (copySize t)) mem =>
    writeSlots_of_good gaps hgood halign (hsize ▸ hfits) (hsize ▸ hbase) mem
  refine ⟨?_, ?_, hfits, ?_, ?_⟩
  · rw [ht]
    exact congrArg Prod.fst hcount
  · rw [ht, hsize]
    exact congrArg Prod.snd hcount
  · intro base mem i hbase hi
    have htable : (pointers base (copyAll gaps ts) (BitVec.ofNat 32 f)).length = ts.length := by
      rw [pointers_length, copyAll_length]
    have hwithin := (hstores (hbase.of_le (Nat.zero_mod 8) (by omega)) htable).1
    rw [ht]
    refine ((hnested hbase _).1 i (by omega)).trans (writeAll_of_outside fun s hs => ?_)
    obtain ⟨hlow, hhigh⟩ := hwithin s hs
    omega
  · intro base mem hbase
    have hheld := held_node ht hsize halign hgood hfits hstores mem hbase
    obtain ⟨-, hall⟩ := hnested hbase
      (writeAll (stores base (pointers base (copyAll gaps ts) (BitVec.ofNat 32 f))) mem)
    rw [← hsize] at hall
    rw [if_neg (by omega)]
    rw [ht] at hheld ⊢
    exact hrep hbase (hheld.frame (Nat.le_refl _) (by omega) fun _ _ _ => rfl)
      (hall.frame (by omega) (Nat.le_refl _) fun _ _ _ => rfl)

theorem le_headEnd {stores : List Store} {s : Store} (base : ℕ) (h : s ∈ stores) :
    s.stop - base ≤ headEnd stores base := by
  induction stores with
  | nil => exact absurd h List.not_mem_nil
  | cons s' rest ih =>
    rw [headEnd, List.map_cons, List.foldr_cons, ← headEnd]
    rcases List.mem_cons.mp h with rfl | hrest
    · exact Nat.le_max_left ..
    · exact Nat.le_trans (ih hrest) (Nat.le_max_right ..)

theorem headEnd_le {stores : List Store} {base f : ℕ} (h : ∀ s ∈ stores, s.stop ≤ base + f) :
    headEnd stores base ≤ f := by
  induction stores with
  | nil => exact Nat.zero_le f
  | cons s rest ih =>
    rw [headEnd, List.map_cons, List.foldr_cons, ← headEnd]
    have hs := h s List.mem_cons_self
    exact Nat.max_le.mpr ⟨by omega, ih fun s' hs' => h s' (List.mem_cons_of_mem s hs')⟩

theorem mdsCopyDxXd_of_good (h : Good t) {base : ℕ} (mem : Memory)
    (hbase : Allocated base (copySize t)) :
    (∀ i, i < base ∨ base + copySize t ≤ i → (mdsCopyDxXd t base mem).mem i = mem i) ∧
      Represents base (base + copySize t) (mdsCopyDxXd t base mem).mem
        (mdsCopyDxXd t base mem).pointer (content t) := by
  have hsame := h.same mem hbase
  by_cases hzero : copySize t = 0
  · have hempty : mdsCopyDxXd t base mem = ⟨(copyDx t).status, 0, 0, mem⟩ :=
      if_neg fun hne => hne.2 ((size_eq_zero_iff h).mpr hzero)
    rw [hempty]
    refine ⟨fun _ _ => rfl, ?_⟩
    rw [if_pos hzero] at hsame
    refine hsame.frame (Nat.le_refl _) (Nat.le_refl _) fun i hlow hhigh => ?_
    omega
  · have hcopied := And.intro h.status fun hz => hzero ((size_eq_zero_iff h).mp hz)
    rw [mdsCopyDxXd]
    simp only [if_pos hcopied]
    rw [if_neg hzero] at hsame
    exact ⟨fun i hi => h.within hbase hi, hsame⟩

theorem kept_of_good (h : Good t) (hlaid : ∀ {base : ℕ}, Allocated base (copySize t) →
    LaidOut (headEnd ((copyDx t).stores base) base) (copyDx t).blocks (copySize t)) : Kept t := by
  have hsize := size_toNat h
  constructor
  · exact h.status
  · intro base mem i hbase hi
    rw [hsize] at hbase hi
    exact (mdsCopyDxXd_of_good h mem hbase).1 i hi
  · intro base hbase
    rw [hsize] at hbase ⊢
    exact hlaid hbase
  · intro base mem hbase
    rw [hsize] at hbase ⊢
    exact (mdsCopyDxXd_of_good h mem hbase).2

theorem allocated_eight {size : ℕ} (h : size ≤ 2 ^ 33) : Allocated 8 size :=
  ⟨rfl, by omega, by omega⟩

theorem laid_node (ht : copyDx t = node (BitVec.ofNat 32 f) compressible stores (copyAll gaps ts))
    (hsize : copySize t = ends true f (copySizes gaps ts)) (hgood : ∀ u ∈ ts, Good u)
    (hmin : 8 ≤ f) (hfits : copySize t < 2 ^ 32) (hstores : Fitted f ts.length stores) {base : ℕ}
    (hbase : Allocated base (copySize t)) :
    LaidOut (headEnd ((copyDx t).stores base) base) (copyDx t).blocks (copySize t) := by
  have hle : f ≤ copySize t := hsize ▸ le_ends true f _
  have hf : Allocated base f := hbase.of_le (Nat.zero_mod 8) (by omega)
  have hown := (hstores hf (show (pointers base (copyAll gaps ts) (BitVec.ofNat 32 f)).length = _ by
    rw [pointers_length, copyAll_length])).1
  have hlaid := (laidOut_places_iff (show 0 < 2 ^ 32 by omega) true (copySizes gaps ts)
    (Nat.le_refl f) (by omega) hmin).mpr (hsize ▸ hfits)
  rw [Nat.mod_eq_of_lt (hsize ▸ hfits), ← hsize, ← slotBlocks_of_good gaps hgood] at hlaid
  rw [ht]
  exact hlaid.of_le (headEnd_le fun s hs => (hown s hs).2)

/-- A descriptor with good ones in it is kept exactly when its count fits, if it has its bytes in
front of them and up to where they begin. -/
theorem kept_node_iff
    (ht : copyDx t = node (BitVec.ofNat 32 f) compressible stores (copyAll gaps ts))
    (hsize : copySize t = ends true f (copySizes gaps ts)) (hgood : ∀ u ∈ ts, Good u)
    (hmin : 8 ≤ f) (hmax : f ≤ 2 ^ 33) (hstores : Fitted f ts.length stores)
    (hend : ∀ {base : ℕ} {table : List (BitVec 64)}, Allocated base f → table.length = ts.length →
      ∃ s ∈ stores base table, base + 8 ≤ s.stop ∧ base + f < s.stop + 8)
    (hkept : copySize t < 2 ^ 32 → Good t) : Kept t ↔ copySize t < 2 ^ 32 := by
  constructor
  · intro h
    have hcount := countSlots_of_good gaps hgood f
    have hblocks := slotBlocks_of_good gaps hgood f
    have hword : (copyDx t).size.toNat = copySize t % 2 ^ 32 := by
      rw [ht, hsize]
      exact congrArg (fun c => BitVec.toNat (Prod.snd c)) hcount
    have hlaid := h.laid (allocated_eight (by rw [hword]; omega))
    have htable : (pointers 8 (copyAll gaps ts) (BitVec.ofNat 32 f)).length = ts.length := by
      rw [pointers_length, copyAll_length]
    obtain ⟨s, hs, hlow, hhigh⟩ := hend (allocated_eight hmax) htable
    have hle := headEnd_le fun s hs => ((hstores (allocated_eight hmax) htable).1 s hs).2
    have hge := le_headEnd 8 hs
    rw [hword, hsize, ht] at hlaid
    rw [hsize]
    refine (laidOut_places_iff (by omega) true _ hle ?_ ?_).mp (hblocks ▸ hlaid)
    · omega
    · omega
  · intro hfits
    exact kept_of_good (hkept hfits) fun hbase => laid_node ht hsize hgood hmin hfits hstores hbase

end Node

end MdsPlus.DescriptorCopies
