import MdsPlus.RecordSizes

/-!
Descriptors as they lie in memory: the fields of a header, the data it points to, and the
descriptors it points to, each somewhere else. What memory has at an address is a descriptor tree;
it stays one as long as the bytes of its parts stay.
-/

namespace MdsPlus.DescriptorImages

open BitMemory
open DescriptorTrees (Dims ArrayHead DataType dtypeDsc)
open SerializedRecords (fixLength)
open DescriptorRecords (HoldsBytes writeBytes shortBytes wordBytes wordsBytes flagsByte hasCoeff
  hasBounds dimct classS classXs holdsBytes_writeBytes writeBytes_of_outside)
open RecordSizes (shapeOutSize)

/-! ### Descriptors -/

abbrev StridedHead := { h : ArrayHead // hasBounds h.dims ∧ 0 < dimct h.dims }

abbrev PointersHead := { h : ArrayHead // h.length = 8 }

/-- A class that is none of those below. -/
abbrev OtherClass := { c : Byte // c ∉ ([1, 2, 4, 10, 192, 193, 194, 195, 196] : List Byte) }

/-- A descriptor of each class, and the null pointer. A wrapper is any descriptor of type DSC but
an array of pointers. A record has a pointer even where it has no data. The `a0` of an array counts
from its data. -/
inductive Tree
  | null
  | dsc (target : Tree)
  | s (dynamic : Bool) (dtype : DataType) (data : List Byte)
  | xs (dynamic : Bool) (length : BitVec 16) (dtype : DataType) (data : List Byte)
  | r (dtype : DataType) (pointer : BitVec 64) (data : List Byte) (dscptrs : List Tree)
  | a (dtype : DataType) (h : ArrayHead) (data : List Byte)
  | nca (dtype : DataType) (h : StridedHead) (data : List Byte)
  | apd (dtype : Byte) (h : PointersHead) (dscs : List Tree)
  | ca (dtype : DataType) (h : ArrayHead) (arsize : Word) (target : Tree)
  | other (cls : OtherClass) (dtype : DataType)

def Tree.isNull : Tree → Bool
  | .null => true
  | _ => false

def multipliers : List (Word × Word × Word) → List (Word × Word × Word)
  | [] => []
  | [(_, l, u)] => [(u - l + 1, l, u)]
  | (m, l, u) :: (m', b) :: rest => (m' / m, l, u) :: multipliers ((m', b) :: rest)

/-- It divides by each stride but the last. -/
def dividesByZero : List (Word × Word × Word) → Bool
  | (m, _) :: b :: rest => m == 0 || dividesByZero (b :: rest)
  | _ => false

def stridesOf : Dims → List (Word × Word × Word)
  | .bounds _ m => m
  | _ => []

/-- Where the subscripts are all zero, from the data on. -/
def a0Of : Dims → ℤ
  | .plain _ => 0
  | .coeff a0 _ => a0
  | .bounds a0 _ => a0

def fixedArray (h : StridedHead) : ArrayHead :=
  { h.val with column := true
               dims := .bounds (a0Of h.val.dims) (multipliers (stridesOf h.val.dims)) }

mutual

/-- What a copy says: no wrappers, nothing dynamic, arrays contiguous and with their length. -/
def content : Tree → Tree
  | .null => .null
  | .dsc target => content target
  | .s _ dtype data => .s false dtype data
  | .xs _ length dtype data => .xs false length dtype data
  | .r dtype _ data dscptrs => .r dtype 0 data (contentAll dscptrs)
  | .a dtype h data => .a dtype { h with length := fixLength dtype h.length } data
  | .nca dtype h data => .a dtype (fixedArray h) data
  | .apd dtype h dscs => .apd dtype h (contentAll dscs)
  | .ca dtype h arsize target => .ca dtype h arsize (content target)
  | .other cls dtype => .other cls dtype

def contentAll : List Tree → List Tree
  | [] => []
  | t :: ts => content t :: contentAll ts

end

/-! ### Bytes at addresses -/

abbrev Store := ℕ × List Byte

def Store.stop (s : Store) : ℕ := s.1 + s.2.length

def Apart (s t : Store) : Prop := s.stop ≤ t.1 ∨ t.stop ≤ s.1

def writeAll : List Store → Memory → Memory
  | [], mem => mem
  | s :: rest, mem => writeAll rest (writeBytes mem s.1 s.2)

/-- Memory has these bytes between two addresses, no two of them in one place. -/
structure Held (lo hi : ℕ) (mem : Memory) (stores : List Store) : Prop where
  holds : ∀ s ∈ stores, HoldsBytes mem s.1 s.2
  within : ∀ s ∈ stores, lo ≤ s.1 ∧ s.stop ≤ hi
  apart : stores.Pairwise Apart

section Stores

variable {lo hi : ℕ} {mem mem' : Memory} {stores : List Store}

theorem writeAll_of_outside {i : ℕ} (h : ∀ s ∈ stores, i < s.1 ∨ s.stop ≤ i) :
    writeAll stores mem i = mem i := by
  induction stores generalizing mem with
  | nil => rfl
  | cons s rest ih =>
    rw [writeAll, ih fun s' hs' => h s' (List.mem_cons_of_mem s hs')]
    exact writeBytes_of_outside (h s List.mem_cons_self)

theorem holds_writeAll (h : stores.Pairwise Apart) :
    ∀ s ∈ stores, HoldsBytes (writeAll stores mem) s.1 s.2 := by
  induction stores generalizing mem with
  | nil => exact nofun
  | cons s rest ih =>
    obtain ⟨hapart, hrest⟩ := List.pairwise_cons.mp h
    intro s' hs'
    rcases List.mem_cons.mp hs' with rfl | hs'
    · rw [writeAll]
      refine (holdsBytes_writeBytes mem s'.1 s'.2).congr fun i hlow hhigh => ?_
      refine writeAll_of_outside fun t ht => ?_
      rcases hapart t ht with hle | hle
      · exact .inl (Nat.lt_of_lt_of_le hhigh hle)
      · exact .inr (Nat.le_trans hle hlow)
    · exact ih hrest s' hs'

theorem held_writeAll (hwithin : ∀ s ∈ stores, lo ≤ s.1 ∧ s.stop ≤ hi)
    (h : stores.Pairwise Apart) : Held lo hi (writeAll stores mem) stores :=
  ⟨holds_writeAll h, hwithin, h⟩

theorem Held.frame (h : Held lo hi mem stores) {lo' hi' : ℕ} (hlo : lo' ≤ lo) (hhi : hi ≤ hi')
    (heq : ∀ i, lo ≤ i → i < hi → mem' i = mem i) : Held lo' hi' mem' stores := by
  refine ⟨fun s hs => ?_, fun s hs => ?_, h.apart⟩
  · obtain ⟨hlow, hhigh⟩ := h.within s hs
    exact (h.holds s hs).congr fun i hi hi' =>
      heq i (Nat.le_trans hlow hi) (Nat.lt_of_lt_of_le hi' hhigh)
  · obtain ⟨hlow, hhigh⟩ := h.within s hs
    exact ⟨Nat.le_trans hlo hlow, Nat.le_trans hhigh hhi⟩

end Stores

/-! ### Headers -/

def ptrBytes (p : BitVec 64) : List Byte :=
  [p.extractLsb' 0 8, p.extractLsb' 8 8, p.extractLsb' 16 8, p.extractLsb' 24 8,
    p.extractLsb' 32 8, p.extractLsb' 40 8, p.extractLsb' 48 8, p.extractLsb' 56 8]

def tableBytes (table : List (BitVec 64)) : List Byte := table.flatMap ptrBytes

/-- The length, the type and the class. What pads the fields of a header is left out. -/
def headStore (addr : ℕ) (length : BitVec 16) (dtype cls : Byte) : Store :=
  (addr, shortBytes length ++ [dtype, cls])

def dataStore (p : BitVec 64) (data : List Byte) : List Store :=
  if data = [] then [] else [(p.toNat, data)]

def shapeBytes (a0 : BitVec 64) : Dims → List Byte
  | .plain _ => []
  | .coeff _ m => ptrBytes a0 ++ wordsBytes m
  | .bounds _ m =>
      ptrBytes a0 ++ wordsBytes (m.map Prod.fst) ++ wordsBytes (m.flatMap fun b => [b.2.1, b.2.2])

def arrayTail (p a0 : BitVec 64) (h : ArrayHead) (arsize : Word) : List Byte :=
  ptrBytes p ++ [h.scale, h.digits, flagsByte h, BitVec.ofNat 8 (dimct h.dims)] ++
    wordBytes arsize ++ shapeBytes a0 h.dims

section Images

variable (dtype : Byte) (h : ArrayHead) (data : List Byte) (table : List (BitVec 64))
  (p : BitVec 64) (addr : ℕ)

def sImage (cls : Byte) : List Store :=
  headStore addr (BitVec.ofNat 16 data.length) dtype cls :: (addr + 8, ptrBytes p) ::
    dataStore p data

def xsImage (cls : Byte) (length : BitVec 16) : List Store :=
  headStore addr length dtype cls ::
    (addr + 8, ptrBytes p ++ wordBytes (BitVec.ofNat 32 data.length)) :: dataStore p data

def rImage : List Store :=
  headStore addr (BitVec.ofNat 16 data.length) dtype 194 ::
    (addr + 8, ptrBytes p ++ [BitVec.ofNat 8 table.length]) :: (addr + 24, tableBytes table) ::
    dataStore p data

def aImage (cls : Byte) : List Store :=
  headStore addr h.length dtype cls ::
    (addr + 8, arrayTail p (p + BitVec.ofInt 64 (a0Of h.dims)) h (BitVec.ofNat 32 data.length)) ::
    dataStore p data

def apdImage : List Store :=
  headStore addr h.length dtype 196 ::
    (addr + 8, arrayTail p (BitVec.ofInt 64 (a0Of h.dims)) h
      (BitVec.ofNat 32 (8 * table.length))) :: dataStore p (tableBytes table)

def caImage (arsize : Word) : List Store :=
  [headStore addr h.length dtype 195,
    (addr + 8, arrayTail p (BitVec.ofInt 64 (a0Of h.dims)) h arsize)]

end Images

mutual

/-- What is at an address is this descriptor, with everything it points to between two
addresses. -/
def Represents (lo hi : ℕ) (mem : Memory) : BitVec 64 → Tree → Prop
  | addr, .null => addr = 0
  | addr, .dsc target => ∃ length cls p,
      Held lo hi mem [headStore addr.toNat length dtypeDsc cls, (addr.toNat + 8, ptrBytes p)] ∧
        Represents lo hi mem p target
  | addr, .s dynamic dtype data =>
      ∃ p, Held lo hi mem (sImage dtype data p addr.toNat (classS dynamic))
  | addr, .xs dynamic length dtype data =>
      ∃ p, Held lo hi mem (xsImage dtype data p addr.toNat (classXs dynamic) length)
  | addr, .r dtype _ data dscptrs => ∃ p table,
      Held lo hi mem (rImage dtype data table p addr.toNat) ∧
        RepresentsAll lo hi mem table dscptrs
  | addr, .a dtype h data => ∃ p, Held lo hi mem (aImage dtype h data p addr.toNat 4)
  | addr, .nca dtype h data => ∃ p, Held lo hi mem (aImage dtype h.val data p addr.toNat 10)
  | addr, .apd dtype h dscs => ∃ p table,
      Held lo hi mem (apdImage dtype h.val table p addr.toNat) ∧ RepresentsAll lo hi mem table dscs
  | addr, .ca dtype h arsize target => ∃ p,
      Held lo hi mem (caImage dtype h p addr.toNat arsize) ∧ Represents lo hi mem p target
  | addr, .other cls dtype => ∃ length, Held lo hi mem [headStore addr.toNat length dtype cls]

def RepresentsAll (lo hi : ℕ) (mem : Memory) : List (BitVec 64) → List Tree → Prop
  | [], [] => True
  | p :: table, t :: ts => Represents lo hi mem p t ∧ RepresentsAll lo hi mem table ts
  | _, _ => False

end

mutual

theorem Represents.frame {lo hi lo' hi' : ℕ} {mem mem' : Memory} (hlo : lo' ≤ lo) (hhi : hi ≤ hi')
    (heq : ∀ i, lo ≤ i → i < hi → mem' i = mem i) : ∀ {addr : BitVec 64} {t : Tree},
    Represents lo hi mem addr t → Represents lo' hi' mem' addr t
  | _, .null, h => h
  | _, .dsc _, ⟨length, cls, p, h, htarget⟩ =>
      ⟨length, cls, p, h.frame hlo hhi heq, htarget.frame hlo hhi heq⟩
  | _, .s .., ⟨p, h⟩ => ⟨p, h.frame hlo hhi heq⟩
  | _, .xs .., ⟨p, h⟩ => ⟨p, h.frame hlo hhi heq⟩
  | _, .r .., ⟨p, table, h, hall⟩ => ⟨p, table, h.frame hlo hhi heq, hall.frame hlo hhi heq⟩
  | _, .a .., ⟨p, h⟩ => ⟨p, h.frame hlo hhi heq⟩
  | _, .nca .., ⟨p, h⟩ => ⟨p, h.frame hlo hhi heq⟩
  | _, .apd .., ⟨p, table, h, hall⟩ => ⟨p, table, h.frame hlo hhi heq, hall.frame hlo hhi heq⟩
  | _, .ca .., ⟨p, h, htarget⟩ => ⟨p, h.frame hlo hhi heq, htarget.frame hlo hhi heq⟩
  | _, .other .., ⟨length, h⟩ => ⟨length, h.frame hlo hhi heq⟩

theorem RepresentsAll.frame {lo hi lo' hi' : ℕ} {mem mem' : Memory} (hlo : lo' ≤ lo)
    (hhi : hi ≤ hi') (heq : ∀ i, lo ≤ i → i < hi → mem' i = mem i) :
    ∀ {table : List (BitVec 64)} {ts : List Tree},
    RepresentsAll lo hi mem table ts → RepresentsAll lo' hi' mem' table ts
  | [], [], h => h
  | _ :: _, _ :: _, ⟨h, hall⟩ => ⟨h.frame hlo hhi heq, hall.frame hlo hhi heq⟩
  | [], _ :: _, h => h
  | _ :: _, [], h => h

end

theorem Represents.room {lo hi : ℕ} {mem : Memory} {addr : BitVec 64} {t : Tree}
    (h : Represents lo hi mem addr t) (hne : t.isNull = false) :
    lo ≤ addr.toNat ∧ addr.toNat + 4 ≤ hi := by
  cases t with
  | null => cases hne
  | dsc target =>
    obtain ⟨length, cls, p, hheld, -⟩ := h
    exact hheld.within _ List.mem_cons_self
  | s dynamic dtype data =>
    obtain ⟨p, hheld⟩ := h
    exact hheld.within _ List.mem_cons_self
  | xs dynamic length dtype data =>
    obtain ⟨p, hheld⟩ := h
    exact hheld.within _ List.mem_cons_self
  | r dtype pointer data dscptrs =>
    obtain ⟨p, table, hheld, -⟩ := h
    exact hheld.within _ List.mem_cons_self
  | a dtype h data =>
    obtain ⟨p, hheld⟩ := h
    exact hheld.within _ List.mem_cons_self
  | nca dtype h data =>
    obtain ⟨p, hheld⟩ := h
    exact hheld.within _ List.mem_cons_self
  | apd dtype h dscs =>
    obtain ⟨p, table, hheld, -⟩ := h
    exact hheld.within _ List.mem_cons_self
  | ca dtype h arsize target =>
    obtain ⟨p, hheld, -⟩ := h
    exact hheld.within _ List.mem_cons_self
  | other cls dtype =>
    obtain ⟨length, hheld⟩ := h
    exact hheld.within _ List.mem_cons_self

/-! ### How long the parts are -/

@[simp] theorem ptrBytes_length (p : BitVec 64) : (ptrBytes p).length = 8 := rfl

@[simp] theorem tableBytes_length (table : List (BitVec 64)) :
    (tableBytes table).length = 8 * table.length := by
  induction table with
  | nil => rfl
  | cons p table ih =>
    rw [tableBytes, List.flatMap_cons, List.length_append, ptrBytes_length, ← tableBytes, ih,
      List.length_cons]
    omega

theorem ptrBytes_inj {p q : BitVec 64} (h : ptrBytes p = ptrBytes q) : p = q := by
  unfold ptrBytes at h
  simp only [List.cons.injEq, and_true] at h
  obtain ⟨h0, h1, h2, h3, h4, h5, h6, h7⟩ := h
  have hbyte : ∀ k < 8, p.extractLsb' (8 * k) 8 = q.extractLsb' (8 * k) 8 := by
    intro k hk
    have hcases : k = 0 ∨ k = 1 ∨ k = 2 ∨ k = 3 ∨ k = 4 ∨ k = 5 ∨ k = 6 ∨ k = 7 := by omega
    rcases hcases with rfl | rfl | rfl | rfl | rfl | rfl | rfl | rfl
    · exact h0
    · exact h1
    · exact h2
    · exact h3
    · exact h4
    · exact h5
    · exact h6
    · exact h7
  apply BitVec.eq_of_getLsbD_eq
  intro i hi
  have hbit := congrArg (fun b => b.getLsbD (i % 8)) (hbyte (i / 8) (by omega))
  simp only [BitVec.getLsbD_extractLsb', Nat.mod_lt i (show 8 > 0 by omega), decide_true,
    Bool.true_and, Nat.div_add_mod] at hbit
  exact hbit

theorem shapeBytes_length (a0 : BitVec 64) (dims : Dims) :
    (shapeBytes a0 dims).length = shapeOutSize dims := by
  cases dims with
  | plain n => rfl
  | coeff a m =>
    simp [shapeBytes, shapeOutSize, hasCoeff, hasBounds, dimct]
  | bounds a m =>
    have hpairs : (m.flatMap fun b => [b.2.1, b.2.2]).length = 2 * m.length := by
      rw [List.length_flatMap]
      simp [Nat.mul_comm]
    simp [shapeBytes, shapeOutSize, hasCoeff, hasBounds, dimct, hpairs]
    omega

theorem arrayTail_length (p a0 : BitVec 64) (h : ArrayHead) (arsize : Word) :
    (arrayTail p a0 h arsize).length = 16 + shapeOutSize h.dims := by
  rw [arrayTail, List.length_append, shapeBytes_length]
  rfl

end MdsPlus.DescriptorImages
