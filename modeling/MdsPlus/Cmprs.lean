import MdsPlus.Pack

/-!
MdsCmprs and MdsXpand: arrays are cut into runs of at most 1024 items, each run
is differenced and its differences are split into a normal block of narrow fields
and an exception block of wide ones. The widths are chosen from a histogram of
the significant bits. Runs are independent; a two-word header gives their shape.
Reads outside an array and overflow of a signed count are undefined in C; the
model stops there with its own outcome.
-/

namespace MdsPlus.Cmprs

open BitMemory Pack

/-- Longest run, bits in a run length, bits in a field width. -/
def MAXX : ℕ := 1024
def BITSX : ℕ := 10
def BITSY : ℕ := 6

/-- Signed 32-bit counts stay below this bound. -/
def intLimit : ℕ := 2 ^ 31

def dtypeBU : ℕ := 2
def dtypeWU : ℕ := 3
def dtypeLU : ℕ := 4
def dtypeB : ℕ := 6
def dtypeW : ℕ := 7
def dtypeL : ℕ := 8
def dtypeF : ℕ := 10
def dtypeD : ℕ := 11
def dtypeFC : ℕ := 12
def dtypeDC : ℕ := 13
def dtypeT : ℕ := 14
def dtypeG : ℕ := 27
def dtypeH : ℕ := 28
def dtypeGC : ℕ := 29
def dtypeHC : ℕ := 30

/-- LibSTRTRU, LibINVSTRDES, or behaviour the language leaves undefined. -/
inductive Fault
  | strtru
  | invstrdes
  | undefined
  deriving DecidableEq, Repr

/-- Text is by the character, otherwise the widest of int and short that divides
the element length. -/
def stepOf (dtype length : ℕ) : ℕ :=
  if dtype = dtypeT then 1
  else if length % 4 = 0 then 4
  else if length % 2 = 0 then 2
  else 1

/-- The loops the switch on the data type ends in. -/
inductive Branch
  | bu | b | wu | w | lu | f
  deriving DecidableEq, Repr

def branchOf (dtype step : ℕ) : Branch :=
  if dtype = dtypeT ∨ dtype = dtypeBU then .bu
  else if dtype = dtypeB then .b
  else if dtype = dtypeWU then .wu
  else if dtype = dtypeW then .w
  else if dtype = dtypeL ∨ dtype = dtypeLU then .lu
  else if dtype ∈ [dtypeF, dtypeFC, dtypeD, dtypeDC, dtypeG, dtypeGC, dtypeH, dtypeHC] then .f
  else if step = 4 then .lu
  else if step = 2 then .wu
  else .bu

namespace Branch

def width : Branch → ℕ
  | bu | b => 1
  | wu | w => 2
  | lu | f => 4

/-- Sign and field extension of one item; floats swap their halves. -/
def load (br : Branch) (bytes : List Byte) : Word :=
  let byte (k : ℕ) : Byte := bytes.getD k 0
  match br with
  | bu => (byte 0).setWidth 32
  | b => (byte 0).signExtend 32
  | wu => (byte 1 ++ byte 0).setWidth 32
  | w => (byte 1 ++ byte 0).signExtend 32
  | lu => byte 3 ++ byte 2 ++ byte 1 ++ byte 0
  | f => byte 1 ++ byte 0 ++ byte 3 ++ byte 2

/-- The store of the expander; signed and unsigned are the same. -/
def store (br : Branch) (v : Word) : List Byte :=
  match br with
  | bu | b => [v.extractLsb' 0 8]
  | wu | w => [v.extractLsb' 0 8, v.extractLsb' 8 8]
  | lu => [v.extractLsb' 0 8, v.extractLsb' 8 8, v.extractLsb' 16 8, v.extractLsb' 24 8]
  | f => [v.extractLsb' 16 8, v.extractLsb' 24 8, v.extractLsb' 0 8, v.extractLsb' 8 8]

end Branch

/-- Take `n` items off the array; reading past its end is undefined. -/
def loadItems (br : Branch) : ℕ → List Byte → Except Fault (List Word × List Byte)
  | 0, bytes => .ok ([], bytes)
  | n + 1, bytes =>
      if bytes.length < br.width then .error .undefined
      else do
        let (items, rest) ← loadItems br n (bytes.drop br.width)
        .ok (br.load (bytes.take br.width) :: items, rest)

def signif : List ℕ :=
  [0, 1, 2, 2, 3, 3, 3, 3, 4, 4, 4, 4, 4, 4, 4, 4, 5, 5, 5, 5, 5, 5,
   5, 5, 5, 5, 5, 5, 5, 5, 5, 5, 6, 6, 6, 6, 6, 6, 6, 6, 6, 6, 6, 6,
   6, 6, 6, 6, 6, 6, 6, 6, 6, 6, 6, 6, 6, 6, 6, 6, 6, 6, 6, 6, 7]

/-- Shift by `k` bits and count them when the magnitude exceeds the limit. -/
def narrow (limit k : ℕ) (p : ℕ × ℕ) : ℕ × ℕ :=
  if p.1 > limit then (p.1 / 2 ^ k, p.2 + k) else p

/-- Significant bits of a magnitude, by table after at most three shifts. -/
def significance (delta : ℕ) : ℕ :=
  if delta ≤ 64 then signif.getD delta 0
  else
    let p := narrow 0x40 6 (narrow 0x1000 12 (narrow 0x1000000 24 (delta, 0)))
    p.2 + signif.getD p.1 0

/-- The histogram bin of one difference; a difference that wraps gets 32. -/
def binOf (old item : Word) : ℕ :=
  let ans := item - old
  if ans = 0x80000000 ∨ (if old.toInt < 0 then ans.toInt < item.toInt else ans.toInt > item.toInt)
  then 32
  else significance ans.toInt.natAbs

/-- Differences of a run and their bins, from the starting value on. -/
def differences (old : Word) : List Word → List Word
  | [] => []
  | item :: items => (item - old) :: differences item items

def bins (old : Word) : List Word → List ℕ
  | [] => []
  | item :: items => binOf old item :: bins item items

abbrev Tally := ℕ → ℕ

def Tally.set (t : Tally) (y v : ℕ) : Tally := fun k => if k = y then v else t k

/-- The histogram the differencing loop builds up, bin by bin. -/
def tallyOf (ys : List ℕ) : Tally :=
  ys.foldl (fun t y => t.set y (t y + 1)) (fun _ => 0)

/-- Replace each bin by the number of items above it, up to the last nonempty
bin, whose index is returned. The counter bounds the walk to the array. -/
def drain : ℕ → Tally → ℕ → ℕ → Tally × ℕ
  | 0, t, _, y => (t, y)
  | fuel + 1, t, xsum, y =>
      let xsum := xsum - t y
      if xsum > 0 then drain fuel (t.set y xsum) xsum (y + 1) else (t.set y xsum, y)

/-- Cheapest width below `yy`; the cost of width `y` is one normal field for each
item and one exception field for each item above it. -/
def breakpoint (t : Tally) (xn ye : ℕ) : ℕ → ℕ → ℕ → ℕ
  | 0, _, yn => yn
  | 1, _, yn => yn
  | yy + 2, best, yn =>
      let test := xn * (yy + 1) + t yy * ye
      if test < best then breakpoint t xn ye (yy + 1) test (yy + 1)
      else breakpoint t xn ye (yy + 1) best yn

/-- Field widths of a run and the number of its exceptions. -/
structure Widths where
  yn : ℕ
  ye : ℕ
  xe : ℕ

def chooseWidths (xn : ℕ) (tally : Tally) : Widths :=
  if tally 0 = xn then ⟨0, 0, 0⟩
  else
    let (t, last) := drain 32 (tally.set 31 (tally 31 + tally 32)) xn 0
    let ye := last + 1
    let yn := breakpoint t xn ye ye (xn * ye) ye
    ⟨yn, ye, t (yn - 1)⟩

/-- The in-band exception mark: the most negative number of the normal width. -/
def markOf (yn : ℕ) : Word := 0xFFFFFFFF#32 <<< (yn - 1)

def inRange (mark d : Word) : Bool := d.sle (~~~mark) && mark.slt d

/-- Move the next `xe` out-of-range differences to the exception table and mark
their places. The scan has no end test: it runs on into what the array held
before, and leaving the array is undefined. -/
def extract (mark : Word) : ℕ → List Word → Except Fault (List Word × List Word)
  | 0, diff => .ok ([], diff)
  | _ + 1, [] => .error .undefined
  | xe + 1, d :: diff =>
      if inRange mark d then do
        let (exce, diff) ← extract mark (xe + 1) diff
        .ok (exce, d :: diff)
      else do
        let (exce, diff) ← extract mark xe diff
        .ok (d :: exce, mark :: diff)

def xAndY (x y : Word) : Word := ((x &&& masks BITSX) <<< BITSY) ||| (y &&& masks BITSY)

def xOfInt (v : Word) : ℕ := ((v >>> BITSY) &&& masks BITSX).toNat

def yOfInt (v : Word) : ℕ := (v &&& masks BITSY).toNat

/-- The header words: run length less one with the normal width, and exception
count with the exception width less one. -/
def headerOf (xn : ℕ) (w : Widths) : List Word :=
  [xAndY (BitVec.ofNat 32 (xn - 1)) (BitVec.ofNat 32 w.yn),
   xAndY (BitVec.ofNat 32 w.xe) (BitVec.ofNat 32 w.ye - 1)]

/-- What one run passes to the next: unread items, the difference array with
what it held last, the packed words and the bit pointer. -/
structure State where
  items : List Byte
  diff : List Word
  pack : Memory
  bit : ℕ

def cmprsRun (br : Branch) (limit xn : ℕ) (s : State) : Except Fault State := do
  let (items, rest) ← loadItems br xn s.items
  let diff := differences 0 items ++ s.diff.drop xn
  let w := chooseWidths xn (tallyOf (bins 0 items))
  let (exce, diff) ← extract (markOf w.yn) w.xe diff
  let bit := s.bit + w.xe * w.ye + xn * w.yn
  if intLimit ≤ bit then .error .undefined
  else if bit > limit then .error .strtru
  else if intLimit ≤ bit + 32 then .error .undefined
  else
    let (pack, bit) := mdsPk 16 (headerOf xn w) s.pack s.bit
    let (pack, bit) := mdsPk w.yn (diff.take xn) pack bit
    let (pack, bit) := mdsPk w.ye exce pack bit
    .ok ⟨rest, diff, pack, bit⟩

def cmprsLoop (br : Branch) (limit nitems : ℕ) (s : State) : Except Fault State :=
  if nitems = 0 then .ok s
  else do
    let xn := min nitems MAXX
    let s ← cmprsRun br limit xn s
    cmprsLoop br limit (nitems - xn) s
termination_by nitems
decreasing_by simp only [MAXX]; omega

/-- `stack` is what the difference array holds when the routine is entered. -/
def mdsCmprs (nitems dtype length : ℕ) (items : List Byte) (arsize : ℕ)
    (stack : Vector Word MAXX) (pack : Memory) (bit : ℕ) : Except Fault (Memory × ℕ) := do
  let step := stepOf dtype length
  let limit := if arsize > 4 then arsize * 8 - 32 else 0
  let nitems := nitems * (length / step)
  if intLimit ≤ nitems then .error .undefined
  else
    let s ← cmprsLoop (branchOf dtype step) limit nitems ⟨items, stack.toList, pack, bit⟩
    .ok (s.pack, s.bit)

/-- Sum the differences, taking the next exception wherever the mark stands. -/
def restore (useExce : Bool) (mark old : Word) :
    List Word → List Word → Except Fault (List Word)
  | [], _ => .ok []
  | d :: diff, exce =>
      if useExce ∧ d = mark then
        match exce with
        | [] => .error .undefined
        | e :: exce => do
            let items ← restore useExce mark (old + e) diff exce
            .ok ((old + e) :: items)
      else do
        let items ← restore useExce mark (old + d) diff exce
        .ok ((old + d) :: items)

/-- The shape of a run as its header words give it; `xlast` is its length less one. -/
structure Header where
  xlast : ℕ
  yn : ℕ
  xe : ℕ
  ye : ℕ

def readHeader (pack : Memory) (bit : ℕ) : Header :=
  let words := (mdsUnpk 16 2 pack bit).1
  { xlast := xOfInt (words.getD 0 0)
    yn := yOfInt (words.getD 0 0)
    xe := xOfInt (words.getD 1 0)
    ye := yOfInt (words.getD 1 0) + 1 }

/-- Unpack and sum the first `j` items of a run whose fields start at `bit`. When
fewer than all are wanted the exceptions are found past the unread fields. -/
def expandRun (pack : Memory) (h : Header) (j bit : ℕ) : Except Fault (List Word × ℕ) :=
  if 32 < h.yn then .error .undefined
  else
    let (diff, bit) := mdsUnpk (-h.yn) j pack bit
    if h.xe = 0 then do
      let items ← restore false 0 0 diff diff
      .ok (items, bit)
    else if h.yn = 0 ∨ 32 < h.ye then .error .undefined
    else do
      let (exce, bit) := mdsUnpk (-h.ye) h.xe pack (bit + h.yn * (h.xlast + 1 - j))
      let items ← restore true (markOf h.yn) 0 diff exce
      .ok (items, bit)

def xpandLoop (br : Branch) (pack : Memory) (limit nitems bit : ℕ) :
    Except Fault (List Byte × ℕ) :=
  if nitems = 0 then .ok ([], bit)
  else if bit + 32 > limit then .error .invstrdes
  else
    let h := readHeader pack bit
    let j := min (h.xlast + 1) nitems
    if bit + 32 + h.ye * h.xe + h.yn * j > limit then .error .invstrdes
    else do
      let (items, bit) ← expandRun pack h j (bit + 32)
      let (bytes, bit) ← xpandLoop br pack limit (nitems - j) bit
      .ok (items.flatMap br.store ++ bytes, bit)
termination_by nitems
decreasing_by omega

/-- The expander works on a copy of the packed bytes followed by set bits. -/
def padded (pack : Memory) (arsize : ℕ) : Memory :=
  fun a => if a < arsize then pack a else 0xFF

/-- The bytes stored in the item array and the bit pointer after them. -/
def mdsXpand (nitems : ℕ) (pack : Memory) (arsize dtype length bit : ℕ) :
    Except Fault (List Byte × ℕ) :=
  let step := stepOf dtype length
  let nitems := nitems * (length / step)
  if intLimit ≤ nitems ∨ intLimit ≤ arsize * 8 then .error .undefined
  else xpandLoop (branchOf dtype step) (padded pack arsize) (arsize * 8) nitems bit

end MdsPlus.Cmprs
