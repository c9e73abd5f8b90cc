import MdsPlus.SortIndices
import MdsPlus.TableSearch

/-!
BSEARCH: the places of values in a table. Each value is looked for from where the one before was
found, and yet its answer depends on itself alone.
-/

namespace MdsPlus.SearchAnswers

open ArrayDescriptors (ArrayDesc IsInt toInt dscSize)
open BitMemory (Byte)
open ElementArrays ElementOrder SortLoops TableSearch
open NewArrays hiding Fits
open SortIndices hiding listing room

def room : Values → ℕ
  | .scalar _ => 1
  | .array x _ => SortIndices.room x

def listing : Values → Indices → List ℤ
  | .scalar _, out => [out 0]
  | .array x _, out => SortIndices.listing x out

/-- What is answered for a value that is found at a place, or before the next one. -/
def answer (d : Dtype) (len : ℕ) (table : List Byte) (mode : ℤ) (v : List Byte) (lo : ℤ) :
    Except Fault ℤ :=
  if mode > 0 then .ok lo
  else do
    let equal ←
      if lo ≥ 0 then do
        let a ← elementAt len table lo
        let c ← neq d v a
        .ok (decide (c = 0))
      else .ok false
    .ok (if equal then lo else if mode = 0 then -1 else lo + 1)

def compare (d : Dtype) (len : ℕ) (table v : List Byte) (i : ℤ) : Except Fault ℤ := do
  let a ← elementAt len table i
  gtr d a v

/-- One value: where the search ends is where the next one begins. -/
def search (d : Dtype) (len : ℕ) (table : List Byte) (nt : ℤ) (mode : ℤ) (list : Values)
    (s : ℤ × Indices) (k : ℕ) : Except Fault (ℤ × Indices) := do
  let v := element len list.bytes k
  let lo ← find (compare d len table v) nt (nt.toNat + 2) s.1
  let a ← answer d len table mode v lo
  let out ← write (room list) s.2 k a
  .ok (lo, out)

/-- Tdi1Bsearch with the type and length that both arguments have been converted to. -/
def bsearch (d : Dtype) (len : ℕ) (list table : Values) (mode : ℤ) (out : Indices) :
    Except Fault (List ℤ) := do
  let ni ← list.count
  let nt ← table.count
  if ni ≤ 0 then .ok (listing list out)
  else if nt ≤ 0 then .error .nullPtr
  else do
    let s ← (List.range ni.toNat).foldlM (search d len table.bytes nt mode list) (-2, out)
    .ok (listing list s.2)

/-! ### What it should answer -/

def Ascending (d : Dtype) (len : ℕ) (table : Values) : Prop :=
  ∀ j k, j ≤ k → k < table.number → value d (table.entry len j) ≤ value d (table.entry len k)

def lastPlace (d : Dtype) (len : ℕ) (table : Values) (v : List Byte) : ℤ :=
  match (List.range table.number).reverse.find? fun k =>
    decide (value d (table.entry len k) ≤ value d v) with
  | some k => k
  | none => -1

def expected (d : Dtype) (len : ℕ) (table : Values) (mode : ℤ) (v : List Byte) : ℤ :=
  let p := lastPlace d len table v
  if mode > 0 then p
  else if 0 ≤ p ∧ table.entry len p.toNat = v then p
  else if mode = 0 then -1
  else p + 1

def Finds (d : Dtype) (len : ℕ) (list table : Values) (mode : ℤ) (out : Indices) : Prop :=
  bsearch d len list table mode out =
    .ok ((List.range list.number).map fun k => expected d len table mode (list.entry len k))

/-- There is nothing to look for, or room for the answers. -/
def Fits : Values → Prop
  | .scalar _ => True
  | .array x _ => nElements x = .ok 0 ∨
      0 < x.length ∧ dscSize x (newArsize x 4) 4 false + 4 * elements x < 4294967296

/-- Places and bytes of the table are told by ints, also the sum of two places. -/
def Reachable (len : ℕ) (table : Values) : Prop :=
  0 < len ∧ table.number ≤ 1073741824 ∧ (len : ℤ) * (table.number - 1) < 2147483648

variable {d : Dtype} {len : ℕ} {list table : Values} {mode : ℤ} {out : Indices}

/-! ### The table -/

theorem tells (h : table.Of d len) (hreach : Reachable len table) {v : List Byte}
    (hv : Element d len v) :
    Tells (compare d len table.bytes v) table.number
      (fun i => value d (table.entry len i.toNat)) (value d v) := by
  intro i hi hlt
  have hplace : Rearrangement.Inside (0, (table.number : ℤ) - 1) i :=
    Rearrangement.inside_iff.2 ⟨hi, by omega⟩
  obtain ⟨c, hc, hgreater⟩ := gtr_spec (entry_spec h (k := i.toNat) (by omega)) hv hreach.1
  refine ⟨c, ?_, hgreater⟩
  rw [compare, elementAt_ok (bytes_length h) hreach.2.2 hplace.1 (by omega)]
  exact hc

end MdsPlus.SearchAnswers
