import MdsPlus.ExtendedCopies
import MdsPlus.SegmentRuns

/-!
Failures of copying segments. No status of a segment survives the writing of its page, so what is
reported is right only where every piece of every segment can be read; and the record of an end
goes along only with one of a start.
-/

namespace MdsPlus.CopiedSegments

open Codec ByteFile Datafile SegmentRecords ExtendedCopies Outcome
open SegmentRuns (unary)

variable {V : Type}

/-! ### What can be read -/

/-- Bytes that are in the file, or none that are asked for. -/
def Held (fin : File) (offset : Offset) (length : ℤ) : Prop :=
  offset ≠ -1 → 0 ≤ length → offset.toNat + length.toNat ≤ fin.size

def LimitsHeld (fin : File) (sinfo : SegmentInfo) : Prop :=
  0 < sinfo.start.offset.toInt → Held fin sinfo.start.offset sinfo.start.length.toInt ∧
    (0 < sinfo.stop.offset.toInt → Held fin sinfo.stop.offset sinfo.stop.length.toInt)

def RawHeld (fin : File) (shead : SegmentHeader) (sinfo : SegmentInfo) : Prop :=
  if sinfo.rows.toInt < 0 then
    Held fin sinfo.dataOffset (sinfo.rows &&& 0x7fffffff).toNat ∧
      Held fin sinfo.dimensionOffset sinfo.dimensionLength.toInt
  else
    Held fin sinfo.dimensionOffset
        (if sinfo.dimensionLength = 0 then sinfo.rows.toInt * 8
          else sinfo.dimensionLength.toInt) ∧
      Held fin sinfo.dataOffset (bytesPerRow shead * sinfo.rows.toInt)

/-- A segment that can be copied: as records its data can be read, with its timestamps where it has
them, and the header of the last one has dimensions. -/
def Legible (S : Records V) (fin : File) (shead : SegmentHeader) (i compress : ℤ)
    (sinfo : SegmentInfo) : Prop :=
  (if compress ≠ -1 then
    (∃ r, readSegment S false fin shead sinfo i true false = .ok r) ∧
      (i = shead.idx.toInt → shead.dimct ≠ 0)
  else RawHeld fin shead sinfo) ∧ LimitsHeld fin sinfo

structure Regular (sinfo : SegmentInfo) : Prop where
  used : sinfo.dataOffset ≠ -1
  times : timestamped sinfo = true → 0 ≤ sinfo.rows.toInt
  missing : sinfo.dimensionLength = -1 → sinfo.dimensionOffset = -1

section Pieces

variable {fin : File} {vars : Vars}

end Pieces

/-! ### The header -/

structure Same (shead shead' : SegmentHeader) : Prop where
  dtype : shead'.dtype = shead.dtype
  dimct : shead'.dimct = shead.dimct
  length : shead'.length = shead.length
  idx : shead'.idx = shead.idx
  nextRow : shead'.nextRow = shead.nextRow
  inner : ∀ j < shead.dimct.toNat - 1, dimAt shead' j = dimAt shead j

theorem Same.refl (shead : SegmentHeader) : Same shead shead :=
  ⟨rfl, rfl, rfl, rfl, rfl, fun _ _ => rfl⟩

theorem Same.trans {a b c : SegmentHeader} (hab : Same a b) (hbc : Same b c) : Same a c where
  dtype := hbc.dtype.trans hab.dtype
  dimct := hbc.dimct.trans hab.dimct
  length := hbc.length.trans hab.length
  idx := hbc.idx.trans hab.idx
  nextRow := hbc.nextRow.trans hab.nextRow
  inner j hj := (hbc.inner j (by rwa [hab.dimct])).trans (hab.inner j hj)

section Same

variable {shead shead' : SegmentHeader}

end Same

/-! ### Data and dimension -/

structure Front (vars vars' : Vars) (held : Prop) : Prop where
  status : vars'.status = none ↔ held
  same : Same vars.shead vars'.shead
  start : vars'.sinfo.start = vars.sinfo.start
  stop : vars'.sinfo.stop = vars.sinfo.stop
  data : vars'.status = none → .data ∈ vars'.anew
  dimension : vars'.status = none → vars.sinfo.dimensionOffset ≠ -1 → .dimension ∈ vars'.anew
  limits : .stop ∈ vars'.anew → .stop ∈ vars.anew

section Front

variable {S : Records V} {fin : File} {vars : Vars}

end Front

/-! ### A segment -/

/-- As records the pieces get offsets that are taken before the next is read. -/
def Room (compress : ℤ) (out : File) : Prop := compress ≠ -1 → out.size < 2 ^ 63

theorem Room.back {compress : ℤ} {f g : File} (h : Room compress g) (hle : f.size ≤ g.size) :
    Room compress f := fun hcompress => Nat.lt_of_le_of_lt hle (h hcompress)

def Present (sinfo : SegmentInfo) : Piece → Prop
  | .data => sinfo.dataOffset ≠ -1
  | .dimension => sinfo.dimensionOffset ≠ -1
  | .start => 0 < sinfo.start.offset.toInt
  | .stop => 0 < sinfo.stop.offset.toInt

/-- A record of an end has one of the start before it. -/
def Anchored (sinfo : SegmentInfo) : Prop :=
  0 < sinfo.stop.offset.toInt → 0 < sinfo.start.offset.toInt

/-- What copying a segment in use comes to. -/
structure Fair (legible : Prop) (sinfo : SegmentInfo) (outcome : Option Status)
    (anew : List Piece) : Prop where
  status : outcome = none ↔ legible
  anchored : .stop ∈ anew → 0 < sinfo.start.offset.toInt
  complete : outcome = none → Anchored sinfo → ∀ k, Present sinfo k → k ∈ anew

section Segment

variable {S : Records V} {fin : File}

/-- Steps that at most fail. -/
structure Quiet (vars vars' : Vars) : Prop where
  status : vars'.status = vars.status ∨ vars'.status = some .failure
  shead : vars'.shead = vars.shead
  grows : vars.out.size ≤ vars'.out.size

theorem Quiet.refl (vars : Vars) : Quiet vars vars :=
  ⟨Or.inl rfl, rfl, Nat.le_refl _⟩

theorem Quiet.same {vars vars' : Vars} (h : Quiet vars vars') : Same vars.shead vars'.shead :=
  h.shead ▸ .refl _

end Segment

/-! ### The slots of a page -/

def InUse (sindex : SegmentIndex) (i : Fin SEGMENTS_PER_INDEX) : Prop :=
  sindex.segment[i].dataOffset ≠ -1

/-- Slots are used from the first on. -/
structure Filled (sindex : SegmentIndex) : Prop where
  regular : ∀ i, InUse sindex i → Regular sindex.segment[i]
  down : ∀ i j, j < i → InUse sindex i → InUse sindex j

structure Noted (S : Records V) (fin : File) (shead : SegmentHeader) (compress : ℤ)
    (sindex : SegmentIndex) (e : Entry) : Prop where
  used : InUse sindex e.slot →
    Fair (Legible S fin shead (e.slot : ℕ) compress sindex.segment[e.slot])
      sindex.segment[e.slot] e.status e.anew
  unused : ¬ InUse sindex e.slot → e.status ≠ some .undefined

section Slots

variable {S : Records V} {fin : File} {compress : ℤ} {page : ℕ} {sindex : SegmentIndex}
  {shead : SegmentHeader}

end Slots

/-! ### The pages of a node -/

def Used (pages : List SegmentIndex) (page : ℕ) (i : Fin SEGMENTS_PER_INDEX)
    (sinfo : SegmentInfo) : Prop :=
  ∃ sindex, pages[page]? = some sindex ∧ sindex.segment[i] = sinfo ∧ InUse sindex i

def Failed (pages : List SegmentIndex) (e : Entry) : Prop :=
  (∃ sinfo, Used pages e.page e.slot sinfo) ∧ e.status ≠ none

structure Told (S : Records V) (fin : File) (shead : SegmentHeader) (compress : ℤ)
    (pages : List SegmentIndex) (first : ℕ) (vars vars' : IndexVars) (entries : List Entry) :
    Prop where
  journal : vars'.journal = vars.journal ++ entries
  noted : ∀ e ∈ entries, ∃ sindex, pages[e.page]? = some sindex ∧
    Noted S fin shead compress sindex e
  every : ∀ page i sinfo, first ≤ page → Used pages page i sinfo →
    ∃ e ∈ entries, e.page = page ∧ e.slot = i ∨ Failed pages e
  status : vars'.status = none ∨
    vars'.status = some .undefined ∧ ∃ e ∈ entries, Failed pages e

section Pages

variable {S : Records V} {fin : File} {compress : ℤ} {pages : List SegmentIndex}
  {shead : SegmentHeader}

end Pages

/-! ### What is reported -/

section Node

variable {S : Records V} {fin out out' : File} {rfa : Rfa} {attr attr' : ExtendedAttributes}
  {shead : SegmentHeader} {pages : List SegmentIndex} {compress : ℤ}

end Node

/-! ### A node with one segment -/

section Node

variable {S : Records V} {fin out out' : File} {rfa : Rfa} {attr attr' : ExtendedAttributes}
  {shead : SegmentHeader} {pages : List SegmentIndex} {compress : ℤ}

end Node

end MdsPlus.CopiedSegments
