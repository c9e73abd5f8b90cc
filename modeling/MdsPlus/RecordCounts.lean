import MdsPlus.BlockLayout
import MdsPlus.RecordSizes

/-!
Whether the counts agree. A descriptor is counted, written, counted again where it is decoded and
written again there; each of these goes by a formula of its own for each class. They agree for a
descriptor and all that it points to exactly when each header is one whose formulas agree and
everything fits 32 bits.
-/

namespace MdsPlus.RecordCounts

open BitMemory SerializedRecords DescriptorRecords RecordSizes BlockLayout

/-! ### What decoding writes -/

section Written

variable (mem : Memory) (pos : ℕ)

/-- The bytes of the descriptor in front of the nested ones that are written, with those that
aligning them may skip. -/
def filled : Word :=
  match classOf mem pos with
  | .a =>
      BitVec.ofNat 32 (24 + shapeOut mem pos) + alignSize mem pos +
        SerializedRecords.arsize mem pos
  | _ => bytesOut mem pos

/-- Where the bytes in front of the nested descriptors end, if the descriptor is written at
`base`. The header of a record is written with one pointer even if it has none. -/
def headEnd (base : ℕ) : ℕ :=
  match classOf mem pos with
  | .s => 16 + (SerializedRecords.length mem pos).toNat
  | .xs => 24 + (lLength mem pos).toNat
  | .r => max 32 (24 + ndesc mem pos * 8 + (SerializedRecords.length mem pos).toNat)
  | .a =>
      roundUp (base + (24 + shapeOut mem pos)) (alignSize mem pos).toNat - base +
        (SerializedRecords.arsize mem pos).toNat
  | .apd => 24 + shapeOut mem pos + numDsc mem pos * 8
  | .ca => 24 + shapeOut mem pos
  | .other => 0

end Written

/-- Where the nested descriptors are written, and how many bytes each takes. -/
def nestedBlocks (copy : ℕ → Except Stop Result) (pos : ℕ) (pad : Bool) :
    List Bool → Word → Word → List (ℕ × ℕ)
  | [], _, _ => []
  | false :: rest, out, inp => nestedBlocks copy pos pad rest out inp
  | true :: rest, out, inp =>
      match copy (pos + inp.toNat) with
      | .ok r =>
          (out.toNat, r.bOut.toNat) :: nestedBlocks copy pos pad rest
            (if pad then alignPtr (out + r.bOut) else out + r.bOut) (inp + r.bIn)
      | .error _ => []

def blocks (mem : Memory) (depth pos : ℕ) : List (ℕ × ℕ) :=
  nestedBlocks (copyRecDx mem true depth) pos (classOf mem pos = .r) (nested mem pos)
    (bytesOut mem pos) (bytesIn mem pos)

/-- Both passes over the record take so many bytes and count the same; wherever it is written, the
second one stays within the count. If `exact`, the count is what is filled. -/
structure Decoded (exact : Bool) (mem : Memory) (size : Word) : Prop where
  passes : ∃ depth out, ∀ depth' ≥ depth,
    (∀ write, copyRecDx mem write depth' 0 = .ok ⟨.success, out, size⟩) ∧
      ∀ base, LaidOut (headEnd mem 0 base) (blocks mem depth' 0) out.toNat
  filled : exact → bytesOut mem 0 = filled mem 0

/-- Both passes of serializing a descriptor take the same number of bytes, nothing else is
written, and decoding what is written takes as many. -/
structure Kept (exact : Bool) (t : Tree) : Prop where
  status : (copyDxRec t).status = .success
  size : (copyDxRec t).size.toNat = (copyDxRec t).written
  within : ∀ mem i, (copyDxRec t).size.toNat ≤ i → (copyDxRec t).write 0 mem i = mem i
  decoded : (copyDxRec t).size ≠ 0 → ∀ mem, Blank mem 0 (copyDxRec t).size.toNat →
    Decoded exact ((copyDxRec t).write 0 mem) (copyDxRec t).size

inductive Called : Tree → Tree → Prop
  | self {t : Tree} : Called t t
  | nested {t u v : Tree} (hu : u ∈ nestedIn t) (hne : u.isNull = false) (h : Called u v) :
      Called t v

/-! ### When the counts agree -/

mutual

def recordSize : Tree → ℕ
  | .null => 0
  | .s _ _ data => 8 + data.length
  | .xs _ _ _ data => 12 + data.length
  | .r _ data dscptrs => 12 + 4 * dscptrs.length + data.length + recordSizes 0 dscptrs
  | .a _ h data => 16 + shapeSize h.dims + data.length
  | .apd _ h dscs => 16 + shapeSize h.dims + 4 * dscs.length + recordSizes 4 dscs
  | .ca _ h _ target => 16 + shapeSize h.dims + recordSize target
  | .other _ _ => 0

def recordSizes (gap : ℕ) : List Tree → ℕ
  | [] => 0
  | t :: ts => (if t.isNull then gap else recordSize t) + recordSizes gap ts

end

mutual

def decodedSize : Tree → ℕ
  | .null => 16
  | .s _ _ data => roundUp (16 + data.length) 8
  | .xs _ _ _ data => roundUp (24 + data.length) 8
  | .r _ data dscptrs =>
      ends true (roundUp (24 + dscptrs.length * 8 + data.length) 8) (decodedSizes false dscptrs)
  | .a dtype h data =>
      24 + shapeOutSize h.dims + data.length + (alignRoom dtype h.length).toNat + data.length
  | .apd _ h dscs =>
      ends false (24 + shapeOutSize h.dims + 8 * dscs.length) (decodedSizes true dscs)
  | .ca _ h _ target =>
      ends false (roundUp (24 + shapeOutSize h.dims) 8)
        (if target.isNull then [] else [decodedSize target])
  | .other _ _ => 0

def decodedSizes (gaps : Bool) : List Tree → List ℕ
  | [] => []
  | t :: ts =>
      if t.isNull && !gaps then decodedSizes gaps ts else decodedSize t :: decodedSizes gaps ts

end

/-- All passes go over the header alike. -/
def Alike (exact : Bool) : Tree → Prop
  | .s _ dtype data =>
      fixLength dtype (BitVec.ofNat 16 data.length) = BitVec.ofNat 16 data.length
  | .r _ data dscptrs => data ≠ [] ∨ dscptrs ≠ []
  | .a dtype h data => (dtype = dtypeT ∨ fixLength dtype h.length ≠ 0) ∧ (exact → data = [])
  | .apd _ h dscs => hasCoeff h.dims → hasBounds h.dims ∧ dscs.length = 1
  | .other _ _ => False
  | _ => True

structure Sound (exact : Bool) (t : Tree) : Prop where
  agrees : Alike exact t
  record : recordSize t < 2 ^ 32
  decoded : decodedSize t < 2 ^ 32

/-! ### Decoding nested descriptors -/

/-- These bytes are decoded to so many wherever they stand. -/
def Decodes (bytes : List Byte) (out : ℕ) : Prop :=
  ∀ mem pos, HoldsBytes mem pos bytes → ∃ depth, ∀ write,
    copyRecDx mem write depth pos =
      .ok ⟨.success, BitVec.ofNat 32 out, BitVec.ofNat 32 bytes.length⟩

/-- What stands for the nested descriptors, and how many bytes each of those that are there is
decoded to. -/
inductive Matches : List Bool → List (List Byte) → List ℕ → Prop
  | nil : Matches [] [] []
  | skip {flags : List Bool} {bodies : List (List Byte)} {outs : List ℕ}
      (h : Matches flags bodies outs) : Matches (false :: flags) ([] :: bodies) outs
  | take {flags : List Bool} {bodies : List (List Byte)} {outs : List ℕ} {body : List Byte}
      {out : ℕ} (hbody : Decodes body out) (hout : out < 2 ^ 32) (h : Matches flags bodies outs) :
      Matches (true :: flags) (body :: bodies) (out :: outs)

theorem next_ofNat (pad : Bool) (out size : ℕ) :
    (if pad then alignPtr (BitVec.ofNat 32 out + BitVec.ofNat 32 size)
      else BitVec.ofNat 32 out + BitVec.ofNat 32 size) = BitVec.ofNat 32 (next pad out size) := by
  rw [← BitVec.ofNat_add, alignPtr_ofNat]
  unfold next
  split <;> rfl

/-- Decoding nested descriptors counts to where they end, and writes them one behind the other. -/
theorem copyNested_matches {mem : Memory} {pos : ℕ} (pad : Bool) {flags : List Bool}
    {bodies : List (List Byte)} {outs : List ℕ} (h : Matches flags bodies outs) (out inp : ℕ)
    (hmem : HoldsBytes mem (pos + inp) bodies.flatten)
    (hfits : inp + bodies.flatten.length < 2 ^ 32) :
    ∃ depth, ∀ depth' ≥ depth,
      (∀ write, copyNested (copyRecDx mem write depth') pos pad flags (BitVec.ofNat 32 out)
        (BitVec.ofNat 32 inp) = .ok ⟨.success, BitVec.ofNat 32 (ends pad out outs),
          BitVec.ofNat 32 (inp + bodies.flatten.length)⟩) ∧
      nestedBlocks (copyRecDx mem true depth') pos pad flags (BitVec.ofNat 32 out)
        (BitVec.ofNat 32 inp) = places (2 ^ 32) pad out outs := by
  induction h generalizing out inp with
  | nil => exact ⟨0, fun _ _ => ⟨fun _ => rfl, rfl⟩⟩
  | skip _ ih => exact ih out inp hmem hfits
  | @take flags bodies outs body size hbody hsize _ ih =>
    rw [List.flatten_cons, holdsBytes_append] at hmem
    rw [List.flatten_cons, List.length_append] at hfits ⊢
    obtain ⟨depth, hd⟩ := hbody mem (pos + inp) hmem.1
    have hplace : pos + inp + body.length = pos + (inp + body.length) := by omega
    obtain ⟨depth', hrest⟩ :=
      ih (next pad out size) (inp + body.length) (hplace ▸ hmem.2) (by omega)
    refine ⟨max depth depth', fun depth'' hle => ?_⟩
    obtain ⟨hcopy, hblocks⟩ := hrest depth'' (Nat.le_trans (Nat.le_max_right ..) hle)
    have hinp : (BitVec.ofNat 32 inp).toNat = inp := Nat.mod_eq_of_lt (by omega)
    have hfirst : ∀ write, copyRecDx mem write depth'' (pos + (BitVec.ofNat 32 inp).toNat) =
        .ok ⟨.success, BitVec.ofNat 32 size, BitVec.ofNat 32 body.length⟩ := by
      intro write
      rw [hinp]
      exact copyRecDx_ok (Nat.le_trans (Nat.le_max_left ..) hle) (hd write)
    have hsum : BitVec.ofNat 32 inp + BitVec.ofNat 32 body.length =
        BitVec.ofNat 32 (inp + body.length) := (BitVec.ofNat_add ..).symm
    constructor
    · intro write
      rw [copyNested_ok pad flags _ (hfirst write) rfl]
      dsimp only
      rw [next_ofNat, hsum, hcopy write, ends, Nat.add_assoc]
    · rw [nestedBlocks, hfirst true]
      dsimp only
      rw [next_ofNat, hsum, hblocks, places, BitVec.toNat_ofNat, BitVec.toNat_ofNat,
        Nat.mod_eq_of_lt hsize]

section Header

variable {mem : Memory} {pos : ℕ} {cls : SerializedRecords.Class} {flags : List Bool}
  {inp out : ℕ} {bodies : List (List Byte)} {outs : List ℕ}

theorem copyRecDx_front (hf : Front mem pos cls flags (BitVec.ofNat 32 inp) (BitVec.ofNat 32 out))
    (hcls : cls ≠ .other) (hdiv : ∀ write, ¬ Divides write mem pos)
    (h : Matches flags bodies outs) (hmem : HoldsBytes mem (pos + inp) bodies.flatten)
    (hfits : inp + bodies.flatten.length < 2 ^ 32) :
    ∃ depth, ∀ depth' ≥ depth,
      (∀ write, copyRecDx mem write depth' pos = .ok ⟨.success,
        BitVec.ofNat 32 (ends (cls = .r) out outs),
        BitVec.ofNat 32 (inp + bodies.flatten.length)⟩) ∧
      blocks mem depth' pos = places (2 ^ 32) (cls = .r) out outs := by
  obtain ⟨depth, hd⟩ := copyNested_matches (decide (cls = .r)) h out inp hmem hfits
  refine ⟨depth + 1, fun depth' hle => ?_⟩
  obtain ⟨depth', rfl⟩ : ∃ k, depth' = k + 1 := ⟨depth' - 1, by omega⟩
  constructor
  · intro write
    rw [copyRecDx_eq depth' hf.word (by rw [hf.cls]; exact hcls) (hdiv write), hf.cls, hf.flags,
      hf.inp, hf.out]
    exact (hd depth' (Nat.le_of_succ_le_succ hle)).1 write
  · rw [blocks, hf.cls, hf.flags, hf.inp, hf.out]
    exact (hd (depth' + 1) (by omega)).2

theorem decoded_iff (exact : Bool) (size : Word)
    (hf : Front mem 0 cls flags (BitVec.ofNat 32 inp) (BitVec.ofNat 32 out))
    (hcls : cls ≠ .other) (hdiv : ∀ write, ¬ Divides write mem 0)
    (h : Matches flags bodies outs) (hmem : HoldsBytes mem inp bodies.flatten)
    (hfits : inp + bodies.flatten.length < 2 ^ 32) :
    Decoded exact mem size ↔
      size = BitVec.ofNat 32 (inp + bodies.flatten.length) ∧
        (exact → bytesOut mem 0 = filled mem 0) ∧
        ∀ base, LaidOut (headEnd mem 0 base) (places (2 ^ 32) (cls = .r) out outs)
          (ends (cls = .r) out outs % 2 ^ 32) := by
  obtain ⟨depth, hd⟩ := copyRecDx_front hf hcls hdiv h ((Nat.zero_add inp).symm ▸ hmem) hfits
  constructor
  · rintro ⟨⟨depth', out', hd'⟩, hfilled⟩
    obtain ⟨hcopy, hblocks⟩ := hd (max depth depth') (Nat.le_max_left ..)
    obtain ⟨hcopy', hlaid⟩ := hd' (max depth depth') (Nat.le_max_right ..)
    have hsame := Except.ok.inj ((hcopy' true).symm.trans (hcopy true))
    obtain ⟨-, rfl, rfl⟩ := Result.mk.inj hsame
    refine ⟨rfl, hfilled, fun base => ?_⟩
    have hbase := hlaid base
    rwa [hblocks] at hbase
  · rintro ⟨rfl, hfilled, hlaid⟩
    refine ⟨⟨depth, _, fun depth' hle => ⟨(hd depth' hle).1, fun base => ?_⟩⟩, hfilled⟩
    rw [(hd depth' hle).2]
    exact hlaid base

theorem decoded_iff_lt (exact : Bool) (size : Word)
    (hf : Front mem 0 cls flags (BitVec.ofNat 32 inp) (BitVec.ofNat 32 out))
    (hcls : cls ≠ .other) (hdiv : ∀ write, ¬ Divides write mem 0)
    (h : Matches flags bodies outs) (hmem : HoldsBytes mem inp bodies.flatten)
    (hfits : inp + bodies.flatten.length < 2 ^ 32) {stop : ℕ}
    (hstop : ∀ base, headEnd mem 0 base = stop) (hlow : stop ≤ out) (hhigh : out < stop + 8)
    (hmin : 8 ≤ stop) (hfilled : bytesOut mem 0 = filled mem 0) :
    Decoded exact mem size ↔
      size = BitVec.ofNat 32 (inp + bodies.flatten.length) ∧
        ends (cls = .r) out outs < 2 ^ 32 := by
  rw [decoded_iff exact size hf hcls hdiv h hmem hfits]
  refine and_congr_right' ⟨fun hlaid => ?_, fun hlt => ⟨fun _ => hfilled, fun base => ?_⟩⟩
  · have hbase := hlaid.2 0
    rw [hstop] at hbase
    exact (laidOut_places_iff (by omega) _ outs hlow hhigh hmin).mp hbase
  · rw [hstop]
    exact (laidOut_places_iff (by omega) _ outs hlow hhigh hmin).mpr hlt

end Header

/-! ### One descriptor -/

structure Good (t : Tree) (bytes : List Byte) : Prop where
  laid : Laid (copyDxRec t) bytes
  length : bytes.length = recordSize t
  decodes : Decodes bytes (decodedSize t)
  fits : decodedSize t < 2 ^ 32

section Node

variable {gap : ℕ} {slots : List (Option Passes)} {bodies : List (List Byte)} {front : Word}
  {header : List Word → List Byte} {start : ℕ} {t : Tree}

theorem node_size_iff (hheader : ∀ table, table.length = slots.length →
      (header table).length = start)
    (h : List.Forall₂ (LaidSlot gap) slots bodies) :
    (node gap front header slots).size.toNat = (node gap front header slots).written ↔
      front = BitVec.ofNat 32 start ∧ start + bodies.flatten.length < 2 ^ 32 := by
  have hsize : (node gap front header slots).size =
      front + BitVec.ofNat 32 bodies.flatten.length := by
    rw [← slotsSize_of_laid h]
    rfl
  rw [node_written hheader, advance_of_laid h, hsize]
  constructor
  · intro heq
    have hlt := (front + BitVec.ofNat 32 bodies.flatten.length).isLt
    refine ⟨?_, by omega⟩
    have hword : front + BitVec.ofNat 32 bodies.flatten.length =
        BitVec.ofNat 32 start + BitVec.ofNat 32 bodies.flatten.length := by
      apply BitVec.eq_of_toNat_eq
      rw [heq, ← BitVec.ofNat_add, BitVec.toNat_ofNat, Nat.mod_eq_of_lt (by omega)]
    exact (BitVec.add_left_inj _).mp hword
  · rintro ⟨rfl, hlt⟩
    rw [← BitVec.ofNat_add, BitVec.toNat_ofNat, Nat.mod_eq_of_lt hlt]

/-- What is true of the passes of a descriptor whose nested ones are laid comes to its header
being counted, to its fitting, and to what decoding finds in its bytes. -/
theorem kept_node {exact : Bool} (ht : copyDxRec t = node gap front header slots)
    (hheader : ∀ table, table.length = slots.length → (header table).length = start)
    (hpos : 0 < start) (h : List.Forall₂ (LaidSlot gap) slots bodies) {P : Prop}
    (hdecoded : start + bodies.flatten.length < 2 ^ 32 → ∀ mem,
      HoldsBytes mem 0 (header (offsets gap slots start) ++ bodies.flatten) →
      (Decoded exact mem (BitVec.ofNat 32 (start + bodies.flatten.length)) ↔ P)) :
    Kept exact t ↔
      front = BitVec.ofNat 32 start ∧ start + bodies.flatten.length < 2 ^ 32 ∧ P := by
  have htable := hheader _ (offsets_length gap slots start)
  have hlength : (header (offsets gap slots start) ++ bodies.flatten).length =
      start + bodies.flatten.length := by rw [List.length_append, htable]
  have hsize : (node gap front header slots).size.toNat = _ ↔ front = _ ∧ _ :=
    node_size_iff hheader h
  rw [← ht] at hsize
  constructor
  · intro hkept
    obtain ⟨hfront, hlt⟩ := hsize.mp hkept.size
    have hlaid := laid_node hheader hfront h hlt
    rw [← ht] at hlaid
    have heq : (copyDxRec t).size = BitVec.ofNat 32 (start + bodies.flatten.length) := by
      rw [← hlength, ← hlaid.size, BitVec.ofNat_toNat, BitVec.setWidth_eq]
    have hne : (copyDxRec t).size ≠ 0 := by
      intro hzero
      have hval : (0 : Word).toNat = start + bodies.flatten.length := by
        rw [← hlength, ← hlaid.size, hzero]
      have hnat : (0 : Word).toNat = 0 := rfl
      omega
    have hblank : Blank (fun _ => 0) 0 (copyDxRec t).size.toNat := fun _ _ _ => rfl
    have hmem : HoldsBytes ((copyDxRec t).write 0 fun _ => 0) 0 _ :=
      hlaid.writes.holds (hlaid.size ▸ hblank)
    have hdec := hkept.decoded hne _ hblank
    rw [heq] at hdec
    exact ⟨hfront, hlt, (hdecoded hlt _ hmem).mp hdec⟩
  · rintro ⟨hfront, hlt, hp⟩
    have hlaid := laid_node hheader hfront h hlt
    rw [← ht] at hlaid
    have heq : (copyDxRec t).size = BitVec.ofNat 32 (start + bodies.flatten.length) := by
      rw [← hlength, ← hlaid.size, BitVec.ofNat_toNat, BitVec.setWidth_eq]
    constructor
    · exact hlaid.status
    · exact hsize.mpr ⟨hfront, hlt⟩
    · intro mem i hi
      rw [hlaid.size] at hi
      exact hlaid.writes.outside (.inr (by omega))
    · intro _ mem hblank
      rw [hlaid.size] at hblank
      rw [heq]
      exact (hdecoded hlt _ (hlaid.writes.holds hblank)).mpr hp

theorem good_node (ht : copyDxRec t = node gap front header slots)
    (hheader : ∀ table, table.length = slots.length → (header table).length = start)
    (hfront : front = BitVec.ofNat 32 start) (h : List.Forall₂ (LaidSlot gap) slots bodies)
    (hsize : start + bodies.flatten.length = recordSize t) (hrecord : recordSize t < 2 ^ 32)
    (hdecoded : decodedSize t < 2 ^ 32) (hdecodes : ∀ mem pos,
      HoldsBytes mem pos (header (offsets gap slots start) ++ bodies.flatten) →
      ∃ depth, ∀ write, copyRecDx mem write depth pos =
        .ok ⟨.success, BitVec.ofNat 32 (decodedSize t), BitVec.ofNat 32 (recordSize t)⟩) :
    ∃ bytes, Good t bytes := by
  have hlength : (header (offsets gap slots start) ++ bodies.flatten).length = recordSize t := by
    rw [List.length_append, hheader _ (offsets_length gap slots start), hsize]
  refine ⟨_, ?_, hlength, ?_, hdecoded⟩
  · rw [ht]
    exact laid_node hheader hfront h (hsize ▸ hrecord)
  · intro mem pos hmem
    rw [hlength]
    exact hdecodes mem pos hmem

end Node

/-! ### The nested descriptors -/

theorem copyAll_length (ts : List Tree) : (copyAll ts).length = ts.length := by
  induction ts with
  | nil => rfl
  | cons t ts ih => rw [copyAll, List.length_cons, List.length_cons, ih]

theorem decodes_null : Decodes (List.replicate 4 0) 16 := by
  intro mem pos hmem
  have hzero : HoldsBytes mem pos (wordBytes 0 ++ []) := hmem
  exact ⟨1, fun write => copyRecDx_empty write 0 (readWord_of_holds hzero).1⟩

/-- What stands for nested descriptors that are good. In an array of pointers there is something
for the null pointer, too. -/
theorem exists_bodies (gaps : Bool) {ts : List Tree}
    (h : ∀ t ∈ ts, t.isNull = false → ∃ bytes, Good t bytes) :
    ∃ bodies, List.Forall₂ (LaidSlot (if gaps then 4 else 0)) (copyAll ts) bodies ∧
      bodies.flatten.length = recordSizes (if gaps then 4 else 0) ts ∧
      Matches ((copyAll ts).map fun s => gaps || s.isSome) bodies (decodedSizes gaps ts) := by
  induction ts with
  | nil => exact ⟨[], .nil, rfl, .nil⟩
  | cons t ts ih =>
    obtain ⟨bodies, hslots, hlength, hmatch⟩ := ih fun u hu => h u (List.mem_cons_of_mem t hu)
    rw [copyAll, slot, recordSizes, decodedSizes, List.map_cons]
    cases hnull : t.isNull with
    | true =>
      refine ⟨List.replicate (if gaps then 4 else 0) 0 :: bodies, .cons rfl hslots, ?_, ?_⟩
      · rw [List.flatten_cons, List.length_append, List.length_replicate, hlength]
        rfl
      · cases gaps with
        | true =>
          have hsixteen : decodedSize t = 16 := by
            cases t with
            | null => rw [decodedSize]
            | _ => cases hnull
          simp only [Bool.true_or, Bool.not_true, Bool.and_false, hsixteen]
          exact .take decodes_null (by omega) hmatch
        | false => exact .skip hmatch
    | false =>
      obtain ⟨bytes, hgood⟩ := h t List.mem_cons_self hnull
      refine ⟨bytes :: bodies, .cons hgood.laid hslots, ?_, ?_⟩
      · rw [List.flatten_cons, List.length_append, hgood.length, hlength]
        rfl
      · simp only [Bool.false_eq_true, if_false, Option.isSome_some, Bool.or_true,
          Bool.false_and]
        exact .take hgood.decodes hgood.fits hmatch

theorem offsets_ne_zero {slots : List (Option Passes)} {bodies : List (List Byte)} {out : ℕ}
    (h : List.Forall₂ (LaidSlot 0) slots bodies) (hpos : 0 < out)
    (hfits : out + bodies.flatten.length < 2 ^ 32) :
    (offsets 0 slots out).map (fun w => decide (w ≠ 0)) = slots.map Option.isSome := by
  induction h generalizing out with
  | nil => rfl
  | @cons slot body slots bodies hslot _ ih =>
    rw [List.flatten_cons, List.length_append] at hfits
    cases slot with
    | none =>
      rw [offsets, List.map_cons, List.map_cons, ih (by omega) (by omega)]
      rfl
    | some p =>
      have hne : BitVec.ofNat 32 out ≠ 0 := by
        intro hzero
        have hval := congrArg BitVec.toNat hzero
        rw [BitVec.toNat_ofNat, Nat.mod_eq_of_lt (by omega)] at hval
        exact Nat.ne_of_gt hpos hval
      rw [offsets, List.map_cons, List.map_cons, hslot.size, ih (by omega) (by omega),
        decide_eq_true hne]
      rfl

end MdsPlus.RecordCounts
