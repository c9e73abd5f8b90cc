import MdsPlus.Segments

/-!
A segmented node by its contents: for each segment its rows and timestamps as they
were put, or the record it was given or compressed to. What a segment reads is said
here without offsets, pages or storage.
-/

namespace MdsPlus.SegmentNode

open BitMemory ByteFile SegmentRecords Segments

variable {V : Type}

/-- What all segments of a node share: the type and everything about a row. -/
structure Shape where
  dtype : Byte
  length : ℕ
  inner : List ℕ

def Shape.rowBytes (shape : Shape) : ℕ := shape.length * shape.inner.prod

inductive Data (V : Type)
  | rows (bytes : List Byte)
  | record (d : Dsc V)

inductive Dimension (V : Type)
  | none
  | stamps (l : List (BitVec 64))
  | record (d : Dsc V)

structure Limit (V : Type) where
  value : BitVec 64
  record : Option (Dsc V)

/-- `filled` counts the rows filled when the next segment began. -/
structure Segment (V : Type) where
  rows : ℕ
  filled : ℕ
  data : Data V
  dim : Dimension V
  start : Limit V
  stop : Limit V

structure Node (V : Type) where
  shape : Shape
  count : ℕ
  seg : ℕ → Segment V
  nextRow : ℕ

def Segment.closed (seg : Segment V) : ℕ :=
  match seg.dim with
  | .stamps _ => seg.filled
  | _ => seg.rows

def Shape.array (shape : Shape) (filled : ℕ) (bytes : List Byte) : ArrayDsc :=
  ⟨shape.dtype, shape.length, shape.inner ++ [filled], bytes.take (filled * shape.rowBytes)⟩

def Segment.readData (seg : Segment V) (shape : Shape) (filled : ℕ) : Dsc V :=
  match seg.data with
  | .rows bytes => .array (shape.array filled bytes)
  | .record d => d

def Node.filled (node : Node V) (i : ℕ) : ℕ :=
  if i + 1 = node.count then node.nextRow else (node.seg i).closed

def Node.readData (node : Node V) (i : ℕ) : Dsc V :=
  (node.seg i).readData node.shape (node.filled i)

/-- The dimension of a segment: timestamps of the filled rows, or its record; the data
stands for it when there is none. -/
def Node.readDim (node : Node V) (i : ℕ) : Dsc V :=
  match (node.seg i).dim with
  | .none => node.readData i
  | .stamps l => .array (stampArray (l.take (node.filled i)))
  | .record d => d

def Node.empty : Node V :=
  ⟨⟨0, 0, []⟩, 0, fun _ => ⟨0, 0, .rows [], .none, ⟨-1, none⟩, ⟨-1, none⟩⟩, 0⟩

def Node.last (node : Node V) : Segment V := node.seg (node.count - 1)

def Node.replace (node : Node V) (i : ℕ) (seg : Segment V) : Node V :=
  { node with seg := Function.update node.seg i seg }

def Node.fill (node : Node V) (n : ℕ) : Node V :=
  node.replace (node.count - 1) { node.last with filled := n }

def Node.close (node : Node V) : Node V :=
  node.replace (node.count - 1) { node.last with filled := node.nextRow }

def Segment.pack (seg : Segment V) (shape : Shape) : Segment V :=
  let data : Data V := .record (seg.readData shape seg.closed)
  match seg.dim with
  | .stamps l =>
      let l := l.take seg.closed
      { seg with
        data
        dim := .record (.array (stampArray l))
        start := { seg.start with value := l.getD 0 0 }
        stop := { seg.stop with value := l.getD (l.length - 1) 0 } }
  | _ => { seg with data }

/-- The segment before is compressed when it is in the same page and of the same size. -/
def Node.compresses (node : Node V) (compress : ℤ) (a : ArrayDsc) : Prop :=
  0 < node.count % SEGMENTS_PER_INDEX ∧
    node.last.rows * node.shape.rowBytes = a.bytes.length ∧ compress ≠ -1

instance (node : Node V) (compress : ℤ) (a : ArrayDsc) : Decidable (node.compresses compress a) :=
  inferInstanceAs (Decidable (_ ∧ _ ∧ _))

def Node.packLast (node : Node V) (compress : ℤ) : Initial V → Node V
  | .array a =>
      if node.compresses compress a then
        node.replace (node.count - 1) (node.last.pack node.shape)
      else node
  | .opaqueRecord _ => node

def shapeOf : Initial V → Shape
  | .array a => ⟨a.dtype, a.length, a.dims.dropLast⟩
  | .opaqueRecord _ => ⟨DTYPE_OPAQUE, 0, []⟩

/-- A segment with its data only. -/
def bare : Initial V → Segment V
  | .array a => ⟨a.lastDim, 0, .rows a.bytes, .none, ⟨-1, none⟩, ⟨-1, none⟩⟩
  | .opaqueRecord v => ⟨0, 0, .record (.opaqueRecord v), .none, ⟨-1, none⟩, ⟨-1, none⟩⟩

def limitOf (limit : Option (Dsc V)) (old : Limit V) : Limit V :=
  match limit with
  | none => old
  | some d =>
      match quadwordOf d with
      | some q => ⟨q, none⟩
      | none => ⟨-1, some d⟩

def Segment.setDim (seg : Segment V) (start stop dimension : Option (Dsc V)) : Segment V :=
  { seg with
    start := limitOf start seg.start
    stop := limitOf stop seg.stop
    dim :=
      match dimension with
      | none => seg.dim
      | some d => .record d }

def Segment.setStamps (seg : Segment V) (given : List (BitVec 64)) (filled : ℕ) : Segment V :=
  { seg with
    start := { seg.start with value := if 0 < filled then given.getD 0 0 else 0 }
    stop := { seg.stop with value := if 0 < filled then given.getD (filled - 1) 0 else 0 }
    dim := .stamps (given.take filled ++ List.replicate (seg.rows - filled) 0) }

def Node.push (node : Node V) (init : Initial V) (seg : Segment V) (filled : ℤ) : Node V where
  shape := shapeOf init
  count := node.count + 1
  seg := Function.update node.seg node.count seg
  nextRow := filled.toNat

def Node.makeSegment (node : Node V) (compress : ℤ) (start stop dimension : Option (Dsc V))
    (init : Initial V) (rowsFilled : ℤ) : Node V :=
  (node.packLast compress init).push init ((bare init).setDim start stop dimension) rowsFilled

def Node.makeTimestampedSegment (node : Node V) (compress : ℤ)
    (timestamps : Option (List (BitVec 64))) (init : Initial V) (rowsFilled : ℤ) : Node V :=
  (node.packLast compress init).push init
    ((bare init).setStamps (timestamps.getD []) rowsFilled.toNat) rowsFilled

def Node.putData (node : Node V) (start : ℕ) (bytes : List Byte) : Node V :=
  node.replace (node.count - 1)
    { node.last with
      data :=
        match node.last.data with
        | .rows old => .rows (overlay old (start * node.shape.rowBytes) bytes)
        | .record d => .record d }

def overlayStamps (l : List (BitVec 64)) (k : ℕ) (new : List (BitVec 64)) : List (BitVec 64) :=
  l.take k ++ new ++ l.drop (k + new.length)

def Node.putStamps (node : Node V) (start : ℕ) (stamps : List (BitVec 64)) : Node V :=
  node.replace (node.count - 1)
    { node.last with
      dim :=
        match node.last.dim with
        | .stamps l => .stamps (overlayStamps l start stamps)
        | dim => dim }

def Node.putSegment (node : Node V) (startIdx : ℤ) (data : ArrayDsc) : Node V :=
  let start := if startIdx = -1 then node.nextRow else startIdx.toNat
  let rows := data.bytes.length / node.shape.rowBytes
  { node.putData start data.bytes with
    nextRow := if start = node.nextRow then start + rows else node.nextRow }

def Node.putTimestampedSegment (node : Node V) (timestamps : List (BitVec 64))
    (data : ArrayDsc) : Node V :=
  let rows := data.bytes.length / node.shape.rowBytes
  { (node.putData node.nextRow data.bytes).putStamps node.nextRow (timestamps.take rows) with
    nextRow := node.nextRow + rows }

def Node.updateSegment (node : Node V) (start stop dimension : Option (Dsc V)) (i : ℕ) : Node V :=
  node.replace i ((node.seg i).setDim start stop dimension)

def Node.setRowsFilled (node : Node V) (rowsFilled : ℤ) : Node V :=
  { node with nextRow := if rowsFilled < 0 then node.last.rows else rowsFilled.toNat }

end MdsPlus.SegmentNode
