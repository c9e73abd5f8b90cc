import MdsPlus.MessageStream

/-!
The argument table of a server connection. Each message of a request fills the slot of its
index; the last argument has the request evaluated with the table as it stands and empties
it. A message with another id empties the table first.
-/

namespace MdsPlus.ArgumentTable

open BitMemory MessageHeaders MessageBodies MessageStream

inductive DscClass
  | s
  | a
  | other
deriving DecidableEq

structure Dsc where
  cls : DscClass
  dtype : BitVec 8
  length : BitVec 16
  dims : List (BitVec 32)
  arsize : BitVec 32
  bytes : List Byte
deriving DecidableEq

inductive Kind
  | eventAst
  | eventCan
  | command
deriving DecidableEq

/-- What the server takes from elsewhere: `MdsSerializeDscIn`, which leaves the slot null when
it fails; the conversions for clients that are neither IEEE nor Java, by client, element type,
number of elements and the element sizes of message and descriptor; the memory behind a message;
and which requests are those for events. -/
structure Host where
  serializeDscIn : List Byte → Except Status Dsc
  convert : BitVec 8 → BitVec 8 → ℕ → BitVec 16 → BitVec 16 → List Byte → List Byte
  beyond : List Byte
  kind : Dsc → Kind

def dtypeT : BitVec 8 := 14
def dtypeFS : BitVec 8 := 52
def dtypeFT : BitVec 8 := 53
def dtypeFSC : BitVec 8 := 54
def dtypeFTC : BitVec 8 := 55

def Serial (h : MsgHdr) : Prop := h.dtype = dtypeSerial

instance (h : MsgHdr) : Decidable (Serial h) := inferInstanceAs (Decidable (_ = _))

/-- The element sizes of the types below `DTYPE_CSTRING`. -/
def lengths : List (BitVec 16) := [0, 0, 1, 2, 4, 8, 1, 2, 4, 8, 4, 8, 8, 16, 0]

def elementLength (h : MsgHdr) : BitVec 16 :=
  if h.dtype < dtypeCstring then lengths.getD h.dtype.toNat 0 else h.length

/-- The descriptor that is made for a message in an empty slot, before the data is copied. -/
def allocate (h : MsgHdr) : Dsc :=
  if h.ndims = 0 then ⟨.s, h.dtype, elementLength h, [], 0, []⟩
  else
    ⟨.a, h.dtype, elementLength h, h.dims.toList.take h.ndims.toNat,
      (elementLength h).setWidth 32 * elements h, []⟩

/-- `dbytes`. -/
def dataSize (d : Dsc) : BitVec 32 := if d.cls = .s then d.length.setWidth 32 else d.arsize

def renamed (dtype : BitVec 8) : BitVec 8 :=
  if dtype = dtypeFloat then dtypeFS
  else if dtype = dtypeComplex then dtypeFSC
  else if dtype = dtypeDouble then dtypeFT
  else if dtype = dtypeComplexDouble then dtypeFTC
  else dtype

/-- The data of messages of these clients is copied as it is. -/
def Copies (client : BitVec 8) : Prop := cType client = ieeeClient ∨ cType client = javaClient

instance (client : BitVec 8) : Decidable (Copies client) := inferInstanceAs (Decidable (_ ∨ _))

/-- Copy the data of a message into a descriptor. A descriptor of another class than S and A has
another layout, and a negative size is no size. -/
def fill (host : Host) (d : Dsc) (m : Message) : Except Stop Dsc :=
  if d.cls = .other ∨ (dataSize d).msb then .error .overrun
  else
    let dbytes := (dataSize d).toNat
    let num := if 1 < d.length then dbytes / d.length.toNat else dbytes
    let bytes :=
      if Copies m.h.clientType then (m.bytes ++ host.beyond).take dbytes
      else host.convert (cType m.h.clientType) d.dtype num m.h.length d.length
        (m.bytes ++ host.beyond)
    .ok { d with bytes, dtype := renamed d.dtype }

def marked (h : MsgHdr) (d : Dsc) : Dsc :=
  if h.descriptorIdx = 0 ∧ d.dtype = dtypeT then { d with dtype := dtypeSerial } else d

def store (host : Host) (slot : Option Dsc) (m : Message) : Except Stop (Option Dsc × Bool) :=
  if Serial m.h then
    match host.serializeDscIn m.bytes with
    | .error _ => .ok (none, false)
    | .ok d => .ok (some (marked m.h d), true)
  else (fill host (slot.getD (allocate m.h)) m).map fun d => (some d, true)

structure Connection where
  messageId : BitVec 8
  clientType : BitVec 8
  nargs : BitVec 8
  table : BitVec 8 → Option Dsc

def newConnection : Connection := ⟨0, 0, 0, fun _ => none⟩

def freeDescriptors (c : Connection) : Connection := { c with table := fun _ => none }

inductive Event
  | evaluated (nargs : BitVec 8) (table : BitVec 8 → Option Dsc)
  | answered

def eventAnswer (c : Connection) : List Event :=
  if cType c.clientType = javaClient then [] else [.answered]

/-- The name and the data of a request for an event can be read as `execute_message` reads them,
which checks neither. The data is an array with room for the number of the event. -/
def astReady (java : Bool) : Option Dsc → Option Dsc → Bool
  | some name, some info =>
      name.length.toNat ≤ name.bytes.length &&
        if java then !info.bytes.isEmpty
        else info.cls = .a && info.arsize.toNat ≤ info.bytes.length && 16 ≤ info.arsize.toNat
  | _, _ => false

/-- The number of the event that is cancelled can be read. -/
def canReady (java : Bool) : Option Dsc → Bool
  | some d => if java then !d.bytes.isEmpty else 4 ≤ d.bytes.length
  | none => false

/-- A request whose first argument is there can be evaluated without leaving its memory. -/
def ready (host : Host) (c : Connection) (d : Dsc) : Bool :=
  match host.kind d with
  | .eventAst => astReady (cType c.clientType = javaClient) (c.table 1) (c.table 2)
  | .eventCan => canReady (cType c.clientType = javaClient) (c.table 1)
  | .command => true

def answersTo (host : Host) (c : Connection) (d : Dsc) : List Event :=
  match host.kind d with
  | .command => [.answered]
  | _ => eventAnswer c

/-- `execute_message` up to the emptying of the table: what is evaluated and answered. -/
def execute (host : Host) (c : Connection) : Except Stop (List Event) :=
  match c.table 0 with
  | none => .ok [.answered]
  | some d =>
      if ready host c d then .ok (.evaluated c.nargs c.table :: answersTo host c d)
      else .error .overrun

def executeMessage (host : Host) (c : Connection) : Except Stop (Connection × List Event) :=
  (execute host c).map fun events => (freeDescriptors c, events)

def Fresh (c : Connection) (m : Message) : Prop := c.messageId ≠ m.h.messageId

instance (c : Connection) (m : Message) : Decidable (Fresh c m) :=
  inferInstanceAs (Decidable (_ ≠ _))

/-- A request of so many arguments is refused. -/
def TooMany (m : Message) : Prop := 255 ≤ m.h.nargs

instance (m : Message) : Decidable (TooMany m) := inferInstanceAs (Decidable (_ ≤ _))

def IsLast (h : MsgHdr) : Prop := h.descriptorIdx.toNat + 1 = h.nargs.toNat

instance (h : MsgHdr) : Decidable (IsLast h) := inferInstanceAs (Decidable (_ = _))

def begun (c : Connection) (m : Message) : Connection :=
  if Fresh c m then
    { freeDescriptors c with messageId := m.h.messageId, nargs := m.h.nargs }
  else c

def filled (c : Connection) (m : Message) (slot : Option Dsc) : Connection :=
  { begun c m with
    clientType := m.h.clientType
    table := Function.update (begun c m).table m.h.descriptorIdx slot }

def standardCommand (host : Host) (c : Connection) (m : Message) :
    Except Stop (Connection × List Event) :=
  if Fresh c m ∧ TooMany m then .ok (freeDescriptors c, [.answered])
  else
    match store host ((begun c m).table m.h.descriptorIdx) m with
    | .error stop => .error stop
    | .ok (slot, decoded) =>
        if ¬ decoded then .ok (filled c m slot, [.answered])
        else if IsLast m.h then executeMessage host (filled c m slot)
        else .ok (filled c m slot, [])

/-- `mdsio_command`: every operation, and a number that is none, sends one answer. -/
def mdsioCommand (c : Connection) (m : Message) : Connection × List Event :=
  ({ c with clientType := m.h.clientType }, [.answered])

/-- The message is an argument, not an operation on a file. -/
def IsArgument (h : MsgHdr) : Prop := h.descriptorIdx < h.nargs

instance (h : MsgHdr) : Decidable (IsArgument h) := inferInstanceAs (Decidable (_ < _))

def processMessage (host : Host) (c : Connection) (m : Message) :
    Except Stop (Connection × List Event) :=
  if IsArgument m.h then standardCommand host c m else .ok (mdsioCommand c m)

/-! ### What a message does -/

def Decodes (host : Host) (m : Message) : Prop :=
  Serial m.h → (host.serializeDscIn m.bytes).isOk

instance (host : Host) (m : Message) : Decidable (Decodes host m) :=
  inferInstanceAs (Decidable (_ → _))

/-- An argument is refused, kept, or, the last one, leads to an evaluation. -/
inductive Processed (host : Host) (c : Connection) (m : Message) :
    Connection × List Event → Prop
  | operation : ¬ IsArgument m.h → Processed host c m (mdsioCommand c m)
  | refused : IsArgument m.h → Fresh c m → TooMany m →
      Processed host c m (freeDescriptors c, [.answered])
  | failed : IsArgument m.h → ¬ (Fresh c m ∧ TooMany m) → ¬ Decodes host m →
      store host ((begun c m).table m.h.descriptorIdx) m = .ok (none, false) →
      Processed host c m (filled c m none, [.answered])
  | kept {slot : Option Dsc} : IsArgument m.h → ¬ (Fresh c m ∧ TooMany m) → Decodes host m →
      ¬ IsLast m.h →
      store host ((begun c m).table m.h.descriptorIdx) m = .ok (slot, true) →
      Processed host c m (filled c m slot, [])
  | executed {slot : Option Dsc} {events : List Event} : IsArgument m.h →
      ¬ (Fresh c m ∧ TooMany m) → Decodes host m → IsLast m.h →
      store host ((begun c m).table m.h.descriptorIdx) m = .ok (slot, true) →
      execute host (filled c m slot) = .ok events →
      Processed host c m (freeDescriptors (filled c m slot), events)

theorem store_decodes {host : Host} {slot slot' : Option Dsc} {m : Message} {decoded : Bool}
    (h : store host slot m = .ok (slot', decoded)) :
    decoded = true ∧ Decodes host m ∨ decoded = false ∧ slot' = none ∧ ¬ Decodes host m := by
  unfold store at h
  by_cases hserial : Serial m.h
  · rw [if_pos hserial] at h
    unfold Decodes
    cases hin : host.serializeDscIn m.bytes with
    | error status =>
      rw [hin] at h
      cases h
      exact .inr ⟨rfl, rfl, fun hok => Bool.noConfusion (hok hserial)⟩
    | ok d =>
      rw [hin] at h
      cases h
      exact .inl ⟨rfl, fun _ => rfl⟩
  · rw [if_neg hserial] at h
    have hdec : Decodes host m := fun hs => absurd hs hserial
    cases hfill : fill host (slot.getD (allocate m.h)) m with
    | error stop =>
      rw [hfill] at h
      cases h
    | ok d =>
      rw [hfill] at h
      cases h
      exact .inl ⟨rfl, hdec⟩

theorem processMessage_processed {host : Host} {c : Connection} {m : Message}
    {r : Connection × List Event} (h : processMessage host c m = .ok r) :
    Processed host c m r := by
  unfold processMessage at h
  by_cases harg : IsArgument m.h
  · rw [if_pos harg] at h
    unfold standardCommand at h
    by_cases hrefuse : Fresh c m ∧ TooMany m
    · rw [if_pos hrefuse] at h
      cases h
      exact .refused harg hrefuse.1 hrefuse.2
    · rw [if_neg hrefuse] at h
      cases hstore : store host ((begun c m).table m.h.descriptorIdx) m with
      | error stop =>
        rw [hstore] at h
        cases h
      | ok p =>
        obtain ⟨slot, decoded⟩ := p
        rw [hstore] at h
        obtain ⟨rfl, hdec⟩ | ⟨rfl, rfl, hdec⟩ := store_decodes hstore
        · simp only [not_true_eq_false, if_false] at h
          by_cases hlast : IsLast m.h
          · rw [if_pos hlast] at h
            unfold executeMessage at h
            cases hexec : execute host (filled c m slot) with
            | error stop =>
              rw [hexec] at h
              cases h
            | ok events =>
              rw [hexec] at h
              cases h
              exact .executed harg hrefuse hdec hlast hstore hexec
          · rw [if_neg hlast] at h
            cases h
            exact .kept harg hrefuse hdec hlast hstore
        · simp only [Bool.false_eq_true, not_false_eq_true, if_true] at h
          cases h
          exact .failed harg hrefuse hdec hstore
  · rw [if_neg harg] at h
    cases h
    exact .operation harg

theorem execute_evaluated {host : Host} {c : Connection} {events : List Event} {nargs : BitVec 8}
    {table : BitVec 8 → Option Dsc} (h : execute host c = .ok events)
    (hev : .evaluated nargs table ∈ events) :
    nargs = c.nargs ∧ table = c.table ∧ (c.table 0).isSome := by
  unfold execute at h
  cases h0 : c.table 0 with
  | none =>
    rw [h0] at h
    cases h
    cases List.mem_singleton.mp hev
  | some d =>
    have hanswer : Event.evaluated nargs table ∉ answersTo host c d := by
      unfold answersTo eventAnswer
      cases host.kind d with
      | eventAst => split <;> simp
      | eventCan => split <;> simp
      | command => simp
    rw [h0] at h
    simp only at h
    split at h
    · cases h
      cases (List.mem_cons.mp hev).resolve_right hanswer
      exact ⟨rfl, rfl, rfl⟩
    · cases h

end MdsPlus.ArgumentTable
