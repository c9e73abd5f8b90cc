import MdsPlus.MessageBodies

/-!
Receiving a message from the byte stream of a connection. The transport answers each
request with some of the bytes that are asked for, with the end of the stream, or with
an error; a message is a header and the body whose length the header gives. A receive
that stops early leaves the bytes it has taken behind it.
-/

namespace MdsPlus.MessageStream

open BitMemory MessageHeaders MessageBodies

abbrev Status := Int

def mdsplusSuccess : Status := 65545
def mdsplusError : Status := 65554
def mdsplusFatal : Status := 65572
def tdiTimeout : Status := 265519364
/-- Not a status, though its low bit is set. -/
def ssInternal : Status := -1

def isOk (status : Status) : Bool := status % 2 = 1

inductive Errno
  | etimedout
  | eintr
  | einval
  | other
deriving DecidableEq

/-- What `recv` or `recv_to` of the transport answers: `bytes k` are `k + 1` bytes, or all that
are asked for; no bytes come at the end of the stream and from a socket that times out. -/
inductive Recv
  | bytes (k : ℕ)
  | empty
  | failed (errno : Errno)
deriving DecidableEq

def failure : Errno → Status
  | .etimedout => tdiTimeout
  | .eintr => mdsplusError
  | .einval => ssInternal
  | .other => ssInternal

/-- `get_bytes_to`: the status, the number of bytes taken and the answers left. Nothing is
returned while the transport has not answered. -/
def getBytesTo : ℕ → List Recv → Option (Status × ℕ × List Recv)
  | 0, answers => some (mdsplusSuccess, 0, answers)
  | _ + 1, [] => none
  | n + 1, .bytes k :: answers =>
      (getBytesTo (n + 1 - min (k + 1) (n + 1)) answers).map
        fun r => (r.1, min (k + 1) (n + 1) + r.2.1, r.2.2)
  | _ + 1, .empty :: answers => some (ssInternal, 0, answers)
  | _ + 1, .failed errno :: answers => some (failure errno, 0, answers)

/-- The transport has only bytes to give, in chunks of any size. -/
def Chunks (answers : List Recv) : Prop := ∀ a ∈ answers, ∃ k, a = .bytes k

theorem getBytesTo_chunks {n : ℕ} {answers : List Recv} (hc : Chunks answers)
    (hn : n ≤ answers.length) :
    ∃ rest, getBytesTo n answers = some (mdsplusSuccess, n, rest) ∧ Chunks rest ∧
      answers.length ≤ rest.length + n := by
  induction answers generalizing n with
  | nil =>
    obtain rfl : n = 0 := by simpa using hn
    exact ⟨[], rfl, hc, by simp⟩
  | cons a answers ih =>
    cases n with
    | zero => exact ⟨a :: answers, rfl, hc, by simp⟩
    | succ n =>
      obtain ⟨k, rfl⟩ := hc a List.mem_cons_self
      have hleft : n + 1 - min (k + 1) (n + 1) ≤ answers.length := by
        simp only [List.length_cons] at hn
        omega
      obtain ⟨rest, hrest, hchunks, hlen⟩ :=
        ih (fun b hb => hc b (List.mem_cons_of_mem _ hb)) hleft
      refine ⟨rest, ?_, hchunks, ?_⟩
      · rw [getBytesTo, hrest]
        simp only [Option.map_some, Option.some.injEq, Prod.mk.injEq, true_and, and_true]
        omega
      · simp only [List.length_cons]
        omega

def window (stream : ℕ → Byte) (pos n : ℕ) : List Byte :=
  (List.range n).map fun i => stream (pos + i)

@[simp] theorem window_length (stream : ℕ → Byte) (pos n : ℕ) :
    (window stream pos n).length = n := by
  simp [window]

theorem window_add (stream : ℕ → Byte) (pos m n : ℕ) :
    window stream pos (m + n) = window stream pos m ++ window stream (pos + m) n := by
  unfold window
  rw [List.range_add, List.map_append, List.map_map]
  simp only [Function.comp_def, Nat.add_assoc]

theorem window_append {stream : ℕ → Byte} {pos : ℕ} {a b : List Byte}
    (h : window stream pos (a ++ b).length = a ++ b) :
    window stream pos a.length = a ∧ window stream (pos + a.length) b.length = b := by
  rw [List.length_append, window_add] at h
  exact List.append_inj h (window_length _ _ _)

/-- A host that receives: its byte order, zlib, what fresh memory holds and what stands
behind the bytes of a message. -/
structure Receiver where
  big : Big
  uncompress : List Byte → ℕ → Option (List Byte)
  fresh : ℕ → Byte
  beyond : List Byte

/-- Why a call does not return: the transport has not answered, memory outside a message is
touched, or a division by zero. -/
inductive Stop
  | waiting
  | overrun
  | trap
deriving DecidableEq

structure Received where
  status : Status
  msg : Option Message
  taken : ℕ
  rest : List Recv

/-- The inflated message: the prefix is read in the order of the host, the length of the
body is taken from it before it is flipped. -/
def decompress (r : Receiver) (msg : Message) : Option (Status × Message) :=
  let memory := msg.bytes ++ r.beyond
  let sent := readInt r.big (memory.take 4)
  let dlen := sent.setWidth 64 - 48
  let msglen := if endian msg.h.clientType ≠ r.big then flip32 sent else sent
  match r.uncompress ((memory.drop 4).take (dlen - 4).toNat) dlen.toNat with
  | none => if msglen.toNat < headerSize then none else some (0, msg)
  | some bytes =>
      if msglen.toNat < headerSize + bytes.length then none
      else
        let rest := msglen.toNat - headerSize - bytes.length
        some (1, ⟨{ msg.h with msglen := msglen }, bytes ++ (List.range rest).map r.fresh⟩)

def inflated (r : Receiver) (status : Status) (msg : Message) : Option (Status × Message) :=
  if isOk status ∧ isCompressed msg.h.clientType then decompress r msg else some (status, msg)

/-- The body in the order of the host, after a good status. -/
def oriented (r : Receiver) (status : Status) (msg : Message) : Option (Status × Message) :=
  if isOk status ∧ endian msg.h.clientType ≠ r.big then (flipData msg).map (status, ·)
  else some (status, msg)

/-- What becomes of a message when its bytes have been received. -/
def unpack (r : Receiver) (status : Status) (msg : Message) : Option (Status × Message) :=
  (inflated r status msg).bind fun p => oriented r p.1 p.2

def badHeader (h : MsgHdr) : Bool :=
  h.msglen.toNat < headerSize || crayClient < cType h.clientType || 8#8 < h.ndims

def headerAt (host : Big) (stream : ℕ → Byte) (pos : ℕ) : MsgHdr :=
  let header := readHeader host (window stream pos headerSize)
  if endian header.clientType ≠ host then flipHeader header else header

def bodyLength (h : MsgHdr) : ℕ := h.msglen.toNat - headerSize

/-- `GetMdsMsgTOC` on a stream of which the first `pos` bytes are taken. -/
def getMdsMsgTOC (r : Receiver) (stream : ℕ → Byte) (pos : ℕ) (answers : List Recv) :
    Except Stop Received :=
  match getBytesTo headerSize answers with
  | none => .error .waiting
  | some (status, got, answers) =>
    if ¬ isOk status ∨ status = ssInternal then .ok ⟨status, none, got, answers⟩
    else
      let header := headerAt r.big stream pos
      if badHeader header then .ok ⟨ssInternal, none, got, answers⟩
      else
        match getBytesTo (bodyLength header) answers with
        | none => .error .waiting
        | some (status, body, answers) =>
          let rest := bodyLength header - body
          let bytes := window stream (pos + got) body ++ (List.range rest).map r.fresh
          match unpack r status ⟨header, bytes⟩ with
          | none => .error .overrun
          | some (status, msg) => .ok ⟨status, some msg, got + body, answers⟩

end MdsPlus.MessageStream
