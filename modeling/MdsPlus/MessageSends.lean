import MdsPlus.MessageTransfer

/-!
Sending the bytes of a message. The transport takes some of the bytes at each call, takes none or
is interrupted, or fails; a call that takes none is repeated up to ten times in a row. The callers
turn what comes of it into their own statuses.
-/

namespace MdsPlus.MessageSends

open BitMemory MessageHeaders MessageStream MessageTransfer

/-- What `send` of the transport does: it takes `n` bytes, or all that it is given, it is
interrupted, or it fails with another error. -/
inductive Send
  | takes (n : ℕ)
  | eintr
  | failed
deriving DecidableEq

abbrev Transport := ℕ → Send

/-- How a loop over `send` ends: its status, the bytes that the transport has taken, in order, and
the number of calls. -/
structure Sending where
  status : Status
  taken : List Byte
  calls : ℕ
deriving DecidableEq

def Sending.after (bytes : List Byte) (r : Sending) : Sending := { r with taken := bytes ++ r.taken }

def sendLoop (send : Transport) (i tries : ℕ) (bytes : List Byte) : Sending :=
  if bytes ≠ [] ∧ tries < 10 then
    match send i with
    | .failed => ⟨mdsplusError, [], i + 1⟩
    | .eintr => sendLoop send (i + 1) (tries + 1) bytes
    | .takes 0 => sendLoop send (i + 1) (tries + 1) bytes
    | .takes (n + 1) =>
        (sendLoop send (i + 1) 0 (bytes.drop (n + 1))).after (bytes.take (n + 1))
  else if 10 ≤ tries then ⟨ssInternal, [], i⟩
  else ⟨mdsplusSuccess, [], i⟩
termination_by (bytes.length, 10 - tries)
decreasing_by
  · exact Prod.Lex.right _ (by omega)
  · exact Prod.Lex.right _ (by omega)
  · have hpos := List.length_pos_of_ne_nil ‹_ ∧ _›.1
    exact Prod.Lex.left _ _ (by rw [List.length_drop]; omega)

def sendBytes (send : Transport) (bytes : List Byte) : Sending := sendLoop send 0 0 bytes

structure Channel where
  sender : Sender
  send : Transport
  messageId : BitVec 8
  version : BitVec 8

def sendMdsMsgC (c : Channel) (m : Message) : Option Sending :=
  (MessageTransfer.sendMdsMsgC c.sender m).map (sendBytes c.send)

def sendMdsMsg (c : Channel) (m : Message) : Option Sending :=
  (sendMdsMsgC c m).map fun r =>
    { r with status := if r.status = ssInternal then mdsplusFatal else mdsplusSuccess }

/-- What `SendArg` is given; the data may be missing. -/
structure Arg where
  dtype : BitVec 8
  length : BitVec 16
  ndims : BitVec 8
  dims : Vector (BitVec 32) 8
  bytes : Option (List Byte)

def openOneK : BitVec 8 := 12
def versionOpenOne : BitVec 8 := 2

/-- The size of the data, an `int`. The first dimension is the size for an operation on a file. -/
def Arg.nbytes (a : Arg) (idx nargs : BitVec 8) : BitVec 32 :=
  match a.bytes with
  | none => 0
  | some _ =>
      if nargs < idx then a.dims.get ⟨0, dims_pos⟩
      else (a.dims.toList.take a.ndims.toNat).foldl (· * ·) (a.length.setWidth 32)

/-- The message that `SendArg` builds; none where memory outside the data or the message is
touched. -/
def Arg.message (a : Arg) (messageId idx nargs : BitVec 8) : Option Message :=
  let n := a.nbytes idx nargs
  if 8 < a.ndims ∨ n.msb ∨ (a.bytes.getD []).length < n.toNat then none
  else
    some
      { h :=
          { msglen := 48 + n
            status := 0
            length := a.length
            nargs := nargs
            descriptorIdx := idx
            messageId := messageId
            dtype := a.dtype
            clientType := 0
            ndims := a.ndims
            dims := Vector.ofFn fun i => if i.val < a.ndims.toNat then a.dims[i] else 0 }
        bytes := (a.bytes.getD []).take n.toNat }

/-- `ConnectionIncMessageId`, for what begins a request. -/
def nextMessageId (c : Channel) (idx nargs : BitVec 8) : BitVec 8 :=
  if idx = 0 ∨ nargs = 0 then if c.messageId + 1 = 0 then 1 else c.messageId + 1
  else c.messageId

def sendArg (c : Channel) (idx nargs : BitVec 8) (a : Arg) : Option Sending :=
  if nargs < idx ∧ idx = openOneK ∧ c.version < versionOpenOne then some ⟨mdsplusFatal, [], 0⟩
  else do
    let m ← a.message (nextMessageId c idx nargs) idx nargs
    if nextMessageId c idx nargs = 0 then some ⟨mdsplusError, [], 0⟩
    else
      let r ← sendMdsMsgC c m
      some { r with status := if r.status = ssInternal then mdsplusError else r.status }

/-! ### What is asked of the callers -/

/-- A success means that the transport has taken the bytes of the message once, in order. -/
def Delivers (r : Option Sending) (wire : Option (List Byte)) : Prop :=
  ∀ s, r = some s → isOk s.status → wire = some s.taken

def Stall (s : Send) : Prop := s = .eintr ∨ s = .takes 0

def Send.count : Send → ℕ
  | .takes n => n
  | _ => 0

/-- How many bytes the calls from `i` on take, if they are given as many. -/
def count (send : Transport) (i : ℕ) : ℕ → ℕ
  | 0 => 0
  | n + 1 => (send i).count + count send (i + 1) n

/-- Ten calls in a row have taken nothing. -/
def GaveUp (send : Transport) (k : ℕ) : Prop := ∃ j, j + 10 ≤ k ∧ ∀ n < 10, Stall (send (j + n))

/-- The transport fails only when it has taken so many bytes or when it was given up. -/
def Undisturbed (send : Transport) (len : ℕ) : Prop :=
  ∀ k, send k = .failed → len ≤ count send 0 k ∨ GaveUp send k

/-! ### The loop -/

/-- Ten calls in a row that took nothing, none of them before call `base`. -/
def GaveUpFrom (send : Transport) (base k : ℕ) : Prop :=
  ∃ j, base ≤ j ∧ j + 10 ≤ k ∧ ∀ n < 10, Stall (send (j + n))

theorem gaveUp_iff (send : Transport) (k : ℕ) : GaveUp send k ↔ GaveUpFrom send 0 k := by
  simp only [GaveUp, GaveUpFrom, Nat.zero_le, true_and]

/-- The first call that the transport fails before it has taken so many bytes and before ten calls
in a row have taken nothing; the calls from `base` to `i` have taken nothing. -/
def Fails (send : Transport) (base i len : ℕ) : Prop :=
  ∃ n, send (i + n) = .failed ∧ count send i n < len ∧ ¬ GaveUpFrom send base (i + n)

theorem not_stall_failed {s : Send} (h : s = .failed) : ¬ Stall s := by
  rintro (h' | h') <;> rw [h] at h' <;> cases h'

theorem fails_stall {send : Transport} {base i len : ℕ} (h : Stall (send i)) :
    Fails send base i len ↔ Fails send base (i + 1) len := by
  have hcount : (send i).count = 0 := by
    rcases h with h | h <;> rw [h] <;> rfl
  constructor
  · rintro ⟨n, hfail, hlt, hup⟩
    cases n with
    | zero => exact absurd h (not_stall_failed hfail)
    | succ n =>
      have hi : i + (n + 1) = i + 1 + n := by omega
      rw [count, hcount, Nat.zero_add] at hlt
      rw [hi] at hfail hup
      exact ⟨n, hfail, hlt, hup⟩
  · rintro ⟨n, hfail, hlt, hup⟩
    have hi : i + (n + 1) = i + 1 + n := by omega
    refine ⟨n + 1, ?_, ?_, ?_⟩
    · rwa [hi]
    · rwa [count, hcount, Nat.zero_add]
    · rwa [hi]

theorem gaveUpFrom_takes {send : Transport} {base i k : ℕ} (hbase : base ≤ i)
    (hi : i < base + 10) (h : ¬ Stall (send i)) :
    GaveUpFrom send base k ↔ GaveUpFrom send (i + 1) k := by
  constructor
  · rintro ⟨j, hj, hk, hstall⟩
    refine ⟨j, ?_, hk, hstall⟩
    by_contra hle
    refine h ?_
    have hthis := hstall (i - j) (by omega)
    rwa [show j + (i - j) = i by omega] at hthis
  · rintro ⟨j, hj, hk, hstall⟩
    exact ⟨j, by omega, hk, hstall⟩

theorem fails_takes {send : Transport} {base i len n : ℕ} (hbase : base ≤ i) (hi : i < base + 10)
    (h : send i = .takes (n + 1)) :
    Fails send base i len ↔ Fails send (i + 1) (i + 1) (len - (n + 1)) := by
  have hnot : ¬ Stall (send i) := by
    rintro (h' | h') <;> rw [h] at h' <;> cases h'
  have hcount : (send i).count = n + 1 := by
    rw [h]
    rfl
  constructor
  · rintro ⟨m, hfail, hlt, hup⟩
    cases m with
    | zero =>
      rw [Nat.add_zero, h] at hfail
      cases hfail
    | succ m =>
      rw [show i + (m + 1) = i + 1 + m by omega] at hfail hup
      rw [count, hcount] at hlt
      exact ⟨m, hfail, by omega, fun hg => hup ((gaveUpFrom_takes hbase hi hnot).mpr hg)⟩
  · rintro ⟨m, hfail, hlt, hup⟩
    refine ⟨m + 1, ?_, ?_, ?_⟩
    · rwa [show i + (m + 1) = i + 1 + m by omega]
    · rw [count, hcount]
      omega
    · rw [show i + (m + 1) = i + 1 + m by omega]
      exact fun hg => hup ((gaveUpFrom_takes hbase hi hnot).mp hg)

theorem sendLoop_error_iff (send : Transport) (i tries : ℕ) (bytes : List Byte) (base : ℕ)
    (hi : i = base + tries) (hstall : ∀ n < tries, Stall (send (base + n))) :
    (sendLoop send i tries bytes).status = mdsplusError ↔ Fails send base i bytes.length := by
  induction i, tries, bytes using sendLoop.induct send generalizing base with
  | case1 i tries bytes hmore hfail =>
    rw [sendLoop, if_pos hmore, hfail]
    refine iff_of_true rfl ⟨0, hfail, List.length_pos_of_ne_nil hmore.1, ?_⟩
    rintro ⟨j, hj, hk, -⟩
    omega
  | case2 i tries bytes hmore hintr ih =>
    rw [sendLoop, if_pos hmore, hintr, fails_stall (.inl hintr)]
    refine ih base (by omega) fun n hn => ?_
    rcases Nat.lt_succ_iff_lt_or_eq.mp hn with hn | rfl
    · exact hstall n hn
    · exact .inl (hi ▸ hintr)
  | case3 i tries bytes hmore hzero ih =>
    rw [sendLoop, if_pos hmore, hzero, fails_stall (.inr hzero)]
    refine ih base (by omega) fun n hn => ?_
    rcases Nat.lt_succ_iff_lt_or_eq.mp hn with hn | rfl
    · exact hstall n hn
    · exact .inr (hi ▸ hzero)
  | case4 i tries bytes hmore n htakes ih =>
    rw [sendLoop, if_pos hmore, htakes, fails_takes (by omega) (by omega) htakes]
    have hrest := ih (i + 1) rfl nofun
    rwa [List.length_drop] at hrest
  | case5 i tries bytes hdone hspent =>
    rw [sendLoop, if_neg hdone, if_pos hspent]
    refine iff_of_false (show ssInternal ≠ mdsplusError by decide) ?_
    rintro ⟨n, -, -, hup⟩
    exact hup ⟨base, le_rfl, by omega, fun m hm => hstall m (by omega)⟩
  | case6 i tries bytes hdone hspent =>
    rw [sendLoop, if_neg hdone, if_neg hspent]
    have hnil : bytes = [] := by
      by_contra hne
      exact hdone ⟨hne, by omega⟩
    refine iff_of_false (show mdsplusSuccess ≠ mdsplusError by decide) ?_
    rintro ⟨n, -, hlt, -⟩
    rw [hnil] at hlt
    exact absurd hlt (Nat.not_lt_zero _)

theorem sendLoop_calls (send : Transport) (i tries : ℕ) (bytes : List Byte) (h : tries ≤ 10) :
    (sendLoop send i tries bytes).calls ≤ i + (10 * bytes.length - tries) := by
  induction i, tries, bytes using sendLoop.induct send with
  | case1 i tries bytes hmore hfail =>
    have hpos := List.length_pos_of_ne_nil hmore.1
    rw [sendLoop, if_pos hmore, hfail]
    change i + 1 ≤ _
    omega
  | case2 i tries bytes hmore hintr ih =>
    have hpos := List.length_pos_of_ne_nil hmore.1
    have hrest := ih (by omega)
    rw [sendLoop, if_pos hmore, hintr]
    change (sendLoop send (i + 1) (tries + 1) bytes).calls ≤ _
    omega
  | case3 i tries bytes hmore hzero ih =>
    have hpos := List.length_pos_of_ne_nil hmore.1
    have hrest := ih (by omega)
    rw [sendLoop, if_pos hmore, hzero]
    change (sendLoop send (i + 1) (tries + 1) bytes).calls ≤ _
    omega
  | case4 i tries bytes hmore n htakes ih =>
    have hpos := List.length_pos_of_ne_nil hmore.1
    have hrest := ih (Nat.zero_le _)
    rw [List.length_drop] at hrest
    rw [sendLoop, if_pos hmore, htakes]
    change (sendLoop send (i + 1) 0 (bytes.drop (n + 1))).calls ≤ _
    omega
  | case5 i tries bytes hdone hspent =>
    rw [sendLoop, if_neg hdone, if_pos hspent]
    exact Nat.le_add_right _ _
  | case6 i tries bytes hdone hspent =>
    rw [sendLoop, if_neg hdone, if_neg hspent]
    exact Nat.le_add_right _ _

theorem sendLoop_taken (send : Transport) (i tries : ℕ) (bytes : List Byte)
    (h : tries < 10 ∨ bytes ≠ []) :
    (sendLoop send i tries bytes).status = mdsplusSuccess ∧
        (sendLoop send i tries bytes).taken = bytes ∨
      (sendLoop send i tries bytes).status ∈ [mdsplusError, ssInternal] ∧
        (sendLoop send i tries bytes).taken.length < bytes.length := by
  induction i, tries, bytes using sendLoop.induct send with
  | case1 i tries bytes hmore hfail =>
    rw [sendLoop, if_pos hmore, hfail]
    exact .inr ⟨List.mem_cons_self .., List.length_pos_of_ne_nil hmore.1⟩
  | case2 i tries bytes hmore hintr ih =>
    rw [sendLoop, if_pos hmore, hintr]
    exact ih (.inr hmore.1)
  | case3 i tries bytes hmore hzero ih =>
    rw [sendLoop, if_pos hmore, hzero]
    exact ih (.inr hmore.1)
  | case4 i tries bytes hmore n htakes ih =>
    have hpos := List.length_pos_of_ne_nil hmore.1
    rw [sendLoop, if_pos hmore, htakes]
    rcases ih (.inl (by decide)) with ⟨hok, hall⟩ | ⟨hbad, hless⟩
    · left
      refine ⟨hok, ?_⟩
      change bytes.take (n + 1) ++ (sendLoop send (i + 1) 0 (bytes.drop (n + 1))).taken = bytes
      rw [hall, List.take_append_drop]
    · right
      refine ⟨hbad, ?_⟩
      change (bytes.take (n + 1) ++
        (sendLoop send (i + 1) 0 (bytes.drop (n + 1))).taken).length < bytes.length
      rw [List.length_drop] at hless
      rw [List.length_append, List.length_take]
      omega
  | case5 i tries bytes hdone hspent =>
    rw [sendLoop, if_neg hdone, if_pos hspent]
    refine .inr ⟨List.mem_cons_of_mem _ (List.mem_cons_self ..), List.length_pos_of_ne_nil ?_⟩
    rcases h with hlt | hne
    · omega
    · exact hne
  | case6 i tries bytes hdone hspent =>
    rw [sendLoop, if_neg hdone, if_neg hspent]
    refine .inl ⟨rfl, ?_⟩
    by_contra hne
    exact hdone ⟨fun hnil => hne hnil.symm, by omega⟩

theorem sendBytes_taken (send : Transport) (bytes : List Byte) :
    (sendBytes send bytes).status = mdsplusSuccess ∧ (sendBytes send bytes).taken = bytes ∨
      (sendBytes send bytes).status ∈ [mdsplusError, ssInternal] ∧
        (sendBytes send bytes).taken.length < bytes.length :=
  sendLoop_taken send 0 0 bytes (.inl (by decide))

theorem sendBytes_error_iff (send : Transport) (bytes : List Byte) :
    (sendBytes send bytes).status = mdsplusError ↔ ¬ Undisturbed send bytes.length := by
  unfold sendBytes Undisturbed
  rw [sendLoop_error_iff send 0 0 bytes 0 rfl nofun]
  unfold Fails
  simp only [Nat.zero_add, ← gaveUp_iff]
  constructor
  · rintro ⟨n, hfail, hlt, hup⟩ hall
    rcases hall n hfail with hle | hgave
    · omega
    · exact hup hgave
  · intro hnot
    by_contra hno
    refine hnot fun k hfail => ?_
    by_contra hneither
    rw [not_or] at hneither
    exact hno ⟨k, hfail, by omega, hneither.2⟩

/-! ### The callers -/

theorem sendArg_delivers (c : Channel) (idx nargs : BitVec 8) (a : Arg) :
    Delivers (sendArg c idx nargs a)
      ((a.message (nextMessageId c idx nargs) idx nargs).bind
        (MessageTransfer.sendMdsMsgC c.sender)) := by
  intro s hs hok
  unfold sendArg at hs
  split at hs
  · cases hs
    exact absurd hok (by decide)
  · obtain ⟨m, hm, hs⟩ := Option.bind_eq_some_iff.mp hs
    split at hs
    · cases hs
      exact absurd hok (by decide)
    · obtain ⟨r, hr, hs⟩ := Option.bind_eq_some_iff.mp hs
      obtain ⟨wire, hwire, rfl⟩ := Option.map_eq_some_iff.mp hr
      cases hs
      rw [hm, Option.bind_some, hwire]
      rcases sendBytes_taken c.send wire with ⟨-, hall⟩ | ⟨hbad, -⟩
      · exact congrArg some hall.symm
      · simp only [List.mem_cons, List.not_mem_nil, or_false] at hbad
        rcases hbad with hbad | hbad
        · simp only [hbad] at hok
          exact absurd hok (by decide)
        · simp only [hbad] at hok
          exact absurd hok (by decide)

theorem sendMdsMsg_delivers_iff (c : Channel) (m : Message) :
    Delivers (sendMdsMsg c m) (MessageTransfer.sendMdsMsgC c.sender m) ↔
      ∀ wire, MessageTransfer.sendMdsMsgC c.sender m = some wire →
        Undisturbed c.send wire.length := by
  unfold sendMdsMsg sendMdsMsgC
  constructor
  · intro hdelivers wire hwire
    by_contra hnot
    have herror := (sendBytes_error_iff c.send wire).mpr hnot
    rw [hwire] at hdelivers
    have hall := hdelivers _ rfl
    simp only [herror] at hall
    have hsame := Option.some.inj (hall (by decide))
    rcases sendBytes_taken c.send wire with ⟨hok, -⟩ | ⟨-, hless⟩
    · rw [herror] at hok
      exact absurd hok (by decide)
    · rw [← hsame] at hless
      exact absurd hless (lt_irrefl _)
  · intro hall s hs hok
    obtain ⟨r, hr, rfl⟩ := Option.map_eq_some_iff.mp hs
    obtain ⟨wire, hwire, rfl⟩ := Option.map_eq_some_iff.mp hr
    rw [hwire]
    rcases sendBytes_taken c.send wire with ⟨-, htaken⟩ | ⟨hbad, -⟩
    · exact congrArg some htaken.symm
    · simp only [List.mem_cons, List.not_mem_nil, or_false] at hbad
      rcases hbad with hbad | hbad
      · exact absurd (hall wire hwire) ((sendBytes_error_iff c.send wire).mp hbad)
      · simp only [hbad] at hok
        exact absurd hok (by decide)

/-- What is asked of sending: an end after ten calls for each byte at most, and a success only for
a message that the transport has taken. -/
structure Sends (c : Channel) (m : Message) : Prop where
  ends : ∀ bytes, (sendBytes c.send bytes).calls ≤ 10 * bytes.length
  arg : ∀ idx nargs a, Delivers (sendArg c idx nargs a)
    ((a.message (nextMessageId c idx nargs) idx nargs).bind
      (MessageTransfer.sendMdsMsgC c.sender))
  message : Delivers (sendMdsMsg c m) (MessageTransfer.sendMdsMsgC c.sender m)

/-- The message is sent or an error is reported exactly when the transport does not fail before it
has taken the message or was given up. -/
theorem sends_iff (c : Channel) (m : Message) :
    Sends c m ↔ ∀ wire, MessageTransfer.sendMdsMsgC c.sender m = some wire →
      Undisturbed c.send wire.length := by
  constructor
  · intro hsends
    exact (sendMdsMsg_delivers_iff c m).mp hsends.message
  · intro hall
    constructor
    case ends =>
      intro bytes
      have hcalls := sendLoop_calls c.send 0 0 bytes (Nat.zero_le _)
      rwa [Nat.zero_add, Nat.sub_zero] at hcalls
    case arg => exact sendArg_delivers c
    case message => exact (sendMdsMsg_delivers_iff c m).mpr hall

theorem failed_counts_as_sent : ¬ ∀ c m, Sends c m := by
  intro hall
  have hsends := hall ⟨⟨false, fun _ _ _ => none, 0⟩, fun _ => .failed, 0, 0⟩ (zeros 0)
  have hundisturbed := (sendMdsMsg_delivers_iff _ _).mp hsends.message _ rfl
  rcases hundisturbed 0 rfl with hle | ⟨j, hj, -⟩
  · revert hle
    decide
  · omega

end MdsPlus.MessageSends
