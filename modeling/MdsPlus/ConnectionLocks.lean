import MdsPlus.MessageAnswers
import MdsPlus.Outcome

/-!
The activity bits of a client's connection. An operation on a connection marks it as active
and unmarks it, a request from its first argument to the reading of its answer. The list of
connections belongs to one thread, so a thread that waits for a mark that it has left itself
waits forever.
-/

namespace MdsPlus.ConnectionLocks

open MessageHeaders MessageStream MessageAnswers Outcome

def conActivity : BitVec 8 := 0x7f
def conRecv : BitVec 8 := 0x10
def conRequest : BitVec 8 := 0x20
def conInlist : BitVec 8 := 0x80

def versionDscArgs : BitVec 8 := 1
def versionOpenOne : BitVec 8 := 2
def openOneK : BitVec 8 := 12

structure Conn where
  state : BitVec 8
  messageId : BitVec 8
  version : BitVec 8

/-- A call that does not come back, or that leaves its memory. -/
inductive Fault
  | waits
  | stops (stop : Stop)

def Marked (bits : BitVec 8) (c : Conn) : Prop := c.state &&& bits ≠ 0

instance (bits : BitVec 8) (c : Conn) : Decidable (Marked bits c) :=
  inferInstanceAs (Decidable (_ ≠ _))

/-- The connection of an id, as long as it is in the list of the thread. -/
abbrev Listed := Option Conn

/-- The loop of `FindConnectionWithLock`, going round at most so many times. -/
def waitLoop : ℕ → Listed → Option Listed
  | 0, _ => none
  | _ + 1, none => some none
  | looks + 1, some c =>
      if Marked conActivity c ∧ Marked conInlist c then
        -- The connection is looked up again, and not taken unless it is marked as listed.
        waitLoop looks (if Marked conInlist c then some c else none)
      else some (some c)

def findConnectionWithLock (looks : ℕ) (bits : BitVec 8) (c : Listed) : Except Fault Listed :=
  match waitLoop looks c with
  | none => .error .waits
  | some c => .ok (c.map fun c => { c with state := c.state ||| bits &&& conActivity })

def findConnectionSending : Listed → Listed × Listed
  | none => (none, none)
  | some c =>
      if Marked (conActivity &&& ~~~conRequest) c ∧ Marked conInlist c then
        (none, some { c with state := c.state &&& ~~~conRequest })
      else (some c, some c)

def unlockConnection (c : Listed) : Listed :=
  c.map fun c => { c with state := c.state &&& ~~~conActivity }

def connectionIncMessageId (c : Conn) : Conn :=
  { c with messageId := if c.messageId + 1 = 0 then 1 else c.messageId + 1 }

/-- How the sending of a message ends: all bytes are sent, the transport fails, or it takes
nothing ten times. -/
inductive Sent
  | complete
  | failed
  | exhausted
deriving DecidableEq

/-- The status of `SendMdsMsgC`. -/
def Sent.status : Sent → Status
  | .complete => mdsplusSuccess
  | .failed => mdsplusError
  | .exhausted => ssInternal

/-- The index begins a request, or is an operation on a file. -/
def Starts (idx nargs : BitVec 8) : Prop := idx = 0 ∨ nargs < idx

instance (idx nargs : BitVec 8) : Decidable (Starts idx nargs) :=
  inferInstanceAs (Decidable (_ ∨ _))

/-- The connection that `SendArg` finds, and what is then in the list. -/
def findForArg (looks : ℕ) (idx nargs : BitVec 8) (c : Listed) : Except Fault (Listed × Listed) :=
  if Starts idx nargs then
    (findConnectionWithLock looks conRequest c).map fun c => (c, c)
  else .ok (findConnectionSending c)

def withMessageId (idx nargs : BitVec 8) (c : Conn) : Conn :=
  if idx = 0 ∨ nargs = 0 then connectionIncMessageId c else c

/-- `SendArg`, on the connection found. -/
def sendFound (idx nargs : BitVec 8) (sent : Sent) (found : Conn) : Status × Listed :=
  if nargs < idx ∧ idx = openOneK ∧ found.version < versionOpenOne then
    (mdsplusFatal, unlockConnection (some found))
  else
    let found := withMessageId idx nargs found
    let status := if found.messageId = 0 then mdsplusError else outward sent.status
    (status, if isOk status then some found else unlockConnection (some found))

def sendArg (looks : ℕ) (idx nargs : BitVec 8) (sent : Sent) (c : Listed) :
    Except Fault (Status × Listed) :=
  (findForArg looks idx nargs c).map fun
    | (none, c) => (mdsplusError, c)
    | (some found, _) => sendFound idx nargs sent found

def sendDsc (looks : ℕ) (idx nargs : BitVec 8) (serialized : Status) (sent : Sent) (c : Listed) :
    Except Fault (Status × Listed) :=
  if isOk serialized then sendArg looks idx nargs sent c else .ok (serialized, c)

/-- What `GetMdsMsgTOC` makes of the bytes that come. -/
structure Reply where
  status : Status
  msg : Option Message

def Reply.closes (reply : Reply) : Prop := reply.msg = none ∧ reply.status = ssInternal

instance (reply : Reply) : Decidable reply.closes := inferInstanceAs (Decidable (_ ∧ _))

def answerStatus (m : Message) : Except Fault Status :=
  match answerInfo m with
  | .error stop => .error (.stops stop)
  | .ok none => .ok mdsplusError
  | .ok (some info) => .ok info.status.toInt

def getAnswerInfoTO (reply : Reply) (c : Listed) : Except Fault (Status × Listed) :=
  match findConnectionSending c with
  | (none, c) => .ok (mdsplusError, c)
  | (some found, _) =>
      let c := if reply.closes then none else unlockConnection (some found)
      if isOk (outward reply.status) then
        match reply.msg with
        | none => .error (.stops .overrun)
        | some m => (answerStatus m).map fun status => (status, c)
      else .ok (outward reply.status, c)

def sendMdsMsg (looks : ℕ) (m : Message) (sent : Sent) (c : Listed) :
    Except Fault (Status × Listed) := do
  match ← findConnectionWithLock looks conRequest c with
  | none =>
      if 0 < bodyLength m.h ∨ m.h.clientType = sendCapabilities then .error (.stops .overrun)
      else .ok (mdsplusSuccess, none)
  | some found =>
      if sent.status = ssInternal then .ok (mdsplusFatal, none)
      else .ok (mdsplusSuccess, some found)

def getMdsMsgTO (looks : ℕ) (reply : Reply) (c : Listed) : Except Fault (Status × Listed) := do
  match ← findConnectionWithLock looks conRecv c with
  | none => .ok (mdsplusError, none)
  | some found =>
      .ok (outward reply.status, if reply.closes then none else unlockConnection (some found))

section Each

variable {α : Type}

def sendEach (send : ℕ → α → Listed → Except Fault (Status × Listed)) :
    ℕ → List α → Status × Listed → Except Fault (Status × Listed)
  | _, [], r => .ok r
  | i, a :: as, (status, c) =>
      if isOk status then do
        let r ← send i a c
        sendEach send (i + 1) as r
      else .ok (status, c)

end Each

structure Descriptor where
  serialized : Status
  sent : Sent

/-- The number of arguments, and an index, as it is sent. -/
def byte (n : ℕ) : BitVec 8 := BitVec.ofNat 8 n

/-- What happens to a request of `MdsIpGetDescriptor`. -/
structure Query where
  /-- The text that has an old server serialize and deserialize. -/
  wrapper : Sent
  expression : Descriptor
  args : List Descriptor
  reply : Reply
  /-- The status of decoding the answer. -/
  decoded : Status

def Query.sendDscs (q : Query) (looks : ℕ) (c : Listed) : Except Fault (Status × Listed) :=
  sendEach (fun i a => sendDsc looks (byte i) (byte (q.args.length + 1)) a.serialized a.sent) 0
    (q.expression :: q.args) (1, c)

/-- The number of arguments for an old server. -/
def Query.texts (q : Query) : BitVec 8 := byte (q.args.length + 2)

def Query.sendTexts (q : Query) (looks : ℕ) (c : Listed) : Except Fault (Status × Listed) := do
  let r ← sendArg looks 0 q.texts q.wrapper c
  let r ← sendArg looks 1 q.texts q.expression.sent r.2
  sendEach (fun i a => sendDsc looks (byte i) q.texts a.serialized a.sent) 2 q.args r

/-- The version of the connection is one that takes serialized arguments. -/
def ExpectsSerial (c : Listed) : Prop := ∃ conn, c = some conn ∧ versionDscArgs ≤ conn.version

instance (c : Listed) : Decidable (ExpectsSerial c) :=
  match c with
  | none => isFalse nofun
  | some conn => decidable_of_iff (versionDscArgs ≤ conn.version)
      ⟨fun h => ⟨conn, rfl, h⟩, fun ⟨_, hc, h⟩ => Option.some.inj hc ▸ h⟩

def Query.send (q : Query) (looks : ℕ) (c : Listed) : Except Fault (Status × Listed) :=
  if ExpectsSerial c then q.sendDscs looks c else q.sendTexts looks c

def mdsIpGetDescriptor (looks : ℕ) (q : Query) (c : Listed) : Except Fault (Status × Listed) := do
  let r ← q.send looks c
  if isOk r.1 then
    let a ← getAnswerInfoTO q.reply r.2
    .ok (if isOk a.1 then q.decoded else a.1, a.2)
  else .ok r

def mdsValue (looks : ℕ) (args : List Sent) (reply : Reply) (c : Listed) :
    Except Fault (Status × Listed) := do
  let r ← sendEach (fun i sent => sendArg looks (byte i) (byte args.length) sent) 0 args (1, c)
  if isOk r.1 then getAnswerInfoTO reply r.2 else .ok r

inductive Op
  | sendArg (idx nargs : BitVec 8) (sent : Sent)
  | sendDsc (idx nargs : BitVec 8) (serialized : Status) (sent : Sent)
  | getAnswerInfoTO (reply : Reply)
  | sendMdsMsg (m : Message) (sent : Sent)
  | getMdsMsgTO (reply : Reply)
  | mdsIpGetDescriptor (q : Query)
  | mdsValue (args : List Sent) (reply : Reply)

def call (looks : ℕ) (c : Listed) : Op → Except Fault (Status × Listed)
  | .sendArg idx nargs sent => sendArg looks idx nargs sent c
  | .sendDsc idx nargs serialized sent => sendDsc looks idx nargs serialized sent c
  | .getAnswerInfoTO reply => getAnswerInfoTO reply c
  | .sendMdsMsg m sent => sendMdsMsg looks m sent c
  | .getMdsMsgTO reply => getMdsMsgTO looks reply c
  | .mdsIpGetDescriptor q => mdsIpGetDescriptor looks q c
  | .mdsValue args reply => mdsValue looks args reply c

/-- An argument was sent, so that a request is under way after the call. -/
def Op.continues (status : Status) : Op → Bool
  | .sendArg .. => isOk status
  | .sendDsc .. => isOk status
  | _ => false

structure Client where
  conn : Listed
  underWay : Bool

def connected (messageId version : BitVec 8) : Client :=
  ⟨some ⟨conInlist, messageId, version⟩, false⟩

def operate (looks : ℕ) (s : Client) (op : Op) : Except Fault Client :=
  (call looks s.conn op).map fun r => ⟨r.2, op.continues r.1⟩

/-- No bit is left on the connection. -/
def Idle (c : Listed) : Prop := ∀ conn ∈ c, ¬ Marked conActivity conn

/-! ### Calls that release the connection -/

/-- The arguments from an index on release the connection, `marked` telling whether a request is
under way before them. Until one cannot be sent, none of them is taken for the beginning of
another request while it is, and when one fails to be serialized it is not. -/
def Releases (nargs : BitVec 8) : Bool → ℕ → List Descriptor → Prop
  | _, _, [] => True
  | marked, i, a :: as =>
      if isOk a.serialized then
        ¬ (marked ∧ Starts (byte i) nargs) ∧
          (a.sent = .complete → Releases nargs (marked || Starts (byte i) nargs) (i + 1) as)
      else marked = false

/-- The texts for an old server and its arguments release the connection. -/
def Query.ReleasesTexts (q : Query) : Prop :=
  ¬ (q.wrapper = .complete ∧ Starts 1 q.texts) ∧
    (q.expression.sent = .complete →
      Releases q.texts (q.wrapper = .complete || Starts 1 q.texts) 2 q.args)

/-- The arguments of the request release the connection. -/
def Query.ReleasesCalls (q : Query) (c : Listed) : Prop :=
  if ExpectsSerial c then
    (Idle c → Releases (byte (q.args.length + 1)) false 0 (q.expression :: q.args)) ∧
      (isOk q.expression.serialized ∨ Idle c)
  else c ≠ none → Idle c → q.ReleasesTexts

/-- The call does not leave the connection marked. -/
def Allowed (c : Listed) : Op → Prop
  | .sendArg .. => True
  | .sendDsc _ _ serialized _ => isOk serialized ∨ Idle c
  | .getAnswerInfoTO _ => True
  | .sendMdsMsg _ sent => c ≠ none → Idle c → sent = .exhausted
  | .getMdsMsgTO _ => True
  | .mdsIpGetDescriptor q => q.ReleasesCalls c
  | .mdsValue args _ =>
      c ≠ none → Idle c →
        Releases (byte args.length) false 0 (args.map fun sent => ⟨mdsplusSuccess, sent⟩)

/-! ### What a call leaves on the connection -/

def stateOf (marked : Bool) : BitVec 8 := if marked then conInlist ||| conRequest else conInlist

def Holds (marked : Bool) (c : Listed) : Prop := ∀ conn ∈ c, conn.state = stateOf marked

theorem holds_none (marked : Bool) : Holds marked none := nofun

theorem holds_some {marked : Bool} {conn : Conn} :
    Holds marked (some conn) ↔ conn.state = stateOf marked := by
  simp only [Holds, Option.mem_some, forall_eq']

theorem idle_of_holds {c : Listed} (h : Holds false c) : Idle c := by
  intro conn hconn
  rw [Marked, h conn hconn]
  decide

theorem not_idle_of_holds {conn : Conn} (h : Holds true (some conn)) : ¬ Idle (some conn) := by
  intro hidle
  apply hidle conn rfl
  rw [Marked, holds_some.mp h]
  decide

theorem waitLoop_idle {looks : ℕ} (hlooks : 0 < looks) {c : Listed} (h : Idle c) :
    waitLoop looks c = some c := by
  obtain ⟨looks, rfl⟩ := Nat.exists_eq_add_of_lt hlooks
  rw [Nat.zero_add]
  cases c with
  | none => rfl
  | some conn => rw [waitLoop, if_neg fun hw => h conn rfl hw.1]

theorem waitLoop_marked (looks : ℕ) {conn : Conn} (h : Holds true (some conn)) :
    waitLoop looks (some conn) = none := by
  induction looks with
  | zero => rfl
  | succ looks ih =>
    have hbusy : Marked conActivity conn ∧ Marked conInlist conn := by
      rw [Marked, Marked, holds_some.mp h]
      decide
    rw [waitLoop, if_pos hbusy, if_pos hbusy.2]
    exact ih

theorem findConnectionSending_holds {marked : Bool} {c : Listed} (h : Holds marked c) :
    findConnectionSending c = (c, c) := by
  cases c with
  | none => rfl
  | some conn =>
    have hfree : ¬ (Marked (conActivity &&& ~~~conRequest) conn ∧ Marked conInlist conn) := by
      rw [Marked, Marked, holds_some.mp h]
      cases marked <;> decide
    rw [findConnectionSending, if_neg hfree]

theorem findConnectionWithLock_idle {looks : ℕ} (hlooks : 0 < looks) (bits : BitVec 8) {c : Listed}
    (h : Idle c) :
    findConnectionWithLock looks bits c =
      .ok (c.map fun c => { c with state := c.state ||| bits &&& conActivity }) := by
  rw [findConnectionWithLock, waitLoop_idle hlooks h]

theorem findConnectionWithLock_marked (looks : ℕ) (bits : BitVec 8) {conn : Conn}
    (h : Holds true (some conn)) :
    findConnectionWithLock looks bits (some conn) = .error .waits := by
  rw [findConnectionWithLock, waitLoop_marked looks h]

theorem holds_requested {c : Listed} (h : Holds false c) :
    Holds true (c.map fun c => { c with state := c.state ||| conRequest &&& conActivity }) := by
  cases c with
  | none => exact holds_none true
  | some conn =>
    rw [Option.map_some, holds_some]
    change conn.state ||| conRequest &&& conActivity = stateOf true
    rw [holds_some.mp h]
    decide

theorem unlockConnection_state (conn : Conn) (h : conn.state &&& conInlist = conInlist) :
    Holds false (unlockConnection (some conn)) := by
  rw [unlockConnection, Option.map_some, holds_some]
  change conn.state &&& ~~~conActivity = stateOf false
  generalize conn.state = state at h ⊢
  revert state
  decide

theorem unlockConnection_holds {marked : Bool} {c : Listed} (h : Holds marked c) :
    Holds false (unlockConnection c) := by
  cases c with
  | none => exact holds_none false
  | some conn =>
    apply unlockConnection_state
    rw [holds_some.mp h]
    cases marked <;> decide

/-- A call that is good leaves the connection with this mark, any other leaves it unmarked. -/
def Leaves (marked : Bool) (r : Status × Listed) : Prop :=
  (isOk r.1 → Holds marked r.2) ∧ (¬ isOk r.1 → Holds false r.2)

theorem findForArg_holds {looks : ℕ} (hlooks : 0 < looks) {idx nargs : BitVec 8} {marked : Bool}
    {c : Listed} (h : Holds marked c) (hstarts : ¬ (marked ∧ Starts idx nargs)) :
    ∃ c', findForArg looks idx nargs c = .ok (c', c') ∧
      Holds (marked || Starts idx nargs) c' := by
  unfold findForArg
  by_cases hs : Starts idx nargs
  · obtain rfl : marked = false := by
      cases marked with
      | false => rfl
      | true => exact absurd ⟨rfl, hs⟩ hstarts
    rw [if_pos hs, findConnectionWithLock_idle hlooks conRequest (idle_of_holds h)]
    refine ⟨_, rfl, ?_⟩
    rw [decide_eq_true hs, Bool.or_true]
    exact holds_requested h
  · rw [if_neg hs, findConnectionSending_holds h, decide_eq_false hs, Bool.or_false]
    exact ⟨c, rfl, h⟩

theorem withMessageId_state (idx nargs : BitVec 8) (conn : Conn) :
    (withMessageId idx nargs conn).state = conn.state := by
  unfold withMessageId
  split <;> rfl

theorem not_isOk_error : ¬ isOk mdsplusError := by decide

theorem not_isOk_fatal : ¬ isOk mdsplusFatal := by decide

theorem isOk_outward (sent : Sent) : isOk (outward sent.status) ↔ sent = .complete := by
  cases sent <;> decide

theorem sendFound_leaves (idx nargs : BitVec 8) (sent : Sent) {marked : Bool} {conn : Conn}
    (h : Holds marked (some conn)) :
    Leaves marked (sendFound idx nargs sent conn) ∧
      (isOk (sendFound idx nargs sent conn).1 → sent = .complete) := by
  unfold sendFound
  split
  · refine ⟨⟨?_, fun _ => unlockConnection_holds h⟩, ?_⟩
    · exact fun hok => absurd hok not_isOk_fatal
    · exact fun hok => absurd hok not_isOk_fatal
  · have hsent : Holds marked (some (withMessageId idx nargs conn)) := by
      rw [holds_some, withMessageId_state]
      exact holds_some.mp h
    refine ⟨⟨fun hok => ?_, fun hno => ?_⟩, fun hok => ?_⟩
    · simp only [if_pos hok]
      exact hsent
    · simp only [if_neg hno]
      exact unlockConnection_holds hsent
    · simp only at hok
      split at hok
      · exact absurd hok not_isOk_error
      · exact (isOk_outward sent).mp hok

theorem sendArg_leaves {looks : ℕ} (hlooks : 0 < looks) {idx nargs : BitVec 8} {marked : Bool}
    {c : Listed} (sent : Sent) (h : Holds marked c) (hstarts : ¬ (marked ∧ Starts idx nargs)) :
    ∃ r, sendArg looks idx nargs sent c = .ok r ∧ Leaves (marked || Starts idx nargs) r ∧
      (isOk r.1 → sent = .complete) := by
  obtain ⟨found, hfind, hfound⟩ := findForArg_holds hlooks h hstarts
  rw [sendArg, hfind]
  cases found with
  | none =>
    refine ⟨(mdsplusError, none), rfl, ⟨?_, fun _ => holds_none false⟩, ?_⟩
    · exact fun hok => absurd hok not_isOk_error
    · exact fun hok => absurd hok not_isOk_error
  | some conn => exact ⟨_, rfl, sendFound_leaves idx nargs sent hfound⟩

theorem sendDsc_leaves {looks : ℕ} (hlooks : 0 < looks) {idx nargs : BitVec 8} {marked : Bool}
    {c : Listed} (serialized : Status) (sent : Sent) (h : Holds marked c)
    (hok : if isOk serialized then ¬ (marked ∧ Starts idx nargs) else marked = false) :
    ∃ r, sendDsc looks idx nargs serialized sent c = .ok r ∧
      Leaves (marked || Starts idx nargs) r ∧
        (isOk r.1 → isOk serialized ∧ sent = .complete) := by
  unfold sendDsc
  split at hok
  · next hs =>
    rw [if_pos hs]
    obtain ⟨r, hr, hleaves, hsent⟩ := sendArg_leaves hlooks sent h hok
    exact ⟨r, hr, hleaves, fun hgood => ⟨hs, hsent hgood⟩⟩
  · next hs =>
    subst hok
    rw [if_neg hs]
    exact ⟨_, rfl, ⟨fun hgood => absurd hgood hs, fun _ => h⟩, fun hgood => absurd hgood hs⟩

/-- What arguments leave that release the connection. -/
theorem sendEach_leaves {looks : ℕ} (hlooks : 0 < looks) {nargs : BitVec 8} {marked : Bool}
    {i : ℕ} {as : List Descriptor} {r : Status × Listed} (hr : Leaves marked r)
    (has : isOk r.1 → Releases nargs marked i as) :
    ∃ r' marked', sendEach (fun i a => sendDsc looks (byte i) nargs a.serialized a.sent) i as r =
      .ok r' ∧ Leaves marked' r' := by
  induction as generalizing marked i r with
  | nil => exact ⟨r, marked, rfl, hr⟩
  | cons a as ih =>
    obtain ⟨status, c⟩ := r
    unfold sendEach
    by_cases hok : isOk status
    · rw [if_pos hok]
      have hstep := has hok
      unfold Releases at hstep
      have hthis : if isOk a.serialized then ¬ (marked ∧ Starts (byte i) nargs)
          else marked = false := by
        by_cases hs : isOk a.serialized
        · rw [if_pos hs] at hstep ⊢
          exact hstep.1
        · rw [if_neg hs] at hstep ⊢
          exact hstep
      obtain ⟨r1, h1, hleaves, hsent⟩ :=
        sendDsc_leaves hlooks a.serialized a.sent (hr.1 hok) hthis
      rw [h1]
      apply ih hleaves
      intro hgood
      obtain ⟨hserialized, hcomplete⟩ := hsent hgood
      rw [if_pos hserialized] at hstep
      exact hstep.2 hcomplete
    · rw [if_neg hok]
      exact ⟨_, marked, rfl, hr⟩

theorem sendEach_texts (looks : ℕ) (nargs : BitVec 8) (i : ℕ) (args : List Sent)
    (r : Status × Listed) :
    sendEach (fun i sent => sendArg looks (byte i) nargs sent) i args r =
      sendEach (fun i (a : Descriptor) => sendDsc looks (byte i) nargs a.serialized a.sent) i
        (args.map fun sent => ⟨mdsplusSuccess, sent⟩) r := by
  induction args generalizing i r with
  | nil => rfl
  | cons sent args ih =>
    obtain ⟨status, c⟩ := r
    have hgood : isOk mdsplusSuccess := by decide
    rw [List.map_cons, sendEach, sendEach, sendDsc, if_pos hgood]
    split
    · cases sendArg looks (byte i) nargs sent c with
      | error fault => rfl
      | ok r => exact ih (i + 1) r
    · rfl

/-- A call that does not wait forever, and leaves what is asked for when it comes back. -/
def Returns (x : Except Fault (Status × Listed)) (post : Status × Listed → Prop) : Prop :=
  x ≠ .error .waits ∧ ∀ r, x = .ok r → post r

theorem returns_of_eq {x : Except Fault (Status × Listed)} {post : Status × Listed → Prop}
    {r : Status × Listed} (h : x = .ok r) (hr : post r) : Returns x post := by
  subst h
  refine ⟨nofun, fun r' hr' => ?_⟩
  cases hr'
  exact hr

theorem returns_stops {post : Status × Listed → Prop} (stop : Stop) :
    Returns (.error (.stops stop)) post :=
  ⟨nofun, nofun⟩

theorem getAnswerInfoTO_releases (reply : Reply) {marked : Bool} {c : Listed}
    (h : Holds marked c) : Returns (getAnswerInfoTO reply c) fun r => Holds false r.2 := by
  rw [getAnswerInfoTO, findConnectionSending_holds h]
  cases c with
  | none => exact returns_of_eq rfl (holds_none false)
  | some conn =>
    have hafter : Holds false (if reply.closes then none else unlockConnection (some conn)) := by
      split
      · exact holds_none false
      · exact unlockConnection_holds h
    simp only
    split
    · split
      · exact returns_stops .overrun
      · next m _ =>
        unfold answerStatus
        cases answerInfo m with
        | error stop => exact returns_stops stop
        | ok info =>
          cases info with
          | none => exact returns_of_eq rfl hafter
          | some info => exact returns_of_eq rfl hafter
    · exact returns_of_eq rfl hafter

theorem answered_releases (reply : Reply) {marked : Bool} {r : Status × Listed}
    (h : Leaves marked r) :
    Returns (if isOk r.1 then getAnswerInfoTO reply r.2 else .ok r) fun r => Holds false r.2 := by
  split
  · next hok => exact getAnswerInfoTO_releases reply (h.1 hok)
  · next hno => exact returns_of_eq rfl (h.2 hno)

theorem sendArg_none {looks : ℕ} (hlooks : 0 < looks) (idx nargs : BitVec 8) (sent : Sent) :
    sendArg looks idx nargs sent none = .ok (mdsplusError, none) := by
  obtain ⟨looks, rfl⟩ := Nat.exists_eq_add_of_lt hlooks
  unfold sendArg findForArg
  split <;> rfl

theorem sendEach_none {looks : ℕ} (hlooks : 0 < looks) (nargs : BitVec 8) (i : ℕ)
    (as : List Descriptor) {r : Status × Listed} (hr : r.2 = none) :
    ∃ r', sendEach (fun i a => sendDsc looks (byte i) nargs a.serialized a.sent) i as r =
      .ok r' ∧ r'.2 = none := by
  induction as generalizing i r with
  | nil => exact ⟨r, rfl, hr⟩
  | cons a as ih =>
    obtain ⟨status, c⟩ := r
    obtain rfl : c = none := hr
    have hnone : ∃ r', sendDsc looks (byte i) nargs a.serialized a.sent none = .ok r' ∧
        r'.2 = none := by
      unfold sendDsc
      split
      · exact ⟨_, sendArg_none hlooks _ _ _, rfl⟩
      · exact ⟨_, rfl, rfl⟩
    obtain ⟨r', hsend, hr'⟩ := hnone
    rw [sendEach]
    split
    · rw [hsend]
      exact ih (i + 1) hr'
    · exact ⟨_, rfl, rfl⟩

theorem leaves_none {r : Status × Listed} (h : r.2 = none) : Leaves false r := by
  unfold Leaves
  rw [h]
  exact ⟨fun _ => holds_none false, fun _ => holds_none false⟩

theorem mdsValue_releases {looks : ℕ} (hlooks : 0 < looks) (args : List Sent) (reply : Reply)
    {c : Listed} (h : Holds false c)
    (has : c ≠ none →
      Releases (byte args.length) false 0 (args.map fun sent => ⟨mdsplusSuccess, sent⟩)) :
    Returns (mdsValue looks args reply c) fun r => Holds false r.2 := by
  have hsend : ∃ r marked, sendEach (fun i sent => sendArg looks (byte i) (byte args.length) sent)
      0 args (1, c) = .ok r ∧ Leaves marked r := by
    rw [sendEach_texts]
    by_cases hc : c = none
    · obtain ⟨r, hr, hnone⟩ := sendEach_none hlooks (byte args.length) 0
        (args.map fun sent => ⟨mdsplusSuccess, sent⟩) (r := (1, c)) hc
      exact ⟨r, false, hr, leaves_none hnone⟩
    · exact sendEach_leaves hlooks ⟨fun _ => h, fun _ => h⟩ fun _ => has hc
  obtain ⟨r, marked, hsend, hleaves⟩ := hsend
  rw [mdsValue, hsend]
  exact answered_releases reply hleaves

theorem sendDscs_leaves {looks : ℕ} (hlooks : 0 < looks) (q : Query) {c : Listed}
    (h : Holds false c)
    (hq : Releases (byte (q.args.length + 1)) false 0 (q.expression :: q.args)) :
    ∃ r marked, q.sendDscs looks c = .ok r ∧ Leaves marked r :=
  sendEach_leaves hlooks ⟨fun _ => h, fun _ => h⟩ fun _ => hq

theorem releases_of_marked {nargs : BitVec 8} {i : ℕ} {as : List Descriptor} (marked : Bool)
    (h : Releases nargs true i as) : Releases nargs marked i as := by
  induction as generalizing marked i with
  | nil => trivial
  | cons a as ih =>
    unfold Releases at h ⊢
    split at h
    · next hs =>
      obtain ⟨hstarts, hrest⟩ := h
      rw [if_pos hs]
      exact ⟨fun hm => hstarts ⟨rfl, hm.2⟩, fun hcomplete => ih _ (hrest hcomplete)⟩
    · cases h

/-- The first text marks the connection when it is sent. The second one is sent in any case. -/
theorem sendTexts_leaves {looks : ℕ} (hlooks : 0 < looks) (q : Query) {c : Listed}
    (h : Holds false c) (hq : c ≠ none → q.ReleasesTexts) :
    ∃ r marked, q.sendTexts looks c = .ok r ∧ Leaves marked r := by
  unfold Query.sendTexts
  by_cases hc : c = none
  · subst hc
    rw [sendArg_none hlooks]
    obtain ⟨r, hr, hnone⟩ := sendEach_none hlooks q.texts 2 q.args
      (rfl : (mdsplusError, (none : Listed)).2 = none)
    refine ⟨r, false, ?_, leaves_none hnone⟩
    change (sendArg looks 1 _ q.expression.sent none >>= _) = _
    rw [sendArg_none hlooks]
    exact hr
  · obtain ⟨hsecond, hargs⟩ := hq hc
    have hnone : ¬ ((false : Bool) = true ∧ Starts 0 q.texts) := nofun
    obtain ⟨r, hr, hleaves, hsent⟩ := sendArg_leaves hlooks q.wrapper h hnone
    rw [hr]
    -- The mark that the first text has left.
    obtain ⟨marked, hmarked, hcomplete⟩ :
        ∃ marked, Holds marked r.2 ∧ (marked = true → q.wrapper = .complete) := by
      by_cases hok : isOk r.1
      · exact ⟨_, hleaves.1 hok, fun _ => hsent hok⟩
      · exact ⟨false, hleaves.2 hok, nofun⟩
    obtain ⟨r1, hr1, hleaves1, hsent1⟩ := sendArg_leaves hlooks q.expression.sent hmarked
      fun hm => hsecond ⟨hcomplete hm.1, hm.2⟩
    change ∃ r' marked', (sendArg looks 1 _ q.expression.sent r.2 >>= _) = .ok r' ∧
      Leaves marked' r'
    rw [hr1]
    refine sendEach_leaves hlooks hleaves1 fun hok => ?_
    have hrest := hargs (hsent1 hok)
    cases marked with
    | true =>
      rw [decide_eq_true (hcomplete rfl)] at hrest
      exact hrest
    | false =>
      by_cases hw : q.wrapper = .complete
      · rw [decide_eq_true hw, Bool.true_or] at hrest
        exact releases_of_marked _ hrest
      · rw [decide_eq_false hw] at hrest
        exact hrest

theorem mdsIpGetDescriptor_releases {looks : ℕ} (q : Query) {marked : Bool} {c : Listed}
    {r : Status × Listed} (hsend : q.send looks c = .ok r) (hleaves : Leaves marked r) :
    Returns (mdsIpGetDescriptor looks q c) fun r => Holds false r.2 := by
  rw [mdsIpGetDescriptor, hsend]
  change Returns (if isOk r.1 then
    getAnswerInfoTO q.reply r.2 >>= fun a => .ok (if isOk a.1 then q.decoded else a.1, a.2)
    else .ok r) _
  split
  · next hok =>
    obtain ⟨hwaits, hpost⟩ := getAnswerInfoTO_releases q.reply (hleaves.1 hok)
    cases hanswer : getAnswerInfoTO q.reply r.2 with
    | error fault => 
      rw [hanswer] at hwaits
      exact ⟨hwaits, nofun⟩
    | ok a => exact returns_of_eq rfl (hpost a hanswer)
  · next hno => exact returns_of_eq rfl (hleaves.2 hno)

theorem sendMdsMsg_releases {looks : ℕ} (hlooks : 0 < looks) (m : Message) {sent : Sent}
    {c : Listed} (h : Holds false c) (hsent : c ≠ none → sent = .exhausted) :
    Returns (sendMdsMsg looks m sent c) fun r => Holds false r.2 := by
  rw [sendMdsMsg, findConnectionWithLock_idle hlooks conRequest (idle_of_holds h)]
  cases c with
  | none =>
    change Returns (if 0 < bodyLength m.h ∨ m.h.clientType = sendCapabilities then
      .error (.stops .overrun) else .ok (mdsplusSuccess, none)) _
    split
    · exact returns_stops .overrun
    · exact returns_of_eq rfl (holds_none false)
  | some conn =>
    rw [hsent nofun]
    exact returns_of_eq rfl (holds_none false)

theorem getMdsMsgTO_releases {looks : ℕ} (hlooks : 0 < looks) (reply : Reply) {c : Listed}
    (h : Holds false c) : Returns (getMdsMsgTO looks reply c) fun r => Holds false r.2 := by
  rw [getMdsMsgTO, findConnectionWithLock_idle hlooks conRecv (idle_of_holds h)]
  cases c with
  | none => exact returns_of_eq rfl (holds_none false)
  | some conn =>
    refine returns_of_eq rfl ?_
    simp only
    split
    · exact holds_none false
    · apply unlockConnection_state
      simp only [holds_some.mp h]
      decide

/-! ### Calls while a request is under way -/

theorem sendArg_waits (looks : ℕ) {conn : Conn} (h : Holds true (some conn)) {idx nargs : BitVec 8}
    (hstarts : Starts idx nargs) (sent : Sent) :
    sendArg looks idx nargs sent (some conn) = .error .waits := by
  rw [sendArg, findForArg, if_pos hstarts, findConnectionWithLock_marked looks conRequest h]
  rfl

theorem sendEach_error {α : Type} {send : ℕ → α → Listed → Except Fault (Status × Listed)}
    {a : α} {fault : Fault} (as : List α) {i : ℕ} {status : Status} {c : Listed}
    (hok : isOk status) (hsend : send i a c = .error fault) :
    sendEach send i (a :: as) (status, c) = .error fault := by
  rw [sendEach, if_pos hok, hsend]
  rfl

/-- Where a call leaves the connection. -/
def Left (op : Op) (r : Status × Listed) : Prop :=
  (∃ marked, Holds marked r.2) ∧ (op.continues r.1 = false → Holds false r.2)

theorem left_of_leaves {op : Op} {marked : Bool} {r : Status × Listed} (h : Leaves marked r)
    (hop : op.continues r.1 = isOk r.1) : Left op r := by
  unfold Left
  rw [hop]
  by_cases hok : isOk r.1
  · exact ⟨⟨marked, h.1 hok⟩, fun hno => absurd (hok.symm.trans hno) nofun⟩
  · exact ⟨⟨false, h.2 hok⟩, fun _ => h.2 hok⟩

theorem returns_left {op : Op} {x : Except Fault (Status × Listed)}
    (h : Returns x fun r => Holds false r.2) : Returns x (Left op) :=
  ⟨h.1, fun r hr => ⟨⟨false, h.2 r hr⟩, fun _ => h.2 r hr⟩⟩

theorem call_idle {looks : ℕ} (hlooks : 0 < looks) {c : Listed} {op : Op} (h : Holds false c)
    (hop : Allowed c op) : Returns (call looks c op) (Left op) := by
  have hidle := idle_of_holds h
  cases op with
  | sendArg idx nargs sent =>
    obtain ⟨r, hr, hleaves, -⟩ := sendArg_leaves hlooks sent h
      (fun hm : false = true ∧ Starts idx nargs => nomatch hm.1)
    exact returns_of_eq hr (left_of_leaves hleaves rfl)
  | sendDsc idx nargs serialized sent =>
    have hdsc : if isOk serialized then ¬ (false = true ∧ Starts idx nargs) else false = false := by
      split
      · exact fun hm => nomatch hm.1
      · rfl
    obtain ⟨r, hr, hleaves, -⟩ := sendDsc_leaves hlooks serialized sent h hdsc
    exact returns_of_eq hr (left_of_leaves hleaves rfl)
  | getAnswerInfoTO reply => exact returns_left (getAnswerInfoTO_releases reply h)
  | sendMdsMsg m sent =>
    exact returns_left (sendMdsMsg_releases hlooks m h fun hc => hop hc hidle)
  | getMdsMsgTO reply => exact returns_left (getMdsMsgTO_releases hlooks reply h)
  | mdsIpGetDescriptor q =>
    have hsend : ∃ r marked, q.send looks c = .ok r ∧ Leaves marked r := by
      have hq : q.ReleasesCalls _ := hop
      unfold Query.send
      unfold Query.ReleasesCalls at hq
      split at hq
      · next hserial =>
        rw [if_pos hserial]
        exact sendDscs_leaves hlooks q h (hq.1 hidle)
      · next hserial =>
        rw [if_neg hserial]
        exact sendTexts_leaves hlooks q h fun hc => hq hc hidle
    obtain ⟨r, marked, hsend, hleaves⟩ := hsend
    exact returns_left (mdsIpGetDescriptor_releases q hsend hleaves)
  | mdsValue args reply =>
    exact returns_left (mdsValue_releases hlooks args reply h fun hc => hop hc hidle)

theorem call_marked {looks : ℕ} (hlooks : 0 < looks) {conn : Conn} {op : Op}
    (h : Holds true (some conn)) (hop : Allowed (some conn) op) {r : Status × Listed}
    (hr : call looks (some conn) op = .ok r) : Left op r := by
  have hbusy := not_idle_of_holds h
  cases op with
  | sendArg idx nargs sent =>
    by_cases hs : Starts idx nargs
    · rw [call, sendArg_waits looks h hs] at hr
      cases hr
    · obtain ⟨r', hr', hleaves, -⟩ := sendArg_leaves hlooks sent h
        (fun hm : true = true ∧ Starts idx nargs => hs hm.2)
      cases hr'.symm.trans hr
      exact left_of_leaves hleaves rfl
  | sendDsc idx nargs serialized sent =>
    have hserialized := hop.resolve_right hbusy
    by_cases hs : Starts idx nargs
    · rw [call, sendDsc, if_pos hserialized, sendArg_waits looks h hs] at hr
      cases hr
    · obtain ⟨r', hr', hleaves, -⟩ := sendArg_leaves hlooks sent h
        (fun hm : true = true ∧ Starts idx nargs => hs hm.2)
      rw [call, sendDsc, if_pos hserialized] at hr
      cases hr'.symm.trans hr
      exact left_of_leaves hleaves rfl
  | getAnswerInfoTO reply => exact (returns_left (getAnswerInfoTO_releases reply h)).2 r hr
  | sendMdsMsg m sent =>
    rw [call, sendMdsMsg, findConnectionWithLock_marked looks conRequest h] at hr
    cases hr
  | getMdsMsgTO reply =>
    rw [call, getMdsMsgTO, findConnectionWithLock_marked looks conRecv h] at hr
    cases hr
  | mdsIpGetDescriptor q =>
    have hwaits : q.send looks (some conn) = .error .waits := by
      have hq : q.ReleasesCalls _ := hop
      unfold Query.send
      unfold Query.ReleasesCalls at hq
      split at hq
      · next hserial =>
        rw [if_pos hserial]
        refine sendEach_error q.args (by decide) ?_
        rw [sendDsc, if_pos (hq.2.resolve_right hbusy)]
        exact sendArg_waits looks h (.inl rfl) _
      · next hserial =>
        rw [if_neg hserial, Query.sendTexts, sendArg_waits looks h (.inl rfl)]
        rfl
    rw [call, mdsIpGetDescriptor, hwaits] at hr
    cases hr
  | mdsValue args reply =>
    cases args with
    | nil => exact (returns_left (getAnswerInfoTO_releases reply h)).2 r hr
    | cons sent args =>
      rw [call, mdsValue, sendEach_error args (by decide)
        (sendArg_waits looks h (.inl rfl) sent)] at hr
      cases hr

/-- The mark of a request is the only one, and none is left where no request is under way. -/
structure Inv (s : Client) : Prop where
  holds : ∃ marked, Holds marked s.conn
  idle : s.underWay = false → Holds false s.conn

theorem operate_inv {looks : ℕ} (hlooks : 0 < looks) {s s' : Client} {op : Op} (hs : Inv s)
    (hop : Allowed s.conn op) (h : operate looks s op = .ok s') : Inv s' := by
  unfold operate at h
  cases hcall : call looks s.conn op with
  | error fault =>
    rw [hcall] at h
    cases h
  | ok r =>
    rw [hcall] at h
    cases h
    have hleft : Left op r := by
      obtain ⟨conn, underWay⟩ := s
      obtain ⟨marked, hmarked⟩ := hs.holds
      cases marked with
      | false => exact (call_idle hlooks hmarked hop).2 r hcall
      | true =>
        cases conn with
        | none => exact (call_idle hlooks (holds_none false) hop).2 r hcall
        | some conn => exact call_marked hlooks hmarked hop hcall
    exact ⟨hleft.1, hleft.2⟩

/-- In every run of calls that release the connection, none is left marked when no request is
under way, and the next call does not wait. -/
theorem connection_released {looks : ℕ} (hlooks : 0 < looks) {messageId version : BitVec 8}
    {ops : List Op} {s : Client}
    (hadm : Admissible (operate looks) (fun s => Allowed s.conn) (connected messageId version) ops)
    (hrun : run (operate looks) (connected messageId version) ops = .ok s)
    (hended : s.underWay = false) :
    Idle s.conn ∧ ∀ op, Allowed s.conn op → operate looks s op ≠ .error .waits := by
  have hinv : Inv s := by
    refine run_preserves (fun _ _ _ hs hop h => operate_inv hlooks hs hop h) _ ops s ?_ hadm hrun
    have hstart : Holds false (connected messageId version).conn := holds_some.mpr rfl
    exact ⟨⟨false, hstart⟩, fun _ => hstart⟩
  have hidle := hinv.idle hended
  refine ⟨idle_of_holds hidle, fun op hop hwaits => ?_⟩
  obtain ⟨hno, -⟩ := call_idle hlooks hidle hop
  unfold operate at hwaits
  cases hcall : call looks s.conn op with
  | error fault =>
    rw [hcall] at hwaits hno
    cases hwaits
    exact hno rfl
  | ok r =>
    rw [hcall] at hwaits
    cases hwaits

/-! ### Two arguments of a request -/

def emptyAnswer : Reply :=
  { status := mdsplusSuccess
    msg := some
      { h :=
          { msglen := 48
            status := 1
            length := 0
            nargs := 1
            descriptorIdx := 0
            messageId := 1
            dtype := 0
            clientType := ieeeClient
            ndims := 0
            dims := Vector.replicate 8 0 }
        bytes := [] } }

/-- The second argument cannot be sent, and a text is then sent and answered. -/
def unsent : List Op :=
  [.sendDsc 0 2 mdsplusSuccess .complete, .sendDsc 1 2 mdsplusSuccess .failed,
    .mdsValue [.complete] emptyAnswer]

theorem unsent_allowed :
    Admissible (operate 1) (fun s => Allowed s.conn) (connected 0 3) unsent := by
  refine ⟨.inl (by decide), fun s1 h1 => ⟨.inl (by decide), fun s2 h2 => ⟨?_, fun _ _ => trivial⟩⟩⟩
  change s2.conn ≠ none → Idle s2.conn → Releases 1 false 0 [⟨mdsplusSuccess, .complete⟩]
  intro _ _
  rw [Releases, if_pos (by decide)]
  exact ⟨fun hm => Bool.false_ne_true hm.1, fun _ => trivial⟩

theorem connection_released_unsent :
    ∃ s, run (operate 1) (connected 0 3) unsent = .ok s ∧
      Idle s.conn ∧ ∀ op, Allowed s.conn op → operate 1 s op ≠ .error .waits :=
  ⟨_, rfl, connection_released (by decide) unsent_allowed rfl rfl⟩

/-- The second argument fails to be serialized. -/
theorem unserialized_marked :
    ¬ ∀ looks ops s, 0 < looks → run (operate looks) (connected 0 3) ops = .ok s →
      s.underWay = false → Idle s.conn := by
  intro hall
  have hidle := hall 1 [.sendDsc 0 2 mdsplusSuccess .complete,
    .sendDsc 1 2 mdsplusError .complete] _ (by decide) rfl rfl
  exact hidle _ rfl (by decide)

end MdsPlus.ConnectionLocks
