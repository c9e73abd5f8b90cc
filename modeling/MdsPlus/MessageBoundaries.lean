import MdsPlus.MessageAnswers
import MdsPlus.Outcome

/-!
Sequences of receives on one connection. Messages follow each other on the stream, each
header giving the length of its message. A receive that is stopped after it has taken
bytes, and does not close the connection, leaves the next one in the middle of a message.
-/

namespace MdsPlus.MessageBoundaries

open BitMemory MessageHeaders MessageStream MessageAnswers

inductive Call
  | getMdsMsgTO
  | getAnswerInfoTO
deriving DecidableEq

structure Receive where
  call : Call
  answers : List Recv

/-- The bytes taken from the stream, whether the connection is still there, and where the
messages that were handed out start. -/
structure Reading where
  pos : ℕ
  closed : Bool
  starts : List ℕ
deriving DecidableEq

def connected : Reading := ⟨0, false, []⟩

def advanceBy {α : Type} (st : Reading) (x : Handed α) : Reading :=
  ⟨st.pos + x.taken, x.closes, if x.value.isSome then st.pos :: st.starts else st.starts⟩

/-- A receive on the connection; without one the call only returns an error. -/
def receive (r : Receiver) (stream : ℕ → Byte) (st : Reading) (op : Receive) :
    Except Stop Reading :=
  if st.closed then .ok st
  else
    match op.call with
    | .getMdsMsgTO => (getMdsMsgTO r stream st.pos op.answers).map (advanceBy st)
    | .getAnswerInfoTO => (getAnswerInfoTO r stream st.pos op.answers).map (advanceBy st)

inductive Boundary (host : Big) (stream : ℕ → Byte) : ℕ → Prop
  | start : Boundary host stream 0
  | next {p : ℕ} : Boundary host stream p → badHeader (headerAt host stream p) = false →
      Boundary host stream (p + headerSize + bodyLength (headerAt host stream p))

/-! ### How a receive is stopped -/

/-- The first answer that is not bytes while fewer than `n` bytes have been given, with the
number of those given. -/
def stopsAt : ℕ → List Recv → Option (ℕ × Recv)
  | 0, _ => none
  | _ + 1, [] => none
  | n + 1, .bytes k :: answers =>
      (stopsAt (n - k) answers).map fun p => (min (k + 1) (n + 1) + p.1, p.2)
  | _ + 1, a :: _ => some (0, a)

/-- The answers after those that give the first `n` bytes. -/
def answersAfter : ℕ → List Recv → List Recv
  | 0, answers => answers
  | _ + 1, [] => []
  | n + 1, .bytes k :: answers => answersAfter (n - k) answers
  | _ + 1, _ :: answers => answers

/-- No bytes, or an error that is neither a timeout nor an interrupt. -/
def breaks : Recv → Bool
  | .bytes _ => false
  | .empty => true
  | .failed .etimedout => false
  | .failed .eintr => false
  | .failed _ => true

def undivided (r : Receiver) (stream : ℕ → Byte) (st : Reading) (op : Receive) : Bool :=
  match stopsAt headerSize op.answers with
  | some (got, a) => got == 0 || breaks a
  | none =>
      badHeader (headerAt r.big stream st.pos) ||
        (stopsAt (bodyLength (headerAt r.big stream st.pos))
          (answersAfter headerSize op.answers)).isNone

theorem getBytesTo_stopsAt {n : ℕ} {answers : List Recv} {status : Status} {got : ℕ}
    {rest : List Recv} (h : getBytesTo n answers = some (status, got, rest)) :
    match stopsAt n answers with
    | some (got', a) => got = got' ∧ (status = ssInternal ↔ breaks a) ∧ isOk status = breaks a
    | none => got = n ∧ status = mdsplusSuccess ∧ rest = answersAfter n answers := by
  induction answers generalizing n got with
  | nil =>
    cases n with
    | zero =>
      cases h
      exact ⟨rfl, rfl, rfl⟩
    | succ n => cases h
  | cons a answers ih =>
    cases n with
    | zero =>
      cases h
      exact ⟨rfl, rfl, rfl⟩
    | succ n =>
      cases a with
      | bytes k =>
        have hleft : n + 1 - min (k + 1) (n + 1) = n - k := by omega
        simp only [getBytesTo, hleft, Option.map_eq_some_iff, Prod.mk.injEq] at h
        obtain ⟨⟨status', got', rest'⟩, hrest, rfl, rfl, rfl⟩ := h
        have hprev := ih hrest
        simp only [stopsAt, answersAfter]
        cases hs : stopsAt (n - k) answers with
        | none =>
          rw [hs] at hprev
          obtain ⟨hgot, hstatus, hafter⟩ := hprev
          exact ⟨by omega, hstatus, hafter⟩
        | some p =>
          rw [hs] at hprev
          obtain ⟨hgot, hstatus⟩ := hprev
          exact ⟨by omega, hstatus⟩
      | empty =>
        cases h
        exact ⟨rfl, by decide, by decide⟩
      | failed errno =>
        cases h
        refine ⟨rfl, ?_, ?_⟩ <;> cases errno <;> decide

/-- What reading an undivided message does to the stream and the connection: it closes the
connection, takes nothing, or takes the whole message. -/
inductive Reads (r : Receiver) (stream : ℕ → Byte) (pos : ℕ) (x : Received) : Prop
  | broken : closesConnection x = true → x.msg = none → Reads r stream pos x
  | nothing : x.taken = 0 → x.msg = none → Reads r stream pos x
  | whole : badHeader (headerAt r.big stream pos) = false →
      x.taken = headerSize + bodyLength (headerAt r.big stream pos) →
      closesConnection x = false → Reads r stream pos x

theorem getMdsMsgTOC_reads {r : Receiver} {stream : ℕ → Byte} {st : Reading} {op : Receive}
    {x : Received} (hu : undivided r stream st op)
    (h : getMdsMsgTOC r stream st.pos op.answers = .ok x) : Reads r stream st.pos x := by
  unfold getMdsMsgTOC at h
  cases hget : getBytesTo headerSize op.answers with
  | none =>
    rw [hget] at h
    cases h
  | some p =>
    obtain ⟨status, got, rest⟩ := p
    have hstop := getBytesTo_stopsAt hget
    rw [hget] at h
    unfold undivided at hu
    cases hs : stopsAt headerSize op.answers with
    | some p =>
      rw [hs] at hstop hu
      obtain ⟨hgot, hinternal, hok⟩ := hstop
      have hearly : ¬ isOk status = true ∨ status = ssInternal := by
        by_cases hb : breaks p.2 = true
        · exact .inr (hinternal.mpr hb)
        · exact .inl (by rwa [hok])
      simp only [if_pos hearly] at h
      cases h
      rcases Bool.or_eq_true_iff.mp hu with hzero | hbreaks
      · exact .nothing (hgot.trans (beq_iff_eq.mp hzero)) rfl
      · refine .broken ?_ rfl
        rw [hinternal.mpr hbreaks]
        rfl
    | none =>
      rw [hs] at hstop hu
      obtain ⟨rfl, rfl, rfl⟩ := hstop
      have hnot : ¬ (¬ isOk mdsplusSuccess = true ∨ mdsplusSuccess = ssInternal) := by decide
      simp only [if_neg hnot] at h
      split at h
      · cases h
        exact .broken rfl rfl
      · rename_i hgood
        have hwhole := Option.isNone_iff_eq_none.mp
          ((Bool.or_eq_true_iff.mp hu).resolve_left hgood)
        cases hbody : getBytesTo (bodyLength (headerAt r.big stream st.pos))
            (answersAfter headerSize op.answers) with
        | none =>
          rw [hbody] at h
          cases h
        | some q =>
          obtain ⟨status, body, rest⟩ := q
          have hstop := getBytesTo_stopsAt hbody
          rw [hwhole] at hstop
          obtain ⟨rfl, -, -⟩ := hstop
          rw [hbody] at h
          dsimp only at h
          split at h
          · cases h
          · cases h
            exact .whole (by simpa using hgood) rfl rfl

/-- Every message handed out so far starts at a boundary, and so does the next one. -/
structure Aligned (r : Receiver) (stream : ℕ → Byte) (st : Reading) : Prop where
  starts : ∀ p ∈ st.starts, Boundary r.big stream p
  next : st.closed = false → Boundary r.big stream st.pos

theorem Aligned.advanceBy {r : Receiver} {stream : ℕ → Byte} {st : Reading} {x : Received}
    {α : Type} {y : Handed α} (hst : Aligned r stream st) (hopen : st.closed = false)
    (hreads : Reads r stream st.pos x) (htaken : y.taken = x.taken)
    (hcloses : y.closes = closesConnection x) : Aligned r stream (advanceBy st y) := by
  have hhere := hst.next hopen
  constructor
  · intro p hp
    change p ∈ (if y.value.isSome then st.pos :: st.starts else st.starts) at hp
    split at hp
    · rcases List.mem_cons.mp hp with rfl | hp
      · exact hhere
      · exact hst.starts p hp
    · exact hst.starts p hp
  · intro hstill
    change y.closes = false at hstill
    change Boundary r.big stream (st.pos + y.taken)
    rw [htaken]
    cases hreads with
    | broken hclosed _ =>
      rw [hcloses, hclosed] at hstill
      cases hstill
    | nothing hzero _ =>
      rw [hzero]
      exact hhere
    | whole hgood hsize _ =>
      rw [hsize, ← Nat.add_assoc]
      exact .next hhere hgood

theorem receive_aligned {r : Receiver} {stream : ℕ → Byte} (st : Reading) (op : Receive)
    (st' : Reading) (hst : Aligned r stream st) (hu : undivided r stream st op)
    (h : receive r stream st op = .ok st') : Aligned r stream st' := by
  unfold receive at h
  split at h
  · cases h
    exact hst
  · rename_i hopen
    have hopen : st.closed = false := by simpa using hopen
    cases hc : op.call with
    | getMdsMsgTO =>
      simp only [hc] at h
      unfold getMdsMsgTO at h
      cases hget : getMdsMsgTOC r stream st.pos op.answers with
      | error stop =>
        rw [hget] at h
        cases h
      | ok x =>
        rw [hget] at h
        cases h
        exact hst.advanceBy hopen (getMdsMsgTOC_reads hu hget) rfl rfl
    | getAnswerInfoTO =>
      simp only [hc] at h
      unfold getAnswerInfoTO at h
      cases hget : getMdsMsgTOC r stream st.pos op.answers with
      | error stop =>
        rw [hget] at h
        cases h
      | ok x =>
        rw [hget] at h
        have hreads := getMdsMsgTOC_reads hu hget
        dsimp only at h
        split at h
        · cases hm : x.msg with
          | none =>
            rw [hm] at h
            cases h
          | some m =>
            rw [hm] at h
            cases hinfo : answerInfo m with
            | error stop =>
              simp only [hinfo] at h
              cases h
            | ok info =>
              simp only [hinfo] at h
              cases info with
              | none =>
                cases h
                exact hst.advanceBy hopen hreads rfl rfl
              | some info =>
                cases h
                exact hst.advanceBy hopen hreads rfl rfl
        · cases h
          exact hst.advanceBy hopen hreads rfl rfl

/-- As long as no receive is stopped inside a message without closing the connection, every
message that is handed out starts at a boundary of the stream. -/
theorem starts_at_boundaries {r : Receiver} {stream : ℕ → Byte} (ops : List Receive)
    {st : Reading}
    (hops : Outcome.Admissible (receive r stream) (fun st op => undivided r stream st op) connected
      ops)
    (hrun : Outcome.run (receive r stream) connected ops = .ok st) :
    ∀ p ∈ st.starts, Boundary r.big stream p := by
  have hstart : Aligned r stream connected := ⟨nofun, fun _ => .start⟩
  have haligned : Aligned r stream st :=
    Outcome.run_preserves receive_aligned connected ops st hstart hops hrun
  exact haligned.starts

/-! ### Two messages -/

def littleReceiver : Receiver := ⟨false, fun _ _ => none, fun _ => 0, []⟩

/-- A header of an IEEE client for a body of `n` bytes. -/
def bodyHeader (n : ℕ) : MsgHdr :=
  { msglen := BitVec.ofNat 32 (headerSize + n), status := 1, length := 1, nargs := 0,
    descriptorIdx := 0, messageId := 1, dtype := 2, clientType := ieeeClient, ndims := 1,
    dims := (Vector.replicate 8 0).set 0 (BitVec.ofNat 32 n) dims_pos }

def headerInBody : ℕ → Byte := fun i =>
  (headerImage false (bodyHeader headerSize) ++ headerImage false (bodyHeader 0)).getD i 0

/-- A timeout before the message, and then the message in two chunks. -/
def wholeReceives : List Receive :=
  [⟨.getMdsMsgTO, [.failed .etimedout]⟩,
    ⟨.getAnswerInfoTO, [.bytes 9, .bytes 99, .bytes 99]⟩]

theorem wholeReceives_start :
    ∃ st, Outcome.run (receive littleReceiver headerInBody) connected wholeReceives = .ok st ∧
      st.starts = [0] ∧ ∀ p ∈ st.starts, Boundary false headerInBody p := by
  have hfirst : receive littleReceiver headerInBody connected
      ⟨.getMdsMsgTO, [.failed .etimedout]⟩ = .ok connected := rfl
  refine ⟨⟨96, false, [0]⟩, rfl, rfl, ?_⟩
  refine starts_at_boundaries (r := littleReceiver) wholeReceives ⟨by decide, ?_⟩ rfl
  intro s' hs'
  obtain rfl := Except.ok.inj (hs'.symm.trans hfirst)
  exact ⟨by decide, fun _ _ => trivial⟩

/-- The connection gives nothing for a second after the header of the message. -/
def dividedReceives : List Receive :=
  [⟨.getMdsMsgTO, [.bytes 99, .empty]⟩, ⟨.getMdsMsgTO, [.bytes 99]⟩]

theorem boundary_headerInBody {p : ℕ} (h : Boundary false headerInBody p) : p = 0 ∨ 96 ≤ p := by
  induction h with
  | start => exact .inl rfl
  | next _ _ ih =>
    right
    rcases ih with rfl | hp
    · decide
    · omega

/-- The body of the message is handed out as another message. -/
theorem dividedReceives_start :
    ¬ ∀ r stream ops st, Outcome.run (receive r stream) connected ops = .ok st →
      ∀ p ∈ st.starts, Boundary r.big stream p := by
  intro hall
  have hstart := hall littleReceiver headerInBody dividedReceives ⟨96, false, [48, 0]⟩ rfl 48
    (by decide)
  have := boundary_headerInBody hstart
  omega

end MdsPlus.MessageBoundaries
