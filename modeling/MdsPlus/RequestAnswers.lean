import MdsPlus.ArgumentHistory

/-!
Requests of several arguments and the answers to them. The client sends the arguments of a
request one after the other under one id and does not compare ids when it reads an answer,
so the server has to send one answer for each request.
-/

namespace MdsPlus.RequestAnswers

open BitMemory MessageHeaders MessageBodies MessageStream ArgumentTable ArgumentHistory Outcome

structure Argument where
  dtype : BitVec 8
  length : BitVec 16
  ndims : BitVec 8
  dims : Vector (BitVec 32) 8
  bytes : List Byte

def sendArg (client messageId nargs idx : BitVec 8) (a : Argument) : Message :=
  { h :=
      { msglen := 48 + BitVec.ofNat 32 a.bytes.length
        status := 0
        length := a.length
        nargs := nargs
        descriptorIdx := idx
        messageId := messageId
        dtype := a.dtype
        clientType := client
        ndims := a.ndims
        dims := a.dims }
    bytes := a.bytes }

def sendDsc (serialized : List Byte) : Argument :=
  { dtype := dtypeSerial
    length := 1
    ndims := 1
    dims := (Vector.replicate 8 0).set 0 (BitVec.ofNat 32 serialized.length) dims_pos
    bytes := serialized }

def incMessageId (messageId : BitVec 8) : BitVec 8 :=
  if messageId + 1 = 0 then 1 else messageId + 1

structure Request where
  args : List Argument
  nonempty : args ≠ []
  fits : args.length ≤ 255

def sendFrom (client messageId nargs : BitVec 8) : ℕ → List Argument → List Message
  | _, [] => []
  | i, a :: as =>
      sendArg client messageId nargs (BitVec.ofNat 8 i) a ::
        sendFrom client messageId nargs (i + 1) as

/-- The messages of the requests that follow the `k`-th, each with the number of its request. -/
def sentFrom (client : BitVec 8) : BitVec 8 → ℕ → List Request → List (ℕ × Message)
  | _, _, [] => []
  | messageId, k, r :: rs =>
      (sendFrom client (incMessageId messageId) (BitVec.ofNat 8 r.args.length) 0 r.args).map
          (Prod.mk k) ++
        sentFrom client (incMessageId messageId) (k + 1) rs

def isAnswer : Event → Bool
  | .evaluated .. => false
  | .answered => true

def answers (events : List Event) : ℕ := events.countP isAnswer

/-- The connection after a message, and the answers sent, each with the number of the request
that it was sent for. -/
def answer (host : Host) (p : Connection × List ℕ) (q : ℕ × Message) :
    Except Stop (Connection × List ℕ) :=
  (processMessage host p.1 q.2).map
    fun r => (r.1, p.2 ++ List.replicate (answers r.2) q.1)

def InStep (host : Host) (client : BitVec 8) (requests : List Request) : Prop :=
  ∃ c, run (answer host) (newConnection, []) (sentFrom client 0 0 requests) =
    .ok (c, List.range requests.length)

/-! ### Requests that are answered once -/

def ArgDecodes (host : Host) (client : BitVec 8) (a : Argument) : Prop :=
  Decodes host (sendArg client 0 0 0 a)

instance (host : Host) (client : BitVec 8) (a : Argument) : Decidable (ArgDecodes host client a) :=
  inferInstanceAs (Decidable (Decodes _ _))

def Sized (client : BitVec 8) (a : Argument) : Prop :=
  a.dtype = dtypeSerial ∨ (dataSize (allocate (sendArg client 0 0 0 a).h)).msb = false

instance (client : BitVec 8) (a : Argument) : Decidable (Sized client a) :=
  inferInstanceAs (Decidable (_ ∨ _))

def argTable (host : Host) (client : BitVec 8) (args : List Argument) (i : BitVec 8) :
    Option Dsc :=
  args[i.toNat]?.bind fun a => decoded host (sendArg client 0 0 i a)

/-- A request for an event brings what it needs. -/
def Complete (host : Host) (client : BitVec 8) (args : List Argument) : Prop :=
  ∀ d, argTable host client args 0 = some d →
    ready host { newConnection with clientType := client, table := argTable host client args } d

/-- The messages from an argument on can all be processed, and the evaluation that the last one
leads to stays in its memory. -/
def Completes (host : Host) (client : BitVec 8) (args rest : List Argument) : Prop :=
  (∀ a ∈ rest, Sized client a) ∧
    ((∀ a ∈ rest.getLast?, ArgDecodes host client a) → Complete host client (args ++ rest))

/-- A request of at most 254 arguments, of which all but the last one decode. -/
structure Answerable (host : Host) (client : BitVec 8) (r : Request) : Prop where
  few : r.args.length ≤ 254
  decodes : ∀ a ∈ r.args.dropLast, ArgDecodes host client a
  completes : Completes host client [] r.args

/-! ### An argument -/

theorem allocate_cls (h : MsgHdr) : (allocate h).cls ≠ .other := by
  unfold allocate
  split <;> exact nofun

theorem store_none {host : Host} {m : Message}
    (h : Serial m.h ∨ (dataSize (allocate m.h)).msb = false) :
    store host none m = .ok (decoded host m, decide (Decodes host m)) := by
  suffices hstore : ∃ slot, store host none m = .ok (slot, decide (Decodes host m)) by
    obtain ⟨slot, hslot⟩ := hstore
    rw [decoded, hslot]
  unfold store
  by_cases hserial : Serial m.h
  · rw [if_pos hserial]
    cases hin : host.serializeDscIn m.bytes with
    | error status =>
      have hdec : ¬ Decodes host m := by
        intro hok
        have := hok hserial
        rw [hin] at this
        cases this
      exact ⟨none, by rw [decide_eq_false hdec]⟩
    | ok d =>
      have hdec : Decodes host m := by
        intro _
        rw [hin]
        rfl
      exact ⟨some (marked m.h d), by rw [decide_eq_true hdec]⟩
  · have hdec : Decodes host m := fun hs => absurd hs hserial
    have hsize : ¬ ((allocate m.h).cls = .other ∨ (dataSize (allocate m.h)).msb) := by
      rintro (hcls | hneg)
      · exact allocate_cls m.h hcls
      · rw [h.resolve_left hserial] at hneg
        cases hneg
    rw [if_neg hserial, Option.getD_none, fill, if_neg hsize, decide_eq_true hdec]
    exact ⟨_, rfl⟩

theorem store_none_error {host : Host} {m : Message}
    (h : ¬ (Serial m.h ∨ (dataSize (allocate m.h)).msb = false)) :
    store host none m = .error .overrun := by
  rw [not_or, Bool.not_eq_false] at h
  rw [store, if_neg h.1, Option.getD_none, fill, if_pos (.inr h.2)]
  rfl

section Receiving

variable {host : Host} {client messageId nargs : BitVec 8} {c : Connection}

/-- The server has taken in the first arguments of a request, and no others with its id. -/
def Receiving (host : Host) (client messageId : BitVec 8) (c : Connection)
    (args : List Argument) : Prop :=
  if c.messageId = messageId then c.table = argTable host client args else args = []

theorem argTable_of_le {args : List Argument} {i : BitVec 8} (h : args.length ≤ i.toNat) :
    argTable host client args i = none := by
  rw [argTable, List.getElem?_eq_none h, Option.bind_none]

theorem argTable_append {args : List Argument} (a : Argument) (h : args.length < 256) :
    argTable host client (args ++ [a]) =
      Function.update (argTable host client args) (BitVec.ofNat 8 args.length)
        (decoded host (sendArg client messageId nargs (BitVec.ofNat 8 args.length) a)) := by
  have hlength : (BitVec.ofNat 8 args.length).toNat = args.length := by
    rw [BitVec.toNat_ofNat]
    exact Nat.mod_eq_of_lt h
  funext i
  by_cases hi : i = BitVec.ofNat 8 args.length
  · subst hi
    rw [Function.update_self, argTable, hlength, List.getElem?_concat_length, Option.bind_some]
    rfl
  · have hne : i.toNat ≠ args.length := fun he => hi (by rw [← he, BitVec.ofNat_toNat,
      BitVec.setWidth_eq])
    rw [Function.update_of_ne hi, argTable, argTable]
    by_cases hlt : i.toNat < args.length
    · rw [List.getElem?_append_left hlt]
    · rw [List.getElem?_eq_none (by simp; omega), List.getElem?_eq_none (by omega)]

theorem begun_receiving {args : List Argument} (h : Receiving host client messageId c args)
    (idx : BitVec 8) (a : Argument) :
    (begun c (sendArg client messageId nargs idx a)).table = argTable host client args := by
  unfold Receiving at h
  unfold begun
  by_cases hid : c.messageId = messageId
  · rw [if_pos hid] at h
    have hold : ¬ Fresh c (sendArg client messageId nargs idx a) := not_not.mpr hid
    rw [if_neg hold, h]
  · rw [if_neg hid] at h
    have hfresh : Fresh c (sendArg client messageId nargs idx a) := hid
    rw [if_pos hfresh, h]
    rfl

theorem filled_argTable {args : List Argument} (h : Receiving host client messageId c args)
    (nargs : BitVec 8) (a : Argument) (hlen : args.length < 256) {m : Message}
    (hm : m = sendArg client messageId nargs (BitVec.ofNat 8 args.length) a) :
    (filled c m (decoded host m)).table = argTable host client (args ++ [a]) := by
  subst hm
  rw [argTable_append a hlen, ← begun_receiving h]
  rfl

theorem receiving_filled {args : List Argument} (h : Receiving host client messageId c args)
    (nargs : BitVec 8) (a : Argument) (hlen : args.length < 256) {m : Message}
    (hm : m = sendArg client messageId nargs (BitVec.ofNat 8 args.length) a) :
    Receiving host client messageId (filled c m (decoded host m)) (args ++ [a]) := by
  have hid : (filled c m (decoded host m)).messageId = messageId := by
    subst hm
    exact begun_messageId c _
  rw [Receiving, if_pos hid]
  exact filled_argTable h nargs a hlen hm

theorem toNat_ofNat_of_le {n : ℕ} (h : n ≤ 255) : (BitVec.ofNat 8 n).toNat = n := by
  rw [BitVec.toNat_ofNat]
  omega

theorem isArgument_sendArg {i total : ℕ} {a : Argument} (hi : i < total) (htotal : total ≤ 255) :
    IsArgument (sendArg client messageId (BitVec.ofNat 8 total) (BitVec.ofNat 8 i) a).h := by
  change BitVec.ofNat 8 i < BitVec.ofNat 8 total
  rw [BitVec.lt_def, toNat_ofNat_of_le htotal, toNat_ofNat_of_le (by omega)]
  exact hi

theorem tooMany_sendArg {idx : BitVec 8} {total : ℕ} {a : Argument} (htotal : total ≤ 255) :
    TooMany (sendArg client messageId (BitVec.ofNat 8 total) idx a) ↔ total = 255 := by
  change (255 : BitVec 8) ≤ BitVec.ofNat 8 total ↔ total = 255
  have hbound : (255 : BitVec 8).toNat = 255 := by decide
  rw [BitVec.le_def, hbound, toNat_ofNat_of_le htotal]
  omega

theorem processMessage_next {args : List Argument} {total : ℕ} (a : Argument)
    (h : Receiving host client messageId c args) (hidx : args.length < total)
    (htotal : total ≤ 254) {m : Message}
    (hm : m = sendArg client messageId (BitVec.ofNat 8 total) (BitVec.ofNat 8 args.length) a) :
    processMessage host c m =
      if ¬ Sized client a then .error .overrun
      else if ¬ ArgDecodes host client a then .ok (filled c m (decoded host m), [.answered])
      else if args.length + 1 = total then executeMessage host (filled c m (decoded host m))
      else .ok (filled c m (decoded host m), []) := by
  have hlength : (BitVec.ofNat 8 args.length).toNat = args.length := toNat_ofNat_of_le (by omega)
  have harg : IsArgument m.h := by
    rw [hm]
    exact isArgument_sendArg hidx (by omega)
  have hmany : ¬ TooMany m := by
    rw [hm, tooMany_sendArg (by omega)]
    omega
  have hlast : IsLast m.h ↔ args.length + 1 = total := by
    rw [hm]
    change (BitVec.ofNat 8 args.length).toNat + 1 = (BitVec.ofNat 8 total).toNat ↔ _
    rw [hlength, toNat_ofNat_of_le (by omega)]
  have hempty : (begun c m).table m.h.descriptorIdx = none := by
    rw [hm, begun_receiving h]
    exact argTable_of_le hlength.ge
  have hdec : Decodes host m ↔ ArgDecodes host client a := by
    rw [hm]
    rfl
  rw [processMessage, if_pos harg, standardCommand, if_neg fun hf => hmany hf.2, hempty]
  by_cases hsized : Sized client a
  · have hsizes : Serial m.h ∨ (dataSize (allocate m.h)).msb = false := by
      rw [hm]
      exact hsized
    rw [store_none hsizes, if_neg (not_not.mpr hsized)]
    by_cases hd : ArgDecodes host client a
    · rw [decide_eq_true (hdec.mpr hd), if_neg (not_not.mpr hd)]
      by_cases hl : args.length + 1 = total
      · rw [if_pos hl]
        exact if_pos (hlast.mpr hl)
      · rw [if_neg hl]
        exact if_neg (hl ∘ hlast.mp)
    · rw [decide_eq_false (hd ∘ hdec.mp), if_pos hd]
      rfl
  · have hsizes : ¬ (Serial m.h ∨ (dataSize (allocate m.h)).msb = false) := by
      rw [hm]
      exact hsized
    rw [store_none_error hsizes, if_pos hsized]

theorem executeMessage_answers {args : List Argument} (hclient : cType client ≠ javaClient)
    {c : Connection} (hc : c.clientType = client) (ht : c.table = argTable host client args) :
    (Complete host client args ∧
      ∃ events, executeMessage host c = .ok (freeDescriptors c, events) ∧ answers events = 1) ∨
    (¬ Complete host client args ∧ executeMessage host c = .error .overrun) := by
  unfold Complete
  rw [← ht]
  unfold executeMessage execute
  cases h0 : c.table 0 with
  | none => exact .inl ⟨nofun, _, rfl, rfl⟩
  | some d =>
    have hready : ready host { newConnection with clientType := client, table := c.table } d =
        ready host c d := by
      rw [← hc]
      rfl
    by_cases hr : ready host c d
    · refine .inl ⟨fun d' hd' => ?_, _, by simp only [if_pos hr]; rfl, ?_⟩
      · cases hd'
        rw [hready]
        exact hr
      · have hanswer : eventAnswer c = [.answered] := by rw [eventAnswer, hc, if_neg hclient]
        unfold answersTo
        cases host.kind d with
        | command => rfl
        | eventAst => simp only [hanswer]; rfl
        | eventCan => simp only [hanswer]; rfl
    · refine .inr ⟨fun hall => hr ?_, by simp only [if_neg hr]; rfl⟩
      rw [← hready]
      exact hall d rfl

/-- The number of arguments before the last one that do not decode. -/
def failures (host : Host) (client : BitVec 8) (args : List Argument) : ℕ :=
  args.dropLast.countP fun a => ¬ ArgDecodes host client a

def tagged (k : ℕ) (ms : List Message) : List (ℕ × Message) := ms.map (Prod.mk k)

theorem completes_cons {args rest : List Argument} {a : Argument} (hrest : rest ≠ []) :
    Completes host client args (a :: rest) ↔
      Sized client a ∧ Completes host client (args ++ [a]) rest := by
  have hlast : (a :: rest).getLast? = rest.getLast? := by
    obtain ⟨b, rest, rfl⟩ := List.exists_cons_of_ne_nil hrest
    exact List.getLast?_cons_cons
  rw [Completes, Completes, List.forall_mem_cons, hlast, List.append_assoc, and_assoc]
  rfl

theorem failures_cons {rest : List Argument} {a : Argument} (hrest : rest ≠ []) :
    failures host client (a :: rest) =
      failures host client rest + if ¬ ArgDecodes host client a then 1 else 0 := by
  rw [failures, failures, List.dropLast_cons_of_ne_nil hrest, List.countP_cons]
  simp only [decide_eq_true_eq]

theorem run_answer {m : Message} {r : Connection × List Event}
    (h : processMessage host c m = .ok r) (tags : List ℕ) (k : ℕ) (ms : List (ℕ × Message)) :
    run (answer host) (c, tags) ((k, m) :: ms) =
      run (answer host) (r.1, tags ++ List.replicate (answers r.2) k) ms := by
  rw [run, answer, h]
  rfl

theorem run_answer_error {m : Message} {stop : Stop} (h : processMessage host c m = .error stop)
    (tags : List ℕ) (k : ℕ) (ms : List (ℕ × Message)) :
    run (answer host) (c, tags) ((k, m) :: ms) = .error stop := by
  rw [run, answer, h]
  rfl

theorem run_last (hclient : cType client ≠ javaClient) {args : List Argument} {a : Argument}
    {total : ℕ} (htotal : args.length + 1 = total) (hfew : total ≤ 254)
    (h : Receiving host client messageId c args) (k : ℕ) (tags tags' : List ℕ) :
    (∃ c', run (answer host) (c, tags) (tagged k (sendFrom client messageId
        (BitVec.ofNat 8 total) args.length [a])) = .ok (c', tags')) ↔
      Completes host client args [a] ∧ tags' = tags ++ [k] := by
  have hnext := processMessage_next a h (by omega) hfew rfl
  have hcompletes : Completes host client args [a] ↔
      Sized client a ∧ (ArgDecodes host client a → Complete host client (args ++ [a])) := by
    rw [Completes, List.forall_mem_singleton, List.getLast?_singleton]
    simp only [Option.mem_some, forall_eq']
  rw [hcompletes, tagged, sendFrom, List.map_cons]
  by_cases hsized : Sized client a
  · rw [if_neg (not_not.mpr hsized)] at hnext
    by_cases hdec : ArgDecodes host client a
    · rw [if_neg (not_not.mpr hdec), if_pos htotal] at hnext
      have htable := filled_argTable h (BitVec.ofNat 8 total) a (by omega) rfl
      obtain ⟨hcomplete, events, hexec, hcount⟩ | ⟨hcomplete, hexec⟩ :=
        executeMessage_answers hclient rfl htable
      · rw [run_answer (hnext.trans hexec), hcount]
        constructor
        · rintro ⟨c', hrun⟩
          cases hrun
          exact ⟨⟨hsized, fun _ => hcomplete⟩, rfl⟩
        · rintro ⟨-, rfl⟩
          exact ⟨_, rfl⟩
      · rw [run_answer_error (hnext.trans hexec)]
        constructor
        · exact nofun
        · exact fun hall => absurd (hall.1.2 hdec) hcomplete
    · rw [if_pos hdec] at hnext
      rw [run_answer hnext]
      constructor
      · rintro ⟨c', hrun⟩
        cases hrun
        exact ⟨⟨hsized, fun hd => absurd hd hdec⟩, rfl⟩
      · rintro ⟨-, rfl⟩
        exact ⟨_, rfl⟩
  · rw [if_pos hsized] at hnext
    rw [run_answer_error hnext]
    constructor
    · exact nofun
    · exact fun hall => absurd hall.1.1 hsized

/-- A request of at most 254 arguments is answered once for each argument before the last one
that does not decode, and once at its end. -/
theorem run_request (hclient : cType client ≠ javaClient) {args rest : List Argument}
    {total : ℕ} (hrest : rest ≠ []) (htotal : args.length + rest.length = total)
    (hfew : total ≤ 254) (h : Receiving host client messageId c args) (k : ℕ)
    (tags tags' : List ℕ) :
    (∃ c', run (answer host) (c, tags) (tagged k (sendFrom client messageId
        (BitVec.ofNat 8 total) args.length rest)) = .ok (c', tags')) ↔
      Completes host client args rest ∧
        tags' = tags ++ List.replicate (failures host client rest + 1) k := by
  induction rest generalizing args c tags with
  | nil => exact absurd rfl hrest
  | cons a rest ih =>
    rw [List.length_cons] at htotal
    have hnext := processMessage_next a h (by omega) hfew rfl
    obtain rfl | hmore := eq_or_ne rest []
    · exact run_last hclient htotal hfew h k tags tags'
    · rw [completes_cons hmore, failures_cons hmore, tagged, sendFrom, List.map_cons]
      have hfilled := receiving_filled h (BitVec.ofNat 8 total) a (by omega) rfl
      have hlen : (args ++ [a]).length = args.length + 1 := List.length_append
      have hlast : ¬ args.length + 1 = total := by
        have := List.length_pos_iff.mpr hmore
        omega
      by_cases hsized : Sized client a
      · rw [if_neg (not_not.mpr hsized)] at hnext
        by_cases hdec : ArgDecodes host client a
        · rw [if_neg (not_not.mpr hdec), if_neg hlast] at hnext
          have hrun := ih hmore (by omega) hfilled (tags ++ [])
          rw [hlen] at hrun
          rw [run_answer hnext, if_neg (not_not.mpr hdec), Nat.add_zero]
          refine (hrun.trans ?_)
          rw [List.append_nil]
          exact and_congr_left fun _ => (and_iff_right hsized).symm
        · rw [if_pos hdec] at hnext
          have hrun := ih hmore (by omega) hfilled (tags ++ [k])
          rw [hlen] at hrun
          rw [run_answer hnext, if_pos hdec]
          refine (hrun.trans ?_)
          rw [List.append_assoc]
          exact and_congr_left fun _ => (and_iff_right hsized).symm
      · rw [if_pos hsized] at hnext
        rw [run_answer_error hnext]
        constructor
        · exact nofun
        · exact fun hall => absurd hall.1.1 hsized

end Receiving

/-! ### Requests that follow each other -/

section Requests

variable {host : Host} {client messageId : BitVec 8} {c : Connection}

theorem incMessageId_ne (messageId : BitVec 8) : messageId ≠ incMessageId messageId := by
  revert messageId
  decide

theorem run_refused {i : ℕ} {rest : List Argument} (hi : i + rest.length ≤ 255)
    (hc : c.messageId ≠ messageId) (k : ℕ) (tags : List ℕ) :
    ∃ c', run (answer host) (c, tags)
      (tagged k (sendFrom client messageId (BitVec.ofNat 8 255) i rest)) =
        .ok (c', tags ++ List.replicate rest.length k) := by
  induction rest generalizing i c tags with
  | nil => exact ⟨c, by rw [List.length_nil, List.replicate_zero, List.append_nil]; rfl⟩
  | cons a rest ih =>
    rw [List.length_cons] at hi
    have harg : IsArgument (sendArg client messageId (BitVec.ofNat 8 255) (BitVec.ofNat 8 i) a).h :=
      isArgument_sendArg (by omega) le_rfl
    have hmany : TooMany (sendArg client messageId (BitVec.ofNat 8 255) (BitVec.ofNat 8 i) a) :=
      (tooMany_sendArg le_rfl).mpr rfl
    have hnext : processMessage host c (sendArg client messageId (BitVec.ofNat 8 255)
        (BitVec.ofNat 8 i) a) = .ok (freeDescriptors c, [.answered]) := by
      rw [processMessage, if_pos harg, standardCommand, if_pos ⟨hc, hmany⟩]
    have hi' : i + 1 + rest.length ≤ 255 := by omega
    have hfreed : (freeDescriptors c).messageId ≠ messageId := hc
    obtain ⟨c', hrun⟩ := ih hi' hfreed (tags ++ [k])
    refine ⟨c', ?_⟩
    rw [tagged, sendFrom, List.map_cons, run_answer hnext]
    refine hrun.trans ?_
    rw [List.append_assoc]
    rfl

theorem processMessage_messageId {m : Message} {r : Connection × List Event}
    (harg : IsArgument m.h) (hmany : ¬ TooMany m) (h : processMessage host c m = .ok r) :
    r.1.messageId = m.h.messageId := by
  cases processMessage_processed h with
  | operation hno => exact absurd harg hno
  | refused _ _ hrefused => exact absurd hrefused hmany
  | failed => exact begun_messageId c m
  | kept => exact begun_messageId c m
  | executed => exact begun_messageId c m

theorem run_messageId {i total : ℕ} {rest : List Argument} (hrest : rest ≠ [])
    (hi : i + rest.length = total) (htotal : total ≤ 254) {k : ℕ} {tags : List ℕ}
    {p : Connection × List ℕ}
    (h : run (answer host) (c, tags)
      (tagged k (sendFrom client messageId (BitVec.ofNat 8 total) i rest)) = .ok p) :
    p.1.messageId = messageId := by
  induction rest generalizing c i tags with
  | nil => exact absurd rfl hrest
  | cons a rest ih =>
    rw [List.length_cons] at hi
    cases hp : processMessage host c (sendArg client messageId (BitVec.ofNat 8 total)
        (BitVec.ofNat 8 i) a) with
    | error stop =>
      rw [tagged, sendFrom, List.map_cons, run_answer_error hp] at h
      cases h
    | ok r =>
      rw [tagged, sendFrom, List.map_cons, run_answer hp] at h
      obtain rfl | hmore := eq_or_ne rest []
      · cases h
        have hmany : ¬ TooMany (sendArg client messageId (BitVec.ofNat 8 total)
            (BitVec.ofNat 8 i) a) := by
          rw [tooMany_sendArg (by omega)]
          omega
        exact processMessage_messageId (isArgument_sendArg (by omega) (by omega)) hmany hp
      · exact ih hmore (by omega) h

theorem run_grows {ms : List (ℕ × Message)} {tags : List ℕ} {p : Connection × List ℕ}
    (h : run (answer host) (c, tags) ms = .ok p) : tags <+: p.2 := by
  induction ms generalizing c tags with
  | nil =>
    cases h
    exact List.prefix_rfl
  | cons q ms ih =>
    obtain ⟨k, m⟩ := q
    cases hp : processMessage host c m with
    | error stop =>
      rw [run_answer_error hp] at h
      cases h
    | ok r =>
      rw [run_answer hp] at h
      exact (List.prefix_append _ _).trans (ih h)

/-- No second answer goes to a request when each gets one. -/
theorem not_prefix_range {k n N : ℕ} :
    ¬ List.range k ++ List.replicate (n + 2) k <+: List.range N := by
  intro h
  have hnodup := List.nodup_range.sublist h.sublist
  have := List.nodup_replicate.mp (List.nodup_append.mp hnodup).2.1
  omega

theorem failures_eq_zero {args : List Argument} :
    failures host client args = 0 ↔ ∀ a ∈ args.dropLast, ArgDecodes host client a := by
  rw [failures, List.countP_eq_zero]
  simp only [decide_eq_true_eq, not_not]

theorem run_answerable (hclient : cType client ≠ javaClient) {r : Request}
    (hr : Answerable host client r) (hc : c.messageId ≠ messageId) (k : ℕ) :
    ∃ c1, c1.messageId = messageId ∧ run (answer host) (c, List.range k)
      (tagged k (sendFrom client messageId (BitVec.ofNat 8 r.args.length) 0 r.args)) =
        .ok (c1, List.range (k + 1)) := by
  have hstart : Receiving host client messageId c [] := by rw [Receiving, if_neg hc]
  have hlen : ([] : List Argument).length + r.args.length = r.args.length := Nat.zero_add _
  obtain ⟨c1, hrun⟩ := (run_request hclient r.nonempty hlen hr.few hstart k (List.range k)
    (List.range (k + 1))).mpr ⟨hr.completes, by
      rw [failures_eq_zero.mpr hr.decodes, List.range_succ]
      rfl⟩
  exact ⟨c1, run_messageId r.nonempty hlen hr.few hrun, hrun⟩

theorem answerable_of_run (hclient : cType client ≠ javaClient) {r : Request}
    (hc : c.messageId ≠ messageId) {k N : ℕ} {ms : List (ℕ × Message)} {c' : Connection}
    (h : run (answer host) (c, List.range k)
      (tagged k (sendFrom client messageId (BitVec.ofNat 8 r.args.length) 0 r.args) ++ ms) =
        .ok (c', List.range N)) :
    Answerable host client r := by
  rw [run_append, bind_eq_ok] at h
  obtain ⟨⟨c1, tags1⟩, hfirst, hmore⟩ := h
  have hprefix := run_grows hmore
  have hstart : Receiving host client messageId c [] := by rw [Receiving, if_neg hc]
  have hlen : ([] : List Argument).length + r.args.length = r.args.length := Nat.zero_add _
  by_cases hfew : r.args.length ≤ 254
  · obtain ⟨hcompletes, rfl⟩ := (run_request hclient r.nonempty hlen hfew hstart k (List.range k)
      tags1).mp ⟨c1, hfirst⟩
    refine ⟨hfew, failures_eq_zero.mp ?_, hcompletes⟩
    by_contra hne
    obtain ⟨n, hn⟩ := Nat.exists_eq_succ_of_ne_zero hne
    rw [hn] at hprefix
    exact not_prefix_range hprefix
  · have hall : r.args.length = 255 := by
      have := r.fits
      omega
    have hbound : 0 + r.args.length ≤ 255 := by omega
    obtain ⟨c2, hrefused⟩ := run_refused hbound hc k (List.range k)
    rw [hall, hrefused] at hfirst
    cases hfirst
    rw [hall] at hprefix
    exact absurd hprefix not_prefix_range

theorem run_requests (host : Host) (hclient : cType client ≠ javaClient)
    (requests : List Request) (hc : c.messageId = messageId)
    (k : ℕ) :
    (∃ c', run (answer host) (c, List.range k) (sentFrom client messageId k requests) =
      .ok (c', List.range (k + requests.length))) ↔
      ∀ r ∈ requests, Answerable host client r := by
  induction requests generalizing c messageId k with
  | nil => exact ⟨fun _ => nofun, fun _ => ⟨c, rfl⟩⟩
  | cons r requests ih =>
    have hfresh : c.messageId ≠ incMessageId messageId := hc ▸ incMessageId_ne c.messageId
    have hN : k + (r :: requests).length = k + 1 + requests.length := by
      rw [List.length_cons]
      omega
    rw [sentFrom, List.forall_mem_cons, hN]
    constructor
    · rintro ⟨c', hrun⟩
      have hr := answerable_of_run hclient hfresh hrun
      obtain ⟨c1, hc1, hfirst⟩ := run_answerable hclient hr hfresh k
      refine ⟨hr, (ih hc1 (k + 1)).mp ⟨c', ?_⟩⟩
      rw [run_append] at hrun
      rw [tagged] at hfirst
      rw [hfirst] at hrun
      exact hrun
    · rintro ⟨hr, hall⟩
      obtain ⟨c1, hc1, hfirst⟩ := run_answerable hclient hr hfresh k
      obtain ⟨c', hrun⟩ := (ih hc1 (k + 1)).mpr hall
      refine ⟨c', ?_⟩
      rw [run_append]
      rw [tagged] at hfirst
      rw [hfirst]
      exact hrun

end Requests

/-- One answer is sent for each request exactly when every request can be answered once. -/
theorem inStep_iff {host : Host} {client : BitVec 8} (hclient : cType client ≠ javaClient)
    (requests : List Request) :
    InStep host client requests ↔ ∀ r ∈ requests, Answerable host client r := by
  have h := run_requests host hclient requests (rfl : newConnection.messageId = 0) 0
  rw [Nat.zero_add] at h
  exact h

/-! ### Texts as requests -/

def textArgument (bytes : List Byte) : Argument :=
  { dtype := dtypeT
    length := BitVec.ofNat 16 bytes.length
    ndims := 0
    dims := Vector.replicate 8 0
    bytes := bytes }

def textRequest : Request := ⟨[textArgument expression, textArgument [0x78]], nofun, by decide⟩

theorem inStep_textRequest : InStep textHost ieeeClient [textRequest, textRequest] := by
  have hr : Answerable textHost ieeeClient textRequest :=
    ⟨by decide, by decide, by decide, fun _ _ _ => rfl⟩
  exact (inStep_iff (by decide) _).mpr
    (List.forall_mem_cons.mpr ⟨hr, List.forall_mem_singleton.mpr hr⟩)

/-- The second argument comes serialized and cannot be decoded. -/
def undecodable : Request :=
  ⟨[textArgument expression, sendDsc [1, 0, 14, 99], textArgument [0x78]], nofun, by decide⟩

theorem undecodable_answered_twice :
    ¬ ∀ host client requests, cType client ≠ javaClient → InStep host client requests := by
  intro hall
  obtain ⟨c, hrun⟩ := hall textHost ieeeClient [undecodable] (by decide)
  have htwo : (run (answer textHost) (newConnection, [])
      (sentFrom ieeeClient 0 0 [undecodable])).toOption.map Prod.snd = some [0, 0] := by decide
  rw [hrun] at htwo
  cases htwo

end MdsPlus.RequestAnswers
