import MdsPlus.ArgumentTable
import MdsPlus.Outcome

/-!
Sequences of messages on a server connection. The messages that were stored since the table
was emptied are carried along; the table holds what the latest of them for each index
decodes to, as long as a message is not copied into a descriptor of another shape.
-/

namespace MdsPlus.ArgumentHistory

open BitMemory MessageHeaders MessageStream ArgumentTable Outcome

def latest (i : BitVec 8) (ms : List Message) : Option Message :=
  ms.find? fun m => m.h.descriptorIdx = i

def decoded (host : Host) (m : Message) : Option Dsc :=
  match store host none m with
  | .error _ => none
  | .ok (slot, _) => slot

/-- The slot that the messages of a list give. -/
def content (host : Host) (ms : List Message) (i : BitVec 8) : Option Dsc :=
  (latest i ms).bind (decoded host)

/-- A request that is handed to the evaluator: the message that led to it, the number of
arguments, the table, and the arguments received up to then. -/
structure Evaluation where
  message : Message
  nargs : BitVec 8
  table : BitVec 8 → Option Dsc
  received : List Message

structure Served where
  connection : Connection
  received : List Message
  stored : List Message
  evaluations : List Evaluation

def accepted : Served := ⟨newConnection, [], [], []⟩

def begunStored (s : Served) (m : Message) : List Message :=
  if Fresh s.connection m then [] else s.stored

def storedAfter (host : Host) (s : Served) (m : Message) : List Message :=
  if ¬ IsArgument m.h then s.stored
  else if Fresh s.connection m ∧ TooMany m then []
  else if Decodes host m ∧ IsLast m.h then []
  else m :: begunStored s m

def receivedAfter (s : Served) (m : Message) : List Message :=
  if IsArgument m.h then m :: s.received else s.received

def evaluation (received : List Message) (m : Message) : Event → Option Evaluation
  | .evaluated nargs table => some ⟨m, nargs, table, received⟩
  | .answered => none

def servedAfter (host : Host) (s : Served) (m : Message) (r : Connection × List Event) : Served :=
  { connection := r.1
    received := receivedAfter s m
    stored := storedAfter host s m
    evaluations := r.2.filterMap (evaluation (receivedAfter s m) m) ++ s.evaluations }

def serve (host : Host) (s : Served) (m : Message) : Except Stop Served :=
  (processMessage host s.connection m).map (servedAfter host s m)

/-- The evaluator gets as many arguments as the message that led to the evaluation announces,
each with the content of the latest message for its index, a message of the current id. -/
structure Sound (host : Host) (e : Evaluation) : Prop where
  nargs : e.nargs = e.message.h.nargs
  filled : ∀ i < e.nargs, ∃ m d, latest i e.received = some m ∧
    m.h.messageId = e.message.h.messageId ∧ decoded host m = some d ∧ e.table i = some d

def Suits (d : Dsc) (h : MsgHdr) : Prop :=
  d.cls = (allocate h).cls ∧ d.length = (allocate h).length ∧ d.dims = (allocate h).dims ∧
    d.arsize = (allocate h).arsize ∧
    (d.dtype = h.dtype ∨ Copies h.clientType ∧ renamed d.dtype = renamed h.dtype)

/-- A message that is not serialized comes for a slot that is empty or has its shape. A last
argument that decodes, and has a first one, finds one in every slot before its own, and the
request began with the number of arguments it gives. -/
structure Orderly (host : Host) (s : Served) (m : Message) : Prop where
  suits : IsArgument m.h → ¬ Serial m.h →
    ∀ d, content host (begunStored s m) m.h.descriptorIdx = some d → Suits d m.h
  complete : IsArgument m.h → Decodes host m → IsLast m.h →
    (content host (m :: begunStored s m) 0).isSome →
    (Fresh s.connection m ∨ s.connection.nargs = m.h.nargs) ∧
      ∀ i < m.h.descriptorIdx, (content host (begunStored s m) i).isSome

/-! ### The table follows the messages -/

theorem latest_cons_self (m : Message) (ms : List Message) :
    latest m.h.descriptorIdx (m :: ms) = some m := by
  simp [latest]

theorem latest_cons_of_ne {m : Message} {i : BitVec 8} (hi : i ≠ m.h.descriptorIdx)
    (ms : List Message) : latest i (m :: ms) = latest i ms := by
  simp [latest, hi.symm]

theorem latest_append {i : BitVec 8} {ms older : List Message} {m : Message}
    (h : latest i ms = some m) : latest i (ms ++ older) = some m := by
  unfold latest at h ⊢
  rw [List.find?_append, h, Option.some_or]

theorem latest_mem {i : BitVec 8} {ms : List Message} {m : Message} (h : latest i ms = some m) :
    m ∈ ms :=
  List.mem_of_find?_eq_some h

theorem content_cons (host : Host) (m : Message) (ms : List Message) :
    content host (m :: ms) =
      Function.update (content host ms) m.h.descriptorIdx (decoded host m) := by
  funext i
  by_cases hi : i = m.h.descriptorIdx
  · subst hi
    rw [Function.update_self, content, latest_cons_self, Option.bind_some]
  · rw [Function.update_of_ne hi, content, latest_cons_of_ne hi, content]

theorem exists_of_content {host : Host} {ms : List Message} {i : BitVec 8} {d : Dsc}
    (h : content host ms i = some d) :
    ∃ m ∈ ms, latest i ms = some m ∧ decoded host m = some d := by
  obtain ⟨m, hlatest, hd⟩ := Option.bind_eq_some_iff.mp h
  exact ⟨m, latest_mem hlatest, hlatest, hd⟩

theorem allocate_dtype (h : MsgHdr) : (allocate h).dtype = h.dtype := by
  unfold allocate
  split <;> rfl

theorem fill_of_suits (host : Host) {d : Dsc} {m : Message} (h : Suits d m.h) :
    fill host d m = fill host (allocate m.h) m := by
  unfold Suits at h
  rw [← allocate_dtype m.h] at h
  generalize allocate m.h = new at h ⊢
  obtain ⟨hcls, hlength, hdims, harsize, hdtype⟩ := h
  have hsize : dataSize d = dataSize new := by rw [dataSize, dataSize, hcls, hlength, harsize]
  unfold fill
  rw [hcls, hsize]
  congr 1
  obtain ⟨cls, dtype, length, dims, arsize, bytes⟩ := d
  simp only at hcls hlength hdims harsize hdtype
  subst hcls hlength hdims harsize
  obtain rfl | ⟨hcopies, hrenamed⟩ := hdtype
  · rfl
  · simp only [if_pos hcopies, hrenamed]

theorem store_eq_decoded {host : Host} {slot slot' : Option Dsc} {m : Message} {done : Bool}
    (hslot : ¬ Serial m.h → ∀ d, slot = some d → Suits d m.h)
    (h : store host slot m = .ok (slot', done)) : slot' = decoded host m := by
  have hnone : store host none m = store host slot m := by
    unfold store
    by_cases hserial : Serial m.h
    · simp only [if_pos hserial]
    · simp only [if_neg hserial]
      cases slot with
      | none => rfl
      | some d => rw [Option.getD_some, fill_of_suits host (hslot hserial d rfl), Option.getD_none]
  rw [decoded, hnone, h]

/-! ### What a message preserves -/

structure Inv (host : Host) (s : Served) : Prop where
  table : s.connection.table = content host s.stored
  ids : ∀ m ∈ s.stored, m.h.messageId = s.connection.messageId
  recent : ∃ older, s.received = s.stored ++ older
  sound : ∀ e ∈ s.evaluations, Sound host e

theorem inv_accepted (host : Host) : Inv host accepted :=
  ⟨rfl, nofun, ⟨[], rfl⟩, nofun⟩

section Begun

variable {host : Host} {s : Served}

theorem begun_table (hs : Inv host s) (m : Message) :
    (begun s.connection m).table = content host (begunStored s m) := by
  unfold begun begunStored
  split
  · rfl
  · exact hs.table

theorem begun_messageId (c : Connection) (m : Message) :
    (begun c m).messageId = m.h.messageId := by
  unfold begun
  split
  · rfl
  · next h => exact not_not.mp h

theorem begun_ids (hs : Inv host s) {m m0 : Message} (h : m0 ∈ begunStored s m) :
    m0.h.messageId = m.h.messageId := by
  unfold begunStored at h
  split at h
  · cases h
  · next hold => exact (hs.ids m0 h).trans (not_not.mp hold)

theorem begun_recent (hs : Inv host s) (m : Message) :
    ∃ older, s.received = begunStored s m ++ older := by
  unfold begunStored
  split
  · exact ⟨s.received, rfl⟩
  · exact hs.recent

theorem filled_table (hs : Inv host s) {m : Message} {slot : Option Dsc} {done : Bool}
    (hsuits : ¬ Serial m.h →
      ∀ d, content host (begunStored s m) m.h.descriptorIdx = some d → Suits d m.h)
    (hstore : store host ((begun s.connection m).table m.h.descriptorIdx) m = .ok (slot, done)) :
    (filled s.connection m slot).table = content host (m :: begunStored s m) := by
  rw [begun_table hs] at hstore
  rw [content_cons, ← store_eq_decoded hsuits hstore, ← begun_table hs]
  rfl

end Begun

theorem begun_nargs {c : Connection} {m : Message}
    (h : Fresh c m ∨ c.nargs = m.h.nargs) : (begun c m).nargs = m.h.nargs := by
  unfold begun
  split
  · rfl
  · next hold => exact h.resolve_left hold

theorem isSome_of_store {host : Host} {slot slot' : Option Dsc} {m : Message}
    (h : store host slot m = .ok (slot', true)) : slot'.isSome := by
  unfold store at h
  by_cases hserial : Serial m.h
  · rw [if_pos hserial] at h
    cases hin : host.serializeDscIn m.bytes with
    | error status =>
      rw [hin] at h
      cases h
    | ok d =>
      rw [hin] at h
      cases h
      rfl
  · rw [if_neg hserial] at h
    cases hfill : fill host (slot.getD (allocate m.h)) m with
    | error stop =>
      rw [hfill] at h
      cases h
    | ok d =>
      rw [hfill] at h
      cases h
      rfl

section Last

variable {host : Host} {s : Served} {m : Message} {slot : Option Dsc}

theorem content_of_last (hs : Inv host s) (hlast : IsLast m.h)
    (hsuits : ¬ Serial m.h →
      ∀ d, content host (begunStored s m) m.h.descriptorIdx = some d → Suits d m.h)
    (hstore : store host ((begun s.connection m).table m.h.descriptorIdx) m = .ok (slot, true))
    (hbelow : ∀ i < m.h.descriptorIdx, (content host (begunStored s m) i).isSome)
    {i : BitVec 8} (hi : i < m.h.nargs) : (content host (m :: begunStored s m) i).isSome := by
  rw [content_cons]
  by_cases hself : i = m.h.descriptorIdx
  · subst hself
    rw [begun_table hs] at hstore
    rw [Function.update_self, ← store_eq_decoded hsuits hstore]
    exact isSome_of_store hstore
  · rw [Function.update_of_ne hself]
    apply hbelow
    have hne : i.toNat ≠ m.h.descriptorIdx.toNat := fun h => hself (BitVec.eq_of_toNat_eq h)
    unfold IsLast at hlast
    rw [BitVec.lt_def] at hi ⊢
    omega

theorem executed_sound (hs : Inv host s) (hok : Orderly host s m) (harg : IsArgument m.h)
    (hdec : Decodes host m) (hlast : IsLast m.h)
    (hstore : store host ((begun s.connection m).table m.h.descriptorIdx) m = .ok (slot, true))
    (hfirst : ((filled s.connection m slot).table 0).isSome) :
    Sound host ⟨m, (filled s.connection m slot).nargs, (filled s.connection m slot).table,
      m :: s.received⟩ := by
  have htable := filled_table hs (hok.suits harg) hstore
  rw [htable] at hfirst ⊢
  obtain ⟨hnargs, hbelow⟩ := hok.complete harg hdec hlast hfirst
  obtain ⟨older, hrecent⟩ := begun_recent hs m
  have hcount : (filled s.connection m slot).nargs = m.h.nargs := begun_nargs hnargs
  rw [hcount]
  refine ⟨rfl, fun i hi => ?_⟩
  have hslot := content_of_last hs hlast (hok.suits harg) hstore hbelow hi
  obtain ⟨d, hd⟩ := Option.isSome_iff_exists.mp hslot
  obtain ⟨m0, hmem, hlatest, hdecoded⟩ := exists_of_content hd
  refine ⟨m0, d, ?_, ?_, hdecoded, hd⟩
  · change latest i (m :: s.received) = some m0
    rw [hrecent, ← List.cons_append]
    exact latest_append hlatest
  · obtain rfl | hold := List.mem_cons.mp hmem
    · rfl
    · exact begun_ids hs hold

end Last

theorem sound_of_events {host : Host} {s : Served} {m : Message} {r : Connection × List Event}
    (hs : Inv host s) (hok : Orderly host s m) (hp : Processed host s.connection m r) :
    ∀ e ∈ r.2.filterMap (evaluation (receivedAfter s m) m), Sound host e := by
  have hanswered : ∀ e ∈ [Event.answered].filterMap (evaluation (receivedAfter s m) m),
      Sound host e := nofun
  cases hp with
  | operation hno => exact hanswered
  | refused harg hfresh hmany => exact hanswered
  | failed harg hrefuse hdec hstore => exact hanswered
  | kept harg hrefuse hdec hlast hstore => exact nofun
  | executed harg hrefuse hdec hlast hstore hexec =>
    intro e he
    obtain ⟨event, hevent, hmade⟩ := List.mem_filterMap.mp he
    cases event with
    | answered => cases hmade
    | evaluated nargs table =>
      cases hmade
      obtain ⟨rfl, rfl, hfirst⟩ := execute_evaluated hexec hevent
      rw [receivedAfter, if_pos harg]
      exact executed_sound hs hok harg hdec hlast hstore hfirst

theorem inv_stored {host : Host} {s s' : Served} {m : Message} {slot : Option Dsc} {done : Bool}
    (hs : Inv host s) (hok : Orderly host s m) (harg : IsArgument m.h)
    (hstore : store host ((begun s.connection m).table m.h.descriptorIdx) m = .ok (slot, done))
    (hconn : s'.connection = filled s.connection m slot)
    (hstored : s'.stored = m :: begunStored s m) (hreceived : s'.received = m :: s.received)
    (hsound : ∀ e ∈ s'.evaluations, Sound host e) : Inv host s' := by
  obtain ⟨older, hrecent⟩ := begun_recent hs m
  refine ⟨?_, fun m0 hm0 => ?_, ⟨older, ?_⟩, hsound⟩
  · rw [hconn, hstored]
    exact filled_table hs (hok.suits harg) hstore
  · have hid : s'.connection.messageId = m.h.messageId := by
      rw [hconn]
      exact begun_messageId s.connection m
    rw [hid]
    rw [hstored] at hm0
    obtain rfl | hold := List.mem_cons.mp hm0
    · rfl
    · exact begun_ids hs hold
  · rw [hreceived, hstored, hrecent, List.cons_append]

theorem inv_emptied {host : Host} {s' : Served} (hconn : s'.connection.table = fun _ => none)
    (hstored : s'.stored = []) (hsound : ∀ e ∈ s'.evaluations, Sound host e) : Inv host s' := by
  refine ⟨?_, ?_, ⟨s'.received, ?_⟩, hsound⟩
  · rw [hconn, hstored]
    rfl
  · rw [hstored]
    exact nofun
  · rw [hstored, List.nil_append]

theorem serve_inv {host : Host} {s s' : Served} {m : Message} (hs : Inv host s)
    (hok : Orderly host s m) (h : serve host s m = .ok s') : Inv host s' := by
  unfold serve at h
  cases hp : processMessage host s.connection m with
  | error stop =>
    rw [hp] at h
    cases h
  | ok r =>
    rw [hp] at h
    cases h
    have hr := processMessage_processed hp
    have hsound : ∀ e ∈ (servedAfter host s m r).evaluations, Sound host e := by
      intro e he
      obtain hnew | hold := List.mem_append.mp he
      · exact sound_of_events hs hok hr e hnew
      · exact hs.sound e hold
    cases hr with
    | operation hno =>
      refine ⟨?_, ?_, ?_, hsound⟩
      · simp only [servedAfter, storedAfter, if_pos hno]
        exact hs.table
      · simp only [servedAfter, storedAfter, if_pos hno]
        exact hs.ids
      · simp only [servedAfter, storedAfter, receivedAfter, if_pos hno, if_neg hno]
        exact hs.recent
    | refused harg hfresh hmany =>
      refine inv_emptied rfl ?_ hsound
      simp only [servedAfter, storedAfter, not_not.mpr harg, if_false, hfresh, hmany, and_self,
        if_true]
    | failed harg hrefuse hdec hstore =>
      refine inv_stored hs hok harg hstore rfl ?_ ?_ hsound
      · simp only [servedAfter, storedAfter, not_not.mpr harg, if_false, hrefuse, hdec, false_and]
      · simp only [servedAfter, receivedAfter, if_pos harg]
    | kept harg hrefuse hdec hlast hstore =>
      refine inv_stored hs hok harg hstore rfl ?_ ?_ hsound
      · simp only [servedAfter, storedAfter, not_not.mpr harg, if_false, hrefuse, hlast, and_false]
      · simp only [servedAfter, receivedAfter, if_pos harg]
    | executed harg hrefuse hdec hlast hstore hexec =>
      refine inv_emptied rfl ?_ hsound
      simp only [servedAfter, storedAfter, not_not.mpr harg, if_false, hrefuse, hdec, hlast,
        and_self, if_true]

/-- In every run whose messages come in order, every request is evaluated with the arguments
that were sent for it. -/
theorem evaluations_sound {host : Host} {ms : List Message} {s : Served}
    (hadm : Admissible (serve host) (Orderly host) accepted ms)
    (hrun : run (serve host) accepted ms = .ok s) : ∀ e ∈ s.evaluations, Sound host e :=
  (run_preserves (fun _ _ _ hs hok h => serve_inv hs hok h) accepted ms s
    (inv_accepted host) hadm hrun).sound

/-! ### Texts as arguments -/

def text (messageId nargs idx : BitVec 8) (bytes : List Byte) : Message :=
  { h :=
      { msglen := 48 + BitVec.ofNat 32 bytes.length
        status := 0
        length := BitVec.ofNat 16 bytes.length
        nargs := nargs
        descriptorIdx := idx
        messageId := messageId
        dtype := dtypeT
        clientType := ieeeClient
        ndims := 0
        dims := Vector.replicate 8 0 }
    bytes := bytes }

def textHost : Host where
  serializeDscIn _ := .error mdsplusError
  convert _ _ _ _ _ bytes := bytes
  beyond := []
  kind _ := .command

/-- `A($)` -/
def expression : List Byte := [0x41, 0x28, 0x24, 0x29]

theorem orderly_pair :
    Admissible (serve textHost) (Orderly textHost) accepted
      [text 1 2 0 expression, text 1 2 1 [0x78]] := by
  refine ⟨⟨fun _ _ d (hd : none = some d) => (Option.some_ne_none d hd.symm).elim,
    fun _ _ hlast => absurd hlast (by decide)⟩, ?_⟩
  intro s1 h1
  cases h1
  refine ⟨⟨fun _ _ d (hd : none = some d) => (Option.some_ne_none d hd.symm).elim,
    fun _ _ _ _ => ⟨.inr rfl, fun i hi => ?_⟩⟩,
    fun _ _ => trivial⟩
  have hzero : i = 0 := by
    revert i
    decide
  rw [hzero]
  rfl

theorem evaluations_sound_pair :
    ∃ s, run (serve textHost) accepted [text 1 2 0 expression, text 1 2 1 [0x78]] = .ok s ∧
      s.evaluations.length = 1 ∧ ∀ e ∈ s.evaluations, Sound textHost e :=
  ⟨_, rfl, rfl, evaluations_sound orderly_pair rfl⟩

/-- The second text leads to the evaluation of a request that began with three arguments. -/
theorem oneOfThree_unsound :
    ¬ ∀ host ms s, run (serve host) accepted ms = .ok s → ∀ e ∈ s.evaluations, Sound host e := by
  intro hall
  have h := hall textHost [text 1 3 0 expression, text 1 1 0 expression] _ rfl _
    (List.mem_singleton.mpr rfl)
  exact absurd h.nargs (by decide)

end MdsPlus.ArgumentHistory
