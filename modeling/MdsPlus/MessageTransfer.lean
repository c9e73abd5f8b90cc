import MdsPlus.MessageStream

/-!
Sending a message and receiving it at the other end. The sender may flip header and
body for the server and may deflate the body behind a four-byte length; the receiver
undoes both. A deflated message comes through only if the body length that the
receiver reads from those four bytes, before it flips them, leaves room for the
inflated body and covers the deflated one.
-/

namespace MdsPlus.MessageTransfer

open BitMemory Codec MessageHeaders MessageBodies MessageStream

structure Sender where
  big : Big
  compress2 : ℤ → List Byte → ℕ → Option (List Byte)
  compressionLevel : ℤ

/-- The header as `SendMdsMsgC` leaves it, in the order of the sender. -/
def stamped (s : Sender) (h : MsgHdr) : MsgHdr :=
  { h with
    status :=
      if h.clientType = sendCapabilities then BitVec.ofInt 32 s.compressionLevel else h.status
    clientType := if swaps h.clientType then h.clientType else clientType s.big }

/-- The message is flipped before it is sent. -/
def doSwap (s : Sender) (h : MsgHdr) : Prop :=
  swaps h.clientType ∧ endian h.clientType ≠ s.big

instance (s : Sender) (h : MsgHdr) : Decidable (doSwap s h) :=
  inferInstanceAs (Decidable (_ ∧ _))

def deflates (s : Sender) (h : MsgHdr) : Prop :=
  0 < bodyLength h ∧ 0 < s.compressionLevel ∧ h.clientType ≠ sendCapabilities

instance (s : Sender) (h : MsgHdr) : Decidable (deflates s h) :=
  inferInstanceAs (Decidable (_ ∧ _ ∧ _))

def deflated (s : Sender) (h : MsgHdr) (bytes : List Byte) : Option (List Byte) :=
  if deflates s h then
    (s.compress2 s.compressionLevel bytes (bodyLength h)).filter (·.length < bodyLength h)
  else none

/-- The header of a message that is marked as compressed. -/
def flagged (h : MsgHdr) : MsgHdr := { h with clientType := h.clientType ||| compressedFlag }

/-- The header with the length of another body. -/
def relabelled (h : MsgHdr) (msglen : BitVec 32) : MsgHdr := { h with msglen := msglen }

@[simp] theorem relabelled_msglen (h : MsgHdr) (v : BitVec 32) : (relabelled h v).msglen = v := rfl
@[simp] theorem relabelled_clientType (h : MsgHdr) (v : BitVec 32) :
    (relabelled h v).clientType = h.clientType := rfl
@[simp] theorem relabelled_ndims (h : MsgHdr) (v : BitVec 32) :
    (relabelled h v).ndims = h.ndims := rfl
@[simp] theorem flagged_clientType (h : MsgHdr) :
    (flagged h).clientType = h.clientType ||| compressedFlag := rfl
@[simp] theorem flagged_ndims (h : MsgHdr) : (flagged h).ndims = h.ndims := rfl

/-- The header of the deflated message; `msglen` is flipped apart from the other fields. -/
def deflatedHeader (sent : MsgHdr) (swap : Prop) [Decidable swap] (z : List Byte) : MsgHdr :=
  let msglen := BitVec.ofNat 32 (z.length + 4 + headerSize)
  relabelled (flagged sent) (if swap then flip32 msglen else msglen)

/-- The body, flipped for a server of the other order; none when an element lies outside. -/
def bodyToSend (s : Sender) (m : Message) : Option (List Byte) :=
  if doSwap s m.h then (flipData ⟨stamped s m.h, m.bytes⟩).map (·.bytes) else some m.bytes

/-- `msglen` is negative or less than the header, or the size of the buffer for the deflated
message overflows. -/
def Oversized (s : Sender) (h : MsgHdr) : Prop :=
  h.msglen.toNat < headerSize ∨ 2 ^ 31 ≤ h.msglen.toNat ∨
    deflates s h ∧ 2 ^ 31 ≤ h.msglen.toNat + 4

instance (s : Sender) (h : MsgHdr) : Decidable (Oversized s h) :=
  inferInstanceAs (Decidable (_ ∨ _ ∨ _))

def sendMdsMsgC (s : Sender) (m : Message) : Option (List Byte) :=
  if Oversized s m.h then none
  else
    (bodyToSend s m).map fun bytes =>
      let sent := if doSwap s m.h then flipHeader (stamped s m.h) else stamped s m.h
      match deflated s m.h bytes with
      | some z =>
          headerImage s.big (deflatedHeader sent (doSwap s m.h) z) ++
            (intImage s.big sent.msglen ++ z)
      | none => headerImage s.big sent ++ bytes

/-- A message that a host may build: `msglen` counts the header and the body, the type of
client and the number of dimensions are in range, and `COMPRESSED` is left to the sender. -/
structure WellFormed (m : Message) : Prop where
  msglen : m.h.msglen.toNat = headerSize + m.bytes.length
  int : m.h.msglen.toNat < 2 ^ 31
  ndims : m.h.ndims ≤ 8
  cType : swaps m.h.clientType → cType m.h.clientType ≤ crayClient
  plain : swaps m.h.clientType → isCompressed m.h.clientType = false

/-- What the code relies on in zlib. -/
structure Zlib (compress2 : ℤ → List Byte → ℕ → Option (List Byte))
    (uncompress : List Byte → ℕ → Option (List Byte)) : Prop where
  bounded : ∀ {level b n z}, compress2 level b n = some z → z.length ≤ n
  restores : ∀ {level b n z d} more, compress2 level b n = some z → b.length ≤ d →
    uncompress (z ++ more) d = some b
  truncated : ∀ {level b n z k} d, compress2 level b n = some z → k < z.length →
    uncompress (z.take k) d = none
  tooSmall : ∀ {level b n z d} more, compress2 level b n = some z → d < b.length →
    uncompress (z ++ more) d = none

def wireOrder (s : Sender) (m : Message) : Big := endian (stamped s m.h).clientType

theorem wireOrder_eq (s : Sender) (m : Message) :
    wireOrder s m = if doSwap s m.h then !s.big else s.big := by
  unfold wireOrder stamped doSwap
  by_cases hs : swaps m.h.clientType = true
  · by_cases he : endian m.h.clientType = s.big
    · simp [hs, he]
    · simp only [hs, he, if_true, not_false_eq_true, and_self, ne_eq]
      revert he
      cases endian m.h.clientType <;> cases s.big <;> simp
  · simp [hs, endian_clientType]

theorem headerImage_sent (s : Sender) (m : Message) (h : MsgHdr) :
    headerImage s.big (if doSwap s m.h then flipHeader h else h) =
      headerImage (wireOrder s m) h := by
  rw [wireOrder_eq]
  by_cases hd : doSwap s m.h
  · unfold headerImage onHost
    cases s.big <;> simp [hd]
  · simp only [if_neg hd]

theorem intImage_sent (s : Sender) (m : Message) (v : BitVec 32) :
    intImage s.big (if doSwap s m.h then flip32 v else v) = intImage (wireOrder s m) v := by
  rw [wireOrder_eq]
  by_cases hd : doSwap s m.h
  · unfold intImage onHost
    cases s.big <;> simp [hd]
  · simp only [if_neg hd]

def wireBody (s : Sender) (m : Message) : List Byte :=
  if doSwap s m.h then (flipped ⟨stamped s m.h, m.bytes⟩).bytes else m.bytes

/-- The header that the receiver sees, in its own order. -/
def arrivingHeader (s : Sender) (m : Message) : MsgHdr :=
  match deflated s m.h (wireBody s m) with
  | some z =>
      relabelled (flagged (stamped s m.h)) (BitVec.ofNat 32 (z.length + 4 + headerSize))
  | none => stamped s m.h

def payload (s : Sender) (m : Message) : List Byte :=
  match deflated s m.h (wireBody s m) with
  | some z => intImage (wireOrder s m) m.h.msglen ++ z
  | none => wireBody s m

theorem bodyToSend_eq_some {s : Sender} {m : Message} {bytes : List Byte}
    (h : bodyToSend s m = some bytes) :
    bytes = wireBody s m ∧ (doSwap s m.h → Fits ⟨stamped s m.h, m.bytes⟩) := by
  unfold bodyToSend at h
  unfold wireBody
  by_cases hd : doSwap s m.h
  · rw [if_pos hd] at h ⊢
    obtain ⟨flip, hflip, rfl⟩ := Option.map_eq_some_iff.mp h
    unfold flipData at hflip
    split at hflip
    · rename_i hf
      exact ⟨by rw [← Option.some.inj hflip], fun _ => hf⟩
    · cases hflip
  · rw [if_neg hd] at h ⊢
    exact ⟨(Option.some.inj h).symm, fun h => absurd h hd⟩

theorem sendMdsMsgC_eq_some {s : Sender} {m : Message} {wire : List Byte}
    (h : sendMdsMsgC s m = some wire) :
    wire = headerImage (wireOrder s m) (arrivingHeader s m) ++ payload s m ∧
      (doSwap s m.h → Fits ⟨stamped s m.h, m.bytes⟩) := by
  unfold sendMdsMsgC at h
  split at h
  · cases h
  · obtain ⟨bytes, hbytes, rfl⟩ := Option.map_eq_some_iff.mp h
    obtain ⟨rfl, hfits⟩ := bodyToSend_eq_some hbytes
    refine ⟨?_, hfits⟩
    have hmsg : (if doSwap s m.h then flipHeader (stamped s m.h) else stamped s m.h).msglen =
        if doSwap s m.h then flip32 m.h.msglen else m.h.msglen := by
      split <;> rfl
    unfold arrivingHeader payload
    cases hz : deflated s m.h (wireBody s m) with
    | none => simp only [headerImage_sent]
    | some z =>
      simp only [hmsg, intImage_sent, ← headerImage_sent s m]
      congr 2
      unfold deflatedHeader
      split <;> rfl

/-! ### The receiving end -/

theorem getMdsMsgTOC_carried {r : Receiver} {stream : ℕ → Byte} {pos : ℕ} {h : MsgHdr}
    {body : List Byte} {answers : List Recv} {wire : List Byte}
    (hwire : wire = headerImage (endian h.clientType) h ++ body)
    (hcarried : window stream pos wire.length = wire) (hgood : badHeader h = false)
    (hlen : bodyLength h = body.length) (hc : Chunks answers)
    (henough : wire.length ≤ answers.length) :
    ∃ rest, getMdsMsgTOC r stream pos answers =
      match unpack r mdsplusSuccess ⟨h, body⟩ with
      | none => .error .overrun
      | some (status, msg) => .ok ⟨status, some msg, wire.length, rest⟩ := by
  subst hwire
  obtain ⟨hhead, hbody⟩ := window_append hcarried
  simp only [headerImage_length] at hhead hbody
  simp only [List.length_append, headerImage_length] at henough ⊢
  obtain ⟨answers1, hget1, hc1, hn1⟩ :=
    getBytesTo_chunks (n := headerSize) hc (by omega)
  obtain ⟨answers2, hget2, -, -⟩ :=
    getBytesTo_chunks (n := bodyLength h) hc1 (by omega)
  have hat : headerAt r.big stream pos = h := by
    unfold headerAt
    rw [hhead, readHeader_headerImage]
    by_cases he : endian h.clientType = r.big
    · simp [he]
    · simp [he]
  have hok : ¬ (¬ isOk mdsplusSuccess ∨ mdsplusSuccess = ssInternal) := by decide
  refine ⟨answers2, ?_⟩
  rw [hlen] at hget2
  unfold getMdsMsgTOC
  cases hu : unpack r mdsplusSuccess ⟨h, body⟩ <;>
    simp only [hget1, if_neg hok, hat, hgood, Bool.false_eq_true, if_false, hget2, Nat.sub_self,
      List.range_zero, List.map_nil, List.append_nil, hlen, hbody, hu]

/-- The body length that the receiver works with: it reads `msglen` from the four bytes
before the deflated body and takes the header off before it flips them. -/
def announced (s : Sender) (r : Receiver) (m : Message) : BitVec 64 :=
  (if wireOrder s m = r.big then m.h.msglen else flip32 m.h.msglen).setWidth 64 - 48

structure ComesThrough (s : Sender) (r : Receiver) (m : Message) : Prop where
  inside : wireOrder s m ≠ r.big → Fits m
  room : ∀ z, deflated s m.h (wireBody s m) = some z →
    m.bytes.length ≤ (announced s r m).toNat ∧ z.length ≤ (announced s r m - 4).toNat

def arrivingBody (s : Sender) (r : Receiver) (m : Message) : List Byte :=
  if s.big = r.big then m.bytes else (flipped m).bytes

def Delivered (s : Sender) (r : Receiver) (m : Message) (wire : List Byte) : Prop :=
  ∀ stream pos answers, window stream pos wire.length = wire → Chunks answers →
    wire.length ≤ answers.length →
    ∃ status msg rest,
      getMdsMsgTOC r stream pos answers = .ok ⟨status, some msg, wire.length, rest⟩ ∧
        isOk status ∧ msg.bytes = arrivingBody s r m ∧
        msg.h ∈ [stamped s m.h, flagged (stamped s m.h)]

theorem wireBody_length (s : Sender) (m : Message) :
    (wireBody s m).length = m.bytes.length := by
  unfold wireBody
  split
  · exact flipped_length _
  · rfl

theorem oriented_wireBody {s : Sender} {r : Receiver} {m : Message} {status : Status}
    {h : MsgHdr} (hok : isOk status) (he : endian h.clientType = wireOrder s m)
    (hruns : flipRuns h = flipRuns m.h) (hfits : doSwap s m.h → Fits m) :
    oriented r status ⟨h, wireBody s m⟩ =
      if wireOrder s m ≠ r.big ∧ ¬ Fits m then none
      else some (status, ⟨h, arrivingBody s r m⟩) := by
  have hfit : Fits ⟨h, wireBody s m⟩ ↔ Fits m := by
    unfold Fits
    rw [hruns, wireBody_length]
  have hflip : ∀ bytes, (flipped ⟨h, bytes⟩).bytes = (flipped ⟨m.h, bytes⟩).bytes := by
    intro bytes
    unfold flipped
    rw [hruns]
  have hwire := wireOrder_eq s m
  unfold oriented
  simp only [hok, true_and, he]
  by_cases hd : doSwap s m.h
  · have hbody : wireBody s m = (flipped m).bytes := by
      unfold wireBody
      rw [if_pos hd]
      rfl
    have hm := hfits hd
    rw [if_pos hd] at hwire
    by_cases hr : wireOrder s m = r.big
    · have hne : s.big ≠ r.big := by
        rw [← hr, hwire]
        cases s.big <;> decide
      simp [hr, hbody, arrivingBody, hne]
    · have heq : s.big = r.big := by
        rw [hwire] at hr
        revert hr
        cases s.big <;> cases r.big <;> decide
      have hback : flipped ⟨h, wireBody s m⟩ = ⟨h, m.bytes⟩ := by
        have := congrArg Message.bytes (flipped_flipped hm)
        unfold flipped at this ⊢
        rw [hbody, hruns]
        exact congrArg _ this
      unfold flipData
      simp only [ne_eq, hr, not_false_eq_true, if_true, hfit, hm, not_true_eq_false, and_false,
        if_false, hback, Option.map_some, arrivingBody, heq]
  · have hbody : wireBody s m = m.bytes := by
      unfold wireBody
      rw [if_neg hd]
    rw [if_neg hd] at hwire
    by_cases hr : wireOrder s m = r.big
    · have heq : s.big = r.big := by rw [← hwire, hr]
      simp [hr, hbody, arrivingBody, heq]
    · have hne : s.big ≠ r.big := by rwa [hwire] at hr
      unfold flipData
      by_cases hm : Fits m
      · have hthere : flipped ⟨h, wireBody s m⟩ = ⟨h, (flipped m).bytes⟩ := by
          unfold flipped
          rw [hbody, hruns]
        simp only [ne_eq, hr, not_false_eq_true, if_true, hfit, hm, not_true_eq_false, and_false,
          if_false, hthere, Option.map_some, arrivingBody, hne]
      · simp [hr, hfit, hm]

theorem endian_arrivingHeader (s : Sender) (m : Message) :
    endian (arrivingHeader s m).clientType = wireOrder s m := by
  unfold arrivingHeader wireOrder
  split
  · exact endian_or_compressed _
  · rfl

theorem cType_stamped {s : Sender} {m : Message} (hm : WellFormed m) :
    cType (stamped s m.h).clientType ≤ crayClient := by
  unfold stamped
  dsimp only
  split
  · rename_i hs
    exact hm.cType hs
  · rw [cType_clientType]
    decide

theorem isCompressed_stamped {s : Sender} {m : Message} (hm : WellFormed m) :
    isCompressed (stamped s m.h).clientType = false := by
  unfold stamped
  dsimp only
  split
  · rename_i hs
    exact hm.plain hs
  · exact isCompressed_clientType s.big

theorem bodyLength_eq {m : Message} (hm : WellFormed m) : bodyLength m.h = m.bytes.length := by
  unfold bodyLength
  rw [hm.msglen]
  omega

theorem deflated_length {s : Sender} {h : MsgHdr} {bytes z : List Byte}
    (hz : deflated s h bytes = some z) :
    z.length < bodyLength h ∧ s.compress2 s.compressionLevel bytes (bodyLength h) = some z := by
  unfold deflated at hz
  split at hz
  · obtain ⟨hz, hlt⟩ := Option.filter_eq_some_iff.mp hz
    exact ⟨by simpa using hlt, hz⟩
  · cases hz

theorem badHeader_arriving {s : Sender} {m : Message} (hm : WellFormed m) :
    badHeader (arrivingHeader s m) = false ∧
      bodyLength (arrivingHeader s m) = (payload s m).length := by
  have hsize := hm.msglen
  have hint := hm.int
  have hc := cType_stamped (s := s) hm
  have hn := hm.ndims
  unfold arrivingHeader payload
  cases hz : deflated s m.h (wireBody s m) with
  | none =>
    have hlen : bodyLength (stamped s m.h) = (wireBody s m).length := by
      rw [wireBody_length]
      exact bodyLength_eq hm
    refine ⟨?_, hlen⟩
    have hmsg : (stamped s m.h).msglen = m.h.msglen := rfl
    have hdims : (stamped s m.h).ndims = m.h.ndims := rfl
    unfold badHeader
    simp only [hmsg, hdims, hsize, Bool.or_eq_false_iff, decide_eq_false_iff_not]
    exact ⟨⟨by omega, BitVec.not_lt.mpr hc⟩, BitVec.not_lt.mpr hn⟩
  | some z =>
    have hlt := (deflated_length hz).1
    rw [bodyLength_eq hm] at hlt
    have hval : (BitVec.ofNat 32 (z.length + 4 + headerSize)).toNat =
        z.length + 4 + headerSize := by
      rw [BitVec.toNat_ofNat, Nat.mod_eq_of_lt]
      unfold headerSize at hsize ⊢
      omega
    have hdims : (stamped s m.h).ndims = m.h.ndims := rfl
    constructor
    · unfold badHeader
      simp only [relabelled_msglen, relabelled_clientType, relabelled_ndims, flagged_clientType,
        flagged_ndims, hval, hdims, cType_or_compressed, Bool.or_eq_false_iff,
        decide_eq_false_iff_not]
      exact ⟨⟨by omega, BitVec.not_lt.mpr hc⟩, BitVec.not_lt.mpr hn⟩
    · unfold bodyLength
      simp only [relabelled_msglen, hval, List.length_append, intImage_length]
      omega

/-- Inflating restores the body exactly when the announced length leaves room for it and
covers the deflated body. -/
theorem decompress_deflated {s : Sender} {r : Receiver} {m : Message} {h : MsgHdr}
    {z : List Byte} (hz : Zlib s.compress2 r.uncompress) (hm : WellFormed m)
    (hdefl : deflated s m.h (wireBody s m) = some z) (he : endian h.clientType = wireOrder s m) :
    decompress r ⟨h, intImage (wireOrder s m) m.h.msglen ++ z⟩ =
      if m.bytes.length ≤ (announced s r m).toNat ∧ z.length ≤ (announced s r m - 4).toNat then
        some (1, ⟨relabelled h m.h.msglen, wireBody s m⟩)
      else some (0, ⟨h, intImage (wireOrder s m) m.h.msglen ++ z⟩) := by
  obtain ⟨-, hcomp⟩ := deflated_length hdefl
  have hsize := hm.msglen
  have hlead := intImage_length (wireOrder s m) m.h.msglen
  have htake : (intImage (wireOrder s m) m.h.msglen ++ z ++ r.beyond).take 4 =
      intImage (wireOrder s m) m.h.msglen := by
    rw [List.append_assoc, List.take_left' hlead]
  have hdrop : (intImage (wireOrder s m) m.h.msglen ++ z ++ r.beyond).drop 4 =
      z ++ r.beyond := by
    rw [List.append_assoc, List.drop_left' hlead]
  have hsent : readInt r.big (intImage (wireOrder s m) m.h.msglen) =
      if wireOrder s m = r.big then m.h.msglen else flip32 m.h.msglen := readInt_intImage _ _ _
  have hback : (if endian h.clientType ≠ r.big then
      flip32 (if wireOrder s m = r.big then m.h.msglen else flip32 m.h.msglen)
      else if wireOrder s m = r.big then m.h.msglen else flip32 m.h.msglen) = m.h.msglen := by
    rw [he]
    by_cases hw : wireOrder s m = r.big
    · simp [hw]
    · simp [hw]
  have hfold : (if wireOrder s m = r.big then m.h.msglen else flip32 m.h.msglen).setWidth 64 - 48
      = announced s r m := rfl
  unfold decompress
  simp only [htake, hdrop, hsent, hback, hfold]
  have hnot : ¬ m.h.msglen.toNat < headerSize := by omega
  by_cases hcover : z.length ≤ (announced s r m - 4).toNat
  · rw [List.take_append, List.take_of_length_le hcover]
    by_cases hroom : m.bytes.length ≤ (announced s r m).toNat
    · have hroom' : (wireBody s m).length ≤ (announced s r m).toNat := by
        rwa [wireBody_length]
      have hfull : ¬ m.h.msglen.toNat < headerSize + (wireBody s m).length := by
        rw [wireBody_length]
        omega
      have hrest : m.h.msglen.toNat - headerSize - (wireBody s m).length = 0 := by
        rw [wireBody_length]
        omega
      rw [hz.restores _ hcomp hroom']
      simp only [hfull, hrest, if_false, hroom, hcover, and_self, if_true, List.range_zero,
        List.map_nil, List.append_nil]
      rfl
    · have hsmall : (announced s r m).toNat < (wireBody s m).length := by
        rw [wireBody_length]
        omega
      rw [hz.tooSmall _ hcomp hsmall]
      simp only [hnot, if_false, hroom, false_and]
  · rw [List.take_append_of_le_length (by omega), hz.truncated _ hcomp (by omega)]
    simp only [hnot, if_false, hcover, and_false]

theorem unpack_sent {s : Sender} {r : Receiver} {m : Message}
    (hz : Zlib s.compress2 r.uncompress) (hm : WellFormed m) (hfits : doSwap s m.h → Fits m) :
    (ComesThrough s r m ∧ ∃ status h,
      unpack r mdsplusSuccess ⟨arrivingHeader s m, payload s m⟩ =
          some (status, ⟨h, arrivingBody s r m⟩) ∧ status ∈ [mdsplusSuccess, 1] ∧
        h ∈ [stamped s m.h, flagged (stamped s m.h)]) ∨
    ¬ ComesThrough s r m ∧
      ∀ p, unpack r mdsplusSuccess ⟨arrivingHeader s m, payload s m⟩ = some p → ¬ isOk p.1 := by
  have hok : isOk mdsplusSuccess := by decide
  cases hdefl : deflated s m.h (wireBody s m) with
  | none =>
    have hhead : arrivingHeader s m = stamped s m.h := by
      unfold arrivingHeader
      rw [hdefl]
    have hbody : payload s m = wireBody s m := by
      unfold payload
      rw [hdefl]
    have hunpack : unpack r mdsplusSuccess ⟨arrivingHeader s m, payload s m⟩ =
        oriented r mdsplusSuccess ⟨stamped s m.h, wireBody s m⟩ := by
      unfold unpack inflated
      simp [hhead, hbody, isCompressed_stamped hm]
    rw [hunpack, oriented_wireBody (h := stamped s m.h) hok rfl rfl hfits]
    by_cases hin : wireOrder s m ≠ r.big ∧ ¬ Fits m
    · right
      rw [if_pos hin]
      exact ⟨fun hc => hin.2 (hc.inside hin.1), nofun⟩
    · left
      rw [if_neg hin]
      refine ⟨⟨fun hr => by_contra fun hn => hin ⟨hr, hn⟩, ?_⟩, _, _, rfl, by simp, by simp⟩
      intro z hz
      rw [hdefl] at hz
      cases hz
  | some z =>
    have hhead : endian (arrivingHeader s m).clientType = wireOrder s m :=
      endian_arrivingHeader s m
    have hbody : payload s m = intImage (wireOrder s m) m.h.msglen ++ z := by
      unfold payload
      rw [hdefl]
    have hflag : isCompressed (arrivingHeader s m).clientType = true := by
      unfold arrivingHeader
      rw [hdefl]
      exact isCompressed_or_compressed _
    have hrestored : relabelled (arrivingHeader s m) m.h.msglen = flagged (stamped s m.h) := by
      unfold arrivingHeader
      rw [hdefl]
      rfl
    have hinflated := decompress_deflated hz hm hdefl hhead
    unfold unpack inflated
    simp only [hok, hflag, and_self, if_true, hbody, hinflated]
    by_cases hroom : m.bytes.length ≤ (announced s r m).toNat ∧
        z.length ≤ (announced s r m - 4).toNat
    · simp only [if_pos hroom, Option.bind_some]
      have hone : isOk 1 := by decide
      have hruns : flipRuns (relabelled (arrivingHeader s m) m.h.msglen) = flipRuns m.h := by
        rw [hrestored]
        rfl
      have horder : endian (relabelled (arrivingHeader s m) m.h.msglen).clientType =
          wireOrder s m := hhead
      rw [oriented_wireBody hone horder hruns hfits]
      by_cases hin : wireOrder s m ≠ r.big ∧ ¬ Fits m
      · right
        rw [if_pos hin]
        exact ⟨fun hc => hin.2 (hc.inside hin.1), nofun⟩
      · left
        rw [if_neg hin]
        refine ⟨⟨fun hr => by_contra fun hn => hin ⟨hr, hn⟩, ?_⟩, _, _, rfl, by simp, ?_⟩
        · intro z' hz'
          rw [hdefl] at hz'
          cases hz'
          exact hroom
        · rw [hrestored]
          simp
    · right
      refine ⟨fun hc => hroom (hc.room z hdefl), ?_⟩
      intro p hp
      simp only [if_neg hroom, Option.bind_some] at hp
      have hbad : ¬ isOk 0 := by decide
      unfold oriented at hp
      rw [if_neg (fun h => hbad h.1)] at hp
      rw [← Option.some.inj hp]
      exact hbad

/-- A stream that starts with the given bytes. -/
def startingWith (wire : List Byte) : ℕ → Byte := fun i => wire.getD i 0

theorem window_startingWith (wire : List Byte) :
    window (startingWith wire) 0 wire.length = wire := by
  apply List.ext_getElem (window_length _ _ _)
  intro i h1 h2
  simp [window, startingWith, List.getElem?_eq_getElem h2]

theorem received_sent {s : Sender} {r : Receiver} {m : Message} {wire : List Byte}
    {stream : ℕ → Byte} {pos : ℕ} {answers : List Recv}
    (hz : Zlib s.compress2 r.uncompress) (hm : WellFormed m) (hsent : sendMdsMsgC s m = some wire)
    (hcarried : window stream pos wire.length = wire) (hc : Chunks answers)
    (henough : wire.length ≤ answers.length) :
    (ComesThrough s r m ∧ ∃ status h rest,
      getMdsMsgTOC r stream pos answers =
          .ok ⟨status, some ⟨h, arrivingBody s r m⟩, wire.length, rest⟩ ∧
        status ∈ [mdsplusSuccess, 1] ∧ h ∈ [stamped s m.h, flagged (stamped s m.h)]) ∨
    ¬ ComesThrough s r m ∧
      ∀ received, getMdsMsgTOC r stream pos answers = .ok received → ¬ isOk received.status := by
  obtain ⟨hwire, hfits⟩ := sendMdsMsgC_eq_some hsent
  obtain ⟨hgood, hlen⟩ := badHeader_arriving (s := s) hm
  obtain ⟨rest, hget⟩ := getMdsMsgTOC_carried (r := r)
    (by rwa [endian_arrivingHeader]) hcarried hgood hlen hc henough
  rcases unpack_sent hz hm hfits with ⟨hthrough, status, h, hunpack, hok, hh⟩ | ⟨hnot, hbad⟩
  · left
    rw [hunpack] at hget
    exact ⟨hthrough, status, h, rest, hget, hok, hh⟩
  · right
    refine ⟨hnot, ?_⟩
    intro received hreceived
    rw [hget] at hreceived
    cases hu : unpack r mdsplusSuccess ⟨arrivingHeader s m, payload s m⟩ with
    | none =>
      rw [hu] at hreceived
      cases hreceived
    | some p =>
      rw [hu] at hreceived
      cases hreceived
      exact hbad p hu

theorem isOk_good {status : Status} (h : status ∈ [mdsplusSuccess, 1]) : isOk status := by
  rcases List.mem_pair.mp h with rfl | rfl <;> decide

def byteByByte (n : ℕ) : List Recv := List.replicate n (.bytes 0)

theorem chunks_byteByByte (n : ℕ) : Chunks (byteByByte n) :=
  fun _ ha => ⟨0, List.eq_of_mem_replicate ha⟩

theorem byteByByte_length (n : ℕ) : (byteByByte n).length = n := List.length_replicate

/-- A message that was sent is received exactly when every element to be flipped lies in the
body and the length read from a deflated message leaves room for both bodies. -/
theorem delivered_iff {s : Sender} {r : Receiver} {m : Message} {wire : List Byte}
    (hz : Zlib s.compress2 r.uncompress) (hm : WellFormed m) (hsent : sendMdsMsgC s m = some wire) :
    Delivered s r m wire ↔ ComesThrough s r m := by
  constructor
  · intro hdelivered
    have henough := (byteByByte_length wire.length).ge
    obtain ⟨status, msg, rest, hget, hok, -⟩ := hdelivered _ 0 _ (window_startingWith wire)
      (chunks_byteByByte wire.length) henough
    rcases received_sent hz hm hsent (window_startingWith wire)
      (chunks_byteByByte wire.length) henough with ⟨hthrough, -⟩ | ⟨-, hbad⟩
    · exact hthrough
    · exact absurd hok (hbad _ hget)
  · intro hthrough stream pos answers hcarried hc henough
    rcases received_sent hz hm hsent hcarried hc henough with
      ⟨-, status, h, rest, hget, hgood, hh⟩ | ⟨hnot, -⟩
    · exact ⟨status, _, rest, hget, isOk_good hgood, rfl, hh⟩
    · exact absurd hthrough hnot

/-! ### Runs on fixed messages -/

/-- zlib on a single body: `z` is what `compress2` makes of `body` at level 6. -/
def compressOnly (body z : List Byte) (level : ℤ) (b : List Byte) (n : ℕ) : Option (List Byte) :=
  if level = 6 ∧ b = body ∧ z.length ≤ n then some z else none

def uncompressOnly (body z : List Byte) (src : List Byte) (d : ℕ) : Option (List Byte) :=
  if src.take z.length = z ∧ body.length ≤ d then some body else none

theorem zlib_only (body z : List Byte) : Zlib (compressOnly body z) (uncompressOnly body z) := by
  have hone : ∀ {level b n z'}, compressOnly body z level b n = some z' →
      b = body ∧ z' = z ∧ z.length ≤ n := by
    intro level b n z' h
    unfold compressOnly at h
    split at h
    · rename_i hc
      exact ⟨hc.2.1, (Option.some.inj h).symm, hc.2.2⟩
    · cases h
  constructor
  case bounded =>
    intro level b n z' h
    obtain ⟨rfl, rfl, hle⟩ := hone h
    exact hle
  case restores =>
    intro level b n z' d more h hd
    obtain ⟨rfl, rfl, -⟩ := hone h
    unfold uncompressOnly
    rw [List.take_left, if_pos ⟨rfl, hd⟩]
  case truncated =>
    intro level b n z' k d h hk
    obtain ⟨rfl, rfl, -⟩ := hone h
    unfold uncompressOnly
    rw [if_neg]
    intro hc
    have hlen := congrArg List.length hc.1
    rw [List.length_take, List.length_take] at hlen
    omega
  case tooSmall =>
    intro level b n z' d more h hd
    obtain ⟨rfl, rfl, -⟩ := hone h
    unfold uncompressOnly
    rw [if_neg fun hc => absurd hc.2 (by omega)]

def zeros (n : ℕ) : Message where
  h :=
    { msglen := BitVec.ofNat 32 (headerSize + n), status := 0, length := 1, nargs := 1,
      descriptorIdx := 0, messageId := 1, dtype := 2, clientType := 0, ndims := 1,
      dims := #v[BitVec.ofNat 32 n, 0, 0, 0, 0, 0, 0, 0] }
  bytes := List.replicate n 0

def deflating (body z : List Byte) : Sender := ⟨false, compressOnly body z, 6⟩

def inflating (body z : List Byte) : Receiver := ⟨false, uncompressOnly body z, fun _ => 0, []⟩

def hundredZeros : List Byte :=
  [0x78, 0x9c, 0x63, 0x60, 0xa0, 0x3d, 0x00, 0x00, 0x00, 0x64, 0x00, 0x01]

def twelveZeros : List Byte :=
  [0x78, 0x9c, 0x63, 0x60, 0x40, 0x00, 0x00, 0x00, 0x0c, 0x00, 0x01]

theorem delivered_hundredZeros :
    ∃ wire, sendMdsMsgC (deflating (zeros 100).bytes hundredZeros) (zeros 100) = some wire ∧
      Delivered (deflating (zeros 100).bytes hundredZeros)
        (inflating (zeros 100).bytes hundredZeros) (zeros 100) wire := by
  obtain ⟨wire, hwire⟩ := Option.isSome_iff_exists.mp
    (show (sendMdsMsgC (deflating (zeros 100).bytes hundredZeros) (zeros 100)).isSome by decide)
  refine ⟨wire, hwire, (delivered_iff (zlib_only _ _) ?_ hwire).mpr ?_⟩
  · exact ⟨by decide, by decide, by decide, by decide, by decide⟩
  · refine ⟨by decide, ?_⟩
    intro z hz
    have hsame : deflated (deflating (zeros 100).bytes hundredZeros) (zeros 100).h
        (wireBody (deflating (zeros 100).bytes hundredZeros) (zeros 100)) =
          some hundredZeros := by decide
    rw [hsame] at hz
    cases hz
    decide

/-- Twelve zero bytes are deflated by one byte, which is less than the length before them. -/
theorem twelveZeros_lost :
    ¬ ∀ s r m wire, Zlib s.compress2 r.uncompress → WellFormed m →
      sendMdsMsgC s m = some wire → Delivered s r m wire := by
  intro hall
  obtain ⟨wire, hwire⟩ := Option.isSome_iff_exists.mp
    (show (sendMdsMsgC (deflating (zeros 12).bytes twelveZeros) (zeros 12)).isSome by decide)
  have hd := hall _ (inflating (zeros 12).bytes twelveZeros) _ wire (zlib_only _ _)
    ⟨by decide, by decide, by decide, by decide, by decide⟩ hwire
  obtain ⟨status, msg, rest, hget, hok, -⟩ := hd _ 0 _ (window_startingWith wire)
    (chunks_byteByByte wire.length) (byteByByte_length wire.length).ge
  have hstatus : (getMdsMsgTOC (inflating (zeros 12).bytes twelveZeros) (startingWith wire) 0
      (byteByByte wire.length)).toOption.map (·.status) = some 0 := by
    have hval := Option.some.inj (hwire.symm.trans
      (rfl : sendMdsMsgC (deflating (zeros 12).bytes twelveZeros) (zeros 12) = some _))
    rw [hval]
    decide
  rw [hget] at hstatus
  obtain rfl : status = 0 := Option.some.inj hstatus
  exact absurd hok (by decide)

end MdsPlus.MessageTransfer
