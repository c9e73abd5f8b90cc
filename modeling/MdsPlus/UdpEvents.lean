import MdsPlus.MessageHeaders

/-!
Events as datagrams. The sender lays out the name of the event and its data, each behind
its length; a thread that is registered for a name runs its callback for the datagrams that
carry this name and drops all others.
-/

namespace MdsPlus.UdpEvents

open BitMemory MessageHeaders

def maxMsgLen : ℕ := 4096

def maxDatagram : ℕ := 65507

structure EventName where
  bytes : List Byte
  nonzero : 0 ∉ bytes
  fits : 8 + bytes.length ≤ maxDatagram
deriving DecidableEq

/-- The bytes of a number in network order, as `htonl` and a copy lay them out on any host. -/
def netBytes (v : BitVec 32) : List Byte := intImage true v

def fromNet (bytes : List Byte) : BitVec 32 := readInt true bytes

/-! ### The sender -/

/-- The parts are copied one behind the other into an allocation of the size. -/
structure Layout where
  size : BitVec 32
  parts : List (List Byte)

def actBufLen (nameLen bufLen : BitVec 32) : BitVec 32 :=
  if bufLen < 4096 - (4 + 4 + nameLen) then bufLen else 4096 - (4 + 4 + nameLen)

def nameLen (name : EventName) : BitVec 32 := BitVec.ofNat 32 name.bytes.length

def bufLen (data : List Byte) : BitVec 32 := BitVec.ofNat 32 data.length

def mdsUdpEvent (name : EventName) (data : List Byte) : Layout :=
  { size := 4 + nameLen name + 4 + actBufLen (nameLen name) (bufLen data)
    parts := [netBytes (nameLen name), name.bytes, netBytes (bufLen data), data] }

/-- Everything is written inside the allocation. -/
def Layout.Inside (l : Layout) : Prop := l.parts.flatten.length ≤ l.size.toNat

def Layout.sendto (l : Layout) : Option (List Byte) :=
  if l.size.toNat ≤ maxDatagram then some (l.parts.flatten.take l.size.toNat) else none

/-! ### The receiver -/

/-- What a registered thread does with a datagram. -/
inductive Handling
  | ended
  | ignored
  | overread
  | ran (bufLen : Int) (data : List Byte)
deriving DecidableEq

def readAt (recBuf : List Byte) (offset len : ℕ) : Option (List Byte) :=
  if offset + len ≤ recBuf.length then some ((recBuf.drop offset).take len) else none

def strncmp : List Byte → List Byte → Bool
  | a :: as, b :: bs => a == b && (a == 0 || strncmp as bs)
  | _, _ => true

/-- `handleMessage` on what `recvfrom` takes of a datagram. -/
def handleReceived (name : EventName) (recBuf : List Byte) : Handling :=
  if recBuf.length = 0 then .ended
  else if recBuf.length < 8 + name.bytes.length then .ignored
  else
    match readAt recBuf 0 4 with
    | none => .overread
    | some swap =>
      let nameLen := fromNet swap
      if nameLen.toNat ≠ name.bytes.length then .ignored
      else
        match readAt recBuf (4 + nameLen.toNat) 4 with
        | none => .overread
        | some swap =>
          let bufLen := fromNet swap
          if recBuf.length ≠ (nameLen + bufLen).toNat + 8 then .ignored
          else
            match readAt recBuf 4 nameLen.toNat, readAt recBuf (8 + nameLen.toNat) bufLen.toNat with
            | some eventName, some data =>
              if strncmp name.bytes eventName then .ran bufLen.toInt data else .ignored
            | _, _ => .overread

def handleMessage (name : EventName) (datagram : List Byte) : Handling :=
  handleReceived name (datagram.take maxMsgLen)

/-! ### The layout of a message -/

def message (name : EventName) (data : List Byte) : List Byte :=
  netBytes (nameLen name) ++ (name.bytes ++ (netBytes (bufLen data) ++ data))

def Fits (name : EventName) (data : List Byte) : Prop :=
  8 + name.bytes.length + data.length ≤ maxMsgLen

instance (name : EventName) (data : List Byte) : Decidable (Fits name data) :=
  inferInstanceAs (Decidable (_ ≤ _))

/-- What an event is to do: it is written inside its allocation, and when it arrives exactly the
threads registered for its name run, with the data that was sent and its length. -/
def Arrives (name : EventName) (data : List Byte) : Prop :=
  let sent := data.take (actBufLen (nameLen name) (bufLen data)).toNat
  (mdsUdpEvent name data).Inside ∧
    ∃ datagram, (mdsUdpEvent name data).sendto = some datagram ∧
      ∀ registered, handleMessage registered datagram =
        if registered = name then .ran sent.length sent else .ignored

@[simp] theorem netBytes_length (v : BitVec 32) : (netBytes v).length = 4 := intImage_length true v

@[simp] theorem fromNet_netBytes (v : BitVec 32) : fromNet (netBytes v) = v := by
  rw [fromNet, netBytes, readInt_intImage, if_pos rfl]

theorem netBytes_fromNet {bytes : List Byte} (h : bytes.length = 4) :
    netBytes (fromNet bytes) = bytes := by
  unfold netBytes fromNet intImage readInt onHost
  rw [if_pos rfl, if_pos rfl, flip32_flip32]
  exact int_encode_decode 4 bytes h

theorem nameLen_toNat (name : EventName) : (nameLen name).toNat = name.bytes.length := by
  have := name.fits
  rw [nameLen, BitVec.toNat_ofNat]
  unfold maxDatagram at this
  omega

theorem bufLen_toNat {data : List Byte} (h : data.length < 2 ^ 32) :
    (bufLen data).toNat = data.length := by
  rw [bufLen, BitVec.toNat_ofNat]
  exact Nat.mod_eq_of_lt h

theorem message_length (name : EventName) (data : List Byte) :
    (message name data).length = 8 + name.bytes.length + data.length := by
  simp only [message, List.length_append, netBytes_length]
  omega

theorem parts_flatten (name : EventName) (data : List Byte) :
    (mdsUdpEvent name data).parts.flatten = message name data := by
  simp only [mdsUdpEvent, message, List.flatten_cons, List.flatten_nil, List.append_nil]

theorem strncmp_iff {as bs : List Byte} (h : 0 ∉ as) (hlen : as.length = bs.length) :
    strncmp as bs ↔ as = bs := by
  induction as generalizing bs with
  | nil =>
    obtain rfl := List.length_eq_zero_iff.mp hlen.symm
    exact iff_of_true rfl rfl
  | cons a as ih =>
    cases bs with
    | nil => cases hlen
    | cons b bs =>
      obtain ⟨ha, has⟩ := not_or.mp (h ∘ List.mem_cons.mpr)
      have hrest := ih has (Nat.succ.inj hlen)
      rw [strncmp, Bool.and_eq_true, Bool.or_eq_true, beq_iff_eq, beq_iff_eq, hrest,
        List.cons.injEq]
      exact and_congr_right fun _ => or_iff_right fun h0 => ha h0.symm

/-! ### What a thread does with a datagram -/

theorem readAt_append (before bytes rest : List Byte) {recBuf : List Byte} {offset len : ℕ}
    (h : recBuf = before ++ (bytes ++ rest)) (hoffset : offset = before.length)
    (hlen : len = bytes.length) : readAt recBuf offset len = some bytes := by
  subst h hoffset hlen
  have hin : before.length + bytes.length ≤ (before ++ (bytes ++ rest)).length := by
    simp only [List.length_append]
    omega
  rw [readAt, if_pos hin, List.drop_left, List.take_left]

theorem readAt_eq_some {recBuf : List Byte} {offset len : ℕ} (h : offset + len ≤ recBuf.length) :
    ∃ bytes, readAt recBuf offset len = some bytes ∧ bytes.length = len ∧
      recBuf.drop offset = bytes ++ recBuf.drop (offset + len) := by
  refine ⟨(recBuf.drop offset).take len, by rw [readAt, if_pos h], ?_, ?_⟩
  · rw [List.length_take, List.length_drop]
    omega
  · rw [← List.drop_drop, List.take_append_drop]

theorem handleReceived_message {name : EventName} {data : List Byte} (h : Fits name data) :
    handleReceived name (message name data) = .ran data.length data := by
  unfold Fits maxMsgLen at h
  have hdata : (bufLen data).toNat = data.length := bufLen_toNat (by omega)
  have hname := nameLen_toNat name
  have hsum : (nameLen name + bufLen data).toNat + 8 = (message name data).length := by
    rw [BitVec.toNat_add, hname, hdata, message_length]
    omega
  have hint : (bufLen data).toInt = data.length := by
    rw [BitVec.toInt_eq_toNat_of_lt (by omega), hdata]
  have hlen := message_length name data
  have hread0 : readAt (message name data) 0 4 = some (netBytes (nameLen name)) :=
    readAt_append [] _ (name.bytes ++ (netBytes (bufLen data) ++ data)) rfl rfl
      (netBytes_length _).symm
  have hread1 : readAt (message name data) (4 + (nameLen name).toNat) 4 =
      some (netBytes (bufLen data)) := by
    refine readAt_append (netBytes (nameLen name) ++ name.bytes) _ data ?_ ?_
      (netBytes_length _).symm
    · rw [message, List.append_assoc]
    · rw [List.length_append, netBytes_length, hname]
  have hread2 : readAt (message name data) 4 (nameLen name).toNat = some name.bytes :=
    readAt_append (netBytes (nameLen name)) _ (netBytes (bufLen data) ++ data) rfl
      (netBytes_length _).symm hname
  have hread3 : readAt (message name data) (8 + (nameLen name).toNat) (bufLen data).toNat =
      some data := by
    refine readAt_append (netBytes (nameLen name) ++ (name.bytes ++ netBytes (bufLen data))) _ []
      ?_ ?_ hdata
    · simp only [message, List.append_assoc, List.append_nil]
    · simp only [List.length_append, netBytes_length, hname]
      omega
  unfold handleReceived
  rw [if_neg (by omega), if_neg (by omega), hread0]
  simp only [fromNet_netBytes, hread1, hread2, hread3]
  rw [if_neg (not_not.mpr hname), if_neg (not_not.mpr hsum.symm),
    if_pos ((strncmp_iff name.nonzero rfl).mpr rfl), hint]

theorem eq_message {name : EventName} {recBuf swap swap1 data : List Byte}
    (hswap : swap.length = 4) (hswap1 : swap1.length = 4)
    (hname : (fromNet swap).toNat = name.bytes.length)
    (hdata : data.length = (fromNet swap1).toNat)
    (h : recBuf = swap ++ (name.bytes ++ (swap1 ++ data))) : recBuf = message name data := by
  have hname' : fromNet swap = nameLen name := BitVec.eq_of_toNat_eq (by rw [hname, nameLen_toNat])
  have hdata' : fromNet swap1 = bufLen data := by
    rw [bufLen, hdata, BitVec.ofNat_toNat, BitVec.setWidth_eq]
  rw [h, message, ← hname', ← hdata', netBytes_fromNet hswap, netBytes_fromNet hswap1]

/-- A thread that has received something runs for a whole message of its name, and for nothing
else. -/
theorem handleReceived_cases {name : EventName} {recBuf : List Byte} (hne : recBuf ≠ []) :
    handleReceived name recBuf = .ignored ∨ ∃ data, recBuf = message name data := by
  have hpos := List.length_pos_iff.mpr hne
  unfold handleReceived
  rw [if_neg (by omega)]
  split
  · exact .inl rfl
  · next hlong =>
    obtain ⟨swap, hread0, hswap, hrest0⟩ := readAt_eq_some (show 0 + 4 ≤ recBuf.length by omega)
    rw [hread0]
    simp only
    split
    · exact .inl rfl
    · next hname =>
      rw [not_not] at hname
      obtain ⟨swap1, hread1, hswap1, hrest1⟩ :=
        readAt_eq_some (show 4 + (fromNet swap).toNat + 4 ≤ recBuf.length by omega)
      rw [hread1]
      simp only
      split
      · exact .inl rfl
      · next hsize =>
        rw [not_not, BitVec.toNat_add, hname] at hsize
        -- The sum does not wrap: it would be less than the name alone.
        have hsum : recBuf.length = 8 + name.bytes.length + (fromNet swap1).toNat := by
          have hbound := (fromNet swap1).isLt
          have hfits := name.fits
          unfold maxDatagram at hfits
          omega
        obtain ⟨eventName, hread2, hevent, hrest2⟩ :=
          readAt_eq_some (show 4 + (fromNet swap).toNat ≤ recBuf.length by omega)
        obtain ⟨data, hread3, hdata, hrest3⟩ := readAt_eq_some
          (show 8 + (fromNet swap).toNat + (fromNet swap1).toNat ≤ recBuf.length by omega)
        rw [hread2, hread3]
        simp only
        split
        · next hsame =>
          have hbytes := (strncmp_iff name.nonzero (by omega)).mp hsame
          refine .inr ⟨data, eq_message hswap hswap1 hname hdata ?_⟩
          have hnone : recBuf.drop (8 + (fromNet swap).toNat + (fromNet swap1).toNat) = [] :=
            List.drop_eq_nil_of_le (by omega)
          have hoffset : 4 + (fromNet swap).toNat + 4 = 8 + (fromNet swap).toNat := by omega
          rw [hnone, List.append_nil] at hrest3
          rw [hoffset, hrest3] at hrest1
          rw [Nat.zero_add, List.drop_zero, hrest2, hrest1, ← hbytes] at hrest0
          exact hrest0
        · exact .inl rfl

/-- A thread is left as it is by what does not begin with a whole message of its name, apart from
an empty datagram, which ends it. -/
theorem handleMessage_ignored_iff (name : EventName) (datagram : List Byte) :
    handleMessage name datagram = .ignored ↔
      datagram ≠ [] ∧ ∀ data, datagram.take maxMsgLen ≠ message name data := by
  unfold handleMessage
  constructor
  · intro h
    constructor
    · rintro rfl
      cases h
    · intro data hdata
      have hfits : Fits name data := by
        have hlen := congrArg List.length hdata
        rw [message_length, List.length_take] at hlen
        unfold Fits
        omega
      rw [hdata, handleReceived_message hfits] at h
      cases h
  · rintro ⟨hne, hnone⟩
    have hrec : datagram.take maxMsgLen ≠ [] := by
      rw [ne_eq, List.take_eq_nil_iff, not_or]
      exact ⟨by decide, hne⟩
    obtain hignored | ⟨data, hdata⟩ := handleReceived_cases hrec
    · exact hignored
    · exact absurd hdata (hnone data)

theorem message_name {name other : EventName} {data data' : List Byte}
    (h : message name data = message other data') : name = other := by
  obtain ⟨hlen, hrest⟩ := List.append_inj h (by rw [netBytes_length, netBytes_length])
  have hname : nameLen name = nameLen other := by
    rw [← fromNet_netBytes (nameLen name), hlen, fromNet_netBytes]
  have hlength : name.bytes.length = other.bytes.length := by
    rw [← nameLen_toNat, hname, nameLen_toNat]
  obtain ⟨hbytes, -⟩ := List.append_inj hrest hlength
  cases name
  cases other
  cases hbytes
  rfl

/-! ### What an event does -/

theorem room_toNat {name : EventName} (h : name.bytes.length ≤ 4088) :
    (4096 - (4 + 4 + nameLen name)).toNat = 4088 - name.bytes.length := by
  have hname := nameLen_toNat name
  have h4096 : (4096 : BitVec 32).toNat = 4096 := by decide
  have h8 : (4 + 4 : BitVec 32).toNat = 8 := by decide
  rw [BitVec.toNat_sub, BitVec.toNat_add, h4096, h8, hname]
  omega

theorem actBufLen_toNat {name : EventName} (h : name.bytes.length ≤ 4088) (len : BitVec 32) :
    (actBufLen (nameLen name) len).toNat = min len.toNat (4088 - name.bytes.length) := by
  unfold actBufLen
  split
  · next hlt =>
    rw [BitVec.lt_def, room_toNat h] at hlt
    omega
  · next hge =>
    rw [BitVec.lt_def, room_toNat h] at hge
    rw [room_toNat h]
    omega

theorem size_toNat {name : EventName} (h : name.bytes.length ≤ 4088) (data : List Byte) :
    (mdsUdpEvent name data).size.toNat =
      8 + name.bytes.length + min (bufLen data).toNat (4088 - name.bytes.length) := by
  change (4 + nameLen name + 4 + actBufLen (nameLen name) (bufLen data)).toNat = _
  have hname := nameLen_toNat name
  have hact := actBufLen_toNat h (bufLen data)
  have h4 : (4 : BitVec 32).toNat = 4 := by decide
  rw [BitVec.toNat_add, BitVec.toNat_add, BitVec.toNat_add, hact, hname, h4]
  omega

theorem arrives_of_fits {name : EventName} {data : List Byte} (h : Fits name data) :
    Arrives name data := by
  have hfits := h
  unfold Fits maxMsgLen at hfits
  have hdata : (bufLen data).toNat = data.length := bufLen_toNat (by omega)
  have hsize : (mdsUdpEvent name data).size.toNat = (message name data).length := by
    rw [size_toNat (by omega), hdata, message_length]
    omega
  have hact : (actBufLen (nameLen name) (bufLen data)).toNat = data.length := by
    rw [actBufLen_toNat (by omega), hdata]
    omega
  have hlen := message_length name data
  have htake : (message name data).take maxMsgLen = message name data := by
    apply List.take_of_length_le
    unfold maxMsgLen
    omega
  refine ⟨?_, message name data, ?_, fun registered => ?_⟩
  · rw [Layout.Inside, parts_flatten, hsize]
  · have hsent : (mdsUdpEvent name data).size.toNat ≤ maxDatagram := by
      unfold maxDatagram
      omega
    rw [Layout.sendto, if_pos hsent, parts_flatten, hsize, List.take_length]
  · rw [hact, List.take_length]
    split
    · next hsame => rw [hsame, handleMessage, htake, handleReceived_message h]
    · next hother =>
      rw [handleMessage_ignored_iff, htake]
      refine ⟨?_, fun data' hdata' => hother (message_name hdata').symm⟩
      rw [← List.length_pos_iff]
      omega

theorem fits_of_arrives {name : EventName} {data : List Byte} (hdata : data.length < 2 ^ 32)
    (h : Arrives name data) : Fits name data := by
  obtain ⟨hinside, datagram, hsent, hhandle⟩ := h
  rw [Layout.Inside, parts_flatten, message_length] at hinside
  by_cases hname : name.bytes.length ≤ 4088
  · rw [size_toNat hname, bufLen_toNat hdata] at hinside
    unfold Fits maxMsgLen
    omega
  · -- The name alone does not fit the buffer of a receiver.
    exfalso
    have hran := hhandle name
    rw [if_pos rfl, handleMessage] at hran
    by_cases hempty : datagram.take maxMsgLen = []
    · rw [hempty] at hran
      cases hran
    · obtain hignored | ⟨data', hdata'⟩ := handleReceived_cases hempty
      · rw [hignored] at hran
        cases hran
      · have hlen := congrArg List.length hdata'
        rw [message_length, List.length_take] at hlen
        unfold maxMsgLen at hlen
        omega

/-- An event does what it is to do exactly when its name and data fit the buffer of a receiver. A
thread leaves a datagram aside exactly when it is not empty and does not begin with a whole
message of its name. -/
theorem event_arrives_iff (name : EventName) (data datagram : List Byte)
    (hdata : data.length < 2 ^ 32) :
    (Arrives name data ↔ Fits name data) ∧
      (handleMessage name datagram = .ignored ↔
        datagram ≠ [] ∧ ∀ data', datagram.take maxMsgLen ≠ message name data') :=
  ⟨⟨fits_of_arrives hdata, arrives_of_fits⟩, handleMessage_ignored_iff name datagram⟩

def eventE : EventName := ⟨[0x45], by decide, by decide⟩

theorem eventE_arrives : Arrives eventE [1, 2] :=
  (event_arrives_iff eventE [1, 2] [] (by decide)).1.mpr (by decide)

theorem clipped_outside : ¬ ∀ name data, data.length < 2 ^ 32 → Arrives name data := by
  intro hall
  have hlen : (List.replicate 4088 (0 : Byte)).length = 4088 := List.length_replicate
  have harrives := hall eventE (List.replicate 4088 0) (by rw [hlen]; decide)
  have hfits := fits_of_arrives (by rw [hlen]; decide) harrives
  unfold Fits maxMsgLen at hfits
  have hname : eventE.bytes.length = 1 := rfl
  omega

end MdsPlus.UdpEvents
