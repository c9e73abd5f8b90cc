import MdsPlus.MessageStream

/-!
Receiving answers on a connection. `GetMdsMsgTO` hands out the message as it was received,
`GetAnswerInfoTO` the element size, the dimensions and the data of an answer. Dimensions
that the header leaves at zero are derived from the size of the data, and the product of
all must give that size. A connection is closed when no message was read and the status is
the internal one.
-/

namespace MdsPlus.MessageAnswers

open BitMemory MessageHeaders MessageStream

/-- What a receiving call gives back and what it does to the connection. -/
structure Handed (α : Type) where
  status : Status
  value : Option α
  closes : Bool
  taken : ℕ
  rest : List Recv

def outward (status : Status) : Status := if status = ssInternal then mdsplusError else status

def closesConnection (x : Received) : Bool := x.msg.isNone && x.status == ssInternal

def getMdsMsgTO (r : Receiver) (stream : ℕ → Byte) (pos : ℕ) (answers : List Recv) :
    Except Stop (Handed Message) :=
  (getMdsMsgTOC r stream pos answers).map fun x =>
    ⟨outward x.status, x.msg, closesConnection x, x.taken, x.rest⟩

structure AnswerInfo where
  status : BitVec 32
  dtype : BitVec 8
  length : BitVec 16
  /-- As many as `ndims`; the others are zero. -/
  dims : List (BitVec 32)
  bytes : List Byte
deriving DecidableEq

/-- The loop over the dimensions: those of the answer and the size they give. A dimension of
zero ends the loop unless there is no data, or the data is what the dimensions before give. -/
def readDims (datalen : BitVec 32) :
    List (BitVec 32) → BitVec 32 → Except Stop (List (BitVec 32) × BitVec 32)
  | [], numbytes => .ok ([], numbytes)
  | d :: ds, numbytes =>
      if d ≠ 0 ∨ datalen = 0 then
        (readDims datalen ds (numbytes * d)).map fun p => (d :: p.1, p.2)
      else if numbytes.slt datalen ∧ numbytes = 0 then .error .trap
      else if numbytes.slt datalen ∧ datalen.srem numbytes ≠ 0 then
        .ok ([datalen.sdiv numbytes], numbytes * datalen.sdiv numbytes)
      else if datalen = numbytes ∧ ds = [] then .ok ([1], numbytes)
      else .ok ([], numbytes)

/-- What `GetAnswerInfoTO` makes of a message; none when the size does not fit. -/
def answerInfo (m : Message) : Except Stop (Option AnswerInfo) :=
  let datalen := m.h.msglen - 48
  (readDims datalen (m.h.dims.toList.take m.h.ndims.toNat) (m.h.length.signExtend 32)).map
    fun p =>
      if p.2 = datalen then some ⟨m.h.status, m.h.dtype, m.h.length, p.1, m.bytes⟩ else none

def getAnswerInfoTO (r : Receiver) (stream : ℕ → Byte) (pos : ℕ) (answers : List Recv) :
    Except Stop (Handed AnswerInfo) :=
  match getMdsMsgTOC r stream pos answers with
  | .error stop => .error stop
  | .ok x =>
    if isOk (outward x.status) then
      match x.msg with
      | none => .error .overrun
      | some m =>
        (answerInfo m).map fun info =>
          match info with
          | none => ⟨mdsplusError, none, closesConnection x, x.taken, x.rest⟩
          | some info => ⟨info.status.toInt, some info, closesConnection x, x.taken, x.rest⟩
    else .ok ⟨outward x.status, none, closesConnection x, x.taken, x.rest⟩

/-- Dimensions that are not zero are taken as they are, and so are all when there is no data. -/
theorem readDims_append {datalen : BitVec 32} {ds : List (BitVec 32)} (more : List (BitVec 32))
    (n : BitVec 32) (h : datalen = 0 ∨ ∀ d ∈ ds, d ≠ 0) :
    readDims datalen (ds ++ more) n =
      (readDims datalen more (n * ds.foldl (· * ·) 1)).map fun p => (ds ++ p.1, p.2) := by
  induction ds generalizing n with
  | nil => cases hm : readDims datalen more n <;> simp [hm, Except.map]
  | cons d ds ih =>
    have hd : d ≠ 0 ∨ datalen = 0 := by
      rcases h with h | h
      · exact .inr h
      · exact .inl (h d List.mem_cons_self)
    have hrest : datalen = 0 ∨ ∀ d ∈ ds, d ≠ 0 :=
      h.imp_right fun h d hd => h d (List.mem_cons_of_mem _ hd)
    have hprod : n * d * ds.foldl (· * ·) 1 = n * (d :: ds).foldl (· * ·) 1 := by
      rw [← List.prod_eq_foldl, ← List.prod_eq_foldl, List.prod_cons]
      exact BitVec.mul_assoc n d ds.prod
    rw [List.cons_append, readDims, if_pos hd, ih _ hrest, hprod]
    cases readDims datalen more (n * (d :: ds).foldl (· * ·) 1) <;> rfl

theorem readDims_zero {datalen n : BitVec 32} {ds : List (BitVec 32)} (h : datalen ≠ 0)
    (hn : n = datalen) :
    readDims datalen (0 :: ds) n = .ok (if ds = [] then [1] else [], n) := by
  subst hn
  have hslt : ¬ n.slt n = true := by simp [BitVec.slt]
  simp only [readDims, ne_eq, not_true_eq_false, h, or_self, if_false, hslt, Bool.false_eq_true,
    false_and, true_and]
  split <;> rfl

theorem srem_eq_zero {d n : BitVec 32} (h : n * d.sdiv n = d) : d.srem n = 0 := by
  apply BitVec.eq_of_toInt_eq
  rw [BitVec.toInt_srem]
  have hprod := congrArg BitVec.toInt h
  rw [BitVec.toInt_mul, BitVec.toInt_sdiv, Int.mul_bmod_bmod] at hprod
  have hsplit := Int.tmod_add_mul_tdiv d.toInt n.toInt
  have hdvd := Int.dvd_sub_self_of_bmod_eq hprod
  have hzero : (0 : BitVec 32).toInt = 0 := rfl
  by_cases hn : n.toInt = 0
  · rw [hn] at hprod hsplit ⊢
    simp only [Int.zero_mul] at hprod hsplit
    rw [hzero, ← hprod]
    simp
  · have hlt : (d.toInt.tmod n.toInt).natAbs < n.toInt.natAbs := by
      rw [Int.natAbs_tmod]
      exact Nat.mod_lt _ (Int.natAbs_pos.mpr hn)
    have hle : n.toInt.natAbs ≤ 2 ^ 31 := by
      have := BitVec.le_toInt n
      have := BitVec.toInt_lt (x := n)
      omega
    rw [hzero]
    omega

theorem readDims_zero_ne {datalen n : BitVec 32} {ds : List (BitVec 32)}
    {p : List (BitVec 32) × BitVec 32} (h : datalen ≠ 0) (hn : n ≠ datalen)
    (hread : readDims datalen (0 :: ds) n = .ok p) : p.2 ≠ datalen := by
  unfold readDims at hread
  rw [if_neg fun hc => hc.elim (fun h0 => h0 rfl) h] at hread
  split at hread
  · cases hread
  · split at hread
    · rename_i hrem
      cases hread
      intro hprod
      exact hrem.2 (srem_eq_zero hprod)
    · rw [if_neg fun hc => hn hc.1.symm] at hread
      cases hread
      exact hn

end MdsPlus.MessageAnswers
