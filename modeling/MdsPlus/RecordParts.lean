import MdsPlus.DatafileRecords
import MdsPlus.Outcome

/-!
A record put into the datafile reads back, by its parts or all at once. Both readers
meet the writer at a chain of parts in the file.
-/

namespace MdsPlus.RecordParts

open BitMemory ByteFile Datafile DatafileRecords Outcome

theorem recordHeader_size : recordHeader.size = 12 := by decide

theorem maxPart_eq : maxPart = 32755 := rfl

inductive Chain (f : File) (nodenum : BitVec 32) : Rfa → List Byte → Prop
  | nil (rfa : Rfa) : Chain f nodenum rfa []
  | part {off : ℕ} {next : Rfa} {part tail : List Byte} (hoff : off < rfaLimit)
      (hpos : 0 < part.length) (hmax : part.length ≤ maxPart)
      (hholds : Holds f off
        (recordHeader.encode ⟨BitVec.ofNat 16 (part.length + 10), nodenum, next⟩ ++ part))
      (htail : Chain f nodenum next tail) :
      Chain f nodenum (seekToRfa (BitVec.ofNat 64 off)) (part ++ tail)

theorem blockLength_step {n : ℕ} (h : 0 < n) :
    blockLength n = recordHeader.size + min maxPart n + blockLength (n - min maxPart n) := by
  simp only [blockLength, recordHeader_size, maxPart, DATAF_C_MAX_RECORD_SIZE]
  by_cases hn : n ≤ 32755
  · have hmin : min (32765 - 12 + 2) n = n := by omega
    rw [hmin]
    omega
  · have hmin : min (32765 - 12 + 2) n = 32755 := by omega
    rw [hmin]
    omega

theorem blockLength_zero : blockLength 0 = 0 := rfl

section Writing

variable {nodenum : BitVec 32} {record : List Byte}

/-- The part a buffer begins with: the last bytes of the record. -/
def firstPart (nodenum : BitVec 32) (record : List Byte) (n : ℕ) (rfa : Rfa) : List Byte :=
  recordHeader.encode ⟨BitVec.ofNat 16 (min maxPart n + 10), nodenum, rfa⟩ ++
    (record.drop (n - min maxPart n)).take (min maxPart n)

theorem putParts_zero (rfa : Rfa) (eof : ℕ) : putParts nodenum record 0 rfa eof = ([], eof) := by
  rw [putParts, if_pos rfl]

theorem putParts_buffer {n : ℕ} (hn : 0 < n) (rfa : Rfa) (eof : ℕ) :
    (putParts nodenum record n rfa eof).1 = firstPart nodenum record n rfa ++
      (putParts nodenum record (n - min maxPart n) (seekToRfa (BitVec.ofNat 64 eof))
        (eof + (recordHeader.size + min maxPart n))).1 := by
  rw [putParts, if_neg (by omega)]
  by_cases hrest : n - min maxPart n = 0
  · simp only [hrest, if_true, putParts_zero, firstPart, List.append_nil]
  · simp only [if_neg hrest, firstPart]

theorem putParts_last {n : ℕ} (hn : 0 < n) (rfa : Rfa) (eof : ℕ) :
    (putParts nodenum record n rfa eof).2 =
      if n - min maxPart n = 0 then eof
      else (putParts nodenum record (n - min maxPart n) (seekToRfa (BitVec.ofNat 64 eof))
        (eof + (recordHeader.size + min maxPart n))).2 := by
  rw [putParts, if_neg (by omega)]
  by_cases hrest : n - min maxPart n = 0
  · simp only [hrest, if_true]
  · simp only [if_neg hrest]

theorem rest_lt {n : ℕ} (hn : 0 < n) : n - min maxPart n < n := by
  rw [maxPart_eq]
  omega

theorem length_firstPart (nodenum : BitVec 32) {n : ℕ} (hn : n ≤ record.length) (rfa : Rfa) :
    (firstPart nodenum record n rfa).length = recordHeader.size + min maxPart n := by
  rw [firstPart, List.length_append, recordHeader.length_encode, List.length_take,
    List.length_drop]
  omega

theorem length_putParts (nodenum : BitVec 32) (n : ℕ) (rfa : Rfa) (eof : ℕ) (hn : n ≤ record.length) :
    (putParts nodenum record n rfa eof).1.length = blockLength n := by
  induction n using Nat.strong_induction_on generalizing rfa eof with
  | _ n ih =>
    rcases Nat.eq_zero_or_pos n with rfl | hpos
    · rw [putParts_zero, blockLength_zero, List.length_nil]
    · rw [putParts_buffer hpos, List.length_append, length_firstPart nodenum hn,
        ih _ (rest_lt hpos) _ _ (by omega), blockLength_step hpos]

theorem last_putParts (n : ℕ) (rfa : Rfa) (eof : ℕ) (hpos : 0 < n) :
    (putParts nodenum record n rfa eof).2 =
      eof + (n - 1) / maxPart * (maxPart + recordHeader.size) := by
  induction n using Nat.strong_induction_on generalizing rfa eof with
  | _ n ih =>
    rw [putParts_last hpos]
    by_cases hrest : n - min maxPart n = 0
    · have hzero : (n - 1) / maxPart = 0 := by
        rw [maxPart_eq] at hrest ⊢
        omega
      rw [if_pos hrest, hzero, Nat.zero_mul, Nat.add_zero]
    · have hmin : min maxPart n = maxPart := by omega
      have hdiv : (n - 1) / maxPart = (n - maxPart - 1) / maxPart + 1 := by
        rw [maxPart_eq] at hrest ⊢
        omega
      rw [if_neg hrest, ih _ (rest_lt hpos) _ _ (by omega), hmin, hdiv]
      ring

theorem drop_firstPart {n : ℕ} (hn : n ≤ record.length) (rfa : Rfa) (tail : List Byte) :
    (firstPart nodenum record n rfa ++ tail).drop (recordHeader.size + min maxPart n) = tail := by
  rw [← length_firstPart nodenum hn rfa, List.drop_left]

theorem take_firstPart {n : ℕ} (hn : n ≤ record.length) (rfa : Rfa) (tail : List Byte) :
    ((firstPart nodenum record n rfa ++ tail).drop recordHeader.size).take (min maxPart n) =
      (record.drop (n - min maxPart n)).take (min maxPart n) := by
  obtain ⟨header, hheader⟩ : ∃ header, header =
    recordHeader.encode ⟨BitVec.ofNat 16 (min maxPart n + 10), nodenum, rfa⟩ := ⟨_, rfl⟩
  have hlen : header.length = recordHeader.size := by rw [hheader, recordHeader.length_encode]
  rw [firstPart, ← hheader, List.append_assoc, ← hlen, List.drop_left, List.take_append_of_le_length]
  · rw [List.take_take, Nat.min_self]
  · rw [List.length_take, List.length_drop]
    omega

theorem take_append_part (n m : ℕ) (hm : m ≤ n) :
    record.take (n - m) ++ (record.drop (n - m)).take m = record.take n := by
  obtain ⟨k, rfl⟩ : ∃ k, n = k + m := ⟨n - m, by omega⟩
  rw [Nat.add_sub_cancel, ← List.take_add]

theorem copyParts_putParts (nodenum : BitVec 32) (n : ℕ) (rfa : Rfa) (eof : ℕ) (hn : n ≤ record.length) :
    copyParts (putParts nodenum record n rfa eof).1 n = record.take n := by
  induction n using Nat.strong_induction_on generalizing rfa eof with
  | _ n ih =>
    rcases Nat.eq_zero_or_pos n with rfl | hpos
    · rw [copyParts, if_pos rfl, List.take_zero]
    · rw [copyParts, if_neg (by omega), putParts_buffer hpos]
      simp only
      rw [drop_firstPart hn, take_firstPart hn, ih _ (rest_lt hpos) _ _ (by omega),
        take_append_part n _ (Nat.min_le_right _ _)]

theorem chain_putParts {f : File} (n : ℕ) {rfa : Rfa} {eof : ℕ} {tail : List Byte} (hpos : 0 < n)
    (hn : n ≤ record.length) (htail : Chain f nodenum rfa tail)
    (hlimit : (putParts nodenum record n rfa eof).2 < rfaLimit)
    (hholds : Holds f eof (putParts nodenum record n rfa eof).1) :
    Chain f nodenum (seekToRfa (BitVec.ofNat 64 (putParts nodenum record n rfa eof).2))
      (record.take n ++ tail) := by
  induction n using Nat.strong_induction_on generalizing rfa eof tail with
  | _ n ih =>
    have hlen := length_firstPart nodenum hn rfa
    have hm : 0 < min maxPart n := by
      rw [maxPart_eq]
      omega
    have hpart : ((record.drop (n - min maxPart n)).take (min maxPart n)).length =
        min maxPart n := by
      rw [List.length_take, List.length_drop]
      omega
    have heof : eof < rfaLimit := by
      rw [last_putParts n rfa eof hpos] at hlimit
      omega
    rw [putParts_buffer hpos] at hholds
    rw [putParts_last hpos] at hlimit ⊢
    -- the part just written leads to those written before
    have hchain : Chain f nodenum (seekToRfa (BitVec.ofNat 64 eof))
        ((record.drop (n - min maxPart n)).take (min maxPart n) ++ tail) := by
      refine .part heof (by omega) (by omega) ?_ htail
      rw [hpart]
      exact hholds.left
    by_cases hrest : n - min maxPart n = 0
    · have hmin : min maxPart n = n := by omega
      rw [if_pos hrest]
      rw [hrest, hmin, List.drop_zero] at hchain
      exact hchain
    · rw [if_neg hrest] at hlimit ⊢
      have hbefore := hholds.right
      rw [hlen] at hbefore
      have hnext := ih _ (rest_lt hpos) (by omega) (by omega) hchain hlimit hbefore
      rwa [← List.append_assoc, take_append_part n _ (Nat.min_le_right _ _)] at hnext

end Writing

section Reading

variable {f : File} {nodenum : BitVec 32}

theorem rfa_ne_zero {off : ℕ} (h : off < rfaLimit) :
    seekToRfa (BitVec.ofNat 64 off) ≠ Vector.replicate 6 0 := by
  intro heq
  have hseek := rfaToSeek_seekToRfa off h
  have hzero : rfaToSeek (Vector.replicate 6 0) = -512 := by decide
  rw [heq, hzero] at hseek
  have hval := congrArg BitVec.toNat hseek
  rw [BitVec.toNat_ofNat] at hval
  have h512 : (-512 : BitVec 64).toNat = 2 ^ 64 - 512 := by decide
  simp only [rfaLimit] at h
  omega

theorem readX_eq {off : ℕ} {bytes : List Byte} (h : Holds f off bytes) (hoff : off < 2 ^ 63) :
    readX f (BitVec.ofNat 64 off) bytes.length = .ok bytes := by
  rw [readX]
  by_cases hzero : bytes.length = 0
  · rw [if_pos hzero, List.length_eq_zero_iff.mp hzero]
  · rw [if_neg hzero, if_neg (by rw [toInt_ofNat hoff]; omega), BitVec.toNat_ofNat,
      Nat.mod_eq_of_lt (by omega), h.read_eq]

theorem rlength_toNat {n : ℕ} (hn : n ≤ maxPart) :
    (BitVec.ofInt 32 ((BitVec.ofNat 16 (n + 10)).toInt - 10)).toNat = n := by
  rw [maxPart_eq] at hn
  have hlength : (BitVec.ofNat 16 (n + 10)).toInt = n + 10 := by
    rw [BitVec.toInt_eq_toNat_of_lt]
    · rw [BitVec.toNat_ofNat, Nat.mod_eq_of_lt (by omega)]
      push_cast
      rfl
    · rw [BitVec.toNat_ofNat]
      omega
  rw [hlength, BitVec.toNat_ofInt]
  omega

theorem readParts_chain {rfa : Rfa} {data : List Byte} (h : Chain f nodenum rfa data) (fuel : ℕ)
    (hfuel : data.length ≤ fuel) (record : List Byte) (found : Option (BitVec 32)) :
    readParts f fuel rfa data.length record found =
      .ok (record ++ data, if data = [] then found else some nodenum) := by
  induction h generalizing fuel record found with
  | nil rfa =>
    rw [List.length_nil, if_pos rfl, List.append_nil]
    cases fuel with
    | zero => rw [readParts, if_pos (Or.inr rfl)]
    | succ fuel => rw [readParts, if_pos (Or.inr rfl)]
  | @part off next part tail hoff hpos hmax hholds htail ih =>
    rw [List.length_append] at hfuel ⊢
    obtain ⟨fuel, rfl⟩ : ∃ n, fuel = n + 1 := ⟨fuel - 1, by omega⟩
    have hlt : off + 12 < 2 ^ 63 := by
      simp only [rfaLimit] at hoff
      omega
    have hhdr : readX f (BitVec.ofNat 64 off) recordHeader.size = .ok
        (recordHeader.encode ⟨BitVec.ofNat 16 (part.length + 10), nodenum, next⟩) := by
      have hread := readX_eq hholds.left (by omega)
      rwa [recordHeader.length_encode] at hread
    have hpart : readX f (BitVec.ofNat 64 off + BitVec.ofNat 64 recordHeader.size) part.length =
        .ok part := by
      have hread := hholds.right
      rw [recordHeader.length_encode] at hread
      rw [← BitVec.ofNat_add]
      exact readX_eq hread (by rw [recordHeader_size]; exact hlt)
    have hne : part ++ tail ≠ [] := by
      intro hnil
      rw [List.append_eq_nil_iff] at hnil
      rw [hnil.1] at hpos
      exact Nat.lt_irrefl 0 hpos
    have hspace : min part.length (part.length + tail.length) = part.length := by omega
    rw [readParts, if_neg (not_or.mpr ⟨rfa_ne_zero hoff, by omega⟩)]
    simp only [rfaToSeek_seekToRfa off hoff, hhdr, bind, Except.bind, recordHeader.decode_encode,
      rlength_toNat hmax, hspace, hpart, Nat.add_sub_cancel_left]
    rw [ih fuel (by omega), if_neg hne, List.append_assoc]
    by_cases htail' : tail = []
    · rw [if_pos htail']
    · rw [if_neg htail']

theorem blen_eq {n : ℕ} (h : blockLength n < 2 ^ 31) : blen n = blockLength n := by
  rw [blen, BitVec.toInt_eq_toNat_of_lt]
  · rw [BitVec.toNat_ofNat, Nat.mod_eq_of_lt (by omega)]
  · rw [BitVec.toNat_ofNat]
    omega

def lastPart (size n : ℕ) : ℕ := size + (n - 1) / maxPart * (maxPart + recordHeader.size)

theorem blockLength_last {n : ℕ} (h : 0 < n) :
    blockLength n = (n - 1) / maxPart * (maxPart + recordHeader.size) +
      ((blockLength n - 1) % (maxPart + recordHeader.size) + 1) := by
  simp only [blockLength, recordHeader_size, maxPart, DATAF_C_MAX_RECORD_SIZE]
  omega

theorem toNat_pred {m : ℕ} (hpos : 0 < m) (h : m < 2 ^ 31) :
    (BitVec.ofInt 64 ((m : ℤ) - 1)).toNat = m - 1 := by
  rw [BitVec.toNat_ofInt]
  omega

theorem readDatablob_eq {off n : ℕ} {buffer : List Byte} (hn : 0 < n)
    (hholds : Holds f off buffer) (hlen : buffer.length = blockLength n)
    (hblen : blockLength n < 2 ^ 31) (hlast : lastPart off n < rfaLimit) :
    readDatablob f (BitVec.ofNat 64 (lastPart off n)) n =
      .ok (copyParts buffer n,
        some (recordHeader.decode (buffer.take recordHeader.size)).nodeNumber) := by
  have hparts := blockLength_last hn
  have hpos : 0 < blockLength n := by omega
  simp only [lastPart, rfaLimit] at hlast
  have hoff : BitVec.ofNat 64 (lastPart off n) - BitVec.ofInt 64 (blockLength n) +
      BitVec.ofNat 64 ((blockLength n - 1) % (maxPart + recordHeader.size) + 1) =
      BitVec.ofNat 64 off := by
    have hcast : BitVec.ofInt 64 (blockLength n : ℤ) = BitVec.ofNat 64 (blockLength n) :=
      BitVec.ofInt_natCast _ _
    rw [hcast]
    apply BitVec.eq_of_toNat_eq
    rw [BitVec.toNat_add, BitVec.toNat_sub, BitVec.toNat_ofNat, BitVec.toNat_ofNat,
      BitVec.toNat_ofNat, BitVec.toNat_ofNat, lastPart]
    omega
  have hread := readX_eq hholds (by omega)
  rw [hlen] at hread
  have hne : buffer ≠ [] := List.ne_nil_of_length_pos (by omega)
  simp only [readDatablob, blen_eq hblen, toNat_pred hpos hblen, hoff, Int.toNat_natCast, hread]
  rw [if_neg (by omega), ok_bind, if_neg (by omega), if_neg hne]

end Reading

section Putting

variable {answers : Answers} {f f' : File} {nci nci' : Nci} {oldNci buffer : List Byte} {eof : ℕ}

theorem writeBuffer_spec (hok : writeBuffer answers f nci oldNci buffer eof = .ok (f', nci'))
    (hput : nci'.errorOnPut = false) :
    Grows (f.write f.size buffer) f' ∧ nci' = { nci with
      errorOnPut := false
      dataInfo :=
        if buffer = [] then nci.dataInfo
        else .location (seekToRfa (BitVec.ofNat 64 eof)) nci.recordLength } := by
  rw [writeBuffer] at hok
  by_cases hwritten : buffer.length ≤ answers.written
  · rw [if_pos hwritten] at hok
    simp only at hok
    by_cases hversions : nci.versions = true
    · rw [if_neg (by simpa using hversions)] at hok
      by_cases hold : answers.oldNciWritten = true
      · rw [if_pos hold, Except.ok.injEq, Prod.mk.injEq] at hok
        obtain ⟨rfl, rfl⟩ := hok
        exact ⟨grows_append _ _, rfl⟩
      · rw [if_neg hold] at hok
        cases hok
    · rw [if_pos (by simpa using hversions), Except.ok.injEq, Prod.mk.injEq] at hok
      obtain ⟨rfl, rfl⟩ := hok
      exact ⟨Grows.refl _, rfl⟩
  · rw [if_neg hwritten, Except.ok.injEq, Prod.mk.injEq] at hok
    obtain ⟨rfl, rfl⟩ := hok
    cases hput

theorem writeBuffer_defined : writeBuffer answers f nci oldNci buffer eof ≠ .error .undefined := by
  rw [writeBuffer]
  split
  · simp only
    split
    · nofun
    · split <;> nofun
  · nofun

/-- A record as the node's characteristics tell where it is. -/
structure ReadsBack (g : File) (nci : Nci) (nodenum : BitVec 32) (record : List Byte) : Prop where
  location : ∃ rfa, nci.dataInfo = .location rfa (BitVec.ofNat 32 record.length) ∧
    (∀ fuel ≥ record.length, ∃ found,
      treeGetDatafile g fuel rfa record.length nci.contiguous nci.nonVms = .ok (record, found)) ∧
    (nci.nonVms = false → ∀ fuel ≥ record.length,
      let found := if record = [] then none else some nodenum
      readParts g fuel rfa record.length [] none = .ok (record, found) ∧
      readDatablob g (rfaToSeek rfa) record.length = .ok (record, found))

theorem readParts_nil (g : File) (fuel : ℕ) (rfa : Rfa) :
    readParts g fuel rfa 0 [] none = .ok ([], none) := by
  cases fuel with
  | zero => rw [readParts, if_pos (Or.inr rfl)]
  | succ fuel => rw [readParts, if_pos (Or.inr rfl)]

theorem readDatablob_nil (g : File) (rfa : Offset) : readDatablob g rfa 0 = .ok ([], none) := by
  have hzero : blen 0 = 0 := by decide
  have hcopy : copyParts [] 0 = [] := by rw [copyParts, if_pos rfl]
  simp only [readDatablob, hzero, Int.lt_irrefl, if_false, Int.toNat_zero, readX, if_true, bind,
    Except.bind, List.length_nil, blockLength_zero, Nat.lt_irrefl, hcopy]

theorem readsBack_nil (g : File) (nodenum : BitVec 32) {rfa : Rfa}
    (h : nci.dataInfo = .location rfa 0) : ReadsBack g nci nodenum [] where
  location := by
    refine ⟨rfa, h, fun fuel _ => ⟨none, ?_⟩, fun _ fuel _ => ⟨readParts_nil g fuel rfa,
      readDatablob_nil g _⟩⟩
    rw [treeGetDatafile, List.length_nil]
    by_cases hcontiguous : nci.contiguous = true
    · rw [if_neg (by simpa using hcontiguous)]
      by_cases hnonVms : nci.nonVms = true
      · rw [if_pos hnonVms, readX, if_pos rfl]
        rfl
      · rw [if_neg hnonVms]
        exact readDatablob_nil g _
    · rw [if_pos hcontiguous]
      exact readParts_nil g fuel rfa

theorem readsBack_nonVms {g : File} (nodenum : BitVec 32) {record : List Byte} {off : ℕ}
    (hholds : Holds g off record) (hoff : off < rfaLimit) (hcontiguous : nci.contiguous = true)
    (hnonVms : nci.nonVms = true)
    (h : nci.dataInfo =
      .location (seekToRfa (BitVec.ofNat 64 off)) (BitVec.ofNat 32 record.length)) :
    ReadsBack g nci nodenum record where
  location := by
    refine ⟨_, h, fun fuel _ => ⟨none, ?_⟩, fun hfalse => ?_⟩
    · have hlt : off < 2 ^ 63 := by
        simp only [rfaLimit] at hoff
        omega
      rw [treeGetDatafile, if_neg (by simpa using hcontiguous), if_pos hnonVms,
        rfaToSeek_seekToRfa off hoff, readX_eq hholds hlt]
      rfl
    · rw [hnonVms] at hfalse
      cases hfalse

theorem readsBack_parts {g : File} {nodenum : BitVec 32} {record : List Byte} {off : ℕ} {rfa : Rfa}
    (hpos : 0 < record.length)
    (hholds : Holds g off (putParts nodenum record record.length rfa off).1)
    (hblen : blockLength record.length < 2 ^ 31) (hlast : lastPart off record.length < rfaLimit)
    (hcontiguous : nci.contiguous = true) (hnonVms : nci.nonVms = false)
    (h : nci.dataInfo = .location
      (seekToRfa (BitVec.ofNat 64 (putParts nodenum record record.length rfa off).2))
      (BitVec.ofNat 32 record.length)) :
    ReadsBack g nci nodenum record where
  location := by
    have hne : record ≠ [] := List.ne_nil_of_length_pos hpos
    have hlastPart : (putParts nodenum record record.length rfa off).2 =
        lastPart off record.length := last_putParts _ _ _ hpos
    have hlen := length_putParts nodenum record.length rfa off (Nat.le_refl _)
    have hcopy := copyParts_putParts nodenum record.length rfa off (Nat.le_refl _)
    have hchain := chain_putParts record.length hpos (Nat.le_refl _) (.nil rfa)
      (by rw [hlastPart]; exact hlast) hholds
    rw [List.take_length] at hcopy
    rw [List.take_length, List.append_nil, hlastPart] at hchain
    rw [hlastPart] at h
    have hblob : readDatablob g (BitVec.ofNat 64 (lastPart off record.length)) record.length =
        .ok (record, some nodenum) := by
      rw [readDatablob_eq hpos hholds hlen hblen hlast, hcopy, putParts_buffer hpos, firstPart,
        List.append_assoc]
      obtain ⟨header, hheader⟩ : ∃ header, header = recordHeader.encode
        ⟨BitVec.ofNat 16 (min maxPart record.length + 10), nodenum, rfa⟩ := ⟨_, rfl⟩
      have hsize : recordHeader.size = header.length := by
        rw [hheader, recordHeader.length_encode]
      rw [← hheader, hsize, List.take_left, hheader, recordHeader.decode_encode]
    refine ⟨_, h, fun fuel _ => ⟨some nodenum, ?_⟩, fun _ fuel hfuel => ⟨?_, ?_⟩⟩
    · rw [treeGetDatafile, if_neg (by simpa using hcontiguous), if_neg (by simp [hnonVms]),
        rfaToSeek_seekToRfa _ hlast]
      exact hblob
    · rw [readParts_chain hchain fuel hfuel, List.nil_append]
    · rw [rfaToSeek_seekToRfa _ hlast, if_neg hne]
      exact hblob

/-- Every record of this length reads back once it is put to the end of a datafile of
this size, whatever is added to the file later. -/
def Restores (size : ℕ) (length : BitVec 32) : Prop :=
  ∀ (answers : Answers) (f : File) (nodenum : BitVec 32) (nci : Nci) (record oldNci : List Byte),
    f.size = size → record.length = length.toNat → (∃ rfa, nci.dataInfo = .location rfa length) →
    putDatafile answers f nodenum nci record oldNci ≠ .error .undefined ∧
    ∀ f' nci', putDatafile answers f nodenum nci record oldNci = .ok (f', nci') →
      nci'.errorOnPut = false → ∀ g, Grows f' g → ReadsBack g nci' nodenum record

theorem restores_zero (size : ℕ) : Restores size 0 := by
  intro answers f nodenum nci record oldNci _ hlength ⟨rfa, hlocation⟩
  obtain rfl : record = [] := List.eq_nil_of_length_eq_zero hlength
  have hput : putDatafile answers f nodenum nci [] oldNci =
      if nci.versions ∧ ¬ answers.lock then .error .lockFailure
      else writeBuffer answers f nci oldNci [] 0 := by
    have hzero : ¬ blen 0 > 0 := by decide
    simp only [putDatafile, List.length_nil, Nat.lt_irrefl, if_false, if_neg hzero]
  rw [hput]
  by_cases hlock : nci.versions ∧ ¬ answers.lock
  · rw [if_pos hlock]
    exact ⟨nofun, nofun⟩
  · rw [if_neg hlock]
    refine ⟨writeBuffer_defined, fun f' nci' hok herror g _ => ?_⟩
    obtain ⟨_, rfl⟩ := writeBuffer_spec hok herror
    exact readsBack_nil g nodenum hlocation

theorem putDatafile_pos (answers : Answers) (f : File) (nodenum : BitVec 32) (oldNci : List Byte)
    {record : List Byte} (hpos : 0 < record.length)
    (hlength : nci.recordLength.toNat = record.length)
    (hblen : blockLength record.length < 2 ^ 31) :
    putDatafile answers f nodenum nci record oldNci =
      if ¬ answers.lock then .error .lockFailure
      else if answers.nonvmsCompatible then
        writeBuffer answers f { nci with contiguous := true, nonVms := true } oldNci record f.size
      else
        let parts := putParts nodenum record record.length (Vector.replicate 6 0) f.size
        writeBuffer answers f { nci with contiguous := true, nonVms := false } oldNci parts.1
          parts.2 := by
  have hparts := length_putParts nodenum record.length (Vector.replicate 6 0) f.size
    (Nat.le_refl _)
  have hblock : 0 < blockLength record.length := by
    rw [blockLength_step hpos, recordHeader_size]
    omega
  have hint := blen_eq hblen
  simp only [putDatafile, if_pos hpos, hlength]
  rw [if_pos (by omega), if_neg (Nat.lt_irrefl _), List.take_length,
    if_neg (show ¬ blen record.length < _ by omega)]
  by_cases hlock : answers.lock = true
  · simp only [hlock, not_true_eq_false, if_false]
  · simp only [if_pos hlock, ite_self]

theorem restores_pos {size : ℕ} {length : BitVec 32} (hpos : 0 < length.toNat)
    (hblen : blockLength length.toNat < 2 ^ 31)
    (hlast : lastPart size length.toNat < rfaLimit) : Restores size length := by
  rintro answers f nodenum nci record oldNci rfl hlength ⟨rfa, hlocation⟩
  have hrecordLength : nci.recordLength = length := by rw [Nci.recordLength, hlocation]
  have hcut : BitVec.ofNat 32 record.length = length := by
    rw [hlength, BitVec.ofNat_toNat, BitVec.setWidth_eq]
  have hsize : f.size < rfaLimit := by
    simp only [lastPart] at hlast
    omega
  rw [← hlength] at hpos hblen hlast
  have hne : record ≠ [] := List.ne_nil_of_length_pos hpos
  rw [putDatafile_pos answers f nodenum oldNci hpos (by rw [hrecordLength, hlength]) hblen]
  by_cases hlock : answers.lock = true
  · rw [if_neg (by simpa using hlock)]
    by_cases hnonvms : answers.nonvmsCompatible = true
    · rw [if_pos hnonvms]
      refine ⟨writeBuffer_defined, fun f' nci' hok herror g hg => ?_⟩
      obtain ⟨hgrows, rfl⟩ := writeBuffer_spec hok herror
      refine readsBack_nonVms nodenum (((holds_write f f.size record).grows hgrows).grows hg) hsize
        rfl rfl ?_
      simp only [if_neg hne, Nci.recordLength, hlocation, hcut]
    · rw [if_neg hnonvms]
      refine ⟨writeBuffer_defined, fun f' nci' hok herror g hg => ?_⟩
      obtain ⟨hgrows, rfl⟩ := writeBuffer_spec hok herror
      refine readsBack_parts hpos (((holds_write f f.size _).grows hgrows).grows hg) hblen hlast
        rfl rfl ?_
      have hbuffer : (putParts nodenum record record.length (Vector.replicate 6 0) f.size).1 ≠ [] := by
        rw [putParts_buffer hpos, firstPart]
        exact List.append_ne_nil_of_left_ne_nil (List.append_ne_nil_of_left_ne_nil
          (List.ne_nil_of_length_pos (by rw [recordHeader.length_encode]; decide)) _) _
      simp only [if_neg hbuffer, Nci.recordLength, hlocation, hcut]
  · rw [if_pos hlock]
    exact ⟨nofun, nofun⟩

/-- A record whose length with headers is no positive int is not written at all, and the
call succeeds. -/
theorem putDatafile_unwritten (nci : Nci) (answers : Answers) (f : File) (nodenum : BitVec 32)
    {record : List Byte} (oldNci : List Byte) (hpos : 0 < record.length)
    (hblen : ¬ blen nci.recordLength.toNat > 0) (hversions : nci.versions = false) :
    putDatafile answers f nodenum nci record oldNci =
      .ok (f.write f.size [], { nci with errorOnPut := false }) := by
  simp only [putDatafile, if_pos hpos, if_neg hblen, hversions, Bool.false_eq_true, false_and,
    if_false, writeBuffer, List.length_nil, Nat.zero_le, if_true, not_false_eq_true]

def fresh (length : BitVec 32) : Nci :=
  ⟨false, false, false, false, 0, .location (Vector.replicate 6 0) length⟩

/-- A system that can do everything. -/
def ready (written : ℕ) : Answers := ⟨false, true, written, true⟩

def zeros (size : ℕ) : File := ⟨size, fun _ => 0⟩

theorem blockLength_lt (length : BitVec 32) : blockLength length.toNat < 2 ^ 32 + 2 ^ 31 := by
  have hlt := length.isLt
  simp only [blockLength, recordHeader_size, maxPart, DATAF_C_MAX_RECORD_SIZE]
  omega

theorem blockLength_of_restores {size : ℕ} {length : BitVec 32} (hpos : 0 < length.toNat)
    (h : Restores size length) : blockLength length.toNat < 2 ^ 31 := by
  by_contra hlarge
  have hlt := blockLength_lt length
  obtain ⟨record, hrecord⟩ : ∃ record, record = List.replicate length.toNat (0 : Byte) := ⟨_, rfl⟩
  have hlength : record.length = length.toNat := by rw [hrecord, List.length_replicate]
  obtain ⟨hdefined, hreads⟩ := h (ready 0) (zeros size) 0 (fresh length) record [] rfl hlength
    ⟨_, rfl⟩
  have hint : blen length.toNat = blockLength length.toNat - 2 ^ 32 := by
    rw [blen, BitVec.toInt_eq_toNat_cond, BitVec.toNat_ofNat]
    omega
  by_cases hblen : blen length.toNat > 0
  · -- the int has wrapped around and the buffer is too small
    have hparts := length_putParts 0 length.toNat (Vector.replicate 6 0) size
      (show length.toNat ≤ record.length by omega)
    apply hdefined
    simp only [putDatafile, hlength, if_pos hpos, fresh, Nci.recordLength, if_pos hblen,
      Nat.lt_irrefl, if_false, ready, Bool.false_eq_true, not_true_eq_false, zeros, hparts]
    rw [if_pos (by omega)]
  · have hput := putDatafile_unwritten (fresh length) (ready 0) (zeros size) 0 []
      (show 0 < record.length by omega) hblen rfl
    obtain ⟨rfa, hlocation, hbytes, _⟩ := (hreads _ _ hput rfl _ (Grows.refl _)).location
    obtain ⟨rfl, _⟩ := DataInfo.location.inj hlocation
    obtain ⟨found, hget⟩ := hbytes record.length (Nat.le_refl _)
    obtain ⟨fuel, hfuel⟩ : ∃ fuel, record.length = fuel + 1 := ⟨record.length - 1, by omega⟩
    rw [treeGetDatafile, if_pos (by simp [fresh]), hfuel, readParts, if_pos (Or.inl rfl)] at hget
    simp only [Except.ok.injEq, Prod.mk.injEq] at hget
    rw [← hget.1] at hfuel
    cases hfuel

theorem rfaToSeek_seekToRfa_mod (v : BitVec 64) :
    rfaToSeek (seekToRfa v) = BitVec.ofNat 64 ((v + 512).toNat % 2 ^ 41) - 512 := by
  obtain ⟨w, hw⟩ : ∃ w, w = BitVec.ofNat 64 ((v + 512).toNat % 2 ^ 41) := ⟨_, rfl⟩
  have hwn : w.toNat = (v + 512).toNat % 2 ^ 41 := by
    rw [hw, BitVec.toNat_ofNat]
    omega
  have hjoin := rfa_join w (by omega)
  have hfield : ∀ s, s + 8 ≤ 41 → (v + 512).extractLsb' s 8 = w.extractLsb' s 8 := by
    intro s hs
    apply BitVec.eq_of_getLsbD_eq
    intro i hi
    have hbit : w.getLsbD (s + i) = (v + 512).getLsbD (s + i) := by
      simp only [BitVec.getLsbD, hwn, Nat.testBit_mod_two_pow]
      simp only [show s + i < 41 by omega, decide_true, Bool.true_and]
    simp only [BitVec.getLsbD_extractLsb', hbit]
  simp only [rfaToSeek, seekToRfa, Vector.getElem_mk, List.getElem_toArray,
    List.getElem_cons_zero, List.getElem_cons_succ, hfield 9 (by omega), hfield 17 (by omega),
    hfield 25 (by omega), hfield 33 (by omega), hfield 0 (by omega), hfield 8 (by omega)]
  rw [hjoin, ← hw]

theorem mem_copyParts {b : Byte} (n : ℕ) (buffer : List Byte) (h : b ∈ copyParts buffer n) :
    b ∈ buffer := by
  induction n using Nat.strong_induction_on generalizing buffer with
  | _ n ih =>
    rcases Nat.eq_zero_or_pos n with rfl | hpos
    · rw [copyParts, if_pos rfl] at h
      cases h
    · rw [copyParts, if_neg (by omega)] at h
      rcases List.mem_append.mp h with hrest | hpart
      · exact List.mem_of_mem_drop (ih _ (rest_lt hpos) _ hrest)
      · exact List.mem_of_mem_drop (List.mem_of_mem_take hpart)

theorem readDatablob_zeros {g : File} {size n : ℕ} (hzero : ∀ a < size, g.byte a = 0)
    (hpos : 0 < n) (hblen : blockLength n < 2 ^ 31) (hlarge : rfaLimit ≤ lastPart size n)
    {record : List Byte} {found : Option (BitVec 32)}
    (hread : readDatablob g (rfaToSeek (seekToRfa (BitVec.ofNat 64 (lastPart size n)))) n =
      .ok (record, found)) : ∀ b ∈ record, b = 0 := by
  have hparts := blockLength_last hpos
  obtain ⟨u, hu⟩ : ∃ u, u = (BitVec.ofNat 64 (lastPart size n) + 512).toNat % 2 ^ 41 := ⟨_, rfl⟩
  have hule : u + 2 ^ 41 ≤ lastPart size n + 512 := by
    have h512 : (512 : BitVec 64).toNat = 512 := rfl
    rw [BitVec.toNat_add, BitVec.toNat_ofNat, h512] at hu
    simp only [rfaLimit] at hlarge
    omega
  obtain ⟨k, hk⟩ : ∃ k, k = (blockLength n - 1) % (maxPart + recordHeader.size) + 1 := ⟨_, rfl⟩
  obtain ⟨w, hw⟩ : ∃ w, w = BitVec.ofNat 64 u - 512 - BitVec.ofInt 64 (blockLength n) +
    BitVec.ofNat 64 k := ⟨_, rfl⟩
  rw [readDatablob, rfaToSeek_seekToRfa_mod, ← hu, blen_eq hblen, if_neg (by omega),
    toNat_pred (by omega) hblen] at hread
  simp only [← hk, ← hw, Int.toNat_natCast] at hread
  obtain ⟨buffer, hbuffer, hread⟩ := bind_eq_ok.mp hread
  rw [ite_error_eq_ok] at hread
  obtain ⟨_, hread⟩ := hread
  simp only [Except.ok.injEq, Prod.mk.injEq] at hread
  rw [readX, if_neg (by omega), ite_error_eq_ok] at hbuffer
  obtain ⟨hsign, hbuffer⟩ := hbuffer
  -- the address is short of the parts by at least what it cannot hold
  have hplace : w.toNat + 512 + blockLength n = u + k := by
    have h512 : (512 : BitVec 64).toNat = 512 := rfl
    have hcast : BitVec.ofInt 64 (blockLength n : ℤ) = BitVec.ofNat 64 (blockLength n) :=
      BitVec.ofInt_natCast _ _
    have hwn := congrArg BitVec.toNat hw
    rw [hcast, BitVec.toNat_add, BitVec.toNat_sub, BitVec.toNat_sub, BitVec.toNat_ofNat,
      BitVec.toNat_ofNat, BitVec.toNat_ofNat, h512] at hwn
    rw [BitVec.toInt_eq_toNat_cond] at hsign
    rw [maxPart_eq, recordHeader_size] at hk
    omega
  have hinside : w.toNat + blockLength n < size := by
    rw [lastPart] at hule
    omega
  have hbytes : ∀ b ∈ buffer, b = 0 := by
    rw [File.read] at hbuffer
    by_cases hin : w.toNat + blockLength n ≤ g.size
    · rw [if_pos hin] at hbuffer
      cases hbuffer
      intro b hb
      obtain ⟨i, hi, rfl⟩ := List.mem_map.mp hb
      have hlt := List.mem_range.mp hi
      exact hzero _ (by omega)
    · rw [if_neg hin] at hbuffer
      cases hbuffer
  intro b hb
  rw [← hread.1] at hb
  exact hbytes b (mem_copyParts n buffer hb)

theorem lastPart_of_restores {size : ℕ} {length : BitVec 32} (hpos : 0 < length.toNat)
    (hblen : blockLength length.toNat < 2 ^ 31) (h : Restores size length) :
    lastPart size length.toNat < rfaLimit := by
  by_contra hlarge
  obtain ⟨record, hrecord⟩ : ∃ record, record = List.replicate length.toNat (1 : Byte) := ⟨_, rfl⟩
  have hlength : record.length = length.toNat := by rw [hrecord, List.length_replicate]
  have hpos' : 0 < record.length := by omega
  obtain ⟨parts, hparts⟩ : ∃ parts, parts =
    putParts 0 record record.length (Vector.replicate 6 0) size := ⟨_, rfl⟩
  have hlen : parts.1.length = blockLength record.length := by
    rw [hparts]
    exact length_putParts 0 _ _ _ (Nat.le_refl _)
  have hlast : parts.2 = lastPart size record.length := by
    rw [hparts]
    exact last_putParts _ _ _ hpos'
  have hne : parts.1 ≠ [] := by
    apply List.ne_nil_of_length_pos
    rw [hlen, blockLength_step hpos', recordHeader_size]
    omega
  obtain ⟨_, hreads⟩ := h (ready parts.1.length) (zeros size) 0 (fresh length) record [] rfl hlength
    ⟨_, rfl⟩
  have hput := putDatafile_pos (ready parts.1.length) (zeros size) 0 [] hpos'
    (show (fresh length).recordLength.toNat = record.length from hlength.symm)
    (by rw [hlength]; exact hblen)
  have hsize : (zeros size).size = size := rfl
  simp only [hsize, ← hparts, ready, not_true_eq_false, if_false, Bool.false_eq_true, writeBuffer,
    Nat.le_refl, if_true, fresh, not_false_eq_true, if_neg hne] at hput
  obtain ⟨rfa, hlocation, _, hpaths⟩ := (hreads _ _ hput rfl _ (Grows.refl _)).location
  obtain ⟨rfl, _⟩ := DataInfo.location.inj hlocation
  obtain ⟨_, hblob⟩ := hpaths rfl record.length (Nat.le_refl _)
  rw [hlast] at hblob
  have hold : ∀ a < size, ((zeros size).write size parts.1).byte a = 0 :=
    (grows_append (zeros size) parts.1).byte_eq
  have hmem : (1 : Byte) ∈ record := by
    rw [hrecord]
    exact List.mem_replicate.mpr ⟨by omega, rfl⟩
  have hzeros := readDatablob_zeros hold hpos' (by rw [hlength]; exact hblen)
    (by rw [hlength]; omega) hblob 1 hmem
  exact absurd hzeros (by decide)

/-- Every record of a length reads back if and only if it is empty, or its length with
headers is an int and its last part begins where an address can tell. -/
theorem restores_iff (size : ℕ) (length : BitVec 32) :
    Restores size length ↔ length = 0 ∨
      blockLength length.toNat < 2 ^ 31 ∧ lastPart size length.toNat < rfaLimit := by
  constructor
  · intro h
    by_cases hzero : length = 0
    · exact Or.inl hzero
    · have hpos : 0 < length.toNat := by
        rw [Nat.pos_iff_ne_zero]
        exact fun heq => hzero (BitVec.eq_of_toNat_eq heq)
      have hblen := blockLength_of_restores hpos h
      exact Or.inr ⟨hblen, lastPart_of_restores hpos hblen h⟩
  · rintro (rfl | ⟨hblen, hlast⟩)
    · exact restores_zero size
    · rcases Nat.eq_zero_or_pos length.toNat with hzero | hpos
      · obtain rfl : length = 0 := BitVec.eq_of_toNat_eq hzero
        exact restores_zero size
      · exact restores_pos hpos hblen hlast

def overlong : List Byte := List.replicate 2147483647 1

/-- The length with headers is negative as an int: nothing is written, the call succeeds,
and the record reads as empty. -/
theorem not_restores_overlong : ∃ f nci,
    putDatafile (ready (2 ^ 32)) (zeros 0) 1 (fresh 2147483647) overlong [] = .ok (f, nci) ∧
    nci.errorOnPut = false ∧ f.size = 0 ∧
    (∀ fuel, treeGetDatafile f fuel (Vector.replicate 6 0) overlong.length nci.contiguous
      nci.nonVms = .ok ([], none)) ∧
    ¬ Restores 0 2147483647 := by
  have hlength : overlong.length = 2147483647 := List.length_replicate
  have hput := putDatafile_unwritten (fresh 2147483647) (ready (2 ^ 32)) (zeros 0) 1 []
    (show 0 < overlong.length by omega) (by decide) rfl
  refine ⟨_, _, hput, rfl, rfl, fun fuel => ?_, fun h => ?_⟩
  · rw [treeGetDatafile, if_pos (by simp [fresh])]
    cases fuel with
    | zero => rw [readParts, if_pos (Or.inl rfl)]
    | succ fuel => rw [readParts, if_pos (Or.inl rfl)]
  · have hblen := blockLength_of_restores (by decide) h
    exact absurd hblen (by decide)

end Putting

end MdsPlus.RecordParts
