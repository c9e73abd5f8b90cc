import MdsPlus.RecordPuts

/-!
Which records are compressed. The flags that tell whether to compress are those of the node, or
those of the template while a utility writes; they are not touched while the record is prepared
and serialized. A utility that compresses does so whether or not the node is compressed on put.
-/

namespace MdsPlus.CompressChoice

open BitMemory Characteristics RecordLocks RecordPuts

variable {db : Database} {place : Place} {o : Answers} {call : Call} {old nci : Nci}

def flagsOf (call : Call) (old : Nci) : BitVec 32 :=
  if call.utilityUpdate ≠ 0 then call.template.flags else old.flags

def Wanted (call : Call) (old : Nci) : Prop :=
  (call.utilityUpdate = 2 ∨ flagsOf call old &&& NciM_COMPRESS_ON_PUT ≠ 0) ∧
    flagsOf call old &&& NciM_DO_NOT_COMPRESS = 0

instance (call : Call) (old : Nci) : Decidable (Wanted call old) := by
  unfold Wanted
  infer_instance

/-! ### Flags -/

/-- Flags that preparing and serializing leave as they are. -/
structure Untouched (mask : BitVec 32) : Prop where
  versions : NciM_VERSIONS &&& mask = 0
  setup : NciM_SETUP_INFORMATION &&& mask = 0
  compressible : NciM_COMPRESSIBLE &&& mask = 0

theorem untouched_compress_on_put : Untouched NciM_COMPRESS_ON_PUT := ⟨rfl, rfl, rfl⟩

theorem untouched_do_not_compress : Untouched NciM_DO_NOT_COMPRESS := ⟨rfl, rfl, rfl⟩

theorem or_and_other {w : ℕ} {value mask other : BitVec w} (h : mask &&& other = 0) :
    (value ||| mask) &&& other = value &&& other :=
  bitassign_and_other true value h

variable {mask : BitVec 32} (h : Untouched mask)

include h

theorem keepVersions_and (nci : Nci) (kept : Bool) :
    (if kept then { nci with flags := nci.flags ||| NciM_VERSIONS } else nci).flags &&& mask =
      nci.flags &&& mask := by
  cases kept with
  | true => exact or_and_other h.versions
  | false => rfl

theorem prepared_and (extended : Bool) :
    (prepared db place call old extended).flags &&& mask = flagsOf call old &&& mask := by
  have hflags : (if call.utilityUpdate ≠ 0 then bitassign false call.template.flags NciM_VERSIONS
      else bitassign db.setupInfo old.flags NciM_SETUP_INFORMATION) &&& mask =
      flagsOf call old &&& mask := by
    rw [flagsOf]
    split
    · exact bitassign_and_other _ _ h.versions
    · exact bitassign_and_other _ _ h.setup
  exact (keepVersions_and h _ _).trans hflags

theorem afterSerialize_and (z : Serialized) :
    (afterSerialize nci z).flags &&& mask = nci.flags &&& mask :=
  bitassign_and_other _ _ h.compressible

omit h

theorem keepVersions_compressionMethod (nci : Nci) (kept : Bool) :
    (if kept then { nci with flags := nci.flags ||| NciM_VERSIONS } else nci).compressionMethod =
      nci.compressionMethod := by
  cases kept <;> rfl

theorem prepared_compressionMethod (extended : Bool) :
    (prepared db place call old extended).compressionMethod = old.compressionMethod :=
  keepVersions_compressionMethod _ _

theorem wantsCompression_iff {flags : BitVec 32}
    (hput : nci.flags &&& NciM_COMPRESS_ON_PUT = flags &&& NciM_COMPRESS_ON_PUT)
    (hnot : nci.flags &&& NciM_DO_NOT_COMPRESS = flags &&& NciM_DO_NOT_COMPRESS) :
    wantsCompression call nci = true ↔
      (call.utilityUpdate = 2 ∨ flags &&& NciM_COMPRESS_ON_PUT ≠ 0) ∧
        flags &&& NciM_DO_NOT_COMPRESS = 0 := by
  simp [wantsCompression, NciHead.has, hput, hnot]

theorem wantsCompression_prepared (extended : Bool) :
    wantsCompression call (prepared db place call old extended) = true ↔ Wanted call old :=
  wantsCompression_iff (prepared_and untouched_compress_on_put extended)
    (prepared_and untouched_do_not_compress extended)

theorem wantsCompression_afterSerialize (z : Serialized) :
    wantsCompression call (afterSerialize nci z) = true ↔ wantsCompression call nci = true :=
  (wantsCompression_iff (afterSerialize_and untouched_compress_on_put z)
    (afterSerialize_and untouched_do_not_compress z)).trans (wantsCompression_iff rfl rfl).symm

/-! ### Forms -/

theorem form_mdsSerializeDscOutZ (r : Record) (compress : ℤ) (altbuflen : ℕ) :
    (mdsSerializeDscOutZ r compress altbuflen).form = formOf r compress := by
  rw [mdsSerializeDscOutZ]
  split
  · rfl
  split
  · rfl
  split
  · split
    · rfl
    · rw [mdsSerializeDscOutZ.store]
      split <;> rfl
  · rw [mdsSerializeDscOutZ.store]
    split <;> rfl

theorem formOf_compressMethod (r : Record) (extended : Bool) :
    formOf r (compressMethod call (prepared db place call old extended)) =
      if r.compressible ∧ Wanted call old then .packed (methodOf old.compressionMethod.toNat)
      else .plain := by
  have hne : (old.compressionMethod.toNat : ℤ) ≠ -1 := by omega
  have hwants : wantsCompression call (prepared db place call old extended) = true ↔
      Wanted call old := wantsCompression_prepared extended
  rw [formOf, compressMethod, prepared_compressionMethod]
  by_cases hwanted : Wanted call old
  · rw [if_pos (hwants.2 hwanted)]
    simp [hne, hwanted]
  · rw [if_neg (mt hwants.1 hwanted)]
    simp [hwanted]

theorem putExtended_form {info : TreeInfo} {r : Record} {compress locked : ℤ}
    {held held' : Held} {status : Status} {f : Form}
    (h : putExtended info o r compress locked held = some (status, some f, held')) :
    f = formOf r compress := by
  obtain ⟨⟨status₁, form, held₁⟩, hdsc, hrest⟩ := Option.bind_eq_some_iff.1 h
  obtain ⟨⟨status₂, held₂⟩, -, heq⟩ := Option.map_eq_some_iff.1 hrest
  have hform : form = some f := by
    dsimp only at heq
    split at heq
    · exact congrArg (fun r => r.2.1) heq
    · exact congrArg (fun r => r.2.1) heq
  rw [treePutDsc] at hdsc
  dsimp only at hdsc
  split at hdsc
  · obtain ⟨⟨status₃, held₃⟩, -, heq'⟩ := Option.map_eq_some_iff.1 hdsc
    have hform' : some (mdsSerializeDscOutZ r compress 0).form = form :=
      congrArg (fun r => r.2.1) heq'
    rw [form_mdsSerializeDscOutZ, hform] at hform'
    exact (Option.some.inj hform').symm
  · have hform' : none = form := congrArg (fun r => r.2.1) (Option.some.inj hdsc)
    rw [hform] at hform'
    cases hform'

theorem routeOf_extended {after : Nci} :
    routeOf call nci after true = .extended := by
  simp [routeOf]

theorem routeOf_ordinary {after : Nci} :
    routeOf call nci after false ≠ .extended := by
  unfold routeOf
  split
  · decide
  split
  · rename_i hextended
    cases hextended
  split
  · decide
  · decide

/-- What is stored is told by the method of the node, or for extended attributes by the value of
the condition. -/
theorem treePutRecord_form {held : Held} {r : Result} {f : Form}
    (hput : treePutRecord db place o call old held = some r) (hform : r.form = some f) :
    isExtended o old = false ∧
        f = formOf call.record (compressMethod call (prepared db place call old false)) ∨
      isExtended o old = true ∧
        f = formOf call.record (compressFlag call (afterSerialize (prepared db place call old true)
          (serialized call (prepared db place call old true) true))) := by
  rw [treePutRecord] at hput
  split at hput
  · rw [← Option.some.inj hput] at hform
    cases hform
  split at hput
  · rw [← Option.some.inj hput] at hform
    cases hform
  split at hput
  · rw [← Option.some.inj hput] at hform
    cases hform
  split at hput
  · rw [← Option.some.inj hput] at hform
    cases hform
  obtain ⟨⟨status, locked, held'⟩, -, hrest⟩ := Option.bind_eq_some_iff.1 hput
  dsimp only at hrest
  split at hrest
  · rw [← Option.some.inj hrest] at hform
    cases hform
  rw [putLocked] at hrest
  split at hrest
  · rw [← Option.some.inj hrest] at hform
    cases hform
  dsimp only at hrest
  split at hrest
  · rw [← Option.some.inj hrest] at hform
    cases hform
  rw [store] at hrest
  cases hextended : isExtended o old with
  | true =>
    rw [hextended, routeOf_extended] at hrest
    obtain ⟨⟨status, form, held''⟩, hstored, rfl⟩ := Option.map_eq_some_iff.1 hrest
    obtain rfl : form = some f := hform
    exact Or.inr ⟨rfl, putExtended_form hstored⟩
  | false =>
    have hserialized := form_mdsSerializeDscOutZ call.record
      (compressMethod call (prepared db place call old false))
      (if (prepared db place call old false).has NciM_VERSIONS ∨ false = true then 0
        else altbufSize)
    refine Or.inl ⟨rfl, ?_⟩
    rw [← hserialized]
    rw [hextended] at hrest
    split at hrest
    · rw [← Option.some.inj hrest] at hform
      exact (Option.some.inj hform).symm
    · rename_i hroute
      exact absurd hroute routeOf_ordinary
    · obtain ⟨r', -, rfl⟩ := Option.map_eq_some_iff.1 hrest
      exact (Option.some.inj hform).symm
    · obtain ⟨r', -, rfl⟩ := Option.map_eq_some_iff.1 hrest
      exact (Option.some.inj hform).symm

/-- An ordinary record is compressed if it can be and is to be, by the method of the node; and a
record of extended attributes is not left as it is if it is to be compressed. -/
theorem compressed_form_eq {held : Held} {r : Result} {f : Form}
    (hput : treePutRecord db place o call old held = some r) (hform : r.form = some f) :
    (isExtended o old = false → f = if call.record.compressible ∧ Wanted call old
      then .packed (methodOf old.compressionMethod.toNat) else .plain) ∧
    (isExtended o old = true → call.record.compressible = true → Wanted call old →
      f ≠ .plain) := by
  rcases treePutRecord_form hput hform with ⟨hordinary, rfl⟩ | ⟨hextended, rfl⟩
  · refine ⟨fun _ => formOf_compressMethod _ _, fun hextended => ?_⟩
    rw [hordinary] at hextended
    cases hextended
  · refine ⟨fun hordinary => ?_, fun _ hcompressible hwanted => ?_⟩
    · rw [hextended] at hordinary
      cases hordinary
    · have hwants : wantsCompression call (prepared db place call old true) = true :=
        (wantsCompression_prepared true).2 hwanted
      rw [compressFlag, if_pos ((wantsCompression_afterSerialize _).2 hwants), formOf,
        if_pos ⟨hcompressible, by decide⟩]
      intro hplain
      cases hplain

def arrayRecord : Record where
  copied := true
  compressible := true
  compresses := fun _ => true
  image := fun _ => ⟨true, none, true, 40, 40, 8, 4⟩

def arrayCall (utilityUpdate : ℤ) (flags : BitVec 32) : Call :=
  ⟨utilityUpdate, ⟨flags, 0, 0, 0, 0, 0, 0, 0, 0, 0⟩, false, arrayRecord⟩

def arrayNci (flags : BitVec 32) (flags2 method : Byte) : Nci :=
  ⟨⟨flags, flags2, 0, 0, 0, 0, 0, 0, method, 0⟩, Vector.replicate 12 0⟩

/-- It is put into a node of the model, and nothing fails. -/
def putArray (call : Call) (old : Nci) : Option Result :=
  treePutRecord ⟨true, false, false, false⟩
    ⟨⟨false, false, true, true⟩, true, false, false, fun _ => true⟩
    { hook := true
      nci := ⟨true, [⟨true, false, true, false⟩], true, ⟨true, false, true, false⟩, true⟩
      openDatafile := true, attributesRead := true, nonvmsCompatible := false
      put := ⟨[⟨true, false, true, false⟩], true⟩, seekEnd := true, oldNciWritten := true
      update := fun _ => ⟨[⟨true, false, true, false⟩], true⟩, headerWritten := fun _ => true
      dsc := ⟨[⟨true, false, true, false⟩], true⟩
      attributes := ⟨[⟨true, false, true, false⟩], true⟩ } call old ⟨0, 0⟩

theorem putArray_form_eq :
    Form.packed 1 = if arrayRecord.compressible ∧
        Wanted (arrayCall 0 0) (arrayNci NciM_COMPRESS_ON_PUT 0 1)
      then .packed (methodOf (arrayNci NciM_COMPRESS_ON_PUT 0 1).compressionMethod.toNat)
      else .plain := by
  have hput : putArray (arrayCall 0 0) (arrayNci NciM_COMPRESS_ON_PUT 0 1) =
      some ⟨.success, ⟨0, 0⟩, some (.packed 1)⟩ := by decide
  exact (compressed_form_eq hput rfl).1 rfl

/-- A utility that compresses does so though the node is not compressed on put; and a record of
extended attributes is compressed though neither asks for it. -/
theorem putArray_not_on_put :
    (putArray (arrayCall 2 0) (arrayNci 0 0 0)).bind (·.form) = some (.packed 0) ∧
      (putArray (arrayCall 0 0) (arrayNci 0 NciM_EXTENDED_NCI 0)).bind (·.form) =
        some (.packed 0) := by
  decide

end MdsPlus.CompressChoice
