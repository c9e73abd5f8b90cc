import MdsPlus.CmprsRun

/-!
Whole arrays through compressor and expander. The runs follow each other in the
packed bits, so a strong induction on the items left carries the expander along
the compressor; the padding behind the packed bytes is never looked at.
-/

namespace MdsPlus.XpandCmprs

open BitMemory Cmprs CmprsRun Outcome

/-- The compressor appends to the packed bits, and the expander reads any prefix of
the items back from any memory that agrees on them. -/
theorem xpandLoop_cmprsLoop (br : Branch) (limit nitems : ℕ) (s s' : State)
    (hok : cmprsLoop br limit nitems s = .ok s') :
    s.bit ≤ s'.bit ∧ (∀ i, i < s.bit → bit s'.pack i = bit s.pack i) ∧
      ∀ (m : Memory) (limit' n : ℕ), (∀ i, i < s'.bit → bit m i = bit s'.pack i) →
        s'.bit ≤ limit' → n ≤ nitems →
        ∃ b, xpandLoop br m limit' n s.bit = .ok (s.items.take (n * br.width), b) := by
  induction nitems using Nat.strong_induction_on generalizing s with
  | _ nitems ih =>
    rw [cmprsLoop] at hok
    by_cases hzero : nitems = 0
    · rw [if_pos hzero] at hok
      cases hok
      refine ⟨Nat.le_refl _, fun _ _ => rfl, ?_⟩
      intro m limit' n _ _ hn
      obtain rfl : n = 0 := by omega
      rw [xpandLoop]
      simp
    · rw [if_neg hzero] at hok
      obtain ⟨s1, hrun, hloop⟩ := bind_eq_ok.mp hok
      obtain ⟨items, w, exce, hload, hbelow1, hholds⟩ := cmprsRun_spec hrun
      have hmax : 0 < min nitems MAXX ∧ min nitems MAXX ≤ MAXX := by
        simp only [MAXX]
        omega
      obtain ⟨hle, hbelow, hexpand⟩ := ih _ (by omega) s1 hloop
      obtain ⟨hlen, hrest, htake⟩ := loadItems_spec hload
      have hfinish := hholds.finish_eq
      refine ⟨by omega, fun i hi => (hbelow i (by omega)).trans (hbelow1 i hi), ?_⟩
      intro m limit' n hagree hlimit hn
      rw [xpandLoop]
      by_cases hn0 : n = 0
      · simp [hn0]
      · have hm : HoldsRun m s.bit s1.bit items w exce :=
          hholds.congr fun i hi => (hagree i (by omega)).trans (hbelow i hi)
        have hheader := readHeader_spec hm (by omega) (by omega)
        have hj : items.length - 1 + 1 = items.length := by omega
        have hexce : (if w.ye = 0 then 64 else w.ye) * w.xe = w.ye * w.xe := by
          rcases hm.widths.xe_lt with h0 | ⟨_, _, _⟩
          · simp [h0]
          · rw [if_neg (by omega)]
        have hroom : w.yn * min items.length n ≤ w.yn * items.length :=
          Nat.mul_le_mul_left _ (Nat.min_le_left _ _)
        obtain ⟨b, hitems, hnext⟩ := expandRun_spec hm _ rfl (min items.length n) (by omega)
          (Nat.min_le_left _ _)
        rw [if_neg hn0, if_neg (by omega)]
        simp only [hheader, hj, hexce]
        rw [if_neg (by omega), hitems]
        by_cases hlast : n ≤ items.length
        · -- the wanted items end inside this run
          obtain ⟨hlen', hdone⟩ : min items.length n = n ∧ n - n = 0 := by omega
          have hend : ∀ b, xpandLoop br m limit' 0 b = .ok ([], b) := fun b => by
            rw [xpandLoop, if_pos rfl]
          rw [hlen', hdone]
          exact ⟨b, by simp [bind, Except.bind, hend, htake n (by omega)]⟩
        · have hwhole : min items.length n = items.length := by omega
          obtain rfl := hnext hwhole
          obtain ⟨b', htail⟩ := hexpand m limit' (n - items.length) hagree hlimit (by omega)
          have hsplit : s.items.take (n * br.width) =
              s.items.take (items.length * br.width) ++
                s1.items.take ((n - items.length) * br.width) := by
            rw [hrest, ← hlen, ← List.take_add, ← Nat.add_mul]
            congr 2
            omega
          have hitems' := htake items.length (by omega)
          rw [List.take_length] at hitems'
          rw [hwhole, List.take_length]
          exact ⟨b', by simp [bind, Except.bind, htail, hitems', hsplit]⟩

theorem bit_padded (pack : Memory) (arsize i : ℕ) (h : i < arsize * 8) :
    bit (padded pack arsize) i = bit pack i := by
  rw [bit, padded, if_pos (by omega), bit]

/-- The expander gives back as many bytes as its loop has taken off the array. -/
theorem mdsXpand_mdsCmprs_take (nitems dtype length arsize : ℕ) (items : List Byte)
    (stack : Vector Word MAXX) (pack pack' : Memory) (bits : ℕ)
    (hok : mdsCmprs nitems dtype length items arsize stack pack 0 = .ok (pack', bits))
    (hbits : (bits + 7) / 8 * 8 < intLimit) (n : ℕ) (hn : n ≤ nitems) :
    ∃ b, mdsXpand n pack' ((bits + 7) / 8) dtype length 0 =
      .ok (items.take (n * (length / stepOf dtype length) *
        (branchOf dtype (stepOf dtype length)).width), b) := by
  unfold mdsCmprs at hok
  dsimp only at hok
  rw [ite_error_eq_ok] at hok
  obtain ⟨hint, hok⟩ := hok
  obtain ⟨s, hloop, heq⟩ := bind_eq_ok.mp hok
  cases heq
  obtain ⟨_, _, hexpand⟩ := xpandLoop_cmprsLoop _ _ _ _ _ hloop
  have hle : n * (length / stepOf dtype length) ≤ nitems * (length / stepOf dtype length) :=
    Nat.mul_le_mul_right _ hn
  obtain ⟨b, hb⟩ := hexpand (padded s.pack ((s.bit + 7) / 8)) ((s.bit + 7) / 8 * 8) _
    (fun i hi => bit_padded _ _ i (by omega)) (by omega) hle
  refine ⟨b, ?_⟩
  unfold mdsXpand
  dsimp only
  rw [if_neg (by omega)]
  exact hb

theorem stepOf_dvd (dtype length : ℕ) : stepOf dtype length ∣ length := by
  unfold stepOf
  split
  · exact Nat.one_dvd length
  split
  · exact Nat.dvd_of_mod_eq_zero ‹_›
  split
  · exact Nat.dvd_of_mod_eq_zero ‹_›
  · exact Nat.one_dvd length

/-- Compressing an array and expanding any number of its items gives them back,
for every data type whose loop takes the element apart in steps of its own width. -/
theorem mdsXpand_mdsCmprs (nitems dtype length arsize : ℕ) (items : List Byte)
    (stack : Vector Word MAXX) (pack pack' : Memory) (bits : ℕ)
    (hwidth : (branchOf dtype (stepOf dtype length)).width = stepOf dtype length)
    (hok : mdsCmprs nitems dtype length items arsize stack pack 0 = .ok (pack', bits))
    (hbits : (bits + 7) / 8 * 8 < intLimit) (n : ℕ) (hn : n ≤ nitems) :
    ∃ b, mdsXpand n pack' ((bits + 7) / 8) dtype length 0 = .ok (items.take (n * length), b) := by
  obtain ⟨b, hb⟩ := mdsXpand_mdsCmprs_take nitems dtype length arsize items stack pack pack'
    bits hok hbits n hn
  rw [hwidth, Nat.mul_assoc, Nat.div_mul_cancel (stepOf_dvd dtype length)] at hb
  exact ⟨b, hb⟩

theorem mdsCmprs_one_run (nitems dtype length arsize bits : ℕ) (items : List Byte)
    (hcount : 0 < nitems * (length / stepOf dtype length))
    (hmax : nitems * (length / stepOf dtype length) ≤ MAXX)
    (hrun : (cmprsRun (branchOf dtype (stepOf dtype length))
        (if arsize > 4 then arsize * 8 - 32 else 0) (nitems * (length / stepOf dtype length))
        ⟨items, (Vector.replicate MAXX 0).toList, fun _ => 0, 0⟩).toOption.map State.bit =
      some bits) :
    ∃ pack', mdsCmprs nitems dtype length items arsize (Vector.replicate MAXX 0) (fun _ => 0) 0 =
      .ok (pack', bits) := by
  generalize hr : cmprsRun _ _ _ _ = r at hrun
  cases r with
  | error f => simp [Except.toOption] at hrun
  | ok s =>
    obtain rfl : s.bit = bits := by simpa [Except.toOption] using hrun
    refine ⟨s.pack, ?_⟩
    unfold mdsCmprs
    dsimp only
    have hmax' : nitems * (length / stepOf dtype length) ≤ 1024 := hmax
    rw [if_neg (by simp only [intLimit]; omega), cmprsLoop, if_neg (by omega)]
    simp only [Nat.min_eq_left hmax, hr, bind, Except.bind, Nat.sub_self]
    rw [cmprsLoop, if_pos rfl]

/-- Four longwords; the steps up to the third and down from it are exceptions. -/
theorem mdsXpand_mdsCmprs_longwords : ∃ pack', ∀ n ≤ 4, ∃ b,
    mdsXpand n pack' ((102 + 7) / 8) dtypeL 4 0 =
      .ok ([1, 0, 0, 0, 2, 0, 0, 0, 0, 0, 0, 0x40, 1, 0, 0, 0].take (n * 4), b) := by
  obtain ⟨pack', hok⟩ := mdsCmprs_one_run 4 dtypeL 4 40 102
    [1, 0, 0, 0, 2, 0, 0, 0, 0, 0, 0, 0x40, 1, 0, 0, 0] (by decide) (by decide) (by decide +kernel)
  exact ⟨pack', fun n hn => mdsXpand_mdsCmprs 4 dtypeL 4 40 _ _ _ pack' 102 (by decide) hok
    (by decide) n hn⟩

/-- Type B moves one byte a turn whatever the element length: of a two-byte element
only the first byte comes back. -/
theorem mdsXpand_mdsCmprs_byte_pair : ∃ pack',
    mdsCmprs 1 dtypeB 2 [1, 2] 40 (Vector.replicate MAXX 0) (fun _ => 0) 0 =
        .ok (pack', 34) ∧
      ¬ ∃ b, mdsXpand 1 pack' ((34 + 7) / 8) dtypeB 2 0 = .ok ([1, 2], b) := by
  obtain ⟨pack', hok⟩ := mdsCmprs_one_run 1 dtypeB 2 40 34 [1, 2] (by decide) (by decide)
    (by decide +kernel)
  refine ⟨pack', hok, ?_⟩
  rintro ⟨b, hb⟩
  obtain ⟨b', hb'⟩ := mdsXpand_mdsCmprs_take 1 dtypeB 2 40 _ _ _ pack' 34 hok (by decide) 1
    (Nat.le_refl 1)
  rw [hb'] at hb
  have hbytes := (Prod.mk.inj (Except.ok.inj hb)).1
  exact absurd hbytes (by decide)

end MdsPlus.XpandCmprs
