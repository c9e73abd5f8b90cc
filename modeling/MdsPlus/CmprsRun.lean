import MdsPlus.CmprsWidths
import MdsPlus.Outcome

/-!
One run through compressor and expander. The exception table lists the
differences outside the normal range in order, and may go on beyond them; every
field is wide enough for what it holds; so summing the unpacked fields, with the
table in place of the marks, gives back the loaded items of any prefix.
-/

namespace MdsPlus.CmprsRun

open BitMemory Pack Cmprs CmprsWidths Outcome

theorem inRange_markOf (yn : ℕ) (hpos : 0 < yn) (hle : yn ≤ 32) (d : Word) :
    inRange (markOf yn) d = decide (d.toInt.natAbs < 2 ^ (yn - 1)) := by
  have hcompl : (~~~markOf yn).toInt = 2 ^ (yn - 1) - 1 := by
    have h : ∀ k : Fin 32, (~~~markOf (k + 1)).toInt = 2 ^ (k : ℕ) - 1 := by decide
    obtain ⟨k, rfl⟩ : ∃ k, yn = k + 1 := ⟨yn - 1, by omega⟩
    exact h ⟨k, by omega⟩
  have hcast : ((2 ^ (yn - 1) : ℕ) : ℤ) = 2 ^ (yn - 1) := by push_cast; rfl
  rw [inRange, BitVec.sle, BitVec.slt, hcompl, toInt_markOf yn hpos hle, ← Bool.decide_and,
    decide_eq_decide]
  omega

def exceptions (mark : Word) (diff : List Word) : List Word :=
  diff.filter fun d => !inRange mark d

/-- The difference array with its exceptions replaced by the mark. -/
def marked (mark : Word) (diff : List Word) : List Word :=
  diff.map fun d => if inRange mark d then d else mark

theorem marked_eq_self (mark : Word) (diff : List Word) (h : exceptions mark diff = []) :
    marked mark diff = diff := by
  conv_rhs => rw [← List.map_id diff]
  apply List.map_congr_left
  intro d hd
  have hd' := List.filter_eq_nil_iff.mp h d hd
  rw [if_pos (by simpa using hd')]
  rfl

theorem extract_cons {mark : Word} {xe : ℕ} {d : Word} {diff exce out : List Word}
    (hok : extract mark (xe + 1) (d :: diff) = .ok (exce, out)) :
    ∃ (n : ℕ) (exce' out' : List Word), extract mark n diff = .ok (exce', out') ∧
      (inRange mark d = true ∧ n = xe + 1 ∧ exce = exce' ∧ out = d :: out' ∨
        inRange mark d = false ∧ n = xe ∧ exce = d :: exce' ∧ out = mark :: out') := by
  rw [extract] at hok
  by_cases hin : inRange mark d = true
  · rw [if_pos hin] at hok
    obtain ⟨⟨exce', out'⟩, hrest, heq⟩ := bind_eq_ok.mp hok
    obtain ⟨rfl, rfl⟩ := Prod.mk.inj (Except.ok.inj heq)
    exact ⟨xe + 1, exce', out', hrest, Or.inl ⟨hin, rfl, rfl, rfl⟩⟩
  · rw [if_neg hin] at hok
    obtain ⟨⟨exce', out'⟩, hrest, heq⟩ := bind_eq_ok.mp hok
    cases heq
    exact ⟨xe, exce', out', hrest, Or.inr ⟨by simpa using hin, rfl, rfl, rfl⟩⟩

theorem extract_length (mark : Word) (xe : ℕ) (diff exce out : List Word)
    (hok : extract mark xe diff = .ok (exce, out)) :
    exce.length = xe ∧ out.length = diff.length := by
  induction diff generalizing xe exce out with
  | nil =>
    cases xe with
    | zero =>
      obtain ⟨rfl, rfl⟩ : [] = exce ∧ [] = out := by simpa [extract] using hok
      exact ⟨rfl, rfl⟩
    | succ xe => simp [extract] at hok
  | cons d diff ih =>
    cases xe with
    | zero =>
      obtain ⟨rfl, rfl⟩ : [] = exce ∧ d :: diff = out := by simpa [extract] using hok
      exact ⟨rfl, rfl⟩
    | succ xe =>
      obtain ⟨n, exce', out', hrest, ⟨_, rfl, rfl, rfl⟩ | ⟨_, rfl, rfl, rfl⟩⟩ :=
        extract_cons hok
      · obtain ⟨h1, h2⟩ := ih (xe + 1) _ out' hrest
        exact ⟨h1, by simp [h2]⟩
      · obtain ⟨h1, h2⟩ := ih _ exce' out' hrest
        exact ⟨by simp [h1], by simp [h2]⟩

/-- An exception count that is too large makes the scan go on past the run; what
it did inside the run stands. -/
theorem extract_spec (mark : Word) (xe : ℕ) (diff stale : List Word)
    (hcount : (exceptions mark diff).length ≤ xe) (exce out : List Word)
    (hok : extract mark xe (diff ++ stale) = .ok (exce, out)) :
    exceptions mark diff <+: exce ∧ out.take diff.length = marked mark diff := by
  induction diff generalizing xe exce out with
  | nil => exact ⟨List.nil_prefix, rfl⟩
  | cons d diff ih =>
    cases xe with
    | zero =>
      have hnone : exceptions mark (d :: diff) = [] := List.length_eq_zero_iff.mp (by omega)
      obtain ⟨rfl, rfl⟩ : [] = exce ∧ d :: (diff ++ stale) = out := by
        simpa [extract] using hok
      rw [hnone, marked_eq_self mark _ hnone]
      exact ⟨List.nil_prefix, by simp⟩
    | succ xe =>
      obtain ⟨n, exce', out', hrest, ⟨hin, rfl, rfl, rfl⟩ | ⟨hout, rfl, rfl, rfl⟩⟩ :=
        extract_cons hok
      · have hexc : exceptions mark (d :: diff) = exceptions mark diff := by
          simp [exceptions, hin]
        obtain ⟨h1, h2⟩ := ih (xe + 1) (by rwa [hexc] at hcount) _ out' hrest
        exact ⟨by rwa [hexc], by simp [marked, hin] at h2 ⊢; exact h2⟩
      · have hexc : exceptions mark (d :: diff) = d :: exceptions mark diff := by
          simp [exceptions, hout]
        rw [hexc, List.length_cons] at hcount
        obtain ⟨h1, h2⟩ := ih _ (by omega) exce' out' hrest
        exact ⟨by rw [hexc]; exact List.prefix_cons_inj d |>.mpr h1,
          by simp [marked, hout] at h2 ⊢; exact h2⟩

theorem restore_plain (mark old : Word) (items exce : List Word) :
    restore false mark old (differences old items) exce = .ok items := by
  induction items generalizing old with
  | nil => rfl
  | cons item items ih =>
    have hitem : old + (item - old) = item := by
      rw [BitVec.add_comm, BitVec.sub_add_cancel]
    simp [restore, differences, hitem, ih, bind, Except.bind]

theorem restore_marked (mark old : Word) (items exce : List Word)
    (h : exceptions mark (differences old items) <+: exce) :
    restore true mark old (marked mark (differences old items)) exce = .ok items := by
  induction items generalizing old exce with
  | nil => rfl
  | cons item items ih =>
    have hitem : old + (item - old) = item := by
      rw [BitVec.add_comm, BitVec.sub_add_cancel]
    by_cases hin : inRange mark (item - old) = true
    · -- a normal field never looks like the mark
      have hne : ¬ (item - old) = mark := by
        intro heq
        simp [inRange, heq, BitVec.slt] at hin
      have hexc : exceptions mark (differences item items) <+: exce := by
        simpa [exceptions, differences, hin] using h
      simp [restore, differences, marked, hin, hne, hitem, bind, Except.bind]
      have := ih item exce hexc
      simp only [marked] at this
      simp [this]
    · have hout : inRange mark (item - old) = false := by simpa using hin
      obtain ⟨junk, hjunk⟩ := h
      have hexc : exceptions mark (differences old (item :: items)) =
          (item - old) :: exceptions mark (differences item items) := by
        simp [exceptions, differences, hout]
      rw [hexc, List.cons_append] at hjunk
      subst hjunk
      have := ih item (exceptions mark (differences item items) ++ junk) ⟨junk, rfl⟩
      simp only [marked] at this
      simp [restore, differences, marked, hout, hitem, this, bind, Except.bind]

theorem differences_take (old : Word) (items : List Word) (j : ℕ) :
    (differences old items).take j = differences old (items.take j) := by
  induction items generalizing old j with
  | nil => simp [differences]
  | cons item items ih =>
    cases j with
    | zero => rfl
    | succ j => simp [differences, ih]

theorem mem_marked {mark d : Word} {diff : List Word} (h : d ∈ marked mark diff) :
    d = mark ∨ d ∈ diff ∧ inRange mark d = true := by
  obtain ⟨e, he, rfl⟩ := List.mem_map.mp h
  by_cases hin : inRange mark e = true
  · rw [if_pos hin]
    exact Or.inr ⟨he, hin⟩
  · rw [if_neg hin]
    exact Or.inl rfl

theorem signExt_of_natAbs (n : ℕ) (hpos : 0 < n) (hn : n ≤ 32) (d : Word)
    (h : d.toInt.natAbs < 2 ^ (n - 1)) : signExt n d = d := by
  have hcast : ((2 ^ (n - 1) : ℕ) : ℤ) = 2 ^ (n - 1) := by push_cast; rfl
  exact signExt_of_lt n hpos hn d (by omega) (by omega)

theorem signExt_word (d : Word) : signExt 32 d = d := by simp [signExt]

section Widths

variable {items : List Word} {w : Widths} (hw : WidthsOk (bins 0 items) w)

include hw

theorem signExt_ye (hpos : 0 < w.ye) : ∀ d ∈ differences 0 items, signExt w.ye d = d := by
  intro d hd
  by_cases h32 : w.ye = 32
  · rw [h32, signExt_word]
  · have hbins : ∀ y ∈ bins 0 items, y ≤ w.ye - 1 := by
      intro y hy
      have := hw.bins_le y hy
      have := hw.ye_le
      omega
    exact signExt_of_natAbs _ hpos hw.ye_le d (differences_bounded 0 items _ hbins d hd)

theorem signExt_yn (hxe : w.xe = 0) : ∀ d ∈ differences 0 items, signExt w.yn d = d := by
  intro d hd
  by_cases hpos : 0 < w.yn
  · have hcount := hw.count hpos
    rw [hxe] at hcount
    have hle := List.countP_eq_zero.mp hcount.symm
    have hye := hw.ye_le
    have hyn := hw.yn_le
    by_cases h32 : w.yn = 32
    · rw [h32, signExt_word]
    · have hbins : ∀ y ∈ bins 0 items, y ≤ w.yn - 1 := by
        intro y hy
        have hy' := hle _ (List.mem_map_of_mem hy)
        simp only [decide_eq_true_eq] at hy'
        omega
      exact signExt_of_natAbs _ hpos (by omega) d (differences_bounded 0 items _ hbins d hd)
  · have hbins : ∀ y ∈ bins 0 items, y ≤ 0 := by
      intro y hy
      have := hw.zero (hw.yn_pos (by omega)) y hy
      omega
    have hzero := differences_bounded 0 items 0 hbins d hd
    have hd0 : d = 0 := BitVec.eq_of_toInt_eq (by
      have h0 : (0 : Word).toInt = 0 := by decide
      omega)
    rw [hd0, show w.yn = 0 by omega]
    decide

theorem exceptions_length (hxe : w.xe ≠ 0) :
    (exceptions (markOf w.yn) (differences 0 items)).length ≤ w.xe := by
  rcases hw.xe_lt with h | ⟨hpos, hlt, _⟩
  · exact absurd h hxe
  · have hle := hw.ye_le
    have hwide := countP_wide_le 0 items (w.yn - 1)
    have hfold : (bins 0 items).countP (fun y => decide (w.yn - 1 < y)) = w.xe := by
      rw [hw.count hpos, folded, List.countP_map]
      apply List.countP_congr
      intro y _
      simp only [Function.comp_apply, decide_eq_true_eq]
      omega
    have hexc : (exceptions (markOf w.yn) (differences 0 items)).length =
        (differences 0 items).countP (fun d => decide (2 ^ (w.yn - 1) ≤ d.toInt.natAbs)) := by
      rw [exceptions, ← List.countP_eq_length_filter]
      apply List.countP_congr
      intro d _
      rw [inRange_markOf w.yn hpos (by omega)]
      simp
    omega

theorem signExt_marked (hpos : 0 < w.yn) :
    ∀ d ∈ marked (markOf w.yn) (differences 0 items), signExt w.yn d = d := by
  intro d hd
  have hyn := hw.yn_le
  have hye := hw.ye_le
  rcases mem_marked hd with rfl | ⟨_, hin⟩
  · have hmark := toInt_markOf w.yn hpos (by omega)
    have hhalf : (0 : ℤ) < 2 ^ (w.yn - 1) := by positivity
    exact signExt_of_lt _ hpos (by omega) _ (by omega) (by omega)
  · rw [inRange_markOf w.yn hpos (by omega)] at hin
    exact signExt_of_natAbs _ hpos (by omega) d (by simpa using hin)

end Widths

theorem xOfInt_xAndY (x y : Word) : xOfInt (masks 16 &&& xAndY x y) = x.toNat % 1024 := by
  have h : ((masks 16 &&& xAndY x y) >>> BITSY) &&& masks BITSX = masks BITSX &&& x := by
    apply word_ext
    intro j hj
    rw [BitVec.getLsbD_and, BitVec.getLsbD_and, masks_getLsbD _ j hj, BITSX]
    by_cases hj10 : j < 10
    · simp (disch := omega) only [xAndY, BITSX, BITSY, BitVec.getLsbD_and, BitVec.getLsbD_or,
        BitVec.getLsbD_ushiftRight, BitVec.getLsbD_shiftLeft, masks_getLsbD]
      simp [hj10, show 6 + j < 16 by omega, show 6 + j < 32 by omega]
    · simp [hj10]
  rw [xOfInt, h, toNat_masks_and]
  rfl

theorem yOfInt_xAndY (x y : Word) : yOfInt (masks 16 &&& xAndY x y) = y.toNat % 64 := by
  have h : (masks 16 &&& xAndY x y) &&& masks BITSY = masks BITSY &&& y := by
    apply word_ext
    intro j hj
    simp only [BitVec.getLsbD_and, BITSY, masks_getLsbD 6 j hj]
    by_cases hj6 : j < 6
    · simp (disch := omega) only [xAndY, BITSX, BITSY, BitVec.getLsbD_and, BitVec.getLsbD_or,
        BitVec.getLsbD_shiftLeft, masks_getLsbD]
      simp [hj6, show j < 16 by omega]
    · simp [hj6]
  rw [yOfInt, h, toNat_masks_and]
  rfl

theorem byte_zero (x : Byte) :
    (x.setWidth 32).extractLsb' 0 8 = x ∧ (x.signExtend 32).extractLsb' 0 8 = x := by
  constructor <;> ext j hj <;> simp <;> grind

theorem bytes_of_short (x y : Byte) :
    ((y ++ x).setWidth 32).extractLsb' 0 8 = x ∧ ((y ++ x).setWidth 32).extractLsb' 8 8 = y ∧
      ((y ++ x).signExtend 32).extractLsb' 0 8 = x ∧
      ((y ++ x).signExtend 32).extractLsb' 8 8 = y := by
  refine ⟨?_, ?_, ?_, ?_⟩ <;> ext j hj <;> simp <;> grind

theorem bytes_of_int (x y z w : Byte) :
    (w ++ z ++ y ++ x).extractLsb' 0 8 = x ∧ (w ++ z ++ y ++ x).extractLsb' 8 8 = y ∧
      (w ++ z ++ y ++ x).extractLsb' 16 8 = z ∧ (w ++ z ++ y ++ x).extractLsb' 24 8 = w := by
  refine ⟨?_, ?_, ?_, ?_⟩ <;> ext j hj <;> simp <;> grind

theorem store_load (br : Branch) (bytes : List Byte) (h : bytes.length = br.width) :
    br.store (br.load bytes) = bytes := by
  match br, bytes, h with
  | .bu, [x], _ => simpa [Branch.store, Branch.load] using (byte_zero x).1
  | .b, [x], _ => simpa [Branch.store, Branch.load] using (byte_zero x).2
  | .wu, [x, y], _ =>
    obtain ⟨h0, h1, _, _⟩ := bytes_of_short x y
    simp [Branch.store, Branch.load, h0, h1]
  | .w, [x, y], _ =>
    obtain ⟨_, _, h0, h1⟩ := bytes_of_short x y
    simp [Branch.store, Branch.load, h0, h1]
  | .lu, [x, y, z, w], _ =>
    obtain ⟨h0, h1, h2, h3⟩ := bytes_of_int x y z w
    simp [Branch.store, Branch.load, h0, h1, h2, h3]
  | .f, [x, y, z, w], _ =>
    obtain ⟨h0, h1, h2, h3⟩ := bytes_of_int z w x y
    simp [Branch.store, Branch.load, h0, h1, h2, h3]

theorem loadItems_spec {br : Branch} {n : ℕ} {bytes rest : List Byte} {items : List Word}
    (hok : loadItems br n bytes = .ok (items, rest)) :
    items.length = n ∧ rest = bytes.drop (n * br.width) ∧
      ∀ j, j ≤ n → (items.take j).flatMap br.store = bytes.take (j * br.width) := by
  induction n generalizing bytes items with
  | zero =>
    cases hok
    simp
  | succ n ih =>
    rw [loadItems, ite_error_eq_ok] at hok
    obtain ⟨hlen, hok⟩ := hok
    obtain ⟨⟨items', rest'⟩, hrest, heq⟩ := bind_eq_ok.mp hok
    cases heq
    obtain ⟨hlength, rfl, htake⟩ := ih hrest
    refine ⟨by simp [hlength], by rw [List.drop_drop]; congr 1; rw [Nat.succ_mul]; omega, ?_⟩
    intro j hj
    cases j with
    | zero => simp
    | succ j =>
      have hstore : br.store (br.load (bytes.take br.width)) = bytes.take br.width :=
        store_load br _ (by rw [List.length_take]; omega)
      rw [List.take_succ_cons, List.flatMap_cons, hstore, htake j (by omega), Nat.succ_mul,
        Nat.add_comm, List.take_add]

def runBits (xn : ℕ) (w : Widths) (diff exce : List Word) : List Bool :=
  fields 16 (headerOf xn w) ++ (fields w.yn diff ++ fields w.ye exce)

theorem runBits_length (xn : ℕ) (w : Widths) (diff exce : List Word) (hdiff : diff.length = xn)
    (hexce : exce.length = w.xe) :
    (runBits xn w diff exce).length = 32 + w.yn * xn + w.ye * w.xe := by
  simp [runBits, headerOf, hdiff, hexce]
  omega

theorem mdsPk_append (size : ℕ) (hsize : size ≤ 32) (words : List Word) (pack : Memory)
    (start : ℕ) (bits : List Bool) (h : HoldsBits pack start bits) :
    (∀ i, i < start → bit (mdsPk size words pack (start + bits.length)).1 i = bit pack i) ∧
      HoldsBits (mdsPk size words pack (start + bits.length)).1 start
        (bits ++ fields size words) ∧
      (mdsPk size words pack (start + bits.length)).2 =
        start + (bits ++ fields size words).length := by
  obtain ⟨hbelow, hheld, hend⟩ :=
    mdsPk_spec (size : ℤ) (by simpa using hsize) words pack (start + bits.length)
  rw [Int.natAbs_natCast] at hheld hend
  refine ⟨fun i hi => hbelow i (by omega), ?_, by simp [hend, Nat.add_assoc]⟩
  rw [holdsBits_append]
  exact ⟨h.congr fun i _ hi => hbelow i hi, hheld⟩

def stored (w : Widths) (items : List Word) : List Word :=
  if w.xe = 0 then differences 0 items else marked (markOf w.yn) (differences 0 items)

theorem stored_length (w : Widths) (items : List Word) :
    (stored w items).length = items.length := by
  unfold stored
  split <;> simp [marked, differences_length]

/-- Memory holds a compressed run of the items from `start` up to `finish`. -/
structure HoldsRun (m : Memory) (start finish : ℕ) (items : List Word) (w : Widths)
    (exce : List Word) : Prop where
  widths : WidthsOk (bins 0 items) w
  exce_length : exce.length = w.xe
  exce_prefix : w.xe ≠ 0 → exceptions (markOf w.yn) (differences 0 items) <+: exce
  bits : HoldsBits m start (runBits items.length w (stored w items) exce)
  finish_eq : finish = start + (32 + w.yn * items.length + w.ye * w.xe)

theorem HoldsRun.congr {m m' : Memory} {start finish : ℕ} {items : List Word} {w : Widths}
    {exce : List Word} (h : HoldsRun m start finish items w exce)
    (heq : ∀ i, i < finish → bit m' i = bit m i) : HoldsRun m' start finish items w exce where
  widths := h.widths
  exce_length := h.exce_length
  exce_prefix := h.exce_prefix
  bits := h.bits.congr fun i _ hi => heq i (by
    rw [runBits_length _ _ _ _ (stored_length w items) h.exce_length] at hi
    rw [h.finish_eq]
    exact hi)
  finish_eq := h.finish_eq

theorem cmprsRun_ok {br : Branch} {limit xn : ℕ} {s s' : State}
    (hok : cmprsRun br limit xn s = .ok s') :
    ∃ items rest w exce diff,
      loadItems br xn s.items = .ok (items, rest) ∧
      w = chooseWidths xn (tallyOf (bins 0 items)) ∧
      extract (markOf w.yn) w.xe (differences 0 items ++ s.diff.drop xn) = .ok (exce, diff) ∧
      s'.items = rest ∧
      (s'.pack, s'.bit) =
        (let p := mdsPk 16 (headerOf xn w) s.pack s.bit
         let p := mdsPk w.yn (diff.take xn) p.1 p.2
         mdsPk w.ye exce p.1 p.2) := by
  obtain ⟨⟨items, rest⟩, hload, hok⟩ := bind_eq_ok.mp hok
  obtain ⟨⟨exce, diff⟩, hext, hok⟩ := bind_eq_ok.mp hok
  simp only [ite_error_eq_ok] at hok
  obtain ⟨_, _, _, hok⟩ := hok
  cases hok
  exact ⟨items, rest, _, exce, diff, hload, rfl, hext, rfl, rfl⟩

theorem cmprsRun_spec {br : Branch} {limit xn : ℕ} {s s' : State}
    (hok : cmprsRun br limit xn s = .ok s') :
    ∃ items w exce, loadItems br xn s.items = .ok (items, s'.items) ∧
      (∀ i, i < s.bit → bit s'.pack i = bit s.pack i) ∧
      HoldsRun s'.pack s.bit s'.bit items w exce := by
  obtain ⟨items, rest, w, exce, diff, hload, hw, hext, rfl, hpack⟩ := cmprsRun_ok hok
  have hxn : items.length = xn := (loadItems_spec hload).1
  have hwidths : WidthsOk (bins 0 items) w := by
    rw [hw, ← hxn, ← bins_length 0 items]
    exact chooseWidths_ok _ (bins_le 0 items)
  obtain ⟨hexce, hdiff⟩ := extract_length _ _ _ _ _ hext
  have hlen : (differences 0 items).length = xn := by rw [differences_length, hxn]
  have hstored : diff.take xn = stored w items := by
    unfold stored
    split
    · rename_i hzero
      rw [hzero, extract, Except.ok.injEq, Prod.mk.injEq] at hext
      rw [← hext.2, ← hlen, List.take_left]
    · rename_i hpos
      rw [← hlen]
      exact (extract_spec _ _ _ _ (exceptions_length hwidths hpos) _ _ hext).2
  have hyn : w.yn ≤ 32 := Nat.le_trans hwidths.yn_le hwidths.ye_le
  obtain ⟨hb1, hh1, he1⟩ :=
    mdsPk_append 16 (by omega) (headerOf xn w) s.pack s.bit [] (holdsBits_nil _ _)
  obtain ⟨hb2, hh2, he2⟩ := mdsPk_append w.yn hyn (diff.take xn) _ s.bit _ hh1
  obtain ⟨hb3, hh3, he3⟩ := mdsPk_append w.ye hwidths.ye_le exce _ s.bit _ hh2
  rw [← he2] at hb3 hh3 he3
  rw [← he1] at hb2 hb3 hh3 he3
  obtain ⟨hmem, hbit⟩ := Prod.mk.inj hpack
  have hbits : [] ++ fields 16 (headerOf xn w) ++ fields w.yn (diff.take xn) ++ fields w.ye exce =
      runBits items.length w (stored w items) exce := by
    rw [hstored, runBits, hxn, List.nil_append, List.append_assoc]
  rw [hbits] at hh3 he3
  refine ⟨items, w, exce, hload, ?_, {
    widths := hwidths
    exce_length := hexce
    exce_prefix := fun hpos => (extract_spec _ _ _ _ (exceptions_length hwidths hpos) _ _ hext).1
    bits := by rw [hmem]; exact hh3
    finish_eq := by
      rw [hbit, ← runBits_length items.length w _ exce (stored_length w items) hexce]
      exact he3 }⟩
  intro i hi
  rw [hmem]
  exact ((hb3 i hi).trans (hb2 i hi)).trans (hb1 i hi)

theorem fields_take (size j : ℕ) (ws : List Word) :
    fields size ws = fields size (ws.take j) ++ fields size (ws.drop j) := by
  rw [fields, fields, fields, ← List.flatMap_append, List.take_append_drop]

theorem readHeader_spec {m : Memory} {start finish : ℕ} {items : List Word} {w : Widths}
    {exce : List Word} (h : HoldsRun m start finish items w exce) (hpos : 0 < items.length)
    (hmax : items.length ≤ MAXX) :
    readHeader m start =
      ⟨items.length - 1, w.yn, w.xe, if w.ye = 0 then 64 else w.ye⟩ := by
  have hbits := h.bits
  rw [runBits, holdsBits_append] at hbits
  have hyn := h.widths.yn_le
  have hye := h.widths.ye_le
  have hmax' : items.length ≤ 1024 := hmax
  have hxe : w.xe < 1024 := by
    rcases h.widths.xe_lt with h0 | ⟨_, _, hlt⟩
    · omega
    · rw [bins_length] at hlt
      omega
  have hunpk := mdsUnpk_unsigned 16 (by omega) (by omega) (headerOf items.length w) m start
    hbits.1
  have hlen : (headerOf items.length w).length = 2 := rfl
  have hye' : (BitVec.ofNat 32 w.ye - 1).toNat % 64 + 1 = if w.ye = 0 then 64 else w.ye := by
    have hall : ∀ y : Fin 33,
        (BitVec.ofNat 32 y - 1).toNat % 64 + 1 = if (y : ℕ) = 0 then 64 else (y : ℕ) := by
      decide
    exact hall ⟨w.ye, by omega⟩
  rw [hlen, Nat.cast_ofNat] at hunpk
  unfold readHeader
  simp only [hunpk, headerOf, List.map_cons, List.map_nil, List.getD_cons_zero,
    List.getD_cons_succ, xOfInt_xAndY, yOfInt_xAndY, hye']
  simp only [BitVec.toNat_ofNat]
  congr 1 <;> omega

theorem expandRun_spec {m : Memory} {start finish : ℕ} {items : List Word} {w : Widths}
    {exce : List Word} (h : HoldsRun m start finish items w exce) (hd : Header)
    (hhd : hd = ⟨items.length - 1, w.yn, w.xe, if w.ye = 0 then 64 else w.ye⟩) (j : ℕ)
    (hpos : 0 < j) (hj : j ≤ items.length) :
    ∃ b, expandRun m hd j (start + 32) = .ok (items.take j, b) ∧
      (j = items.length → b = finish) := by
  subst hhd
  have hyn := h.widths.yn_le
  have hye := h.widths.ye_le
  obtain ⟨_, hrest⟩ := (holdsBits_append _ _ _ _).mp h.bits
  obtain ⟨hnormal, hexce⟩ := (holdsBits_append _ _ _ _).mp hrest
  have hnormal' := hnormal
  rw [fields_take w.yn j, holdsBits_append] at hnormal'
  have hlen : ((stored w items).take j).length = j := by
    rw [List.length_take, stored_length]
    omega
  have hunpk := mdsUnpk_signed w.yn (by omega) _ m _ hnormal'.1
  rw [hlen] at hunpk
  have hstart : start + (fields 16 (headerOf items.length w)).length = start + 32 := by
    simp [headerOf]
  rw [hstart] at hunpk
  unfold expandRun
  rw [if_neg (by dsimp only; omega)]
  simp only [hunpk]
  by_cases hxe : w.xe = 0
  · have hfit : ((stored w items).take j).map (signExt w.yn) = differences 0 (items.take j) := by
      rw [stored, if_pos hxe, List.map_take,
        List.map_congr_left (signExt_yn h.widths hxe), List.map_id', differences_take]
    rw [if_pos hxe, hfit, restore_plain]
    refine ⟨_, rfl, fun hall => ?_⟩
    rw [h.finish_eq, hxe, hall]
    omega
  · rcases h.widths.xe_lt with h0 | ⟨hynpos, hlt, _⟩
    · exact absurd h0 hxe
    have hye0 : w.ye ≠ 0 := by omega
    have hnormalfit : ((stored w items).take j).map (signExt w.yn) =
        marked (markOf w.yn) (differences 0 (items.take j)) := by
      rw [stored, if_neg hxe, List.map_take,
        List.map_congr_left (signExt_marked h.widths hynpos), List.map_id', marked,
        ← List.map_take, differences_take, marked]
    have hexcefit : exceptions (markOf w.yn) (differences 0 (items.take j)) <+:
        exce.map (signExt w.ye) := by
      have hmap : (exceptions (markOf w.yn) (differences 0 items)).map (signExt w.ye) =
          exceptions (markOf w.yn) (differences 0 items) := by
        conv_rhs => rw [← List.map_id (exceptions (markOf w.yn) (differences 0 items))]
        exact List.map_congr_left fun d hd =>
          signExt_ye h.widths (by omega) d (List.mem_of_mem_filter hd)
      refine List.IsPrefix.trans ?_ (hmap ▸ (h.exce_prefix hxe).map (signExt w.ye))
      rw [← differences_take]
      exact (List.take_prefix j _).filter _
    have hunpk' := mdsUnpk_signed w.ye hye exce m _ hexce
    have hgap : start + 32 + w.yn * j + w.yn * (items.length - j) =
        start + 32 + w.yn * items.length := by
      rw [Nat.add_assoc (start + 32), ← Nat.mul_add, Nat.add_sub_cancel' hj]
    rw [hstart, fields_length, stored_length, h.exce_length] at hunpk'
    rw [if_neg hxe, if_neg (by rw [if_neg hye0]; omega), if_neg hye0,
      show items.length - 1 + 1 - j = items.length - j by omega, hgap]
    simp only [hunpk', hnormalfit, restore_marked _ _ _ _ hexcefit]
    refine ⟨_, rfl, fun _ => ?_⟩
    rw [h.finish_eq]
    omega

end MdsPlus.CmprsRun
