import PioSim.DmaFrame
import Mathlib.Tactic.IntervalCases

/-!
# A run of a memory channel

A channel between memory endpoints without a ring, once triggered with a count of `n`, moves exactly
`n` elements, one after the other and each from its own place to its own place, raises its interrupt
and chains once at the end, and is idle from then on, whatever else the controller does meanwhile.
-/

namespace PioSim

variable [Platform]

/-! ### The elements of a run -/

section Elements

/-- Where element `i` of a run from `r` is read. -/
def DmaConfig.readAt (ctrl : DmaConfig) (r i : ℕ) : ℕ :=
  r + if ctrl.incrRead then i * elemBytes ctrl.dataSize else 0

/-- Where element `i` of a run to `w` is written. -/
def DmaConfig.writeAt (ctrl : DmaConfig) (w i : ℕ) : ℕ :=
  w + if ctrl.incrWrite then i * elemBytes ctrl.dataSize else 0

def DmaConfig.element (ctrl : DmaConfig) (m : LittleEndian.Memory) (r i : ℕ) : Word :=
  let v := LittleEndian.load 32 m (ctrl.readAt r i) (elemBytes ctrl.dataSize)
  if ctrl.bswap then dmaBswap v (elemBytes ctrl.dataSize) else v

/-- The transfers of the first `k` elements. -/
def DmaConfig.moves (ctrl : DmaConfig) (c : ℕ) (m : LittleEndian.Memory) (r w k : ℕ) :
    List DmaEvent :=
  (List.range k).map fun i =>
    .moved c (.mem (ctrl.readAt r i)) (.mem (ctrl.writeAt w i)) (ctrl.element m r i)

/-- What follows the last transfer: the interrupt unless quiet, then the chain trigger if any. -/
def DmaConfig.completion (ctrl : DmaConfig) (c : ℕ) : List DmaEvent :=
  (if ctrl.irqQuiet then [] else [.raised c]) ++
    if ctrl.chainTo ≠ c ∧ ctrl.chainTo < dmaNumChannels then [.chained c ctrl.chainTo] else []

def DmaConfig.Reads (ctrl : DmaConfig) (r n a : ℕ) : Prop :=
  ∃ i < n, ctrl.readAt r i ≤ a ∧ a < ctrl.readAt r i + elemBytes ctrl.dataSize

def DmaConfig.Writes (ctrl : DmaConfig) (w n a : ℕ) : Prop :=
  ∃ i < n, ctrl.writeAt w i ≤ a ∧ a < ctrl.writeAt w i + elemBytes ctrl.dataSize

section
omit [Platform]

theorem elemBytes_cases (size : DmaSize) :
    elemBytes size = 1 ∨ elemBytes size = 2 ∨ elemBytes size = 4 := by
  cases size <;> simp [elemBytes]

theorem getLsbD_ff (k : ℕ) : (0xFF#32).getLsbD k = decide (k < 8) := by
  rw [show (0xFF#32) = maskN 8 by decide, getLsbD_maskN, ← Bool.decide_and, decide_eq_decide]
  omega

theorem getLsbD_ff00 (k : ℕ) :
    (0xFF00#32).getLsbD k = (decide (8 ≤ k) && decide (k < 16)) := by
  rw [show (0xFF00#32) = maskN 8 <<< 8 by decide, BitVec.getLsbD_shiftLeft, getLsbD_maskN,
    Bool.eq_iff_iff]
  simp
  omega

theorem byte_dmaBswap_two (v : Word) {j : ℕ} (hj : j < 2) :
    LittleEndian.byte (dmaBswap v 2) j = LittleEndian.byte v (1 - j) := by
  apply BitVec.eq_of_getLsbD_eq
  intro t ht
  rw [LittleEndian.getLsbD_byte, LittleEndian.getLsbD_byte, dmaBswap, if_pos rfl]
  simp only [BitVec.getLsbD_or, BitVec.getLsbD_and, BitVec.getLsbD_shiftLeft,
    BitVec.getLsbD_ushiftRight, getLsbD_ff]
  interval_cases j <;> interval_cases t <;> simp

theorem byte_dmaBswap_four (v : Word) {j : ℕ} (hj : j < 4) :
    LittleEndian.byte (dmaBswap v 4) j = LittleEndian.byte v (3 - j) := by
  apply BitVec.eq_of_getLsbD_eq
  intro t ht
  rw [LittleEndian.getLsbD_byte, LittleEndian.getLsbD_byte, dmaBswap,
    if_neg (by decide), if_pos rfl]
  simp only [BitVec.getLsbD_or, BitVec.getLsbD_and, BitVec.getLsbD_shiftLeft,
    BitVec.getLsbD_ushiftRight, getLsbD_ff00]
  interval_cases j <;> interval_cases t <;> simp

/-- `dma_bswap` reverses the bytes of an element. -/
theorem byte_dmaBswap (v : Word) (size : DmaSize) {j : ℕ} (hj : j < elemBytes size) :
    LittleEndian.byte (dmaBswap v (elemBytes size)) j =
      LittleEndian.byte v (elemBytes size - 1 - j) := by
  cases size with
  | size8 =>
    obtain rfl : j = 0 := Nat.lt_one_iff.mp hj
    rfl
  | size16 => exact byte_dmaBswap_two v hj
  | size32 => exact byte_dmaBswap_four v hj

/-- Each byte of a written element comes from the element read, in order or reversed. -/
theorem DmaConfig.byte_element (ctrl : DmaConfig) (m : LittleEndian.Memory) (r i : ℕ) {j : ℕ}
    (hj : j < elemBytes ctrl.dataSize) : LittleEndian.byte (ctrl.element m r i) j =
      m (ctrl.readAt r i + if ctrl.bswap then elemBytes ctrl.dataSize - 1 - j else j) := by
  have hwidth : 8 * elemBytes ctrl.dataSize ≤ 32 := by
    rcases elemBytes_cases ctrl.dataSize with h | h | h <;> omega
  unfold element
  cases ctrl.bswap with
  | false => exact LittleEndian.byte_load hwidth hj
  | true =>
    exact (byte_dmaBswap _ _ hj).trans (LittleEndian.byte_load hwidth (by omega))

theorem DmaConfig.element_congr {ctrl : DmaConfig} {m m' : LittleEndian.Memory} {r i : ℕ}
    (h : ∀ j < elemBytes ctrl.dataSize, m (ctrl.readAt r i + j) = m' (ctrl.readAt r i + j)) :
    ctrl.element m r i = ctrl.element m' r i := by
  rw [element, element, LittleEndian.load_congr h]

theorem DmaConfig.moves_succ (ctrl : DmaConfig) (c : ℕ) (m : LittleEndian.Memory) (r w k : ℕ) :
    ctrl.moves c m r w (k + 1) = ctrl.moves c m r w k ++
      [.moved c (.mem (ctrl.readAt r k)) (.mem (ctrl.writeAt w k)) (ctrl.element m r k)] := by
  rw [moves, List.range_succ, List.map_append]
  rfl

theorem dmaAdvance_mem (p : ℕ) (incr applies : Bool) {ringSize : ℕ} (h : ringSize = 0) (bytes : ℕ) :
    dmaAdvance (.mem p) incr ringSize applies bytes = .mem (p + if incr then bytes else 0) := by
  subst h
  cases incr <;> cases applies <;> rfl

end

end Elements

namespace Chip

variable {γ : Type} {C M : ℕ → Prop} {g : World → γ} {s s' s₀ : Chip} {c r w n k : ℕ}
    {cb : Callback}

/-! ### Completion -/

theorem raiseIrq_self (hcb : cb.Minds C M g) (hc : C c) (hlt : c < dmaNumChannels) (s : Chip) :
    Kept C M g s (s.raiseIrq cb c) ∧
      (s.raiseIrq cb c).dma.history c = s.dma.history c ++ [.raised c] := by
  have hlog := Dma.history_record_self s.dma (.raised c)
  have hflag : Kept C M g s (s.modifyDma fun d =>
      { d.record (.raised c) with intr := d.intr ||| (1#32 <<< c) }) :=
    ⟨fun _ _ => rfl, fun _ _ => rfl, rfl, rfl⟩
  unfold raiseIrq
  rw [chIdx_of_lt hlt]
  simp only
  split
  · exact ⟨hflag, hlog⟩
  · have hhook := (hcb ‹_› c (s.modifyDma fun d =>
      { d.record (.raised c) with intr := d.intr ||| (1#32 <<< c) })).1
    exact ⟨hflag.trans hhook.toKept, (hhook.history c hc).trans hlog⟩

/-- The completion of a channel of `C` that chains to no other of `C`. -/
theorem complete_self (hcb : cb.Minds C M g) (hc : C c) (hlt : c < dmaNumChannels)
    (hchain : ∀ c', C c' → (s.dma.ch c).ctrl.chainTo = c' → c' = c) :
    Kept C M g s (s.complete cb c) ∧ (s.complete cb c).dma.history c =
      s.dma.history c ++ (s.dma.ch c).ctrl.completion c := by
  have hraise : Kept C M g s (if (s.dma.ch c).ctrl.irqQuiet then s else s.raiseIrq cb c) ∧
      (if (s.dma.ch c).ctrl.irqQuiet then s else s.raiseIrq cb c).dma.history c =
        s.dma.history c ++ if (s.dma.ch c).ctrl.irqQuiet then [] else [.raised c] := by
    split
    · exact ⟨.refl s, (List.append_nil _).symm⟩
    · exact raiseIrq_self hcb hc hlt s
  unfold complete DmaConfig.completion
  simp only
  generalize (if (s.dma.ch c).ctrl.irqQuiet = true then s else s.raiseIrq cb c) = t at hraise ⊢
  obtain ⟨ht, hlog⟩ := hraise
  have hctrl := congrArg DmaConfig.chainTo (ht.ctrl hc)
  have htarget : (t.dma.ch c).ctrl.chainTo = (s.dma.ch c).ctrl.chainTo := hctrl
  rw [htarget]
  split
  · rename_i hgo
    have hstart : Untouched C M g
        (t.modifyDma (·.record (.chained c (s.dma.ch c).ctrl.chainTo)))
        ((t.modifyDma (·.record (.chained c (s.dma.ch c).ctrl.chainTo))).startChannelMask cb
          (1#32 <<< (s.dma.ch c).ctrl.chainTo)) := by
      refine untouched_startChannelMask hcb fun c' hc' => getLsbD_bit_of_ne fun he => hgo.1 ?_
      exact he.trans (hchain c' hc' he)
    have hrecord := Dma.history_record_self t.dma (.chained c (s.dma.ch c).ctrl.chainTo)
    have hkept : Kept C M g t (t.modifyDma (·.record (.chained c (s.dma.ch c).ctrl.chainTo))) :=
      ⟨fun _ _ => rfl, fun _ _ => rfl, rfl, rfl⟩
    refine ⟨(ht.trans hkept).trans hstart.toKept, ?_⟩
    rw [hstart.history c hc, ← List.append_assoc, ← hlog]
    exact hrecord
  · exact ⟨ht, by rw [hlog, List.append_nil]⟩

/-! ### The run -/

/-- Channel `c` has just been triggered with a count of `n`: memory endpoints at `r` and `w`, no
ring. -/
structure Armed (c r w n : ℕ) (s : Chip) : Prop where
  busy : (s.dma.ch c).busy = true
  read : (s.dma.ch c).readAddr = .mem r
  write : (s.dma.ch c).writeAddr = .mem w
  ring : (s.dma.ch c).ctrl.ringSize = 0
  count : (s.dma.ch c).transCount.toNat = n
  pos : 0 < n

/-- Since `s₀` channel `c`, configured as `ctrl`, has moved `k` of `n` elements. -/
structure Copied (ctrl : DmaConfig) (c r w n : ℕ) (s₀ : Chip) (k : ℕ) (s : Chip) : Prop where
  le : k ≤ n
  config : (s.dma.ch c).ctrl.unsniffed = ctrl.unsniffed
  read : (s.dma.ch c).readAddr = .mem (ctrl.readAt r k)
  write : (s.dma.ch c).writeAddr = .mem (ctrl.writeAt w k)
  count : (s.dma.ch c).transCount.toNat = n - k
  busy : (s.dma.ch c).busy = decide (k < n)
  history : s.dma.history c = s₀.dma.history c ++ ctrl.moves c s₀.mem r w k ++
    if k = n then ctrl.completion c else []
  source : ∀ a, ctrl.Reads r n a → s.mem a = s₀.mem a
  dest : ∀ i < k, ∀ j < elemBytes ctrl.dataSize, ctrl.incrWrite = true ∨ i + 1 = k →
    s.mem (ctrl.writeAt w i + j) = LittleEndian.byte (ctrl.element s₀.mem r i) j

/-- Triggering a channel with a count to reload arms it. -/
theorem armed_trigger (hr : (s.dma.ch c).readAddr = .mem r) (hw : (s.dma.ch c).writeAddr = .mem w)
    (hring : (s.dma.ch c).ctrl.ringSize = 0) (hn : (s.dma.ch c).transCountReload.toNat = n)
    (hpos : 0 < n) : (s.trigger cb c).Armed c r w n := by
  have hreload : (s.dma.ch c).transCountReload ≠ 0 := fun he => by
    rw [he] at hn
    exact absurd hn (Nat.ne_of_lt hpos)
  have hch : (s.trigger cb c).dma.ch c =
      { s.dma.ch c with transCount := (s.dma.ch c).transCountReload, busy := true } := by
    have hrecord :
      ((s.modifyDma (·.record (.triggered c))).dma.ch c).transCountReload ≠ 0 := hreload
    unfold trigger
    simp only
    rw [if_neg hrecord]
    simp only [modifyDma, Dma.ch_modifyCh_self]
    rfl
  exact ⟨by rw [hch], by rw [hch]; exact hr, by rw [hch]; exact hw, by rw [hch]; exact hring,
    by rw [hch]; exact hn, hpos⟩

omit [Platform] in
theorem getLsbD_bit (c x : ℕ) : (1#32 <<< c).getLsbD x = (decide (x < 32) && decide (x = c)) := by
  by_cases h : c = x
  · subst h
    by_cases hx : c < 32 <;> simp [hx]
  · rw [getLsbD_bit_of_ne h, decide_eq_false (fun he : x = c => h he.symm), Bool.and_false]

/-- A mask of one channel triggers that channel. -/
theorem startChannelMask_bit (cb : Callback) (hlt : c < dmaNumChannels) (s : Chip) :
    s.startChannelMask cb (1#32 <<< c) = s.trigger cb c := by
  have hfold : ∀ l : List ℕ, l.Nodup → (∀ x ∈ l, x < 32) → ∀ t : Chip, l.foldl
      (fun t x => if (1#32 <<< c).getLsbD x then t.trigger cb x else t) t =
        if c ∈ l then t.trigger cb c else t := by
    intro l
    induction l with
    | nil => exact fun _ _ _ => rfl
    | cons x l ih =>
      intro hnodup hbound t
      obtain ⟨hx, hl⟩ := List.nodup_cons.mp hnodup
      rw [List.foldl_cons, ih hl fun y hy => hbound y (List.mem_cons_of_mem x hy), getLsbD_bit,
        decide_eq_true (hbound x List.mem_cons_self), Bool.true_and]
      by_cases hxc : x = c
      · subst hxc
        simp [hx]
      · simp [hxc, Ne.symm hxc]
  have hle := dmaNumChannels_le
  rw [startChannelMask, hfold _ List.nodup_range (fun x hx => by
    have := List.mem_range.mp hx
    omega), if_pos (List.mem_range.mpr hlt)]

theorem Armed.copied (h : s.Armed c r w n) : Copied (s.dma.ch c).ctrl c r w n s 0 s where
  le := Nat.zero_le n
  config := rfl
  read := by rw [h.read, DmaConfig.readAt, Nat.zero_mul, ite_self, Nat.add_zero]
  write := by rw [h.write, DmaConfig.writeAt, Nat.zero_mul, ite_self, Nat.add_zero]
  count := h.count
  busy := by rw [h.busy, decide_eq_true h.pos]
  history := by
    rw [if_neg (Nat.ne_of_lt h.pos)]
    simp [DmaConfig.moves]
  source _ _ := rfl
  dest i hi := absurd hi (Nat.not_lt_zero i)

/-- The channel and the cells its run is about. -/
abbrev Own (ctrl : DmaConfig) (r w n a : ℕ) : Prop := ctrl.Reads r n a ∨ ctrl.Writes w n a

variable {ctrl : DmaConfig}

omit [Platform] in
theorem writeAt_own {i j : ℕ} (hi : i < n) (hj : j < elemBytes ctrl.dataSize) :
    ctrl.Writes w n (ctrl.writeAt w i + j) := ⟨i, hi, by omega, by omega⟩

omit [Platform] in
theorem readAt_own {i j : ℕ} (hi : i < n) (hj : j < elemBytes ctrl.dataSize) :
    ctrl.Reads r n (ctrl.readAt r i + j) := ⟨i, hi, by omega, by omega⟩

/-- What leaves the channel and its cells alone leaves its progress alone. -/
theorem Copied.untouched (h : Copied ctrl c r w n s₀ k s)
    (hu : Untouched (· = c) (Own ctrl r w n) g s s') : Copied ctrl c r w n s₀ k s' := by
  have hcourse := hu.course c rfl
  simp only [DmaChannel.course, Prod.mk.injEq] at hcourse
  obtain ⟨hctrl, hread, hwrite, hcount, hbusy⟩ := hcourse
  refine ⟨h.le, hctrl.trans h.config, hread.trans h.read, hwrite.trans h.write, hcount ▸ h.count,
    hbusy.trans h.busy, (hu.history c rfl).trans h.history, fun a ha => ?_, fun i hi j hj hor => ?_⟩
  · exact (hu.mem a (.inl ha)).trans (h.source a ha)
  · exact (hu.mem _ (.inr (writeAt_own (Nat.lt_of_lt_of_le hi h.le) hj))).trans
      (h.dest i hi j hj hor)

section
omit [Platform]

theorem readAt_succ (ctrl : DmaConfig) (r k : ℕ) : ctrl.readAt r (k + 1) =
    ctrl.readAt r k + if ctrl.incrRead then elemBytes ctrl.dataSize else 0 := by
  unfold DmaConfig.readAt
  split
  · rw [Nat.succ_mul, Nat.add_assoc]
  · rfl

theorem writeAt_succ (ctrl : DmaConfig) (w k : ℕ) : ctrl.writeAt w (k + 1) =
    ctrl.writeAt w k + if ctrl.incrWrite then elemBytes ctrl.dataSize else 0 := by
  unfold DmaConfig.writeAt
  split
  · rw [Nat.succ_mul, Nat.add_assoc]
  · rfl

/-- Elements written with increment do not overlap. -/
theorem writeAt_disjoint {i k : ℕ} (hincr : ctrl.incrWrite = true) (hik : i < k) :
    ctrl.writeAt w i + elemBytes ctrl.dataSize ≤ ctrl.writeAt w k := by
  have hmul : (i + 1) * elemBytes ctrl.dataSize ≤ k * elemBytes ctrl.dataSize :=
    Nat.mul_le_mul_right _ hik
  simp only [DmaConfig.writeAt, hincr, if_true]
  rw [Nat.succ_mul] at hmul
  omega

theorem unsniffed_eq {x y : DmaConfig} (h : x.unsniffed = y.unsniffed) :
    x = { y with sniffEn := x.sniffEn } := by
  cases x
  cases y
  simp only [DmaConfig.unsniffed, DmaConfig.mk.injEq] at h ⊢
  simpa using h

end

/-- One transfer of a memory channel, before its completion. -/
theorem moved_of_mem {p q : ℕ} (hr : (s.dma.ch c).readAddr = .mem p)
    (hw : (s.dma.ch c).writeAddr = .mem q) :
    (s.moved c).mem = LittleEndian.store s.mem q (elemBytes (s.dma.ch c).ctrl.dataSize)
        (s.moveValue c) ∧
      (s.moved c).dma.history c =
        s.dma.history c ++ [.moved c (.mem p) (.mem q) (s.moveValue c)] := by
  obtain ⟨n, hn⟩ := sniffed_cases s c (s.dma.ch c).ctrl.sniffEn (s.moveValue c)
    (elemBytes (s.dma.ch c).ctrl.dataSize)
  have hmove : s.moveElem c = ((s.sniffed c (s.dma.ch c).ctrl.sniffEn (s.moveValue c)
      (elemBytes (s.dma.ch c).ctrl.dataSize)).writeElem (.mem q)
        (elemBytes (s.dma.ch c).ctrl.dataSize) (s.moveValue c)).modifyDma
          (·.record (.moved c (.mem p) (.mem q) (s.moveValue c))) := by
    rw [moveElem_eq, hr, hw]
    rfl
  have hcredit : ∀ t : Chip, ∀ treq, (t.consumeCredit treq).mem = t.mem ∧
      (t.consumeCredit treq).dma.log = t.dma.log := by
    intro t treq
    unfold consumeCredit
    split <;> exact ⟨rfl, rfl⟩
  have hlog := Dma.history_record_self { s.dma with sniff := n }
    (.moved c (.mem p) (.mem q) (s.moveValue c))
  obtain ⟨hmem, hdma⟩ := hcredit (s.moveElem c) (s.dma.ch c).ctrl.treqSel
  rw [hmove, hn] at hmem hdma
  refine ⟨?_, ?_⟩
  · rw [moved, hmove, hn]
    exact hmem
  · rw [moved, hmove, hn]
    exact (congrArg (List.filter _) hdma).trans hlog

theorem moveValue_eq {p : ℕ} {m : LittleEndian.Memory}
    (hctrl : (s.dma.ch c).ctrl.unsniffed = ctrl.unsniffed)
    (hr : (s.dma.ch c).readAddr = .mem (ctrl.readAt p k))
    (hm : ∀ j < elemBytes ctrl.dataSize, s.mem (ctrl.readAt p k + j) = m (ctrl.readAt p k + j)) :
    s.moveValue c = ctrl.element m p k := by
  have hvalue : s.moveValue c = ctrl.element s.mem p k := by
    simp only [moveValue, hr, readElem]
    rw [unsniffed_eq hctrl]
    rfl
  rw [hvalue, DmaConfig.element_congr hm]

omit [Platform] in
theorem toNat_pred {x : BitVec 32} (h : 0 < x.toNat) : (x - 1).toNat = x.toNat - 1 := by bv_omega

/-- The course of the channel after one more transfer. -/
theorem Copied.course_moved (h : Copied ctrl c r w n s₀ k s) (hring : ctrl.ringSize = 0)
    (hk : k < n) :
    ((s.moved c).dma.ch c).ctrl.unsniffed = ctrl.unsniffed ∧
      ((s.moved c).dma.ch c).readAddr = .mem (ctrl.readAt r (k + 1)) ∧
      ((s.moved c).dma.ch c).writeAddr = .mem (ctrl.writeAt w (k + 1)) ∧
      ((s.moved c).dma.ch c).transCount.toNat = n - (k + 1) ∧
      ((s.moved c).dma.ch c).busy = decide (k + 1 < n) := by
  have hctrl := unsniffed_eq h.config
  have hcount := h.count
  have hpred : ((s.dma.ch c).transCount - 1).toNat = n - (k + 1) := by
    rw [toNat_pred (by omega), hcount]
    omega
  rw [ch_moved_self]
  refine ⟨h.config, ?_, ?_, hpred, ?_⟩
  · simp only [DmaChannel.advance, h.read, readAt_succ]
    rw [hctrl]
    exact dmaAdvance_mem _ _ _ hring _
  · simp only [DmaChannel.advance, h.write, writeAt_succ]
    rw [hctrl]
    exact dmaAdvance_mem _ _ _ hring _
  · have hbusy : (s.dma.ch c).advance.busy =
        if (s.dma.ch c).transCount - 1 = 0 then false else (s.dma.ch c).busy := rfl
    rw [hbusy, h.busy]
    by_cases hlast : k + 1 = n
    · have hzero : (s.dma.ch c).transCount - 1 = 0 := BitVec.eq_of_toNat_eq (by
        rw [hpred, hlast]
        simp)
      rw [if_pos hzero, decide_eq_false (by omega)]
    · have hnot : (s.dma.ch c).transCount - 1 ≠ 0 := fun he => by
        have hzero : (0 : BitVec 32).toNat = 0 := rfl
        rw [he, hzero] at hpred
        omega
      rw [if_neg hnot, decide_eq_true hk, decide_eq_true (by omega)]

/-- The elements written, after one more. -/
theorem Copied.dest_moved (h : Copied ctrl c r w n s₀ k s) (hk : k < n) {m : LittleEndian.Memory}
    (hm : m = LittleEndian.store s.mem (ctrl.writeAt w k) (elemBytes ctrl.dataSize)
      (ctrl.element s₀.mem r k)) {i j : ℕ} (hi : i < k + 1) (hj : j < elemBytes ctrl.dataSize)
    (hor : ctrl.incrWrite = true ∨ i + 1 = k + 1) :
    m (ctrl.writeAt w i + j) = LittleEndian.byte (ctrl.element s₀.mem r i) j := by
  by_cases hik : i = k
  · subst hik
    rw [hm, LittleEndian.store_of_mem _ hj]
  · have hincr : ctrl.incrWrite = true := by
      rcases hor with h | h
      · exact h
      · omega
    have hlt : i < k := by omega
    have hbelow := writeAt_disjoint (w := w) hincr hlt
    rw [hm, LittleEndian.store_of_notMem _ (by omega)]
    exact h.dest i hlt j hj (.inl hincr)

/-- One transfer of the channel itself. -/
theorem Copied.transfer (hcb : cb.Minds (· = c) (Own ctrl r w n) g) (hlt : c < dmaNumChannels)
    (hring : ctrl.ringSize = 0) (hdisj : ∀ a, ctrl.Reads r n a → ¬ ctrl.Writes w n a)
    (h : Copied ctrl c r w n s₀ k s) (hk : k < n) :
    Copied ctrl c r w n s₀ (k + 1) (s.transferOne cb c) := by
  have hsize : (s.dma.ch c).ctrl.dataSize = ctrl.dataSize := by rw [unsniffed_eq h.config]
  have hvalue := moveValue_eq h.config h.read fun j hj => h.source _ (readAt_own hk hj)
  obtain ⟨hmem, hlog⟩ := moved_of_mem h.read h.write
  rw [hvalue, hsize] at hmem
  rw [hvalue] at hlog
  obtain ⟨hctrl', hread', hwrite', hcount', hbusy'⟩ := h.course_moved hring hk
  -- the transfer itself, and then whatever the completion keeps
  have hafter : ∀ t, Kept (· = c) (Own ctrl r w n) g (s.moved c) t →
      t.dma.history c = (s.moved c).dma.history c ++
        (if k + 1 = n then ctrl.completion c else []) →
      Copied ctrl c r w n s₀ (k + 1) t := by
    intro t ht hhist
    have hcourse := ht.course c rfl
    simp only [DmaChannel.course, Prod.mk.injEq] at hcourse
    refine ⟨hk, hcourse.1.trans hctrl', hcourse.2.1.trans hread', hcourse.2.2.1.trans hwrite',
      hcourse.2.2.2.1 ▸ hcount', hcourse.2.2.2.2.trans hbusy', ?_, fun a ha => ?_,
      fun i hi j hj hor => ?_⟩
    · rw [hhist, hlog, h.history, if_neg (Nat.ne_of_lt hk), List.append_nil, DmaConfig.moves_succ]
      simp only [List.append_assoc]
    · have hmiss := hdisj a ha
      rw [ht.mem a (.inl ha), hmem, LittleEndian.store_of_notMem _ ?_]
      · exact h.source a ha
      · by_contra hin
        exact hmiss ⟨k, hk, by omega, by omega⟩
    · rw [ht.mem _ (.inr (writeAt_own (Nat.lt_of_lt_of_le hi hk) hj))]
      exact h.dest_moved hk hmem hi hj hor
  rw [transferOne_eq]
  split
  · rename_i hzero
    have hlast : k + 1 = n := by
      have htoNat : (0 : BitVec 32).toNat = 0 := rfl
      rw [hzero, htoNat] at hcount'
      omega
    have hdone := complete_self (s := s.moved c) hcb rfl hlt fun c' hc' _ => hc'
    refine hafter _ hdone.1 ?_
    rw [hdone.2, if_pos hlast, unsniffed_eq hctrl']
    rfl
  · rename_i hpos
    have hmore : k + 1 ≠ n := fun he => hpos (BitVec.eq_of_toNat_eq (by
      rw [hcount', he]
      simp))
    exact hafter _ (.refl _) (by rw [if_neg hmore, List.append_nil])

/-- One call: the channel makes progress by a transfer of its own and is left alone otherwise. -/
theorem Copied.step (hcb : cb.Minds (· = c) (Own ctrl r w n) g) (hlt : c < dmaNumChannels)
    (hring : ctrl.ringSize = 0) (hdisj : ∀ a, ctrl.Reads r n a → ¬ ctrl.Writes w n a)
    {e : ChipCall} (h : ∃ k, Copied ctrl c r w n s₀ k s)
    (he : s.LeavesAlone (· = c) (Own ctrl r w n) g e) :
    ∃ k, Copied ctrl c r w n s₀ k (s.step cb e) := by
  obtain ⟨k, h⟩ := h
  by_cases hserved : c ∈ s.transfers e
  · cases e with
    | dmaTick =>
      rw [mem_transfers_dmaTick] at hserved
      have hclocked : Copied ctrl c r w n s₀ k s.clocked :=
        h.untouched (g := g) untouched_clocked
      have hready := (ready_of_served hserved).2
      simp only [channelReady, Bool.and_eq_true] at hready
      have hk : k < n := of_decide_eq_true (hclocked.busy.symm.trans hready.1.1.2)
      refine ⟨k + 1, ?_⟩
      rw [step_dmaTick_of_served hserved]
      exact (hclocked.transfer hcb hlt hring hdisj hk).untouched (g := g)
        (untouched_modifyDma rfl rfl rfl)
    | _ => cases hserved
  · refine ⟨k, h.untouched (untouched_step hcb he fun x hx hxc => ?_)⟩
    rw [hxc] at hx
    exact hserved hx

/-- A run of a memory channel. From the trigger on, whatever happens around it, it has moved some `k
≤ n` elements: element `i` went from its place in the source, byte-swapped if so configured, to its
place in the destination. It is busy exactly until `k = n`, its count is what is left, and its
events are these transfers, followed at the end by one interrupt unless quiet and one chain trigger
if it chains. -/
theorem channel_copies_exactly (hcb : cb.Minds (· = c) (Own (s.dma.ch c).ctrl r w n) fun _ => ())
    (hlt : c < dmaNumChannels) (harmed : s.Armed c r w n)
    (hdisj : ∀ a, (s.dma.ch c).ctrl.Reads r n a → ¬ (s.dma.ch c).ctrl.Writes w n a)
    {es : List ChipCall} (hrun : Run.Along (Chip.step cb)
      (LeavesAlone (· = c) (Own (s.dma.ch c).ctrl r w n) fun _ => ()) s es) :
    ∃ k ≤ n, ((s.run cb es).dma.ch c).busy = decide (k < n) ∧
      ((s.run cb es).dma.ch c).transCount.toNat = n - k ∧
      (s.run cb es).dma.history c = s.dma.history c ++ (s.dma.ch c).ctrl.moves c s.mem r w k ++
        (if k = n then (s.dma.ch c).ctrl.completion c else []) ∧
      ∀ i < k, ∀ j < elemBytes (s.dma.ch c).ctrl.dataSize,
        (s.dma.ch c).ctrl.incrWrite = true ∨ i + 1 = k →
        (s.run cb es).mem ((s.dma.ch c).ctrl.writeAt w i + j) =
          s.mem ((s.dma.ch c).ctrl.readAt r i +
            if (s.dma.ch c).ctrl.bswap then elemBytes (s.dma.ch c).ctrl.dataSize - 1 - j
              else j) := by
  obtain ⟨k, hk⟩ := Run.invariant
    (I := fun t => ∃ k, Copied (s.dma.ch c).ctrl c r w n s k t)
    (fun _ _ h he => Copied.step hcb hlt harmed.ring hdisj h he) ⟨0, harmed.copied⟩ hrun
  refine ⟨k, hk.le, hk.busy, hk.count, hk.history, fun i hi j hj hor => ?_⟩
  exact (hk.dest i hi j hj hor).trans (DmaConfig.byte_element _ _ _ _ hj)

/-- Channel 0 has been triggered to copy two byte-swapped halfwords. -/
def halfwords : Chip :=
  step Callback.idle ⟨World.initial, Dma.init [], fun a => BitVec.ofNat 8 a⟩
    (.channelConfigure 0
      { DmaConfig.default 0 with incrWrite := true, dataSize := .size16, bswap := true }
      (.mem 16) (.mem 4) 2 true)

end Chip
end PioSim

namespace PioSim.Chip

local instance : Platform := ⟨.rp2350⟩

/-- Two halfwords, with the channel disabled in between. -/
theorem channel_copies_halfwords :
    ∃ k ≤ 2, ((halfwords.run Callback.idle [.dmaTick, .op (.channelSetEnabled 0 false), .dmaTick,
        .op (.channelSetEnabled 0 true), .dmaTick]).dma.ch 0).busy = decide (k < 2) ∧
      ∀ i < k, ∀ j < 2, (halfwords.run Callback.idle [.dmaTick, .op (.channelSetEnabled 0 false),
        .dmaTick, .op (.channelSetEnabled 0 true), .dmaTick]).mem (16 + i * 2 + j) =
          BitVec.ofNat 8 (4 + i * 2 + (2 - 1 - j)) := by
  have harmed : halfwords.Armed 0 4 16 2 :=
    ⟨by decide +kernel, by decide +kernel, by decide +kernel, by decide +kernel, by decide +kernel,
      by decide⟩
  have hctrl : (halfwords.dma.ch 0).ctrl =
      { DmaConfig.default 0 with incrWrite := true, dataSize := .size16, bswap := true } := by
    decide +kernel
  have hdisj : ∀ a, (halfwords.dma.ch 0).ctrl.Reads 4 2 a →
      ¬ (halfwords.dma.ch 0).ctrl.Writes 16 2 a := by
    rw [hctrl]
    rintro a ⟨i, hi, hlo, hhi⟩ ⟨j, hj, hlo', hhi'⟩
    simp only [DmaConfig.readAt, DmaConfig.writeAt, DmaConfig.default, elemBytes, if_true] at *
    omega
  have hrun : Run.Along (Chip.step Callback.idle) (LeavesAlone (· = 0)
      (Own (halfwords.dma.ch 0).ctrl 4 16 2) fun _ => ()) halfwords
      [.dmaTick, .op (.channelSetEnabled 0 false), .dmaTick, .op (.channelSetEnabled 0 true),
        .dmaTick] := by
    refine ⟨fun x hx hne => absurd ?_ hne, trivial, fun x hx hne => absurd ?_ hne, trivial,
      fun x hx hne => absurd ?_ hne, trivial⟩
    · exact Option.some.inj (hx.symm.trans (by decide +kernel))
    · exact absurd (hx.symm.trans (by decide +kernel)) (Option.some_ne_none x)
    · exact Option.some.inj (hx.symm.trans (by decide +kernel))
  have hmem : ∀ a, halfwords.mem a = BitVec.ofNat 8 a := by
    have hsame : Untouched (fun _ => False) (fun _ => True) (fun _ => ())
        ⟨World.initial, Dma.init [], fun a => BitVec.ofNat 8 a⟩ halfwords := by
      unfold halfwords
      exact untouched_step (Callback.idle_minds _ _ _) (fun h => h) fun _ _ h => h
    exact fun a => hsame.mem a trivial
  refine (channel_copies_exactly (Callback.idle_minds _ _ _) (by decide) harmed hdisj hrun).imp
    fun k hk => ⟨hk.1, hk.2.1, fun i hi j hj => ?_⟩
  have hbyte := hk.2.2.2.2 i hi j
  rw [hctrl] at hbyte
  exact (hbyte hj (.inl rfl)).trans (hmem _)

end PioSim.Chip
