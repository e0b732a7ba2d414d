import PioSim.DmaRuns

/-!
# What every run of the controller keeps

The controller stays well formed, and its history stays balanced: a channel raises its interrupt at
most once for each trigger, and moves no more elements than its triggers ask for.
-/

namespace PioSim

variable [Platform]

def Implemented (m : BitVec 32) : Prop := ∀ k, m.getLsbD k = true → k < dmaNumChannels

theorem implemented_zero : Implemented 0 := fun k h => by simp at h

theorem implemented_bit {c : ℕ} (hc : c < dmaNumChannels) : Implemented (1#32 <<< c) := by
  intro k hk
  by_cases he : c = k
  · exact he ▸ hc
  · rw [getLsbD_bit_of_ne he] at hk
    cases hk

theorem Implemented.or {m n : BitVec 32} (hm : Implemented m) (hn : Implemented n) :
    Implemented (m ||| n) := by
  intro k hk
  rw [BitVec.getLsbD_or, Bool.or_eq_true] at hk
  exact hk.elim (hm k) (hn k)

theorem Implemented.and {m : BitVec 32} (hm : Implemented m) (n : BitVec 32) :
    Implemented (m &&& n) := by
  intro k hk
  rw [BitVec.getLsbD_and, Bool.and_eq_true] at hk
  exact hm k hk.1

theorem implemented_valid (m : BitVec 32) : Implemented (m &&& Dma.chValidMask) := by
  have hmask : ∀ k : Fin 32, Dma.chValidMask.getLsbD k = true → k < dmaNumChannels := by
    unfold Dma.chValidMask dmaNumChannels
    cases isRp2350 <;> decide
  intro k hk
  rw [BitVec.getLsbD_and, Bool.and_eq_true] at hk
  have hlt : k < 32 := BitVec.lt_of_getLsbD hk.2
  exact hmask ⟨k, hlt⟩ hk.2

/-- A controller as its functions leave it. -/
structure Dma.WellFormed (d : Dma) : Prop where
  count : ∀ c, (d.ch c).busy = true → (d.ch c).transCount ≠ 0
  intr : Implemented d.intr
  inte : ∀ line, Implemented (d.inte line)
  intf : ∀ line, Implemented (d.intf line)
  seat : d.rrNext < dmaNumChannels
  sniffer : d.sniff.chan < dmaNumChannels
  blocks : d.pio.length ≤ numPio
  events : ∀ e ∈ d.log, e.channel < dmaNumChannels

namespace Dma

variable {d : Dma} {c : ℕ}

theorem wellFormed_init (pios : List (Option BlockAddr)) : (init pios).WellFormed where
  count _ h := absurd h Bool.false_ne_true
  intr := implemented_zero
  inte _ := implemented_zero
  intf _ := implemented_zero
  seat := Nat.lt_of_le_of_lt (Nat.zero_le _) (chIdx_lt 0)
  sniffer := Nat.lt_of_le_of_lt (Nat.zero_le _) (chIdx_lt 0)
  blocks := List.length_take_le _ _
  events _ h := nomatch h

theorem WellFormed.record (h : d.WellFormed) {e : DmaEvent} (he : e.channel < dmaNumChannels) :
    (d.record e).WellFormed :=
  { h with events := fun e' he' => (List.mem_append.mp he').elim (h.events e') fun hnew =>
      List.mem_singleton.mp hnew ▸ he }

theorem WellFormed.modifyCh (h : d.WellFormed) {f : DmaChannel → DmaChannel}
    (hf : (f (d.ch c)).busy = true → (f (d.ch c)).transCount ≠ 0) :
    (d.modifyCh c f).WellFormed := by
  refine { h with count := fun x hx => ?_ }
  by_cases he : x = c
  · subst he
    rw [ch_modifyCh_self] at hx ⊢
    exact hf hx
  · rw [ch_modifyCh_of_ne _ he] at hx ⊢
    exact h.count x hx

theorem WellFormed.update_lines {lines : ℕ → BitVec 32}
    (h : ∀ line, Implemented (lines line)) {l : ℕ}
    {m : BitVec 32} (hm : Implemented m) (line : ℕ) :
    Implemented (Function.update lines l m line) := by
  by_cases he : line = l
  · rw [he, Function.update_self]
    exact hm
  · rw [Function.update_of_ne he]
    exact h line

theorem WellFormed.op (h : d.WellFormed) (o : DmaOp) : (o.apply d).WellFormed := by
  cases o with
  | channelSetEnabled ch en =>
      exact h.modifyCh (f := fun chan => { chan with en := en }) (h.count _)
  | channelAbortMask mask =>
    refine List.foldlRecOn (motive := Dma.WellFormed) _ _ h fun d hd c _ => ?_
    split
    · exact hd.modifyCh fun hbusy => absurd hbusy Bool.false_ne_true
    · exact hd
  | channelSetCallback ch fn =>
      exact h.modifyCh (f := fun chan => { chan with onComplete := fn }) (h.count _)
  | timerSetFraction timer num den => exact { h with }
  | snifferEnable ch mode force =>
    have hsniff :
        { d with sniff := { d.sniff with en := true, chan := chIdx ch, sniffCalc := u8 mode }
        }.WellFormed :=
      { h with sniffer := chIdx_lt ch }
    cases force with
    | false => exact hsniff
    | true =>
      exact hsniff.modifyCh
        (f := fun chan => { chan with ctrl := { chan.ctrl with sniffEn := true } }) (hsniff.count _)
  | snifferDisable => exact { h with }
  | snifferSetOutputInvertEnabled invert => exact { h with }
  | snifferSetOutputReverseEnabled reverse => exact { h with }
  | snifferSetDataAccumulator seed => exact { h with }
  | irqnSetChannelMaskEnabled line mask enabled =>
    refine { h with inte := WellFormed.update_lines h.inte ?_ }
    split
    · exact (h.inte _).or (implemented_valid mask)
    · exact (h.inte _).and _
  | irqnAcknowledgeChannel ch => exact { h with intr := h.intr.and _ }
  | irqnForceChannel line ch on =>
    refine { h with intf := WellFormed.update_lines h.intf ?_ }
    split
    · exact (h.intf _).or (implemented_bit (chIdx_lt ch))
    · exact (h.intf _).and _

end Dma

namespace Chip

variable {s : Chip} {c : ℕ}

omit [Platform] in
/-- A channel that stays busy still has something to move. -/
theorem advance_count {chan : DmaChannel} (h : chan.advance.busy = true) :
    chan.advance.transCount ≠ 0 := by
  unfold DmaChannel.advance at h ⊢
  dsimp only at h ⊢
  split at h
  · cases h
  · assumption

theorem wellFormed_moved (h : s.dma.WellFormed) (hc : c < dmaNumChannels) :
    (s.moved c).dma.WellFormed := by
  obtain ⟨tm, htm⟩ := moved_eq s c
  have hstep := (h.modifyCh (c := c) (f := DmaChannel.advance) advance_count).record
    (e := .moved c (s.dma.ch c).readAddr (s.dma.ch c).writeAddr (s.moveValue c)) hc
  rw [htm]
  refine { hstep with sniffer := ?_ }
  dsimp only
  split
  · exact h.sniffer
  · exact h.sniffer

theorem wellFormed_flagged (h : s.dma.WellFormed) (c : ℕ) : (s.flagged c).dma.WellFormed := by
  have hrecord := h.record (e := .raised (chIdx c)) (chIdx_lt c)
  exact { hrecord with intr := h.intr.or (implemented_bit (chIdx_lt c)) }

/-- Every elementary action keeps the controller well formed. -/
theorem actions_wellFormed : Actions (fun _ => True) fun s t => s.dma.WellFormed →
    t.dma.WellFormed where
  refl _ h := h
  trans hst htu h := htu (hst h)
  pio _ _ _ h := h
  mem _ _ h := h
  op _ o _ h := h.op o
  configured s ch c writeAddr readAddr transCount _ _ h := h.modifyCh
    (f := fun chan => { chan with
      ctrl := c
      writeAddr := writeAddr
      readAddr := readAddr
      transCountReload := transCount
      en := true }) (h.count _)
  clocked s _ h := by
    obtain ⟨tm, htm⟩ := timersTick_eq s.dma
    unfold clocked modifyDma
    rw [htm]
    exact { h with }
  seat _ c _ h := { h with seat := chIdx_lt (c + 1) }
  armed s c hc hcount h := (h.record (e := .triggered c) hc).modifyCh
    (f := fun chan => { chan with transCount := chan.transCountReload, busy := true })
      fun _ => hcount
  null _ c hc h := h.record (e := .triggered c) hc
  nullRaised s c hc h :=
    wellFormed_flagged (s := s.modifyDma (·.record (.triggered c)))
      (h.record (e := .triggered c) hc) c
  moved _ _ _ hc _ h := wellFormed_moved h hc
  finished _ c _ hc _ _ h := wellFormed_flagged (wellFormed_moved h hc) c
  chained _ c target hc h := h.record (e := .chained c target) hc

/-- From `pio_dma_init` on, whatever the host and its hooks call, the controller is well formed,
serves channels it has, and asks for interrupts of channels it has. -/
theorem controller_stays_wellFormed (w : World) (m : LittleEndian.Memory)
    (pios : List (Option BlockAddr))
    (calls : ℕ → ℕ → Chip → List ChipCall) (n : ℕ) (xs : List ChipCall) :
    let s := (⟨w, .init pios, m⟩ : Chip).run (.nested calls n) xs
    s.dma.WellFormed ∧
      (∀ c, s.clocked.served = some c → c < dmaNumChannels ∧ (s.clocked.dma.ch c).transCount ≠ 0) ∧
      ∀ line, Implemented (s.dma.ints line) := by
  intro s
  have hs : s.dma.WellFormed :=
    actions_wellFormed.run (actions_wellFormed.nested (fun _ _ _ _ _ => trivial) n)
      (fun _ _ => trivial)
      ⟨w, .init pios, m⟩ (Dma.wellFormed_init pios)
  refine ⟨hs, fun c hc => ?_, fun line => (hs.intr.and _).or (hs.intf _)⟩
  obtain ⟨hlt, hready⟩ := ready_of_served hc
  have hclocked : s.clocked.dma.WellFormed := actions_wellFormed.clocked s trivial hs
  exact ⟨hlt, hclocked.count c (busy_of_ready hready)⟩

end Chip

/-! ### The books -/

def DmaEvent.movedBy (c : ℕ) : DmaEvent → Bool
  | .moved ch _ _ _ => ch == c
  | _ => false

/-- The events the books of channel `c` count. -/
def DmaEvent.booked (c : ℕ) : DmaEvent → Bool
  | .moved ch _ _ _ => ch == c
  | .raised ch => ch == c
  | .triggered ch => ch == c
  | .chained _ _ => false

def DmaChannel.outstanding (chan : DmaChannel) : ℕ := if chan.busy then chan.transCount.toNat else 0

/-- Every interrupt and every move of channel `c` is paid for by a trigger, a move at `M` to the
trigger. -/
structure Dma.Balanced (c M : ℕ) (d : Dma) : Prop where
  count : (d.ch c).busy = true → (d.ch c).transCount ≠ 0
  reload : (d.ch c).transCountReload.toNat ≤ M
  raised : d.log.count (.raised c) + (d.ch c).busy.toNat ≤ d.log.count (.triggered c)
  moved : d.log.countP (DmaEvent.movedBy c) + (d.ch c).outstanding ≤ M * d.log.count (.triggered c)

/-- A configuration of channel `c` asks for at most `M` elements. -/
def ChipCall.AsksAtMost (c M : ℕ) : ChipCall → Prop
  | .channelConfigure ch _ _ _ transCount _ => chIdx ch = c → transCount.toNat ≤ M
  | _ => True

namespace Dma

variable {d d' : Dma} {c M : ℕ}

theorem balanced_init (pios : List (Option BlockAddr)) : (init pios).Balanced c M where
  count h := absurd h Bool.false_ne_true
  reload := Nat.zero_le _
  raised := Nat.le_refl _
  moved := Nat.zero_le _

section
omit [Platform]

/-- New entries, and a channel that pays for what they take. -/
theorem Balanced.entries (h : d.Balanced c M) (es : List DmaEvent) (hlog : d'.log = d.log ++ es)
    (hcount : (d'.ch c).busy = true → (d'.ch c).transCount ≠ 0)
    (hreload : (d'.ch c).transCountReload.toNat ≤ M)
    (hraised : es.count (.raised c) + (d'.ch c).busy.toNat ≤
      (d.ch c).busy.toNat + es.count (.triggered c))
    (hmoved : es.countP (DmaEvent.movedBy c) + (d'.ch c).outstanding ≤
      (d.ch c).outstanding + M * es.count (.triggered c)) : d'.Balanced c M where
  count := hcount
  reload := hreload
  raised := by
    rw [hlog, List.count_append, List.count_append]
    have hbefore := h.raised
    omega
  moved := by
    rw [hlog, List.countP_append, List.count_append, Nat.mul_add]
    have hbefore := h.moved
    omega

/-- A change that starts nothing and records nothing. -/
theorem Balanced.quieter (h : d.Balanced c M) (hlog : d'.log = d.log)
    (hcount : (d'.ch c).transCount = (d.ch c).transCount)
    (hreload : (d'.ch c).transCountReload.toNat ≤ M)
    (hbusy : (d'.ch c).busy = true → (d.ch c).busy = true) : d'.Balanced c M := by
  refine h.entries [] (by rw [hlog, List.append_nil]) (fun hb => hcount ▸ h.count (hbusy hb))
    hreload ?_ ?_
  · cases hb : (d'.ch c).busy with
    | false => simp
    | true => simp [hbusy hb]
  · unfold DmaChannel.outstanding
    rw [hcount]
    cases hb : (d'.ch c).busy with
    | false => simp
    | true => simp [hbusy hb]

/-- A change of the other channels and of the rest of the controller. -/
theorem Balanced.frame (h : d.Balanced c M) (hlog : d'.log = d.log) (hch : d'.ch c = d.ch c) :
    d'.Balanced c M :=
  h.quieter hlog (by rw [hch]) (hch ▸ h.reload) (fun hb => hch ▸ hb)

theorem Balanced.modifyCh (h : d.Balanced c M) {x : ℕ} {f : DmaChannel → DmaChannel}
    (hcount : (f (d.ch x)).transCount = (d.ch x).transCount)
    (hreload : x = c → (f (d.ch x)).transCountReload.toNat ≤ M)
    (hbusy : (f (d.ch x)).busy = true → (d.ch x).busy = true) : (d.modifyCh x f).Balanced c M := by
  by_cases he : x = c
  · subst he
    refine h.quieter rfl ?_ ?_ ?_
    · rw [ch_modifyCh_self]
      exact hcount
    · rw [ch_modifyCh_self]
      exact hreload rfl
    · rw [ch_modifyCh_self]
      exact hbusy
  · exact h.frame rfl (ch_modifyCh_of_ne _ (Ne.symm he) f)

end

theorem Balanced.op (h : d.Balanced c M) (o : DmaOp) : (o.apply d).Balanced c M := by
  cases o with
  | channelSetEnabled ch en =>
    exact h.modifyCh (f := fun chan => { chan with en := en }) rfl (fun he => he ▸ h.reload) id
  | channelAbortMask mask =>
    refine List.foldlRecOn (motive := Dma.Balanced c M) _ _ h fun d hd x _ => ?_
    split
    · exact hd.modifyCh (f := fun chan => { chan with busy := false }) rfl
        (fun he => he ▸ hd.reload)
        (fun hb => absurd hb Bool.false_ne_true)
    · exact hd
  | channelSetCallback ch fn =>
    exact h.modifyCh (f := fun chan => { chan with onComplete := fn }) rfl
      (fun he => he ▸ h.reload) id
  | snifferEnable ch mode force =>
    have hsniff :
      { d with sniff :=
      { d.sniff with en := true, chan := chIdx ch, sniffCalc := u8 mode } }.Balanced
        c M := h.frame rfl rfl
    cases force with
    | false => exact hsniff
    | true =>
      exact hsniff.modifyCh
        (f := fun chan => { chan with ctrl := { chan.ctrl with sniffEn := true } }) rfl
        (fun he => he ▸ hsniff.reload) id
  | timerSetFraction timer num den => exact h.frame rfl rfl
  | snifferDisable => exact h.frame rfl rfl
  | snifferSetOutputInvertEnabled invert => exact h.frame rfl rfl
  | snifferSetOutputReverseEnabled reverse => exact h.frame rfl rfl
  | snifferSetDataAccumulator seed => exact h.frame rfl rfl
  | irqnSetChannelMaskEnabled line mask enabled => exact h.frame rfl rfl
  | irqnAcknowledgeChannel ch => exact h.frame rfl rfl
  | irqnForceChannel line ch on => exact h.frame rfl rfl

omit [Platform] in
/-- Entries of other channels, and chains. -/
theorem Balanced.other (h : d.Balanced c M) (es : List DmaEvent) (hlog : d'.log = d.log ++ es)
    (hes : ∀ e ∈ es, e.booked c = false) (hch : d'.ch c = d.ch c) : d'.Balanced c M := by
  have hraised : es.count (.raised c) = 0 :=
    List.count_eq_zero_of_not_mem fun hmem => absurd (hes _ hmem) (by simp [DmaEvent.booked])
  have hmoved : es.countP (DmaEvent.movedBy c) = 0 := by
    refine List.countP_eq_zero.mpr fun e he hmove => ?_
    have hfree := hes e he
    cases e with
    | moved => exact absurd (hfree.symm.trans hmove) Bool.false_ne_true
    | raised | triggered | chained => exact absurd hmove Bool.false_ne_true
  refine h.entries _ hlog (hch ▸ h.count) (hch ▸ h.reload) ?_ ?_
  · rw [hraised, hch]
    omega
  · rw [hmoved, hch]
    omega

end Dma

namespace Chip

variable {s : Chip} {c M : ℕ}

theorem log_moved (s : Chip) (x : ℕ) : (s.moved x).dma.log =
    s.dma.log ++ [.moved x (s.dma.ch x).readAddr (s.dma.ch x).writeAddr (s.moveValue x)] := by
  obtain ⟨tm, htm⟩ := moved_eq s x
  rw [htm]

omit [Platform] in
/-- A trigger that starts nothing. -/
theorem balanced_null (h : s.dma.Balanced c M) (x : ℕ) :
    (s.modifyDma (·.record (.triggered x))).dma.Balanced c M := by
  by_cases he : x = c
  · subst he
    refine h.entries [.triggered x] rfl h.count h.reload ?_ ?_
    · simp [modifyDma, Dma.record]
    · simp [modifyDma, Dma.record, DmaEvent.movedBy]
  · exact h.other [.triggered x] rfl (by simp [DmaEvent.booked, he]) rfl

/-- A null trigger of a quiet channel pays for its interrupt. -/
theorem balanced_nullRaised (h : s.dma.Balanced c M) {x : ℕ} (hx : x < dmaNumChannels) :
    ((s.modifyDma (·.record (.triggered x))).flagged x).dma.Balanced c M := by
  have hidx : chIdx x = x := Nat.mod_eq_of_lt hx
  have hlog : ((s.modifyDma (·.record (.triggered x))).flagged x).dma.log =
      s.dma.log ++ [.triggered x, .raised x] := by
    simp [flagged, modifyDma, Dma.record, hidx]
  by_cases he : x = c
  · subst he
    refine h.entries _ hlog h.count h.reload ?_ ?_
    · simp [flagged, modifyDma, Dma.record, Nat.add_comm]
    · simp [flagged, modifyDma, Dma.record, DmaEvent.movedBy]
  · exact h.other _ hlog (by simp [DmaEvent.booked, he]) rfl

omit [Platform] in
/-- A trigger pays for what it starts. -/
theorem balanced_armed (h : s.dma.Balanced c M) {x : ℕ}
    (hzero : (s.dma.ch x).transCountReload ≠ 0) :
    (s.armed x).dma.Balanced c M := by
  by_cases he : x = c
  · subst he
    have hch : (s.armed x).dma.ch x =
        { s.dma.ch x with transCount := (s.dma.ch x).transCountReload, busy := true } :=
          Function.update_self ..
    have hreload := h.reload
    refine h.entries [.triggered x] rfl ?_ ?_ ?_ ?_
    · rw [hch]
      exact fun _ => hzero
    · rw [hch]
      exact hreload
    · rw [hch]
      simp
    · rw [hch]
      simp [DmaChannel.outstanding, DmaEvent.movedBy]
      omega
  · exact h.other [.triggered x] rfl (by simp [DmaEvent.booked, he])
      (Function.update_of_ne (Ne.symm he) ..)

omit [Platform] in
/-- A move takes one from what is outstanding. -/
theorem outstanding_advance {chan : DmaChannel} (hbusy : chan.busy = true)
    (hcount : chan.transCount ≠ 0) :
    1 + chan.advance.outstanding = chan.outstanding := by
  have hpos : 0 < chan.transCount.toNat := by bv_omega
  have hpred : (chan.transCount - 1).toNat = chan.transCount.toNat - 1 := toNat_pred hpos
  have hafter : chan.advance.outstanding = (chan.transCount - 1).toNat := by
    unfold DmaChannel.outstanding DmaChannel.advance
    dsimp only
    generalize chan.transCount - 1 = left
    by_cases hzero : left = 0
    · simp [hzero]
    · rw [if_neg hzero, if_pos hbusy]
  rw [hafter, hpred, DmaChannel.outstanding, if_pos hbusy]
  omega

theorem log_flagged {x : ℕ} (hx : x < dmaNumChannels) (s : Chip) :
    (s.flagged x).dma.log = s.dma.log ++ [.raised x] := by
  have hidx : chIdx x = x := Nat.mod_eq_of_lt hx
  simp [flagged, modifyDma, Dma.record, hidx]

theorem balanced_moved (h : s.dma.Balanced c M) {x : ℕ} (hbusy : (s.dma.ch x).busy = true) :
    (s.moved x).dma.Balanced c M := by
  by_cases he : x = c
  · subst he
    refine h.entries _ (log_moved s x) ?_ ?_ ?_ ?_
    · rw [ch_moved_self]
      exact advance_count
    · rw [ch_moved_self]
      exact h.reload
    · rw [ch_moved_self, hbusy]
      simp [Bool.toNat_le]
    · have hpaid := outstanding_advance hbusy (h.count hbusy)
      rw [ch_moved_self]
      simp [DmaEvent.movedBy]
      omega
  · exact h.other _ (log_moved s x) (by simp [DmaEvent.booked, he]) (ch_moved_of_ne s (Ne.symm he))

/-- The last move pays for the interrupt of the completion. -/
theorem balanced_finished (h : s.dma.Balanced c M) {x : ℕ} (hx : x < dmaNumChannels)
    (hbusy : (s.dma.ch x).busy = true) (hzero : ((s.moved x).dma.ch x).transCount = 0) :
    ((s.moved x).flagged x).dma.Balanced c M := by
  have hlog := log_flagged hx (s.moved x)
  rw [log_moved, List.append_assoc] at hlog
  by_cases he : x = c
  · subst he
    have hch : ((s.moved x).flagged x).dma.ch x = (s.dma.ch x).advance := ch_moved_self s x
    rw [ch_moved_self] at hzero
    have hidle : (s.dma.ch x).advance.busy = false := by
      exact Bool.eq_false_iff.mpr fun hbusy' => advance_count hbusy' hzero
    refine h.entries _ hlog ?_ ?_ ?_ ?_
    · rw [hch]
      exact advance_count
    · rw [hch]
      exact h.reload
    · rw [hch, hidle, hbusy]
      simp
    · have hpaid := outstanding_advance hbusy (h.count hbusy)
      rw [hch]
      simp [DmaEvent.movedBy]
      omega
  · exact h.other _ hlog (by simp [DmaEvent.booked, he]) (ch_moved_of_ne s (Ne.symm he))

/-- Every elementary action keeps the books of channel `c`. -/
theorem actions_balanced (c M : ℕ) :
    Actions (ChipCall.AsksAtMost c M) fun s t => s.dma.Balanced c M → t.dma.Balanced c M where
  refl _ h := h
  trans hst htu h := htu (hst h)
  pio _ _ _ h := h
  mem _ _ h := h
  op _ o _ h := h.op o
  configured s ch cfg writeAddr readAddr transCount _ hasks h := h.modifyCh
    (f := fun chan => { chan with
      ctrl := cfg
      writeAddr := writeAddr
      readAddr := readAddr
      transCountReload := transCount
      en := true }) rfl hasks id
  clocked s _ h := by
    obtain ⟨tm, htm⟩ := timersTick_eq s.dma
    unfold clocked modifyDma
    rw [htm]
    exact h.frame rfl rfl
  seat _ _ _ h := h.frame rfl rfl
  armed _ _ _ hcount h := balanced_armed h hcount
  null _ x _ h := balanced_null h x
  nullRaised _ _ hc h := balanced_nullRaised h hc
  moved _ _ _ _ hready h := balanced_moved h (busy_of_ready hready)
  finished _ _ _ hc hready hzero h := balanced_finished h hc (busy_of_ready hready) hzero
  chained _ x target _ h := h.other [.chained x target] rfl (by simp [DmaEvent.booked]) rfl

/-- From `pio_dma_init` on, whatever the host and its hooks call, the history of every channel
balances: it raised its interrupt at most once for each trigger, and it has moved, and still has to
move, at most as many elements for each trigger as a configuration ever asked for. -/
theorem books_balance (w : World) (m : LittleEndian.Memory) (pios : List (Option BlockAddr))
    (calls : ℕ → ℕ → Chip → List ChipCall) (n : ℕ) (xs : List ChipCall) (c M : ℕ)
    (hcalls : ∀ fn ch s, ∀ x ∈ calls fn ch s, x.AsksAtMost c M) (hxs : ∀ x ∈ xs, x.AsksAtMost c M) :
    let d := ((⟨w, .init pios, m⟩ : Chip).run (.nested calls n) xs).dma
    d.log.count (.raised c) + (d.ch c).busy.toNat ≤ d.log.count (.triggered c) ∧
      d.log.countP (DmaEvent.movedBy c) + (d.ch c).outstanding ≤
          M * d.log.count (.triggered c) := by
  intro d
  have hactions := actions_balanced c M
  have hd : d.Balanced c M :=
    hactions.run (hactions.nested hcalls n) hxs ⟨w, .init pios, m⟩ (Dma.balanced_init pios)
  exact ⟨hd.raised, hd.moved⟩

end Chip
end PioSim

namespace PioSim.Chip

local instance relayPlatform : Platform := ⟨.rp2350⟩

def again (_ ch : ℕ) (_ : Chip) : List ChipCall := [.startChannelMask (1#32 <<< ch)]

/-- Two words are copied, and twice again on completion. -/
def relay : List ChipCall :=
  [.op (.channelSetCallback 0 (some 0)),
    .channelConfigure 0 (.default 0) (.mem 64) (.mem 16) 2 true, .dmaTick,
    .dmaTick, .dmaTick]

theorem books_balance_relay :
    let d := ((⟨World.initial, .init [], fun _ => 0⟩ : Chip).run (.nested again 1) relay).dma
    d.log.count (.raised 0) + (d.ch 0).busy.toNat ≤ d.log.count (.triggered 0) ∧
      d.log.countP (DmaEvent.movedBy 0) + (d.ch 0).outstanding ≤
          2 * d.log.count (.triggered 0) := by
  refine books_balance World.initial (fun _ => 0) [] again 1 relay 0 2 ?_ ?_
  · exact fun _ _ _ x hx => List.mem_singleton.mp hx ▸ trivial
  · simp [relay, ChipCall.AsksAtMost]

end PioSim.Chip
