import PioSim.Dma

/-!
# What the DMA leaves alone

`Untouched C M g` is the frame of everything that is not about the channels `C`: their cursors,
counts and history, the memory cells `M` and what `g` reads of the PIO blocks stay as they were. A
transfer of another channel is in this frame when its endpoints are, and a transfer of a channel of
`C` only steps out of it by what it moves and by its completion events.
-/

namespace PioSim

variable [Platform]

def Callback.idle : Callback := fun _ _ s => s

def DmaEvent.channel : DmaEvent → ℕ
  | .moved ch _ _ _ => ch
  | .raised ch => ch
  | .triggered ch => ch
  | .chained ch _ => ch

/-- A configuration but for SNIFF_EN, which `pio_dma_sniffer_enable` may set. -/
def DmaConfig.unsniffed (ctrl : DmaConfig) : DmaConfig := { ctrl with sniffEn := false }

/-- What the bus makes of a word that it carries. -/
def DmaConfig.carry (ctrl : DmaConfig) (v : Word) : Word :=
  if ctrl.bswap then dmaBswap v (elemBytes ctrl.dataSize) else v

/-- What a run of a channel consists of: its configuration, cursors, count and BUSY. -/
def DmaChannel.course (chan : DmaChannel) : DmaConfig × DmaAddr × DmaAddr × BitVec 32 × Bool :=
  (chan.ctrl.unsniffed, chan.readAddr, chan.writeAddr, chan.transCount, chan.busy)

def Dma.history (d : Dma) (c : ℕ) : List DmaEvent := d.log.filter fun e => e.channel == c

section
omit [Platform]

theorem Dma.ch_modifyCh_self (d : Dma) (c : ℕ) (f : DmaChannel → DmaChannel) :
    (d.modifyCh c f).ch c = f (d.ch c) := Function.update_self _ _ _

theorem Dma.ch_modifyCh_of_ne (d : Dma) {c x : ℕ} (h : c ≠ x) (f : DmaChannel → DmaChannel) :
    (d.modifyCh x f).ch c = d.ch c := Function.update_of_ne h _ _

theorem Dma.history_record_self (d : Dma) (e : DmaEvent) :
    (d.record e).history e.channel = d.history e.channel ++ [e] := by
  simp [history, record]

theorem Dma.history_record_of_ne (d : Dma) {e : DmaEvent} {c : ℕ} (h : e.channel ≠ c) :
    (d.record e).history c = d.history c := by
  simp [history, record, h]

end

namespace Dma

omit [Platform] in
theorem ch_timersTick (d : Dma) : d.timersTick.ch = d.ch :=
  List.foldlRecOn (motive := fun e : Dma => e.ch = d.ch) _ _ rfl fun _ he _ _ => he

omit [Platform] in
theorem rrNext_timersTick (d : Dma) : d.timersTick.rrNext = d.rrNext :=
  List.foldlRecOn (motive := fun e : Dma => e.rrNext = d.rrNext) _ _ rfl fun _ he _ _ => he

end Dma

omit [Platform] in
theorem getLsbD_bit_of_ne {n k : ℕ} (h : n ≠ k) : (1#32 <<< n).getLsbD k = false := by
  have hne : ¬ (k < 32 ∧ n ≤ k ∧ k - n = 0) := by omega
  simp only [BitVec.getLsbD_shiftLeft, BitVec.getLsbD_one]
  simp
  omega

theorem chIdx_of_lt {c : ℕ} (h : c < dmaNumChannels) : chIdx c = c := Nat.mod_eq_of_lt h

section Frame
variable {γ : Type}

namespace Chip

/-- The courses of the channels `C`, the cells `M`, what `g` reads and the attached blocks are
kept. -/
structure Kept (C M : ℕ → Prop) (g : World → γ) (s s' : Chip) : Prop where
  course : ∀ c, C c → (s'.dma.ch c).course = (s.dma.ch c).course
  mem : ∀ a, M a → s'.mem a = s.mem a
  world : g s'.world = g s.world
  pio : s'.dma.pio = s.dma.pio

/-- In addition nothing happens on the channels `C`. -/
structure Untouched (C M : ℕ → Prop) (g : World → γ) (s s' : Chip) :
    Prop extends Kept C M g s s' where
  history : ∀ c, C c → s'.dma.history c = s.dma.history c

end Chip

/-- The host's hooks mind the frame, and redirect no chain to a channel of `C`. -/
def Callback.Minds (C M : ℕ → Prop) (g : World → γ) (cb : Callback) : Prop :=
  ∀ fn ch s, Chip.Untouched C M g s (cb fn ch s) ∧ ∀ c, C c → ∀ x,
    ((cb fn ch s).dma.ch x).ctrl.chainTo = c → (s.dma.ch x).ctrl.chainTo = c

omit [Platform] in
theorem Callback.idle_minds (C M : ℕ → Prop) (g : World → γ) : Callback.idle.Minds C M g :=
  fun _ _ _ => ⟨⟨⟨fun _ _ => rfl, fun _ _ => rfl, rfl, rfl⟩, fun _ _ => rfl⟩, fun _ _ _ h => h⟩

/-- The register write does not abort a channel of `C`. -/
def DmaOp.Spares (C : ℕ → Prop) : DmaOp → Prop
  | .channelAbortMask mask => ∀ c, C c → mask.getLsbD c = false
  | _ => True

/-- Reading or writing the endpoint changes nothing `g` reads. -/
def DmaAddr.Spares (g : World → γ) (d : Dma) : DmaAddr → Prop
  | .mem _ => True
  | .txf pioIndex sm | .rxf pioIndex sm =>
    ∀ b, d.pioAt pioIndex = some b → ∀ w op, g (w.step (.sm b sm op)) = g w

/-- The cells a write of `bytes` bytes to the endpoint covers are outside `M`. -/
def DmaAddr.Misses (M : ℕ → Prop) (bytes : ℕ) : DmaAddr → Prop
  | .mem p => ∀ a, p ≤ a → a < p + bytes → ¬ M a
  | _ => True

omit [Platform] in
theorem Dma.pioAt_congr {d d' : Dma} (h : d'.pio = d.pio) : d'.pioAt = d.pioAt := by
  funext k
  rw [pioAt, pioAt, h]

theorem DmaAddr.Spares.congr {g : World → γ} {d d' : Dma} {a : DmaAddr} (h : a.Spares g d)
    (hpio : d'.pio = d.pio) : a.Spares g d' := by
  have hat := Dma.pioAt_congr hpio
  cases a with
  | mem p => trivial
  | txf k sm => exact fun b hb => h b (by rwa [hat] at hb)
  | rxf k sm => exact fun b hb => h b (by rwa [hat] at hb)

namespace Chip

variable {C M : ℕ → Prop} {g : World → γ} {s s' s'' : Chip} {c x : ℕ} {cb : Callback}

section
omit [Platform]

theorem Kept.refl (s : Chip) : Kept C M g s s := ⟨fun _ _ => rfl, fun _ _ => rfl, rfl, rfl⟩

theorem Kept.trans (h : Kept C M g s s') (h' : Kept C M g s' s'') : Kept C M g s s'' where
  course c hc := (h'.course c hc).trans (h.course c hc)
  mem a ha := (h'.mem a ha).trans (h.mem a ha)
  world := h'.world.trans h.world
  pio := h'.pio.trans h.pio

theorem Untouched.refl (s : Chip) : Untouched C M g s s := ⟨.refl s, fun _ _ => rfl⟩

theorem Untouched.trans (h : Untouched C M g s s') (h' : Untouched C M g s' s'') :
    Untouched C M g s s'' :=
  ⟨h.toKept.trans h'.toKept, fun c hc => (h'.history c hc).trans (h.history c hc)⟩

theorem Kept.ctrl (h : Kept C M g s s') (hc : C c) :
    (s'.dma.ch c).ctrl.unsniffed = (s.dma.ch c).ctrl.unsniffed :=
  congrArg Prod.fst (h.course c hc)

theorem untouched_dma {d : Dma} (hch : ∀ c, C c → (d.ch c).course = (s.dma.ch c).course)
    (hpio : d.pio = s.dma.pio) (hlog : ∀ c, C c → d.history c = s.dma.history c) :
    Untouched C M g s { s with dma := d } := ⟨⟨hch, fun _ _ => rfl, rfl, hpio⟩, hlog⟩

/-- A register write that leaves the channels and the log alone. -/
theorem untouched_modifyDma {f : Dma → Dma} (hch : (f s.dma).ch = s.dma.ch)
    (hpio : (f s.dma).pio = s.dma.pio) (hlog : (f s.dma).log = s.dma.log) :
    Untouched C M g s (s.modifyDma f) :=
  untouched_dma (fun c _ => by rw [hch]) hpio fun c _ => by rw [Dma.history, Dma.history, hlog]

theorem untouched_modifyCh {f : DmaChannel → DmaChannel} (hx : ¬ C x) :
    Untouched C M g s (s.modifyDma (·.modifyCh x f)) := by
  refine untouched_dma (fun c hc => ?_) rfl fun _ _ => rfl
  have hne : c ≠ x := fun he => hx (he ▸ hc)
  rw [Dma.ch_modifyCh_of_ne _ hne]

theorem untouched_record {e : DmaEvent} (he : ¬ C e.channel) :
    Untouched C M g s (s.modifyDma (·.record e)) :=
  untouched_dma (fun _ _ => rfl) rfl fun _ hc =>
    Dma.history_record_of_ne _ fun h => he (h ▸ hc)

end

/-! ### The host's hooks -/

theorem untouched_raiseIrq (hcb : cb.Minds C M g) {ch : ℕ} (hch : ¬ C (chIdx ch)) :
    Untouched C M g s (s.raiseIrq cb ch) := by
  have hflag : Untouched C M g s (s.modifyDma fun d =>
      { d.record (.raised (chIdx ch)) with intr := d.intr ||| (1#32 <<< chIdx ch) }) :=
    untouched_dma (fun _ _ => rfl) rfl fun _ hc =>
      Dma.history_record_of_ne s.dma fun h : chIdx ch = _ => hch (h ▸ hc)
  unfold raiseIrq
  simp only
  split
  · exact hflag
  · exact hflag.trans (hcb _ _ _).1

theorem untouched_trigger (hcb : cb.Minds C M g) (hlt : c < dmaNumChannels) (hc : ¬ C c) :
    Untouched C M g s (s.trigger cb c) := by
  have hrecord : Untouched C M g s (s.modifyDma (·.record (.triggered c))) := untouched_record hc
  unfold trigger
  simp only
  split_ifs
  · exact hrecord.trans (untouched_raiseIrq hcb (by rwa [chIdx_of_lt hlt]))
  · exact hrecord
  · exact hrecord.trans (untouched_modifyCh hc)

theorem untouched_startChannelMask (hcb : cb.Minds C M g) {mask : BitVec 32}
    (hmask : ∀ c, C c → mask.getLsbD c = false) :
    Untouched C M g s (s.startChannelMask cb mask) := by
  refine List.foldlRecOn (motive := Untouched C M g s) _ _ (.refl s) fun t ht c hc => ?_
  split
  · rename_i hbit
    have hnot : ¬ C c := fun h => by
      rw [hmask c h] at hbit
      cases hbit
    exact ht.trans (untouched_trigger hcb (List.mem_range.mp hc) hnot)
  · exact ht

/-! ### Register writes -/

omit [Platform] in
/-- A change of a channel's record that keeps its course. -/
theorem untouched_modifyCh_course {f : DmaChannel → DmaChannel}
    (hf : ∀ chan, (f chan).course = chan.course) :
    Untouched C M g s (s.modifyDma (·.modifyCh x f)) := by
  refine untouched_dma (fun c _ => ?_) rfl fun _ _ => rfl
  by_cases hcx : c = x
  · subst hcx
    rw [Dma.ch_modifyCh_self, hf]
  · rw [Dma.ch_modifyCh_of_ne _ hcx]

theorem untouched_op {o : DmaOp} (ho : o.Spares C) :
    Untouched C M g s (s.modifyDma fun d => o.apply d) := by
  cases o with
  | channelAbortMask mask =>
    refine List.foldlRecOn (motive := fun d => Untouched C M g s { s with dma := d }) _
      _ (.refl s) ?_
    intro d hd c _
    split
    · rename_i hbit
      refine hd.trans (untouched_modifyCh (s := { s with dma := d }) fun hc => ?_)
      rw [ho c hc] at hbit
      cases hbit
    · exact hd
  | channelSetEnabled ch en =>
    exact untouched_modifyCh_course (f := fun chan => { chan with en := en }) fun _ => rfl
  | channelSetCallback ch fn =>
    exact untouched_modifyCh_course (f := fun chan => { chan with onComplete := fn }) fun _ => rfl
  | snifferEnable ch mode force =>
    refine (untouched_modifyDma (f := fun d => { d with sniff :=
      { d.sniff with en := true, chan := chIdx ch, sniffCalc := u8 mode } }) rfl rfl rfl).trans ?_
    cases force with
    | false => exact .refl _
    | true =>
      exact untouched_modifyCh_course
        (f := fun chan => { chan with ctrl := { chan.ctrl with sniffEn := true } }) fun _ => rfl
  | _ => exact untouched_modifyDma rfl rfl rfl

omit [Platform] in
theorem untouched_clocked : Untouched C M g s (s.modifyDma Dma.timersTick) := by
  refine List.foldlRecOn (motive := fun d => Untouched C M g s { s with dma := d }) _ _ (.refl s) ?_
  intro d hd t _
  exact hd.trans (untouched_modifyDma (s := { s with dma := d })
    (f := fun d => d.setTimer t (d.timer t).tick) rfl rfl rfl)

omit [Platform] in
theorem untouched_consumeCredit (treq : ℕ) : Untouched C M g s (s.consumeCredit treq) := by
  unfold consumeCredit
  split
  · exact .refl s
  · exact untouched_modifyDma rfl rfl rfl

/-! ### Transfers of other channels -/

theorem untouched_readElem {a : DmaAddr} {bytes : ℕ} (ha : a.Spares g s.dma) :
    Untouched C M g s (s.readElem a bytes).2 := by
  have hworld : ∀ w : World, g w = g s.world → Untouched C M g s { s with world := w } :=
    fun w hw => ⟨⟨fun _ _ => rfl, fun _ _ => rfl, hw, rfl⟩, fun _ _ => rfl⟩
  unfold readElem
  split
  · exact .refl s
  all_goals
    split
    · exact .refl s
    · rename_i b hb
      exact hworld _ (ha b hb _ _)

theorem dma_readElem (s : Chip) (a : DmaAddr) (bytes : ℕ) : (s.readElem a bytes).2.dma = s.dma := by
  unfold readElem
  split
  · rfl
  all_goals split <;> rfl

theorem untouched_writeElem {a : DmaAddr} {bytes : ℕ} {v : Word} (ha : a.Spares g s.dma)
    (hM : a.Misses M bytes) : Untouched C M g s (s.writeElem a bytes v) := by
  have hworld : ∀ w : World, g w = g s.world → Untouched C M g s { s with world := w } :=
    fun w hw => ⟨⟨fun _ _ => rfl, fun _ _ => rfl, hw, rfl⟩, fun _ _ => rfl⟩
  unfold writeElem
  split
  · rename_i p
    refine ⟨⟨fun _ _ => rfl, fun a ha => ?_, rfl, rfl⟩, fun _ _ => rfl⟩
    refine LittleEndian.store_of_notMem v ?_
    by_contra hin
    exact hM a (by omega) (by omega) ha
  all_goals
    split
    · exact .refl s
    · rename_i b hb
      exact hworld _ (ha b hb _ _)

/-- The sniffer's share of a transfer. -/
def sniffed (s : Chip) (c : ℕ) (sniffEn : Bool) (v : Word) (bytes : ℕ) : Chip :=
  s.modifyDma fun d =>
    if d.sniff.en && sniffEn && d.sniff.chan == c then
      { d with sniff := d.sniff.feed v bytes } else d

omit [Platform] in
theorem sniffed_cases (s : Chip) (c : ℕ) (sniffEn : Bool) (v : Word) (bytes : ℕ) :
    ∃ n, s.sniffed c sniffEn v bytes = s.modifyDma fun d => { d with sniff := n } := by
  by_cases h : (s.dma.sniff.en && sniffEn && s.dma.sniff.chan == c) = true
  · exact ⟨_, by rw [sniffed, modifyDma, if_pos h]; rfl⟩
  · exact ⟨s.dma.sniff, by rw [sniffed, modifyDma, if_neg h]; rfl⟩

def moveValue (s : Chip) (c : ℕ) : Word :=
  let chan := s.dma.ch c
  let bytes := elemBytes chan.ctrl.dataSize
  if chan.ctrl.bswap then dmaBswap (s.readElem chan.readAddr bytes).1 bytes
  else (s.readElem chan.readAddr bytes).1

theorem moveElem_eq (s : Chip) (c : ℕ) : s.moveElem c =
    (((s.readElem (s.dma.ch c).readAddr (elemBytes (s.dma.ch c).ctrl.dataSize)).2.sniffed c
      (s.dma.ch c).ctrl.sniffEn (s.moveValue c) (elemBytes (s.dma.ch c).ctrl.dataSize)).writeElem
        (s.dma.ch c).writeAddr (elemBytes (s.dma.ch c).ctrl.dataSize) (s.moveValue c)).modifyDma
          (·.record (.moved c (s.dma.ch c).readAddr (s.dma.ch c).writeAddr (s.moveValue c))) := rfl

/-- The transfer up to its event: read, sniff and write. -/
theorem untouched_write_of_move (hr : (s.dma.ch x).readAddr.Spares g s.dma)
    (hw : (s.dma.ch x).writeAddr.Spares g s.dma)
    (hM : (s.dma.ch x).writeAddr.Misses M (elemBytes (s.dma.ch x).ctrl.dataSize)) {v : Word} :
    Untouched C M g s
      (((s.readElem (s.dma.ch x).readAddr (elemBytes (s.dma.ch x).ctrl.dataSize)).2.sniffed x
        (s.dma.ch x).ctrl.sniffEn v (elemBytes (s.dma.ch x).ctrl.dataSize)).writeElem
          (s.dma.ch x).writeAddr (elemBytes (s.dma.ch x).ctrl.dataSize) v) := by
  have hread : Untouched C M g s
      (s.readElem (s.dma.ch x).readAddr (elemBytes (s.dma.ch x).ctrl.dataSize)).2 :=
    untouched_readElem hr
  obtain ⟨n, hn⟩ := sniffed_cases
    (s.readElem (s.dma.ch x).readAddr (elemBytes (s.dma.ch x).ctrl.dataSize)).2 x
    (s.dma.ch x).ctrl.sniffEn v (elemBytes (s.dma.ch x).ctrl.dataSize)
  have hpio : (s.readElem (s.dma.ch x).readAddr
      (elemBytes (s.dma.ch x).ctrl.dataSize)).2.dma.pio = s.dma.pio := by rw [dma_readElem]
  rw [hn]
  exact (hread.trans (untouched_modifyDma rfl rfl rfl)).trans
    (untouched_writeElem (hw.congr hpio) hM)

theorem untouched_moveElem (hx : ¬ C x) (hr : (s.dma.ch x).readAddr.Spares g s.dma)
    (hw : (s.dma.ch x).writeAddr.Spares g s.dma)
    (hM : (s.dma.ch x).writeAddr.Misses M (elemBytes (s.dma.ch x).ctrl.dataSize)) :
    Untouched C M g s (s.moveElem x) := by
  rw [moveElem_eq]
  exact (untouched_write_of_move hr hw hM).trans (untouched_record hx)

theorem dma_writeElem (s : Chip) (a : DmaAddr) (bytes : ℕ) (v : Word) :
    (s.writeElem a bytes v).dma = s.dma := by
  unfold writeElem
  split
  · rfl
  all_goals split <;> rfl

/-- A transfer reaches the controller only through the sniffer and the log. -/
theorem dma_moveElem (s : Chip) (c : ℕ) : ∃ sniff log,
    (s.moveElem c).dma = { s.dma with sniff := sniff, log := log } := by
  obtain ⟨n, hn⟩ := sniffed_cases
    (s.readElem (s.dma.ch c).readAddr (elemBytes (s.dma.ch c).ctrl.dataSize)).2 c
    (s.dma.ch c).ctrl.sniffEn (s.moveValue c) (elemBytes (s.dma.ch c).ctrl.dataSize)
  rw [moveElem_eq, hn]
  simp only [modifyDma, Dma.record, dma_writeElem, dma_readElem]
  exact ⟨_, _, rfl⟩

theorem ch_moveElem (s : Chip) (c : ℕ) : (s.moveElem c).dma.ch = s.dma.ch := by
  obtain ⟨_, _, hdma⟩ := dma_moveElem s c
  rw [hdma]

omit [Platform] in
theorem ch_consumeCredit (s : Chip) (treq : ℕ) : (s.consumeCredit treq).dma.ch = s.dma.ch := by
  unfold consumeCredit
  split <;> rfl

/-- A transfer before its completion. -/
def moved (s : Chip) (c : ℕ) : Chip :=
  ((s.moveElem c).consumeCredit (s.dma.ch c).ctrl.treqSel).modifyDma
    (·.modifyCh c DmaChannel.advance)

theorem transferOne_eq (cb : Callback) (s : Chip) (c : ℕ) : s.transferOne cb c =
    if ((s.moved c).dma.ch c).transCount = 0 then (s.moved c).complete cb c else s.moved c := rfl

theorem ch_moved_self (s : Chip) (c : ℕ) : (s.moved c).dma.ch c = (s.dma.ch c).advance := by
  simp only [moved, modifyDma, Dma.modifyCh, Dma.setCh, Function.update_self, ch_consumeCredit,
    ch_moveElem]

theorem ch_moved_of_ne (s : Chip) {c x : ℕ} (hne : c ≠ x) : (s.moved x).dma.ch c = s.dma.ch c := by
  rw [moved, modifyDma, Dma.ch_modifyCh_of_ne _ hne, ch_consumeCredit, ch_moveElem]

/-- A channel outside `C` that does not chain into it completes without touching it. -/
theorem untouched_complete (hcb : cb.Minds C M g) (hlt : x < dmaNumChannels) (hx : ¬ C x)
    (hchain : ¬ C (s.dma.ch x).ctrl.chainTo) : Untouched C M g s (s.complete cb x) := by
  have hraise : Untouched C M g s (if (s.dma.ch x).ctrl.irqQuiet then s else s.raiseIrq cb x) ∧
      ¬ C ((if (s.dma.ch x).ctrl.irqQuiet then s else s.raiseIrq cb x).dma.ch x).ctrl.chainTo := by
    split
    · exact ⟨.refl s, hchain⟩
    · refine ⟨untouched_raiseIrq hcb (by rwa [chIdx_of_lt hlt]), fun hC => hchain ?_⟩
      revert hC
      unfold raiseIrq
      simp only
      split
      · exact id
      · intro hC
        exact (hcb _ _ _).2 _ hC x rfl ▸ hC
  unfold complete
  simp only
  generalize (if (s.dma.ch x).ctrl.irqQuiet = true then s else s.raiseIrq cb x) = t at hraise ⊢
  obtain ⟨ht, htarget⟩ := hraise
  split
  · refine (ht.trans (untouched_record (e := .chained x _) hx)).trans
      (untouched_startChannelMask hcb fun c hc => ?_)
    have hne : (t.dma.ch x).ctrl.chainTo ≠ c := fun he => htarget (he ▸ hc)
    exact getLsbD_bit_of_ne hne
  · exact ht

theorem untouched_transferOne (hcb : cb.Minds C M g) (hlt : x < dmaNumChannels) (hx : ¬ C x)
    (hr : (s.dma.ch x).readAddr.Spares g s.dma) (hw : (s.dma.ch x).writeAddr.Spares g s.dma)
    (hM : (s.dma.ch x).writeAddr.Misses M (elemBytes (s.dma.ch x).ctrl.dataSize))
    (hchain : (s.dma.ch x).transCount = 1 → ¬ C (s.dma.ch x).ctrl.chainTo) :
    Untouched C M g s (s.transferOne cb x) := by
  have hmoved : Untouched C M g s (s.moved x) :=
    ((untouched_moveElem hx hr hw hM).trans (untouched_consumeCredit _)).trans
      (untouched_modifyCh hx)
  rw [transferOne_eq]
  split
  · rename_i hzero
    refine hmoved.trans (untouched_complete hcb hlt hx ?_)
    rw [ch_moved_self] at hzero ⊢
    apply hchain
    have hcount : (s.dma.ch x).transCount - 1 = 0 := hzero
    rw [← BitVec.sub_add_cancel (s.dma.ch x).transCount 1, hcount]
    rfl
  · exact hmoved

/-! ### Calls -/

omit [Platform] in
theorem ch_clocked (s : Chip) : s.clocked.dma.ch = s.dma.ch := Dma.ch_timersTick s.dma

omit [Platform] in
theorem rrNext_clocked (s : Chip) : s.clocked.dma.rrNext = s.dma.rrNext :=
  Dma.rrNext_timersTick s.dma

theorem step_dmaTick_of_served (h : s.clocked.served = some x) : s.step cb .dmaTick =
    (s.clocked.transferOne cb x).modifyDma fun d =>
      { d with rrNext := (x + 1) % dmaNumChannels } := by
  rw [step, dmaTick, h]

theorem step_dmaTick_of_idle (h : s.clocked.served = none) : s.step cb .dmaTick = s.clocked := by
  rw [step, dmaTick, h]

theorem mem_transfers_dmaTick : x ∈ s.transfers .dmaTick ↔ s.clocked.served = some x := by
  rw [transfers, Option.mem_toList]

theorem ready_of_served (h : s.served = some x) : x < dmaNumChannels ∧ s.channelReady x = true := by
  have hpass : ∀ hp, s.firstReady hp = some x → x < dmaNumChannels ∧ s.channelReady x = true := by
    intro hp hscan
    obtain ⟨hlt, hready, -⟩ := RoundRobin.scan_eq_some hscan
    rw [Bool.and_eq_true] at hready
    exact ⟨hlt, hready.2⟩
  rw [served, Option.or_eq_some_iff] at h
  rcases h with h | ⟨-, h⟩
  · exact hpass true h
  · exact hpass false h

/-- The call leaves the frame alone: the host neither aborts, triggers nor configures a channel of
`C` nor writes to `M`, and another channel that is served has its endpoints elsewhere and does not
chain to a channel of `C`. -/
def LeavesAlone (C M : ℕ → Prop) (g : World → γ) (s : Chip) : ChipCall → Prop
  | .pio call => g (s.world.step call) = g s.world
  | .poke p _ => ¬ M p
  | .op o => o.Spares C
  | .startChannelMask mask => ∀ c, C c → mask.getLsbD c = false
  | .channelConfigure ch _ _ _ _ _ => ¬ C (chIdx ch)
  | .dmaTick => ∀ x, s.clocked.served = some x → ¬ C x →
      (s.dma.ch x).readAddr.Spares g s.dma ∧ (s.dma.ch x).writeAddr.Spares g s.dma ∧
      (s.dma.ch x).writeAddr.Misses M (elemBytes (s.dma.ch x).ctrl.dataSize) ∧
      ((s.dma.ch x).transCount = 1 → ¬ C (s.dma.ch x).ctrl.chainTo)

/-- A tick that serves another channel. -/
theorem untouched_dmaTick_of_served (hcb : cb.Minds C M g) (h : s.LeavesAlone C M g .dmaTick)
    (hs : s.clocked.served = some x) (hx : ¬ C x) : Untouched C M g s (s.step cb .dmaTick) := by
  obtain ⟨hr, hw, hM, hchain⟩ := h x hs hx
  have hclock : Untouched C M g s s.clocked := untouched_clocked
  rw [← ch_clocked] at hr hw hM hchain
  rw [step_dmaTick_of_served hs]
  refine (hclock.trans (untouched_transferOne hcb (ready_of_served hs).1 hx (hr.congr ?_)
    (hw.congr ?_) hM hchain)).trans (untouched_modifyDma rfl rfl rfl)
  all_goals exact (untouched_clocked (C := C) (M := M) (g := g)).pio

/-- Whatever leaves the frame alone and does not serve a channel of `C`. -/
theorem untouched_step (hcb : cb.Minds C M g) {e : ChipCall} (h : s.LeavesAlone C M g e)
    (hserved : ∀ x ∈ s.transfers e, ¬ C x) : Untouched C M g s (s.step cb e) := by
  cases e with
  | pio call => exact ⟨⟨fun _ _ => rfl, fun _ _ => rfl, h, rfl⟩, fun _ _ => rfl⟩
  | poke p v =>
    refine ⟨⟨fun _ _ => rfl, fun a ha => ?_, rfl, rfl⟩, fun _ _ => rfl⟩
    exact Function.update_of_ne (fun he : a = p => h (he ▸ ha)) _ _
  | op o => exact untouched_op h
  | startChannelMask mask => exact untouched_startChannelMask hcb h
  | channelConfigure ch cfg writeAddr readAddr transCount trigger =>
    rw [step, channelConfigure]
    split
    · refine (untouched_modifyCh h).trans (untouched_startChannelMask hcb fun c hc => ?_)
      exact getLsbD_bit_of_ne fun he => h (he ▸ hc)
    · exact untouched_modifyCh h
  | dmaTick =>
    cases hs : s.clocked.served with
    | none =>
      rw [step_dmaTick_of_idle hs]
      exact untouched_clocked
    | some x =>
      exact untouched_dmaTick_of_served hcb h hs (hserved x (mem_transfers_dmaTick.mpr hs))

end Chip
end Frame
end PioSim
