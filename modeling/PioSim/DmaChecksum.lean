import PioSim.DmaRuns
import PioSim.Sniffer

/-!
# A checksum of the history

While nobody writes the sniffer's registers or configures the channel it listens to, the accumulator
is the seed fed with exactly the elements the channel has moved since: nothing is fed twice or left
out, whatever the other channels, the host and the completion hooks do.
-/

namespace PioSim

variable [Platform]

/-- What the sniffer's sum depends on. -/
def DmaSniff.gear (s : DmaSniff) : Bool × ℕ × ℕ × Word := (s.en, s.chan, s.sniffCalc, s.data)

section
omit [Platform]

theorem DmaSniff.gear_feed {s t : DmaSniff} (h : s.gear = t.gear) (v : Word) (bytes : ℕ) :
    (s.feed v bytes).gear = (t.feed v bytes).gear := by
  simp only [gear, Prod.mk.injEq] at h
  obtain ⟨hen, hchan, hcalc, hdata⟩ := h
  unfold gear feed
  rw [hen, hchan, hcalc, hdata]

theorem DmaSniff.gear_feedAll {s t : DmaSniff} (h : s.gear = t.gear)
    (elems : List (Word × DmaSize)) :
    (s.feedAll elems).gear = (t.feedAll elems).gear := by
  induction elems generalizing s t with
  | nil => exact h
  | cons e elems ih => exact ih (gear_feed h e.1 (elemBytes e.2))

/-- The elements of `size` that a history tells of. -/
def elements (size : DmaSize) (es : List DmaEvent) : List (Word × DmaSize) :=
  es.filterMap fun
    | .moved _ _ _ v => some (v, size)
    | _ => none

theorem elements_append (size : DmaSize) (es fs : List DmaEvent) :
    elements size (es ++ fs) = elements size es ++ elements size fs := List.filterMap_append

theorem elements_eq_nil {size : DmaSize} {es : List DmaEvent} (h : ∀ e ∈ es, e.isMove = false) :
    elements size es = [] := by
  refine List.filterMap_eq_nil_iff.mpr fun e he => ?_
  have hplain := h e he
  cases e with
  | moved => cases hplain
  | raised | triggered | chained => rfl

end

def DmaOp.KeepsSum : DmaOp → Prop
  | .snifferEnable .. | .snifferDisable | .snifferSetDataAccumulator _ => False
  | _ => True

/-- The call neither writes the sum nor configures channel `c`. -/
def ChipCall.KeepsSum (c : ℕ) : ChipCall → Prop
  | .op o => o.KeepsSum
  | .channelConfigure ch .. => chIdx ch ≠ c
  | _ => True

namespace Chip

variable {s t u : Chip} {c : ℕ} {size : DmaSize}

/-- The sniffer listens to channel `c`, which moves elements of `size`. -/
structure Sniffed (c : ℕ) (size : DmaSize) (s : Chip) : Prop where
  en : s.dma.sniff.en = true
  chan : s.dma.sniff.chan = c
  own : (s.dma.ch c).ctrl.sniffEn = true
  width : (s.dma.ch c).ctrl.dataSize = size

/-- From `s` to `t` the sum has been fed with what `c` has moved. -/
structure Summed (c : ℕ) (size : DmaSize) (s t : Chip) : Prop where
  sniffed : t.Sniffed c size
  fed : ∃ es, t.dma.history c = s.dma.history c ++ es ∧
    t.dma.sniff.gear = (s.dma.sniff.feedAll (elements size es)).gear

section
omit [Platform]

theorem Summed.refl (h : s.Sniffed c size) : Summed c size s s :=
  ⟨h, [], (List.append_nil _).symm, rfl⟩

theorem Summed.trans (h : Summed c size s t) (h' : Summed c size t u) : Summed c size s u := by
  obtain ⟨es, hes, hfed⟩ := h.fed
  obtain ⟨fs, hfs, hfed'⟩ := h'.fed
  refine ⟨h'.sniffed, es ++ fs, by rw [hfs, hes, List.append_assoc], ?_⟩
  have hjoin : s.dma.sniff.feedAll (elements size (es ++ fs)) =
      (s.dma.sniff.feedAll (elements size es)).feedAll (elements size fs) := by
    rw [elements_append]
    exact List.foldl_append
  rw [hfed', hjoin]
  exact DmaSniff.gear_feedAll hfed _

/-- A change that moves nothing of channel `c` and leaves the sum and the channel's configuration
alone. -/
theorem Sniffed.quiet (h : s.Sniffed c size) (es : List DmaEvent)
    (hlog : t.dma.log = s.dma.log ++ es)
    (hes : ∀ e ∈ es, e.channel = c → e.isMove = false) (hgear : t.dma.sniff.gear = s.dma.sniff.gear)
    (hctrl : (t.dma.ch c).ctrl = (s.dma.ch c).ctrl) : Summed c size s t := by
  have hparts := hgear
  simp only [DmaSniff.gear, Prod.mk.injEq] at hparts
  refine ⟨⟨hparts.1.trans h.en, hparts.2.1.trans h.chan,
    by rw [hctrl, h.own], by rw [hctrl, h.width]⟩, es.filter fun e => e.channel == c, ?_, ?_⟩
  · unfold Dma.history
    rw [hlog, List.filter_append]
  · rw [elements_eq_nil fun e he => hes e (List.mem_filter.mp he).1
      (eq_of_beq (List.mem_filter.mp he).2)]
    exact hgear

theorem Sniffed.modifyCh (h : s.Sniffed c size) {x : ℕ} {f : DmaChannel → DmaChannel}
    (hf : x = c → (f (s.dma.ch x)).ctrl = (s.dma.ch x).ctrl) :
    Summed c size s (s.modifyDma (·.modifyCh x f)) := by
  refine h.quiet [] (List.append_nil _).symm (List.forall_mem_nil _) rfl ?_
  by_cases he : c = x
  · subst he
    exact (congrArg DmaChannel.ctrl (Dma.ch_modifyCh_self s.dma c f)).trans (hf rfl)
  · exact congrArg DmaChannel.ctrl (Dma.ch_modifyCh_of_ne s.dma he f)

end

theorem Sniffed.op (h : s.Sniffed c size) {o : DmaOp} (ho : o.KeepsSum) :
    Summed c size s (s.modifyDma fun d => o.apply d) := by
  have hquiet : ∀ t : Chip, t.dma.log = s.dma.log → t.dma.sniff.gear = s.dma.sniff.gear →
      t.dma.ch = s.dma.ch → Summed c size s t := fun t hlog hgear hch =>
    h.quiet [] (by rw [hlog, List.append_nil]) (List.forall_mem_nil _) hgear (by rw [hch])
  cases o with
  | channelSetEnabled ch en =>
      exact h.modifyCh (f := fun chan => { chan with en := en }) fun _ => rfl
  | channelSetCallback ch fn =>
      exact h.modifyCh (f := fun chan => { chan with onComplete := fn }) fun _ => rfl
  | channelAbortMask mask =>
    refine List.foldlRecOn (motive := fun d => Summed c size s { s with dma := d }) _ _ (.refl h)
      fun d hd x _ => ?_
    split
    · exact hd.trans
        (hd.sniffed.modifyCh (f := fun chan => { chan with busy := false }) fun _ => rfl)
    · exact hd
  | timerSetFraction timer num den => exact hquiet _ rfl rfl rfl
  | snifferEnable | snifferDisable | snifferSetDataAccumulator => exact ho.elim
  | snifferSetOutputInvertEnabled invert => exact hquiet _ rfl rfl rfl
  | snifferSetOutputReverseEnabled reverse => exact hquiet _ rfl rfl rfl
  | irqnSetChannelMaskEnabled line mask enabled => exact hquiet _ rfl rfl rfl
  | irqnAcknowledgeChannel ch => exact hquiet _ rfl rfl rfl
  | irqnForceChannel line ch on => exact hquiet _ rfl rfl rfl

theorem Sniffed.flagged (h : s.Sniffed c size) (x : ℕ) : Summed c size s (s.flagged x) :=
  h.quiet [.raised (chIdx x)] rfl (by simp [DmaEvent.isMove]) rfl rfl

/-- A move of channel `c` is fed, a move of another one is not. -/
theorem Sniffed.moved (h : s.Sniffed c size) (x : ℕ) : Summed c size s (s.moved x) := by
  obtain ⟨tm, htm⟩ := moved_eq s x
  by_cases he : x = c
  · subst he
    have hsniff : (s.moved x).dma.sniff = s.dma.sniff.feed (s.moveValue x) (elemBytes size) := by
      have hlistens :
          (s.dma.sniff.en && (s.dma.ch x).ctrl.sniffEn && s.dma.sniff.chan == x) = true := by
        rw [h.en, h.own, h.chan, beq_self_eq_true, Bool.and_self, Bool.and_self]
      rw [sniff_moved, if_pos hlistens, Chip.width, h.width]
    have hctrl : ((s.moved x).dma.ch x).ctrl = (s.dma.ch x).ctrl := by
      rw [ch_moved_self]
      rfl
    refine ⟨⟨by rw [hsniff]; exact h.en, by rw [hsniff]; exact h.chan, by rw [hctrl]; exact h.own,
      by rw [hctrl]; exact h.width⟩,
        [.moved x (s.dma.ch x).readAddr (s.dma.ch x).writeAddr (s.moveValue x)], ?_, ?_⟩
    · rw [htm]
      unfold Dma.history
      rw [List.filter_append]
      simp [DmaEvent.channel]
    · rw [hsniff]
      rfl
  · have hsniff : (s.moved x).dma.sniff = s.dma.sniff := by
      rw [sniff_moved, h.chan, beq_false_of_ne (Ne.symm he)]
      simp
    refine h.quiet
      [.moved x (s.dma.ch x).readAddr (s.dma.ch x).writeAddr (s.moveValue x)] ?_ ?_ ?_ ?_
    · rw [htm]
    · exact fun e hmem hch =>
        absurd ((congrArg DmaEvent.channel (List.mem_singleton.mp hmem)).symm.trans hch) he
    · rw [hsniff]
    · rw [htm]
      exact congrArg DmaChannel.ctrl (Function.update_of_ne (Ne.symm he) _ _)

/-- Every elementary action keeps the sum. -/
theorem actions_summed (c : ℕ) (size : DmaSize) :
    Actions (ChipCall.KeepsSum c) fun s t => s.Sniffed c size → Summed c size s t where
  refl _ h := .refl h
  trans hst htu h := (hst h).trans (htu (hst h).sniffed)
  pio _ _ _ h := h.quiet [] (List.append_nil _).symm (List.forall_mem_nil _) rfl rfl
  mem _ _ h := h.quiet [] (List.append_nil _).symm (List.forall_mem_nil _) rfl rfl
  op _ _ ho h := h.op ho
  configured _ ch cfg writeAddr readAddr transCount _ hch h := h.modifyCh
    (f := fun chan => { chan with
      ctrl := cfg
      writeAddr := writeAddr
      readAddr := readAddr
      transCountReload := transCount
      en := true }) fun he => absurd he hch
  clocked s _ h := by
    obtain ⟨tm, htm⟩ := timersTick_eq s.dma
    unfold clocked modifyDma
    rw [htm]
    exact h.quiet [] (List.append_nil _).symm (List.forall_mem_nil _) rfl rfl
  seat _ _ _ h := h.quiet [] (List.append_nil _).symm (List.forall_mem_nil _) rfl rfl
  armed s x _ _ h :=
    have hrecord : Summed c size s (s.modifyDma (·.record (.triggered x))) :=
      h.quiet [.triggered x] rfl (by simp [DmaEvent.isMove]) rfl rfl
    hrecord.trans (hrecord.sniffed.modifyCh
      (f := fun chan => { chan with transCount := chan.transCountReload, busy := true })
        fun _ => rfl)
  null _ x _ h := h.quiet [.triggered x] rfl (by simp [DmaEvent.isMove]) rfl rfl
  nullRaised s x _ h :=
    have hrecord : Summed c size s (s.modifyDma (·.record (.triggered x))) :=
      h.quiet [.triggered x] rfl (by simp [DmaEvent.isMove]) rfl rfl
    hrecord.trans (hrecord.sniffed.flagged x)
  moved _ x _ _ _ h := h.moved x
  finished _ x _ _ _ _ h := (h.moved x).trans ((h.moved x).sniffed.flagged x)
  chained _ x target _ h := h.quiet [.chained x target] rfl (by simp [DmaEvent.isMove]) rfl rfl

/-- What a CRC mode leaves in the accumulator `v` from the seed `v₀` after `bytes`. -/
structure Remains (mode : ℕ) (v₀ v : Word) (bytes : List (BitVec 8)) : Prop where
  crc32 : mode = sniffCrc32 → Crc.poly v = Crc.remainder 0x04C11DB7#32 v₀ bytes
  crc32r : mode = sniffCrc32r →
    Crc.poly v.reverse = Crc.remainder 0x04C11DB7#32 v₀.reverse (bytes.map BitVec.reverse)
  crc16 : mode = sniffCrc16 → bytes ≠ [] → ∃ crc : BitVec 16, v = crc.setWidth 32 ∧
    Crc.poly crc = Crc.remainder 0x1021#16 (v₀.setWidth 16) bytes
  crc16r : mode = sniffCrc16r → bytes ≠ [] → ∃ crc : BitVec 16, v = crc.setWidth 32 ∧
    Crc.poly crc.reverse = Crc.remainder 0x1021#16 (v₀.setWidth 16).reverse
      (bytes.map BitVec.reverse)

omit [Platform] in
theorem remains_feedAll (s : DmaSniff) (elems : List (Word × DmaSize)) :
    Remains s.sniffCalc s.data (s.feedAll elems).data (stream elems) where
  crc32 hmode := by
    rw [data_feedAll_crc32 hmode]
    exact Crc.poly_foldl_update _ _ (by omega) _
  crc32r hmode := by
    rw [data_feedAll_crc32r hmode, Crc.foldl_updateRight _ _ (by omega), Crc.reverse_reverse]
    exact Crc.poly_foldl_update _ _ (by omega) _
  crc16 hmode hne := ⟨_, data_feedAll_crc16 hmode hne, Crc.poly_foldl_update _ _ (by omega) _⟩
  crc16r hmode hne := by
    refine ⟨_, data_feedAll_crc16r hmode hne, ?_⟩
    rw [Crc.foldl_updateRight _ _ (by omega), Crc.reverse_reverse]
    exact Crc.poly_foldl_update _ _ (by omega) _

/-- Over every run, with hooks nested to any depth, that leaves the sniffer's registers and the
configuration of the sniffed channel alone, the accumulator comes to hold the checksum, seeded with
what it held before, of the elements that the history of the channel shows it has moved in between,
each once and in order. -/
theorem checksum_of_history (h : s.Sniffed c size) {calls : ℕ → ℕ → Chip → List ChipCall} (n : ℕ)
    {xs : List ChipCall} (hcalls : ∀ fn ch s, ∀ x ∈ calls fn ch s, x.KeepsSum c)
    (hxs : ∀ x ∈ xs, x.KeepsSum c) :
    ∃ es, (s.run (.nested calls n) xs).dma.history c = s.dma.history c ++ es ∧
      Remains s.dma.sniff.sniffCalc s.dma.sniff.data (s.run (.nested calls n) xs).dma.sniff.data
        (stream (elements size es)) := by
  have hactions := actions_summed c size
  obtain ⟨es, hes, hfed⟩ := (hactions.run (hactions.nested hcalls n) hxs s h).fed
  simp only [DmaSniff.gear, Prod.mk.injEq] at hfed
  refine ⟨es, hes, ?_⟩
  rw [hfed.2.2.2]
  exact remains_feedAll _ _

end Chip
end PioSim

namespace PioSim.Chip

local instance listeningPlatform : Platform := ⟨.rp2350⟩

/-- The sniffer listens to channel 2, which has been triggered to copy two words. -/
def listening : Chip :=
  run Callback.idle ⟨World.initial, Dma.init [], fun a => BitVec.ofNat 8 a⟩
    [.channelConfigure 2 (DmaConfig.default 2) (.mem 64) (.mem 16) 2 true,
      .op (.channelSetCallback 2 (some 0)), .op (.snifferSetDataAccumulator 0xFFFFFFFF),
      .op (.snifferEnable 2 sniffCrc32 true)]

def rerun (_ ch : ℕ) (_ : Chip) : List ChipCall := [.startChannelMask (1#32 <<< ch)]

def threeTicks : List ChipCall := [.dmaTick, .poke 20 7, .dmaTick, .dmaTick]

theorem checksum_of_history_listening :
    ∃ es, (listening.run (.nested rerun 1) threeTicks).dma.history 2 =
      listening.dma.history 2 ++ es ∧
      Remains listening.dma.sniff.sniffCalc listening.dma.sniff.data
        (listening.run (.nested rerun 1) threeTicks).dma.sniff.data
          (stream (elements .size32 es)) := by
  have hsniffed : listening.Sniffed 2 .size32 :=
    ⟨by decide +kernel, by decide +kernel, by decide +kernel, by decide +kernel⟩
  have hcalls : ∀ fn ch s, ∀ x ∈ rerun fn ch s, x.KeepsSum 2 :=
    fun _ _ _ x hx => List.mem_singleton.mp hx ▸ trivial
  exact checksum_of_history hsniffed 1 hcalls (by simp [threeTicks, ChipCall.KeepsSum])

end PioSim.Chip
