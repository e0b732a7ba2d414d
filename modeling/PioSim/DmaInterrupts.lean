import PioSim.DmaRuns
import PioSim.Lib.Latch

/-!
# The interrupt lines of the controller

A channel raises its flag in `INTR` when it completes, and the flag stays until it is acknowledged.
A line sees the flags of the channels that were enabled on it last, and of those that were forced
last.
-/

namespace PioSim

variable [Platform]

namespace Dma

def getIntr (d : Dma) : BitVec 32 := d.intr

def getInte (d : Dma) (line : ℕ) : BitVec 32 := d.inte (lineIdx line)

def getIntf (d : Dma) (line : ℕ) : BitVec 32 := d.intf (lineIdx line)

def irqnGetChannelStatus (d : Dma) (line ch : ℕ) : Bool := d.ints line &&& (1#32 <<< chIdx ch) != 0

def irqnSetChannelEnabled (d : Dma) (line ch : ℕ) (enabled : Bool) : Dma :=
  d.irqnSetChannelMaskEnabled line (1#32 <<< chIdx ch) enabled

/-- `INTE` of a line, or `INTF` with `forced`. -/
def lineRegister (forced : Bool) (l : ℕ) (d : Dma) : BitVec 32 :=
  if forced then d.intf l else d.inte l

end Dma

namespace ChipCall

def KeepsFlag (k : ℕ) : ChipCall → Prop
  | .op (.irqnAcknowledgeChannel ch) => chIdx ch ≠ k
  | _ => True

def KeepsLines : ChipCall → Prop
  | .op (.irqnSetChannelMaskEnabled ..) | .op (.irqnForceChannel ..) => False
  | _ => True

/-- What a call writes to `INTE` of a line, or to `INTF` with `forced`. -/
def lineWrite (forced : Bool) (l : ℕ) : ChipCall → Option (Latch.Write 32)
  | .op (.irqnSetChannelMaskEnabled line mask enabled) =>
    if forced = false ∧ lineIdx line = l then some ⟨mask &&& Dma.chValidMask, enabled⟩ else none
  | .op (.irqnForceChannel line ch on) =>
    if forced = true ∧ lineIdx line = l then some ⟨1#32 <<< chIdx ch, on⟩ else none
  | _ => none

end ChipCall

namespace Chip

variable {s t u : Chip} {k : ℕ}

/-! ### The flags -/

/-- From `s` to `t` the flag of channel `k` has been raised by its completions only. -/
def Flags (k : ℕ) (s t : Chip) : Prop := ∃ es, t.dma.log = s.dma.log ++ es ∧
  t.dma.intr.getLsbD k = (s.dma.intr.getLsbD k || decide (.raised k ∈ es))

section
omit [Platform]

theorem Flags.trans (h : Flags k s t) (h' : Flags k t u) : Flags k s u := by
  obtain ⟨es, hes, hflag⟩ := h
  obtain ⟨fs, hfs, hflag'⟩ := h'
  refine ⟨es ++ fs, by rw [hfs, hes, List.append_assoc], ?_⟩
  rw [hflag', hflag, Bool.or_assoc, ← Bool.decide_or]
  simp only [List.mem_append]

/-- A change that neither raises nor acknowledges. -/
theorem flags_of_quiet (es : List DmaEvent) (hlog : t.dma.log = s.dma.log ++ es)
    (hes : .raised k ∉ es)
    (hintr : t.dma.intr = s.dma.intr) : Flags k s t :=
  ⟨es, hlog, by rw [hintr, decide_eq_false hes, Bool.or_false]⟩

theorem flags_of_same (hlog : t.dma.log = s.dma.log) (hintr : t.dma.intr = s.dma.intr) :
    Flags k s t :=
  flags_of_quiet [] (by rw [hlog, List.append_nil]) List.not_mem_nil hintr

theorem Flags.refl (s : Chip) : Flags k s s := flags_of_same rfl rfl

end

theorem flags_flagged (s : Chip) (c : ℕ) : Flags k s (s.flagged c) := by
  refine ⟨[.raised (chIdx c)], rfl, ?_⟩
  have hbit : (1#32 <<< chIdx c).getLsbD k = decide (k = chIdx c) := by
    have hlt := chIdx_lt c
    have hle := dmaNumChannels_le
    by_cases hk : k = chIdx c
    · subst hk
      simp
      omega
    · rw [getLsbD_bit_of_ne (Ne.symm hk), decide_eq_false hk]
  have hintr : (s.flagged c).dma.intr = s.dma.intr ||| (1#32 <<< chIdx c) := rfl
  rw [hintr, BitVec.getLsbD_or, hbit]
  simp

theorem flags_moved (s : Chip) (c : ℕ) : Flags k s (s.moved c) := by
  obtain ⟨tm, htm⟩ := moved_eq s c
  refine flags_of_quiet [.moved c (s.dma.ch c).readAddr (s.dma.ch c).writeAddr (s.moveValue c)]
    ?_ (by simp) ?_
  · rw [htm]
  · rw [htm]

theorem flags_op {o : DmaOp} (ho : (ChipCall.op o).KeepsFlag k) :
    Flags k s (s.modifyDma fun d => o.apply d) := by
  cases o with
  | channelAbortMask mask =>
    refine List.foldlRecOn (motive := fun d => Flags k s { s with dma := d }) _ _ (.refl s)
      fun d hd x _ => ?_
    split
    · exact hd.trans (flags_of_same rfl rfl)
    · exact hd
  | snifferEnable ch mode force => cases force <;> exact flags_of_same rfl rfl
  | irqnAcknowledgeChannel ch =>
    refine ⟨[], (List.append_nil _).symm, ?_⟩
    have hkept : (s.dma.intr &&& ~~~ (1#32 <<< chIdx ch)).getLsbD k = s.dma.intr.getLsbD k := by
      rw [BitVec.getLsbD_and, BitVec.getLsbD_not, getLsbD_bit_of_ne ho]
      by_cases hk : k < 32
      · simp [hk]
      · rw [BitVec.getLsbD_of_ge s.dma.intr k (Nat.le_of_not_lt hk), Bool.false_and]
    rw [decide_eq_false List.not_mem_nil, Bool.or_false]
    exact hkept
  | _ => exact flags_of_same rfl rfl

theorem actions_flags (k : ℕ) : Actions (ChipCall.KeepsFlag k) (Flags k) where
  refl s := .refl s
  trans h h' := h.trans h'
  pio _ _ _ := flags_of_same rfl rfl
  mem _ _ := flags_of_same rfl rfl
  op _ _ ho := flags_op ho
  configured _ _ _ _ _ _ _ _ := flags_of_same rfl rfl
  clocked s _ := by
    obtain ⟨tm, htm⟩ := timersTick_eq s.dma
    unfold clocked modifyDma
    rw [htm]
    exact flags_of_same rfl rfl
  seat _ _ _ := flags_of_same rfl rfl
  armed _ c _ _ := flags_of_quiet [.triggered c] rfl (by simp) rfl
  null _ c _ := flags_of_quiet [.triggered c] rfl (by simp) rfl
  nullRaised s c _ :=
    (flags_of_quiet (t := s.modifyDma (·.record (.triggered c))) [.triggered c] rfl
    (by simp) rfl).trans
    (flags_flagged _ c)
  moved s c _ _ _ := flags_moved s c
  finished s c _ _ _ _ := (flags_moved s c).trans (flags_flagged _ c)
  chained _ c target _ := flags_of_quiet [.chained c target] rfl (by simp) rfl

/-! ### The lines -/

def SameLines (s t : Chip) : Prop := t.dma.inte = s.dma.inte ∧ t.dma.intf = s.dma.intf

theorem sameLines_op {o : DmaOp} (ho : (ChipCall.op o).KeepsLines) :
    SameLines s (s.modifyDma fun d => o.apply d) := by
  cases o with
  | channelAbortMask mask =>
    refine List.foldlRecOn (motive := fun d : Dma => d.inte = s.dma.inte ∧ d.intf = s.dma.intf)
      _ _ ⟨rfl, rfl⟩
      fun d hd x _ => ?_
    split
    · exact hd
    · exact hd
  | snifferEnable ch mode force => cases force <;> exact ⟨rfl, rfl⟩
  | irqnSetChannelMaskEnabled | irqnForceChannel => exact ho.elim
  | _ => exact ⟨rfl, rfl⟩

theorem actions_sameLines : Actions ChipCall.KeepsLines SameLines where
  refl _ := ⟨rfl, rfl⟩
  trans h h' := ⟨h'.1.trans h.1, h'.2.trans h.2⟩
  pio _ _ _ := ⟨rfl, rfl⟩
  mem _ _ := ⟨rfl, rfl⟩
  op _ _ ho := sameLines_op ho
  configured _ _ _ _ _ _ _ _ := ⟨rfl, rfl⟩
  clocked s _ := by
    obtain ⟨tm, htm⟩ := timersTick_eq s.dma
    unfold clocked modifyDma
    rw [htm]
    exact ⟨rfl, rfl⟩
  seat _ _ _ := ⟨rfl, rfl⟩
  armed _ _ _ _ := ⟨rfl, rfl⟩
  null _ _ _ := ⟨rfl, rfl⟩
  nullRaised _ _ _ := ⟨rfl, rfl⟩
  moved s c _ _ _ := by
    obtain ⟨tm, htm⟩ := moved_eq s c
    rw [htm]
    exact ⟨rfl, rfl⟩
  finished s c _ _ _ _ := by
    obtain ⟨tm, htm⟩ := moved_eq s c
    rw [htm]
    exact ⟨rfl, rfl⟩
  chained _ _ _ _ := ⟨rfl, rfl⟩

/-- The registers of a line are reached by their own writes only. -/
theorem port_dmaLine {cb : Callback} (hcb : ∀ fn ch s, SameLines s (cb fn ch s))
    (forced : Bool) (l : ℕ) :
    Latch.Port (Chip.step cb) (fun s => s.dma.lineRegister forced l)
    (ChipCall.lineWrite forced l) := by
  intro s x
  by_cases hx : x.KeepsLines
  · obtain ⟨hinte, hintf⟩ := actions_sameLines.step hcb s hx
    have hnone : x.lineWrite forced l = none := by
      unfold ChipCall.KeepsLines at hx
      unfold ChipCall.lineWrite
      split at hx <;> simp_all
    dsimp only
    rw [hnone, Dma.lineRegister, hinte, hintf]
    rfl
  · unfold ChipCall.KeepsLines at hx
    split at hx
    · rename_i line mask enabled
      by_cases hl : lineIdx line = l <;> cases forced <;>
        simp [Chip.step, modifyDma, DmaOp.apply, Dma.irqnSetChannelMaskEnabled, Dma.lineRegister,
          ChipCall.lineWrite, Latch.Write.apply, hl, eq_comm (a := l)]
    · rename_i line ch on
      by_cases hl : lineIdx line = l <;> cases forced <;>
        simp [Chip.step, modifyDma, DmaOp.apply, Dma.irqnForceChannel, Dma.lineRegister,
          ChipCall.lineWrite, Latch.Write.apply, hl, eq_comm (a := l)]
    · exact absurd trivial hx

/-- An acknowledged flag is down. -/
theorem intr_acknowledged (cb : Callback) (s : Chip) (ch : ℕ) :
    (s.step cb (.op (.irqnAcknowledgeChannel ch))).dma.intr.getLsbD (chIdx ch) = false := by
  have hlt := chIdx_lt ch
  have hle := dmaNumChannels_le
  have hbit : (1#32 <<< chIdx ch).getLsbD (chIdx ch) = true := by
    simp
    omega
  have hintr : (s.step cb (.op (.irqnAcknowledgeChannel ch))).dma.intr =
    s.dma.intr &&& ~~~ (1#32 <<< chIdx ch) := rfl
  rw [hintr, BitVec.getLsbD_and, BitVec.getLsbD_not, hbit, Bool.not_true, Bool.and_false,
    Bool.and_false]

/-- A channel asserts a line exactly if it has completed with an interrupt since it was last
acknowledged and was enabled by the last write that named it, or was forced by the last write that
named it. In between the host may call anything, and its hooks anything that neither acknowledges
the channel nor writes the lines. -/
theorem dma_line_tells (w : World) (m : LittleEndian.Memory) (pios : List (Option BlockAddr))
    (calls : ℕ → ℕ → Chip → List ChipCall) (n : ℕ) {before after : List ChipCall} (line k : ℕ)
    (hcalls : ∀ fn ch s, ∀ x ∈ calls fn ch s, x.KeepsFlag k ∧ x.KeepsLines)
    (hacked : before = [] ∨ ∃ pre ch, before = pre ++ [.op (.irqnAcknowledgeChannel ch)] ∧
      chIdx ch = k)
    (hafter : ∀ x ∈ after, x.KeepsFlag k) :
    let s := (⟨w, .init pios, m⟩ : Chip).run (.nested calls n) before
    let t := s.run (.nested calls n) after
    (t.dma.ints line).getLsbD k = true ↔
      (.raised k ∈ t.dma.log.drop s.dma.log.length ∧
        Latch.last k ((before ++ after).filterMap (ChipCall.lineWrite false (lineIdx line))) false =
          true) ∨
      Latch.last k ((before ++ after).filterMap (ChipCall.lineWrite true (lineIdx line))) false =
          true := by
  intro s t
  have hflag : ∀ fn ch u, Flags k u (Callback.nested calls n fn ch u) :=
    (actions_flags k).nested (fun fn ch u x hx => (hcalls fn ch u x hx).1) n
  have hlines : ∀ fn ch u, SameLines u (Callback.nested calls n fn ch u) :=
    actions_sameLines.nested (fun fn ch u x hx => (hcalls fn ch u x hx).2) n
  have hdown : s.dma.intr.getLsbD k = false := by
    rcases hacked with rfl | ⟨pre, ch, rfl, rfl⟩
    · exact BitVec.getLsbD_zero
    · have hlast : s = ((⟨w, .init pios, m⟩ : Chip).run (.nested calls n) pre).step
        (.nested calls n)
          (.op (.irqnAcknowledgeChannel ch)) := List.foldl_append
      rw [hlast]
      exact intr_acknowledged _ _ ch
  obtain ⟨es, hes, hraised⟩ := (actions_flags k).run hflag hafter s
  rw [hdown, Bool.false_or] at hraised
  have hrun : t = (⟨w, .init pios, m⟩ : Chip).run (.nested calls n) (before ++ after) :=
    List.foldl_append.symm
  have hregister : ∀ forced, (t.dma.lineRegister forced (lineIdx line)).getLsbD k =
      Latch.last k ((before ++ after).filterMap (ChipCall.lineWrite forced (lineIdx line)))
          false := by
    intro forced
    have hlast := (port_dmaLine hlines forced (lineIdx line)).run ⟨w, .init pios, m⟩
      (before ++ after) k
    have hzero : ((Dma.init pios).lineRegister forced (lineIdx line)).getLsbD k = false := by
      cases forced <;> exact BitVec.getLsbD_zero
    rw [hzero] at hlast
    rw [hrun]
    exact hlast
  have hints : (t.dma.ints line).getLsbD k = (t.dma.intr.getLsbD k &&
      (t.dma.lineRegister false (lineIdx line)).getLsbD k ||
          (t.dma.lineRegister true (lineIdx line)).getLsbD k) := by
    unfold Dma.ints
    rw [BitVec.getLsbD_or, BitVec.getLsbD_and]
    rfl
  have hnew : t.dma.log.drop s.dma.log.length = es := by
    rw [show t.dma.log = s.dma.log ++ es from hes, List.drop_left]
  rw [hints, hregister, hregister, hnew,
    show t.dma.intr.getLsbD k = decide (.raised k ∈ es) from hraised,
    Bool.or_eq_true, Bool.and_eq_true, decide_eq_true_iff]

end Chip
end PioSim

namespace PioSim.Chip

local instance linesPlatform : Platform := ⟨.rp2350⟩

/-- Channel 1 has been enabled on line 0 and acknowledged, and is then run. -/
def acknowledged : List ChipCall :=
  [.op (.irqnSetChannelMaskEnabled 0 2 true), .op (.irqnAcknowledgeChannel 1)]

def runOnce : List ChipCall :=
  [.channelConfigure 1 (.default 1) (.mem 64) (.mem 16) 1 true, .dmaTick,
    .op (.irqnAcknowledgeChannel 2)]

def startNext (_ _ : ℕ) (_ : Chip) : List ChipCall := [.startChannelMask 4]

theorem dma_line_tells_acknowledged :
    let s := (⟨World.initial, .init [], fun _ => 0⟩ : Chip).run (.nested startNext 2) acknowledged
    let t := s.run (.nested startNext 2) runOnce
    (t.dma.ints 0).getLsbD 1 = true ↔
      (.raised 1 ∈ t.dma.log.drop s.dma.log.length ∧
        Latch.last 1 ((acknowledged ++ runOnce).filterMap (ChipCall.lineWrite false (lineIdx 0)))
          false = true) ∨
      Latch.last 1 ((acknowledged ++ runOnce).filterMap (ChipCall.lineWrite true (lineIdx 0)))
          false = true := by
  refine dma_line_tells World.initial (fun _ => 0) [] startNext 2 0 1 ?_ ?_ ?_
  · exact fun _ _ _ x hx => List.mem_singleton.mp hx ▸ ⟨trivial, trivial⟩
  · exact .inr ⟨[.op (.irqnSetChannelMaskEnabled 0 2 true)], 1, rfl, by decide⟩
  · simp [runOnce, ChipCall.KeepsFlag, show chIdx 2 = 2 by decide]

end PioSim.Chip
