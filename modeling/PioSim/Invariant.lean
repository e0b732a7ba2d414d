import PioSim.Ranges
import PioSim.Loading
import PioSim.Calls
import PioSim.DmaFrame

/-!
# The invariant of the whole interface

`World.Sound` collects what holds of every state machine and block at all times. Every call keeps
it, the DMA controller included, so no index or shift of the execution core ever leaves its range.
-/

namespace PioSim

variable [Platform]

/-! ### The directive configuration of a program -/

/-- `.in` and `.out`. -/
structure ShiftDirective where
  count : ℕ
  dir : ShiftDir
  autoshift : Bool
  threshold : ℕ

/-- The part of `pio_program_t` that `pio_asm_apply_program_config` uses; `clockDiv` is the divider
as `sm_config_set_clkdiv` encodes it. -/
structure ProgramConfig where
  clockDiv : Option (ℕ × ℕ)
  fifoJoin : Option FifoJoin
  movStatus : Option (StatusSel × ℕ)
  inCfg : Option ShiftDirective
  outCfg : Option ShiftDirective
  setCfg : Option ℕ

/-- A directive laid over a config, if it was given. -/
def SmConfig.overlay {α : Type} (c : SmConfig) (f : SmConfig → α → SmConfig)
    (d : Option α) : SmConfig :=
  d.elim c (f c)

/-- The config `pio_asm_apply_program_config` applies: the live one with the directives laid over
it. -/
def Sm.programConfig (s : Sm) (prog : ProgramConfig) : SmConfig :=
  let c := s.config.overlay (fun c d => c.setClkdivIntFrac d.1 d.2) prog.clockDiv
  let c := c.overlay SmConfig.setFifoJoin prog.fifoJoin
  let c := c.overlay (fun c d => c.setMovStatus d.1 d.2) prog.movStatus
  let c := c.overlay (fun c d =>
    let c := c.setInShift (d.dir == .right) d.autoshift d.threshold
    if hasInPinCount then c.setInPinCount d.count else c) prog.inCfg
  let c := c.overlay (fun c d =>
    (c.setOutShift (d.dir == .right) d.autoshift d.threshold).setOutPinCount d.count) prog.outCfg
  c.overlay SmConfig.setSetPinCount prog.setCfg

omit [Platform] in
theorem SmConfig.InRange.overlay {α : Type} {c : SmConfig} (h : c.InRange)
    {f : SmConfig → α → SmConfig} (hf : ∀ c d, c.InRange → (f c d).InRange) (d : Option α) :
    (c.overlay f d).InRange := by
  cases d with
  | none => exact h
  | some a => exact hf c a h

theorem Sm.InRange.programConfig {s : Sm} (h : s.InRange) (prog : ProgramConfig) :
    (s.programConfig prog).InRange := by
  refine (((((h.config.overlay ?_ _).overlay ?_ _).overlay ?_ _).overlay ?_ _).overlay ?_ _).overlay
    ?_ _
  · exact fun c d hc => { hc with }
  · exact fun c d hc => { hc with }
  · exact fun c d hc => { hc with }
  · intro c d hc
    have hshift := hc.setInShift (d.dir == .right) d.autoshift d.threshold
    dsimp only
    split
    · exact { hshift with }
    · exact hshift
  · exact fun c d hc => { hc.setOutShift (d.dir == .right) d.autoshift d.threshold with }
  · exact fun c d hc => { hc with }

/-! ### The interface -/

/-- A call of the public interface; `pio_asm_apply_program_config` is the one whose config depends
on the state. -/
inductive ApiCall
  | call (c : Call)
  | applyProgramConfig (b : BlockAddr) (sm : ℕ) (prog : ProgramConfig)

/-- Every config the call passes satisfies `P`. -/
def Call.Configures (P : SmConfig → Prop) : Call → Prop
  | .sm _ _ op => op.Configures P
  | .smInit _ _ _ c => P c
  | _ => True

namespace ApiCall

def Builds : ApiCall → Prop
  | .call c => c.Configures SmConfig.Built
  | .applyProgramConfig _ _ _ => True

/-- What the call amounts to in the present state. -/
def resolve (w : World) : ApiCall → Call
  | .call c => c
  | .applyProgramConfig b sm prog =>
    .sm b sm (.setConfig ((w.sm b (smIdx sm)).programConfig prog))

end ApiCall

namespace World

def apiStep (w : World) (e : ApiCall) : World := w.step (e.resolve w)

/-! ### Ranges along a run -/

def InRange (w : World) : Prop := ∀ b i, (w.sm b i).InRange

variable {w : World} {b : BlockAddr} {i : Fin 4}

theorem InRange.of_sm {w' : World} (h : w.InRange) (hsm : w'.sm = w.sm) : w'.InRange := by
  intro c j
  rw [hsm]
  exact h c j

theorem InRange.modifySm (h : w.InRange) {f : Sm → Sm} (hf : ∀ s, s.InRange → (f s).InRange) :
    (w.modifySm b i f).InRange := by
  intro c j
  by_cases he : (c, j) = (b, i)
  · obtain ⟨rfl, rfl⟩ := Prod.mk.inj he
    rw [sm_modifySm_self]
    exact hf _ (h c j)
  · rw [sm_modifySm_of_ne he]
    exact h c j

/-- An execution of one state machine leaves the others' records alone. -/
theorem InRange.of_local {w' : World} (h : w.InRange) (hl : Local b i w w')
    (hself : (w'.sm b i).InRange) : w'.InRange := by
  intro c j
  by_cases he : (c, j) = (b, i)
  · obtain ⟨rfl, rfl⟩ := Prod.mk.inj he
    exact hself
  · rw [hl.sm c j he]
    exact h c j

theorem InRange.resolvePads (h : w.InRange) : (w.resolvePads b).InRange :=
  h.of_sm (sm_resolvePads b)

theorem InRange.foldl {α : Type} {f : World → α → World} (hf : ∀ v a, InRange v → (f v a).InRange)
    (h : w.InRange) (l : List α) : (l.foldl f w).InRange :=
  List.foldlRecOn (motive := fun v : World => v.InRange) l f h fun v hv a _ => hf v a hv

theorem InRange.setSmMaskEnabled (h : w.InRange) (mask : BitVec 8) (enabled : Bool) :
    (w.setSmMaskEnabled b mask enabled).InRange := by
  refine (h.foldl (fun v j hv => ?_) _).resolvePads
  split
  · exact hv.modifySm fun _ hs => { hs with }
  · exact hv

theorem InRange.clkdivRestartSmMask (h : w.InRange) (mask : BitVec 8) :
    (w.clkdivRestartSmMask b mask).InRange := by
  refine h.foldl (fun v j hv => ?_) _
  split
  · exact hv.modifySm fun _ hs => { hs with }
  · exact hv

theorem InRange.openWindow (h : w.InRange) : (w.openWindow b).InRange :=
  h.foldl (fun _ _ hv => hv.modifySm fun _ hs => hs.setPins hs.pins.openWindow) _

theorem InRange.tickSms (h : w.InRange) : (w.tickSms b).InRange := by
  refine InRange.resolvePads (h.openWindow.foldl (fun v j hv => ?_) _)
  exact hv.of_local (smTick_local v b j) (inRange_smTick (hv b j))

theorem InRange.loadProgram (h : w.InRange) (offset : ℕ) (prog : PioProgram) :
    (w.loadProgram b i offset prog).InRange := by
  cases hok : prog.ok with
  | false => exact h.of_sm (by rw [World.loadProgram, w.load_of_not_ok b i offset hok]; rfl)
  | true =>
    by_cases hc : prog.count ≤ 32
    · cases hf : prog.fits offset with
      | false => exact h.of_sm (by rw [World.loadProgram, w.load_of_not_fits b i hc hf]; rfl)
      | true =>
        obtain ⟨hfit, hbottom, htop⟩ := (prog.fits_iff offset).mp hf
        rw [World.loadProgram, w.load_of_fits b i hok hf]
        have hload : (w.setBlock b ((w.blocks b).load offset (prog.image offset))).InRange :=
          h.of_sm (sm_load w b offset _)
        rw [Option.elim_some]
        have hstart : ∀ s : Sm, s.InRange → (s.startProgram offset prog).InRange := ?_
        · exact hload.modifySm hstart
        intro s hs
        have hb : u8 (offset + prog.wrapBottom) < 32 :=
          Nat.lt_of_le_of_lt (Nat.mod_le _ _) (by omega)
        have ht : u8 (offset + prog.wrapTop) < 32 := Nat.lt_of_le_of_lt (Nat.mod_le _ _) (by omega)
        exact { hs with pc := (by omega : offset < 32), wrapBottom := hb, wrapTop := ht }
    · exact h.of_sm (by rw [World.loadProgram, w.load_of_long b i offset hok (by omega)]; rfl)

/-- Every call keeps the ranges. -/
theorem InRange.step (h : w.InRange) {c : Call} (hc : c.Configures SmConfig.InRange) :
    (w.step c).InRange := by
  cases c with
  | sm b k op => exact h.modifySm fun _ hs => hs.apply hc
  | block b op => exact h.of_sm (sm_setBlock (BlockOp.sm_apply _ op))
  | pad b op => exact h.of_sm (sm_modifyPads b _)
  | init b =>
    intro c j
    rw [World.step, sm_pioSimInit]
    split
    · exact .initial
    · exact h c j
  | setEnabled b k enabled => exact InRange.resolvePads (h.modifySm fun _ hs => { hs with })
  | setSmMaskEnabled b mask enabled => exact h.setSmMaskEnabled mask enabled
  | clkdivRestartSmMask b mask => exact h.clkdivRestartSmMask mask
  | enableSmMaskInSync b mask => exact (h.setSmMaskEnabled mask true).clkdivRestartSmMask mask
  | setConsecutivePindirs b k base count isOut =>
    refine InRange.resolvePads (h.modifySm fun _ hs => hs.setPins ?_)
    exact hs.pins.foldl (fun _ _ hr => hr.drivePindir (w.physPin_lt b _) _) _
  | smInit b k pc cfg => exact h.modifySm fun _ hs => hs.init hc pc
  | smExec b k insn => exact h.of_local (smExec_local w b _ insn) (inRange_smExec (h b _) insn)
  | gpioSetFunction b pin f => exact h.of_sm (sm_modifyPads b _)
  | groupInit g blocks => exact h.of_sm (sm_groupInit w g blocks)
  | groupInitShared g blocks => exact h.of_sm (sm_groupInitShared w g blocks)
  | loadProgram b k offset prog => exact h.loadProgram offset prog
  | tickSms b => exact h.tickSms
  | tickEnd b => exact h.of_sm (sm_tickEnd w b)
  | groupOpen g => exact h.foldl (fun _ _ hv => hv.openWindow) _
  | groupEnd g =>
    rw [World.step, groupEnd]
    split
    · exact h.of_sm (sm_setPads _ _)
    · exact h

/-! ### Interrupt enables -/

/-- The INTE and INTF registers of a block. -/
def interrupts (w : World) (b : BlockAddr) : (Fin 2 → BitVec 32) × (Fin 2 → BitVec 32) :=
  ((w.blocks b).irqInte, (w.blocks b).irqIntf)

def InterruptsValid (w : World) : Prop :=
  ∀ b l, (w.blocks b).irqInte l &&& ~~~ Pio.intsValidMask = 0 ∧
    (w.blocks b).irqIntf l &&& ~~~ Pio.intsValidMask = 0

omit [Platform] in
theorem interrupts_setBlock {p : Pio} (hinte : p.irqInte = (w.blocks b).irqInte)
    (hintf : p.irqIntf = (w.blocks b).irqIntf) : (w.setBlock b p).interrupts = w.interrupts := by
  funext c
  by_cases hc : c = b
  · subst hc
    simp [interrupts, setBlock, hinte, hintf]
  · simp [interrupts, setBlock, Function.update_of_ne hc]

theorem InterruptsValid.congr {w' : World} (h : w.InterruptsValid)
    (he : w'.interrupts = w.interrupts) : w'.InterruptsValid := by
  intro c l
  have hc := congrFun he c
  simp only [interrupts, Prod.mk.injEq] at hc
  rw [hc.1, hc.2]
  exact h c l

omit [Platform] in
theorem interrupts_setSm (s : Sm) : (w.setSm b i s).interrupts = w.interrupts :=
  interrupts_setBlock rfl rfl

omit [Platform] in
theorem interrupts_setPads (r : PadRef) (p : Pads) : (w.setPads r p).interrupts = w.interrupts := by
  cases r with
  | embedded c => exact interrupts_setBlock rfl rfl
  | shared g => rfl

theorem InterruptsValid.setSm (h : w.InterruptsValid) (s : Sm) : (w.setSm b i s).InterruptsValid :=
  h.congr (interrupts_setSm s)

theorem InterruptsValid.modifySm (h : w.InterruptsValid) (f : Sm → Sm) :
    (w.modifySm b i f).InterruptsValid := h.setSm _

theorem InterruptsValid.setPads (h : w.InterruptsValid) (r : PadRef) (p : Pads) :
    (w.setPads r p).InterruptsValid := h.congr (interrupts_setPads r p)

theorem InterruptsValid.resolvePads (h : w.InterruptsValid) : (w.resolvePads b).InterruptsValid :=
  h.setPads _ _

theorem InterruptsValid.foldl {α : Type} {f : World → α → World}
    (hf : ∀ v a, InterruptsValid v → (f v a).InterruptsValid) (h : w.InterruptsValid) (l : List α) :
    (l.foldl f w).InterruptsValid :=
  List.foldlRecOn (motive := fun v : World => v.InterruptsValid) l f h fun v hv a _ => hf v a hv

theorem interruptsValid_closed (b : BlockAddr) (i : Fin 4) : Closed InterruptsValid b i where
  record _ s _ _ h := h.setSm s
  irq _ _ _ h := h.congr (interrupts_setBlock rfl rfl)
  fetch v h := by
    unfold countFetch
    split
    · exact h
    · exact h.congr (interrupts_setBlock rfl rfl)
  pins _ _ h := InterruptsValid.resolvePads (h.modifySm _)

theorem InterruptsValid.openWindow (h : w.InterruptsValid) : (w.openWindow b).InterruptsValid :=
  h.foldl (fun _ _ hv => hv.modifySm _) _

theorem InterruptsValid.tickSms (h : w.InterruptsValid) : (w.tickSms b).InterruptsValid := by
  refine InterruptsValid.resolvePads (h.openWindow.foldl (fun v j hv => ?_) _)
  exact smTick_closed (interruptsValid_closed b j) (fun _ hv' => hv'.modifySm _) hv

theorem InterruptsValid.setSmMaskEnabled (h : w.InterruptsValid) (mask : BitVec 8)
    (enabled : Bool) : (w.setSmMaskEnabled b mask enabled).InterruptsValid := by
  refine (h.foldl (fun v j hv => ?_) _).resolvePads
  split
  · exact hv.modifySm _
  · exact hv

theorem InterruptsValid.clkdivRestartSmMask (h : w.InterruptsValid) (mask : BitVec 8) :
    (w.clkdivRestartSmMask b mask).InterruptsValid := by
  refine h.foldl (fun v j hv => ?_) _
  split
  · exact hv.modifySm _
  · exact hv

omit [Platform] in
theorem and_not_of_masked {x m v : BitVec 32} (h : x &&& ~~~ v = 0) (on : Bool) :
    (if on then x ||| (m &&& v) else x &&& ~~~ (m &&& v)) &&& ~~~ v = 0 := by
  ext k hk
  have hx : (x &&& ~~~ v)[k] = false := by simp [h]
  simp only [BitVec.getElem_and, BitVec.getElem_not] at hx
  cases on with
  | true =>
    simp only [if_true, BitVec.getElem_and, BitVec.getElem_or, BitVec.getElem_not]
    cases hv : v[k] <;> simp_all
  | false =>
    simp only [Bool.false_eq_true, if_false, BitVec.getElem_and, BitVec.getElem_not]
    cases hv : v[k] <;> simp_all

theorem InterruptsValid.blockOp (h : w.InterruptsValid) (op : BlockOp) :
    (w.setBlock b (op.apply (w.blocks b))).InterruptsValid := by
  have hkeep : (op.apply (w.blocks b)).irqInte = (w.blocks b).irqInte →
      (op.apply (w.blocks b)).irqIntf = (w.blocks b).irqIntf →
      (w.setBlock b (op.apply (w.blocks b))).InterruptsValid :=
    fun he hf => h.congr (interrupts_setBlock he hf)
  have hwrite : ∀ p : Pio, (∀ l, p.irqInte l &&& ~~~ Pio.intsValidMask = 0 ∧
      p.irqIntf l &&& ~~~ Pio.intsValidMask = 0) → (w.setBlock b p).InterruptsValid := by
    intro p hp c l
    by_cases hc : c = b
    · subst hc
      simp only [setBlock, Function.update_self]
      exact hp l
    · simp only [setBlock, Function.update_of_ne hc]
      exact h c l
  cases op with
  | load offset insns =>
    have hload : (BlockOp.apply (w.blocks b) (.load offset insns)).irqInte = (w.blocks b).irqInte ∧
        (BlockOp.apply (w.blocks b) (.load offset insns)).irqIntf = (w.blocks b).irqIntf := by
      refine List.foldlRecOn (motive := fun q : Pio => q.irqInte = (w.blocks b).irqInte ∧
        q.irqIntf = (w.blocks b).irqIntf) _ _ ⟨rfl, rfl⟩ ?_
      intro q hq x _
      simp only
      split <;> exact hq
    exact hkeep hload.1 hload.2
  | setIrqnSourceMaskEnabled line mask enabled =>
    refine hwrite _ fun l => ⟨?_, (h b l).2⟩
    simp only [BlockOp.apply, Pio.setIrqnSourceMaskEnabled, Function.update_apply]
    split
    · exact and_not_of_masked (h b _).1 enabled
    · exact (h b l).1
  | setIntf line mask on =>
    refine hwrite _ fun l => ⟨(h b l).1, ?_⟩
    simp only [BlockOp.apply, Pio.setIntf, Function.update_apply]
    split
    · exact and_not_of_masked (h b _).2 on
    · exact (h b l).2
  | _ => exact hkeep rfl rfl

theorem InterruptsValid.init (h : w.InterruptsValid) : (w.pioSimInit b).InterruptsValid := by
  intro c l
  by_cases hc : c = b
  · subst hc
    simp [pioSimInit, setBlock, Pio.initial]
  · simp only [pioSimInit, setBlock, Function.update_of_ne hc]
    exact h c l

theorem InterruptsValid.groupInit (h : w.InterruptsValid) (g : GroupAddr)
    (blocks : List BlockAddr) :
    (w.groupInit g blocks).InterruptsValid := by
  have hgroup : (w.setGroup g { w.groups g with blk := blocks.take numPio, shared := false })
      |>.InterruptsValid := h
  unfold World.groupInit
  simp only
  split
  · refine hgroup.foldl (fun v k hv => ?_) _
    split
    · exact hv
    · exact hv.congr (interrupts_setBlock rfl rfl)
  · exact hgroup

theorem InterruptsValid.groupInitShared (h : w.InterruptsValid) (g : GroupAddr)
    (blocks : List BlockAddr) : (w.groupInitShared g blocks).InterruptsValid := by
  have hform : ((w.groupInit g blocks).setGroup g { (w.groupInit g blocks).groups g with
      shared := true, pads := Pads.initDefaults (blocks.take numPio) }).InterruptsValid :=
    h.groupInit g blocks
  have hjoin : ∀ (v : World) c, v.InterruptsValid →
      (v.setBlock c { v.blocks c with pads := .shared g }).InterruptsValid :=
    fun v c hv => hv.congr (interrupts_setBlock rfl rfl)
  exact InterruptsValid.foldl hjoin hform _

theorem InterruptsValid.tickEnd (h : w.InterruptsValid) : (w.tickEnd b).InterruptsValid := by
  unfold World.tickEnd
  simp only
  split
  · exact InterruptsValid.congr (h.setPads _ _) (interrupts_setBlock rfl rfl)
  · exact h.congr (interrupts_setBlock rfl rfl)

/-- Every call keeps the interrupt registers valid. -/
theorem InterruptsValid.step (h : w.InterruptsValid) (c : Call) : (w.step c).InterruptsValid := by
  cases c with
  | sm b k op => exact h.modifySm fun s => op.apply s
  | block b op => exact h.blockOp op
  | pad b op => exact h.setPads _ _
  | init b => exact h.init
  | setEnabled b k enabled => exact InterruptsValid.resolvePads (h.modifySm _)
  | setSmMaskEnabled b mask enabled => exact h.setSmMaskEnabled mask enabled
  | clkdivRestartSmMask b mask => exact h.clkdivRestartSmMask mask
  | enableSmMaskInSync b mask => exact (h.setSmMaskEnabled mask true).clkdivRestartSmMask mask
  | setConsecutivePindirs b k base count isOut => exact InterruptsValid.resolvePads (h.modifySm _)
  | smInit b k pc cfg => exact h.modifySm (·.init pc cfg)
  | smExec b k insn => exact smExec_closed (interruptsValid_closed b _) insn h
  | gpioSetFunction b pin f => exact h.setPads _ _
  | groupInit g blocks => exact h.groupInit g blocks
  | groupInitShared g blocks => exact h.groupInitShared g blocks
  | loadProgram b k offset prog =>
    rcases w.loadProgram_cases b (smIdx k) offset prog with he | ⟨words, -, he⟩
    · rw [World.step, he]
      exact h
    · rw [World.step, he]
      exact (h.blockOp (.load offset words)).modifySm _
  | tickSms b => exact h.tickSms
  | tickEnd b => exact h.tickEnd
  | groupOpen g => exact h.foldl (fun _ _ hv => hv.openWindow) _
  | groupEnd g =>
    rw [World.step, groupEnd]
    split
    · exact h.setPads _ _
    · exact h

/-! ### The invariant -/

/-- What holds of the whole memory at all times. -/
structure Sound (w : World) : Prop where
  inRange : w.InRange
  queues : ∀ b i, (w.sm b i).QueuesWf
  interrupts : w.InterruptsValid

theorem Sound.initial : Sound World.initial :=
  ⟨fun _ _ => .initial, fun _ _ => .initial, fun b l => by simp [World.initial, Pio.initial]⟩

theorem Sound.step (h : w.Sound) {c : Call} (hc : c.Configures SmConfig.InRange) :
    (w.step c).Sound :=
  ⟨h.inRange.step hc, fun b i => step_queuesWf (h.queues b i) c, h.interrupts.step c⟩

omit [Platform] in
theorem Call.Configures.mono {P Q : SmConfig → Prop} (hPQ : ∀ c, P c → Q c) {c : Call}
    (h : c.Configures P) : c.Configures Q := by
  cases c with
  | sm b k op =>
    cases op with
    | setConfig cfg => exact hPQ cfg h
    | _ => trivial
  | smInit b k pc cfg => exact hPQ cfg h
  | _ => trivial

theorem Sound.apiStep (h : w.Sound) {e : ApiCall} (he : e.Builds) : (w.apiStep e).Sound := by
  cases e with
  | call c => exact h.step (Call.Configures.mono (fun _ => SmConfig.Built.inRange) he)
  | applyProgramConfig b k prog =>
    exact h.step (c := .sm b k (.setConfig _)) ((h.inRange b (smIdx k)).programConfig prog)

end World

/-! ### With the DMA controller -/

/-- A call on the PIO blocks or one on the controller. -/
inductive SystemCall
  | api (e : ApiCall)
  | chip (e : ChipCall)

/-- Every config passed to a state machine is built by the mutators. -/
def SystemCall.Builds : SystemCall → Prop
  | .api e => e.Builds
  | .chip (.pio c) => c.Configures SmConfig.Built
  | .chip _ => True

/-- What the completion callbacks do to the blocks they do by calls of the interface. -/
def Callback.UsesApi (cb : Callback) : Prop :=
  ∀ fn ch s, ∃ es : List ApiCall, (∀ e ∈ es, e.Builds) ∧
    (cb fn ch s).world = es.foldl World.apiStep s.world

namespace Chip

variable {cb : Callback} {s : Chip}

def systemStep (cb : Callback) (s : Chip) : SystemCall → Chip
  | .api e => { s with world := s.world.apiStep e }
  | .chip e => s.step cb e

theorem sound_callback (hcb : cb.UsesApi) (h : s.world.Sound) (fn ch : ℕ) :
    (cb fn ch s).world.Sound := by
  obtain ⟨es, hes, he⟩ := hcb fn ch s
  rw [he]
  exact List.foldlRecOn (motive := fun v : World => v.Sound) es _ h
    fun v hv e hmem => hv.apiStep (hes e hmem)

theorem sound_raiseIrq (hcb : cb.UsesApi) (h : s.world.Sound) (ch : ℕ) :
    (s.raiseIrq cb ch).world.Sound := by
  unfold raiseIrq
  simp only
  split
  · exact h
  · refine sound_callback hcb ?_ _ _
    exact h

theorem sound_trigger (hcb : cb.UsesApi) (h : s.world.Sound) (c : ℕ) :
    (s.trigger cb c).world.Sound := by
  unfold trigger
  simp only
  split
  · split
    · refine sound_raiseIrq hcb ?_ c
      exact h
    · exact h
  · exact h

theorem sound_startChannelMask (hcb : cb.UsesApi) (h : s.world.Sound) (mask : BitVec 32) :
    (s.startChannelMask cb mask).world.Sound := by
  refine List.foldlRecOn (motive := fun t : Chip => t.world.Sound) _ _ h fun t ht c _ => ?_
  split
  · exact sound_trigger hcb ht c
  · exact ht

theorem sound_readElem (h : s.world.Sound) (a : DmaAddr) (bytes : ℕ) :
    (s.readElem a bytes).2.world.Sound := by
  unfold readElem
  split
  · exact h
  all_goals
    split
    · exact h
    · exact h.step (c := .sm _ _ .get) trivial

theorem sound_writeElem (h : s.world.Sound) (a : DmaAddr) (bytes : ℕ) (v : Word) :
    (s.writeElem a bytes v).world.Sound := by
  unfold writeElem
  split
  · exact h
  all_goals
    split
    · exact h
    · exact h.step (c := .sm _ _ (.put v)) trivial

theorem sound_moveElem (h : s.world.Sound) (c : ℕ) : (s.moveElem c).world.Sound := by
  have hread := sound_readElem h (s.dma.ch c).readAddr (elemBytes (s.dma.ch c).ctrl.dataSize)
  exact sound_writeElem (s := Chip.modifyDma _ _) hread _ _ _

theorem sound_complete (hcb : cb.UsesApi) (h : s.world.Sound) (c : ℕ) :
    (s.complete cb c).world.Sound := by
  have hraise : (if (s.dma.ch c).ctrl.irqQuiet then s else s.raiseIrq cb c).world.Sound := by
    split
    · exact h
    · exact sound_raiseIrq hcb h c
  unfold complete
  generalize (if (s.dma.ch c).ctrl.irqQuiet then s else s.raiseIrq cb c) = t at hraise ⊢
  simp only
  split
  · refine sound_startChannelMask hcb ?_ _
    exact hraise
  · exact hraise

theorem sound_transferOne (hcb : cb.UsesApi) (h : s.world.Sound) (c : ℕ) :
    (s.transferOne cb c).world.Sound := by
  have hpaced : ((s.moveElem c).consumeCredit (s.dma.ch c).ctrl.treqSel).world.Sound := by
    unfold consumeCredit
    split
    · exact sound_moveElem h c
    · exact sound_moveElem h c
  unfold transferOne
  simp only
  split
  · refine sound_complete hcb ?_ c
    exact hpaced
  · exact hpaced

/-- Every call of the interface and the controller keeps the invariant. -/
theorem sound_systemStep (hcb : cb.UsesApi) (h : s.world.Sound) {e : SystemCall} (he : e.Builds) :
    (s.systemStep cb e).world.Sound := by
  cases e with
  | api e => exact h.apiStep he
  | chip e =>
    cases e with
    | pio c => exact h.step (World.Call.Configures.mono (fun _ => SmConfig.Built.inRange) he)
    | poke p v => exact h
    | op o => exact h
    | startChannelMask mask => exact sound_startChannelMask hcb h mask
    | channelConfigure ch c writeAddr readAddr count trigger =>
      rw [systemStep, step, channelConfigure]
      split
      · refine sound_startChannelMask hcb ?_ _
        exact h
      · exact h
    | dmaTick =>
      rw [systemStep, step, dmaTick]
      split
      · exact h
      · refine sound_transferOne hcb ?_ _
        exact h

/-- Along every run of system calls from freshly initialised blocks. -/
theorem sound_run (hcb : cb.UsesApi) (hs : s.world = World.initial) {es : List SystemCall}
    (hes : ∀ e ∈ es, e.Builds) : (es.foldl (systemStep cb) s).world.Sound := by
  have hstart : s.world.Sound := by
    rw [hs]
    exact World.Sound.initial
  exact List.foldlRecOn (motive := fun t : Chip => t.world.Sound) es _ hstart
    fun t ht e hmem => sound_systemStep hcb ht (hes e hmem)

end Chip

/-! ### Indices and shifts -/

theorem resolveIrqTarget_lt (i : Fin 4) (field : ℕ) : (resolveIrqTarget i field).index < 8 := by
  have hbase : field &&& 0x7 < 8 := Nat.lt_of_le_of_lt Nat.and_le_right (by decide)
  have hrel : ((field &&& 0x7) &&& 0x4) ||| ((((field &&& 0x7) &&& 0x3) + i) &&& 0x3) < 2 ^ 3 :=
    Nat.or_lt_two_pow (Nat.lt_of_le_of_lt Nat.and_le_right (by decide))
      (Nat.lt_of_le_of_lt Nat.and_le_right (by decide))
  unfold resolveIrqTarget
  simp only
  split
  · split_ifs <;> assumption
  · split_ifs <;> assumption

section
omit [Platform]

theorem shiftCount_pos (operand : ℕ) : 0 < shiftCount operand := by
  unfold shiftCount
  split <;> omega

/-- The indices the execution core forms stay in their arrays, and the amounts it shifts by below
the width of what is shifted: the slot of the instruction and of the FIFOs, the pins of a window and
the bits of the value that go to them, the IRQ flags, the shifts of IN and OUT, the fields of the
delay and side-set bits, and the register of the RX FIFO. -/
structure World.IndicesInRange (w : World) (b : BlockAddr) (i : Fin 4) : Prop where
  insn : (Fin.ofNat 32 (w.sm b i).pc).val = (w.sm b i).pc
  slots : ∀ f, f = (w.sm b i).tx ∨ f = (w.sm b i).rx →
    (Fin.ofNat 8 f.head).val = f.head ∧ (Fin.ofNat 8 f.tail).val = f.tail
  pin : ∀ view, w.physPin b view < numPins
  numPins : numPins < 64
  window : ∀ count, ∀ k ∈ List.range (clampPinCount count), k < 32
  irq : ∀ field, (resolveIrqTarget i field).index < 8
  shift : ∀ operand, 0 < shiftCount operand ∧ shiftCount operand ≤ 32
  counts : ∀ operand, u8 ((w.sm b i).osrCount + shiftCount operand) =
    (w.sm b i).osrCount + shiftCount operand ∧ u8 ((w.sm b i).isrCount + shiftCount operand) =
    (w.sm b i).isrCount + shiftCount operand
  outEnSel : (w.sm b i).outEnSel < 32
  delayBits : (w.sm b i).sidesetTotal ≤ 5
  sideset : ∀ field, ((w.sm b i).decodeDelaySideset field).ssDataBits ≤ (w.sm b i).sidesetTotal
  register : ∀ operand : ℕ, (if operand.testBit 3 then operand % 4 else (w.sm b i).y.toNat % 4) < 4

theorem Fifo.Wf.head_lt {f : Fifo} (h : f.Wf) : f.head < 8 := by
  rw [h.head_eq]
  exact Nat.mod_lt _ (by decide)

theorem Sm.sidesetTotal_le (s : Sm) : s.sidesetTotal ≤ 5 := by
  unfold sidesetTotal
  split <;> omega

/-- Side-set has at most the bits set aside for it. -/
theorem Sm.ssDataBits_le (s : Sm) (field : ℕ) :
    (s.decodeDelaySideset field).ssDataBits ≤ s.sidesetTotal := by
  unfold decodeDelaySideset
  dsimp only
  split
  · dsimp only
    split
    · exact Nat.sub_le _ _
    · exact Nat.le_refl _
  · exact Nat.zero_le _

end

theorem World.Sound.indicesInRange {w : World} (h : w.Sound) (b : BlockAddr) (i : Fin 4) :
    w.IndicesInRange b i where
  insn := Nat.mod_eq_of_lt (h.inRange b i).pc
  slots f hf := by
    rcases hf with rfl | rfl
    · exact ⟨Nat.mod_eq_of_lt (h.queues b i).tx_wf.head_lt,
        Nat.mod_eq_of_lt (h.queues b i).tx_wf.tail_lt⟩
    · exact ⟨Nat.mod_eq_of_lt (h.queues b i).rx_wf.head_lt,
        Nat.mod_eq_of_lt (h.queues b i).rx_wf.tail_lt⟩
  pin := w.physPin_lt b
  numPins := Nat.lt_of_le_of_lt numPins_le (by decide)
  window count _ hk := Nat.lt_of_lt_of_le (List.mem_range.mp hk) (clampPinCount_le count)
  irq := resolveIrqTarget_lt i
  shift operand := ⟨shiftCount_pos operand, Sm.shiftCount_le operand⟩
  counts operand := by
    have hosr := (h.inRange b i).osrCount
    have hisr := (h.inRange b i).isrCount
    have hc := Sm.shiftCount_le operand
    exact ⟨Nat.mod_eq_of_lt (by omega), Nat.mod_eq_of_lt (by omega)⟩
  outEnSel := (h.inRange b i).outEnSel
  delayBits := (w.sm b i).sidesetTotal_le
  sideset := (w.sm b i).ssDataBits_le
  register operand := by split <;> omega

/-- In the register-file joins nothing is ever queued in RX. -/
theorem Sm.QueuesWf.rx_empty {s : Sm} (h : s.QueuesWf)
    (hj : s.fifoJoin = .rxPut ∨ s.fifoJoin = .rxGet ∨ s.fifoJoin = .rxPutget) : s.rx.count = 0 := by
  apply h.regfile_empty
  cases hv : hasRxfifoMov with
  | true => rcases hj with hj | hj | hj <;> simp [Sm.rxFifoIsRegisterFile, hv, hj]
  | false =>
    -- the RP2040 never takes such a join on
    have heff := h.join_eff
    rcases hj with hj | hj | hj <;> simp [hj, Sm.effectiveJoin, hv] at heff

/-- In every run of the public interface from `pio_sim_init`, with configs built by the mutators,
every state machine stays within its ranges. -/
theorem ranges_along_run {cb : Callback} (hcb : cb.UsesApi) {s : Chip}
    (hs : s.world = World.initial)
    {es : List SystemCall} (hes : ∀ e ∈ es, e.Builds) (b : BlockAddr) (i : Fin 4) :
    let w := (es.foldl (Chip.systemStep cb) s).world
    let t := w.sm b i
    (t.pc < 32 ∧ t.wrapBottom < 32 ∧ t.wrapTop < 32) ∧ (t.osrCount ≤ 32 ∧ t.isrCount ≤ 32) ∧
      (1 ≤ t.pullThresh ∧ t.pullThresh ≤ 32) ∧ (1 ≤ t.pushThresh ∧ t.pushThresh ≤ 32) ∧
      t.delay ≤ 31 ∧
      (∀ f, f = t.tx ∨ f = t.rx → f.head < 8 ∧ f.tail < 8 ∧ f.count ≤ f.cap ∧ f.cap ≤ 8 ∧
        f.head = (f.tail + f.count) % 8) ∧
      (t.tx.cap = Sm.txCapOf t.fifoJoin ∧ t.rx.cap = Sm.rxCapOf t.fifoJoin) ∧
      (t.fifoJoin = .rxPut ∨ t.fifoJoin = .rxGet ∨ t.fifoJoin = .rxPutget → t.rx.count = 0) ∧
      t.pins.Below numPins ∧
      (∀ l, (w.blocks b).irqInte l &&& ~~~ Pio.intsValidMask = 0 ∧
        (w.blocks b).irqIntf l &&& ~~~ Pio.intsValidMask = 0) ∧ w.IndicesInRange b i := by
  intro w t
  have h : w.Sound := Chip.sound_run hcb hs hes
  have hr : t.InRange := h.inRange b i
  have hq : t.QueuesWf := h.queues b i
  refine ⟨⟨hr.pc, hr.wrapBottom, hr.wrapTop⟩, ⟨hr.osrCount, hr.isrCount⟩,
    ⟨hr.pullThresh_pos, hr.pullThresh_le⟩, ⟨hr.pushThresh_pos, hr.pushThresh_le⟩, hr.delay, ?_,
    ⟨hq.tx_cap, hq.rx_cap⟩, hq.rx_empty, hr.pins, h.interrupts b, h.indicesInRange b i⟩
  rintro f (rfl | rfl)
  · exact ⟨hq.tx_wf.head_lt, hq.tx_wf.tail_lt, hq.tx_wf.count_le, hq.tx_wf.cap_le, hq.tx_wf.head_eq⟩
  · exact ⟨hq.rx_wf.head_lt, hq.rx_wf.tail_lt, hq.rx_wf.count_le, hq.rx_wf.cap_le, hq.rx_wf.head_eq⟩

theorem Callback.idle_usesApi : Callback.idle.UsesApi := fun _ _ _ =>
  ⟨[], fun _ he => absurd he List.not_mem_nil, rfl⟩

end PioSim

namespace PioSim

local instance : Platform := ⟨.rp2350⟩

/-- A start address past the memory and a threshold of 0, then a tick. -/
theorem ranges_along_run_init_at_forty :
    let es := [.api (.call (.smInit 0 0 40 (defaultSmConfig.setOutShift true true 0))),
      .api (.call (.setEnabled 0 0 true)), .chip (.pio (.tickSms 0)), .chip .dmaTick]
    let t := (es.foldl (Chip.systemStep Callback.idle)
      ⟨World.initial, Dma.init [some 0], fun _ => 0⟩).world.sm 0 0
    t.pc < 32 ∧ 1 ≤ t.pullThresh ∧ t.pullThresh ≤ 32 := by
  intro es t
  have hes : ∀ e ∈ es, e.Builds := by
    simp only [es, List.forall_mem_cons]
    exact ⟨.setOutShift _ _ _ .default, trivial, trivial, trivial, fun _ h => nomatch h⟩
  have h := ranges_along_run Callback.idle_usesApi
    (s := ⟨World.initial, Dma.init [some 0], fun _ => 0⟩)
    rfl hes 0 0
  exact ⟨h.1.1, h.2.2.1⟩

end PioSim
