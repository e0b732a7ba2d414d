import PioSim.Host
import Mathlib.Logic.Relation

/-!
# What one instruction can do

Every property of a run is proved from these lemmas rather than from the handlers. `Sm.Effect` lists
the updates an instruction makes to its state machine's record outside the pin registers, `RegStep`
adds the IRQ flags, and `execInsn_shape` says that a handler is a chain of such steps followed by at
most one write of the pin registers. `Local` is the frame: everything outside one state machine, its
pad set and the IRQ flags stays as it was.
-/

namespace PioSim

open Relation

/-- The configuration a state machine runs under, as a config value. -/
def Sm.config (s : Sm) : SmConfig where
  outBase := s.outBase
  outCount := s.outCount
  setBase := s.setBase
  setCount := s.setCount
  inBase := s.inBase
  inCount := s.inCount
  sidesetBase := s.sidesetBase
  sidesetTotalBits := s.sidesetTotalBits
  sidesetOpt := s.sidesetOpt
  sidesetPindirs := s.sidesetPindirs
  jmpPin := s.jmpPin
  outDir := s.outDir
  inDir := s.inDir
  autopull := s.autopull
  autopush := s.autopush
  pullThresh := s.pullThresh
  pushThresh := s.pushThresh
  clkdivInt := s.clkdivInt
  clkdivFrac := s.clkdivFrac
  wrapBottom := s.wrapBottom
  wrapTop := s.wrapTop
  fifoJoin := s.fifoJoin
  statusSel := s.statusSel
  statusN := s.statusN
  outSticky := s.outSticky
  outInlineEn := s.outInlineEn
  outEnSel := s.outEnSel

/-- The fields no instruction writes: configuration, enable bit and the bookkeeping of
`sm_cycle`. -/
def Sm.control (s : Sm) : SmConfig × Bool × ℕ × ℕ × Bool × ℕ :=
  (s.config, s.enabled, s.pc, s.delay, s.stalled, s.clkAccum)

section Effect
variable [Platform]

/-- One update of a state machine's record by an instruction, outside the pin registers. -/
inductive Sm.Effect (s : Sm) : Sm → Prop
  | regs (x y osr isr : Word) (osrCount isrCount : ℕ) (fdebug : BitVec 8) :
    Effect s { s with
      x := x, y := y, osr := osr, isr := isr, osrCount := osrCount, isrCount := isrCount
      fdebug := fdebug }
  | refill (s' : Sm) : s.osrRefill = some s' → Effect s s'
  | drain (s' : Sm) : s.pushBlocked = false → s.isrDrain = some s' → Effect s s'
  | slot (idx : Fin 8) (v : Word) : s.rxFifoIsRegisterFile = true →
    Effect s { s with rx := { s.rx with buf := Function.update s.rx.buf idx v } }
  | inject (v : Insn) : Effect s { s with execPending := true, execInsn := v }

omit [Platform] in
theorem Sm.osrRefill_eq_some {s s' : Sm} (h : s.osrRefill = some s') :
    ∃ v tx, s.tx.pop = some (v, tx) ∧
      s' = { s with tx := tx, osr := v, osrCount := 0, pulled := s.pulled ++ [v] } := by
  unfold osrRefill at h
  split at h
  · cases h
  · rename_i v tx hp
    exact ⟨v, tx, hp, (Option.some.inj h).symm⟩

omit [Platform] in
theorem Sm.isrDrain_eq_some {s s' : Sm} (h : s.isrDrain = some s') :
    ∃ rx, s.rx.push s.isr = some rx ∧
      s' = { s with rx := rx, isr := 0, isrCount := 0, pushed := s.pushed ++ [s.isr] } := by
  unfold isrDrain at h
  split at h
  · cases h
  · rename_i rx hp
    exact ⟨rx, hp, (Option.some.inj h).symm⟩

theorem Sm.Effect.keeps {s s' : Sm} (h : s.Effect s') :
    s'.control = s.control ∧ s'.pins = s.pins := by
  cases h with
  | regs => exact ⟨rfl, rfl⟩
  | refill _ h =>
    obtain ⟨v, tx, -, rfl⟩ := Sm.osrRefill_eq_some h
    exact ⟨rfl, rfl⟩
  | drain _ _ h =>
    obtain ⟨rx, -, rfl⟩ := Sm.isrDrain_eq_some h
    exact ⟨rfl, rfl⟩
  | slot => exact ⟨rfl, rfl⟩
  | inject => exact ⟨rfl, rfl⟩

abbrev Sm.Effects : Sm → Sm → Prop := ReflTransGen Sm.Effect

theorem Sm.Effects.keeps {s s' : Sm} (h : s.Effects s') :
    s'.control = s.control ∧ s'.pins = s.pins := by
  induction h with
  | refl => exact ⟨rfl, rfl⟩
  | tail _ hs ih => exact ⟨hs.keeps.1.trans ih.1, hs.keeps.2.trans ih.2⟩

/-! ### The handlers on one record -/

omit [Platform] in
theorem Sm.execJmp_eq (s : Sm) (pin : Bool) (operand : ℕ) :
    ∃ (x y : Word) (taken : Bool), s.execJmp pin operand =
      ({ s with x := x, y := y }, if taken then some (operand % 32) else none) := by
  unfold execJmp
  generalize operand / 32 % 8 = cond
  match cond with
  | 0 => exact ⟨_, _, _, rfl⟩
  | 1 => exact ⟨_, _, _, rfl⟩
  | 2 => exact ⟨_, _, _, rfl⟩
  | 3 => exact ⟨_, _, _, rfl⟩
  | 4 => exact ⟨_, _, _, rfl⟩
  | 5 => exact ⟨_, _, _, rfl⟩
  | 6 => exact ⟨_, _, _, rfl⟩
  | _ + 7 => exact ⟨_, _, _, rfl⟩

theorem Sm.execJmp_effect (s : Sm) (pin : Bool) (operand : ℕ) :
    s.Effect (s.execJmp pin operand).1 := by
  obtain ⟨x, y, taken, he⟩ := s.execJmp_eq pin operand
  rw [he]
  exact .regs _ _ _ _ _ _ _

theorem Sm.outShift_effect (s : Sm) (count : ℕ) : s.Effect (s.outShift count) :=
  .regs _ _ _ _ _ _ _

theorem Sm.refill_effects (s : Sm) : s.Effects (s.osrRefill.getD s) := by
  cases h : s.osrRefill with
  | none => exact .refl
  | some s' => exact .single (.refill s' h)

omit [Platform] in
theorem Sm.backgroundAutopull_eq (s : Sm) : s.backgroundAutopull = s ∨ ∃ v tx,
    s.backgroundAutopull =
      { s with tx := tx, osr := v, osrCount := 0, pulled := s.pulled ++ [v] } := by
  unfold Sm.backgroundAutopull
  split
  · cases h : s.osrRefill with
    | none => exact .inl rfl
    | some s' =>
      obtain ⟨v, tx, -, rfl⟩ := Sm.osrRefill_eq_some h
      exact .inr ⟨v, tx, rfl⟩
  · exact .inl rfl

omit [Platform] in
theorem Sm.backgroundAutopull_fields (s : Sm) :
    s.backgroundAutopull.execPending = s.execPending ∧
      s.backgroundAutopull.execInsn = s.execInsn ∧ s.backgroundAutopull.pc = s.pc ∧
      s.backgroundAutopull.delay = s.delay ∧
      s.backgroundAutopull.decodeDelaySideset = s.decodeDelaySideset := by
  rcases s.backgroundAutopull_eq with h | ⟨v, tx, h⟩ <;> rw [h] <;>
    exact ⟨rfl, rfl, rfl, rfl, rfl⟩

theorem Sm.drain_effects {s : Sm} (hb : s.pushBlocked = false) :
    s.Effects (s.isrDrain.getD s) := by
  cases h : s.isrDrain with
  | none => exact .refl
  | some s' => exact .single (.drain s' hb h)

theorem Sm.inShift_effect (s : Sm) (src : Word) (count : ℕ) : s.Effect (s.inShift src count) :=
  .regs _ _ _ _ _ _ _

omit [Platform] in
theorem Sm.inShift_isrCount_le (s : Sm) (src : Word) (count : ℕ) :
    (s.inShift src count).isrCount ≤ s.isrCount + count := by
  have hmod := Nat.mod_le (s.isrCount + count) 256
  have hcount : (s.inShift src count).isrCount =
      if 32 < (s.isrCount + count) % 256 then 32 else (s.isrCount + count) % 256 := rfl
  rw [hcount]
  split <;> omega

theorem Sm.execIn_effects (s : Sm) (src : Word) (count : ℕ) :
    s.Effects (s.execIn src count).1 := by
  unfold execIn
  simp only
  split
  · exact .single (.regs _ _ _ _ _ _ _)
  · rename_i hopen
    refine .trans (.single (s.inShift_effect src count)) ?_
    split
    · rename_i hdrain
      -- the drain is reached only past the stall test, so the push is not blocked
      apply Sm.drain_effects
      have hcount := s.inShift_isrCount_le src count
      simp only [Bool.and_eq_true, decide_eq_true_eq, not_and, Bool.not_eq_true, and_imp]
        at hopen hdrain
      exact hopen hdrain.1 (Nat.le_trans hdrain.2 hcount)
    · exact .refl

theorem Sm.execPushpull_effects (s : Sm) (operand : ℕ) :
    s.Effects (s.execPushpull operand).1 := by
  unfold execPushpull
  simp only
  split_ifs with h1 h2 h3 h4 h5 h6 h7
  any_goals exact .refl
  any_goals exact .single (.regs _ _ _ _ _ _ _)
  · exact Sm.drain_effects (by simpa using h3)
  · exact Sm.refill_effects s

theorem Sm.execMovRxfifo_effects (s : Sm) (operand : ℕ) (hv : hasRxfifoMov = true) :
    s.Effects (s.execMovRxfifo operand) := by
  unfold execMovRxfifo
  simp only
  split
  · split
    · exact .single (.regs _ _ _ _ _ _ _)
    · exact .refl
  · split
    · rename_i hput
      have hreg : s.rxFifoIsRegisterFile = true := by
        simp only [rxFifoIsRegisterFile, hv, Bool.true_and]
        rcases hput with h | h <;> simp [h]
      exact .tail (.single (.slot _ s.isr hreg)) (.regs _ _ _ _ _ _ _)
    · exact .refl

end Effect

namespace World
variable [Platform]

/-! ### The frame -/

/-- `w'` differs from `w` at most in state machine `(b, i)`, its pad set, IRQ flags and counters. -/
structure Local (b : BlockAddr) (i : Fin 4) (w w' : World) : Prop where
  sm : ∀ b' i', (b', i') ≠ (b, i) → w'.sm b' i' = w.sm b' i'
  shell : w'.shell = w.shell
  padRef : w'.padRef = w.padRef
  pads : ∀ r, r ≠ w.padRef b → w'.padsAt r = w.padsAt r

variable {w w' w'' : World} {b : BlockAddr} {i : Fin 4}

section
omit [Platform]

theorem Local.refl (w : World) (b : BlockAddr) (i : Fin 4) : Local b i w w :=
  ⟨fun _ _ _ => rfl, rfl, rfl, fun _ _ => rfl⟩

theorem Local.trans (h : Local b i w w') (h' : Local b i w' w'') : Local b i w w'' where
  sm b' i' hne := (h'.sm b' i' hne).trans (h.sm b' i' hne)
  shell := h'.shell.trans h.shell
  padRef := h'.padRef.trans h.padRef
  pads r hr := (h'.pads r (by rw [h.padRef]; exact hr)).trans (h.pads r hr)

theorem local_setSm (s : Sm) : Local b i w (w.setSm b i s) :=
  ⟨fun _ _ h => sm_setSm_of_ne h s, shell_setSm b i s, padRef_setSm b i s,
    fun r _ => congrFun (padsAt_setSm b i s) r⟩

theorem local_modifySm (f : Sm → Sm) : Local b i w (w.modifySm b i f) := local_setSm _

theorem local_modifyPads (f : Pads → Pads) : Local b i w (w.modifyPads b f) :=
  ⟨fun b' i' _ => congrFun (congrFun (sm_modifyPads b f) b') i', shell_modifyPads b f,
    padRef_modifyPads b f, fun _ h => padsAt_setPads_of_ne h _⟩

theorem local_setIrq (blk : BlockAddr) (v : BitVec 8) : Local b i w (w.setIrq blk v) :=
  ⟨fun b' i' _ => congrFun (congrFun (sm_setIrq blk v) b') i', shell_setIrq blk v,
    padRef_setIrq blk v, fun r _ => congrFun (padsAt_setIrq blk v) r⟩

end

/-- A write of the pin registers of a state machine, with the resolve that follows it. -/
def setPins (w : World) (b : BlockAddr) (i : Fin 4) (r : PinRegs) : World :=
  (w.modifySm b i fun sm => { sm with pins := r }).resolvePads b

theorem local_setPins (r : PinRegs) : Local b i w (w.setPins b i r) :=
  (local_modifySm _).trans (local_modifyPads _)

@[simp] theorem sm_setPins_self (w : World) (b : BlockAddr) (i : Fin 4) (r : PinRegs) :
    (w.setPins b i r).sm b i = { w.sm b i with pins := r } := by simp [setPins]

theorem drivePins_eq (w : World) (b : BlockAddr) (i : Fin 4) (base count : ℕ) (value : Word) :
    w.drivePins b i base count value =
      w.setPins b i ((w.sm b i).pins.drivePins (w.physPin b) base count value) := rfl

theorem drivePindirs_eq (w : World) (b : BlockAddr) (i : Fin 4) (base count : ℕ) (value : Word) :
    w.drivePindirs b i base count value =
      w.setPins b i ((w.sm b i).pins.drivePindirs (w.physPin b) base count value) := rfl

theorem releaseOutPins_eq (w : World) (b : BlockAddr) (i : Fin 4) (base count : ℕ) :
    w.releaseOutPins b i base count =
      w.setPins b i ((w.sm b i).pins.releaseOutPins (w.physPin b) base count) := rfl

/-! ### The shape of a handler -/

/-- One step of an instruction outside the pin registers. -/
inductive RegStep (b : BlockAddr) (i : Fin 4) : World → World → Prop
  | sm (w : World) (s : Sm) : (w.sm b i).Effect s → RegStep b i w (w.setSm b i s)
  | irq (w : World) (blk : BlockAddr) (v : BitVec 8) : RegStep b i w (w.setIrq blk v)

abbrev RegSteps (b : BlockAddr) (i : Fin 4) : World → World → Prop := ReflTransGen (RegStep b i)

theorem RegStep.local (h : RegStep b i w w') : Local b i w w' := by
  cases h with
  | sm s _ => exact local_setSm s
  | irq blk v => exact local_setIrq blk v

theorem RegSteps.local (h : RegSteps b i w w') : Local b i w w' := by
  induction h with
  | refl => exact .refl _ _ _
  | tail _ hs ih => exact ih.trans hs.local

theorem RegSteps.sm_effects (h : RegSteps b i w w') : (w.sm b i).Effects (w'.sm b i) := by
  induction h with
  | refl => exact .refl
  | tail _ hs ih =>
    cases hs with
    | sm s he =>
      rw [sm_setSm_self]
      exact ih.tail he
    | irq blk v =>
      rw [sm_setIrq]
      exact ih

omit [Platform] in
theorem setSm_setSm (w : World) (b : BlockAddr) (i : Fin 4) (s s' : Sm) :
    (w.setSm b i s).setSm b i s' = w.setSm b i s' := by
  simp [setSm, setBlock]

omit [Platform] in
theorem setSm_sm (w : World) (b : BlockAddr) (i : Fin 4) : w.setSm b i (w.sm b i) = w := by
  simp [setSm, setBlock, sm]

theorem regSteps_of_effects {s : Sm} (h : (w.sm b i).Effects s) :
    RegSteps b i w (w.setSm b i s) := by
  induction h with
  | refl => exact (setSm_sm w b i).symm ▸ .refl
  | @tail t u _ hs ih =>
    have hstep : RegStep b i (w.setSm b i t) ((w.setSm b i t).setSm b i u) :=
      .sm _ _ (by rwa [sm_setSm_self])
    rw [setSm_setSm] at hstep
    exact ih.tail hstep

/-- A chain of register steps, then at most one write of the pin registers. -/
def Shape (b : BlockAddr) (i : Fin 4) (w w' : World) : Prop :=
  ∃ v, RegSteps b i w v ∧ (w' = v ∨ ∃ r, w' = v.setPins b i r)

theorem Shape.of_steps (h : RegSteps b i w w') : Shape b i w w' := ⟨w', h, .inl rfl⟩

theorem Shape.of_setPins (r : PinRegs) : Shape b i w (w.setPins b i r) :=
  ⟨w, .refl, .inr ⟨r, rfl⟩⟩

theorem Shape.after {v : World} (h : RegSteps b i w v) (hs : Shape b i v w') : Shape b i w w' := by
  obtain ⟨u, hu, he⟩ := hs
  exact ⟨u, h.trans hu, he⟩

theorem Shape.local (h : Shape b i w w') : Local b i w w' := by
  obtain ⟨v, hv, rfl | ⟨r, rfl⟩⟩ := h
  · exact hv.local
  · exact hv.local.trans (local_setPins r)

/-- The record of the executing state machine after a handler: effects, then perhaps new pins. -/
theorem Shape.sm_self (h : Shape b i w w') :
    ∃ s, (w.sm b i).Effects s ∧ ∃ r, w'.sm b i = { s with pins := r } := by
  obtain ⟨v, hv, he | ⟨r, he⟩⟩ := h
  · exact ⟨v.sm b i, hv.sm_effects, (v.sm b i).pins, by rw [he]⟩
  · exact ⟨v.sm b i, hv.sm_effects, r, by rw [he, sm_setPins_self]⟩

theorem Shape.control (h : Shape b i w w') : (w'.sm b i).control = (w.sm b i).control := by
  obtain ⟨s, hs, r, he⟩ := h.sm_self
  rw [he]
  exact hs.keeps.1

theorem shape_setSm {s : Sm} (h : (w.sm b i).Effect s) : Shape b i w (w.setSm b i s) :=
  .of_steps (.single (.sm w s h))

theorem execWait_shape (w : World) (b : BlockAddr) (i : Fin 4) (operand : ℕ) :
    Shape b i w (w.execWait b i operand).world := by
  have hrefl : Shape b i w w := .of_steps .refl
  have hclear : ∀ blk irq, Shape b i w (w.irqClear blk irq) :=
    fun _ _ => .of_steps (.single (.irq _ _ _))
  unfold execWait
  simp only
  split
  · exact hrefl
  split
  · exact hrefl
  split
  · split
    · exact hrefl
    · split_ifs
      · exact hclear _ _
      · exact hrefl
      · exact hrefl
  · split <;> exact hrefl

theorem outStore_shape (w : World) (b : BlockAddr) (i : Fin 4) (dest : ℕ) (val : Word)
    (count : ℕ) : Shape b i w (w.outStore b i dest val count).1 := by
  unfold outStore
  simp only
  split
  · split_ifs
    · exact .of_setPins _
    · exact .of_setPins _
    · exact .of_steps .refl
  · exact shape_setSm (.regs _ _ _ _ _ _ _)
  · exact shape_setSm (.regs _ _ _ _ _ _ _)
  · exact .of_setPins _
  · exact .of_steps .refl
  · exact shape_setSm (.regs _ _ _ _ _ _ _)
  · exact shape_setSm (.inject _)
  · exact .of_steps .refl

theorem execOut_shape (w : World) (b : BlockAddr) (i : Fin 4) (operand : ℕ) :
    Shape b i w (w.execOut b i operand).world := by
  unfold execOut
  simp only
  split_ifs
  · exact shape_setSm (.regs _ _ _ _ _ _ _)
  · exact .after (.single (.sm _ _ (Sm.outShift_effect _ _))) (outStore_shape _ _ _ _ _ _)

theorem execMov_shape (w : World) (b : BlockAddr) (i : Fin 4) (operand : ℕ) :
    Shape b i w (w.execMov b i operand).world := by
  unfold execMov
  simp only
  split
  · exact .of_setPins _
  · exact shape_setSm (.regs _ _ _ _ _ _ _)
  · exact shape_setSm (.regs _ _ _ _ _ _ _)
  · split_ifs
    · exact .of_setPins _
    · exact .of_steps .refl
  · exact shape_setSm (.inject _)
  · exact .of_steps .refl
  · exact shape_setSm (.regs _ _ _ _ _ _ _)
  · exact shape_setSm (.regs _ _ _ _ _ _ _)

theorem execIrq_shape (w : World) (b : BlockAddr) (i : Fin 4) (operand : ℕ) :
    Shape b i w (w.execIrq b i operand).world := by
  unfold execIrq
  simp only
  split
  · exact .of_steps .refl
  · split_ifs
    · exact .of_steps (.single (.irq _ _ _))
    · exact .of_steps .refl
    · exact .of_steps (.single (.irq _ _ _))
    · exact .of_steps (.single (.irq _ _ _))

theorem execSet_shape (w : World) (b : BlockAddr) (i : Fin 4) (operand : ℕ) :
    Shape b i w (w.execSet b i operand) := by
  unfold execSet
  simp only
  split
  · exact .of_setPins _
  · exact shape_setSm (.regs _ _ _ _ _ _ _)
  · exact shape_setSm (.regs _ _ _ _ _ _ _)
  · exact .of_setPins _
  · exact .of_steps .refl

theorem sm_execWait (w : World) (b : BlockAddr) (i : Fin 4) (operand : ℕ) :
    (w.execWait b i operand).world.sm = w.sm := by
  unfold execWait
  simp only
  split
  · rfl
  split
  · rfl
  split
  · split
    · rfl
    · split_ifs
      · exact sm_setIrq _ _
      · rfl
      · rfl
  · split <;> rfl

theorem sm_execIrq (w : World) (b : BlockAddr) (i : Fin 4) (operand : ℕ) :
    (w.execIrq b i operand).world.sm = w.sm := by
  unfold execIrq
  simp only
  split
  · rfl
  · split_ifs
    any_goals rfl
    all_goals exact sm_setIrq _ _

/-- What any instruction word does before its side-set. -/
theorem execInsn_shape (w : World) (b : BlockAddr) (i : Fin 4) (insn : Insn) :
    Shape b i w (w.execInsn b i insn).world := by
  unfold execInsn
  simp only
  split
  · exact shape_setSm (Sm.execJmp_effect _ _ _)
  · exact execWait_shape _ _ _ _
  · exact .of_steps (regSteps_of_effects (Sm.execIn_effects _ _ _))
  · exact execOut_shape _ _ _ _
  · split_ifs with h
    · simp only [Bool.and_eq_true] at h
      exact .of_steps (regSteps_of_effects (Sm.execMovRxfifo_effects _ _ h.1))
    · exact .of_steps (regSteps_of_effects (Sm.execPushpull_effects _ _))
  · exact execMov_shape _ _ _ _
  · exact execIrq_shape _ _ _ _
  · exact execSet_shape _ _ _ _

/-- The side-set writes the pin registers or nothing. -/
theorem applySideset_cases (w : World) (b : BlockAddr) (i : Fin 4) (ds : DelaySideset) :
    w.applySideset b i ds = w ∨ ∃ r, w.applySideset b i ds = w.setPins b i r := by
  unfold applySideset
  simp only
  split_ifs
  · exact .inr ⟨_, rfl⟩
  · exact .inr ⟨_, rfl⟩
  · exact .inl rfl

theorem applySideset_local (w : World) (b : BlockAddr) (i : Fin 4) (ds : DelaySideset) :
    Local b i w (w.applySideset b i ds) := by
  rcases w.applySideset_cases b i ds with h | ⟨r, h⟩
  · rw [h]
    exact .refl _ _ _
  · rw [h]
    exact local_setPins r

theorem execOne_local (w : World) (b : BlockAddr) (i : Fin 4) (insn : Insn) :
    Local b i w (w.execOne b i insn).world :=
  (execInsn_shape w b i insn).local.trans (applySideset_local _ _ _ _)

/-- The side-set leaves everything of its state machine but the pin registers. -/
theorem sm_applySideset (w : World) (b : BlockAddr) (i : Fin 4) (ds : DelaySideset) :
    ∃ r, (w.applySideset b i ds).sm b i = { w.sm b i with pins := r } := by
  rcases w.applySideset_cases b i ds with h | ⟨r, h⟩
  · exact ⟨(w.sm b i).pins, by rw [h]⟩
  · exact ⟨r, by rw [h, sm_setPins_self]⟩

theorem execOne_sm_self (w : World) (b : BlockAddr) (i : Fin 4) (insn : Insn) :
    ∃ s, (w.sm b i).Effects s ∧ ∃ r, (w.execOne b i insn).world.sm b i = { s with pins := r } := by
  obtain ⟨s, hs, r, he⟩ := (execInsn_shape w b i insn).sm_self
  obtain ⟨r', he'⟩ := sm_applySideset (w.execInsn b i insn).world b i
    ((w.sm b i).decodeDelaySideset (delayField insn))
  exact ⟨s, hs, r', by rw [execOne, he', he]⟩

theorem execOne_control (w : World) (b : BlockAddr) (i : Fin 4) (insn : Insn) :
    ((w.execOne b i insn).world.sm b i).control = (w.sm b i).control := by
  obtain ⟨s, hs, r, he⟩ := execOne_sm_self w b i insn
  rw [he]
  exact hs.keeps.1

theorem execOne_pc (w : World) (b : BlockAddr) (i : Fin 4) (insn : Insn) :
    ((w.execOne b i insn).world.sm b i).pc = (w.sm b i).pc :=
  congrArg (·.2.2.1) (execOne_control w b i insn)

/-! ### Ticks -/

omit [Platform] in
@[simp] theorem sm_countFetch (w : World) (b : BlockAddr) (i : Fin 4) :
    (w.countFetch b i).sm = w.sm := by
  unfold countFetch
  split_ifs
  · rfl
  · exact sm_setBlock rfl

omit [Platform] in
theorem countFetch_local (w : World) (b b' : BlockAddr) (i i' : Fin 4) :
    Local b i w (w.countFetch b' i') := by
  refine ⟨fun c j _ => by rw [sm_countFetch], ?_, ?_, fun r _ => ?_⟩
  all_goals
    unfold countFetch
    split_ifs
  · rfl
  · exact shell_setBlock rfl rfl rfl rfl
  · rfl
  · exact padRef_setBlock rfl
  · rfl
  · exact congrFun (padsAt_setBlock (by rfl)) r

theorem present_local (w : World) (b : BlockAddr) (i : Fin 4) : Local b i w (w.present b i) := by
  have h := (countFetch_local w b b i i).trans
    (execOne_local (w.countFetch b i) b i (w.getInstruction b i))
  unfold present
  simp only
  split_ifs
  · exact h.trans (local_modifySm _)
  · exact h.trans (local_modifySm _)

theorem smCycle_local (w : World) (b : BlockAddr) (i : Fin 4) : Local b i w (w.smCycle b i) := by
  unfold smCycle
  simp only
  split_ifs
  · exact (local_modifySm _).trans (local_modifySm _)
  · exact (local_modifySm _).trans (present_local _ _ _)

theorem smTick_local (w : World) (b : BlockAddr) (i : Fin 4) : Local b i w (w.smTick b i) := by
  unfold smTick
  simp only
  split_ifs
  · exact ((local_setSm _).trans (smCycle_local _ _ _)).trans (local_modifySm _)
  · exact local_setSm _
  · exact local_setSm _

theorem smExec_local (w : World) (b : BlockAddr) (i : Fin 4) (insn : Insn) :
    Local b i w (w.smExec b i insn) := by
  have h := (local_modifySm (w := w) (b := b) (i := i) fun s => { s with stalled := false }).trans
    (execOne_local _ b i insn)
  unfold smExec
  simp only
  split_ifs
  · exact h.trans (local_modifySm _)
  · exact h.trans (local_modifySm _)

@[simp] theorem sm_tickEnd (w : World) (b : BlockAddr) : (w.tickEnd b).sm = w.sm := by
  unfold tickEnd
  simp only
  rw [sm_setBlock]
  · split
    · exact sm_modifyPads b _
    · rfl
  · rfl

/-- The induction rule for the state machines' half of a tick. -/
theorem tickSms_induction {P : World → Prop} {b : BlockAddr}
    (hopen : ∀ v i, P v → P (v.modifySm b i Sm.openWindow))
    (htick : ∀ v i, P v → P (v.smTick b i)) (hresolve : ∀ v, P v → P (v.resolvePads b))
    {w : World} (h : P w) : P (w.tickSms b) := by
  apply hresolve
  apply List.foldlRecOn
  · exact List.foldlRecOn _ _ h fun v hv i _ => hopen v i hv
  · exact fun v hv i _ => htick v i hv

omit [Platform] in
theorem openWindow_induction {P : World → Prop} {b : BlockAddr}
    (hopen : ∀ v i, P v → P (v.modifySm b i Sm.openWindow))
    {w : World} (h : P w) : P (w.openWindow b) :=
  List.foldlRecOn _ _ h fun v hv i _ => hopen v i hv

/-! ### Induction over one execution

What holds of every world an execution passes through is closed under writes of the record that
leave the pin registers and the enable bit alone, under IRQ writes, under the fetch counter and
under writes of the pin registers with their resolve. -/

/-- `P` is kept by everything an execution of state machine `(b, i)` does. -/
structure Closed (P : World → Prop) (b : BlockAddr) (i : Fin 4) : Prop where
  record : ∀ v s, s.pins = (v.sm b i).pins → s.enabled = (v.sm b i).enabled → P v →
    P (v.setSm b i s)
  irq : ∀ v blk x, P v → P (v.setIrq blk x)
  fetch : ∀ v, P v → P (v.countFetch b i)
  pins : ∀ v r, P v → P (v.setPins b i r)

section Closed
variable {P : World → Prop}

theorem RegSteps.closed (hP : Closed P b i) (h : RegSteps b i w w') (hw : P w) : P w' := by
  induction h with
  | refl => exact hw
  | tail _ hs ih =>
    cases hs with
    | sm s he =>
      obtain ⟨hcontrol, hpins⟩ := he.keeps
      exact hP.record _ s hpins (congrArg (·.2.1) hcontrol) ih
    | irq blk v => exact hP.irq _ blk v ih

theorem Shape.closed (hP : Closed P b i) (h : Shape b i w w') (hw : P w) : P w' := by
  obtain ⟨v, hv, rfl | ⟨r, rfl⟩⟩ := h
  · exact hv.closed hP hw
  · exact hP.pins v r (hv.closed hP hw)

theorem execOne_closed (hP : Closed P b i) (insn : Insn) (hw : P w) :
    P (w.execOne b i insn).world := by
  have hinsn := (execInsn_shape w b i insn).closed hP hw
  rcases (w.execInsn b i insn).world.applySideset_cases b i
    ((w.sm b i).decodeDelaySideset (delayField insn)) with h | ⟨r, h⟩
  · rw [execOne, h]
    exact hinsn
  · rw [execOne, h]
    exact hP.pins _ r hinsn

theorem present_closed (hP : Closed P b i) (hw : P w) : P (w.present b i) := by
  have hone := execOne_closed hP (w.getInstruction b i) (hP.fetch w hw)
  unfold present
  simp only
  split
  · refine hP.record _ _ ?_ ?_ hone <;> unfold Sm.retire <;> split <;> rfl
  · exact hP.record _ _ rfl rfl hone

theorem smCycle_closed (hP : Closed P b i) (hw : P w) : P (w.smCycle b i) := by
  have hpull : P (w.modifySm b i Sm.backgroundAutopull) := by
    refine hP.record _ _ ?_ ?_ hw
    all_goals rcases (w.sm b i).backgroundAutopull_eq with h | ⟨v, tx, h⟩ <;> rw [h]
  unfold smCycle
  simp only
  split
  · exact hP.record _ _ rfl rfl hpull
  · exact present_closed hP hpull

theorem smTick_closed (hP : Closed P b i) (hsticky : ∀ v, P v → P (v.modifySm b i stickyReassert))
    (hw : P w) : P (w.smTick b i) := by
  unfold smTick
  simp only
  split_ifs
  · exact hsticky _ (smCycle_closed hP (hP.record _ _ rfl rfl hw))
  · exact hP.record _ _ rfl rfl hw
  · exact hP.record _ _ rfl rfl hw

theorem smExec_closed (hP : Closed P b i) (insn : Insn) (hw : P w) : P (w.smExec b i insn) := by
  have hone := execOne_closed hP insn (hP.record w { w.sm b i with stalled := false } rfl rfl hw)
  unfold smExec
  simp only
  split
  · exact hP.record _ _ rfl rfl hone
  · exact hP.record _ _ rfl rfl hone

end Closed
end World
end PioSim
