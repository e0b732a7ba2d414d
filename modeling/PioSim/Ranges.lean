import PioSim.Queues

/-!
# Ranges

What every index, counter and mask of a state machine stays within. `Sm.InRange` is kept by every
instruction, by every host operation and by every configuration the mutators can build.
-/

namespace PioSim

variable [Platform]

/-! ### Pin masks -/

namespace PinRegs

/-- No mask has a bit from pin `n` on. -/
structure Below (n : ℕ) (r : PinRegs) : Prop where
  outPinVal : ∀ k, n ≤ k → r.outPinVal.getLsbD k = false
  outPinOe : ∀ k, n ≤ k → r.outPinOe.getLsbD k = false
  wroteThisCycle : ∀ k, n ≤ k → r.wroteThisCycle.getLsbD k = false
  dirDriven : ∀ k, n ≤ k → r.dirDriven.getLsbD k = false

variable {n pin : ℕ} {r : PinRegs}

section
omit [Platform]

theorem getLsbD_or_pinBit {m : Mask} (hm : ∀ k, n ≤ k → m.getLsbD k = false) (hp : pin < n) (k : ℕ)
    (hk : n ≤ k) : (m ||| pinBit pin).getLsbD k = false := by
  have hne : k ≠ pin := by omega
  rw [BitVec.getLsbD_or, hm k hk, getLsbD_pinBit, decide_eq_false hne, Bool.and_false,
    Bool.or_false]

theorem getLsbD_and_of_false {m x : Mask} (hm : ∀ k, n ≤ k → m.getLsbD k = false) (k : ℕ)
    (hk : n ≤ k) : (m &&& x).getLsbD k = false := by
  rw [BitVec.getLsbD_and, hm k hk, Bool.false_and]

theorem Below.none : PinRegs.none.Below n :=
  ⟨fun _ _ => BitVec.getLsbD_zero, fun _ _ => BitVec.getLsbD_zero, fun _ _ => BitVec.getLsbD_zero,
    fun _ _ => BitVec.getLsbD_zero⟩

theorem Below.drivePin (h : r.Below n) (hp : pin < n) (level : Bool) :
    (r.drivePin pin level).Below n := by
  refine ⟨?_, h.outPinOe, getLsbD_or_pinBit h.wroteThisCycle hp, h.dirDriven⟩
  unfold PinRegs.drivePin
  cases level
  · exact getLsbD_and_of_false h.outPinVal
  · exact getLsbD_or_pinBit h.outPinVal hp

theorem Below.drivePindir (h : r.Below n) (hp : pin < n) (out : Bool) :
    (r.drivePindir pin out).Below n := by
  refine ⟨h.outPinVal, ?_, h.wroteThisCycle, getLsbD_or_pinBit h.dirDriven hp⟩
  unfold PinRegs.drivePindir
  cases out
  · exact getLsbD_and_of_false h.outPinOe
  · exact getLsbD_or_pinBit h.outPinOe hp

theorem Below.releasePin (h : r.Below n) : (r.releasePin pin).Below n :=
  ⟨h.outPinVal, getLsbD_and_of_false h.outPinOe, getLsbD_and_of_false h.wroteThisCycle,
    getLsbD_and_of_false h.dirDriven⟩

theorem Below.foldl {α : Type} {f : PinRegs → α → PinRegs} (hf : ∀ r a, r.Below n → (f r a).Below n)
    (h : r.Below n) (l : List α) : (l.foldl f r).Below n :=
  List.foldlRecOn (motive := fun r : PinRegs => r.Below n) l f h fun r hr a _ => hf r a hr

end

variable {phys : ℕ → ℕ}

section
omit [Platform]

theorem Below.drivePins (h : r.Below n) (hphys : ∀ v, phys v < n) (base count : ℕ) (value : Word) :
    (r.drivePins phys base count value).Below n :=
  h.foldl (fun _ _ hr => hr.drivePin (hphys _) _) _

theorem Below.drivePindirs (h : r.Below n) (hphys : ∀ v, phys v < n) (base count : ℕ)
    (value : Word) : (r.drivePindirs phys base count value).Below n :=
  h.foldl (fun _ _ hr => hr.drivePindir (hphys _) _) _

theorem Below.releaseOutPins (h : r.Below n) (base count : ℕ) :
    (r.releaseOutPins phys base count).Below n :=
  h.foldl (fun _ _ hr => hr.releasePin) _

theorem Below.openWindow (h : r.Below n) : Below n { r with wroteThisCycle := 0 } :=
  ⟨h.outPinVal, h.outPinOe, fun _ _ => BitVec.getLsbD_zero, h.dirDriven⟩

theorem Below.reassert (h : r.Below n) :
    Below n { r with wroteThisCycle := r.wroteThisCycle ||| r.outPinOe } := by
  refine ⟨h.outPinVal, h.outPinOe, fun k hk => ?_, h.dirDriven⟩
  rw [BitVec.getLsbD_or, h.wroteThisCycle k hk, h.outPinOe k hk, Bool.or_false]

end

end PinRegs

theorem World.physPin_lt (w : World) (b : BlockAddr) (view : ℕ) : w.physPin b view < numPins := by
  unfold physPin
  split
  · exact Nat.mod_lt _ numPins_pos
  · rename_i h
    rw [numPins, if_neg h]
    exact Nat.mod_lt _ (by decide)

/-! ### One state machine -/

namespace Sm

/-- The ranges of a state machine's fields. -/
structure InRange (s : Sm) : Prop where
  pc : s.pc < 32
  wrapBottom : s.wrapBottom < 32
  wrapTop : s.wrapTop < 32
  osrCount : s.osrCount ≤ 32
  isrCount : s.isrCount ≤ 32
  pullThresh_pos : 0 < s.pullThresh
  pullThresh_le : s.pullThresh ≤ 32
  pushThresh_pos : 0 < s.pushThresh
  pushThresh_le : s.pushThresh ≤ 32
  outEnSel : s.outEnSel < 32
  delay : s.delay ≤ 31
  pins : s.pins.Below numPins

variable {s s' : Sm}

theorem InRange.initial : Sm.initial.InRange :=
  ⟨by decide, by decide, by decide, by decide, by decide, by decide, by decide, by decide, by decide,
    by decide, by decide, PinRegs.Below.none⟩

omit [Platform] in
theorem shiftCount_le (operand : ℕ) : shiftCount operand ≤ 32 := by
  unfold shiftCount
  split <;> omega

theorem InRange.jmp (h : s.InRange) (pin : Bool) (operand : ℕ) :
    (s.execJmp pin operand).1.InRange ∧ ∀ t, (s.execJmp pin operand).2 = some t → t < 32 := by
  obtain ⟨x, y, taken, he⟩ := s.execJmp_eq pin operand
  rw [he]
  refine ⟨{ h with }, fun t ht => ?_⟩
  cases taken with
  | true =>
    rw [← Option.some.inj ht]
    exact Nat.mod_lt _ (by decide)
  | false => cases ht

theorem InRange.refill (h : s.InRange) : (s.osrRefill.getD s).InRange := by
  cases hr : s.osrRefill with
  | none => exact h
  | some s' =>
    obtain ⟨v, tx, -, rfl⟩ := osrRefill_eq_some hr
    exact { h with osrCount := Nat.zero_le _ }

theorem InRange.drain (h : s.InRange) : (s.isrDrain.getD s).InRange := by
  cases hr : s.isrDrain with
  | none => exact h
  | some s' =>
    obtain ⟨rx, -, rfl⟩ := isrDrain_eq_some hr
    exact { h with isrCount := Nat.zero_le _ }

omit [Platform] in
/-- A count that is clamped at 32. -/
theorem clamped_le (n : ℕ) : (if 32 < n then 32 else n) ≤ 32 := by
  split <;> omega

theorem InRange.in (h : s.InRange) (src : Word) (count : ℕ) : (s.execIn src count).1.InRange := by
  have hshift : (s.inShift src count).InRange := { h with isrCount := clamped_le _ }
  unfold execIn
  simp only
  split
  · exact { h with }
  · split
    · exact hshift.drain
    · exact hshift

theorem InRange.outShift (h : s.InRange) (count : ℕ) : (s.outShift count).InRange :=
  { h with osrCount := clamped_le _ }

theorem InRange.pushpull (h : s.InRange) (operand : ℕ) : (s.execPushpull operand).1.InRange := by
  unfold execPushpull
  simp only
  split_ifs
  · exact h
  · exact { h with }
  · exact { h with isrCount := Nat.zero_le _ }
  · exact h.drain
  · exact h
  · exact h
  · exact { h with }
  · exact { h with osrCount := Nat.zero_le _ }
  · exact h.refill

theorem InRange.movRxfifo (h : s.InRange) (operand : ℕ) : (s.execMovRxfifo operand).InRange := by
  unfold execMovRxfifo
  simp only
  split
  · split
    · exact { h with osrCount := Nat.zero_le _ }
    · exact h
  · split
    · exact { h with isrCount := Nat.zero_le _ }
    · exact h

theorem InRange.backgroundAutopull (h : s.InRange) : s.backgroundAutopull.InRange := by
  unfold Sm.backgroundAutopull
  split
  · exact h.refill
  · exact h

theorem InRange.setPins (h : s.InRange) {r : PinRegs} (hr : r.Below numPins) :
    InRange { s with pins := r } := { h with pins := hr }

theorem InRange.stickyReassert (h : s.InRange) : (World.stickyReassert s).InRange := by
  unfold World.stickyReassert
  split
  · exact h.setPins h.pins.reassert
  · exact h

theorem InRange.retire (h : s.InRange) {fromExec : Bool} {setPc : Option ℕ} {delay : ℕ}
    (hpc : ∀ t, setPc = some t → t < 32) (hd : delay ≤ 31) :
    (s.retire fromExec setPc delay).InRange := by
  have hnext : (if s.pc = s.wrapTop then s.wrapBottom else (s.pc + 1) % 32) < 32 := by
    split
    · exact h.wrapBottom
    · exact Nat.mod_lt _ (by decide)
  unfold Sm.retire
  split
  · refine { h with pc := ?_, delay := hd }
    cases setPc with
    | none => exact h.pc
    | some t => exact hpc t rfl
  · refine { h with pc := ?_, delay := ?_ }
    · cases setPc with
      | none => exact hnext
      | some t => exact hpc t rfl
    · simp only
      split
      · exact Nat.zero_le _
      · exact hd

omit [Platform] in
theorem decodeDelaySideset_delay_le (s : Sm) (insn : Insn) :
    (s.decodeDelaySideset (delayField insn)).delay ≤ 31 := by
  have hfield : delayField insn < 32 := Nat.mod_lt _ (by decide)
  have hle : delayField insn % 2 ^ (5 - s.sidesetTotal) ≤ delayField insn := Nat.mod_le _ _
  unfold decodeDelaySideset
  split <;> simp only <;> omega

/-! ### Configurations and host operations -/

end Sm

namespace SmConfig

def setInPins (c : SmConfig) (inBase : ℕ) : SmConfig := { c with inBase := inBase }

def setInPinCount (c : SmConfig) (inCount : ℕ) : SmConfig :=
  { c with inCount := if inCount = 0 ∨ 32 < inCount then 32 else inCount }

def setOutPinCount (c : SmConfig) (outCount : ℕ) : SmConfig :=
  { c with outCount := clampPinCount outCount }

def setSetPinCount (c : SmConfig) (setCount : ℕ) : SmConfig :=
  { c with setCount := clampPinCount setCount }

def setOutPinBase (c : SmConfig) (outBase : ℕ) : SmConfig := { c with outBase := outBase }

def setSetPinBase (c : SmConfig) (setBase : ℕ) : SmConfig := { c with setBase := setBase }

def setMovStatus (c : SmConfig) (statusSel : StatusSel) (statusN : ℕ) : SmConfig :=
  { c with statusSel := statusSel, statusN := statusN }

def setJmpPin (c : SmConfig) (pin : ℕ) : SmConfig := { c with jmpPin := pin }

/-- A config made from the default one by the mutators. `sm_config_set_clkdiv` computes the two
parts of the divider in floating point; as a mutator it is `setClkdivIntFrac` at the parts it
computes. -/
inductive Built : SmConfig → Prop
  | default : Built defaultSmConfig
  | setOutPins {c} (base count : ℕ) : Built c → Built (c.setOutPins base count)
  | setOutPinBase {c} (base : ℕ) : Built c → Built (c.setOutPinBase base)
  | setOutPinCount {c} (count : ℕ) : Built c → Built (c.setOutPinCount count)
  | setSetPins {c} (base count : ℕ) : Built c → Built (c.setSetPins base count)
  | setSetPinBase {c} (base : ℕ) : Built c → Built (c.setSetPinBase base)
  | setSetPinCount {c} (count : ℕ) : Built c → Built (c.setSetPinCount count)
  | setInPins {c} (base : ℕ) : Built c → Built (c.setInPins base)
  | setInPinCount {c} (count : ℕ) : Built c → Built (c.setInPinCount count)
  | setSidesetPins {c} (base : ℕ) : Built c → Built (c.setSidesetPins base)
  | setSideset {c} (bits : ℕ) (opt pindirs : Bool) : Built c → Built (c.setSideset bits opt pindirs)
  | setWrap {c} (target wrap : ℕ) : Built c → Built (c.setWrap target wrap)
  | setClkdivIntFrac {c} (whole frac : ℕ) : Built c → Built (c.setClkdivIntFrac whole frac)
  | setOutShift {c} (right auto : Bool) (threshold : ℕ) : Built c →
    Built (c.setOutShift right auto threshold)
  | setInShift {c} (right auto : Bool) (threshold : ℕ) : Built c →
    Built (c.setInShift right auto threshold)
  | setFifoJoin {c} (join : FifoJoin) : Built c → Built (c.setFifoJoin join)
  | setMovStatus {c} (sel : StatusSel) (n : ℕ) : Built c → Built (c.setMovStatus sel n)
  | setJmpPin {c} (pin : ℕ) : Built c → Built (c.setJmpPin pin)
  | setOutSpecial {c} (sticky enable : Bool) (bit : ℕ) : Built c →
    Built (c.setOutSpecial sticky enable bit)

/-- What a state machine needs of the config it is given. -/
structure InRange (c : SmConfig) : Prop where
  wrapBottom : c.wrapBottom < 32
  wrapTop : c.wrapTop < 32
  pullThresh_pos : 0 < c.pullThresh
  pullThresh_le : c.pullThresh ≤ 32
  pushThresh_pos : 0 < c.pushThresh
  pushThresh_le : c.pushThresh ≤ 32
  outEnSel : c.outEnSel < 32

omit [Platform] in
theorem clampThresh_pos (n : ℕ) : 0 < clampThresh n := by
  unfold clampThresh
  split <;> omega

omit [Platform] in
theorem clampThresh_le (n : ℕ) : clampThresh n ≤ 32 := by
  unfold clampThresh
  split <;> omega

variable {c : SmConfig}

section
omit [Platform]

theorem InRange.setOutShift (h : c.InRange) (right auto : Bool) (threshold : ℕ) :
    (c.setOutShift right auto threshold).InRange :=
  { h with pullThresh_pos := clampThresh_pos _, pullThresh_le := clampThresh_le _ }

theorem InRange.setInShift (h : c.InRange) (right auto : Bool) (threshold : ℕ) :
    (c.setInShift right auto threshold).InRange :=
  { h with pushThresh_pos := clampThresh_pos _, pushThresh_le := clampThresh_le _ }

/-- The mutators stay in range. -/
theorem Built.inRange (h : c.Built) : c.InRange := by
  induction h with
  | default => exact ⟨by decide, by decide, by decide, by decide, by decide, by decide, by decide⟩
  | setWrap target wrap _ ih =>
    exact { ih with wrapBottom := Nat.mod_lt _ (by decide), wrapTop := Nat.mod_lt _ (by decide) }
  | setOutShift right auto threshold _ ih => exact ih.setOutShift right auto threshold
  | setInShift right auto threshold _ ih => exact ih.setInShift right auto threshold
  | setOutSpecial sticky enable bit _ ih => exact { ih with outEnSel := Nat.mod_lt _ (by decide) }
  | _ =>
    rename_i ih
    exact { ih with }

end

end SmConfig

namespace Sm

variable {s : Sm}

theorem InRange.config (h : s.InRange) : s.config.InRange :=
  ⟨h.wrapBottom, h.wrapTop, h.pullThresh_pos, h.pullThresh_le, h.pushThresh_pos, h.pushThresh_le,
    h.outEnSel⟩

theorem InRange.setConfig (h : s.InRange) {c : SmConfig} (hc : c.InRange) :
    (s.setConfig c).InRange := by
  unfold Sm.setConfig applyFifoJoin
  simp only
  split
  all_goals
    exact {
      pc := h.pc
      wrapBottom := hc.wrapBottom
      wrapTop := hc.wrapTop
      osrCount := h.osrCount
      isrCount := h.isrCount
      pullThresh_pos := hc.pullThresh_pos
      pullThresh_le := hc.pullThresh_le
      pushThresh_pos := hc.pushThresh_pos
      pushThresh_le := hc.pushThresh_le
      outEnSel := hc.outEnSel
      delay := h.delay
      pins := h.pins }

theorem InRange.init (h : s.InRange) {c : SmConfig} (hc : c.InRange) (pc : ℕ) :
    (s.init pc c).InRange :=
  { h.setConfig hc with
    pc := Nat.mod_lt _ (by decide)
    osrCount := Nat.le_refl _
    isrCount := Nat.zero_le _
    delay := Nat.zero_le _ }

theorem InRange.resetExec (h : s.InRange) : s.resetExec.InRange :=
  { h with
    pc := h.wrapBottom
    osrCount := Nat.le_refl _
    isrCount := Nat.zero_le _
    delay := Nat.zero_le _ }

end Sm

/-- The config a host operation passes, if it passes one, satisfies `P`. -/
def SmOp.Configures (P : SmConfig → Prop) : SmOp → Prop
  | .setConfig c => P c
  | _ => True

theorem Sm.InRange.apply {s : Sm} (h : s.InRange) {op : SmOp}
    (hc : op.Configures SmConfig.InRange) : (op.apply s).InRange := by
  cases op with
  | restart => exact h.resetExec
  | setPc pc => exact { h with pc := Nat.mod_lt _ (by decide) }
  | setConfig c => exact h.setConfig hc
  | put word =>
    obtain ⟨f, t, he⟩ := s.put_eq word
    rw [SmOp.apply, he]
    exact { h with }
  | get =>
    obtain ⟨f, r, he⟩ := s.get_eq
    rw [SmOp.apply, he]
    exact { h with }
  | _ => exact { h with }

/-! ### Executions -/

namespace World

variable {w : World} {b : BlockAddr} {i : Fin 4}

/-- What a handler leaves: the record in range and a jump target inside the instruction memory. -/
def ExecOut.InRange (b : BlockAddr) (i : Fin 4) (r : ExecOut) : Prop :=
  (r.world.sm b i).InRange ∧ ∀ t, r.setPc = some t → t < 32

theorem inRange_setSm {s : Sm} (h : s.InRange) : ((w.setSm b i s).sm b i).InRange := by
  rw [sm_setSm_self]
  exact h

theorem inRange_setPins (h : (w.sm b i).InRange) {r : PinRegs} (hr : r.Below numPins) :
    ((w.setPins b i r).sm b i).InRange := by
  rw [sm_setPins_self]
  exact h.setPins hr

theorem inRange_drivePins (h : (w.sm b i).InRange) (base count : ℕ) (value : Word) :
    ((w.drivePins b i base count value).sm b i).InRange :=
  inRange_setPins h (h.pins.drivePins (w.physPin_lt b) base count value)

theorem inRange_drivePindirs (h : (w.sm b i).InRange) (base count : ℕ) (value : Word) :
    ((w.drivePindirs b i base count value).sm b i).InRange :=
  inRange_setPins h (h.pins.drivePindirs (w.physPin_lt b) base count value)

theorem inRange_outStore (h : (w.sm b i).InRange) (dest : ℕ) (val : Word) {count : ℕ}
    (hc : count ≤ 32) : ((w.outStore b i dest val count).1.sm b i).InRange ∧
      ∀ t, (w.outStore b i dest val count).2 = some t → t < 32 := by
  unfold outStore
  simp only
  split
  · split_ifs
    · exact ⟨inRange_drivePins h _ _ _, nofun⟩
    · exact ⟨inRange_setPins h (h.pins.releaseOutPins _ _), nofun⟩
    · exact ⟨h, nofun⟩
  · exact ⟨inRange_setSm { h with }, nofun⟩
  · exact ⟨inRange_setSm { h with }, nofun⟩
  · exact ⟨inRange_drivePindirs h _ _ _, nofun⟩
  · refine ⟨h, fun t ht => ?_⟩
    rw [← Option.some.inj ht]
    exact Nat.mod_lt _ (by decide)
  · exact ⟨inRange_setSm { h with isrCount := hc }, nofun⟩
  · exact ⟨inRange_setSm { h with }, nofun⟩
  · exact ⟨h, nofun⟩

theorem inRange_execOut (h : (w.sm b i).InRange) (operand : ℕ) :
    ExecOut.InRange b i (w.execOut b i operand) := by
  unfold execOut
  simp only
  split
  · exact ⟨inRange_setSm { h with }, nofun⟩
  · exact inRange_outStore (inRange_setSm (h.outShift _)) _ _ (Sm.shiftCount_le operand)

theorem inRange_execMov (h : (w.sm b i).InRange) (operand : ℕ) :
    ExecOut.InRange b i (w.execMov b i operand) := by
  unfold execMov
  simp only
  split
  · exact ⟨inRange_drivePins h _ _ _, nofun⟩
  · exact ⟨inRange_setSm { h with }, nofun⟩
  · exact ⟨inRange_setSm { h with }, nofun⟩
  · split
    · exact ⟨inRange_drivePindirs h _ _ _, nofun⟩
    · exact ⟨h, nofun⟩
  · exact ⟨inRange_setSm { h with }, nofun⟩
  · refine ⟨h, fun t ht => ?_⟩
    rw [← Option.some.inj ht]
    exact Nat.mod_lt _ (by decide)
  · exact ⟨inRange_setSm { h with isrCount := Nat.zero_le _ }, nofun⟩
  · exact ⟨inRange_setSm { h with osrCount := Nat.zero_le _ }, nofun⟩

theorem inRange_execSet (h : (w.sm b i).InRange) (operand : ℕ) :
    ((w.execSet b i operand).sm b i).InRange := by
  unfold execSet
  simp only
  split
  · exact inRange_drivePins h _ _ _
  · exact inRange_setSm { h with }
  · exact inRange_setSm { h with }
  · exact inRange_drivePindirs h _ _ _
  · exact h

/-- WAIT and IRQ only touch the IRQ flags. -/
theorem execWait_frame (w : World) (b : BlockAddr) (i : Fin 4) (operand : ℕ) :
    (w.execWait b i operand).world.sm = w.sm ∧ (w.execWait b i operand).setPc = none := by
  unfold execWait
  simp only
  split
  · exact ⟨rfl, rfl⟩
  split
  · exact ⟨rfl, rfl⟩
  split
  · split
    · exact ⟨rfl, rfl⟩
    split
    · refine ⟨?_, rfl⟩
      dsimp only
      split
      · exact sm_setIrq _ _
      · rfl
    · exact ⟨rfl, rfl⟩
  split
  · exact ⟨rfl, rfl⟩
  · exact ⟨rfl, rfl⟩

theorem execIrq_frame (w : World) (b : BlockAddr) (i : Fin 4) (operand : ℕ) :
    (w.execIrq b i operand).world.sm = w.sm ∧ (w.execIrq b i operand).setPc = none := by
  unfold execIrq
  simp only
  split
  · exact ⟨rfl, rfl⟩
  · split_ifs
    · exact ⟨sm_setIrq _ _, rfl⟩
    · exact ⟨rfl, rfl⟩
    · exact ⟨sm_setIrq _ _, rfl⟩
    · exact ⟨sm_setIrq _ _, rfl⟩

theorem inRange_execInsn (h : (w.sm b i).InRange) (insn : Insn) :
    ExecOut.InRange b i (w.execInsn b i insn) := by
  unfold execInsn
  simp only
  split
  · exact ⟨inRange_setSm (h.jmp _ _).1, (h.jmp _ _).2⟩
  · obtain ⟨hsm, hpc⟩ := w.execWait_frame b i (operandOf insn)
    exact ⟨by rw [hsm]; exact h, by rw [hpc]; exact nofun⟩
  · exact ⟨inRange_setSm (h.in _ _), nofun⟩
  · exact inRange_execOut h _
  · split
    · exact ⟨inRange_setSm (h.movRxfifo _), nofun⟩
    · exact ⟨inRange_setSm (h.pushpull _), nofun⟩
  · exact inRange_execMov h _
  · obtain ⟨hsm, hpc⟩ := w.execIrq_frame b i (operandOf insn)
    exact ⟨by rw [hsm]; exact h, by rw [hpc]; exact nofun⟩
  · exact ⟨inRange_execSet h _, nofun⟩

theorem inRange_applySideset (h : (w.sm b i).InRange) (ds : DelaySideset) :
    ((w.applySideset b i ds).sm b i).InRange := by
  unfold applySideset
  simp only
  split_ifs
  · exact inRange_drivePindirs h _ _ _
  · exact inRange_drivePins h _ _ _
  · exact h

/-- One execution: the record in range, the jump target and the delay. -/
theorem inRange_execOne (h : (w.sm b i).InRange) (insn : Insn) :
    (((w.execOne b i insn).world.sm b i).InRange ∧
      ∀ t, (w.execOne b i insn).setPc = some t → t < 32) ∧ (w.execOne b i insn).delay ≤ 31 := by
  obtain ⟨hsm, hpc⟩ := inRange_execInsn h insn
  have hside := inRange_applySideset hsm ((w.sm b i).decodeDelaySideset (delayField insn))
  have hdelay := (w.sm b i).decodeDelaySideset_delay_le insn
  exact ⟨⟨hside, hpc⟩, hdelay⟩

theorem inRange_present (h : (w.sm b i).InRange) : ((w.present b i).sm b i).InRange := by
  have hfetch : ((w.countFetch b i).sm b i).InRange := by
    rw [sm_countFetch]
    exact h
  obtain ⟨⟨hsm, hpc⟩, hdelay⟩ := inRange_execOne hfetch (w.getInstruction b i)
  unfold present
  simp only
  split
  · rw [sm_modifySm_self]
    exact hsm.retire hpc hdelay
  · rw [sm_modifySm_self]
    exact { hsm with }

theorem inRange_smCycle (h : (w.sm b i).InRange) : ((w.smCycle b i).sm b i).InRange := by
  have hpull : ((w.modifySm b i Sm.backgroundAutopull).sm b i).InRange := by
    rw [sm_modifySm_self]
    exact h.backgroundAutopull
  unfold smCycle
  simp only
  split
  · rw [sm_modifySm_self]
    exact { hpull with delay := Nat.le_trans (Nat.sub_le _ _) hpull.delay }
  · exact inRange_present hpull

theorem inRange_smTick (h : (w.sm b i).InRange) : ((w.smTick b i).sm b i).InRange := by
  have hdivider : ∀ n, ((w.setSm b i { w.sm b i with clkAccum := n }).sm b i).InRange :=
    fun n => inRange_setSm { h with }
  unfold smTick
  simp only
  split_ifs
  · rw [sm_modifySm_self]
    exact (inRange_smCycle (hdivider _)).stickyReassert
  · exact hdivider _
  · exact hdivider _

theorem inRange_smExec (h : (w.sm b i).InRange) (insn : Insn) :
    ((w.smExec b i insn).sm b i).InRange := by
  have hstart : ((w.modifySm b i fun s => { s with stalled := false }).sm b i).InRange := by
    rw [sm_modifySm_self]
    exact { h with }
  obtain ⟨⟨hsm, hpc⟩, -⟩ := inRange_execOne hstart insn
  unfold smExec
  simp only
  split
  · rw [sm_modifySm_self]
    refine { hsm with pc := ?_ }
    cases hset : ((w.modifySm b i fun s => { s with stalled := false }).execOne b i insn).setPc with
    | none => exact hsm.pc
    | some t => exact hpc t hset
  · rw [sm_modifySm_self]
    exact { hsm with }

end World
end PioSim
