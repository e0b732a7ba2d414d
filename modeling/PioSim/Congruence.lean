import PioSim.Effects

/-!
# Two executions in parallel

What an instruction does is computed from the core of its state machine's record, and from the input
levels, the IRQ flags and the shell of its block. Six fields are not read on the way: they are only
written, or carried along. Two executions that start alike up to these fields therefore end alike,
and `execOne_parallel` says so for any relation of worlds that single writes preserve.
-/

namespace PioSim

variable [Platform]

omit [Platform] in
/-- Two branchings on one condition are related if their branches are. -/
theorem rel_ite {α β : Type} {R : α → β → Prop} {c c' : Prop} [Decidable c] [Decidable c'] {t u : α}
    {t' u' : β} (hc : c' ↔ c) (ht : R t t') (hu : R u u') :
    R (if c then t else u) (if c' then t' else u') := by
  by_cases h : c
  · rwa [if_pos h, if_pos (hc.mpr h)]
  · rwa [if_neg h, if_neg (mt hc.mp h)]

/-! ### Records -/

/-- The fields of a record that no instruction computes with; `irq wait` alone looks at
`stalled`. -/
structure Garb where
  enabled : Bool
  pins : PinRegs
  clkAccum : ℕ
  stalled : Bool
  execInsn : Insn
  fdebug : BitVec 8

/-- A relation of these fields that the writes of an instruction keep. -/
structure Coupled (A : Garb → Garb → Prop) : Prop where
  pins : ∀ {e e'} (f : PinRegs → PinRegs), A e e' →
    A { e with pins := f e.pins } { e' with pins := f e'.pins }
  word : ∀ {e e'} (x : Insn), A e e' → A { e with execInsn := x } { e' with execInsn := x }
  fdebug : ∀ {e e'} (d : BitVec 8), A e e' →
    A { e with fdebug := e.fdebug ||| d } { e' with fdebug := e'.fdebug ||| d }

namespace Sm

def garb (s : Sm) : Garb := ⟨s.enabled, s.pins, s.clkAccum, s.stalled, s.execInsn, s.fdebug⟩

def dress (s : Sm) (e : Garb) : Sm :=
  { s with
    enabled := e.enabled
    pins := e.pins
    clkAccum := e.clkAccum
    stalled := e.stalled
    execInsn := e.execInsn
    fdebug := e.fdebug }

/-- The records differ at most in these fields, which are related. -/
def Alike (A : Garb → Garb → Prop) (s s' : Sm) : Prop := ∃ e, s' = s.dress e ∧ A s.garb e

variable {A : Garb → Garb → Prop} {s s' : Sm}

section
omit [Platform]

theorem Alike.pins (hA : Coupled A) (h : Alike A s s') (f : PinRegs → PinRegs) :
    Alike A { s with pins := f s.pins } { s' with pins := f s'.pins } := by
  obtain ⟨e, rfl, he⟩ := h
  exact ⟨_, rfl, hA.pins f he⟩

theorem Alike.fdebug (hA : Coupled A) (h : Alike A s s') (d : BitVec 8) :
    Alike A { s with fdebug := s.fdebug ||| d } { s' with fdebug := s'.fdebug ||| d } := by
  obtain ⟨e, rfl, he⟩ := h
  exact ⟨_, rfl, hA.fdebug d he⟩

theorem Alike.inject (hA : Coupled A) (h : Alike A s s') (x : Insn) :
    Alike A { s with execPending := true, execInsn := x }
      { s' with execPending := true, execInsn := x } := by
  obtain ⟨e, rfl, he⟩ := h
  exact ⟨_, rfl, hA.word x he⟩

theorem Alike.regs (h : Alike A s s') (x y osr isr : Word) (osrCount isrCount : ℕ) :
    Alike A
      { s with x := x, y := y, osr := osr, isr := isr, osrCount := osrCount, isrCount := isrCount }
      { s' with
        x := x, y := y, osr := osr, isr := isr, osrCount := osrCount, isrCount := isrCount } := by
  obtain ⟨e, rfl, he⟩ := h
  exact ⟨e, rfl, he⟩

theorem Alike.osrRefill (h : Alike A s s') :
    Alike A (s.osrRefill.getD s) (s'.osrRefill.getD s') := by
  obtain ⟨e, rfl, he⟩ := h
  refine ⟨e, ?_, ?_⟩
  · simp only [Sm.osrRefill, dress]
    cases s.tx.pop <;> rfl
  · simp only [Sm.osrRefill]
    cases s.tx.pop <;> exact he

theorem Alike.isrDrain (h : Alike A s s') : Alike A (s.isrDrain.getD s) (s'.isrDrain.getD s') := by
  obtain ⟨e, rfl, he⟩ := h
  refine ⟨e, ?_, ?_⟩
  · simp only [Sm.isrDrain, dress]
    cases s.rx.push s.isr <;> rfl
  · simp only [Sm.isrDrain]
    cases s.rx.push s.isr <;> exact he

theorem Alike.backgroundAutopull (h : Alike A s s') :
    Alike A s.backgroundAutopull s'.backgroundAutopull := by
  have hrefill := h.osrRefill
  obtain ⟨e, rfl, he⟩ := h
  exact rel_ite Iff.rfl hrefill ⟨e, rfl, he⟩

/-- The same, of what a handler on the record hands back. -/
def AlikeOut {β : Type} (A : Garb → Garb → Prop) (r r' : Sm × β) : Prop :=
  Alike A r.1 r'.1 ∧ r'.2 = r.2

theorem Alike.execJmp (h : Alike A s s') (pin : Bool) (operand : ℕ) :
    AlikeOut A (s.execJmp pin operand) (s'.execJmp pin operand) := by
  obtain ⟨e, rfl, he⟩ := h
  unfold Sm.execJmp
  generalize operand / 32 % 8 = cond
  match cond with
  | 0 | 1 | 2 | 3 | 4 | 5 | 6 => exact ⟨⟨e, rfl, he⟩, rfl⟩
  | _ + 7 => exact ⟨⟨e, rfl, he⟩, rfl⟩

theorem Alike.inShift (h : Alike A s s') (src : Word) (count : ℕ) :
    Alike A (s.inShift src count) (s'.inShift src count) := by
  obtain ⟨e, rfl, he⟩ := h
  exact ⟨e, rfl, he⟩

theorem Alike.outShift (h : Alike A s s') (count : ℕ) :
    Alike A (s.outShift count) (s'.outShift count) := by
  obtain ⟨e, rfl, he⟩ := h
  exact ⟨e, rfl, he⟩

end

theorem Alike.execIn (hA : Coupled A) (h : Alike A s s') (src : Word) (count : ℕ) :
    AlikeOut A (s.execIn src count) (s'.execIn src count) := by
  have hstall := h.fdebug hA fdebugRxstall
  have hshift := h.inShift src count
  have hdrain := hshift.isrDrain
  obtain ⟨e, rfl, he⟩ := h
  exact rel_ite Iff.rfl ⟨hstall, rfl⟩ ⟨rel_ite Iff.rfl hdrain hshift, rfl⟩

theorem Alike.execPushpull (hA : Coupled A) (h : Alike A s s') (operand : ℕ) :
    AlikeOut A (s.execPushpull operand) (s'.execPushpull operand) := by
  have hrx := h.fdebug hA fdebugRxstall
  have htx := h.fdebug hA fdebugTxstall
  have hdrain := h.isrDrain
  have hrefill := h.osrRefill
  obtain ⟨e, rfl, he⟩ := h
  have hsame : AlikeOut A (s, false) (s.dress e, false) := ⟨⟨e, rfl, he⟩, rfl⟩
  refine rel_ite Iff.rfl
    (rel_ite Iff.rfl hsame (rel_ite Iff.rfl (rel_ite Iff.rfl ⟨hrx, rfl⟩ ⟨?_, rfl⟩)
    ⟨hdrain, rfl⟩)) (rel_ite Iff.rfl hsame (rel_ite Iff.rfl hsame (rel_ite Iff.rfl
      (rel_ite Iff.rfl ⟨htx, rfl⟩ ⟨?_, rfl⟩) ⟨hrefill, rfl⟩)))
  · exact hrx.regs s.x s.y s.osr 0 s.osrCount 0
  · exact htx.regs s.x s.y s.x s.isr 0 s.isrCount

omit [Platform] in
theorem Alike.execMovRxfifo (h : Alike A s s') (operand : ℕ) :
    Alike A (s.execMovRxfifo operand) (s'.execMovRxfifo operand) := by
  obtain ⟨e, rfl, he⟩ := h
  exact rel_ite Iff.rfl (rel_ite Iff.rfl ⟨e, rfl, he⟩ ⟨e, rfl, he⟩)
    (rel_ite Iff.rfl ⟨e, rfl, he⟩ ⟨e, rfl, he⟩)

omit [Platform] in
theorem Alike.retire (h : Alike A s s')
    (hA : ∀ {e e'}, A e e' → A { e with stalled := false } { e' with stalled := false })
    (fromExec : Bool) (setPc : Option ℕ) (delay : ℕ) :
    Alike A (s.retire fromExec setPc delay) (s'.retire fromExec setPc delay) := by
  obtain ⟨e, rfl, he⟩ := h
  exact rel_ite Iff.rfl ⟨_, rfl, hA he⟩ ⟨_, rfl, hA he⟩

end Sm

namespace World

variable {A : Garb → Garb → Prop} {K : World → World → Prop} {v v' : World}
    {b : BlockAddr} {i : Fin 4}

/-! ### Worlds -/

/-- What the state machines of block `b` read outside their own records is the same in both
worlds. -/
structure SameView (b : BlockAddr) (v v' : World) : Prop where
  input : v'.inputLevel b = v.inputLevel b
  irqs : v'.irqs = v.irqs
  shell : v'.shell = v.shell

/-- A relation of worlds that the writes of state machine `(b, i)` keep, when its records are
alike. -/
structure Parallel (A : Garb → Garb → Prop) (b : BlockAddr) (i : Fin 4)
    (K : World → World → Prop) : Prop where
  sm : ∀ {v v'}, K v v' → Sm.Alike A (v.sm b i) (v'.sm b i)
  record : ∀ {v v' s s'}, K v v' → Sm.Alike A s s' → K (v.setSm b i s) (v'.setSm b i s')
  irq : ∀ {v v'} c x, K v v' → K (v.setIrq c x) (v'.setIrq c x)
  pins : ∀ {v v' r r'}, K v v' →
    Sm.Alike A { v.sm b i with pins := r } { v'.sm b i with pins := r' } →
      K (v.setPins b i r) (v'.setPins b i r')

theorem physPin_of_shell (h : v'.shell = v.shell) (b : BlockAddr) : v'.physPin b = v.physPin b := by
  have hbase : (v'.blocks b).gpioBase = (v.blocks b).gpioBase :=
    congrArg (·.2.1) (congrFun h b)
  funext view
  rw [physPin, physPin, hbase]

theorem SameView.physPin (h : SameView b v v') : v'.physPin b = v.physPin b :=
  physPin_of_shell h.shell b

theorem SameView.irqGet (h : SameView b v v') (c : BlockAddr) (f : ℕ) :
    v'.irqGet c f = v.irqGet c f := congrArg (·.getLsbD (f % 8)) (congrFun h.irqs c)

theorem SameView.readInPins (h : SameView b v v') (base count : ℕ) :
    v'.readInPins b base count = v.readInPins b base count := by
  rw [World.readInPins, World.readInPins, h.input, h.physPin]

theorem SameView.irqTargetBlock (h : SameView b v v') (sel : IrqBlockSel) :
    v'.irqTargetBlock b sel = v.irqTargetBlock b sel := by
  have hlink := congrArg (·.2.2) (congrFun h.shell b)
  obtain ⟨hprev, hnext⟩ : (v'.blocks b).irqPrev = (v.blocks b).irqPrev ∧
    (v'.blocks b).irqNext = (v.blocks b).irqNext := Prod.mk.inj hlink
  cases sel with
  | self => rfl
  | prev => rw [World.irqTargetBlock, hprev, World.irqTargetBlock]
  | next => rw [World.irqTargetBlock, hnext, World.irqTargetBlock]

theorem SameView.readStatus (h : SameView b v v') (s : Sm) (e : Garb) :
    v'.readStatus b (s.dress e) = v.readStatus b s := by
  have hlink := congrArg (·.2.2) (congrFun h.shell b)
  obtain ⟨hprev, hnext⟩ : (v'.blocks b).irqPrev = (v.blocks b).irqPrev ∧
    (v'.blocks b).irqNext = (v.blocks b).irqNext := Prod.mk.inj hlink
  have hirq : v'.irqGet = v.irqGet := funext fun c => funext fun f => h.irqGet c f
  unfold World.readStatus
  rw [hirq, hprev, hnext]
  rfl

theorem SameView.readSource (h : SameView b v v') (s : Sm) (e : Garb) (src : ℕ) :
    v'.readSource b (s.dress e) src = v.readSource b s src := by
  unfold World.readSource
  rw [h.readStatus, h.readInPins]
  rfl

/-! ### Handlers -/

/-- What two handlers hand back runs in parallel. -/
structure Outcome (K : World → World → Prop) (r r' : ExecOut) : Prop where
  world : K r.world r'.world
  stalled : r'.stalled = r.stalled
  setPc : r'.setPc = r.setPc

section Handlers
variable (hA : Coupled A) (hP : Parallel A b i K)
include hA hP

theorem Parallel.drivePins (hK : K v v') (hphys : v'.physPin b = v.physPin b) (base count : ℕ)
    (val : Word) : K (v.drivePins b i base count val) (v'.drivePins b i base count val) := by
  rw [drivePins_eq, drivePins_eq, hphys]
  exact hP.pins hK ((hP.sm hK).pins hA fun r => r.drivePins (v.physPin b) base count val)

theorem Parallel.drivePindirs (hK : K v v') (hphys : v'.physPin b = v.physPin b) (base count : ℕ)
    (val : Word) : K (v.drivePindirs b i base count val) (v'.drivePindirs b i base count val) := by
  rw [drivePindirs_eq, drivePindirs_eq, hphys]
  exact hP.pins hK ((hP.sm hK).pins hA fun r => r.drivePindirs (v.physPin b) base count val)

theorem Parallel.releaseOutPins (hK : K v v') (hphys : v'.physPin b = v.physPin b)
    (base count : ℕ) :
    K (v.releaseOutPins b i base count) (v'.releaseOutPins b i base count) := by
  rw [releaseOutPins_eq, releaseOutPins_eq, hphys]
  exact hP.pins hK ((hP.sm hK).pins hA fun r => r.releaseOutPins (v.physPin b) base count)

omit hA in
theorem Parallel.irqRaise (hK : K v v') (h : SameView b v v') (c : BlockAddr) (f : ℕ) :
    K (v.irqRaise c f) (v'.irqRaise c f) := by
  have hirq : (v'.blocks c).irq = (v.blocks c).irq := congrFun h.irqs c
  rw [World.irqRaise, World.irqRaise, hirq]
  exact hP.irq _ _ hK

omit hA in
theorem Parallel.irqClear (hK : K v v') (h : SameView b v v') (c : BlockAddr) (f : ℕ) :
    K (v.irqClear c f) (v'.irqClear c f) := by
  have hirq : (v'.blocks c).irq = (v.blocks c).irq := congrFun h.irqs c
  rw [World.irqClear, World.irqClear, hirq]
  exact hP.irq _ _ hK

omit hA in
theorem Parallel.execWait (hK : K v v') (h : SameView b v v') (operand : ℕ) :
    Outcome K (v.execWait b i operand) (v'.execWait b i operand) := by
  obtain ⟨e, he, -⟩ := hP.sm hK
  unfold World.execWait
  dsimp only
  rw [he, h.input, h.physPin, h.irqTargetBlock]
  refine rel_ite Iff.rfl ⟨hK, rfl, rfl⟩ (rel_ite Iff.rfl ⟨hK, rfl, rfl⟩ (rel_ite Iff.rfl ?_ ?_))
  · cases v.irqTargetBlock b (resolveIrqTarget i (operand % 32)).block with
    | none => exact ⟨hK, rfl, rfl⟩
    | some blk =>
      dsimp only
      rw [h.irqGet]
      refine rel_ite Iff.rfl ⟨?_, rfl, rfl⟩ ⟨hK, rfl, rfl⟩
      dsimp only
      split
      · exact hP.irqClear hK h _ _
      · exact hK
  · exact rel_ite Iff.rfl ⟨hK, rfl, rfl⟩ ⟨hK, rfl, rfl⟩

def OutcomeOut (K : World → World → Prop) (r r' : World × Option ℕ) : Prop :=
  K r.1 r'.1 ∧ r'.2 = r.2

theorem Parallel.outStore (hK : K v v') (hphys : v'.physPin b = v.physPin b) (dest : ℕ) (val : Word)
    (count : ℕ) :
    OutcomeOut K (v.outStore b i dest val count) (v'.outStore b i dest val count) := by
  have hsm := hP.sm hK
  obtain ⟨e, he, -⟩ := hP.sm hK
  unfold World.outStore
  rw [he] at hsm ⊢
  dsimp only
  split
  · exact rel_ite Iff.rfl ⟨hP.drivePins hA hK hphys _ _ _, rfl⟩
      (rel_ite Iff.rfl ⟨hP.releaseOutPins hA hK hphys _ _, rfl⟩ ⟨hK, rfl⟩)
  · exact ⟨hP.record hK (hsm.regs val _ _ _ _ _), rfl⟩
  · exact ⟨hP.record hK (hsm.regs _ val _ _ _ _), rfl⟩
  · exact ⟨hP.drivePindirs hA hK hphys _ _ _, rfl⟩
  · exact ⟨hK, rfl⟩
  · exact ⟨hP.record hK (hsm.regs _ _ _ val _ count), rfl⟩
  · exact ⟨hP.record hK (hsm.inject hA _), rfl⟩
  · exact ⟨hK, rfl⟩

theorem Parallel.execOut (hK : K v v') (h : SameView b v v') (operand : ℕ) :
    Outcome K (v.execOut b i operand) (v'.execOut b i operand) := by
  have hsm := hP.sm hK
  obtain ⟨e, he, -⟩ := hP.sm hK
  have hphys : (v'.setSm b i ((v'.sm b i).outShift (shiftCount operand))).physPin b =
      (v.setSm b i ((v.sm b i).outShift (shiftCount operand))).physPin b :=
    physPin_of_shell (by rw [shell_setSm, shell_setSm, h.shell]) b
  have hstore := hP.outStore hA (hP.record hK (hsm.outShift (shiftCount operand))) hphys
    (operand / 32 % 8) ((v.sm b i).outValue (shiftCount operand)) (shiftCount operand)
  unfold World.execOut
  rw [he] at hsm hstore ⊢
  exact rel_ite Iff.rfl ⟨hP.record hK (hsm.fdebug hA _), rfl, rfl⟩ ⟨hstore.1, rfl, hstore.2⟩

omit hA hP in
theorem movValue_sameView (h : SameView b v v') (hsm : Sm.Alike A (v.sm b i) (v'.sm b i))
    (operand : ℕ) : v'.movValue b i operand = v.movValue b i operand := by
  obtain ⟨e, he, -⟩ := hsm
  unfold movValue
  rw [he, h.readSource]

theorem Parallel.execMov (hK : K v v') (h : SameView b v v') (operand : ℕ) :
    Outcome K (v.execMov b i operand) (v'.execMov b i operand) := by
  have hsm := hP.sm hK
  have hval := movValue_sameView h hsm operand
  obtain ⟨e, he, -⟩ := hP.sm hK
  unfold World.execMov
  rw [hval, he]
  rw [he] at hsm
  dsimp only
  split
  · exact ⟨hP.drivePins hA hK h.physPin _ _ _, rfl, rfl⟩
  · exact ⟨hP.record hK (hsm.regs _ _ _ _ _ _), rfl, rfl⟩
  · exact ⟨hP.record hK (hsm.regs _ _ _ _ _ _), rfl, rfl⟩
  · exact rel_ite Iff.rfl ⟨hP.drivePindirs hA hK h.physPin _ _ _, rfl, rfl⟩ ⟨hK, rfl, rfl⟩
  · exact ⟨hP.record hK (hsm.inject hA _), rfl, rfl⟩
  · exact ⟨hK, rfl, rfl⟩
  · exact ⟨hP.record hK (hsm.regs _ _ _ _ _ _), rfl, rfl⟩
  · exact ⟨hP.record hK (hsm.regs _ _ _ _ _ _), rfl, rfl⟩

theorem Parallel.execSet (hK : K v v') (h : SameView b v v') (operand : ℕ) :
    K (v.execSet b i operand) (v'.execSet b i operand) := by
  have hsm := hP.sm hK
  obtain ⟨e, he, -⟩ := hP.sm hK
  unfold World.execSet
  rw [he] at hsm ⊢
  dsimp only
  split
  · exact hP.drivePins hA hK h.physPin _ _ _
  · exact hP.record hK (hsm.regs _ _ _ _ _ _)
  · exact hP.record hK (hsm.regs _ _ _ _ _ _)
  · exact hP.drivePindirs hA hK h.physPin _ _ _
  · exact hK

omit hA in
theorem Parallel.execIrq (hK : K v v') (h : SameView b v v') {operand : ℕ}
    (hst : operand.testBit 6 = false → operand.testBit 5 = true →
      (v'.sm b i).stalled = (v.sm b i).stalled) :
    Outcome K (v.execIrq b i operand) (v'.execIrq b i operand) := by
  unfold World.execIrq
  dsimp only
  rw [h.irqTargetBlock]
  cases v.irqTargetBlock b (resolveIrqTarget i (operand % 32)).block with
  | none => exact ⟨hK, rfl, rfl⟩
  | some blk =>
    dsimp only
    cases hclr : operand.testBit 6 with
    | true => exact ⟨hP.irqClear hK h _ _, rfl, rfl⟩
    | false =>
      cases hwait : operand.testBit 5 with
      | true =>
        have hget : ∀ f, (v'.irqRaise blk f).irqGet blk f = (v.irqRaise blk f).irqGet blk f := by
          intro f
          have hirq : (v'.blocks blk).irq = (v.blocks blk).irq := congrFun h.irqs blk
          have hirqs : (v'.irqRaise blk f).irqs = (v.irqRaise blk f).irqs := by
            rw [World.irqRaise, World.irqRaise, irqs_setIrq, irqs_setIrq, h.irqs, hirq]
          exact congrArg (·.getLsbD (f % 8)) (congrFun hirqs blk)
        simp only [Bool.false_eq_true, if_false, if_true]
        rw [hst hclr hwait]
        split
        · exact ⟨hK, h.irqGet _ _, rfl⟩
        · exact ⟨hP.irqRaise hK h _ _, hget _, rfl⟩
      | false => exact ⟨hP.irqRaise hK h _ _, rfl, rfl⟩

/-- Two executions of one word by alike state machines that see the same. -/
theorem Parallel.execInsn (hK : K v v') (h : SameView b v v') {insn : Insn}
    (hst : opcode insn = 6 → (operandOf insn).testBit 6 = false →
      (operandOf insn).testBit 5 = true →
      (v'.sm b i).stalled = (v.sm b i).stalled) :
    Outcome K (v.execInsn b i insn) (v'.execInsn b i insn) := by
  have hsm := hP.sm hK
  obtain ⟨e, he, -⟩ := hP.sm hK
  unfold World.execInsn
  dsimp only
  split
  · have hjmp := hsm.execJmp (v.inputLevel b (v.physPin b (v.sm b i).jmpPin)) (operandOf insn)
    rw [h.input, h.physPin]
    rw [he] at hjmp ⊢
    exact ⟨hP.record hK hjmp.1, rfl, hjmp.2⟩
  · exact hP.execWait hK h _
  · have hin := hsm.execIn hA (v.readSource b (v.sm b i) (operandOf insn / 32 % 8))
      (shiftCount (operandOf insn))
    rw [he] at hin ⊢
    rw [h.readSource]
    exact ⟨hP.record hK hin.1, hin.2, rfl⟩
  · exact hP.execOut hA hK h _
  · have hmov := hsm.execMovRxfifo (operandOf insn)
    have hpush := hsm.execPushpull hA (operandOf insn)
    exact rel_ite Iff.rfl ⟨hP.record hK hmov, rfl, rfl⟩ ⟨hP.record hK hpush.1, hpush.2, rfl⟩
  · exact hP.execMov hA hK h _
  · rename_i hop
    exact hP.execIrq hK h (hst hop)
  · exact ⟨hP.execSet hA hK h _, rfl, rfl⟩

/-- What two presentations hand back runs in parallel. -/
structure ExecutedAlike (K : World → World → Prop) (r r' : Executed) : Prop where
  world : K r.world r'.world
  committed : r'.committed = r.committed
  setPc : r'.setPc = r.setPc
  delay : r'.delay = r.delay

theorem Parallel.applySideset (hK : K v v') (hphys : v'.physPin b = v.physPin b)
    (ds : DelaySideset) :
    K (v.applySideset b i ds) (v'.applySideset b i ds) := by
  obtain ⟨e, he, -⟩ := hP.sm hK
  unfold World.applySideset
  rw [he]
  exact rel_ite Iff.rfl (rel_ite Iff.rfl (hP.drivePindirs hA hK hphys _ _ _)
    (hP.drivePins hA hK hphys _ _ _)) hK

/-- Two presentations of one word by alike state machines that see the same. -/
theorem Parallel.execOne (hK : K v v') (h : SameView b v v') {insn : Insn}
    (hst : opcode insn = 6 → (operandOf insn).testBit 6 = false →
      (operandOf insn).testBit 5 = true →
      (v'.sm b i).stalled = (v.sm b i).stalled) :
    ExecutedAlike K (v.execOne b i insn) (v'.execOne b i insn) := by
  have hinsn := hP.execInsn hA hK h hst
  have hds : (v'.sm b i).decodeDelaySideset (delayField insn) =
      (v.sm b i).decodeDelaySideset (delayField insn) := by
    obtain ⟨e, he, -⟩ := hP.sm hK
    rw [he]
    rfl
  have hphys : (v'.execInsn b i insn).world.physPin b = (v.execInsn b i insn).world.physPin b :=
    physPin_of_shell (by rw [(execInsn_shape v' b i insn).local.shell, h.shell,
      (execInsn_shape v b i insn).local.shell]) b
  unfold World.execOne
  dsimp only
  rw [hds]
  exact ⟨hP.applySideset hA hinsn.world hphys _, by rw [hinsn.stalled], hinsn.setPc, rfl⟩

end Handlers

end World

end PioSim
