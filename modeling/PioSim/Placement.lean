import PioSim.Calls
import PioSim.Loading

/-!
# Moving a program in the instruction memory

A `Placement` moves the programs of a world: it rewrites instruction memories and shifts the program
counters and wraps of the state machines that run them. Everything else the simulator computes is
blind to where a program lies, so that every handler commutes with a placement.
-/

namespace PioSim

variable [Platform]

/-- A state machine whose program lies `n` words further up. -/
def Sm.shift (n : ℕ) (s : Sm) : Sm :=
  { s with pc := s.pc + n, wrapBottom := s.wrapBottom + n, wrapTop := s.wrapTop + n }

/-- What becomes of the instruction memory of each block, and by how much each state machine
moves. -/
structure Placement where
  insn : BlockAddr → (Fin 32 → Insn) → Fin 32 → Insn
  used : BlockAddr → (Fin 32 → Bool) → Fin 32 → Bool
  amount : BlockAddr → Fin 4 → ℕ

def Pio.placed (p : Placement) (b : BlockAddr) (q : Pio) : Pio :=
  { q with
    insn := p.insn b q.insn
    insnUsed := p.used b q.insnUsed
    sm := fun i => (q.sm i).shift (p.amount b i) }

def World.placed (p : Placement) (w : World) : World :=
  { w with blocks := fun b => (w.blocks b).placed p b }

namespace Sm

variable {n : ℕ} {s : Sm}

section
omit [Platform]

theorem shift_osrRefill : (s.shift n).osrRefill = s.osrRefill.map (shift n) := by
  have htx : (s.shift n).tx = s.tx := rfl
  unfold osrRefill
  rw [htx]
  cases s.tx.pop with
  | none => rfl
  | some r => rfl

theorem shift_isrDrain : (s.shift n).isrDrain = s.isrDrain.map (shift n) := by
  have hrx : (s.shift n).rx.push (s.shift n).isr = s.rx.push s.isr := rfl
  unfold isrDrain
  rw [hrx]
  cases s.rx.push s.isr with
  | none => rfl
  | some r => rfl

theorem shift_osrRefill_getD :
    (s.shift n).osrRefill.getD (s.shift n) = (s.osrRefill.getD s).shift n := by
  rw [shift_osrRefill]
  cases s.osrRefill <;> rfl

theorem shift_isrDrain_getD :
    (s.shift n).isrDrain.getD (s.shift n) = (s.isrDrain.getD s).shift n := by
  rw [shift_isrDrain]
  cases s.isrDrain <;> rfl

theorem shift_ite {c : Prop} [Decidable c] {s t : Sm} :
    (if c then s else t).shift n = if c then s.shift n else t.shift n := apply_ite (shift n) c s t

/-- What a handler on the record hands back, moved. -/
def shiftFst {α : Type} (n : ℕ) (r : Sm × α) : Sm × α := (r.1.shift n, r.2)

theorem shiftFst_ite {α : Type} {c : Prop} [Decidable c] {r t : Sm × α} :
    shiftFst n (if c then r else t) = if c then shiftFst n r else shiftFst n t :=
  apply_ite (shiftFst n) c r t

theorem shift_execJmp (pin : Bool) (operand : ℕ) :
    (s.shift n).execJmp pin operand = shiftFst n (s.execJmp pin operand) := by
  unfold execJmp
  generalize operand / 32 % 8 = cond
  match cond with
  | 0 => rfl
  | 1 => rfl
  | 2 => rfl
  | 3 => rfl
  | 4 => rfl
  | 5 => rfl
  | 6 => rfl
  | _ + 7 => rfl

end

theorem shift_execIn (src : Word) (count : ℕ) :
    (s.shift n).execIn src count = shiftFst n (s.execIn src count) := by
  unfold execIn
  simp only [shiftFst_ite]
  refine if_congr Iff.rfl rfl ?_
  refine Prod.ext ?_ rfl
  have hdrain := shift_isrDrain_getD (n := n) (s := s.inShift src count)
  simp only [shiftFst, shift_ite, ← hdrain]
  rfl

theorem shift_execPushpull (operand : ℕ) :
    (s.shift n).execPushpull operand = shiftFst n (s.execPushpull operand) := by
  unfold execPushpull
  simp only [shiftFst_ite]
  have hdrain := shift_isrDrain_getD (n := n) (s := s)
  have hrefill := shift_osrRefill_getD (n := n) (s := s)
  simp only [hdrain, hrefill]
  rfl

section
omit [Platform]

theorem shift_execMovRxfifo (operand : ℕ) :
    (s.shift n).execMovRxfifo operand = (s.execMovRxfifo operand).shift n := by
  unfold execMovRxfifo
  simp only [shift_ite]
  rfl

theorem shift_backgroundAutopull :
    (s.shift n).backgroundAutopull = s.backgroundAutopull.shift n := by
  unfold backgroundAutopull
  simp only [shift_ite, ← shift_osrRefill_getD]
  rfl

theorem shift_zero (s : Sm) : s.shift 0 = s := rfl

/-- A commit moves along when the PC it leaves to is inside the memory. -/
theorem shift_retire {fromExec : Bool} {setPc : Option ℕ} {delay : ℕ}
    (h : fromExec = true ∨ setPc.isSome = true ∨ s.pc = s.wrapTop ∨ s.pc + 1 + n < 32) :
    (s.shift n).retire fromExec (setPc.map (· + n)) delay =
      (s.retire fromExec setPc delay).shift n := by
  cases fromExec with
  | true => cases setPc <;> rfl
  | false =>
    cases setPc with
    | some t => rfl
    | none =>
      have hnext : (if (s.shift n).pc = (s.shift n).wrapTop then (s.shift n).wrapBottom
          else ((s.shift n).pc + 1) % 32) =
          (if s.pc = s.wrapTop then s.wrapBottom else (s.pc + 1) % 32) + n := by
        simp only [shift, Nat.add_right_cancel_iff]
        split
        · rfl
        · simp only [Option.isSome_none, Bool.false_eq_true, false_or] at h
          omega
      simp only [retire, Bool.false_eq_true, if_false, Option.map_none, Option.getD_none, hnext]
      rfl

end

theorem shift_applyFifoJoin (join : FifoJoin) :
    (s.shift n).applyFifoJoin join = (s.applyFifoJoin join).shift n := by
  unfold applyFifoJoin
  simp only [shift_ite]
  rfl

omit [Platform] in
theorem shift_put (word : Word) : (s.shift n).put word = shiftFst n (s.put word) := by
  have htx : (s.shift n).tx = s.tx := rfl
  unfold put
  rw [htx]
  cases s.tx.push word <;> rfl

omit [Platform] in
theorem shift_get : (s.shift n).get = shiftFst n s.get := by
  have hrx : (s.shift n).rx = s.rx := rfl
  unfold get
  rw [hrx]
  cases s.rx.pop <;> rfl

end Sm

/-! ### Writes of the world -/

namespace World

variable {w : World} {p : Placement} {c : BlockAddr} {j : Fin 4}

section
omit [Platform]

theorem placed_setBlock (q : Pio) :
    (w.placed p).setBlock c (q.placed p c) = (w.setBlock c q).placed p := by
  simp only [placed, setBlock, mk.injEq, and_true]
  funext d
  by_cases hd : d = c
  · subst hd
    simp only [Function.update_self]
  · simp only [Function.update_of_ne hd]

theorem placed_setSm (s : Sm) :
    (w.placed p).setSm c j (s.shift (p.amount c j)) = (w.setSm c j s).placed p := by
  unfold setSm
  rw [← placed_setBlock]
  congr 1
  simp only [Pio.placed, placed, Pio.mk.injEq, true_and, and_true]
  funext k
  by_cases hk : k = j
  · subst hk
    simp only [Function.update_self]
  · simp only [Function.update_of_ne hk]

theorem placed_modifySm {f g : Sm → Sm}
    (hf : g ((w.sm c j).shift (p.amount c j)) = (f (w.sm c j)).shift (p.amount c j)) :
    (w.placed p).modifySm c j g = (w.modifySm c j f).placed p := by
  unfold modifySm
  rw [← placed_setSm, ← hf]
  rfl

theorem placed_setPads (r : PadRef) (q : Pads) :
    (w.placed p).setPads r q = (w.setPads r q).placed p := by
  cases r with
  | embedded b => exact placed_setBlock (p := p) { w.blocks b with padsEmbedded := q }
  | shared g => rfl

end

theorem placed_resolvePads : (w.placed p).resolvePads c = (w.resolvePads c).placed p :=
  placed_setPads _ _

omit [Platform] in
theorem placed_setIrq (v : BitVec 8) : (w.placed p).setIrq c v = (w.setIrq c v).placed p :=
  placed_setBlock (p := p) { w.blocks c with irq := v }

theorem placed_setPins (r : PinRegs) : (w.placed p).setPins c j r = (w.setPins c j r).placed p := by
  unfold setPins
  rw [← placed_resolvePads, ← placed_modifySm (g := fun s => { s with pins := r })]
  rfl

end World

/-! ### Handlers -/

/-- What a handler hands back, moved; the PC it sets is an address of the instruction word. -/
def ExecOut.placed (p : Placement) (r : ExecOut) : ExecOut := ⟨r.world.placed p, r.stalled, r.setPc⟩

namespace World

variable {w : World} {p : Placement} {c : BlockAddr} {j : Fin 4}

omit [Platform] in
theorem placed_ite {q : Prop} [Decidable q] {u v : World} :
    (if q then u else v).placed p = if q then u.placed p else v.placed p :=
      apply_ite (placed p) q u v

omit [Platform] in
theorem execOut_placed_ite {q : Prop} [Decidable q] {u v : ExecOut} :
    (if q then u else v).placed p = if q then u.placed p else v.placed p :=
  apply_ite (ExecOut.placed p) q u v

theorem placed_irqTargetBlock (t : IrqBlockSel) :
    (w.placed p).irqTargetBlock c t = w.irqTargetBlock c t := rfl

theorem placed_execWait (operand : ℕ) :
    (w.placed p).execWait c j operand = (w.execWait c j operand).placed p := by
  have hclear : ∀ blk irq, (w.placed p).irqClear blk irq = (w.irqClear blk irq).placed p :=
    fun _ _ => placed_setIrq _
  unfold execWait
  simp only [execOut_placed_ite]
  refine if_congr Iff.rfl rfl (if_congr Iff.rfl rfl (if_congr Iff.rfl ?_ rfl))
  rw [placed_irqTargetBlock]
  cases w.irqTargetBlock c (resolveIrqTarget j (operand % 32)).block with
  | none => rfl
  | some blk =>
    simp only [execOut_placed_ite]
    refine if_congr Iff.rfl ?_ rfl
    simp only [ExecOut.placed, placed_ite, hclear]

/-- A destination write, with the PC it sets. -/
def placedFst {α : Type} (p : Placement) (r : World × α) : World × α := (r.1.placed p, r.2)

theorem placed_outStore (dest : ℕ) (val : Word) (count : ℕ) :
    (w.placed p).outStore c j dest val count = placedFst p (w.outStore c j dest val count) := by
  have hreg : ∀ s : Sm, ((w.placed p).setSm c j (s.shift (p.amount c j)), (none : Option ℕ)) =
      placedFst p (w.setSm c j s, none) := fun s => by rw [placed_setSm]; rfl
  have hpins : ∀ r, ((w.placed p).setPins c j r, (none : Option ℕ)) =
      placedFst p (w.setPins c j r, none) := fun r => by rw [placed_setPins]; rfl
  unfold outStore
  match dest with
  | 0 =>
    simp only [apply_ite (placedFst p)]
    exact if_congr Iff.rfl (hpins _) (if_congr Iff.rfl (hpins _) rfl)
  | 1 => exact hreg { w.sm c j with x := val }
  | 2 => exact hreg { w.sm c j with y := val }
  | 3 => rfl
  | 4 => exact hpins _
  | 5 => rfl
  | 6 => exact hreg { w.sm c j with isr := val, isrCount := count }
  | 7 => exact hreg { w.sm c j with execPending := true, execInsn := val.setWidth 16 }
  | _ + 8 => rfl

theorem placed_execOut (operand : ℕ) :
    (w.placed p).execOut c j operand = (w.execOut c j operand).placed p := by
  have hshift : (w.placed p).setSm c j (((w.placed p).sm c j).outShift (shiftCount operand)) =
      (w.setSm c j ((w.sm c j).outShift (shiftCount operand))).placed p := by
    rw [← placed_setSm]
    rfl
  have hstall : (w.placed p).setSm c j
        { (w.placed p).sm c j with fdebug := ((w.placed p).sm c j).fdebug ||| fdebugTxstall } =
      (w.setSm c j { w.sm c j with fdebug := (w.sm c j).fdebug ||| fdebugTxstall }).placed p := by
    rw [← placed_setSm]
    rfl
  unfold execOut
  simp only [execOut_placed_ite, hshift, hstall, placed_outStore]
  rfl

theorem placed_execMov (operand : ℕ) :
    (w.placed p).execMov c j operand = (w.execMov c j operand).placed p := by
  have hreg : ∀ s : Sm, ExecOut.mk ((w.placed p).setSm c j (s.shift (p.amount c j))) false none =
      (ExecOut.mk (w.setSm c j s) false none).placed p := fun s => by rw [placed_setSm]; rfl
  have hpins : ∀ r, ExecOut.mk ((w.placed p).setPins c j r) false none =
      (ExecOut.mk (w.setPins c j r) false none).placed p := fun r => by rw [placed_setPins]; rfl
  have hval : (w.placed p).movValue c j operand = w.movValue c j operand := rfl
  unfold execMov
  simp only [hval]
  generalize w.movValue c j operand = v
  generalize operand / 32 % 8 = dest
  match dest with
  | 0 => exact hpins _
  | 1 => exact hreg { w.sm c j with x := v }
  | 2 => exact hreg { w.sm c j with y := v }
  | 3 =>
    simp only [execOut_placed_ite]
    exact if_congr Iff.rfl (hpins _) rfl
  | 4 => exact hreg { w.sm c j with execPending := true, execInsn := v.setWidth 16 }
  | 5 => rfl
  | 6 => exact hreg { w.sm c j with isr := v, isrCount := 0 }
  | _ + 7 => exact hreg { w.sm c j with osr := v, osrCount := 0 }

theorem placed_execIrq (operand : ℕ) :
    (w.placed p).execIrq c j operand = (w.execIrq c j operand).placed p := by
  have hclear : ∀ blk irq, (w.placed p).irqClear blk irq = (w.irqClear blk irq).placed p :=
    fun _ _ => placed_setIrq _
  have hraise : ∀ blk irq, (w.placed p).irqRaise blk irq = (w.irqRaise blk irq).placed p :=
    fun _ _ => placed_setIrq _
  unfold execIrq
  dsimp only
  rw [placed_irqTargetBlock]
  cases w.irqTargetBlock c (resolveIrqTarget j (operand % 32)).block with
  | none => rfl
  | some blk =>
    simp only [execOut_placed_ite, hclear, hraise]
    refine if_congr Iff.rfl rfl (if_congr Iff.rfl ?_ rfl)
    have hs : ((w.placed p).sm c j).stalled = (w.sm c j).stalled := rfl
    rw [hs]
    cases (w.sm c j).stalled <;> rfl

theorem placed_execSet (operand : ℕ) :
    (w.placed p).execSet c j operand = (w.execSet c j operand).placed p := by
  unfold execSet
  generalize BitVec.ofNat 32 (operand % 32) = v
  generalize operand / 32 % 8 = dest
  match dest with
  | 0 => exact placed_setPins _
  | 1 => exact placed_setSm { w.sm c j with x := v }
  | 2 => exact placed_setSm { w.sm c j with y := v }
  | 3 => rfl
  | 4 => exact placed_setPins _
  | _ + 5 => rfl

/-- An instruction word does the same wherever its state machine's program lies. -/
theorem placed_execInsn (insn : Insn) :
    (w.placed p).execInsn c j insn = (w.execInsn c j insn).placed p := by
  unfold execInsn
  generalize operandOf insn = operand
  generalize opcode insn = op
  match op with
  | 0 =>
    have h := (w.sm c j).shift_execJmp (n := p.amount c j)
      (w.inputLevel c (w.physPin c (w.sm c j).jmpPin)) operand
    have hr : (((w.placed p).sm c j).execJmp ((w.placed p).inputLevel c
        ((w.placed p).physPin c ((w.placed p).sm c j).jmpPin)) operand) = _ := h
    simp only [hr, Sm.shiftFst, placed_setSm]
    rfl
  | 1 => exact placed_execWait operand
  | 2 =>
    have h := (w.sm c j).shift_execIn (n := p.amount c j)
      (w.readSource c (w.sm c j) (operand / 32 % 8)) (shiftCount operand)
    have hr : ((w.placed p).sm c j).execIn ((w.placed p).readSource c ((w.placed p).sm c j)
        (operand / 32 % 8)) (shiftCount operand) = _ := h
    simp only [hr, Sm.shiftFst, placed_setSm]
    rfl
  | 3 => exact placed_execOut operand
  | 4 =>
    have hm : ((w.placed p).sm c j).execMovRxfifo operand = _ :=
      (w.sm c j).shift_execMovRxfifo (n := p.amount c j) operand
    have hp : ((w.placed p).sm c j).execPushpull operand = _ :=
      (w.sm c j).shift_execPushpull (n := p.amount c j) operand
    simp only [execOut_placed_ite, hm, hp, Sm.shiftFst, placed_setSm]
    rfl
  | 5 => exact placed_execMov operand
  | 6 => exact placed_execIrq operand
  | _ + 7 =>
    simp only [placed_execSet]
    rfl

theorem placed_applySideset (ds : DelaySideset) :
    (w.placed p).applySideset c j ds = (w.applySideset c j ds).placed p := by
  unfold applySideset
  simp only [placed_ite]
  exact if_congr Iff.rfl (if_congr Iff.rfl (placed_setPins _) (placed_setPins _)) rfl

theorem placed_execOne (insn : Insn) :
    (w.placed p).execOne c j insn =
      { w.execOne c j insn with world := (w.execOne c j insn).world.placed p } := by
  unfold execOne
  simp only [placed_execInsn, ExecOut.placed, ← placed_applySideset]
  rfl

end World

/-! ### Calls -/

/-- A block no program of which is moved. -/
structure Placement.Idle (p : Placement) (c : BlockAddr) : Prop where
  insn : p.insn c = id
  used : p.used c = id
  amount : ∀ j, p.amount c j = 0

omit [Platform] in
theorem Placement.Idle.placed {p : Placement} {c : BlockAddr} (h : p.Idle c) (q : Pio) :
    q.placed p c = q := by
  simp only [Pio.placed, h.insn, h.used, h.amount, Sm.shift_zero, id]

namespace World

variable {w : World} {p : Placement} {c : BlockAddr} {j : Fin 4}

section
omit [Platform]

theorem blocks_placed (w : World) (h : p.Idle c) : (w.placed p).blocks c = w.blocks c := h.placed _

theorem placed_setBlock_idle (h : p.Idle c) (q : Pio) :
    (w.placed p).setBlock c q = (w.setBlock c q).placed p := by
  rw [← placed_setBlock, h.placed]

theorem placed_modifySm_zero (h : p.amount c j = 0) (f : Sm → Sm) :
    (w.placed p).modifySm c j f = (w.modifySm c j f).placed p :=
  placed_modifySm (by rw [h, Sm.shift_zero, Sm.shift_zero])

end

theorem placed_smExec {insn : Insn} (h : p.amount c j = 0 ∨
      ((w.modifySm c j fun s => { s with stalled := false }).execOne c j insn).setPc = none) :
    (w.placed p).smExec c j insn = (w.smExec c j insn).placed p := by
  have hw : (w.placed p).modifySm c j (fun s => { s with stalled := false }) =
      (w.modifySm c j fun s => { s with stalled := false }).placed p := placed_modifySm rfl
  unfold smExec
  simp only [hw, placed_execOne, placed_ite]
  refine if_congr Iff.rfl (placed_modifySm ?_) (placed_modifySm rfl)
  rcases h with h | h
  · rw [h, Sm.shift_zero, Sm.shift_zero]
  · rw [h]
    rfl

/-- A presentation moves along when the word at the new place does what the old one does, but for
the PC it sets, and leaves to an address inside the memory. -/
theorem placed_present (hfetch : (w.placed p).countFetch c j = (w.countFetch c j).placed p)
    (hone : ((w.countFetch c j).placed p).execOne c j ((w.placed p).getInstruction c j) =
      let r := (w.countFetch c j).execOne c j (w.getInstruction c j)
      { r with world := r.world.placed p, setPc := r.setPc.map (· + p.amount c j) })
    (hleave : let r := (w.countFetch c j).execOne c j (w.getInstruction c j)
      (w.sm c j).execPending = true ∨ r.setPc.isSome = true ∨
        (r.world.sm c j).pc = (r.world.sm c j).wrapTop ∨
        (r.world.sm c j).pc + 1 + p.amount c j < 32) :
    (w.placed p).present c j = (w.present c j).placed p := by
  unfold present
  simp only [hfetch, hone, placed_ite]
  refine if_congr Iff.rfl (placed_modifySm ?_) (placed_modifySm rfl)
  exact Sm.shift_retire hleave

theorem placed_smCycle (h : ((w.modifySm c j Sm.backgroundAutopull).placed p).present c j =
      ((w.modifySm c j Sm.backgroundAutopull).present c j).placed p) :
    (w.placed p).smCycle c j = (w.smCycle c j).placed p := by
  have hpull : (w.placed p).modifySm c j Sm.backgroundAutopull =
      (w.modifySm c j Sm.backgroundAutopull).placed p :=
    placed_modifySm Sm.shift_backgroundAutopull
  unfold smCycle
  rw [hpull]
  dsimp only
  generalize w.modifySm c j Sm.backgroundAutopull = v at h ⊢
  have hdelay : ((v.placed p).sm c j).delay = (v.sm c j).delay := rfl
  rw [h, hdelay, placed_ite]
  refine if_congr Iff.rfl ?_ rfl
  exact placed_modifySm (f := fun s : Sm => { s with delay := s.delay - 1 }) rfl

/-- In a block that is not moved nothing depends on the placement. -/
theorem placed_present_idle (h : p.Idle c) :
    (w.placed p).present c j = (w.present c j).placed p := by
  have hblock := w.blocks_placed h
  have hsm : (w.placed p).sm c j = w.sm c j := by rw [World.sm, hblock, World.sm]
  have hinsn : (w.placed p).getInstruction c j = w.getInstruction c j := by
    unfold getInstruction
    rw [hsm, hblock]
  have hfetch : (w.placed p).countFetch c j = (w.countFetch c j).placed p := by
    unfold countFetch
    rw [hsm, hblock, placed_ite, placed_setBlock_idle h]
  unfold present
  simp only [hfetch, hinsn, hsm, placed_execOne, placed_ite, placed_modifySm_zero (h.amount j)]

omit [Platform] in
theorem shift_stickyReassert (s : Sm) (n : ℕ) :
    stickyReassert (s.shift n) = (stickyReassert s).shift n := by
  unfold stickyReassert
  rw [Sm.shift_ite]
  rfl

theorem placed_smTick
    (h : (w.sm c j).enabled = true → ∀ accum, let v := w.setSm c j { w.sm c j with clkAccum := accum }
      (v.placed p).smCycle c j = (v.smCycle c j).placed p) :
    (w.placed p).smTick c j = (w.smTick c j).placed p := by
  have haccum : ∀ accum, (w.placed p).setSm c j { (w.placed p).sm c j with clkAccum := accum } =
      (w.setSm c j { w.sm c j with clkAccum := accum }).placed p :=
    fun accum => placed_setSm { w.sm c j with clkAccum := accum }
  have hdiv : divUnits ((w.placed p).sm c j) = divUnits (w.sm c j) := rfl
  have hclk : ((w.placed p).sm c j).clkAccum = (w.sm c j).clkAccum := rfl
  unfold smTick
  simp only [hdiv, hclk, placed_ite]
  refine if_congr Iff.rfl ?_ (haccum _)
  rw [haccum]
  refine Eq.trans (if_congr (Q := (w.sm c j).enabled = true) Iff.rfl rfl rfl) ?_
  by_cases he : (w.sm c j).enabled = true
  · rw [if_pos he, if_pos he, h he]
    exact placed_modifySm (shift_stickyReassert _ _)
  · rw [if_neg he, if_neg he]

omit [Platform] in
theorem placed_openWindow : (w.placed p).openWindow c = (w.openWindow c).placed p :=
  List.foldl_hom (placed p) fun _ _ => placed_modifySm rfl

theorem placed_tickEnd : (w.placed p).tickEnd c = (w.tickEnd c).placed p := by
  unfold tickEnd
  have hclock :
    (if (w.placed p).padRef c = .embedded c then (w.placed p).modifyPads c Pads.clockSync
      else w.placed p) =
      (if w.padRef c = .embedded c then w.modifyPads c Pads.clockSync else w).placed p := by
    rw [placed_ite]
    exact if_congr Iff.rfl (placed_setPads _ _) rfl
  simp only [hclock, ← placed_setBlock]
  rfl

theorem placed_setSmMaskEnabled (mask : BitVec 8) (enabled : Bool) :
    (w.placed p).setSmMaskEnabled c mask enabled =
      (w.setSmMaskEnabled c mask enabled).placed p := by
  have hfold : ∀ l : List (Fin 4), l.foldl (fun w (i : Fin 4) => if mask.getLsbD i then
      w.modifySm c i fun s => { s with enabled := enabled } else w) (w.placed p) =
      (l.foldl (fun w (i : Fin 4) => if mask.getLsbD i then
        w.modifySm c i fun s => { s with enabled := enabled } else w) w).placed p := by
    refine fun l => List.foldl_hom (placed p) fun v i => ?_
    rw [placed_ite]
    exact if_congr Iff.rfl (placed_modifySm rfl) rfl
  unfold setSmMaskEnabled
  rw [hfold, placed_resolvePads]

omit [Platform] in
theorem placed_clkdivRestartSmMask (mask : BitVec 8) :
    (w.placed p).clkdivRestartSmMask c mask = (w.clkdivRestartSmMask c mask).placed p := by
  refine List.foldl_hom (placed p) fun v i => ?_
  rw [placed_ite]
  exact if_congr Iff.rfl (placed_modifySm rfl) rfl

theorem placed_groupInit (g : GroupAddr) (blocks : List BlockAddr) :
    (w.placed p).groupInit g blocks = (w.groupInit g blocks).placed p := by
  unfold groupInit
  simp only [placed_ite]
  refine if_congr Iff.rfl ?_ rfl
  change List.foldl _ ((w.setGroup g { w.groups g with
    blk := blocks.take numPio, shared := false }).placed p) _ = _
  refine List.foldl_hom (placed p) fun v i => ?_
  generalize (blocks.take numPio)[(i + (blocks.take numPio).length - 1) %
    (blocks.take numPio).length]? = prev
  generalize (blocks.take numPio)[(i + 1) % (blocks.take numPio).length]? = next
  cases (blocks.take numPio)[i]? with
  | none => rfl
  | some b => exact placed_setBlock (p := p) ((v.blocks b).setIrqNeighbors prev next)

theorem placed_groupInitShared (g : GroupAddr) (blocks : List BlockAddr) :
    (w.placed p).groupInitShared g blocks = (w.groupInitShared g blocks).placed p := by
  unfold groupInitShared
  simp only [placed_groupInit]
  change List.foldl _ (((w.groupInit g blocks).setGroup g { (w.groupInit g blocks).groups g with
    shared := true, pads := Pads.initDefaults (blocks.take numPio) }).placed p) _ = _
  exact List.foldl_hom (placed p) fun v b =>
    placed_setBlock (p := p) { v.blocks b with pads := .shared g }

end World
end PioSim
