import PioSim.Calls
import PioSim.Operation
import PioSim.Lib.Register

/-!
# The RX register file

In the joins `PUT`, `GET` and `PUTGET` the RX FIFO is four registers, which the state machine
reaches by the indexed RX-FIFO moves and the host by `pio_sim_sm_rxfifo_get` and
`pio_sim_sm_rxfifo_put`. No push of the shift path gets at them, so along every run a read gets what
the last write to its register put there.
-/

namespace PioSim

open Register (Access)

variable [Platform]

namespace Sm

def rxfifoGet (s : Sm) (index : ℕ) : Word := s.rx.buf (Fin.ofNat 8 (index % 4))

/-- The joins in which the state machine may write a register, and those in which it may read
one. -/
abbrev canPut (s : Sm) : Prop := s.fifoJoin = .rxPut ∨ s.fifoJoin = .rxPutget
abbrev canGet (s : Sm) : Prop := s.fifoJoin = .rxGet ∨ s.fifoJoin = .rxPutget

/-- What an operation that runs from `s` to `s'` does with register `index`. -/
def accesses (index : ℕ) (s s' : Sm) : Operation ℕ → List (Access Word)
  | .movToRxfifo k => if s.canPut ∧ s.rxSlot k = Fin.ofNat 8 (index % 4) then [.wrote s.isr] else []
  | .movFromRxfifo k => if s.canGet ∧ s.rxSlot k = Fin.ofNat 8 (index % 4) then
    [.read s'.osr] else []
  | _ => []

def registersAfter (s : Sm) : Operation ℕ → Fin 8 → Word
  | .movToRxfifo k => if s.canPut then Function.update s.rx.buf (s.rxSlot k) s.isr else s.rx.buf
  | _ => s.rx.buf

/-- From `s` to `s'` the operation did to the registers what it says. -/
structure Moved (op : Operation ℕ) (s s' : Sm) : Prop where
  registers : s'.rx.buf = s.registersAfter op
  loaded : ∀ k, op = .movFromRxfifo k → s.canGet → s'.osr = s.rx.buf (s.rxSlot k)

/-- The RX FIFO and what was ever pushed to it. -/
def receipts (s : Sm) : Fifo × List Word := (s.rx, s.pushed)

def moveView (s : Sm) : (Fin 8 → Word) × Word × Word × FifoJoin :=
  (s.rx.buf, s.y, s.isr, s.fifoJoin)

section
omit [Platform]

theorem registersAfter_congr {s t : Sm} (h : t.moveView = s.moveView) (op : Operation ℕ) :
    t.registersAfter op = s.registersAfter op := by
  simp only [moveView, Prod.mk.injEq] at h
  obtain ⟨hbuf, hy, hisr, hjoin⟩ := h
  cases op with
  | movToRxfifo k => simp only [registersAfter, canPut, rxSlot, hbuf, hy, hisr, hjoin]
  | _ => exact hbuf

/-- Only the fields the moves read matter at the start, only the registers and the OSR at the
end. -/
theorem Moved.congr {op : Operation ℕ} {s t s' t' : Sm} (h : t.Moved op t')
    (hs : t.moveView = s.moveView)
    (hbuf : s'.rx.buf = t'.rx.buf) (hosr : s'.osr = t'.osr) : s.Moved op s' where
  registers := hbuf.trans (h.registers.trans (registersAfter_congr hs op))
  loaded k hk hget := by
    have hloaded := h.loaded k hk
    simp only [moveView, Prod.mk.injEq] at hs
    obtain ⟨hb, hy, -, hj⟩ := hs
    unfold rxSlot canGet at hloaded
    rw [hj, hb, hy] at hloaded
    rw [hosr]
    exact hloaded hget

/-- What an operation says it does to a register is what becomes of the register. -/
theorem Moved.accounts {op : Operation ℕ} {s s' : Sm} (h : s.Moved op s') (index : ℕ) :
    Register.Legal (s.rxfifoGet index) (accesses index s s' op) ∧
      s'.rxfifoGet index = Register.value (s.rxfifoGet index) (accesses index s s' op) := by
  have hregisters := congrFun h.registers (Fin.ofNat 8 (index % 4))
  cases op with
  | movToRxfifo k =>
    by_cases hput : s.canPut
    · rw [registersAfter, if_pos hput] at hregisters
      by_cases hslot : s.rxSlot k = Fin.ofNat 8 (index % 4)
      · rw [accesses, if_pos ⟨hput, hslot⟩]
        refine ⟨trivial, hregisters.trans ?_⟩
        rw [← hslot, Function.update_self]
        rfl
      · rw [accesses, if_neg fun hboth => hslot hboth.2]
        exact ⟨trivial, hregisters.trans (Function.update_of_ne (Ne.symm hslot) _ _)⟩
    · rw [registersAfter, if_neg hput] at hregisters
      rw [accesses, if_neg fun hboth => hput hboth.1]
      exact ⟨trivial, hregisters⟩
  | movFromRxfifo k =>
    by_cases hread : s.canGet ∧ s.rxSlot k = Fin.ofNat 8 (index % 4)
    · have hloaded := h.loaded k rfl hread.1
      rw [hread.2] at hloaded
      rw [accesses, if_pos hread]
      exact ⟨⟨hloaded, trivial⟩, hregisters⟩
    · rw [accesses, if_neg hread]
      exact ⟨trivial, hregisters⟩
  | _ => exact ⟨trivial, hregisters⟩

end

/-! ### The operations -/

section
omit [Platform]

theorem buf_movToRxfifo (s : Sm) (k : Option ℕ) :
    (s.movToRxfifo k).rx.buf = s.registersAfter (.movToRxfifo k) := by
  by_cases h : s.canPut
  · rw [registersAfter, if_pos h, movToRxfifo, if_pos h]
  · rw [registersAfter, if_neg h, movToRxfifo, if_neg h]

theorem buf_movFromRxfifo (s : Sm) (k : Option ℕ) : (s.movFromRxfifo k).rx.buf = s.rx.buf := by
  unfold movFromRxfifo
  split <;> rfl

theorem osr_movFromRxfifo {s : Sm} (h : s.canGet) (k : Option ℕ) :
    (s.movFromRxfifo k).osr = s.rx.buf (s.rxSlot k) := by
  rw [movFromRxfifo, if_pos h]

end

/-- An IN cannot push in a register-file join. -/
theorem buf_execIn {s : Sm} (hreg : s.rxFifoIsRegisterFile = true) (src : Word) (count : ℕ) :
    (s.execIn src count).1.rx.buf = s.rx.buf := by
  have hblocked : s.pushBlocked = true := by rw [pushBlocked, hreg, Bool.true_or]
  unfold execIn
  dsimp only
  rw [hblocked, Bool.and_true]
  split
  · rfl
  · rename_i hno
    have hcount := s.inShift_isrCount_le src count
    have hskip : ¬ ((s.inShift src count).autopush &&
        decide ((s.inShift src count).pushThresh ≤ (s.inShift src count).isrCount)) = true := by
      intro hdrain
      rw [Bool.and_eq_true, decide_eq_true_eq] at hdrain hno
      exact hno ⟨hdrain.1, Nat.le_trans hdrain.2 hcount⟩
    rw [if_neg hskip]
    rfl

theorem buf_push {s : Sm} (hreg : s.rxFifoIsRegisterFile = true) (ifFull block : Bool) :
    (s.push ifFull block).1.rx.buf = s.rx.buf := by
  have hblocked : s.pushBlocked = true := by rw [pushBlocked, hreg, Bool.true_or]
  unfold push
  dsimp only
  rw [if_pos hblocked]
  split_ifs <;> rfl

section
omit [Platform]

theorem receipts_osrRefill (s : Sm) : (s.osrRefill.getD s).receipts = s.receipts := by
  cases h : s.osrRefill with
  | none => rfl
  | some s' =>
    obtain ⟨v, tx, -, rfl⟩ := osrRefill_eq_some h
    rfl

theorem receipts_pull (s : Sm) (ifEmpty block : Bool) :
    (s.pull ifEmpty block).1.receipts = s.receipts := by
  unfold pull
  dsimp only
  split_ifs
  any_goals rfl
  exact receipts_osrRefill s

theorem receipts_test (s : Sm) (pin : Bool) (cond : JmpCond) :
    (cond.test s pin).2.receipts = s.receipts := by
  cases cond <;> rfl

end

end Sm

namespace World

variable {w : World} {b : BlockAddr} {i : Fin 4}

theorem receipts_outTo (w : World) (b : BlockAddr) (i : Fin 4) (val : Word) (count : ℕ)
    (dest : Place) :
    ((w.outTo b i val count dest).1.sm b i).receipts = (w.sm b i).receipts := by
  cases dest with
  | pins =>
    unfold outTo
    dsimp only
    split_ifs
    · rw [drivePins_eq, sm_setPins_self]
      rfl
    · rw [releaseOutPins_eq, sm_setPins_self]
      rfl
    · rfl
  | pindirs =>
    rw [outTo, drivePindirs_eq, sm_setPins_self]
    rfl
  | x | y | isr | exec =>
    rw [outTo, sm_setSm_self]
    rfl
  | null | pc | osr | status => rfl

theorem receipts_movTo (w : World) (b : BlockAddr) (i : Fin 4) (v : Word) (dest : Place) :
    ((w.movTo b i v dest).1.sm b i).receipts = (w.sm b i).receipts := by
  cases dest with
  | pins =>
    rw [movTo, drivePins_eq, sm_setPins_self]
    rfl
  | pindirs =>
    show ((if hasMovPindirs then _ else _ : World × Option ℕ).1.sm b i).receipts = _
    split
    · rw [drivePindirs_eq, sm_setPins_self]
      rfl
    · rfl
  | x | y | isr | osr | exec =>
    rw [movTo, sm_setSm_self]
    rfl
  | null | pc | status => rfl

theorem receipts_setTo (w : World) (b : BlockAddr) (i : Fin 4) (v : Word) (dest : Place) :
    ((w.setTo b i v dest).sm b i).receipts = (w.sm b i).receipts := by
  cases dest with
  | pins =>
    rw [setTo, drivePins_eq, sm_setPins_self]
    rfl
  | pindirs =>
    rw [setTo, drivePindirs_eq, sm_setPins_self]
    rfl
  | x | y =>
    rw [setTo, sm_setSm_self]
    rfl
  | null | pc | isr | osr | exec | status => rfl

theorem sm_waitIrq (w : World) (b : BlockAddr) (pol : Bool) (t : IrqTarget) :
    (w.waitIrq b pol t).world.sm = w.sm := by
  unfold waitIrq
  split
  · rfl
  · split_ifs
    · exact sm_setIrq _ _
    · rfl
    · rfl

theorem sm_wait (w : World) (b : BlockAddr) (i : Fin 4) (pol : Bool) (index : ℕ) (ref : IrqRef)
    (source : WaitSource) : (w.wait b i pol index ref source).world.sm = w.sm := by
  cases source with
  | gpio | pin => rfl
  | irq => exact sm_waitIrq w b pol _
  | jmppin =>
    show (if hasWaitJmppin then _ else _ : ExecOut).world.sm = w.sm
    split <;> rfl

theorem sm_irq (w : World) (b : BlockAddr) (i : Fin 4) (clr waits : Bool) (t : IrqTarget) :
    (w.irq b i clr waits t).world.sm = w.sm := by
  unfold irq
  split
  · rfl
  · split_ifs
    any_goals rfl
    all_goals exact sm_setIrq _ _

/-- In a register-file join every operation does to the registers what it says. -/
theorem moved_runOperation (hreg : (w.sm b i).rxFifoIsRegisterFile = true) (op : Operation ℕ) :
    (w.sm b i).Moved op ((w.runOperation b i op).world.sm b i) := by
  cases op with
  | movToRxfifo k =>
    refine ⟨?_, fun k hk => by cases hk⟩
    rw [runOperation, sm_setSm_self]
    exact Sm.buf_movToRxfifo _ k
  | movFromRxfifo k =>
    rw [runOperation, sm_setSm_self]
    refine ⟨Sm.buf_movFromRxfifo _ k, fun j hj hget => ?_⟩
    cases hj
    exact Sm.osr_movFromRxfifo hget k
  | jmp cond target =>
    refine ⟨?_, fun k hk => by cases hk⟩
    rw [runOperation, sm_setSm_self]
    exact congrArg (fun r => r.1.buf) (Sm.receipts_test _ _ cond)
  | wait polarity source index ref =>
    refine ⟨?_, fun k hk => by cases hk⟩
    rw [runOperation, sm_wait]
    rfl
  | «in» src count =>
    refine ⟨?_, fun k hk => by cases hk⟩
    rw [runOperation, sm_setSm_self, Sm.buf_execIn hreg]
    rfl
  | out dest count =>
    refine ⟨?_, fun k hk => by cases hk⟩
    unfold runOperation
    dsimp only
    split
    · rw [sm_setSm_self]
      rfl
    · have hout := receipts_outTo (w.setSm b i ((w.sm b i).outShift count)) b i
        ((w.sm b i).outValue count) count dest
      rw [sm_setSm_self] at hout
      exact congrArg (fun r => r.1.buf) hout
  | push ifFull block =>
    refine ⟨?_, fun k hk => by cases hk⟩
    rw [runOperation, sm_setSm_self, Sm.buf_push hreg]
    rfl
  | pull ifEmpty block =>
    refine ⟨?_, fun k hk => by cases hk⟩
    rw [runOperation, sm_setSm_self]
    exact congrArg (fun r => r.1.buf) (Sm.receipts_pull _ ifEmpty block)
  | mov dest op src =>
    refine ⟨?_, fun k hk => by cases hk⟩
    exact congrArg (fun r => r.1.buf) (receipts_movTo w b i _ dest)
  | irq clr waits index ref =>
    refine ⟨?_, fun k hk => by cases hk⟩
    rw [runOperation, sm_irq]
    rfl
  | set dest value =>
    refine ⟨?_, fun k hk => by cases hk⟩
    exact congrArg (fun r => r.1.buf) (receipts_setTo w b i _ dest)

theorem moved_execOne (hreg : (w.sm b i).rxFifoIsRegisterFile = true) (insn : Insn) :
    (w.sm b i).Moved (decode insn) ((w.execOne b i insn).world.sm b i) := by
  obtain ⟨r, hr⟩ := sm_applySideset (w.execInsn b i insn).world b i
    ((w.sm b i).decodeDelaySideset (delayField insn))
  have hmoved := moved_runOperation hreg (decode insn)
  rw [← execInsn_eq] at hmoved
  refine hmoved.congr rfl ?_ ?_
  · rw [execOne, hr]
  · rw [execOne, hr]

/-! ### Calls -/

def Executes (b : BlockAddr) (i : Fin 4) (w : World) : Call → Prop
  | .smExec c k _ => (c, smIdx k) = (b, i)
  | .tickSms c => c = b ∧ w.due b i = true
  | _ => False

/-- What a call does with register `index` of state machine `(b, i)`: the host writes it, the state
machine executes an RX-FIFO move, or the block is initialised. -/
def registerAccesses (b : BlockAddr) (i : Fin 4) (index : ℕ) (w : World) (c : Call) :
    List (Access Word) :=
  match c with
  | .sm c k (.rxfifoPut j word) => if (c, smIdx k) = (b, i) ∧
      j % 4 = index % 4 then [.wrote word] else []
  | .smExec c k insn =>
    if (c, smIdx k) = (b, i) then (w.sm b i).accesses index ((w.smExec c (smIdx k) insn).sm b i)
      (decode insn)
    else []
  | .tickSms c =>
    if c = b ∧ w.due b i = true ∧ (w.sm b i).delay = 0 then
      (w.sm b i).accesses index ((w.tickSms c).sm b i) (decode (w.getInstruction b i))
    else []
  | .init c => if c = b then [.wrote 0] else []
  | _ => []

abbrev AccountsFor (b : BlockAddr) (i : Fin 4) (index : ℕ) (w : World) (c : Call) : Prop :=
  Register.Accounts World.step (fun v => (v.sm b i).rxfifoGet index)
    (registerAccesses b i index) w c

theorem accountsFor_of_quiet {index : ℕ} {c : Call}
    (hbuf : ((w.step c).sm b i).rx.buf = (w.sm b i).rx.buf)
    (hquiet : registerAccesses b i index w c = []) : AccountsFor b i index w c := by
  unfold AccountsFor Register.Accounts
  rw [hquiet]
  exact ⟨trivial, congrFun hbuf _⟩

theorem accountsFor_of_moved {index : ℕ} {c : Call} {op : Operation ℕ}
    (hmoved : (w.sm b i).Moved op ((w.step c).sm b i))
    (hmade : registerAccesses b i index w c = (w.sm b i).accesses index ((w.step c).sm b i) op) :
    AccountsFor b i index w c := by
  unfold AccountsFor Register.Accounts
  rw [hmade]
  exact hmoved.accounts index

omit [Platform] in
theorem moveView_backgroundAutopull (s : Sm) : s.backgroundAutopull.moveView = s.moveView := by
  rcases s.backgroundAutopull_eq with h | ⟨v, tx, h⟩
  · rw [h]
  · rw [h]
    rfl

theorem moved_smExec {c : BlockAddr} {k : ℕ} (hself : (c, smIdx k) = (b, i))
    (hreg : (w.sm b i).rxFifoIsRegisterFile = true) (insn : Insn) :
    (w.sm b i).Moved (decode insn) ((w.smExec c (smIdx k) insn).sm b i) := by
  obtain ⟨rfl, rfl⟩ := Prod.mk.inj hself
  generalize hstart : w.modifySm c (smIdx k) (fun s => { s with stalled := false }) = v
  have hv : v.sm c (smIdx k) = { w.sm c (smIdx k) with stalled := false } := by
    rw [← hstart, sm_modifySm_self]
  have hmoved := moved_execOne (w := v) (b := c) (i := smIdx k) (by rw [hv]; exact hreg) insn
  refine hmoved.congr (by rw [hv]; rfl) ?_ ?_
  · unfold smExec
    dsimp only
    rw [hstart]
    split <;> rw [sm_modifySm_self]
  · unfold smExec
    dsimp only
    rw [hstart]
    split <;> rw [sm_modifySm_self]

theorem moved_tickSms (hdue : w.due b i = true) (hdelay : (w.sm b i).delay = 0)
    (hreg : (w.sm b i).rxFifoIsRegisterFile = true) :
    (w.sm b i).Moved (decode (w.getInstruction b i)) ((w.tickSms b).sm b i) := by
  have hview : ((w.presentWorld b i).sm b i).moveView = (w.sm b i).moveView := by
    rw [sm_presentWorld, moveView_backgroundAutopull, sm_cycleWorld]
    rfl
  have hjoin : ((w.presentWorld b i).sm b i).rxFifoIsRegisterFile = true := by
    unfold Sm.rxFifoIsRegisterFile
    rw [show ((w.presentWorld b i).sm b i).fifoJoin = (w.sm b i).fifoJoin from congrArg
      (·.2.2.2) hview]
    exact hreg
  have hmoved := moved_execOne hjoin (w.getInstruction b i)
  generalize hr : (w.presentWorld b i).execOne b i (w.getInstruction b i) = r at hmoved
  have htick := sm_tickSms_of_presents hdue hdelay hr
  obtain ⟨p, hp⟩ := stickyReassert_eq (if r.committed
    then (r.world.sm b i).retire (w.sm b i).execPending r.setPc r.delay
    else { r.world.sm b i with stalled := true })
  rw [hp] at htick
  have hend : (if r.committed then (r.world.sm b i).retire (w.sm b i).execPending r.setPc r.delay
      else { r.world.sm b i with stalled := true }).rx = (r.world.sm b i).rx ∧
      (if r.committed then (r.world.sm b i).retire (w.sm b i).execPending r.setPc r.delay
      else { r.world.sm b i with stalled := true }).osr = (r.world.sm b i).osr := by
    unfold Sm.retire
    split
    · split <;> exact ⟨rfl, rfl⟩
    · exact ⟨rfl, rfl⟩
  refine hmoved.congr hview ?_ ?_
  · rw [htick]
    exact congrArg Fifo.buf hend.1
  · rw [htick]
    exact hend.2

theorem buf_tickSms_of_delay (hdue : w.due b i = true) (hdelay : 0 < (w.sm b i).delay) :
    ((w.tickSms b).sm b i).rx.buf = (w.sm b i).rx.buf := by
  rw [sm_tickSms_of_delay hdue hdelay]
  obtain ⟨p, hp⟩ := stickyReassert_eq { Sm.backgroundAutopull ((w.cycleWorld b i).sm b i) with
    delay := (w.sm b i).delay - 1 }
  rw [hp]
  have hview := moveView_backgroundAutopull ((w.cycleWorld b i).sm b i)
  rw [sm_cycleWorld] at hview ⊢
  exact congrArg Prod.fst hview

theorem buf_tickSms_of_not_due (hdue : w.due b i = false) :
    ((w.tickSms b).sm b i).rx.buf = (w.sm b i).rx.buf := by
  obtain ⟨n, h⟩ := sm_tickSms_of_not_due hdue
  rw [h]
  rfl

theorem buf_setConfig (s : Sm) (c : SmConfig) : (s.setConfig c).rx.buf = s.rx.buf := by
  unfold Sm.setConfig Sm.applyFifoJoin
  dsimp only
  split <;> rfl

/-- Every host operation but the register write leaves the registers alone. -/
theorem buf_apply {op : SmOp} (h : ∀ j word, op ≠ .rxfifoPut j word) (s : Sm) :
    (op.apply s).rx.buf = s.rx.buf := by
  cases op with
  | rxfifoPut j word => exact absurd rfl (h j word)
  | setConfig c => exact buf_setConfig s c
  | put word =>
    obtain ⟨f, t, he⟩ := s.put_eq word
    rw [SmOp.apply, he]
  | get =>
    unfold SmOp.apply Sm.get
    dsimp only
    split
    · rfl
    · rename_i v rx hpop
      unfold Fifo.pop at hpop
      split at hpop
      · cases hpop
      · obtain ⟨-, rfl⟩ := Prod.mk.inj (Option.some.inj hpop)
        rfl
  | _ => rfl

/-- Every call accounts for the register, as long as the state machine only executes in a
register-file join. -/
theorem accountsFor_step (index : ℕ) {c : Call}
    (h : Executes b i w c → (w.sm b i).rxFifoIsRegisterFile = true) :
    AccountsFor b i index w c := by
  by_cases hdrives : c.Drives b i
  swap
  · have hsteady : Steady fun s : Sm => s.rx.buf := ⟨fun _ _ => rfl, fun _ _ => rfl, fun _ _ => rfl⟩
    refine accountsFor_of_quiet (keeps_step hsteady hdrives) ?_
    cases c with
    | sm c k op =>
      cases op with
      | rxfifoPut j word => exact if_neg fun hboth => hdrives hboth.1
      | _ => rfl
    | smExec c k insn => exact if_neg hdrives
    | tickSms c => exact if_neg fun hboth => hdrives hboth.1
    | init c => exact if_neg hdrives
    | _ => rfl
  cases c with
  | tickSms c =>
    obtain rfl : c = b := hdrives
    cases hdue : w.due c i with
    | false =>
      exact accountsFor_of_quiet (buf_tickSms_of_not_due hdue)
        (if_neg fun hboth => Bool.false_ne_true (hdue.symm.trans hboth.2.1))
    | true =>
      rcases Nat.eq_zero_or_pos (w.sm c i).delay with hdelay | hdelay
      · exact accountsFor_of_moved (moved_tickSms hdue hdelay (h ⟨rfl, hdue⟩))
          (if_pos ⟨rfl, hdue, hdelay⟩)
      · exact accountsFor_of_quiet (buf_tickSms_of_delay hdue hdelay)
          (if_neg fun hboth => Nat.ne_of_gt hdelay hboth.2.2)
  | smExec c k insn =>
    exact accountsFor_of_moved (moved_smExec hdrives (h hdrives) insn) (if_pos hdrives)
  | init c =>
    obtain rfl : c = b := hdrives
    unfold AccountsFor Register.Accounts
    dsimp only
    rw [show registerAccesses c i index w (.init c) = [.wrote 0] from if_pos rfl, step_init]
    exact ⟨trivial, rfl⟩
  | sm c k op =>
    obtain ⟨rfl, rfl⟩ := Prod.mk.inj hdrives
    by_cases hput : ∃ j word, op = .rxfifoPut j word
    · obtain ⟨j, word, rfl⟩ := hput
      unfold AccountsFor Register.Accounts
      dsimp only
      rw [step, sm_modifySm_self]
      unfold registerAccesses Sm.rxfifoGet
      dsimp only
      by_cases hindex : j % 4 = index % 4
      · rw [if_pos ⟨rfl, hindex⟩, ← hindex]
        exact ⟨trivial, Function.update_self _ _ _⟩
      · rw [if_neg fun hboth => hindex hboth.2]
        refine ⟨trivial, Function.update_of_ne (fun he => hindex ?_) _ _⟩
        have hval := congrArg Fin.val he
        simp only [Fin.ofNat] at hval
        omega
    · refine accountsFor_of_quiet ?_ ?_
      · rw [step, sm_modifySm_self]
        exact buf_apply (fun j word he => hput ⟨j, word, he⟩) _
      · cases op with
        | rxfifoPut j word => exact absurd ⟨j, word, rfl⟩ hput
        | _ => rfl
  | smInit c k pc cfg =>
    obtain ⟨rfl, rfl⟩ := Prod.mk.inj hdrives
    refine accountsFor_of_quiet ?_ rfl
    rw [step, smInit, sm_modifySm_self]
    exact buf_setConfig _ cfg
  | loadProgram c k offset prog =>
    obtain ⟨rfl, rfl⟩ := Prod.mk.inj hdrives
    refine accountsFor_of_quiet ?_ rfl
    rcases w.loadProgram_cases c (smIdx k) offset prog with he | ⟨words, -, he⟩
    · rw [step, he]
    · rw [step, he, sm_modifySm_self, sm_load]
      rfl
  | _ => exact absurd hdrives (by simp only [Call.Drives, not_false_iff])

/-- Along every run in which a state machine executes only while its join makes a register file of
its RX FIFO, whoever reads a register, the state machine or the host, gets what the last write to it
put there: by the state machine, by the host, or by `pio_sim_init`. -/
theorem register_file_holds_last_write (w : World) (b : BlockAddr) (i : Fin 4) (index : ℕ)
    {cs : List Call}
    (h : Run.Along World.step
      (fun v c => Executes b i v c → (v.sm b i).rxFifoIsRegisterFile = true) w cs) :
    let l := Run.collect World.step (registerAccesses b i index) w cs
    (∀ before v after, l = before ++ .read v :: after →
        v = Register.value ((w.sm b i).rxfifoGet index) before) ∧
      ((w.run cs).sm b i).rxfifoGet index = Register.value ((w.sm b i).rxfifoGet index) l := by
  intro l
  obtain ⟨hlegal, hend⟩ := Register.legal_run (g := fun v : World => (v.sm b i).rxfifoGet index)
    (h.mono fun _ _ hreg => accountsFor_step index hreg)
  refine ⟨fun before v after hsplit => ?_, hend⟩
  have hlegal : Register.Legal ((w.sm b i).rxfifoGet index) l := hlegal
  rw [hsplit] at hlegal
  exact hlegal.read

instance decidableExecutes (b : BlockAddr) (i : Fin 4) (w : World) : DecidablePred (Executes b i w)
  | .smExec .. => inferInstanceAs (Decidable (_ = _))
  | .tickSms _ => inferInstanceAs (Decidable (_ ∧ _))
  | .sm .. | .block .. | .pad .. | .init _ | .setEnabled .. | .setSmMaskEnabled ..
  | .clkdivRestartSmMask .. | .enableSmMaskInSync .. | .setConsecutivePindirs .. | .smInit ..
  | .gpioSetFunction .. | .groupInit .. | .groupInitShared .. | .loadProgram .. | .tickEnd _
  | .groupOpen _ | .groupEnd _ => inferInstanceAs (Decidable False)

omit [Platform] in
/-- The host writes register 2, the state machine moves it to register 1 by way of the OSR and the
ISR. -/
theorem register_file_holds_last_write_relay :
    letI : Platform := ⟨.rp2350⟩
    let w := initial.step (.smInit 0 0 0 (defaultSmConfig.setFifoJoin .rxPutget))
    let cs : List Call :=
      [.sm 0 0 (.rxfifoPut 2 7), .smExec 0 0 0x809A, .smExec 0 0 0xA0C7, .smExec 0 0 0x8019]
    ((w.run cs).sm 0 0).rxfifoGet 1 =
      Register.value ((w.sm 0 0).rxfifoGet 1)
          (Run.collect World.step (registerAccesses 0 0 1) w cs) := by
  let P : Platform := ⟨.rp2350⟩
  intro w cs
  have hrun : Run.Along World.step
      (fun v c => Executes 0 0 v c → (v.sm 0 0).rxFifoIsRegisterFile = true) w cs := by
    decide +kernel
  exact (register_file_holds_last_write w 0 0 1 hrun).2

end World

end PioSim
