import PioSim.Execute
import Mathlib.Tactic.IntervalCases

/-!
# Operations

What an instruction word says besides its delay and side-set: the operation that the dispatch of
`exec_one` reads off it, with registers and modes by name. Operands that are numbers are a
parameter, for a source line has expressions in their place.
-/

namespace PioSim

inductive JmpCond
  | always
  | notX
  | xDec
  | notY
  | yDec
  | xNeY
  | pin
  | notOsre
  deriving DecidableEq

inductive WaitSource
  | gpio
  | pin
  | irq
  | jmppin
  deriving DecidableEq

/-- How an IRQ index names a flag: of the own block, of a neighbour, or relative to the state
machine. -/
inductive IrqRef
  | direct
  | prev
  | rel
  | next
  deriving DecidableEq

/-- What IN, OUT, MOV and SET move words between. -/
inductive Place
  | pins
  | x
  | y
  | null
  | pindirs
  | pc
  | isr
  | osr
  | exec
  | status
  deriving DecidableEq

inductive MovOp
  | none
  | invert
  | reverse
  deriving DecidableEq

/-- An instruction over its numeric operands. An RX-FIFO move without an index takes it from Y. -/
inductive Operation (ν : Type)
  | jmp (cond : JmpCond) (target : ν)
  | wait (polarity : ν) (source : WaitSource) (index : ν) (ref : IrqRef)
  | in (src : Place) (count : ν)
  | out (dest : Place) (count : ν)
  | push (ifFull block : Bool)
  | pull (ifEmpty block : Bool)
  | movToRxfifo (index : Option ℕ)
  | movFromRxfifo (index : Option ℕ)
  | mov (dest : Place) (op : MovOp) (src : Place)
  | irq (clear waits : Bool) (index : ν) (ref : IrqRef)
  | set (dest : Place) (value : ν)
  deriving DecidableEq

def Operation.evaluate {ν μ : Type} (value : ν → Option μ) : Operation ν → Option (Operation μ)
  | .jmp cond target => (value target).map (.jmp cond)
  | .wait polarity source index ref =>
    (value polarity).bind fun p => (value index).map fun i => .wait p source i ref
  | .in src count => (value count).map (.in src)
  | .out dest count => (value count).map (.out dest)
  | .push ifFull block => some (.push ifFull block)
  | .pull ifEmpty block => some (.pull ifEmpty block)
  | .movToRxfifo index => some (.movToRxfifo index)
  | .movFromRxfifo index => some (.movFromRxfifo index)
  | .mov dest op src => some (.mov dest op src)
  | .irq clear waits index ref => (value index).map fun i => .irq clear waits i ref
  | .set dest v => (value v).map (.set dest)

/-! ### Fields -/

def JmpCond.ofField : ℕ → JmpCond
  | 0 => .always
  | 1 => .notX
  | 2 => .xDec
  | 3 => .notY
  | 4 => .yDec
  | 5 => .xNeY
  | 6 => .pin
  | _ => .notOsre

def WaitSource.ofField : ℕ → WaitSource
  | 0 => .gpio
  | 1 => .pin
  | 2 => .irq
  | _ => .jmppin

def MovOp.ofField : ℕ → MovOp
  | 1 => .invert
  | 2 => .reverse
  | _ => .none

namespace Place

def ofSource : ℕ → Place
  | 0 => .pins
  | 1 => .x
  | 2 => .y
  | 5 => .status
  | 6 => .isr
  | 7 => .osr
  | _ => .null

def ofOutDest : ℕ → Place
  | 0 => .pins
  | 1 => .x
  | 2 => .y
  | 4 => .pindirs
  | 5 => .pc
  | 6 => .isr
  | 7 => .exec
  | _ => .null

def ofMovDest : ℕ → Place
  | 0 => .pins
  | 1 => .x
  | 2 => .y
  | 3 => .pindirs
  | 4 => .exec
  | 5 => .pc
  | 6 => .isr
  | _ => .osr

def ofSetDest : ℕ → Place
  | 0 => .pins
  | 1 => .x
  | 2 => .y
  | 4 => .pindirs
  | _ => .null

end Place

section Version
variable [Platform]

/-- The mode bits [4:3] of an IRQ index; the RP2040 ignores bit 3. -/
def IrqRef.ofField (field : ℕ) : IrqRef :=
  match field / 8 % 4 with
  | 0 => .direct
  | 1 => if hasIrqPrevnext then .prev else .direct
  | 2 => .rel
  | _ => if hasIrqPrevnext then .next else .rel

/-- The operation of an instruction word, dispatched on its opcode as in `exec_one`. -/
def decode (insn : Insn) : Operation ℕ :=
  let operand := operandOf insn
  match opcode insn with
  | 0 => .jmp (JmpCond.ofField (operand / 32 % 8)) (operand % 32)
  | 1 =>
    let source := WaitSource.ofField (operand / 32 % 4)
    if source = .irq then
      .wait (operand.testBit 7).toNat source (operand % 8) (IrqRef.ofField (operand % 32))
    else .wait (operand.testBit 7).toNat source (operand % 32) .direct
  | 2 => .in (Place.ofSource (operand / 32 % 8)) (shiftCount operand)
  | 3 => .out (Place.ofOutDest (operand / 32 % 8)) (shiftCount operand)
  | 4 =>
    if hasRxfifoMov && operand.testBit 4 then
      let index := if operand.testBit 3 then some (operand % 4) else none
      if operand.testBit 7 then .movFromRxfifo index else .movToRxfifo index
    else if operand.testBit 7 then .pull (operand.testBit 6) (operand.testBit 5)
    else .push (operand.testBit 6) (operand.testBit 5)
  | 5 => .mov (Place.ofMovDest (operand / 32 % 8)) (MovOp.ofField (operand / 8 % 4))
      (Place.ofSource (operand % 8))
  | 6 => .irq (operand.testBit 6) (operand.testBit 5) (operand % 8) (IrqRef.ofField (operand % 32))
  | _ => .set (Place.ofSetDest (operand / 32 % 8)) (operand % 32)

end Version

/-! ### Running an operation -/

/-- Whether the condition holds, and the counter it decrements. -/
def JmpCond.test (sm : Sm) (pin : Bool) : JmpCond → Bool × Sm
  | .always => (true, sm)
  | .notX => (sm.x == 0, sm)
  | .xDec => (sm.x != 0, { sm with x := sm.x - 1 })
  | .notY => (sm.y == 0, sm)
  | .yDec => (sm.y != 0, { sm with y := sm.y - 1 })
  | .xNeY => (sm.x != sm.y, sm)
  | .pin => (pin, sm)
  | .notOsre => (decide (sm.osrCount < sm.pullThresh), sm)

def MovOp.apply : MovOp → Word → Word
  | .none, v => v
  | .invert, v => ~~~ v
  | .reverse, v => reverse32 v

section Version
variable [Platform]

/-- The flag an IRQ index names. -/
def IrqRef.target (smIdx : Fin 4) (index : ℕ) : IrqRef → IrqTarget
  | .direct => { index := index, block := .self }
  | .prev => { index := index, block := .prev }
  | .rel => { index := (index &&& 0x4) ||| (((index &&& 0x3) + smIdx) &&& 0x3), block := .self }
  | .next => { index := index, block := .next }

namespace Sm

/-- PUSH; the flag says it stalled. -/
def push (sm : Sm) (ifFull block : Bool) : Sm × Bool :=
  if ifFull && sm.isrCount < sm.pushThresh then (sm, false)
  else if sm.pushBlocked then
    let sm := { sm with fdebug := sm.fdebug ||| fdebugRxstall }
    if block then (sm, true) else ({ sm with isr := 0, isrCount := 0 }, false)
  else (sm.isrDrain.getD sm, false)

/-- PULL; the flag says it stalled. -/
def pull (sm : Sm) (ifEmpty block : Bool) : Sm × Bool :=
  if ifEmpty && sm.osrCount < sm.pullThresh then (sm, false)
  else if sm.autopull && sm.osrCount == 0 then (sm, false)
  else if sm.tx.isEmpty then
    let sm := { sm with fdebug := sm.fdebug ||| fdebugTxstall }
    if block then (sm, true) else ({ sm with osr := sm.x, osrCount := 0 }, false)
  else (sm.osrRefill.getD sm, false)

def rxSlot (sm : Sm) (index : Option ℕ) : Fin 8 := Fin.ofNat 8 (index.getD (sm.y.toNat % 4))

def movToRxfifo (sm : Sm) (index : Option ℕ) : Sm :=
  if sm.fifoJoin = .rxPut ∨ sm.fifoJoin = .rxPutget then
    { sm with
      rx := { sm.rx with buf := Function.update sm.rx.buf (sm.rxSlot index) sm.isr }
      isr := 0
      isrCount := 0 }
  else sm

def movFromRxfifo (sm : Sm) (index : Option ℕ) : Sm :=
  if sm.fifoJoin = .rxGet ∨ sm.fifoJoin = .rxPutget then
    { sm with osr := sm.rx.buf (sm.rxSlot index), osrCount := 0 }
  else sm

end Sm

namespace World
variable (w : World)

def readPlace (b : BlockAddr) (sm : Sm) : Place → Word
  | .pins => w.readInPins b sm.inBase 32 &&& maskN sm.inCount
  | .x => sm.x
  | .y => sm.y
  | .status => w.readStatus b sm
  | .isr => sm.isr
  | .osr => sm.osr
  | .null | .pindirs | .pc | .exec => 0

/-- A WAIT on an IRQ flag clears it when it finds it set. -/
def waitIrq (b : BlockAddr) (pol : Bool) (t : IrqTarget) : ExecOut :=
  match w.irqTargetBlock b t.block with
  | none => ⟨w, true, none⟩
  | some blk =>
    if w.irqGet blk t.index = pol then ⟨if pol then w.irqClear blk t.index else w, false, none⟩
    else ⟨w, true, none⟩

def wait (b : BlockAddr) (i : Fin 4) (pol : Bool) (index : ℕ) (ref : IrqRef) : WaitSource → ExecOut
  | .gpio => ⟨w, w.inputLevel b (w.physPin b index) != pol, none⟩
  | .pin =>
    let sm := w.sm b i
    let lvl := decide (index < sm.inCount) && w.inputLevel b (w.physPin b (u8 (sm.inBase + index)))
    ⟨w, lvl != pol, none⟩
  | .irq => w.waitIrq b pol (ref.target i index)
  | .jmppin =>
    if hasWaitJmppin then
      ⟨w, w.inputLevel b (w.physPin b (u8 ((w.sm b i).jmpPin + index))) != pol, none⟩
    else ⟨w, true, none⟩

def outTo (b : BlockAddr) (i : Fin 4) (val : Word) (count : ℕ) : Place → World × Option ℕ
  | .pins =>
    let sm := w.sm b i
    if !sm.outInlineEn || val.getLsbD sm.outEnSel then
      (w.drivePins b i sm.outBase sm.outCount val, none)
    else if sm.outSticky then (w.releaseOutPins b i sm.outBase sm.outCount, none)
    else (w, none)
  | .x => (w.setSm b i { w.sm b i with x := val }, none)
  | .y => (w.setSm b i { w.sm b i with y := val }, none)
  | .pindirs => (w.drivePindirs b i (w.sm b i).outBase (w.sm b i).outCount val, none)
  | .pc => (w, some (val.toNat % 32))
  | .isr => (w.setSm b i { w.sm b i with isr := val, isrCount := count }, none)
  | .exec => (w.setSm b i { w.sm b i with execPending := true, execInsn := val.setWidth 16 }, none)
  | .null | .osr | .status => (w, none)

def movTo (b : BlockAddr) (i : Fin 4) (v : Word) : Place → World × Option ℕ
  | .pins => (w.drivePins b i (w.sm b i).outBase (w.sm b i).outCount v, none)
  | .x => (w.setSm b i { w.sm b i with x := v }, none)
  | .y => (w.setSm b i { w.sm b i with y := v }, none)
  | .pindirs =>
    if hasMovPindirs then (w.drivePindirs b i (w.sm b i).outBase (w.sm b i).outCount v, none)
    else (w, none)
  | .exec => (w.setSm b i { w.sm b i with execPending := true, execInsn := v.setWidth 16 }, none)
  | .pc => (w, some (v.toNat % 32))
  | .isr => (w.setSm b i { w.sm b i with isr := v, isrCount := 0 }, none)
  | .osr => (w.setSm b i { w.sm b i with osr := v, osrCount := 0 }, none)
  | .null | .status => (w, none)

def setTo (b : BlockAddr) (i : Fin 4) (value : Word) : Place → World
  | .pins => w.drivePins b i (w.sm b i).setBase (w.sm b i).setCount value
  | .x => w.setSm b i { w.sm b i with x := value }
  | .y => w.setSm b i { w.sm b i with y := value }
  | .pindirs => w.drivePindirs b i (w.sm b i).setBase (w.sm b i).setCount value
  | .null | .pc | .isr | .osr | .exec | .status => w

def irq (b : BlockAddr) (i : Fin 4) (clr waits : Bool) (t : IrqTarget) : ExecOut :=
  match w.irqTargetBlock b t.block with
  | none => ⟨w, waits && !clr, none⟩
  | some blk =>
    if clr then ⟨w.irqClear blk t.index, false, none⟩
    else if waits then
      let w := if (w.sm b i).stalled then w else w.irqRaise blk t.index
      ⟨w, w.irqGet blk t.index, none⟩
    else ⟨w.irqRaise blk t.index, false, none⟩

def runOperation (b : BlockAddr) (i : Fin 4) : Operation ℕ → ExecOut
  | .jmp cond target =>
    let sm := w.sm b i
    let r := cond.test sm (w.inputLevel b (w.physPin b sm.jmpPin))
    ⟨w.setSm b i r.2, false, if r.1 then some target else none⟩
  | .wait polarity source index ref => w.wait b i (polarity == 1) index ref source
  | .in src count =>
    let sm := w.sm b i
    let r := sm.execIn (w.readPlace b sm src) count
    ⟨w.setSm b i r.1, r.2, none⟩
  | .out dest count =>
    let sm := w.sm b i
    if sm.outStalls then
      ⟨w.setSm b i { sm with fdebug := sm.fdebug ||| fdebugTxstall }, true, none⟩
    else
      let r := (w.setSm b i (sm.outShift count)).outTo b i (sm.outValue count) count dest
      ⟨r.1, false, r.2⟩
  | .push ifFull block =>
    let r := (w.sm b i).push ifFull block
    ⟨w.setSm b i r.1, r.2, none⟩
  | .pull ifEmpty block =>
    let r := (w.sm b i).pull ifEmpty block
    ⟨w.setSm b i r.1, r.2, none⟩
  | .movToRxfifo index => ⟨w.setSm b i ((w.sm b i).movToRxfifo index), false, none⟩
  | .movFromRxfifo index => ⟨w.setSm b i ((w.sm b i).movFromRxfifo index), false, none⟩
  | .mov dest op src =>
    let r := w.movTo b i (op.apply (w.readPlace b (w.sm b i) src)) dest
    ⟨r.1, false, r.2⟩
  | .irq clear waits index ref => w.irq b i clear waits (ref.target i index)
  | .set dest value => ⟨w.setTo b i (BitVec.ofNat 32 value) dest, false, none⟩

end World

/-! ### The handlers run what is decoded -/

theorem execJmp_eq (sm : Sm) (pin : Bool) (operand : ℕ) :
    sm.execJmp pin operand =
      (((JmpCond.ofField (operand / 32 % 8)).test sm pin).2,
        if ((JmpCond.ofField (operand / 32 % 8)).test sm pin).1 then some (operand % 32)
          else none) := by
  unfold Sm.execJmp
  have hlt : operand / 32 % 8 < 8 := Nat.mod_lt _ (by omega)
  generalize operand / 32 % 8 = c at hlt
  interval_cases c <;> rfl

theorem readSource_eq (w : World) (b : BlockAddr) (sm : Sm) {src : ℕ} (h : src < 8) :
    w.readSource b sm src = w.readPlace b sm (Place.ofSource src) := by
  interval_cases src <;> rfl

theorem resolveIrqTarget_eq (i : Fin 4) {field : ℕ} (h : field < 32) :
    resolveIrqTarget i field = (IrqRef.ofField field).target i (field % 8) := by
  unfold resolveIrqTarget IrqRef.ofField
  cases hasIrqPrevnext <;> interval_cases field <;> rfl

theorem execPushpull_eq (sm : Sm) (operand : ℕ) :
    sm.execPushpull operand =
      if operand.testBit 7 then sm.pull (operand.testBit 6) (operand.testBit 5)
      else sm.push (operand.testBit 6) (operand.testBit 5) := by
  unfold Sm.execPushpull
  cases operand.testBit 7 <;> rfl

theorem execMovRxfifo_eq (sm : Sm) (operand : ℕ) :
    sm.execMovRxfifo operand =
      if operand.testBit 7 then
        sm.movFromRxfifo (if operand.testBit 3 then some (operand % 4) else none)
      else sm.movToRxfifo (if operand.testBit 3 then some (operand % 4) else none) := by
  unfold Sm.execMovRxfifo Sm.movFromRxfifo Sm.movToRxfifo Sm.rxSlot
  cases operand.testBit 3 <;> rfl

namespace World
variable (w : World) (b : BlockAddr) (i : Fin 4)

theorem execWait_eq (operand : ℕ) :
    w.execWait b i operand =
      w.wait b i (operand.testBit 7)
        (if WaitSource.ofField (operand / 32 % 4) = .irq then operand % 8 else operand % 32)
        (IrqRef.ofField (operand % 32)) (WaitSource.ofField (operand / 32 % 4)) := by
  have htarget := resolveIrqTarget_eq i (Nat.mod_lt operand (by omega : 0 < 32))
  rw [Nat.mod_mod_of_dvd operand (by decide : 8 ∣ 32)] at htarget
  unfold execWait
  dsimp only
  rw [htarget]
  have hlt : operand / 32 % 4 < 4 := Nat.mod_lt _ (by omega)
  generalize operand / 32 % 4 = source at hlt
  interval_cases source <;> rfl

theorem outStore_eq {dest : ℕ} (h : dest < 8) (val : Word) (count : ℕ) :
    w.outStore b i dest val count = w.outTo b i val count (Place.ofOutDest dest) := by
  interval_cases dest <;> rfl

theorem execMov_eq (operand : ℕ) :
    w.execMov b i operand =
      ⟨(w.movTo b i (w.movValue b i operand) (Place.ofMovDest (operand / 32 % 8))).1, false,
        (w.movTo b i (w.movValue b i operand) (Place.ofMovDest (operand / 32 % 8))).2⟩ := by
  unfold execMov
  have hlt : operand / 32 % 8 < 8 := Nat.mod_lt _ (by omega)
  generalize operand / 32 % 8 = dest at hlt
  interval_cases dest
  case «3» =>
    change (if hasMovPindirs then _ else _) = _
    unfold movTo
    cases hasMovPindirs <;> rfl
  all_goals rfl

theorem movValue_eq (operand : ℕ) :
    w.movValue b i operand = (MovOp.ofField (operand / 8 % 4)).apply
      (w.readPlace b (w.sm b i) (Place.ofSource (operand % 8))) := by
  unfold movValue
  rw [readSource_eq w b _ (Nat.mod_lt _ (by omega))]
  have hlt : operand / 8 % 4 < 4 := Nat.mod_lt _ (by omega)
  generalize operand / 8 % 4 = op at hlt
  interval_cases op <;> rfl

theorem execIrq_eq (operand : ℕ) :
    w.execIrq b i operand = w.irq b i (operand.testBit 6) (operand.testBit 5)
      ((IrqRef.ofField (operand % 32)).target i (operand % 8)) := by
  have htarget := resolveIrqTarget_eq i (Nat.mod_lt operand (by omega : 0 < 32))
  rw [Nat.mod_mod_of_dvd operand (by decide : 8 ∣ 32)] at htarget
  unfold execIrq irq
  dsimp only
  rw [htarget] <;> rfl

theorem execSet_eq (operand : ℕ) :
    w.execSet b i operand =
      w.setTo b i (BitVec.ofNat 32 (operand % 32)) (Place.ofSetDest (operand / 32 % 8)) := by
  unfold execSet
  have hlt : operand / 32 % 8 < 8 := Nat.mod_lt _ (by omega)
  generalize operand / 32 % 8 = dest at hlt
  interval_cases dest <;> rfl

theorem testBit_toNat_beq_one (n k : ℕ) : ((n.testBit k).toNat == 1) = n.testBit k := by
  cases n.testBit k <;> rfl

/-- The dispatch of `exec_one` runs the operation it decodes. -/
theorem execInsn_eq (insn : Insn) : w.execInsn b i insn = w.runOperation b i (decode insn) := by
  unfold execInsn decode
  dsimp only
  generalize operandOf insn = operand
  have hlt : opcode insn < 8 := by
    unfold opcode
    omega
  generalize opcode insn = op at hlt
  interval_cases op
  case «0» =>
    rw [execJmp_eq]
    rfl
  case «1» =>
    rw [execWait_eq]
    generalize WaitSource.ofField (operand / 32 % 4) = source
    cases source <;>
      simp only [reduceCtorEq, reduceIte, runOperation, testBit_toNat_beq_one] <;> rfl
  case «2» =>
    rw [readSource_eq _ _ _ (Nat.mod_lt _ (by omega))]
    rfl
  case «3» =>
    change w.execOut b i operand = _
    unfold execOut runOperation
    dsimp only
    rw [outStore_eq _ _ _ (Nat.mod_lt _ (by omega))]
    rfl
  case «4» =>
    change (if (hasRxfifoMov && operand.testBit 4) = true then _ else _) =
      w.runOperation b i (if (hasRxfifoMov && operand.testBit 4) = true then _ else _)
    split
    · rw [execMovRxfifo_eq]
      split <;> rfl
    · rw [execPushpull_eq]
      split <;> rfl
  case «5» =>
    change w.execMov b i operand = _
    rw [execMov_eq, movValue_eq]
    rfl
  case «6» =>
    change w.execIrq b i operand = _
    rw [execIrq_eq]
    rfl
  case «7» =>
    change (⟨w.execSet b i operand, false, none⟩ : ExecOut) = _
    rw [execSet_eq]
    rfl

end World

end Version

end PioSim
