import PioSim.World

/-!
# Instruction execution

The handlers of `pio_sim.c`, from the pin accesses up to `exec_one`. A handler that only works on
the state machine's own record is a function on `Sm`, given the values it reads from outside; one
that drives pins or touches IRQ flags works on the world.
-/

namespace PioSim

def reverse32 (v : Word) : Word :=
  let v := ((v &&& 0x55555555#32) <<< 1) ||| ((v >>> 1) &&& 0x55555555#32)
  let v := ((v &&& 0x33333333#32) <<< 2) ||| ((v >>> 2) &&& 0x33333333#32)
  let v := ((v &&& 0x0F0F0F0F#32) <<< 4) ||| ((v >>> 4) &&& 0x0F0F0F0F#32)
  let v := ((v &&& 0x00FF00FF#32) <<< 8) ||| ((v >>> 8) &&& 0x00FF00FF#32)
  (v <<< 16) ||| (v >>> 16)

inductive IrqBlockSel
  | self
  | prev
  | next
  deriving DecidableEq, Repr

structure IrqTarget where
  index : ℕ
  block : IrqBlockSel
  deriving DecidableEq

section Decode
variable [Platform]

/-- `resolve_irq_target`: the mode bits [4:3] are 00 self, 01 prev, 10 relative, 11 next; the RP2040
ignores bit 3. -/
def resolveIrqTarget (smIdx : Fin 4) (field : ℕ) : IrqTarget :=
  let mode := field &&& 0x18
  let base := field &&& 0x7
  let mode := if hasIrqPrevnext then mode else mode &&& 0x10
  if mode = 0x10 then
    { index := (base &&& 0x4) ||| (((base &&& 0x3) + smIdx) &&& 0x3), block := .self }
  else if mode = 0x08 then { index := base, block := .prev }
  else if mode = 0x18 then { index := base, block := .next }
  else { index := base, block := .self }

end Decode

/-- A shift count field: 0 encodes 32. -/
def shiftCount (operand : ℕ) : ℕ := if operand % 32 = 0 then 32 else operand % 32

def opcode (insn : Insn) : ℕ := insn.toNat / 8192
def delayField (insn : Insn) : ℕ := insn.toNat / 256 % 32
def operandOf (insn : Insn) : ℕ := insn.toNat % 256

namespace Sm

/-- `exec_jmp`, given the level of the JMP pin; the result is the taken target, if any. -/
def execJmp (sm : Sm) (pin : Bool) (operand : ℕ) : Sm × Option ℕ :=
  let (take, sm) := match operand / 32 % 8 with
    | 0 => (true, sm)
    | 1 => (sm.x == 0, sm)
    | 2 => (sm.x != 0, { sm with x := sm.x - 1 })
    | 3 => (sm.y == 0, sm)
    | 4 => (sm.y != 0, { sm with y := sm.y - 1 })
    | 5 => (sm.x != sm.y, sm)
    | 6 => (pin, sm)
    | _ => (decide (sm.osrCount < sm.pullThresh), sm)
  (sm, if take then some (operand % 32) else none)

section Fifos
variable [Platform]

/-- The pushes of the shift path have nowhere to go: a full RX FIFO or a register file. -/
def pushBlocked (sm : Sm) : Bool := sm.rxFifoIsRegisterFile || sm.rx.isFull

/-- The ISR after `exec_in` has shifted `count` bits of the source word in. -/
def inShift (sm : Sm) (src : Word) (count : ℕ) : Sm :=
  let data := src &&& maskN count
  let isr :=
    if 32 ≤ count then data
    else if sm.inDir = .right then (sm.isr >>> count) ||| (data <<< (32 - count))
    else (sm.isr <<< count) ||| data
  let isrCount := u8 (sm.isrCount + count)
  { sm with isr := isr, isrCount := if 32 < isrCount then 32 else isrCount }

/-- `exec_in`, given the source word; the flag says the instruction stalled. -/
def execIn (sm : Sm) (src : Word) (count : ℕ) : Sm × Bool :=
  let willAutopush := sm.autopush && sm.pushThresh ≤ sm.isrCount + count
  if willAutopush && sm.pushBlocked then
    ({ sm with fdebug := sm.fdebug ||| fdebugRxstall }, true)
  else
    let sm := sm.inShift src count
    (if sm.autopush && sm.pushThresh ≤ sm.isrCount then sm.isrDrain.getD sm else sm, false)

/-- The stall test of `exec_out`: autopull found TX empty at the top of this cycle. -/
def outStalls (sm : Sm) : Bool := sm.autopull && sm.pullThresh ≤ sm.osrCount

/-- The word `exec_out` shifts out of the OSR. -/
def outValue (sm : Sm) (count : ℕ) : Word :=
  if sm.outDir = .right then sm.osr &&& maskN count
  else if 32 ≤ count then sm.osr else (sm.osr >>> (32 - count)) &&& maskN count

/-- The OSR after `exec_out` has shifted. -/
def outShift (sm : Sm) (count : ℕ) : Sm :=
  let osr :=
    if 32 ≤ count then 0
    else if sm.outDir = .right then sm.osr >>> count else sm.osr <<< count
  let osrCount := u8 (sm.osrCount + count)
  { sm with osr := osr, osrCount := if 32 < osrCount then 32 else osrCount }

/-- `exec_pushpull`; the flag says the instruction stalled. -/
def execPushpull (sm : Sm) (operand : ℕ) : Sm × Bool :=
  let isPull := operand.testBit 7
  let cond := operand.testBit 6
  let block := operand.testBit 5
  if !isPull then
    if cond && sm.isrCount < sm.pushThresh then (sm, false)
    else if sm.pushBlocked then
      let sm := { sm with fdebug := sm.fdebug ||| fdebugRxstall }
      if block then (sm, true) else ({ sm with isr := 0, isrCount := 0 }, false)
    else (sm.isrDrain.getD sm, false)
  else if cond && sm.osrCount < sm.pullThresh then (sm, false)
  else if sm.autopull && sm.osrCount == 0 then (sm, false)
  else if sm.tx.isEmpty then
    let sm := { sm with fdebug := sm.fdebug ||| fdebugTxstall }
    if block then (sm, true) else ({ sm with osr := sm.x, osrCount := 0 }, false)
  else (sm.osrRefill.getD sm, false)

/-- `exec_mov_rxfifo`: the register-file moves, no-ops outside their join modes. -/
def execMovRxfifo (sm : Sm) (operand : ℕ) : Sm :=
  let idx := if operand.testBit 3 then operand % 4 else sm.y.toNat % 4
  if operand.testBit 7 then
    if sm.fifoJoin = .rxGet ∨ sm.fifoJoin = .rxPutget then
      { sm with osr := sm.rx.buf (Fin.ofNat 8 idx), osrCount := 0 }
    else sm
  else if sm.fifoJoin = .rxPut ∨ sm.fifoJoin = .rxPutget then
    { sm with
      rx := { sm.rx with buf := Function.update sm.rx.buf (Fin.ofNat 8 idx) sm.isr }
      isr := 0
      isrCount := 0 }
  else sm

end Fifos
end Sm

/-- What a handler hands back: the world, whether the instruction stalled, and the PC it set. -/
structure ExecOut where
  world : World
  stalled : Bool
  setPc : Option ℕ

/-- What `exec_one` hands back. -/
structure Executed where
  world : World
  committed : Bool
  setPc : Option ℕ
  delay : ℕ

namespace World
variable [Platform] (w : World)

def physPin (b : BlockAddr) (view : ℕ) : ℕ :=
  if hasGpioBase then ((w.blocks b).gpioBase + view % 32) % numPins else view % 32

def inputLevel (b : BlockAddr) (pin : ℕ) : Bool := (w.pads b).inputLevel pin

def drivePins (b : BlockAddr) (i : Fin 4) (base count : ℕ) (value : Word) : World :=
  (w.modifySm b i fun sm =>
    { sm with pins := sm.pins.drivePins (w.physPin b) base count value }).resolvePads b

def drivePindirs (b : BlockAddr) (i : Fin 4) (base count : ℕ) (value : Word) : World :=
  (w.modifySm b i fun sm =>
    { sm with pins := sm.pins.drivePindirs (w.physPin b) base count value }).resolvePads b

def releaseOutPins (b : BlockAddr) (i : Fin 4) (base count : ℕ) : World :=
  (w.modifySm b i fun sm =>
    { sm with pins := sm.pins.releaseOutPins (w.physPin b) base count }).resolvePads b

def readInPins (b : BlockAddr) (base count : ℕ) : Word :=
  (List.range (clampPinCount count)).foldl (fun v k =>
    if w.inputLevel b (w.physPin b (u8 (base + k))) then v ||| (1#32 <<< k) else v) 0

def irqGet (b : BlockAddr) (irq : ℕ) : Bool := (w.blocks b).irq.getLsbD (irq % 8)

def irqClear (b : BlockAddr) (irq : ℕ) : World :=
  w.setIrq b ((w.blocks b).irq &&& ~~~ (1#8 <<< (irq % 8)))

/-- `blk->irq |= 1U << irq`. -/
def irqRaise (b : BlockAddr) (irq : ℕ) : World :=
  w.setIrq b ((w.blocks b).irq ||| (1#8 <<< (irq % 8)))

def readStatus (b : BlockAddr) (sm : Sm) : Word :=
  if sm.statusOverride then sm.statusValue
  else
    let txLevel := decide (sm.tx.count < sm.statusN)
    let ofBlock := fun (blk : Option BlockAddr) =>
      blk.elim false fun blk => w.irqGet blk (sm.statusN % 8)
    let cond := match sm.statusSel with
      | .rxLevel => decide (sm.rx.count < sm.statusN)
      | .irqSet => if hasIrqStatus then w.irqGet b (sm.statusN % 8) else txLevel
      | .irqSetPrev => if hasIrqPrevnext then ofBlock (w.blocks b).irqPrev else txLevel
      | .irqSetNext => if hasIrqPrevnext then ofBlock (w.blocks b).irqNext else txLevel
      | .txLevel => txLevel
    if cond then BitVec.allOnes 32 else 0

def readSource (b : BlockAddr) (sm : Sm) (src : ℕ) : Word :=
  match src with
  | 0 => w.readInPins b sm.inBase 32 &&& maskN sm.inCount
  | 1 => sm.x
  | 2 => sm.y
  | 5 => w.readStatus b sm
  | 6 => sm.isr
  | 7 => sm.osr
  | _ => 0

def irqTargetBlock (b : BlockAddr) : IrqBlockSel → Option BlockAddr
  | .self => some b
  | .prev => if hasIrqPrevnext then (w.blocks b).irqPrev else none
  | .next => if hasIrqPrevnext then (w.blocks b).irqNext else none

def execWait (b : BlockAddr) (i : Fin 4) (operand : ℕ) : ExecOut :=
  let sm := w.sm b i
  let pol := operand.testBit 7
  let source := operand / 32 % 4
  let index := operand % 32
  if source = 0 then
    ⟨w, w.inputLevel b (w.physPin b index) != pol, none⟩
  else if source = 1 then
    let lvl := decide (index < sm.inCount) && w.inputLevel b (w.physPin b (u8 (sm.inBase + index)))
    ⟨w, lvl != pol, none⟩
  else if source = 2 then
    let t := resolveIrqTarget i index
    match w.irqTargetBlock b t.block with
    | none => ⟨w, true, none⟩
    | some blk =>
      if w.irqGet blk t.index = pol then
        ⟨if pol then w.irqClear blk t.index else w, false, none⟩
      else ⟨w, true, none⟩
  else if hasWaitJmppin then
    ⟨w, w.inputLevel b (w.physPin b (u8 (sm.jmpPin + index))) != pol, none⟩
  else ⟨w, true, none⟩

def outStore (b : BlockAddr) (i : Fin 4) (dest : ℕ) (val : Word) (count : ℕ) :
    World × Option ℕ :=
  let sm := w.sm b i
  match dest with
  | 0 =>
    -- inline OUT enable: a data bit gates the write, and under OUT_STICKY releases the span
    if !sm.outInlineEn || val.getLsbD sm.outEnSel then
      (w.drivePins b i sm.outBase sm.outCount val, none)
    else if sm.outSticky then (w.releaseOutPins b i sm.outBase sm.outCount, none)
    else (w, none)
  | 1 => (w.setSm b i { sm with x := val }, none)
  | 2 => (w.setSm b i { sm with y := val }, none)
  | 4 => (w.drivePindirs b i sm.outBase sm.outCount val, none)
  | 5 => (w, some (val.toNat % 32))
  | 6 => (w.setSm b i { sm with isr := val, isrCount := count }, none)
  | 7 => (w.setSm b i { sm with execPending := true, execInsn := val.setWidth 16 }, none)
  | _ => (w, none)

def execOut (b : BlockAddr) (i : Fin 4) (operand : ℕ) : ExecOut :=
  let sm := w.sm b i
  let count := shiftCount operand
  if sm.outStalls then
    ⟨w.setSm b i { sm with fdebug := sm.fdebug ||| fdebugTxstall }, true, none⟩
  else
    let r := (w.setSm b i (sm.outShift count)).outStore b i (operand / 32 % 8)
      (sm.outValue count) count
    ⟨r.1, false, r.2⟩

/-- The value `exec_mov` moves: the source word under the MOV operation. -/
def movValue (b : BlockAddr) (i : Fin 4) (operand : ℕ) : Word :=
  let v := w.readSource b (w.sm b i) (operand % 8)
  match operand / 8 % 4 with
  | 1 => ~~~ v
  | 2 => reverse32 v
  | _ => v

def execMov (b : BlockAddr) (i : Fin 4) (operand : ℕ) : ExecOut :=
  let sm := w.sm b i
  let v := w.movValue b i operand
  match operand / 32 % 8 with
  | 0 => ⟨w.drivePins b i sm.outBase sm.outCount v, false, none⟩
  | 1 => ⟨w.setSm b i { sm with x := v }, false, none⟩
  | 2 => ⟨w.setSm b i { sm with y := v }, false, none⟩
  | 3 =>
    if hasMovPindirs then ⟨w.drivePindirs b i sm.outBase sm.outCount v, false, none⟩
    else ⟨w, false, none⟩
  | 4 => ⟨w.setSm b i { sm with execPending := true, execInsn := v.setWidth 16 }, false, none⟩
  | 5 => ⟨w, false, some (v.toNat % 32)⟩
  | 6 => ⟨w.setSm b i { sm with isr := v, isrCount := 0 }, false, none⟩
  | _ => ⟨w.setSm b i { sm with osr := v, osrCount := 0 }, false, none⟩

def execIrq (b : BlockAddr) (i : Fin 4) (operand : ℕ) : ExecOut :=
  let clr := operand.testBit 6
  let wait := operand.testBit 5
  let t := resolveIrqTarget i (operand % 32)
  match w.irqTargetBlock b t.block with
  | none => ⟨w, wait && !clr, none⟩
  | some blk =>
    if clr then ⟨w.irqClear blk t.index, false, none⟩
    else if wait then
      -- raised on the first presentation, which `stalled` is to tell from the retries
      let w := if (w.sm b i).stalled then w else w.irqRaise blk t.index
      ⟨w, w.irqGet blk t.index, none⟩
    else ⟨w.irqRaise blk t.index, false, none⟩

def execSet (b : BlockAddr) (i : Fin 4) (operand : ℕ) : World :=
  let sm := w.sm b i
  let value := BitVec.ofNat 32 (operand % 32)
  match operand / 32 % 8 with
  | 0 => w.drivePins b i sm.setBase sm.setCount value
  | 1 => w.setSm b i { sm with x := value }
  | 2 => w.setSm b i { sm with y := value }
  | 4 => w.drivePindirs b i sm.setBase sm.setCount value
  | _ => w

/-- The dispatch of `exec_one` on the opcode. -/
def execInsn (b : BlockAddr) (i : Fin 4) (insn : Insn) : ExecOut :=
  let sm := w.sm b i
  let operand := operandOf insn
  match opcode insn with
  | 0 =>
    let r := sm.execJmp (w.inputLevel b (w.physPin b sm.jmpPin)) operand
    ⟨w.setSm b i r.1, false, r.2⟩
  | 1 => w.execWait b i operand
  | 2 =>
    let r := sm.execIn (w.readSource b sm (operand / 32 % 8)) (shiftCount operand)
    ⟨w.setSm b i r.1, r.2, none⟩
  | 3 => w.execOut b i operand
  | 4 =>
    if hasRxfifoMov && operand.testBit 4 then
      ⟨w.setSm b i (sm.execMovRxfifo operand), false, none⟩
    else
      let r := sm.execPushpull operand
      ⟨w.setSm b i r.1, r.2, none⟩
  | 5 => w.execMov b i operand
  | 6 => w.execIrq b i operand
  | _ => ⟨w.execSet b i operand, false, none⟩

/-- The side-set of `exec_one`, applied on every cycle the instruction is presented. -/
def applySideset (b : BlockAddr) (i : Fin 4) (ds : DelaySideset) : World :=
  let sm := w.sm b i
  if ds.sideEn && 0 < ds.ssDataBits then
    if sm.sidesetPindirs then w.drivePindirs b i sm.sidesetBase ds.ssDataBits ds.sideVal
    else w.drivePins b i sm.sidesetBase ds.ssDataBits ds.sideVal
  else w

def execOne (b : BlockAddr) (i : Fin 4) (insn : Insn) : Executed :=
  let ds := (w.sm b i).decodeDelaySideset (delayField insn)
  let r := w.execInsn b i insn
  { world := r.world.applySideset b i ds
    committed := !r.stalled
    setPc := r.setPc
    delay := ds.delay }

end World
end PioSim
