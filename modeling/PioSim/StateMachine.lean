import PioSim.Fifo

/-!
# One state machine

`pio_sm_t`, the config value `pio_sm_config` with its mutators, and the operations that touch only
the record of one state machine: FIFO joins and config writes, the shift registers, the side-set
decode and the pin output registers.
-/

namespace PioSim

inductive ShiftDir
  | left
  | right
  deriving DecidableEq, Repr

inductive FifoJoin
  | none
  | tx
  | rx
  | rxPut
  | rxGet
  | rxPutget
  deriving DecidableEq, Repr

inductive StatusSel
  | txLevel
  | rxLevel
  | irqSet
  | irqSetPrev
  | irqSetNext
  deriving DecidableEq, Repr

/-- The per-SM output registers: latched levels, pindirs, the pins written this cycle and the pins
whose direction the state machine drives. -/
structure PinRegs where
  outPinVal : Mask
  outPinOe : Mask
  wroteThisCycle : Mask
  dirDriven : Mask
  deriving DecidableEq

/-- `pio_sm_t`. The last two fields are history variables: `pulled` lists the words `osrRefill` has
moved into the OSR, `pushed` those `isrDrain` has moved out of the ISR. No function reads them. -/
structure Sm where
  enabled : Bool
  pc : ℕ
  wrapBottom : ℕ
  wrapTop : ℕ
  x : Word
  y : Word
  osr : Word
  isr : Word
  osrCount : ℕ
  isrCount : ℕ
  outDir : ShiftDir
  inDir : ShiftDir
  autopull : Bool
  autopush : Bool
  pullThresh : ℕ
  pushThresh : ℕ
  outBase : ℕ
  outCount : ℕ
  setBase : ℕ
  setCount : ℕ
  inBase : ℕ
  inCount : ℕ
  sidesetBase : ℕ
  jmpPin : ℕ
  sidesetTotalBits : ℕ
  sidesetOpt : Bool
  sidesetPindirs : Bool
  pins : PinRegs
  outSticky : Bool
  outInlineEn : Bool
  outEnSel : ℕ
  statusSel : StatusSel
  statusN : ℕ
  statusOverride : Bool
  statusValue : Word
  clkdivInt : ℕ
  clkdivFrac : ℕ
  clkAccum : ℕ
  delay : ℕ
  stalled : Bool
  execPending : Bool
  execInsn : Insn
  fdebug : BitVec 8
  tx : Fifo
  rx : Fifo
  fifoJoin : FifoJoin
  pulled : List Word
  pushed : List Word

structure SmConfig where
  outBase : ℕ
  outCount : ℕ
  setBase : ℕ
  setCount : ℕ
  inBase : ℕ
  inCount : ℕ
  sidesetBase : ℕ
  sidesetTotalBits : ℕ
  sidesetOpt : Bool
  sidesetPindirs : Bool
  jmpPin : ℕ
  outDir : ShiftDir
  inDir : ShiftDir
  autopull : Bool
  autopush : Bool
  pullThresh : ℕ
  pushThresh : ℕ
  clkdivInt : ℕ
  clkdivFrac : ℕ
  wrapBottom : ℕ
  wrapTop : ℕ
  fifoJoin : FifoJoin
  statusSel : StatusSel
  statusN : ℕ
  outSticky : Bool
  outInlineEn : Bool
  outEnSel : ℕ

def clampPinCount (count : ℕ) : ℕ := if 32 < count then 32 else count

theorem clampPinCount_le (count : ℕ) : clampPinCount count ≤ 32 := by
  unfold clampPinCount
  split <;> omega

def clampThresh (threshold : ℕ) : ℕ := if threshold = 0 ∨ 32 < threshold then 32 else threshold

def defaultSmConfig : SmConfig where
  outBase := 0
  outCount := 0
  setBase := 0
  setCount := 0
  inBase := 0
  inCount := 32
  sidesetBase := 0
  sidesetTotalBits := 0
  sidesetOpt := false
  sidesetPindirs := false
  jmpPin := 0
  outDir := .left
  inDir := .left
  autopull := false
  autopush := false
  pullThresh := 32
  pushThresh := 32
  clkdivInt := 1
  clkdivFrac := 0
  wrapBottom := 0
  wrapTop := 31
  fifoJoin := .none
  statusSel := .txLevel
  statusN := 0
  outSticky := false
  outInlineEn := false
  outEnSel := 0

namespace SmConfig

def setOutPins (c : SmConfig) (outBase outCount : ℕ) : SmConfig :=
  { c with outBase := outBase, outCount := clampPinCount outCount }

def setSetPins (c : SmConfig) (setBase setCount : ℕ) : SmConfig :=
  { c with setBase := setBase, setCount := clampPinCount setCount }

def setSidesetPins (c : SmConfig) (sidesetBase : ℕ) : SmConfig :=
  { c with sidesetBase := sidesetBase }

def setSideset (c : SmConfig) (bitCount : ℕ) (optional pindirs : Bool) : SmConfig :=
  { c with sidesetTotalBits := bitCount, sidesetOpt := optional, sidesetPindirs := pindirs }

def setWrap (c : SmConfig) (wrapTarget wrap : ℕ) : SmConfig :=
  { c with wrapBottom := wrapTarget % 32, wrapTop := wrap % 32 }

def setClkdivIntFrac (c : SmConfig) (divInt divFrac : ℕ) : SmConfig :=
  { c with clkdivInt := divInt, clkdivFrac := divFrac }

def setOutShift (c : SmConfig) (shiftRight autopull : Bool) (pullThreshold : ℕ) : SmConfig :=
  { c with
    outDir := if shiftRight then .right else .left
    autopull := autopull
    pullThresh := clampThresh pullThreshold }

def setInShift (c : SmConfig) (shiftRight autopush : Bool) (pushThreshold : ℕ) : SmConfig :=
  { c with
    inDir := if shiftRight then .right else .left
    autopush := autopush
    pushThresh := clampThresh pushThreshold }

def setFifoJoin (c : SmConfig) (join : FifoJoin) : SmConfig := { c with fifoJoin := join }

def setOutSpecial (c : SmConfig) (sticky hasEnablePin : Bool) (enableBitIndex : ℕ) : SmConfig :=
  { c with outSticky := sticky, outInlineEn := hasEnablePin, outEnSel := enableBitIndex % 32 }

end SmConfig

namespace PinRegs

def none : PinRegs := ⟨0, 0, 0, 0⟩

/-- One step of the loop of `drive_pins`. -/
def drivePin (r : PinRegs) (pin : ℕ) (level : Bool) : PinRegs :=
  { r with
    outPinVal := if level then r.outPinVal ||| pinBit pin else r.outPinVal &&& ~~~ pinBit pin
    wroteThisCycle := r.wroteThisCycle ||| pinBit pin }

/-- One step of the loops of `drive_pindirs` and `pio_sim_sm_set_consecutive_pindirs`. -/
def drivePindir (r : PinRegs) (pin : ℕ) (out : Bool) : PinRegs :=
  { r with
    outPinOe := if out then r.outPinOe ||| pinBit pin else r.outPinOe &&& ~~~ pinBit pin
    dirDriven := r.dirDriven ||| pinBit pin }

/-- One step of the loop of `release_out_pins`. -/
def releasePin (r : PinRegs) (pin : ℕ) : PinRegs :=
  { r with
    outPinOe := r.outPinOe &&& ~~~ pinBit pin
    wroteThisCycle := r.wroteThisCycle &&& ~~~ pinBit pin
    dirDriven := r.dirDriven &&& ~~~ pinBit pin }

def drivePins (r : PinRegs) (phys : ℕ → ℕ) (base count : ℕ) (value : Word) : PinRegs :=
  (List.range (clampPinCount count)).foldl
    (fun r k => r.drivePin (phys (u8 (base + k))) (value.getLsbD k)) r

def drivePindirs (r : PinRegs) (phys : ℕ → ℕ) (base count : ℕ) (value : Word) : PinRegs :=
  (List.range (clampPinCount count)).foldl
    (fun r k => r.drivePindir (phys (u8 (base + k))) (value.getLsbD k)) r

/-- The loop of `release_out_pins`, which does not clamp the count. -/
def releaseOutPins (r : PinRegs) (phys : ℕ → ℕ) (base count : ℕ) : PinRegs :=
  (List.range count).foldl (fun r k => r.releasePin (phys (u8 (base + k)))) r

end PinRegs

def fdebugTxstall : BitVec 8 := 0x1
def fdebugTxover : BitVec 8 := 0x2
def fdebugRxunder : BitVec 8 := 0x4
def fdebugRxstall : BitVec 8 := 0x8

structure DelaySideset where
  delay : ℕ
  sideVal : Word
  sideEn : Bool
  ssDataBits : ℕ

namespace Sm

def resetExec (sm : Sm) : Sm :=
  { sm with
    pc := sm.wrapBottom
    x := 0
    y := 0
    osr := 0
    isr := 0
    osrCount := 32
    isrCount := 0
    delay := 0
    stalled := false
    execPending := false
    execInsn := 0
    clkAccum := 0
    tx := sm.tx.clear
    rx := sm.rx.clear }

/-- A state machine as `pio_sim_init` leaves it: zeroed, then the defaults, then `sm_reset_exec`. -/
def initial : Sm := resetExec
  { enabled := false
    pc := 0
    wrapBottom := 0
    wrapTop := 31
    x := 0
    y := 0
    osr := 0
    isr := 0
    osrCount := 0
    isrCount := 0
    outDir := .left
    inDir := .left
    autopull := false
    autopush := false
    pullThresh := 32
    pushThresh := 32
    outBase := 0
    outCount := 0
    setBase := 0
    setCount := 0
    inBase := 0
    inCount := 32
    sidesetBase := 0
    jmpPin := 0
    sidesetTotalBits := 0
    sidesetOpt := false
    sidesetPindirs := false
    pins := PinRegs.none
    outSticky := false
    outInlineEn := false
    outEnSel := 0
    statusSel := .txLevel
    statusN := 0
    statusOverride := false
    statusValue := 0
    clkdivInt := 1
    clkdivFrac := 0
    clkAccum := 0
    delay := 0
    stalled := false
    execPending := false
    execInsn := 0
    fdebug := 0
    tx := Fifo.empty 4
    rx := Fifo.empty 4
    fifoJoin := .none
    pulled := []
    pushed := [] }

section Join
variable [Platform]

/-- The join mode a config's `fifo_join` takes effect as: the RP2040 has no register-file modes. -/
def effectiveJoin : FifoJoin → FifoJoin
  | .rxPut => if hasRxfifoMov then .rxPut else .none
  | .rxGet => if hasRxfifoMov then .rxGet else .none
  | .rxPutget => if hasRxfifoMov then .rxPutget else .none
  | join => join

def txCapOf : FifoJoin → ℕ
  | .tx => 8
  | .rx => 0
  | _ => 4

def rxCapOf : FifoJoin → ℕ
  | .tx => 0
  | .rx => 8
  | _ => 4

omit [Platform] in
theorem txCapOf_le (join : FifoJoin) : txCapOf join ≤ 8 := by cases join <;> decide

omit [Platform] in
theorem rxCapOf_le (join : FifoJoin) : rxCapOf join ≤ 8 := by cases join <;> decide

/-- `apply_fifo_join`: both FIFOs are cleared exactly when the effective join changes. -/
def applyFifoJoin (s : Sm) (join : FifoJoin) : Sm :=
  let s' := { s with
    fifoJoin := effectiveJoin join
    tx := { s.tx with cap := txCapOf join }
    rx := { s.rx with cap := rxCapOf join } }
  if s'.fifoJoin ≠ s.fifoJoin then { s' with tx := s'.tx.clear, rx := s'.rx.clear } else s'

def setConfig (s : Sm) (c : SmConfig) : Sm :=
  applyFifoJoin { s with
    wrapBottom := c.wrapBottom
    wrapTop := c.wrapTop
    outBase := c.outBase
    outCount := c.outCount
    setBase := c.setBase
    setCount := c.setCount
    inBase := c.inBase
    inCount := c.inCount
    sidesetBase := c.sidesetBase
    sidesetTotalBits := c.sidesetTotalBits
    sidesetOpt := c.sidesetOpt
    sidesetPindirs := c.sidesetPindirs
    jmpPin := c.jmpPin
    outDir := c.outDir
    inDir := c.inDir
    autopull := c.autopull
    autopush := c.autopush
    pullThresh := c.pullThresh
    pushThresh := c.pushThresh
    clkdivInt := c.clkdivInt
    clkdivFrac := c.clkdivFrac
    statusSel := c.statusSel
    statusN := c.statusN
    statusOverride := false
    outSticky := c.outSticky
    outInlineEn := c.outInlineEn
    outEnSel := c.outEnSel } c.fifoJoin

/-- `pio_sim_sm_init`, on the state machine's record. -/
def init (s : Sm) (initialPc : ℕ) (c : SmConfig) : Sm :=
  let s := s.setConfig c
  { s with
    tx := s.tx.clear
    rx := s.rx.clear
    x := 0
    y := 0
    osr := 0
    isr := 0
    osrCount := 32
    isrCount := 0
    delay := 0
    stalled := false
    execPending := false
    execInsn := 0
    clkAccum := 0
    enabled := false
    pc := initialPc % 32 }

def rxFifoIsRegisterFile (sm : Sm) : Bool :=
  hasRxfifoMov &&
    (sm.fifoJoin == .rxPut || sm.fifoJoin == .rxGet || sm.fifoJoin == .rxPutget)

end Join

/-- `osr_refill`; `none` when TX was empty. -/
def osrRefill (sm : Sm) : Option Sm :=
  match sm.tx.pop with
  | none => none
  | some (v, tx) => some { sm with
      tx := tx, osr := v, osrCount := 0, pulled := sm.pulled ++ [v] }

/-- `isr_drain`; `none` when RX was full. -/
def isrDrain (sm : Sm) : Option Sm :=
  match sm.rx.push sm.isr with
  | none => none
  | some rx => some { sm with
      rx := rx, isr := 0, isrCount := 0, pushed := sm.pushed ++ [sm.isr] }

/-- `sideset_total`: the side-set width, clamped to the five bits of the field. -/
def sidesetTotal (sm : Sm) : ℕ := if 5 < sm.sidesetTotalBits then 5 else sm.sidesetTotalBits

def decodeDelaySideset (sm : Sm) (field : ℕ) : DelaySideset :=
  let delayBits := 5 - sm.sidesetTotal
  let delay := field % 2 ^ delayBits
  if 0 < sm.sidesetTotal then
    let dataBits := if sm.sidesetOpt then sm.sidesetTotal - 1 else sm.sidesetTotal
    { delay := delay
      sideVal := BitVec.ofNat 32 (field / 2 ^ delayBits) &&& maskN dataBits
      sideEn := if sm.sidesetOpt then field.testBit 4 else true
      ssDataBits := dataBits }
  else { delay := delay, sideVal := 0, sideEn := !sm.sidesetOpt, ssDataBits := 0 }

/-- The write window of a tick: nothing has been written in it yet. -/
def openWindow (sm : Sm) : Sm := { sm with pins := { sm.pins with wroteThisCycle := 0 } }

/-- The background autopull at the top of `sm_cycle`. -/
def backgroundAutopull (sm : Sm) : Sm :=
  if sm.autopull && sm.pullThresh ≤ sm.osrCount then sm.osrRefill.getD sm else sm

/-- The bookkeeping of a committed instruction in `sm_cycle`: an injected one leaves the PC alone
unless it wrote it; a fetched one that wrote EXEC drops its own delay. -/
def retire (sm : Sm) (fromExec : Bool) (setPc : Option ℕ) (delay : ℕ) : Sm :=
  if fromExec then
    { sm with stalled := false, execPending := false, pc := setPc.getD sm.pc, delay := delay }
  else
    { sm with
      stalled := false
      pc := setPc.getD (if sm.pc = sm.wrapTop then sm.wrapBottom else (sm.pc + 1) % 32)
      delay := if sm.execPending then 0 else delay }

end Sm
end PioSim
