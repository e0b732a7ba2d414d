import PioSim.Tick
import PioSim.Lib.Run

/-!
# The host's calls

The public functions of `pio_sim.h`, `pio_gpio.h` and the program loader of `pio_asm.h` that change
state, and runs of them. `Call` is one call, or one half of a tick: a run may put the calls a device
hook makes between `tickSms` and `tickEnd`.
-/

namespace PioSim

def smIdx (sm : ℕ) : Fin 4 := Fin.ofNat 4 sm

namespace Sm
variable [Platform]

/-- `pio_sim_sm_put`; the flag says the word was accepted. -/
def put (s : Sm) (word : Word) : Sm × Bool :=
  match s.tx.push word with
  | none => ({ s with fdebug := s.fdebug ||| fdebugTxover }, false)
  | some tx => ({ s with tx := tx }, true)

def get (s : Sm) : Sm × Option Word :=
  match s.rx.pop with
  | none => ({ s with fdebug := s.fdebug ||| fdebugRxunder }, none)
  | some (v, rx) => ({ s with rx := rx }, some v)

def clearFifos (s : Sm) : Sm := { s with tx := s.tx.clear, rx := s.rx.clear }

def setPc (s : Sm) (pc : ℕ) : Sm := { s with pc := pc % 32 }

def setStatusValue (s : Sm) (value : Word) : Sm :=
  { s with statusValue := value, statusOverride := true }

def clearStatusValue (s : Sm) : Sm := { s with statusOverride := false }

def clkdivRestart (s : Sm) : Sm := { s with clkAccum := 0 }

def rxfifoPut (s : Sm) (index : ℕ) (word : Word) : Sm :=
  { s with rx := { s.rx with buf := Function.update s.rx.buf (Fin.ofNat 8 (index % 4)) word } }

def clearFdebug (s : Sm) (mask : BitVec 8) : Sm := { s with fdebug := s.fdebug &&& ~~~ mask }

end Sm

/-- The calls that only write the record of one state machine, its pin registers and enable bit
apart. -/
inductive SmOp
  | restart
  | setPc (pc : ℕ)
  | setStatusValue (value : Word)
  | clearStatusValue
  | clkdivRestart
  | setConfig (c : SmConfig)
  | put (word : Word)
  | get
  | clearFifos
  | rxfifoPut (index : ℕ) (word : Word)
  | clearFdebug (mask : BitVec 8)

def SmOp.apply [Platform] (s : Sm) : SmOp → Sm
  | .restart => s.resetExec
  | .setPc pc => s.setPc pc
  | .setStatusValue value => s.setStatusValue value
  | .clearStatusValue => s.clearStatusValue
  | .clkdivRestart => s.clkdivRestart
  | .setConfig c => s.setConfig c
  | .put word => (s.put word).1
  | .get => s.get.1
  | .clearFifos => s.clearFifos
  | .rxfifoPut index word => s.rxfifoPut index word
  | .clearFdebug mask => s.clearFdebug mask

namespace Pio

/-- A block as `pio_sim_init` leaves it: zeroed, its pads its own, its state machines at their
defaults. -/
def initial (b : BlockAddr) : Pio where
  insn := fun _ => 0
  insnUsed := fun _ => false
  sm := fun _ => Sm.initial
  irq := 0
  irqInte := fun _ => 0
  irqIntf := fun _ => 0
  padsEmbedded := Pads.initDefaults [b]
  pads := .embedded b
  gpioBase := 0
  cycle := 0
  unwrittenFetches := 0
  irqPrev := none
  irqNext := none

/-- `pio_sim_load`: words past the 32-word memory are dropped. -/
def load (p : Pio) (offset : ℕ) (insns : List Insn) : Pio :=
  insns.zipIdx.foldl (fun p (insn, i) =>
    if h : offset + i < 32 then
      { p with
        insn := Function.update p.insn ⟨offset + i, h⟩ insn
        insnUsed := Function.update p.insnUsed ⟨offset + i, h⟩ true }
    else p) p

def irqClear (p : Pio) (irq : ℕ) : Pio := { p with irq := p.irq &&& ~~~ (1#8 <<< (irq % 8)) }

def irqForce (p : Pio) (irq : ℕ) (on : Bool) : Pio :=
  { p with irq := if on then p.irq ||| (1#8 <<< (irq % 8)) else p.irq &&& ~~~ (1#8 <<< (irq % 8)) }

def intsValidMask [Platform] : BitVec 32 := if hasIntrIrq8 then 0x0000FFFF else 0x00000FFF

def setIrqnSourceMaskEnabled [Platform] (p : Pio) (line : ℕ) (sourceMask : BitVec 32)
    (enabled : Bool) : Pio :=
  let l := Fin.ofNat 2 line
  let m := sourceMask &&& intsValidMask
  let inte := if enabled then p.irqInte l ||| m else p.irqInte l &&& ~~~ m
  { p with irqInte := Function.update p.irqInte l inte }

def setIntf [Platform] (p : Pio) (line : ℕ) (mask : BitVec 32) (on : Bool) : Pio :=
  let l := Fin.ofNat 2 line
  let m := mask &&& intsValidMask
  let intf := if on then p.irqIntf l ||| m else p.irqIntf l &&& ~~~ m
  { p with irqIntf := Function.update p.irqIntf l intf }

def setIrqNeighbors (p : Pio) (prev next : Option BlockAddr) : Pio :=
  { p with irqPrev := prev, irqNext := next }

/-- `pio_sim_set_gpio_base`: the hardware allows 0 and 16. -/
def setGpioBase (p : Pio) (base : ℕ) : Pio := { p with gpioBase := if 16 ≤ base then 16 else 0 }

end Pio

/-- The calls that write a block but neither its state machines nor its pads. -/
inductive BlockOp
  | load (offset : ℕ) (insns : List Insn)
  | irqClear (irq : ℕ)
  | irqForce (irq : ℕ) (on : Bool)
  | setIrqnSourceMaskEnabled (line : ℕ) (sourceMask : BitVec 32) (enabled : Bool)
  | setIntf (line : ℕ) (mask : BitVec 32) (on : Bool)
  | setIrqNeighbors (prev next : Option BlockAddr)
  | setGpioBase (base : ℕ)

def BlockOp.apply [Platform] (p : Pio) : BlockOp → Pio
  | .load offset insns => p.load offset insns
  | .irqClear irq => p.irqClear irq
  | .irqForce irq on => p.irqForce irq on
  | .setIrqnSourceMaskEnabled line sourceMask enabled =>
    p.setIrqnSourceMaskEnabled line sourceMask enabled
  | .setIntf line mask on => p.setIntf line mask on
  | .setIrqNeighbors prev next => p.setIrqNeighbors prev next
  | .setGpioBase base => p.setGpioBase base

/-- The part of `pio_program_t` that loading uses. -/
structure PioProgram where
  insns : Fin 32 → Insn
  count : ℕ
  sidesetBits : ℕ
  sidesetOpt : Bool
  sidesetPindirs : Bool
  wrapBottom : ℕ
  wrapTop : ℕ
  ok : Bool

namespace PioProgram

/-- The relocation of one word by `pio_asm_load_program`: a JMP target moves by the offset. -/
def relocate (offset : ℕ) (insn : Insn) : Insn :=
  if opcode insn = 0 ∧ offset ≠ 0 then
    (insn &&& ~~~ 0x1F#16) ||| BitVec.ofNat 16 (u8 (insn.toNat % 32 + offset) % 32)
  else insn

/-- The relocation loop; `none` when it would leave the 32-word arrays. -/
def relocated (prog : PioProgram) (offset : ℕ) : Option (List Insn) :=
  (List.range prog.count).mapM fun i =>
    if h : i < 32 then some (relocate offset (prog.insns ⟨i, h⟩)) else none

/-- The loader's checks after the relocation loop: the program fits and its wrap is inside it. -/
def fits (prog : PioProgram) (offset : ℕ) : Bool :=
  offset + prog.count ≤ 32 && prog.wrapBottom < prog.count && prog.wrapTop < prog.count

end PioProgram

/-- What `pio_asm_load_program` sets in the state machine's record. -/
def Sm.startProgram (s : Sm) (offset : ℕ) (prog : PioProgram) : Sm :=
  { s with
    wrapBottom := u8 (offset + prog.wrapBottom)
    wrapTop := u8 (offset + prog.wrapTop)
    sidesetTotalBits := prog.sidesetBits
    sidesetOpt := prog.sidesetOpt
    sidesetPindirs := prog.sidesetPindirs
    pc := offset }

namespace World
variable [Platform] (w : World)

def pioSimInit (b : BlockAddr) : World := w.setBlock b (Pio.initial b)

def smSetEnabled (b : BlockAddr) (i : Fin 4) (enabled : Bool) : World :=
  (w.modifySm b i fun s => { s with enabled := enabled }).resolvePads b

def setSmMaskEnabled (b : BlockAddr) (mask : BitVec 8) (enabled : Bool) : World :=
  ((List.finRange 4).foldl (fun w (i : Fin 4) =>
    if mask.getLsbD i then w.modifySm b i fun s => { s with enabled := enabled } else w)
    w).resolvePads b

def clkdivRestartSmMask (b : BlockAddr) (mask : BitVec 8) : World :=
  (List.finRange 4).foldl (fun w (i : Fin 4) =>
    if mask.getLsbD i then w.modifySm b i Sm.clkdivRestart else w) w

def enableSmMaskInSync (b : BlockAddr) (mask : BitVec 8) : World :=
  (w.setSmMaskEnabled b mask true).clkdivRestartSmMask b mask

def smSetConsecutivePindirs (b : BlockAddr) (i : Fin 4) (base count : ℕ) (isOut : Bool) : World :=
  (w.modifySm b i fun s => { s with
    pins := (List.range (clampPinCount count)).foldl
      (fun r k => r.drivePindir (w.physPin b (u8 (base + k))) isOut) s.pins }).resolvePads b

def smInit (b : BlockAddr) (i : Fin 4) (initialPc : ℕ) (c : SmConfig) : World :=
  w.modifySm b i (·.init initialPc c)

def smExec (b : BlockAddr) (i : Fin 4) (insn : Insn) : World :=
  let r := (w.modifySm b i fun s => { s with stalled := false }).execOne b i insn
  if r.committed then r.world.modifySm b i fun s => { s with pc := r.setPc.getD s.pc }
  else r.world.modifySm b i fun s =>
    { s with execPending := true, execInsn := insn, stalled := true }

def gpioSetFunction (b : BlockAddr) (pin f : ℕ) : World :=
  w.modifyPads b (·.gpioSetFunction w.sm pin f)

def groupInit (g : GroupAddr) (blocks : List BlockAddr) : World :=
  let blk := blocks.take numPio
  let w := w.setGroup g { w.groups g with blk := blk, shared := false }
  if hasIrqPrevnext then
    (List.range blk.length).foldl (fun w i =>
      match blk[i]? with
      | none => w
      | some b => w.setBlock b ((w.blocks b).setIrqNeighbors
          blk[(i + blk.length - 1) % blk.length]? blk[(i + 1) % blk.length]?)) w
  else w

def groupInitShared (g : GroupAddr) (blocks : List BlockAddr) : World :=
  let blk := blocks.take numPio
  let w := w.groupInit g blocks
  let w := w.setGroup g { w.groups g with shared := true, pads := Pads.initDefaults blk }
  blk.foldl (fun w b => w.setBlock b { w.blocks b with pads := .shared g }) w

/-- `pio_asm_load_program`; `none` when the relocation loop would leave its arrays. -/
def pioAsmLoadProgram (b : BlockAddr) (i : Fin 4) (offset : ℕ) (prog : PioProgram) :
    Option (Bool × World) :=
  if !prog.ok then some (false, w)
  else
    match prog.relocated offset with
    | none => none
    | some words =>
      if !prog.fits offset then some (false, w)
      else
        let w := w.setBlock b ((w.blocks b).load offset words)
        some (true, w.modifySm b i (·.startProgram offset prog))

/-- The effect of `pio_asm_load_program`, whatever it returns. -/
def loadProgram (b : BlockAddr) (i : Fin 4) (offset : ℕ) (prog : PioProgram) : World :=
  (w.pioAsmLoadProgram b i offset prog).elim w Prod.snd

/-- The memory before any call: every block freshly initialised, no group formed. -/
def initial : World where
  blocks := Pio.initial
  groups _ := ⟨[], false, Pads.initDefaults []⟩

end World

/-- One call of the public interface, or one half of a tick. -/
inductive Call
  | sm (b : BlockAddr) (sm : ℕ) (op : SmOp)
  | block (b : BlockAddr) (op : BlockOp)
  | pad (b : BlockAddr) (op : PadOp)
  | init (b : BlockAddr)
  | setEnabled (b : BlockAddr) (sm : ℕ) (enabled : Bool)
  | setSmMaskEnabled (b : BlockAddr) (mask : BitVec 8) (enabled : Bool)
  | clkdivRestartSmMask (b : BlockAddr) (mask : BitVec 8)
  | enableSmMaskInSync (b : BlockAddr) (mask : BitVec 8)
  | setConsecutivePindirs (b : BlockAddr) (sm base count : ℕ) (isOut : Bool)
  | smInit (b : BlockAddr) (sm initialPc : ℕ) (c : SmConfig)
  | smExec (b : BlockAddr) (sm : ℕ) (insn : Insn)
  | gpioSetFunction (b : BlockAddr) (pin f : ℕ)
  | groupInit (g : GroupAddr) (blocks : List BlockAddr)
  | groupInitShared (g : GroupAddr) (blocks : List BlockAddr)
  | loadProgram (b : BlockAddr) (sm offset : ℕ) (prog : PioProgram)
  | tickSms (b : BlockAddr)
  | tickEnd (b : BlockAddr)
  | groupOpen (g : GroupAddr)
  | groupEnd (g : GroupAddr)

namespace World
variable [Platform]

def step (w : World) : Call → World
  | .sm b sm op => w.modifySm b (smIdx sm) fun s => op.apply s
  | .block b op => w.setBlock b (op.apply (w.blocks b))
  | .pad b op => w.modifyPads b fun p => op.apply p
  | .init b => w.pioSimInit b
  | .setEnabled b sm enabled => w.smSetEnabled b (smIdx sm) enabled
  | .setSmMaskEnabled b mask enabled => w.setSmMaskEnabled b mask enabled
  | .clkdivRestartSmMask b mask => w.clkdivRestartSmMask b mask
  | .enableSmMaskInSync b mask => w.enableSmMaskInSync b mask
  | .setConsecutivePindirs b sm base count isOut =>
    w.smSetConsecutivePindirs b (smIdx sm) base count isOut
  | .smInit b sm initialPc c => w.smInit b (smIdx sm) initialPc c
  | .smExec b sm insn => w.smExec b (smIdx sm) insn
  | .gpioSetFunction b pin f => w.gpioSetFunction b pin f
  | .groupInit g blocks => w.groupInit g blocks
  | .groupInitShared g blocks => w.groupInitShared g blocks
  | .loadProgram b sm offset prog => w.loadProgram b (smIdx sm) offset prog
  | .tickSms b => w.tickSms b
  | .tickEnd b => w.tickEnd b
  | .groupOpen g => w.groupOpen g
  | .groupEnd g => w.groupEnd g

def run (w : World) (cs : List Call) : World := cs.foldl step w

/-- The states the public interface can reach. -/
def Reachable (w : World) : Prop := ∃ cs, w = initial.run cs

theorem run_append (w : World) (cs ds : List Call) : w.run (cs ++ ds) = (w.run cs).run ds :=
  List.foldl_append

theorem Reachable.run {w : World} (h : w.Reachable) (cs : List Call) : (w.run cs).Reachable := by
  obtain ⟨ds, rfl⟩ := h
  exact ⟨ds ++ cs, (run_append _ _ _).symm⟩

/-- A tick whose device hook makes the calls `hook`, as a run. -/
theorem run_tick (w : World) (b : BlockAddr) (hook : List Call) :
    w.run (.tickSms b :: hook ++ [.tickEnd b]) = w.pioSimTick b (·.run hook) := by
  simp [run, List.foldl_append, step, pioSimTick]

/-- The words a call puts into the TX FIFO of a state machine, as its return value tells. -/
def accepted (b : BlockAddr) (i : Fin 4) (w : World) : Call → List Word
  | .sm b' sm (.put word) =>
    if (b', smIdx sm) = (b, i) ∧ ((w.sm b i).put word).2 then [word] else []
  | _ => []

/-- The words a call returns from the RX FIFO of a state machine. -/
def returned (b : BlockAddr) (i : Fin 4) (w : World) : Call → List Word
  | .sm b' sm .get => if (b', smIdx sm) = (b, i) then (w.sm b i).get.2.toList else []
  | _ => []

end World
end PioSim
