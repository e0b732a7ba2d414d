import PioSim.Host
import PioSim.Lib.LittleEndian
import PioSim.Lib.RoundRobin

/-!
# The DMA controller

`pio_dma_t`: channels with their configuration and cursors, the pacing timers, the sniffer and the
interrupt image, with the functions of `pio_dma.c`. A controller's pointers reach PIO blocks and
host memory, so its functions work on `Chip`. Completion callbacks are the host's code: `cb` maps a
callback's handle and the channel to what the callback does.
-/

namespace PioSim

inductive DmaSize
  | size8
  | size16
  | size32
  deriving DecidableEq, Repr

/-- The clamp of `channel_config_set_transfer_data_size` and `pio_dma_channel_configure`. -/
def DmaSize.ofRaw : ℕ → DmaSize
  | 0 => .size8
  | 1 => .size16
  | _ => .size32

/-- `pio_dma_addr_t`; the null pointer is address 0. -/
inductive DmaAddr
  | mem (p : ℕ)
  | txf (pioIndex sm : ℕ)
  | rxf (pioIndex sm : ℕ)
  deriving DecidableEq, Repr

/-- `dma_channel_config`. -/
structure DmaConfig where
  highPriority : Bool
  dataSize : DmaSize
  incrRead : Bool
  incrWrite : Bool
  ringSize : ℕ
  ringSel : Bool
  chainTo : ℕ
  treqSel : ℕ
  bswap : Bool
  irqQuiet : Bool
  sniffEn : Bool
  deriving DecidableEq

/-- `pio_dma_channel_t`; `onComplete` is the handle of the completion hook with its context. -/
structure DmaChannel where
  ctrl : DmaConfig
  readAddr : DmaAddr
  writeAddr : DmaAddr
  transCount : BitVec 32
  transCountReload : BitVec 32
  en : Bool
  busy : Bool
  onComplete : Option ℕ

/-- A pacing timer; `den = 0` is off. -/
structure DmaTimer where
  num : ℕ
  den : ℕ
  accum : ℕ
  credit : Bool

/-- The CRC sniffer, `SNIFF_CTRL` and `SNIFF_DATA`; `sniffCalc` is `calc`. -/
structure DmaSniff where
  en : Bool
  chan : ℕ
  sniffCalc : ℕ
  outRev : Bool
  outInv : Bool
  data : BitVec 32

/-- What a channel does that can be seen from outside: the history of a run is a list of these. -/
inductive DmaEvent
  | moved (ch : ℕ) (src dst : DmaAddr) (v : Word)
  | raised (ch : ℕ)
  | triggered (ch : ℕ)
  | chained (ch target : ℕ)
  deriving DecidableEq

/-- `pio_dma_t`. `pio` lists the attached blocks, `none` for a null slot; its length is `pio_count`.
`log` is a history variable that no function reads. -/
structure Dma where
  ch : ℕ → DmaChannel
  pio : List (Option BlockAddr)
  timer : ℕ → DmaTimer
  sniff : DmaSniff
  intr : BitVec 32
  inte : ℕ → BitVec 32
  intf : ℕ → BitVec 32
  rrNext : ℕ
  log : List DmaEvent

/-- What the pointers of a DMA controller reach: the PIO blocks, itself and host memory. -/
structure Chip where
  world : World
  dma : Dma
  mem : LittleEndian.Memory

def dmaNumIrqs [Platform] : ℕ := if isRp2350 then 4 else 2
def dmaNumTimers : ℕ := 4

/-- `PIO_DMA_DREQ_PIO_TX`, `PIO_DMA_DREQ_PIO_RX`, `PIO_DMA_TREQ_TIMER` and `PIO_DMA_TREQ_FORCE`. -/
def dreqPioTx (pioIndex sm : ℕ) : ℕ := u8 (pioIndex * 8 + sm)
def dreqPioRx (pioIndex sm : ℕ) : ℕ := u8 (pioIndex * 8 + 4 + sm)
def treqTimer (n : ℕ) : ℕ := u8 (0x3B + n)
def treqForce : ℕ := 0x3F

/-- The timer a TREQ selects, if it selects one. -/
def timerOf (treq : ℕ) : Option ℕ :=
  if treqTimer 0 ≤ treq ∧ treq ≤ treqTimer (dmaNumTimers - 1) then
    some (treq - treqTimer 0) else none

section Channels
variable [Platform]

/-- `CH_IDX` and `LINE_IDX`. -/
def chIdx (ch : ℕ) : ℕ := ch % dmaNumChannels
def lineIdx (line : ℕ) : ℕ := line % dmaNumIrqs

def DmaConfig.default (ch : ℕ) : DmaConfig where
  highPriority := false
  dataSize := .size32
  incrRead := true
  incrWrite := false
  ringSize := 0
  ringSel := false
  chainTo := chIdx ch
  treqSel := treqForce
  bswap := false
  irqQuiet := false
  sniffEn := false

def DmaConfig.setChainTo (c : DmaConfig) (chainTo : ℕ) : DmaConfig :=
  { c with chainTo := chainTo % dmaNumChannels }

end Channels

def DmaConfig.setTransferDataSize (c : DmaConfig) (size : ℕ) : DmaConfig :=
  { c with dataSize := .ofRaw size }

def DmaConfig.setRing (c : DmaConfig) (write : Bool) (sizeBits : ℕ) : DmaConfig :=
  { c with ringSel := write, ringSize := if 15 < sizeBits then 15 else sizeBits }

def elemBytes : DmaSize → ℕ
  | .size8 => 1
  | .size16 => 2
  | .size32 => 4

def dmaBswap (v : Word) (bytes : ℕ) : Word :=
  if bytes = 2 then ((v &&& 0xFF#32) <<< 8) ||| ((v >>> 8) &&& 0xFF#32)
  else if bytes = 4 then
    (v <<< 24) ||| ((v &&& 0xFF00#32) <<< 8) ||| ((v >>> 8) &&& 0xFF00#32) ||| (v >>> 24)
  else v

def uintptrBits : ℕ := 64

/-- `dma_advance`: the ring wraps the low bits of the address within an aligned window. -/
def dmaAdvance (a : DmaAddr) (incr : Bool) (ringSize : ℕ) (ringApplies : Bool)
    (bytes : ℕ) : DmaAddr :=
  match a with
  | .mem p =>
    if !incr then .mem p
    else if ringApplies && ringSize != 0 && decide (ringSize < uintptrBits) then
      let low := p % 2 ^ ringSize
      .mem (p - low + (low + bytes) % 2 ^ ringSize)
    else .mem (p + bytes)
  | a => a

/-- The tail of `dma_transfer_one` on the channel: both cursors move on and the count drops. -/
def DmaChannel.advance (chan : DmaChannel) : DmaChannel :=
  let bytes := elemBytes chan.ctrl.dataSize
  { chan with
    readAddr := dmaAdvance chan.readAddr chan.ctrl.incrRead chan.ctrl.ringSize
      (!chan.ctrl.ringSel) bytes
    writeAddr := dmaAdvance chan.writeAddr chan.ctrl.incrWrite chan.ctrl.ringSize
      chan.ctrl.ringSel bytes
    transCount := chan.transCount - 1
    busy := if chan.transCount - 1 = 0 then false else chan.busy }

/-! ### The sniffer -/

def sniffCrc32 : ℕ := 0x0
def sniffCrc32r : ℕ := 0x1
def sniffCrc16 : ℕ := 0x2
def sniffCrc16r : ℕ := 0x3
def sniffEven : ℕ := 0xE

def crcUpdateMsb (crc : Word) (byte : BitVec 8) (poly : Word) (width : ℕ) : Word :=
  let top := 1#32 <<< (width - 1)
  let crc := crc ^^^ (byte.setWidth 32 <<< (width - 8))
  let crc := (List.range 8).foldl
    (fun crc _ => if crc &&& top != 0 then (crc <<< 1) ^^^ poly else crc <<< 1) crc
  if width = 32 then crc else crc &&& ((1#32 <<< width) - 1)

def crcUpdateLsb (crc : Word) (byte : BitVec 8) (poly : Word) : Word :=
  (List.range 8).foldl
    (fun crc _ => if crc &&& 1 != 0 then (crc >>> 1) ^^^ poly else crc >>> 1)
    (crc ^^^ byte.setWidth 32)

/-- `dma_sniff`. -/
def DmaSniff.feed (s : DmaSniff) (value : Word) (bytes : ℕ) : DmaSniff :=
  let mask := if 4 ≤ bytes then 0xFFFFFFFF#32 else (1#32 <<< (8 * bytes)) - 1
  let value := value &&& mask
  let each := fun (f : Word → BitVec 8 → Word) =>
    (List.range bytes).foldl (fun crc i => f crc (LittleEndian.byte value i)) s.data
  { s with data :=
      if s.sniffCalc = sniffCrc32 then each fun crc b => crcUpdateMsb crc b 0x04C11DB7#32 32
      else if s.sniffCalc = sniffCrc32r then each fun crc b => crcUpdateLsb crc b 0xEDB88320#32
      else if s.sniffCalc = sniffCrc16 then each fun crc b => crcUpdateMsb crc b 0x1021#32 16
      else if s.sniffCalc = sniffCrc16r then
        each fun crc b => crcUpdateLsb (crc &&& 0xFFFF#32) b 0x8408#32
      else if s.sniffCalc = sniffEven then s.data ^^^ value
      else s.data + value }

def DmaSniff.accumulator (s : DmaSniff) : Word :=
  let v := if s.outRev then reverse32 s.data else s.data
  if s.outInv then ~~~ v else v

/-! ### The controller's registers -/

/-- The loop body of `dma_timers_tick`. -/
def DmaTimer.tick (t : DmaTimer) : DmaTimer :=
  if t.den = 0 then t
  else
    let accum := u32 (t.accum + t.num)
    if t.den ≤ accum then { t with accum := accum - t.den, credit := true }
    else { t with accum := accum }

/-- What a host does with the completion hook it registered: the handle, the channel, the state. -/
abbrev Callback := ℕ → ℕ → Chip → Chip

namespace Dma

def setCh (d : Dma) (c : ℕ) (chan : DmaChannel) : Dma :=
  { d with ch := Function.update d.ch c chan }

def modifyCh (d : Dma) (c : ℕ) (f : DmaChannel → DmaChannel) : Dma := d.setCh c (f (d.ch c))

def setTimer (d : Dma) (t : ℕ) (tm : DmaTimer) : Dma :=
  { d with timer := Function.update d.timer t tm }

def record (d : Dma) (e : DmaEvent) : Dma := { d with log := d.log ++ [e] }

/-- The block attached at an index, unless it is out of range or null. -/
def pioAt (d : Dma) (pioIndex : ℕ) : Option BlockAddr := (d.pio[pioIndex]?).join

section Registers
variable [Platform]

def init (pios : List (Option BlockAddr)) : Dma where
  ch c :=
    { ctrl := .default c
      readAddr := .mem 0
      writeAddr := .mem 0
      transCount := 0
      transCountReload := 0
      en := false
      busy := false
      onComplete := none }
  pio := pios.take numPio
  timer _ := ⟨0, 0, 0, false⟩
  sniff := ⟨false, 0, 0, false, false, 0⟩
  intr := 0
  inte _ := 0
  intf _ := 0
  rrNext := 0
  log := []

def channelSetEnabled (d : Dma) (ch : ℕ) (en : Bool) : Dma :=
  d.modifyCh (chIdx ch) fun chan => { chan with en := en }

/-- `pio_dma_channel_abort_mask`; `pio_dma_channel_abort` passes a single bit. -/
def channelAbortMask (d : Dma) (mask : BitVec 32) : Dma :=
  (List.range dmaNumChannels).foldl (fun d c =>
    if mask.getLsbD c then d.modifyCh c fun chan => { chan with busy := false } else d) d

def channelSetCallback (d : Dma) (ch : ℕ) (fn : Option ℕ) : Dma :=
  d.modifyCh (chIdx ch) fun chan => { chan with onComplete := fn }

def timerSetFraction (d : Dma) (timer numerator denominator : ℕ) : Dma :=
  d.setTimer (timer % dmaNumTimers) ⟨numerator, denominator, 0, false⟩

def timersTick (d : Dma) : Dma :=
  (List.range dmaNumTimers).foldl (fun d t => d.setTimer t (d.timer t).tick) d

def snifferEnable (d : Dma) (ch mode : ℕ) (forceChannelEnable : Bool) : Dma :=
  let d := { d with sniff := { d.sniff with en := true, chan := chIdx ch, sniffCalc := u8 mode } }
  if forceChannelEnable then
    d.modifyCh (chIdx ch) fun chan => { chan with ctrl := { chan.ctrl with sniffEn := true } }
  else d

def snifferDisable (d : Dma) : Dma := { d with sniff := { d.sniff with en := false } }

def snifferSetOutputInvertEnabled (d : Dma) (invert : Bool) : Dma :=
  { d with sniff := { d.sniff with outInv := invert } }

def snifferSetOutputReverseEnabled (d : Dma) (reverse : Bool) : Dma :=
  { d with sniff := { d.sniff with outRev := reverse } }

def snifferSetDataAccumulator (d : Dma) (seedValue : Word) : Dma :=
  { d with sniff := { d.sniff with data := seedValue } }

def chValidMask : BitVec 32 := (1#32 <<< dmaNumChannels) - 1

def irqnSetChannelMaskEnabled (d : Dma) (line : ℕ) (channelMask : BitVec 32)
    (enabled : Bool) : Dma :=
  let l := lineIdx line
  let m := channelMask &&& chValidMask
  let inte := if enabled then d.inte l ||| m else d.inte l &&& ~~~ m
  { d with inte := Function.update d.inte l inte }

def irqnAcknowledgeChannel (d : Dma) (ch : ℕ) : Dma :=
  { d with intr := d.intr &&& ~~~ (1#32 <<< chIdx ch) }

def irqnForceChannel (d : Dma) (line ch : ℕ) (on : Bool) : Dma :=
  let l := lineIdx line
  let bit := 1#32 <<< chIdx ch
  let intf := if on then d.intf l ||| bit else d.intf l &&& ~~~ bit
  { d with intf := Function.update d.intf l intf }

def ints (d : Dma) (line : ℕ) : BitVec 32 :=
  (d.intr &&& d.inte (lineIdx line)) ||| d.intf (lineIdx line)

end Registers
end Dma

/-- The register writes that call no hook and move no data. -/
inductive DmaOp
  | channelSetEnabled (ch : ℕ) (en : Bool)
  | channelAbortMask (mask : BitVec 32)
  | channelSetCallback (ch : ℕ) (fn : Option ℕ)
  | timerSetFraction (timer numerator denominator : ℕ)
  | snifferEnable (ch mode : ℕ) (forceChannelEnable : Bool)
  | snifferDisable
  | snifferSetOutputInvertEnabled (invert : Bool)
  | snifferSetOutputReverseEnabled (reverse : Bool)
  | snifferSetDataAccumulator (seedValue : Word)
  | irqnSetChannelMaskEnabled (line : ℕ) (channelMask : BitVec 32) (enabled : Bool)
  | irqnAcknowledgeChannel (ch : ℕ)
  | irqnForceChannel (line ch : ℕ) (on : Bool)

def DmaOp.apply [Platform] (d : Dma) : DmaOp → Dma
  | .channelSetEnabled ch en => d.channelSetEnabled ch en
  | .channelAbortMask mask => d.channelAbortMask mask
  | .channelSetCallback ch fn => d.channelSetCallback ch fn
  | .timerSetFraction timer numerator denominator => d.timerSetFraction timer numerator denominator
  | .snifferEnable ch mode force => d.snifferEnable ch mode force
  | .snifferDisable => d.snifferDisable
  | .snifferSetOutputInvertEnabled invert => d.snifferSetOutputInvertEnabled invert
  | .snifferSetOutputReverseEnabled reverse => d.snifferSetOutputReverseEnabled reverse
  | .snifferSetDataAccumulator seedValue => d.snifferSetDataAccumulator seedValue
  | .irqnSetChannelMaskEnabled line mask enabled => d.irqnSetChannelMaskEnabled line mask enabled
  | .irqnAcknowledgeChannel ch => d.irqnAcknowledgeChannel ch
  | .irqnForceChannel line ch on => d.irqnForceChannel line ch on

namespace Chip
variable [Platform] (cb : Callback) (s : Chip)

def modifyDma (f : Dma → Dma) : Chip := { s with dma := f s.dma }

/-! ### Triggers -/

def raiseIrq (ch : ℕ) : Chip :=
  let s := s.modifyDma fun d =>
    { d.record (.raised (chIdx ch)) with intr := d.intr ||| (1#32 <<< chIdx ch) }
  match (s.dma.ch (chIdx ch)).onComplete with
  | none => s
  | some fn => cb fn ch s

/-- The trigger of one channel by `pio_dma_start_channel_mask`: with a reload count of 0 it is a
null trigger, which only raises the interrupt of a quiet channel. -/
def trigger (c : ℕ) : Chip :=
  let s := s.modifyDma (·.record (.triggered c))
  if (s.dma.ch c).transCountReload = 0 then
    if (s.dma.ch c).ctrl.irqQuiet then s.raiseIrq cb c else s
  else s.modifyDma (·.modifyCh c fun chan =>
    { chan with transCount := chan.transCountReload, busy := true })

def startChannelMask (mask : BitVec 32) : Chip :=
  (List.range dmaNumChannels).foldl (fun s c => if mask.getLsbD c then s.trigger cb c else s) s

def channelConfigure (ch : ℕ) (c : DmaConfig) (writeAddr readAddr : DmaAddr)
    (transCount : BitVec 32) (trigger : Bool) : Chip :=
  let s := s.modifyDma (·.modifyCh (chIdx ch) fun chan =>
    { chan with
      ctrl := c
      writeAddr := writeAddr
      readAddr := readAddr
      transCountReload := transCount
      en := true })
  if trigger then s.startChannelMask cb (1#32 <<< chIdx ch) else s

/-! ### Readiness -/

/-- `pio_sim_sm_is_dreq_tx` and `pio_sim_sm_is_dreq_rx` on the block attached at an index, false
when there is none. -/
def dreqTx (pioIndex sm : ℕ) : Bool :=
  (s.dma.pioAt pioIndex).elim false fun b => !(s.world.sm b (smIdx sm)).tx.isFull

def dreqRx (pioIndex sm : ℕ) : Bool :=
  (s.dma.pioAt pioIndex).elim false fun b => !(s.world.sm b (smIdx sm)).rx.isEmpty

def treqReady (chan : DmaChannel) : Bool :=
  let treq := chan.ctrl.treqSel
  if treq = treqForce then true
  else match timerOf treq with
    | some t => (s.dma.timer t).credit
    | none => if 4 ≤ treq % 8 then s.dreqRx (treq / 8) (treq % 4)
        else s.dreqTx (treq / 8) (treq % 4)

/-- `dma_endpoints_ready`, source and destination side. -/
def sourceReady : DmaAddr → Bool
  | .mem p => p != 0
  | .rxf pioIndex sm => s.dreqRx pioIndex sm
  | .txf _ _ => false

def destReady : DmaAddr → Bool
  | .mem p => p != 0
  | .txf pioIndex sm => s.dreqTx pioIndex sm
  | .rxf _ _ => false

def endpointsReady (chan : DmaChannel) : Bool :=
  s.sourceReady chan.readAddr && s.destReady chan.writeAddr

def channelReady (c : ℕ) : Bool :=
  let chan := s.dma.ch c
  chan.en && chan.busy && s.treqReady chan && s.endpointsReady chan

/-! ### Transfers -/

/-- The read of `dma_transfer_one`: memory, or a word from an RX FIFO. -/
def readElem (a : DmaAddr) (bytes : ℕ) : Word × Chip :=
  match a with
  | .mem p => (LittleEndian.load 32 s.mem p bytes, s)
  | .txf pioIndex sm | .rxf pioIndex sm =>
    match s.dma.pioAt pioIndex with
    | none => (0, s)
    | some b => ((s.world.sm b (smIdx sm)).get.2.getD 0,
        { s with world := s.world.step (.sm b sm .get) })

/-- The write of `dma_transfer_one`: memory, or a word to a TX FIFO. -/
def writeElem (a : DmaAddr) (bytes : ℕ) (v : Word) : Chip :=
  match a with
  | .mem p => { s with mem := LittleEndian.store s.mem p bytes v }
  | .txf pioIndex sm | .rxf pioIndex sm =>
    match s.dma.pioAt pioIndex with
    | none => s
    | some b => { s with world := s.world.step (.sm b sm (.put v)) }

/-- The data movement of `dma_transfer_one`. -/
def moveElem (c : ℕ) : Chip :=
  let chan := s.dma.ch c
  let bytes := elemBytes chan.ctrl.dataSize
  let r := s.readElem chan.readAddr bytes
  let v := if chan.ctrl.bswap then dmaBswap r.1 bytes else r.1
  let s := r.2.modifyDma fun d =>
    if d.sniff.en && chan.ctrl.sniffEn && d.sniff.chan == c then
      { d with sniff := d.sniff.feed v bytes } else d
  (s.writeElem chan.writeAddr bytes v).modifyDma
    (·.record (.moved c chan.readAddr chan.writeAddr v))

/-- The timer credit that paced a transfer is used up. -/
def consumeCredit (treq : ℕ) : Chip :=
  match timerOf treq with
  | none => s
  | some t => s.modifyDma fun d => d.setTimer t { d.timer t with credit := false }

/-- What `dma_transfer_one` does when the count has reached 0. -/
def complete (c : ℕ) : Chip :=
  let s := if (s.dma.ch c).ctrl.irqQuiet then s else s.raiseIrq cb c
  let target := (s.dma.ch c).ctrl.chainTo
  if target ≠ c ∧ target < dmaNumChannels then
    (s.modifyDma (·.record (.chained c target))).startChannelMask cb (1#32 <<< target)
  else s

def transferOne (c : ℕ) : Chip :=
  let s := ((s.moveElem c).consumeCredit (s.dma.ch c).ctrl.treqSel).modifyDma
    (·.modifyCh c DmaChannel.advance)
  if (s.dma.ch c).transCount = 0 then s.complete cb c else s

/-- One pass of `pio_dma_tick`: the first ready channel of a priority from the seat on. -/
def firstReady (highPriority : Bool) : Option ℕ :=
  RoundRobin.scan dmaNumChannels s.dma.rrNext fun c =>
    (s.dma.ch c).ctrl.highPriority == highPriority && s.channelReady c

def served : Option ℕ := (s.firstReady true).or (s.firstReady false)

/-- The state in which a tick looks for a channel to serve. -/
def clocked : Chip := s.modifyDma Dma.timersTick

def dmaTick : Chip × Bool :=
  let s := s.clocked
  match s.served with
  | none => (s, false)
  | some c => ((s.transferOne cb c).modifyDma fun d =>
      { d with rrNext := (c + 1) % dmaNumChannels }, true)

end Chip

/-- One call on a controller, or anything else that happens around it: a call on the PIO blocks, or
a write to host memory. -/
inductive ChipCall
  | pio (c : Call)
  | poke (p : ℕ) (v : BitVec 8)
  | op (o : DmaOp)
  | startChannelMask (mask : BitVec 32)
  | channelConfigure (ch : ℕ) (c : DmaConfig) (writeAddr readAddr : DmaAddr)
  (transCount : BitVec 32)
    (trigger : Bool)
  | dmaTick

namespace Chip
variable [Platform] (cb : Callback)

def step (s : Chip) : ChipCall → Chip
  | .pio c => { s with world := s.world.step c }
  | .poke p v => { s with mem := Function.update s.mem p v }
  | .op o => s.modifyDma fun d => o.apply d
  | .startChannelMask mask => s.startChannelMask cb mask
  | .channelConfigure ch c writeAddr readAddr transCount trigger =>
    s.channelConfigure cb ch c writeAddr readAddr transCount trigger
  | .dmaTick => (s.dmaTick cb).1

def run (s : Chip) (cs : List ChipCall) : Chip := cs.foldl (step cb) s

/-- The channel a call lets transfer, as a list of at most one. -/
def transfers (s : Chip) : ChipCall → List ℕ
  | .dmaTick => s.clocked.served.toList
  | _ => []

end Chip
end PioSim
