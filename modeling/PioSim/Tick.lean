import PioSim.Execute

/-!
# SM cycles and system ticks

`sm_cycle`, the clock divider around it, `pio_sim_tick` and `pio_sim_group_tick`. The device hook
runs in the middle of a tick, so a tick is its two halves with the hook's work in between.
-/

namespace PioSim.World

variable [Platform] (w : World)

/-- The word the state machine presents: an injected one, or the one fetched at its PC. This is what
`pio_sim_sm_get_instruction` returns and what `sm_cycle` executes. -/
def getInstruction (b : BlockAddr) (i : Fin 4) : Insn :=
  if (w.sm b i).execPending then (w.sm b i).execInsn
  else (w.blocks b).insn (Fin.ofNat 32 (w.sm b i).pc)

/-- The diagnostic count of fetches from words that were never loaded. -/
def countFetch (b : BlockAddr) (i : Fin 4) : World :=
  if (w.sm b i).execPending || (w.blocks b).insnUsed (Fin.ofNat 32 (w.sm b i).pc) then w
  else w.setBlock b
    { w.blocks b with unwrittenFetches := (w.blocks b).unwrittenFetches + 1 }

/-- `sm_cycle` once the delay has run out: present one instruction. -/
def present (b : BlockAddr) (i : Fin 4) : World :=
  let fromExec := (w.sm b i).execPending
  let r := (w.countFetch b i).execOne b i (w.getInstruction b i)
  if r.committed then r.world.modifySm b i (·.retire fromExec r.setPc r.delay)
  else r.world.modifySm b i fun sm => { sm with stalled := true }

def smCycle (b : BlockAddr) (i : Fin 4) : World :=
  let w := w.modifySm b i Sm.backgroundAutopull
  if 0 < (w.sm b i).delay then w.modifySm b i fun sm => { sm with delay := sm.delay - 1 }
  else w.present b i

/-- The divider of a state machine in 1/256 units; `clkdivInt = 0` encodes 65536. -/
def divUnits (sm : Sm) : ℕ :=
  ((if sm.clkdivInt = 0 then 65536 else sm.clkdivInt) <<< 8) ||| sm.clkdivFrac

/-- The OUT_STICKY re-assertion after an SM cycle. -/
def stickyReassert (sm : Sm) : Sm :=
  if sm.outSticky then
    { sm with pins := { sm.pins with
        wroteThisCycle := sm.pins.wroteThisCycle ||| sm.pins.outPinOe } }
  else sm

/-- One state machine's share of `pio_sim_tick`: its divider, and its cycle when one is due. -/
def smTick (b : BlockAddr) (i : Fin 4) : World :=
  let sm := w.sm b i
  let accum := u32 (sm.clkAccum + 256)
  if divUnits sm ≤ accum then
    let w := w.setSm b i { sm with clkAccum := accum - divUnits sm }
    if sm.enabled then (w.smCycle b i).modifySm b i stickyReassert else w
  else w.setSm b i { sm with clkAccum := accum }

/-- Opens the write window of every state machine of a block. -/
def openWindow (b : BlockAddr) : World :=
  (List.finRange 4).foldl (fun w i => w.modifySm b i Sm.openWindow) w

/-- `pio_sim_tick` up to the device hook. -/
def tickSms (b : BlockAddr) : World :=
  ((List.finRange 4).foldl (fun w i => w.smTick b i) (w.openWindow b)).resolvePads b

/-- `pio_sim_tick` after the device hook: a block clocks the synchroniser of pads it owns. -/
def tickEnd (b : BlockAddr) : World :=
  let w := if w.padRef b = .embedded b then w.modifyPads b Pads.clockSync else w
  w.setBlock b { w.blocks b with cycle := (w.blocks b).cycle + 1 }

/-- `pio_sim_tick`; `onTick` is what the device hook does, `id` for none. -/
def pioSimTick (b : BlockAddr) (onTick : World → World) : World := (onTick (w.tickSms b)).tickEnd b

/-- The head of `pio_sim_group_tick`, which opens the write window of the whole group. -/
def groupOpen (g : GroupAddr) : World := (w.groups g).blk.foldl (fun w b => w.openWindow b) w

/-- The tail of `pio_sim_group_tick`, which clocks the shared synchroniser once. -/
def groupEnd (g : GroupAddr) : World :=
  if (w.groups g).shared then w.setPads (.shared g) (w.padsAt (.shared g)).clockSync else w

/-- `pio_sim_group_tick`; `onTick b` is what block `b`'s device hook does. -/
def groupTick (g : GroupAddr) (onTick : BlockAddr → World → World) : World :=
  ((w.groups g).blk.foldl (fun w b => w.pioSimTick b (onTick b)) (w.groupOpen g)).groupEnd g

end PioSim.World
