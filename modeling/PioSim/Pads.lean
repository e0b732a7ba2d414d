import PioSim.StateMachine

/-!
# Pads

`pio_pads_t`: the electrical state of the GPIOs behind one or more PIO blocks, the drive pipeline
from the function mux to the wire, and the register-style setters of `pio_gpio.c` and `pio_sim.c`.
`owners` points back at the blocks that share the pads.
-/

namespace PioSim

variable [Platform]

/-- The address of a `pio_sim_t`, and of a `pio_sim_group_t`. -/
abbrev BlockAddr := ℕ
abbrev GroupAddr := ℕ

/-- `pio_pads_t`. `funcsel` and `padCfg` are indexed by pin, `pioFuncMask` by owner slot; the
length of `owners` is `owner_count`. -/
structure Pads where
  pinLevels : Mask
  pinDirs : Mask
  inSync0 : Mask
  inSync1 : Mask
  extDrive : Mask
  extLevels : Mask
  padIe : Mask
  padOd : Mask
  padPue : Mask
  padPde : Mask
  keepState : Mask
  padIso : Mask
  isoLevels : Mask
  isoOe : Mask
  padCfg : ℕ → BitVec 8
  funcsel : ℕ → ℕ
  pioFuncMask : ℕ → Mask
  periphSelMask : Mask
  periphOe : Mask
  periphLevel : Mask
  outoverInv : Mask
  outoverLow : Mask
  outoverHigh : Mask
  oeoverInv : Mask
  oeoverLow : Mask
  oeoverHigh : Mask
  inoverInv : Mask
  inoverLow : Mask
  inoverHigh : Mask
  syncBypass : Mask
  owners : List BlockAddr

/-- `PIO_GPIO_FUNC_PIO0`, `PIO_GPIO_FUNC_NULL` and `PIO_GPIO_FUNC_LEGACY_ANY_PIO`. -/
def funcPio0 : ℕ := 6
def funcNull : ℕ := 0x1F
def funcLegacyAnyPio : ℕ := 0xFF

inductive GpioOverride
  | normal
  | invert
  | low
  | high
  deriving DecidableEq, Repr

def pinIdx (pin : ℕ) : ℕ := pin % numPins

def maskSet (m : Mask) (pin : ℕ) (on : Bool) : Mask :=
  if on then m ||| pinBit (pinIdx pin) else m &&& ~~~ pinBit (pinIdx pin)

theorem pinIdx_lt_numPins (pin : ℕ) : pinIdx pin < numPins := Nat.mod_lt _ numPins_pos

theorem pinIdx_lt (pin : ℕ) : pinIdx pin < 64 := by
  have hpin := pinIdx_lt_numPins pin
  have hle := numPins_le
  omega

theorem getLsbD_maskSet (m : Mask) (pin : ℕ) (on : Bool) (k : ℕ) :
    (maskSet m pin on).getLsbD k = if k = pinIdx pin then on else m.getLsbD k := by
  have hlt := pinIdx_lt pin
  by_cases hk : k = pinIdx pin
  · subst hk
    cases on <;> simp [maskSet, getLsbD_pinBit, hlt]
  · have hbit : (pinBit (pinIdx pin)).getLsbD k = false := by simp [getLsbD_pinBit, hk]
    rw [if_neg hk]
    by_cases h64 : k < 64
    · cases on with
      | false => rw [maskSet, if_neg Bool.false_ne_true, BitVec.getLsbD_and, BitVec.getLsbD_not,
          hbit, decide_eq_true h64, Bool.not_false, Bool.and_true, Bool.and_true]
      | true => rw [maskSet, if_pos rfl, BitVec.getLsbD_or, hbit, Bool.or_false]
    · rw [BitVec.getLsbD_of_ge _ _ (by omega), BitVec.getLsbD_of_ge _ _ (by omega)]

namespace Pads

/-- A zeroed pad set after `pio_pads_init_defaults`, with the given owners. -/
def initDefaults (owners : List BlockAddr) : Pads where
  pinLevels := 0
  pinDirs := 0
  inSync0 := 0
  inSync1 := 0
  extDrive := 0
  extLevels := 0
  padIe := BitVec.allOnes 64
  padOd := 0
  padPue := 0
  padPde := 0
  keepState := 0
  padIso := 0
  isoLevels := 0
  isoOe := 0
  padCfg := fun _ => 0
  funcsel := fun _ => funcLegacyAnyPio
  pioFuncMask := fun _ => BitVec.allOnes 64
  periphSelMask := 0
  periphOe := 0
  periphLevel := 0
  outoverInv := 0
  outoverLow := 0
  outoverHigh := 0
  oeoverInv := 0
  oeoverLow := 0
  oeoverHigh := 0
  inoverInv := 0
  inoverLow := 0
  inoverHigh := 0
  syncBypass := 0
  owners := owners

/-- `pio_pads_chip_drive`: the chip-side output enable and level of every pad. -/
def chipDrive (p : Pads) : Mask × Mask :=
  let pioOe := p.pinDirs
  let perOe := p.periphOe &&& p.periphSelMask &&& ~~~ pioOe
  let oe := pioOe ||| perOe
  let lvl := (p.pinLevels &&& pioOe) ||| (p.periphLevel &&& perOe)
  let lvl := ((lvl ^^^ p.outoverInv) ||| p.outoverHigh) &&& ~~~ p.outoverLow
  let oe := ((oe ^^^ p.oeoverInv) ||| p.oeoverHigh) &&& ~~~ p.oeoverLow
  let oe := oe &&& ~~~ p.padOd
  if hasPadIso then
    ((oe &&& ~~~ p.padIso) ||| (p.isoOe &&& p.padIso),
      (lvl &&& ~~~ p.padIso) ||| (p.isoLevels &&& p.padIso))
  else (oe, lvl)

/-- `pads_live`: chip drive, else external drive, else pulls, else 0. -/
def live (p : Pads) : Mask :=
  let (oe, lvl) := p.chipDrive
  let ext := p.extDrive &&& ~~~ oe
  let undriven := ~~~ oe &&& ~~~ ext
  let keeper := p.padPue &&& p.padPde &&& undriven
  let pullUp := p.padPue &&& ~~~ p.padPde &&& undriven
  (lvl &&& oe) ||| (p.extLevels &&& ext) ||| pullUp ||| (p.keepState &&& keeper)

/-- `pads_input_view`: what feeds the input synchroniser. -/
def inputView (p : Pads) : Mask :=
  let v := p.live &&& p.padIe
  let v := if hasPadIso then v &&& ~~~ p.padIso else v
  ((v ^^^ p.inoverInv) ||| p.inoverHigh) &&& ~~~ p.inoverLow

def updateKeeper (p : Pads) : Pads :=
  let (oe, lvl) := p.chipDrive
  let driven := oe ||| p.extDrive
  let level := (lvl &&& oe) ||| (p.extLevels &&& p.extDrive &&& ~~~ oe)
  { p with keepState := (p.keepState &&& ~~~ driven) ||| (level &&& driven) }

/-- The end-of-tick clocking of a pad set: keeper, then the two synchroniser stages. -/
def clockSync (p : Pads) : Pads :=
  let p := p.updateKeeper
  { p with inSync1 := p.inSync0, inSync0 := p.inputView }

/-- The level a state machine samples for a pin, `pio_input_level`. -/
def inputLevel (p : Pads) (pin : ℕ) : Bool :=
  ((p.inSync1 &&& ~~~ p.syncBypass) ||| (p.inputView &&& p.syncBypass)).getLsbD (pinIdx pin)

/-! ### Drive resolution -/

/-- The owners with their slot numbers, slot `o` being `FUNC_PIOo`. -/
def slots (p : Pads) : List (BlockAddr × ℕ) := p.owners.zipIdx

/-- The scan order of `pio_pads_resolve`: owner slots upwards, state machines upwards in each. -/
def drivers (p : Pads) : List (BlockAddr × ℕ × Fin 4) :=
  p.slots.flatMap fun bo => (List.finRange 4).map fun s => (bo.1, bo.2, s)

/-- One overwrite of the scan: on the pins in `mask` the later driver wins. -/
def overwrite (acc mask value : Mask) : Mask := (acc &&& ~~~ mask) ||| (value &&& mask)

/-- The pins whose level a driver has written this cycle, as far as the mux lets it. -/
def writtenBy (sm : BlockAddr → Fin 4 → Sm) (p : Pads) (d : BlockAddr × ℕ × Fin 4) : Mask :=
  (sm d.1 d.2.2).pins.wroteThisCycle &&& p.pioFuncMask d.2.1

/-- The pins whose direction a driver claims, as far as the mux lets it. -/
def drivenBy (sm : BlockAddr → Fin 4 → Sm) (p : Pads) (d : BlockAddr × ℕ × Fin 4) : Mask :=
  (sm d.1 d.2.2).pins.dirDriven &&& p.pioFuncMask d.2.1

/-- The level pass of `pio_pads_resolve`. -/
def resolvedLevels (sm : BlockAddr → Fin 4 → Sm) (p : Pads) : Mask :=
  p.drivers.foldl (fun val d => overwrite val (p.writtenBy sm d) (sm d.1 d.2.2).pins.outPinVal)
    p.pinLevels

/-- The direction passes of `pio_pads_resolve`: the claims of disabled state machines first, then
those of enabled ones over them. -/
def resolvedDirs (sm : BlockAddr → Fin 4 → Sm) (p : Pads) : Mask :=
  let parked := p.drivers.foldl (fun oe d =>
    overwrite oe (if (sm d.1 d.2.2).enabled then 0 else p.drivenBy sm d)
      (sm d.1 d.2.2).pins.outPinOe) 0
  p.drivers.foldl (fun oe d =>
    if (sm d.1 d.2.2).enabled then
      overwrite oe (p.drivenBy sm d) (sm d.1 d.2.2).pins.outPinOe
    else oe) parked

def resolve (sm : BlockAddr → Fin 4 → Sm) (p : Pads) : Pads :=
  { p with pinDirs := p.resolvedDirs sm, pinLevels := p.resolvedLevels sm }

/-! ### The function mux -/

/-- The pins whose FUNCSEL satisfies `f`, as built by the loop of `pio_pads_apply_funcsel`. -/
def funcMask (p : Pads) (f : ℕ → Bool) : Mask :=
  (List.range numPins).foldl (fun m i => if f (p.funcsel i) then m ||| pinBit i else m) 0

def selectsPio (o f : ℕ) : Bool :=
  f == funcLegacyAnyPio || (funcPio0 ≤ f && f < funcPio0 + numPio && f - funcPio0 == o)

def selectsPeriph (f : ℕ) : Bool :=
  !(f == funcLegacyAnyPio) && !(funcPio0 ≤ f && f < funcPio0 + numPio) && !(f == funcNull)

/-- The cache refresh of `pio_pads_apply_funcsel`. -/
def refreshFuncMasks (p : Pads) : Pads :=
  { p with
    pioFuncMask := fun o => p.funcMask (selectsPio o)
    periphSelMask := p.funcMask selectsPeriph }

def applyFuncsel (sm : BlockAddr → Fin 4 → Sm) (p : Pads) : Pads := p.refreshFuncMasks.resolve sm

/-- `pio_sim_gpio_set_function`: FUNCSEL is a five-bit field, but for the simulator's own value. -/
def gpioSetFunction (sm : BlockAddr → Fin 4 → Sm) (p : Pads) (pin f : ℕ) : Pads :=
  let raw := if f = funcLegacyAnyPio then f else f % 32
  applyFuncsel sm { p with funcsel := Function.update p.funcsel (pinIdx pin) raw }

/-! ### Register-style setters -/

def setPullLevel (p : Pads) (mask : Mask) (level : Bool) : Pads :=
  if level then { p with padPue := p.padPue ||| mask, padPde := p.padPde &&& ~~~ mask }
  else { p with padPde := p.padPde ||| mask, padPue := p.padPue &&& ~~~ mask }

def setPin (p : Pads) (pin : ℕ) (level : Bool) : Pads :=
  { p with
    extDrive := p.extDrive ||| pinBit (pinIdx pin)
    extLevels := maskSet p.extLevels pin level }

def releasePin (p : Pads) (pin : ℕ) : Pads :=
  { p with extDrive := p.extDrive &&& ~~~ pinBit (pinIdx pin) }

def syncSettle (p : Pads) : Pads := { p with inSync0 := p.inputView, inSync1 := p.inputView }

def setInputSyncBypass (p : Pads) (mask : Mask) : Pads := { p with syncBypass := mask }

def gpioSetOutover (p : Pads) (pin : ℕ) (o : GpioOverride) : Pads :=
  { p with
    outoverInv := maskSet p.outoverInv pin (o == .invert)
    outoverLow := maskSet p.outoverLow pin (o == .low)
    outoverHigh := maskSet p.outoverHigh pin (o == .high) }

def gpioSetOeover (p : Pads) (pin : ℕ) (o : GpioOverride) : Pads :=
  { p with
    oeoverInv := maskSet p.oeoverInv pin (o == .invert)
    oeoverLow := maskSet p.oeoverLow pin (o == .low)
    oeoverHigh := maskSet p.oeoverHigh pin (o == .high) }

def gpioSetInover (p : Pads) (pin : ℕ) (o : GpioOverride) : Pads :=
  { p with
    inoverInv := maskSet p.inoverInv pin (o == .invert)
    inoverLow := maskSet p.inoverLow pin (o == .low)
    inoverHigh := maskSet p.inoverHigh pin (o == .high) }

def gpioSetPeriphOutput (p : Pads) (pin : ℕ) (oe level : Bool) : Pads :=
  { p with
    periphOe := maskSet p.periphOe pin oe
    periphLevel := maskSet p.periphLevel pin level }

def padSetInputEnable (p : Pads) (pin : ℕ) (ie : Bool) : Pads :=
  { p with padIe := maskSet p.padIe pin ie }

def padSetOutputDisable (p : Pads) (pin : ℕ) (od : Bool) : Pads :=
  { p with padOd := maskSet p.padOd pin od }

def padSetPulls (p : Pads) (pin : ℕ) (up down : Bool) : Pads :=
  { p with padPue := maskSet p.padPue pin up, padPde := maskSet p.padPde pin down }

def setPadCfg (p : Pads) (pin : ℕ) (f : BitVec 8 → BitVec 8) : Pads :=
  { p with padCfg := Function.update p.padCfg (pinIdx pin) (f (p.padCfg (pinIdx pin))) }

/-- `pio_sim_pad_set_drive`, in the `DRIVE` field of the packed byte. -/
def padSetDrive (p : Pads) (pin drive : ℕ) : Pads :=
  p.setPadCfg pin fun cfg => (cfg &&& ~~~ 0x3#8) ||| (BitVec.ofNat 8 drive &&& 0x3#8)

def padSetSlewFast (p : Pads) (pin : ℕ) (fast : Bool) : Pads :=
  p.setPadCfg pin fun cfg => if fast then cfg ||| 0x4#8 else cfg &&& ~~~ 0x4#8

def padSetSchmitt (p : Pads) (pin : ℕ) (enable : Bool) : Pads :=
  p.setPadCfg pin fun cfg => if enable then cfg ||| 0x8#8 else cfg &&& ~~~ 0x8#8

/-- `pio_sim_pad_set_iso`: raising ISO latches the chip-side drive of the moment. -/
def padSetIso (p : Pads) (pin : ℕ) (iso : Bool) : Pads :=
  let latched :=
    if iso && !p.padIso.getLsbD (pinIdx pin) then
      { p with
        isoOe := maskSet p.isoOe pin (p.chipDrive.1.getLsbD (pinIdx pin))
        isoLevels := maskSet p.isoLevels pin (p.chipDrive.2.getLsbD (pinIdx pin)) }
    else p
  { latched with padIso := maskSet p.padIso pin iso }

def resetHw (p : Pads) : Pads :=
  { p with
    padIe := BitVec.allOnes 64
    padOd := 0
    padPue := 0
    padPde := BitVec.allOnes 64
    keepState := 0
    padCfg := fun i => if i < numPins then 0x9#8 else p.padCfg i
    padIso := if hasPadIso then BitVec.allOnes 64 else p.padIso
    isoOe := if hasPadIso then 0 else p.isoOe
    isoLevels := if hasPadIso then 0 else p.isoLevels }

def getPin (p : Pads) (pin : ℕ) : Bool := p.live.getLsbD (pinIdx pin)

def pinIsPioOutput (p : Pads) (pin : ℕ) : Bool :=
  let oe := p.pinDirs
  let oe := ((oe ^^^ p.oeoverInv) ||| p.oeoverHigh) &&& ~~~ p.oeoverLow
  let oe := oe &&& ~~~ p.padOd
  let oe := if hasPadIso then oe &&& ~~~ p.padIso else oe
  oe.getLsbD (pinIdx pin)

end Pads

/-- The setters that only write pad registers. -/
inductive PadOp
  | setPullLevel (mask : Mask) (level : Bool)
  | setInputSyncBypass (mask : Mask)
  | syncSettle
  | setPin (pin : ℕ) (level : Bool)
  | releasePin (pin : ℕ)
  | gpioSetOutover (pin : ℕ) (o : GpioOverride)
  | gpioSetOeover (pin : ℕ) (o : GpioOverride)
  | gpioSetInover (pin : ℕ) (o : GpioOverride)
  | gpioSetPeriphOutput (pin : ℕ) (oe level : Bool)
  | padSetInputEnable (pin : ℕ) (ie : Bool)
  | padSetOutputDisable (pin : ℕ) (od : Bool)
  | padSetPulls (pin : ℕ) (up down : Bool)
  | padSetDrive (pin drive : ℕ)
  | padSetSlewFast (pin : ℕ) (fast : Bool)
  | padSetSchmitt (pin : ℕ) (enable : Bool)
  | padSetIso (pin : ℕ) (iso : Bool)
  | resetHw
  deriving DecidableEq

def PadOp.apply (p : Pads) : PadOp → Pads
  | .setPullLevel mask level => p.setPullLevel mask level
  | .setInputSyncBypass mask => p.setInputSyncBypass mask
  | .syncSettle => p.syncSettle
  | .setPin pin level => p.setPin pin level
  | .releasePin pin => p.releasePin pin
  | .gpioSetOutover pin o => p.gpioSetOutover pin o
  | .gpioSetOeover pin o => p.gpioSetOeover pin o
  | .gpioSetInover pin o => p.gpioSetInover pin o
  | .gpioSetPeriphOutput pin oe level => p.gpioSetPeriphOutput pin oe level
  | .padSetInputEnable pin ie => p.padSetInputEnable pin ie
  | .padSetOutputDisable pin od => p.padSetOutputDisable pin od
  | .padSetPulls pin up down => p.padSetPulls pin up down
  | .padSetDrive pin drive => p.padSetDrive pin drive
  | .padSetSlewFast pin fast => p.padSetSlewFast pin fast
  | .padSetSchmitt pin enable => p.padSetSchmitt pin enable
  | .padSetIso pin iso => p.padSetIso pin iso
  | .resetHw => p.resetHw

end PioSim
