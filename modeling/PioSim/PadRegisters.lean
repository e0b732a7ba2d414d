import PioSim.PadEffect
import PioSim.Lib.Register

/-!
# The pad and mux registers

`pio_gpio.h` gives every register of a pin a setter and a getter. Arbitration, ticks and whatever
else runs read these registers but never write them, so a getter returns what the last setter on its
pin said, through whichever block of the pad set it was called.
-/

namespace PioSim

open Register (Access)

variable [Platform]

/-! ### Getters -/

def getOverride (inv low high : Mask) (pin : ℕ) : GpioOverride :=
  if high.getLsbD (pinIdx pin) then .high
  else if low.getLsbD (pinIdx pin) then .low
  else if inv.getLsbD (pinIdx pin) then .invert
  else .normal

namespace Pads
variable (p : Pads) (pin : ℕ)

def gpioGetFunction : ℕ := p.funcsel (pinIdx pin)

def gpioGetOutover : GpioOverride := getOverride p.outoverInv p.outoverLow p.outoverHigh pin

def gpioGetOeover : GpioOverride := getOverride p.oeoverInv p.oeoverLow p.oeoverHigh pin

def gpioGetInover : GpioOverride := getOverride p.inoverInv p.inoverLow p.inoverHigh pin

/-- `pio_sim_gpio_get_periph_output`: the output enable and the level. -/
def gpioGetPeriphOutput : Bool × Bool :=
  (p.periphOe.getLsbD (pinIdx pin), p.periphLevel.getLsbD (pinIdx pin))

def padGetInputEnable : Bool := p.padIe.getLsbD (pinIdx pin)

def padGetOutputDisable : Bool := p.padOd.getLsbD (pinIdx pin)

/-- `pio_sim_pad_get_pulls`: up and down. -/
def padGetPulls : Bool × Bool := (p.padPue.getLsbD (pinIdx pin), p.padPde.getLsbD (pinIdx pin))

def padGetDrive : BitVec 8 := p.padCfg (pinIdx pin) &&& 0x3#8

def padGetSlewFast : Bool := p.padCfg (pinIdx pin) &&& 0x4#8 != 0

def padGetSchmitt : Bool := p.padCfg (pinIdx pin) &&& 0x8#8 != 0

def padGetIso : Bool := p.padIso.getLsbD (pinIdx pin)

end Pads

/-! ### Fields -/

/-- The registers a pin has, with the type of their values. -/
inductive PadField : Type → Type
  | function : PadField ℕ
  | outover : PadField GpioOverride
  | oeover : PadField GpioOverride
  | inover : PadField GpioOverride
  | periphOutput : PadField (Bool × Bool)
  | inputEnable : PadField Bool
  | outputDisable : PadField Bool
  | pulls : PadField (Bool × Bool)
  | drive : PadField (BitVec 8)
  | slewFast : PadField Bool
  | schmitt : PadField Bool
  | iso : PadField Bool

namespace PadField
variable {α : Type}

/-- The getter of a field. -/
def get (p : Pads) (pin : ℕ) : PadField α → α
  | .function => p.gpioGetFunction pin
  | .outover => p.gpioGetOutover pin
  | .oeover => p.gpioGetOeover pin
  | .inover => p.gpioGetInover pin
  | .periphOutput => p.gpioGetPeriphOutput pin
  | .inputEnable => p.padGetInputEnable pin
  | .outputDisable => p.padGetOutputDisable pin
  | .pulls => p.padGetPulls pin
  | .drive => p.padGetDrive pin
  | .slewFast => p.padGetSlewFast pin
  | .schmitt => p.padGetSchmitt pin
  | .iso => p.padGetIso pin

/-- What a fresh pad set holds. -/
def reset : PadField α → α
  | .function => funcLegacyAnyPio
  | .outover | .oeover | .inover => .normal
  | .periphOutput | .pulls => (false, false)
  | .inputEnable => true
  | .outputDisable | .slewFast | .schmitt | .iso => false
  | .drive => 0

/-- What `pio_sim_pads_reset_hw` writes; it keeps its hands off the mux. -/
def hardwareReset : PadField α → Option α
  | .function | .outover | .oeover | .inover | .periphOutput => none
  | .inputEnable => some true
  | .outputDisable => some false
  | .pulls => some (false, true)
  | .drive => some 1
  | .slewFast => some false
  | .schmitt => some true
  | .iso => if hasPadIso then some true else none

/-- What a setter writes to the field of pin `pin`, if it writes there. -/
def written (pin : ℕ) : PadField α → PadOp → Option α
  | .outover, .gpioSetOutover k o => if pinIdx pin = pinIdx k then some o else none
  | .oeover, .gpioSetOeover k o => if pinIdx pin = pinIdx k then some o else none
  | .inover, .gpioSetInover k o => if pinIdx pin = pinIdx k then some o else none
  | .periphOutput, .gpioSetPeriphOutput k oe level =>
    if pinIdx pin = pinIdx k then some (oe, level) else none
  | .inputEnable, .padSetInputEnable k on => if pinIdx pin = pinIdx k then some on else none
  | .outputDisable, .padSetOutputDisable k on => if pinIdx pin = pinIdx k then some on else none
  | .pulls, .padSetPulls k up down => if pinIdx pin = pinIdx k then some (up, down) else none
  | .pulls, .setPullLevel mask level => if mask.getLsbD (pinIdx pin) then
    some (level, !level) else none
  | .drive, .padSetDrive k strength =>
    if pinIdx pin = pinIdx k then some (BitVec.ofNat 8 strength &&& 0x3#8) else none
  | .slewFast, .padSetSlewFast k on => if pinIdx pin = pinIdx k then some on else none
  | .schmitt, .padSetSchmitt k on => if pinIdx pin = pinIdx k then some on else none
  | .iso, .padSetIso k on => if pinIdx pin = pinIdx k then some on else none
  | f, .resetHw => f.hardwareReset
  | _, _ => none

/-- What `pio_sim_gpio_set_function` on pin `k` writes to the field of pin `pin`. -/
def routed (pin k v : ℕ) : PadField α → Option α
  | .function => if pinIdx pin = pinIdx k then
    some (if v = funcLegacyAnyPio then v else v % 32) else none
  | _ => none

/-! ### One setter -/

theorem getOverride_maskSet (inv low high : Mask) (k pin : ℕ) (o : GpioOverride) :
    getOverride (maskSet inv k (o == .invert)) (maskSet low k (o == .low))
    (maskSet high k (o == .high)) pin =
      if pinIdx pin = pinIdx k then o else getOverride inv low high pin := by
  unfold getOverride
  simp only [getLsbD_maskSet]
  by_cases h : pinIdx pin = pinIdx k
  · simp only [if_pos h]
    cases o <;> rfl
  · simp only [if_neg h]

omit [Platform] in
theorem getD_ite {c : Prop} [Decidable c] (v d : α) :
    (if c then some v else none).getD d = if c then v else d := by
  split <;> rfl

/-- The configuration byte of a pin that a setter leaves. -/
theorem padCfg_setPadCfg (p : Pads) (k pin : ℕ) (f : BitVec 8 → BitVec 8) :
    (p.setPadCfg k f).padCfg (pinIdx pin) =
      if pinIdx pin = pinIdx k then f (p.padCfg (pinIdx pin)) else p.padCfg (pinIdx pin) := by
  by_cases h : pinIdx pin = pinIdx k
  · rw [if_pos h, h]
    exact Function.update_self ..
  · rw [if_neg h]
    exact Function.update_of_ne h ..

theorem getLsbD_bit_set (m : Mask) (k pin : ℕ) (on : Bool) :
    (maskSet m k on).getLsbD (pinIdx pin) = (if pinIdx pin = pinIdx k then some on else none).getD
      (m.getLsbD (pinIdx pin)) := by
  rw [getLsbD_maskSet, getD_ite]

/-- Raising or lowering ISO writes the isolation registers only. -/
theorem padSetIso_eq (p : Pads) (k : ℕ) (on : Bool) : ∃ oe levels, p.padSetIso k on =
    { p with padIso := maskSet p.padIso k on, isoOe := oe, isoLevels := levels } := by
  unfold Pads.padSetIso
  split
  · exact ⟨_, _, rfl⟩
  · exact ⟨p.isoOe, p.isoLevels, rfl⟩

section
omit [Platform]

/-- A field of the configuration byte is overwritten under its mask. -/
theorem merge_and_self (cfg v m : BitVec 8) : ((cfg &&& ~~~ m) ||| (v &&& m)) &&& m = v &&& m := by
  ext k hk
  simp only [BitVec.getElem_and, BitVec.getElem_or, BitVec.getElem_not]
  cases cfg[k] <;> cases v[k] <;> cases m[k] <;> rfl

theorem merge_and_of_disjoint {m n : BitVec 8} (h : m &&& n = 0) (cfg v : BitVec 8) :
    ((cfg &&& ~~~ m) ||| (v &&& m)) &&& n = cfg &&& n := by
  ext k hk
  have hbit : (m &&& n)[k] = false := by simp [h]
  simp only [BitVec.getElem_and, BitVec.getElem_or, BitVec.getElem_not] at hbit ⊢
  cases hm : m[k] <;> cases hn : n[k] <;> cases cfg[k] <;> cases v[k] <;> simp_all

theorem flag_eq_merge (cfg m : BitVec 8) (on : Bool) : (if on then cfg ||| m else cfg &&& ~~~ m) =
    (cfg &&& ~~~ m) ||| ((if on then BitVec.allOnes 8 else 0) &&& m) := by
  cases on with
  | false => simp
  | true =>
    ext k hk
    simp only [if_true, BitVec.getElem_and, BitVec.getElem_or, BitVec.getElem_not,
      BitVec.getElem_allOnes]
    cases cfg[k] <;> cases m[k] <;> rfl

theorem flag_and_self (cfg : BitVec 8) {m : BitVec 8} (hm : m ≠ 0) (on : Bool) :
    ((if on then cfg ||| m else cfg &&& ~~~ m) &&& m != 0) = on := by
  rw [flag_eq_merge, merge_and_self]
  cases on with
  | false => simp
  | true =>
    rw [if_pos rfl, BitVec.allOnes_and]
    simpa using hm

theorem flag_and_of_disjoint {m n : BitVec 8} (h : m &&& n = 0) (cfg : BitVec 8) (on : Bool) :
    (if on then cfg ||| m else cfg &&& ~~~ m) &&& n = cfg &&& n := by
  rw [flag_eq_merge, merge_and_of_disjoint h]

end

/-- A setter of the configuration byte, seen by a reading of the byte. -/
theorem read_setPadCfg {β : Type} (p : Pads) (k pin : ℕ) (f : BitVec 8 → BitVec 8)
    (read : BitVec 8 → β) :
    read ((p.setPadCfg k f).padCfg (pinIdx pin)) = (if pinIdx pin = pinIdx k
      then some (read (f (p.padCfg (pinIdx pin)))) else none).getD
        (read (p.padCfg (pinIdx pin))) := by
  rw [padCfg_setPadCfg, getD_ite, apply_ite read]

/-- A setter that a reading of the byte does not see. -/
theorem read_setPadCfg_of_blind {β : Type} (p : Pads) (k pin : ℕ) {f : BitVec 8 → BitVec 8}
    {r : BitVec 8 → β} (h : ∀ cfg, r (f cfg) = r cfg) :
    r ((p.setPadCfg k f).padCfg (pinIdx pin)) = r (p.padCfg (pinIdx pin)) := by
  rw [padCfg_setPadCfg, apply_ite r, h, ite_self]

/-- A getter after a setter on the pad set: what the setter wrote, or what was there. -/
theorem get_apply (p : Pads) (pin : ℕ) (f : PadField α) (op : PadOp) :
    f.get (op.apply p) pin = (f.written pin op).getD (f.get p pin) := by
  cases op with
  | gpioSetOutover k o =>
    cases f with
    | outover => exact (getOverride_maskSet ..).trans (getD_ite ..).symm
    | _ => rfl
  | gpioSetOeover k o =>
    cases f with
    | oeover => exact (getOverride_maskSet ..).trans (getD_ite ..).symm
    | _ => rfl
  | gpioSetInover k o =>
    cases f with
    | inover => exact (getOverride_maskSet ..).trans (getD_ite ..).symm
    | _ => rfl
  | gpioSetPeriphOutput k oe level =>
    cases f with
    | periphOutput =>
      refine Eq.trans ?_ (getD_ite ..).symm
      show ((maskSet p.periphOe k oe).getLsbD (pinIdx pin),
        (maskSet p.periphLevel k level).getLsbD (pinIdx pin)) = _
      rw [getLsbD_maskSet, getLsbD_maskSet]
      split <;> rfl
    | _ => rfl
  | padSetInputEnable k on =>
    cases f with
    | inputEnable => exact getLsbD_bit_set ..
    | _ => rfl
  | padSetOutputDisable k on =>
    cases f with
    | outputDisable => exact getLsbD_bit_set ..
    | _ => rfl
  | padSetPulls k up down =>
    cases f with
    | pulls =>
      refine Eq.trans ?_ (getD_ite ..).symm
      show ((maskSet p.padPue k up).getLsbD (pinIdx pin),
        (maskSet p.padPde k down).getLsbD (pinIdx pin)) = _
      rw [getLsbD_maskSet, getLsbD_maskSet]
      split <;> rfl
    | _ => rfl
  | setPullLevel mask level =>
    have hpin := pinIdx_lt pin
    cases f with
    | pulls =>
      refine Eq.trans ?_ (getD_ite ..).symm
      show _ = if _ then _ else (p.padPue.getLsbD (pinIdx pin), p.padPde.getLsbD (pinIdx pin))
      cases level with
      | true =>
        show ((p.padPue ||| mask).getLsbD (pinIdx pin),
          (p.padPde &&& ~~~ mask).getLsbD (pinIdx pin)) = _
        rw [BitVec.getLsbD_or, BitVec.getLsbD_and, BitVec.getLsbD_not, decide_eq_true hpin]
        cases mask.getLsbD (pinIdx pin) <;> simp
      | false =>
        show ((p.padPue &&& ~~~ mask).getLsbD (pinIdx pin),
          (p.padPde ||| mask).getLsbD (pinIdx pin)) = _
        rw [BitVec.getLsbD_or, BitVec.getLsbD_and, BitVec.getLsbD_not, decide_eq_true hpin]
        cases mask.getLsbD (pinIdx pin) <;> simp
    | _ => cases level <;> rfl
  | padSetDrive k strength =>
    let g (cfg : BitVec 8) := (cfg &&& ~~~ 0x3#8) ||| (BitVec.ofNat 8 strength &&& 0x3#8)
    cases f with
    | drive =>
      refine (read_setPadCfg p k pin g (· &&& 0x3#8)).trans ?_
      rw [show g (p.padCfg (pinIdx pin)) &&& 0x3#8 = _ from merge_and_self ..]
      rfl
    | slewFast =>
      exact read_setPadCfg_of_blind p k pin (f := g) (r := (· &&& 0x4#8 != 0))
        fun cfg => congrArg (· != 0) (merge_and_of_disjoint (by decide) cfg _)
    | schmitt =>
      exact read_setPadCfg_of_blind p k pin (f := g) (r := (· &&& 0x8#8 != 0))
        fun cfg => congrArg (· != 0) (merge_and_of_disjoint (by decide) cfg _)
    | _ => rfl
  | padSetSlewFast k on =>
    let g (cfg : BitVec 8) := if on then cfg ||| 0x4#8 else cfg &&& ~~~ 0x4#8
    cases f with
    | slewFast =>
      refine (read_setPadCfg p k pin g (· &&& 0x4#8 != 0)).trans ?_
      rw [show (g (p.padCfg (pinIdx pin)) &&& 0x4#8 != 0) = _ from flag_and_self _ (by decide) on]
      rfl
    | drive =>
      exact read_setPadCfg_of_blind p k pin (f := g) (r := (· &&& 0x3#8))
        fun cfg => flag_and_of_disjoint (by decide) cfg on
    | schmitt =>
      exact read_setPadCfg_of_blind p k pin (f := g) (r := (· &&& 0x8#8 != 0))
        fun cfg => congrArg (· != 0) (flag_and_of_disjoint (by decide) cfg on)
    | _ => rfl
  | padSetSchmitt k on =>
    let g (cfg : BitVec 8) := if on then cfg ||| 0x8#8 else cfg &&& ~~~ 0x8#8
    cases f with
    | schmitt =>
      refine (read_setPadCfg p k pin g (· &&& 0x8#8 != 0)).trans ?_
      rw [show (g (p.padCfg (pinIdx pin)) &&& 0x8#8 != 0) = _ from flag_and_self _ (by decide) on]
      rfl
    | drive =>
      exact read_setPadCfg_of_blind p k pin (f := g) (r := (· &&& 0x3#8))
        fun cfg => flag_and_of_disjoint (by decide) cfg on
    | slewFast =>
      exact read_setPadCfg_of_blind p k pin (f := g) (r := (· &&& 0x4#8 != 0))
        fun cfg => congrArg (· != 0) (flag_and_of_disjoint (by decide) cfg on)
    | _ => rfl
  | padSetIso k on =>
    obtain ⟨oe, levels, h⟩ := padSetIso_eq p k on
    rw [PadOp.apply, h]
    cases f with
    | iso => exact getLsbD_bit_set ..
    | _ => rfl
  | resetHw =>
    have hones : (BitVec.allOnes 64).getLsbD (pinIdx pin) = true := by
      rw [BitVec.getLsbD_allOnes, decide_eq_true (pinIdx_lt pin)]
    have hnum := pinIdx_lt_numPins pin
    cases f with
    | inputEnable => exact hones
    | outputDisable => exact BitVec.getLsbD_zero
    | pulls => exact Prod.ext BitVec.getLsbD_zero hones
    | drive | slewFast | schmitt =>
      simp [PadOp.apply, Pads.resetHw, get, Pads.padGetDrive, Pads.padGetSlewFast,
        Pads.padGetSchmitt, written, hardwareReset, hnum]
    | iso =>
      show (if hasPadIso then BitVec.allOnes 64 else p.padIso).getLsbD (pinIdx pin) =
        (if hasPadIso then some true else none).getD (p.padIso.getLsbD (pinIdx pin))
      split
      · exact hones
      · rfl
    | function | outover | oeover | inover | periphOutput => rfl
  | setInputSyncBypass mask | syncSettle | setPin k level | releasePin k => cases f <;> rfl

theorem get_gpioSetFunction (sm : BlockAddr → Fin 4 → Sm) (p : Pads) (pin k v : ℕ)
    (f : PadField α) :
    f.get (p.gpioSetFunction sm k v) pin = (f.routed pin k v).getD (f.get p pin) := by
  cases f with
  | function =>
    show Function.update p.funcsel (pinIdx k) _ (pinIdx pin) =
      (if pinIdx pin = pinIdx k then some _ else none).getD (p.funcsel (pinIdx pin))
    by_cases h : pinIdx pin = pinIdx k
    · rw [if_pos h, h, Function.update_self]
      rfl
    · rw [if_neg h, Function.update_of_ne h]
      rfl
  | _ => rfl

theorem get_resolve (sm : BlockAddr → Fin 4 → Sm) (p : Pads) (pin : ℕ) (f : PadField α) :
    f.get (p.resolve sm) pin = f.get p pin := by
  cases f <;> rfl

theorem get_clockSync (p : Pads) (pin : ℕ) (f : PadField α) :
    f.get p.clockSync pin = f.get p pin := by
  cases f <;> rfl

theorem get_initDefaults (owners : List BlockAddr) (pin : ℕ) (f : PadField α) :
    f.get (.initDefaults owners) pin = f.reset := by
  have hones : (BitVec.allOnes 64).getLsbD (pinIdx pin) = true := by
    rw [BitVec.getLsbD_allOnes, decide_eq_true (pinIdx_lt pin)]
  have hzero : (0 : Mask).getLsbD (pinIdx pin) = false := BitVec.getLsbD_zero
  cases f with
  | inputEnable => exact hones
  | outputDisable | iso => exact hzero
  | periphOutput | pulls => exact Prod.ext hzero hzero
  | outover | oeover | inover =>
    show getOverride 0 0 0 pin = .normal
    rw [getOverride, hzero, if_neg Bool.false_ne_true, if_neg Bool.false_ne_true,
      if_neg Bool.false_ne_true]
  | function => rfl
  | drive => exact (by decide : 0#8 &&& 0x3#8 = 0)
  | slewFast => exact (by decide : (0#8 &&& 0x4#8 != 0) = false)
  | schmitt => exact (by decide : (0#8 &&& 0x8#8 != 0) = false)

end PadField

/-! ### Every field is a store -/

namespace World

variable {α : Type}

/-- What a call writes to a field of pin `pin` of pad set `r`. -/
def padWrites (r : PadRef) (pin : ℕ) (f : PadField α) (w : World) : Call → List (Access α)
  | .pad b op => if r = w.padRef b then ((f.written pin op).map .wrote).toList else []
  | .gpioSetFunction b k v => if r = w.padRef b then ((f.routed pin k v).map .wrote).toList else []
  | .init b => if r = .embedded b then [.wrote f.reset] else []
  | .groupInitShared gr _ => if r = .shared gr then [.wrote f.reset] else []
  | _ => []

omit [Platform] in
theorem value_of_option (cur : α) (o : Option α) :
    Register.value cur (o.map Access.wrote).toList = o.getD cur := by
  cases o <;> rfl

/-- One call writes to a field what it says. -/
theorem get_step (r : PadRef) (pin : ℕ) (f : PadField α) (w : World) (c : Call) :
    f.get ((w.step c).padsAt r) pin = Register.value (f.get (w.padsAt r) pin)
    (padWrites r pin f w c) := by
  rw [padsAt_step]
  unfold padEffect padWrites
  cases c with
  | pad b op =>
    dsimp only
    split
    · rw [value_of_option, PadField.get_apply]
    · rfl
  | gpioSetFunction b k v =>
    dsimp only
    split
    · rw [value_of_option, PadField.get_gpioSetFunction]
    · rfl
  | init b =>
    dsimp only
    split
    · exact f.get_initDefaults [b] pin
    · rfl
  | groupInitShared g blocks =>
    dsimp only
    split
    · exact f.get_initDefaults _ pin
    · rfl
  | tickEnd b =>
    dsimp only
    split
    · exact f.get_clockSync _ pin
    · rfl
  | groupEnd g =>
    dsimp only
    split
    · exact f.get_clockSync _ pin
    · rfl
  | setEnabled b | setSmMaskEnabled b | enableSmMaskInSync b | setConsecutivePindirs b | tickSms b
      | smExec b =>
    dsimp only
    split
    · exact f.get_resolve _ _ pin
    · rfl
  | sm | block | clkdivRestartSmMask | smInit | groupInit | loadProgram | groupOpen => rfl

/-- Over every run of calls, in any pad set, every register of every pin reads back what the last
setter that named it wrote, or what the last reset of the pad set did. -/
theorem pad_registers_read_back (w : World) (r : PadRef) (pin : ℕ) (f : PadField α)
    (cs : List Call) :
    f.get ((w.run cs).padsAt r) pin =
      Register.value (f.get (w.padsAt r) pin) (Run.collect World.step (padWrites r pin f) w cs) :=
  Register.value_run (g := fun v : World => f.get (v.padsAt r) pin)
    (Run.along_of_forall (fun v c => get_step r pin f v c) w cs)

end World

end PioSim
