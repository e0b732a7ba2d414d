import PioSim.PadRegisters

/-!
# The bus keeper

A pad with both pulls enabled holds the level it was last driven to. The keeper samples the wire
once a system tick, on the pins that something drives at that moment, so once every driver has let
go the pin reads as the last tick that found it driven left it, however long ago that was.
-/

namespace PioSim

open Register (Access)

variable [Platform]

namespace Pads

def isDriven (p : Pads) (pin : ℕ) : Bool :=
  p.chipDrive.1.getLsbD (pinIdx pin) || p.extDrive.getLsbD (pinIdx pin)

def kept (p : Pads) (pin : ℕ) : Bool := p.keepState.getLsbD (pinIdx pin)

/-- The wire of a driven pin has the level of the driver, the chip before the host. -/
theorem getPin_of_driven {p : Pads} {pin : ℕ} (h : p.isDriven pin = true) :
    p.getPin pin = if p.chipDrive.1.getLsbD (pinIdx pin) then p.chipDrive.2.getLsbD (pinIdx pin)
      else p.extLevels.getLsbD (pinIdx pin) := by
  have hpin := pinIdx_lt pin
  unfold isDriven at h
  unfold getPin live
  simp only [BitVec.getLsbD_or, BitVec.getLsbD_and, BitVec.getLsbD_not, decide_eq_true hpin,
    Bool.true_and]
  cases hoe : p.chipDrive.1.getLsbD (pinIdx pin) with
  | true => simp
  | false =>
    rw [hoe, Bool.false_or] at h
    simp [h]

/-- The wire of a pin that nobody drives and both pulls hold has the level of the keeper. -/
theorem getPin_of_kept {p : Pads} {pin : ℕ} (h : p.isDriven pin = false)
    (hpulls : p.padGetPulls pin = (true, true)) :
    p.getPin pin = p.kept pin := by
  have hpin := pinIdx_lt pin
  unfold isDriven at h
  obtain ⟨hoe, hext⟩ := Bool.or_eq_false_iff.mp h
  obtain ⟨hup, hdown⟩ := Prod.mk.inj hpulls
  unfold getPin live kept
  simp only [BitVec.getLsbD_or, BitVec.getLsbD_and, BitVec.getLsbD_not, decide_eq_true hpin,
    Bool.true_and, hoe, hext, hup, hdown]
  simp

/-- A clocking samples the wires that are driven. -/
theorem kept_clockSync (p : Pads) (pin : ℕ) :
    p.clockSync.kept pin = if p.isDriven pin then p.getPin pin else p.kept pin := by
  have hpin := pinIdx_lt pin
  show p.updateKeeper.keepState.getLsbD (pinIdx pin) = _
  unfold updateKeeper
  simp only [BitVec.getLsbD_or, BitVec.getLsbD_and, BitVec.getLsbD_not, decide_eq_true hpin,
    Bool.true_and]
  cases hdriven : p.isDriven pin with
  | true =>
    rw [if_pos rfl, getPin_of_driven hdriven]
    unfold isDriven at hdriven
    rw [hdriven]
    cases hoe : p.chipDrive.1.getLsbD (pinIdx pin) with
    | true => simp
    | false =>
      rw [hoe, Bool.false_or] at hdriven
      simp [hdriven]
  | false =>
    rw [if_neg Bool.false_ne_true]
    unfold isDriven at hdriven
    rw [hdriven]
    simp [kept]

end Pads

theorem PadOp.kept_apply {op : PadOp} (h : op ≠ .resetHw) (p : Pads) (pin : ℕ) :
    (op.apply p).kept pin = p.kept pin := by
  cases op with
  | resetHw => exact absurd rfl h
  | setPullLevel mask level => cases level <;> rfl
  | padSetIso k on =>
    obtain ⟨oe, levels, he⟩ := PadField.padSetIso_eq p k on
    rw [PadOp.apply, he]
    rfl
  | _ => rfl

namespace World

/-- What a clocking of the pads tells the keeper of a pin. -/
def sampled (p : Pads) (pin : ℕ) : List (Access Bool) :=
  if p.isDriven pin then [.wrote (p.getPin pin)] else []

/-- What a call tells the keeper of pin `pin` of pad set `r`. -/
def keeperWrites (r : PadRef) (pin : ℕ) (w : World) : Call → List (Access Bool)
  | .tickEnd b => if r = w.padRef b ∧ w.padRef b = .embedded b then sampled (w.padsAt r) pin else []
  | .groupEnd g => if r = .shared g ∧ (w.groups g).shared = true then
    sampled (w.padsAt r) pin else []
  | .pad b .resetHw => if r = w.padRef b then [.wrote false] else []
  | .init b => if r = .embedded b then [.wrote false] else []
  | .groupInitShared g _ => if r = .shared g then [.wrote false] else []
  | _ => []

theorem kept_of_sampled (p : Pads) (pin : ℕ) :
    p.clockSync.kept pin = Register.value (p.kept pin) (sampled p pin) := by
  rw [Pads.kept_clockSync, sampled]
  split <;> rfl

theorem kept_initDefaults (owners : List BlockAddr) (pin : ℕ) :
    (Pads.initDefaults owners).kept pin = false :=
  BitVec.getLsbD_zero

/-- One call tells the keeper what it says. -/
theorem kept_step (r : PadRef) (pin : ℕ) (w : World) (c : Call) :
    ((w.step c).padsAt r).kept pin = Register.value ((w.padsAt r).kept pin)
    (keeperWrites r pin w c) := by
  rw [padsAt_step]
  unfold padEffect keeperWrites
  cases c with
  | pad b op =>
    by_cases hop : op = .resetHw
    · subst hop
      dsimp only
      split
      · exact BitVec.getLsbD_zero
      · rfl
    · have hquiet : keeperWrites r pin w (.pad b op) = [] := by
        cases op with
        | resetHw => exact absurd rfl hop
        | _ => rfl
      unfold keeperWrites at hquiet
      rw [hquiet]
      dsimp only
      split
      · exact PadOp.kept_apply hop _ pin
      · rfl
  | tickEnd b =>
    dsimp only
    split
    · exact kept_of_sampled _ pin
    · rfl
  | groupEnd g =>
    dsimp only
    split
    · exact kept_of_sampled _ pin
    · rfl
  | init b =>
    dsimp only
    split
    · exact kept_initDefaults [b] pin
    · rfl
  | groupInitShared g blocks =>
    dsimp only
    split
    · exact kept_initDefaults _ pin
    · rfl
  | gpioSetFunction b | setEnabled b | setSmMaskEnabled b | enableSmMaskInSync b
      | setConsecutivePindirs b | tickSms b
  | smExec b =>
    dsimp only
    split <;> rfl
  | sm | block | clkdivRestartSmMask | smInit | groupInit | loadProgram | groupOpen => rfl

/-- After every run of calls a pin that nobody drives and that has both pulls enabled reads as the
last tick of its pad set that found it driven left it, low if the pad set has been reset since, or
as it was kept before if neither was the case. -/
theorem keeper_holds_last_drive (w : World) (r : PadRef) (pin : ℕ) (cs : List Call)
    (hfree : ((w.run cs).padsAt r).isDriven pin = false)
    (hpulls : ((w.run cs).padsAt r).padGetPulls pin = (true, true)) :
    ((w.run cs).padsAt r).getPin pin =
      Register.value ((w.padsAt r).kept pin)
      (Run.collect World.step (keeperWrites r pin) w cs) := by
  have hkept := Register.value_run (g := fun v : World => (v.padsAt r).kept pin)
    (Run.along_of_forall (fun v c => kept_step r pin v c) w cs)
  rw [Pads.getPin_of_kept hfree hpulls]
  exact hkept

omit [Platform] in
/-- The host drives pin 3 high for a tick and lets go; two ticks later the pin is still high. -/
theorem keeper_holds_last_drive_pin_three :
    letI : Platform := ⟨.rp2350⟩
    let cs : List Call :=
      [.pad 0 (.padSetPulls 3 true true), .pad 0 (.setPin 3 true), .tickSms 0, .tickEnd 0,
      .pad 0 (.releasePin 3), .tickSms 0, .tickEnd 0, .tickSms 0, .tickEnd 0]
    ((initial.run cs).padsAt (.embedded 0)).getPin 3 =
      Register.value ((initial.padsAt (.embedded 0)).kept 3)
      (Run.collect World.step (keeperWrites (.embedded 0) 3) initial cs) := by
  let P : Platform := ⟨.rp2350⟩
  intro cs
  have hfree : ((initial.run cs).padsAt (.embedded 0)).isDriven 3 = false := by decide +kernel
  have hpulls : ((initial.run cs).padsAt (.embedded 0)).padGetPulls 3 = (true, true) := by
    decide +kernel
  exact keeper_holds_last_drive initial (.embedded 0) 3 cs hfree hpulls

end World

end PioSim
