import PioSim.Mux
import PioSim.OutEnable
import Mathlib.Order.Interval.Set.Defs

/-!
# Pin windows

A window of a block is the run of pins that `count` view indices from `base` reach, in 8-bit
arithmetic, modulo the 32 pins of the view and modulo the pins of the chip. Its indices never meet,
and what a state machine writes through it comes back through it as long as nothing lies in between.
Outside the window a write leaves what arbitration makes of a pin, but it makes it anew: what had
been left behind there shows.
-/

namespace PioSim

variable [Platform]

namespace Pads

variable {p : Pads} {sm sm' : BlockAddr → Fin 4 → Sm} {pin : ℕ} {d : Driver}

/-- The pads hold the direction and the level that arbitration gives the pin at this moment. -/
structure Current (sm : BlockAddr → Fin 4 → Sm) (p : Pads) (pin : ℕ) : Prop where
  dir : p.dirOf sm pin = p.pinDirs.getLsbD pin
  level : p.levelOf sm pin = p.pinLevels.getLsbD pin

omit [Platform] in
/-- Arbitration of a pin reads what the pin registers say about it and the enable bits. -/
theorem arbitration_congr
    (h : ∀ d ∈ p.drivers, (sm' d.1 d.2.2).pins.bits pin = (sm d.1 d.2.2).pins.bits pin ∧
      (sm' d.1 d.2.2).enabled = (sm d.1 d.2.2).enabled) :
    p.dirOf sm' pin = p.dirOf sm pin ∧ p.levelOf sm' pin = p.levelOf sm pin := by
  have hclaims : ∀ d ∈ p.drivers, p.claimsPin sm' pin d = p.claimsPin sm pin d := by
    intro d hd
    have hdriven := congrArg PinBits.driven (h d hd).1
    rw [claimsPin, claimsPin, drivenBy, drivenBy, BitVec.getLsbD_and, BitVec.getLsbD_and]
    exact congrArg (· && _) hdriven
  have hwrites : ∀ d ∈ p.drivers, p.writesPin sm' pin d = p.writesPin sm pin d := by
    intro d hd
    have hwrote := congrArg PinBits.wrote (h d hd).1
    rw [writesPin, writesPin, writtenBy, writtenBy, BitVec.getLsbD_and, BitVec.getLsbD_and]
    exact congrArg (· && _) hwrote
  constructor
  · have howner : p.dirOwner sm' pin = p.dirOwner sm pin := by
      rw [dirOwner, dirOwner]
      refine congrArg₂ Option.or (LastWriter.last_congr fun d hd => ?_)
        (LastWriter.last_congr fun d hd => ?_)
      · rw [hclaims d hd, (h d hd).2]
      · rw [hclaims d hd, (h d hd).2]
    rw [dirOf, dirOf, howner]
    cases hd : p.dirOwner sm pin with
    | none => rfl
    | some d => exact congrArg PinBits.oe (h d (dirOwner_isGreatest hd).mem).1
  · have hwriter : p.levelWriter sm' pin = p.levelWriter sm pin := LastWriter.last_congr hwrites
    rw [levelOf, levelOf, hwriter]
    cases hd : p.levelWriter sm pin with
    | none => rfl
    | some d => exact congrArg PinBits.val (h d (LastWriter.mem_of_last hd)).1

omit [Platform] in
/-- A claim that no other state machine shares decides the direction. -/
theorem dirOf_of_sole (hd : d ∈ p.drivers) (hclaims : p.claimsPin sm pin d = true)
    (hsole : ∀ e ∈ p.drivers, machine e ≠ machine d → p.claimsPin sm pin e = false) :
    p.dirOf sm pin = (sm d.1 d.2.2).pins.outPinOe.getLsbD pin := by
  rw [dirOf]
  cases howner : p.dirOwner sm pin with
  | none =>
    have hnone := dirOwner_eq_none howner d hd
    rw [hclaims] at hnone
    cases hnone
  | some e =>
    have hgreatest := dirOwner_isGreatest howner
    by_cases he : machine e = machine d
    · obtain ⟨hb, hi⟩ := Prod.mk.inj he
      rw [Option.elim_some, hb, hi]
    · have hnone := hsole e hgreatest.mem he
      rw [hgreatest.holds] at hnone
      cases hnone

/-- Nothing between the arbitrated level of the pin and the block's view of it: the input buffer is
on, and no override, output disable, isolation or synchroniser applies. -/
structure Unobstructed (p : Pads) (pin : ℕ) : Prop where
  outover : p.outoverInv.getLsbD pin = false ∧ p.outoverLow.getLsbD pin = false ∧
    p.outoverHigh.getLsbD pin = false
  oeover : p.oeoverInv.getLsbD pin = false ∧ p.oeoverLow.getLsbD pin = false ∧
    p.oeoverHigh.getLsbD pin = false
  inover : p.inoverInv.getLsbD pin = false ∧ p.inoverLow.getLsbD pin = false ∧
    p.inoverHigh.getLsbD pin = false
  outputEnabled : p.padOd.getLsbD pin = false
  inputEnabled : p.padIe.getLsbD pin = true
  connected : p.isolated pin = false
  bypassed : p.syncBypass.getLsbD pin = true

instance (p : Pads) (pin : ℕ) : Decidable (p.Unobstructed pin) :=
  decidable_of_iff ((p.outoverInv.getLsbD pin = false ∧ p.outoverLow.getLsbD pin = false ∧
      p.outoverHigh.getLsbD pin = false) ∧
    (p.oeoverInv.getLsbD pin = false ∧ p.oeoverLow.getLsbD pin = false ∧
      p.oeoverHigh.getLsbD pin = false) ∧
    (p.inoverInv.getLsbD pin = false ∧ p.inoverLow.getLsbD pin = false ∧
      p.inoverHigh.getLsbD pin = false) ∧
    p.padOd.getLsbD pin = false ∧ p.padIe.getLsbD pin = true ∧ p.isolated pin = false ∧
    p.syncBypass.getLsbD pin = true)
    ⟨fun ⟨ho, he, hi, hod, hie, hc, hb⟩ => ⟨ho, he, hi, hod, hie, hc, hb⟩,
      fun h => ⟨h.outover, h.oeover, h.inover, h.outputEnabled, h.inputEnabled,
        h.connected, h.bypassed⟩⟩

/-- On an unobstructed output the block sees the arbitrated level. -/
theorem Unobstructed.inputView (h : p.Unobstructed pin) (h64 : pin < 64)
    (hdir : p.pinDirs.getLsbD pin = true) : p.inputView.getLsbD pin = p.pinLevels.getLsbD pin := by
  have hshown : ¬ p.isolated pin = true := Bool.eq_false_iff.mp h.connected
  have hoe : p.chipDrive.1.getLsbD pin = true := by
    rw [chipDrive_oe p h64, if_neg hshown, overrideOe, hdir, h.oeover.1, h.oeover.2.1, h.oeover.2.2,
      h.outputEnabled]
    rfl
  have hlevel : p.chipDrive.2.getLsbD pin = p.pinLevels.getLsbD pin := by
    rw [chipDrive_level, if_neg hshown, getLsbD_functionLevel p h64, periphDrives,
      hdir, h.outover.1, h.outover.2.1, h.outover.2.2]
    simp
  have hlive : p.live.getLsbD pin = p.pinLevels.getLsbD pin := by
    rw [getLsbD_live p h64, hoe, if_pos rfl, hlevel]
  have hinput : p.padInput.getLsbD pin = p.pinLevels.getLsbD pin := by
    have hgated : p.padInput.getLsbD pin =
        (p.live.getLsbD pin && p.padIe.getLsbD pin && !p.isolated pin) := by
      rw [padInput, isolated]
      cases hasPadIso <;> simp [h64]
    rw [hgated, hlive, h.inputEnabled, h.connected, Bool.and_true, Bool.not_false, Bool.and_true]
  rw [getLsbD_inputView p h64, overrideInput, hinput, h.inover.1, h.inover.2.1, h.inover.2.2]
  simp

end Pads

namespace World

variable {w : World} {b : BlockAddr} {i : Fin 4} {base count pin : ℕ} {value : Word}

/-! ### The indices of a window -/

/-- The pin lies in the window of `count` view indices from `base`. -/
def InWindow (w : World) (b : BlockAddr) (base count pin : ℕ) : Prop :=
  ∃ k < clampPinCount count, w.physPin b (u8 (base + k)) = pin

theorem inWindow_iff_spans :
    w.InWindow b base count pin ↔ spans (w.physPin b) base (clampPinCount count) pin = true := by
  simp [InWindow, spans]

/-- Fewer than 32 view indices apart, two pins of the block differ: 32 divides the 256 of the 8-bit
sum, and the chip has no fewer pins than the view. -/
theorem physPin_window_injOn (w : World) (b : BlockAddr) (base count : ℕ) :
    Set.InjOn (fun k => w.physPin b (u8 (base + k))) (Set.Iio (clampPinCount count)) := by
  intro j hj k hk he
  have hle := clampPinCount_le count
  rw [Set.mem_Iio] at hj hk
  have hview : (base + j) % 256 % 32 = (base + k) % 256 % 32 := by
    dsimp only at he
    unfold physPin numPins at he
    cases hbase : hasGpioBase with
    | false =>
      rw [hbase, if_neg Bool.false_ne_true, if_neg Bool.false_ne_true] at he
      exact he
    | true =>
      simp only [hbase, if_true, u8] at he
      omega
  omega

theorem spanIndex_window {k : ℕ} (hk : k < clampPinCount count) :
    spanIndex (w.physPin b) base count (w.physPin b (u8 (base + k))) = some k := by
  have hspan : spans (w.physPin b) base (clampPinCount count)
      (w.physPin b (u8 (base + k))) = true :=
    spans_of_mem (List.mem_range.mpr hk)
  obtain ⟨j, hj⟩ := exists_spanIndex hspan
  have hpin := LastWriter.claims_of_last hj
  have hlt := List.mem_range.mp (LastWriter.mem_of_last hj)
  have hjk : j = k := physPin_window_injOn w b base count hlt hk (beq_iff_eq.mp hpin)
  rw [hj, hjk]

/-- Bit `k` of a sample is the input level of the window's pin `k`. -/
theorem getLsbD_readInPins (w : World) (b : BlockAddr) (base count k : ℕ) :
    (w.readInPins b base count).getLsbD k =
      (decide (k < clampPinCount count) && w.inputLevel b (w.physPin b (u8 (base + k)))) := by
  have hloop : ∀ (f : ℕ → Bool), ∀ n ≤ 32,
      ((List.range n).foldl (fun v j => if f j then v ||| (1#32 <<< j) else v) 0).getLsbD k =
        (decide (k < n) && f k) := by
    intro f n
    induction n with
    | zero => simp
    | succ n ih =>
      intro hn
      rw [List.range_succ, List.foldl_append, List.foldl_cons, List.foldl_nil]
      have hlast := ih (by omega)
      generalize (List.range n).foldl _ (0 : Word) = v at hlast ⊢
      have hbit : (1#32 <<< n).getLsbD k = decide (k = n) := by
        rw [BitVec.getLsbD_shiftLeft, BitVec.getLsbD_one]
        by_cases hkn : k = n
        · subst hkn
          simp
          omega
        · simp [hkn]
          omega
      by_cases hkn : k = n
      · subst hkn
        cases hf : f k with
        | false => rw [if_neg Bool.false_ne_true, hlast, hf, Bool.and_false, Bool.and_false]
        | true => rw [if_pos rfl, BitVec.getLsbD_or, hbit, hlast]; simp
      · have hiff : k < n + 1 ↔ k < n := by omega
        split <;> simp [hlast, hbit, hkn, hiff]
  exact hloop _ _ (clampPinCount_le count)

/-! ### The write -/

theorem drivePins_eq_putPins (w : World) (b : BlockAddr) (i : Fin 4) (base count : ℕ)
    (value : Word) :
    w.drivePins b i base count value = w.putPins b i (w.physPin b) value
      (some (.levels base count)) := rfl

/-- The block's pads after `drive_pins` are resolved once, among the records it leaves. -/
theorem pads_drivePins (w : World) (b : BlockAddr) (i : Fin 4) (base count : ℕ) (value : Word) :
    (w.drivePins b i base count value).pads b =
      (w.pads b).resolve (w.drivePins b i base count value).sm := by
  rw [drivePins_eq_putPins, World.pads, padRef_putPins, padsAt_putPins, if_pos rfl]
  rfl

theorem enabled_drivePins (w : World) (b : BlockAddr) (i : Fin 4) (base count : ℕ) (value : Word)
    (c : BlockAddr) (j : Fin 4) :
    ((w.drivePins b i base count value).sm c j).enabled = (w.sm c j).enabled := by
  by_cases hcj : (c, j) = (b, i)
  · obtain ⟨rfl, rfl⟩ := Prod.mk.inj hcj
    rw [drivePins_eq, sm_setPins_self]
  · rw [drivePins_eq_putPins, sm_putPins_of_ne hcj]

/-- Outside the window `drive_pins` leaves the pin registers of every state machine. -/
theorem bits_drivePins_outside (c : BlockAddr) (j : Fin 4) (hout : ¬ w.InWindow b base count pin) :
    ((w.drivePins b i base count value).sm c j).pins.bits pin = (w.sm c j).pins.bits pin := by
  rw [inWindow_iff_spans, Bool.not_eq_true] at hout
  by_cases hcj : (c, j) = (b, i)
  · obtain ⟨rfl, rfl⟩ := Prod.mk.inj hcj
    rw [drivePins_eq, sm_setPins_self]
    by_cases h64 : pin < 64
    · exact PinWrite.bits_apply (t := .levels base count) h64 hout rfl rfl
    · simp only [PinRegs.bits, BitVec.getLsbD_of_ge _ pin (Nat.not_lt.mp h64)]
  · rw [drivePins_eq_putPins, sm_putPins_of_ne hcj]

/-- At pin `k` of the window the state machine's registers take bit `k` of the value. -/
theorem bits_drivePins_window (w : World) (b : BlockAddr) (i : Fin 4) (base : ℕ)
    (value : Word) {k : ℕ}
    (hk : k < clampPinCount count) :
    ((w.drivePins b i base count value).sm b i).pins.bits (w.physPin b (u8 (base + k))) =
      { (w.sm b i).pins.bits (w.physPin b (u8 (base + k))) with val := value.getLsbD k, wrote := true } := by
  have h64 : w.physPin b (u8 (base + k)) < 64 :=
    (w.physPin_lt b _).trans_le (numPins_le.trans (by decide))
  rw [drivePins_eq, sm_setPins_self]
  exact PinRegs.bits_drivePins h64 (spanIndex_window hk)

/-- The state machine holds the pin: it claims it as an output, the mux routes it to the block, no
other state machine that the mux lets through writes or claims it, and nothing obstructs it. -/
structure Holds (w : World) (b : BlockAddr) (i : Fin 4) (pin : ℕ) : Prop where
  driven : (w.sm b i).pins.dirDriven.getLsbD pin = true
  output : (w.sm b i).pins.outPinOe.getLsbD pin = true
  routed : w.Reaches (w.padRef b) pin b i
  alone : ∀ d ∈ (w.pads b).drivers, machine d ≠ (b, i) →
    (w.pads b).writesPin w.sm pin d = false ∧ (w.pads b).claimsPin w.sm pin d = false
  unobstructed : (w.pads b).Unobstructed pin

def HoldsWindow (w : World) (b : BlockAddr) (i : Fin 4) (base count : ℕ) : Prop :=
  ∀ k < clampPinCount count, w.Holds b i (w.physPin b (u8 (base + k)))

instance (w : World) (b : BlockAddr) (i : Fin 4) (pin : ℕ) : Decidable (w.Holds b i pin) :=
  have : Decidable (w.Reaches (w.padRef b) pin b i) := inferInstanceAs (Decidable (∃ d ∈ _, _))
  decidable_of_iff ((w.sm b i).pins.dirDriven.getLsbD pin = true ∧
    (w.sm b i).pins.outPinOe.getLsbD pin = true ∧ w.Reaches (w.padRef b) pin b i ∧
    (∀ d ∈ (w.pads b).drivers, machine d ≠ (b, i) →
      (w.pads b).writesPin w.sm pin d = false ∧ (w.pads b).claimsPin w.sm pin d = false) ∧
    (w.pads b).Unobstructed pin)
    ⟨fun ⟨hd, ho, hr, ha, hu⟩ => ⟨hd, ho, hr, ha, hu⟩,
      fun h => ⟨h.driven, h.output, h.routed, h.alone, h.unobstructed⟩⟩

instance (w : World) (b : BlockAddr) (i : Fin 4) (base count : ℕ) :
    Decidable (w.HoldsWindow b i base count) :=
  inferInstanceAs (Decidable (∀ k < _, _))

/-- What a window's holder drives arrives at the pads, bit by bit. -/
theorem HoldsWindow.arrives (h : w.HoldsWindow b i base count) (value : Word) {k : ℕ}
    (hk : k < clampPinCount count) :
    ((w.drivePins b i base count value).pads b).pinDirs.getLsbD
      (w.physPin b (u8 (base + k))) = true ∧
    ((w.drivePins b i base count value).pads b).pinLevels.getLsbD (w.physPin b (u8 (base + k))) =
      value.getLsbD k := by
  have hbits := bits_drivePins_window w b i base value hk
  obtain ⟨hdriven, hoe, hrouted, halone, -⟩ := h k hk
  obtain ⟨w', hw'⟩ : ∃ w', w.drivePins b i base count value = w' := ⟨_, rfl⟩
  have hpads := pads_drivePins w b i base count value
  rw [hw'] at hbits hpads ⊢
  generalize w.physPin b (u8 (base + k)) = pin at *
  obtain ⟨d, hd, hmachine, hmask⟩ := hrouted
  obtain ⟨rfl, rfl⟩ := Prod.mk.inj hmachine
  have hd : d ∈ (w.pads d.1).drivers := hd
  have hothers : ∀ e ∈ (w.pads d.1).drivers, machine e ≠ machine d →
      w'.sm e.1 e.2.2 = w.sm e.1 e.2.2 := by
    intro e he hne
    rw [← hw', drivePins_eq_putPins]
    exact sm_putPins_of_ne hne
  have hclaims : (w.pads d.1).claimsPin w'.sm pin d = true :=
    bit_claims hmask ((congrArg PinBits.driven hbits).trans hdriven)
  have hwrites : (w.pads d.1).writesPin w'.sm pin d = true :=
    bit_writes hmask (congrArg PinBits.wrote hbits)
  rw [hpads]
  constructor
  · refine ((w.pads d.1).getLsbD_resolvedDirs w'.sm pin).trans ?_
    rw [Pads.dirOf_of_sole hd hclaims fun e he hne => ?_]
    · exact (congrArg PinBits.oe hbits).trans hoe
    · have hnone := (halone e he hne).2
      rw [Pads.claimsPin, Pads.drivenBy] at hnone ⊢
      rw [hothers e he hne]
      exact hnone
  · refine ((w.pads d.1).getLsbD_resolvedLevels w'.sm pin).trans ?_
    rw [Pads.levelOf_of_unrivalled hd (.inr fun e he hne => ?_) fun hnot => ?_]
    · exact congrArg PinBits.val hbits
    · have hnone := (halone e he hne).1
      rw [Pads.writesPin, Pads.writtenBy] at hnone ⊢
      rw [hothers e he hne]
      exact hnone
    · exact absurd (hwrites.symm.trans hnot) Bool.noConfusion

theorem readInPins_drivePins (h : w.HoldsWindow b i base count) :
    (w.drivePins b i base count value).readInPins b base count = value &&& maskN count := by
  have hphys : (w.drivePins b i base count value).physPin b = w.physPin b :=
    funext fun view => congrFun (physPin_of_shell (local_setPins _).shell b) view
  apply BitVec.eq_of_getLsbD_eq
  intro k hk
  rw [getLsbD_readInPins, hphys, BitVec.getLsbD_and, getLsbD_maskN, decide_eq_true hk,
    Bool.true_and]
  have hclamp : k < clampPinCount count ↔ k < count := by
    unfold clampPinCount
    split <;> omega
  by_cases hcount : k < clampPinCount count
  · have hpin := w.physPin_lt b (u8 (base + k))
    have hidx : pinIdx (w.physPin b (u8 (base + k))) = w.physPin b (u8 (base + k)) :=
      Nat.mod_eq_of_lt hpin
    have h64 : w.physPin b (u8 (base + k)) < 64 := hpin.trans_le (numPins_le.trans (by decide))
    obtain ⟨hdir, hlevel⟩ := h.arrives value hcount
    have hfree : ((w.drivePins b i base count value).pads b).Unobstructed
        (w.physPin b (u8 (base + k))) := by
      have hbefore := (h k hcount).unobstructed
      rw [pads_drivePins]
      exact ⟨hbefore.outover, hbefore.oeover, hbefore.inover, hbefore.outputEnabled,
        hbefore.inputEnabled, hbefore.connected, hbefore.bypassed⟩
    rw [inputLevel_of_bypassed (hidx.symm ▸ hfree.bypassed), hidx, hfree.inputView h64 hdir, hlevel,
      decide_eq_true hcount, decide_eq_true (hclamp.mp hcount), Bool.true_and, Bool.and_true]
  · rw [decide_eq_false hcount, decide_eq_false fun hlt => hcount (hclamp.mpr hlt), Bool.false_and,
      Bool.and_false]

/-- A window held reads back what is driven through it, whatever its base, its count and GPIOBASE
are, and its pins are distinct; every pin outside keeps its level and its direction exactly when the
pads held, there, what arbitration made of the claims before the write. -/
theorem window_exact_iff (w : World) (b : BlockAddr) (i : Fin 4) (base count : ℕ) (value : Word)
    (h : w.HoldsWindow b i base count) :
    (w.drivePins b i base count value).readInPins b base count = value &&& maskN count ∧
      Set.InjOn (fun k => w.physPin b (u8 (base + k))) (Set.Iio (clampPinCount count)) ∧
      ((∀ pin, ¬ w.InWindow b base count pin →
        ((w.drivePins b i base count value).pads b).pinLevels.getLsbD pin =
          (w.pads b).pinLevels.getLsbD pin ∧
        ((w.drivePins b i base count value).pads b).pinDirs.getLsbD pin =
          (w.pads b).pinDirs.getLsbD pin) ↔
      ∀ pin, ¬ w.InWindow b base count pin → (w.pads b).Current w.sm pin) := by
  refine ⟨readInPins_drivePins h, physPin_window_injOn w b base count,
    forall_congr' fun pin => forall_congr' fun hout => ?_⟩
  have hsame : (w.pads b).dirOf (w.drivePins b i base count value).sm pin =
    (w.pads b).dirOf w.sm pin ∧
      (w.pads b).levelOf (w.drivePins b i base count value).sm pin = (w.pads b).levelOf w.sm pin :=
    Pads.arbitration_congr fun d _ =>
      ⟨bits_drivePins_outside d.1 d.2.2 hout, enabled_drivePins w b i base count value d.1 d.2.2⟩
  rw [pads_drivePins]
  have hdir := (w.pads b).getLsbD_resolvedDirs (w.drivePins b i base count value).sm pin
  have hlevel := (w.pads b).getLsbD_resolvedLevels (w.drivePins b i base count value).sm pin
  rw [hsame.1] at hdir
  rw [hsame.2] at hlevel
  constructor
  · rintro ⟨hlevels, hdirs⟩
    exact ⟨hdir.symm.trans hdirs, hlevel.symm.trans hlevels⟩
  · intro hcurrent
    exact ⟨hlevel.trans hcurrent.level, hdir.trans hcurrent.dir⟩

omit [Platform] in
/-- State machine 2 drives the five pins of a window that wraps at the end of the view. -/
theorem window_exact_wrapped :
    letI : Platform := ⟨.rp2350⟩
    let w := initial.run [.setConsecutivePindirs 0 2 30 5 true,
      .pad 0 (.setInputSyncBypass (BitVec.allOnes 64))]
    (w.drivePins 0 2 30 5 0b10110).readInPins 0 30 5 = 0b10110 &&& maskN 5 := by
  let P : Platform := ⟨.rp2350⟩
  intro w
  have hheld : w.HoldsWindow 0 2 30 5 := by decide +kernel
  exact (window_exact_iff w 0 2 30 5 0b10110 hheld).1

omit [Platform] in
/-- State machine 0, enabled, holds pin 0 as an output over state machine 1 and is initialised: the
pads are not resolved, and the next write, by state machine 2 through a window of its own, turns pin
0 round. -/
theorem window_write_turns_other_pin :
    letI : Platform := ⟨.rp2350⟩
    let w := initial.run [.setConsecutivePindirs 0 2 5 1 true,
      .pad 0 (.setInputSyncBypass (BitVec.allOnes 64)), .setConsecutivePindirs 0 0 0 1 true,
      .setConsecutivePindirs 0 1 0 1 false, .setEnabled 0 0 true, .smInit 0 0 0 defaultSmConfig]
    w.HoldsWindow 0 2 5 1 ∧ ¬ w.InWindow 0 5 1 0 ∧ (w.pads 0).pinDirs.getLsbD 0 = true ∧
      ((w.drivePins 0 2 5 1 1).pads 0).pinDirs.getLsbD 0 = false := by
  let P : Platform := ⟨.rp2350⟩
  intro w
  refine ⟨by decide +kernel, ?_, by decide +kernel, by decide +kernel⟩
  rw [inWindow_iff_spans]
  decide +kernel

end World
end PioSim
