import PioSim.PadSteps

/-!
# The reported PIO output

`pio_sim_pin_is_pio_output` runs the output-enable pipeline of `pio_pads_chip_drive` on the PIO's
direction alone. On a pin the PIO drives the two agree; an OEOVER that turns the output enable of an
undriven pin on is reported as the PIO's.
-/

namespace PioSim

variable [Platform]

namespace Pads

def isolated (p : Pads) (k : ℕ) : Bool := hasPadIso && p.padIso.getLsbD k

def periphDrives (p : Pads) (k : ℕ) : Bool :=
  p.periphOe.getLsbD k && p.periphSelMask.getLsbD k && !p.pinDirs.getLsbD k

/-- What OEOVER and the pad's output disable make of an output enable. -/
def overrideOe (p : Pads) (k : ℕ) (oe : Bool) : Bool :=
  ((oe ^^ p.oeoverInv.getLsbD k) || p.oeoverHigh.getLsbD k) && !p.oeoverLow.getLsbD k &&
    !p.padOd.getLsbD k

/-- The chip's output enables before the pad latch. -/
def functionOe (p : Pads) : Mask :=
  let perOe := p.periphOe &&& p.periphSelMask &&& ~~~ p.pinDirs
  (((p.pinDirs ||| perOe) ^^^ p.oeoverInv) ||| p.oeoverHigh) &&& ~~~ p.oeoverLow &&& ~~~ p.padOd

/-- The chip's levels before the pad latch. -/
def functionLevel (p : Pads) : Mask :=
  let perOe := p.periphOe &&& p.periphSelMask &&& ~~~ p.pinDirs
  ((((p.pinLevels &&& p.pinDirs) ||| (p.periphLevel &&& perOe)) ^^^ p.outoverInv) |||
    p.outoverHigh) &&& ~~~ p.outoverLow

theorem chipDrive_eq (p : Pads) : p.chipDrive =
    if hasPadIso then (overwrite p.functionOe p.padIso p.isoOe,
      overwrite p.functionLevel p.padIso p.isoLevels)
    else (p.functionOe, p.functionLevel) := rfl

omit [Platform] in
theorem getLsbD_functionOe (p : Pads) {k : ℕ} (hk : k < 64) :
    p.functionOe.getLsbD k = p.overrideOe k (p.pinDirs.getLsbD k || p.periphDrives k) := by
  simp [functionOe, overrideOe, periphDrives, hk]

theorem chipDrive_oe (p : Pads) {k : ℕ} (hk : k < 64) : p.chipDrive.1.getLsbD k =
    if p.isolated k then p.isoOe.getLsbD k
    else p.overrideOe k (p.pinDirs.getLsbD k || p.periphDrives k) := by
  rw [chipDrive_eq, ← getLsbD_functionOe p hk, isolated]
  cases hasPadIso with
  | false => rfl
  | true => rw [if_pos rfl, getLsbD_overwrite, Bool.true_and]

theorem pinIsPioOutput_eq (p : Pads) (pin : ℕ) : p.pinIsPioOutput pin =
    (p.overrideOe (pinIdx pin) (p.pinDirs.getLsbD (pinIdx pin)) && !p.isolated (pinIdx pin)) := by
  have hk := pinIdx_lt pin
  cases hiso : hasPadIso <;> simp [pinIsPioOutput, overrideOe, isolated, hiso, hk, Bool.and_assoc]

/-- What a report of a PIO output is to mean: the PIO's claims resolve the pin as an output, and the
chip's output enable that reaches its pad is on and not the latch's. -/
def PioDrives (p : Pads) (pin : ℕ) : Prop :=
  p.pinDirs.getLsbD (pinIdx pin) = true ∧ p.chipDrive.1.getLsbD (pinIdx pin) = true ∧
    p.isolated (pinIdx pin) = false

/-- OEOVER turns the pin's output enable on although nothing claims it, and neither the pad's output
disable nor its latch stops it. -/
def ForcedOn (p : Pads) (k : ℕ) : Prop :=
  (p.oeoverInv.getLsbD k = true ∨ p.oeoverHigh.getLsbD k = true) ∧ p.oeoverLow.getLsbD k = false ∧
    p.padOd.getLsbD k = false ∧ p.isolated k = false

theorem forcedOn_iff (p : Pads) (k : ℕ) :
    p.ForcedOn k ↔ p.overrideOe k false = true ∧ p.isolated k = false := by
  simp only [ForcedOn, overrideOe, Bool.false_xor, Bool.and_eq_true, Bool.or_eq_true,
    Bool.not_eq_true', and_assoc]

theorem pinIsPioOutput_iff_of_claimed {p : Pads} {pin : ℕ}
    (h : p.pinDirs.getLsbD (pinIdx pin) = true) :
    p.pinIsPioOutput pin = true ↔ p.PioDrives pin := by
  rw [pinIsPioOutput_eq, PioDrives, chipDrive_oe p (pinIdx_lt pin), h, Bool.true_or]
  cases p.isolated (pinIdx pin) <;> simp

theorem pinIsPioOutput_iff_of_unclaimed {p : Pads} {pin : ℕ}
    (h : p.pinDirs.getLsbD (pinIdx pin) = false) :
    p.pinIsPioOutput pin = true ↔ p.ForcedOn (pinIdx pin) := by
  rw [pinIsPioOutput_eq, forcedOn_iff, h, Bool.and_eq_true, Bool.not_eq_true']

/-- A pin resolved as an output is routed to a PIO. -/
structure Routed (p : Pads) : Prop where
  mux : p.MuxCached
  claimed : ∀ k, p.pinDirs.getLsbD k = true → ∃ o, (p.pioFuncMask o).getLsbD k = true

theorem Routed.of_dirView {p q : Pads} (hv : q.dirView = p.dirView) (h : p.Routed) : q.Routed := by
  refine ⟨h.mux.congr hv, ?_⟩
  simp only [dirView, Prod.mk.injEq] at hv
  obtain ⟨hdirs, -, hmask, -⟩ := hv
  rw [hdirs, hmask]
  exact h.claimed

/-- Arbitration follows the function masks of the moment. -/
theorem routed_resolve {p : Pads} (h : p.MuxCached) (sm : BlockAddr → Fin 4 → Sm) :
    (p.resolve sm).Routed := by
  refine ⟨h, fun k hk => ?_⟩
  have hdir : p.dirOf sm k = true := (p.getLsbD_resolvedDirs sm k).symm.trans hk
  cases howner : p.dirOwner sm k with
  | none =>
    rw [dirOf, howner] at hdir
    cases hdir
  | some d =>
    have hclaims := (dirOwner_isGreatest howner).holds
    rw [claimsPin, drivenBy, BitVec.getLsbD_and, Bool.and_eq_true] at hclaims
    exact ⟨d.2.1, hclaims.2⟩

theorem Step.routed {p q : Pads} (h : Step (fun _ => True) p q) (hp : p.Routed) : q.Routed := by
  cases h with
  | resolve sm => exact routed_resolve hp.mux sm
  | setter _ op _ => exact hp.of_dirView (World.PadOp.dirView_apply _ op)
  | gpioSetFunction sm pin f => exact routed_resolve (muxCached_refreshFuncMasks _) sm
  | clockSync => exact Routed.of_dirView (p := p) rfl hp

theorem routed_initDefaults (owners : List BlockAddr) : (initDefaults owners).Routed :=
  ⟨muxCached_initDefaults owners, fun k hk => by simp [initDefaults] at hk⟩

/-- FUNCSEL routes the pin to a peripheral or to nothing. -/
def Unrouted (p : Pads) (pin : ℕ) : Prop := ∀ o, selectsPio o (p.funcsel (pinIdx pin)) = false

theorem Routed.unclaimed {p : Pads} (h : p.Routed) {pin : ℕ} (hpin : p.Unrouted pin) :
    p.pinDirs.getLsbD (pinIdx pin) = false := by
  by_contra hdir
  obtain ⟨o, ho⟩ := h.claimed _ (Bool.not_eq_false _ ▸ hdir)
  rw [(h.mux _ (pinIdx_lt_numPins pin)).1 o, hpin o] at ho
  cases ho

end Pads

namespace World

/-- In every state in reach `pio_sim_pin_is_pio_output` reports exactly the pins the PIO drives, and
none that is routed elsewhere, unless the pin is unclaimed and OEOVER forces its output enable
on. -/
theorem reports_pio_outputs_iff {w : World} (hw : w.Reachable) (b : BlockAddr) (pin : ℕ) :
    (((w.pads b).pinIsPioOutput pin = true ↔ (w.pads b).PioDrives pin) ∧
      ((w.pads b).Unrouted pin → (w.pads b).pinIsPioOutput pin = false)) ↔
    ((w.pads b).pinDirs.getLsbD (pinIdx pin) = true ∨ ¬ (w.pads b).ForcedOn (pinIdx pin)) := by
  have hrouted : (w.pads b).Routed :=
    hw.pads_invariant Pads.routed_initDefaults (fun h => h.routed) (w.padRef b)
  cases hdir : (w.pads b).pinDirs.getLsbD (pinIdx pin) with
  | true =>
    have hrep := Pads.pinIsPioOutput_iff_of_claimed hdir
    refine iff_of_true ⟨hrep, fun hpin => ?_⟩ (.inl rfl)
    rw [hrouted.unclaimed hpin] at hdir
    cases hdir
  | false =>
    have hrep := Pads.pinIsPioOutput_iff_of_unclaimed hdir
    have hno : ¬ (w.pads b).PioDrives pin := fun h => Bool.false_ne_true (hdir.symm.trans h.1)
    constructor
    · intro h
      exact .inr fun hforced => hno (h.1.mp (hrep.mpr hforced))
    · rintro (h | h)
      · cases h
      · have hquiet : (w.pads b).pinIsPioOutput pin ≠ true := fun ht => h (hrep.mp ht)
        exact ⟨iff_of_false hquiet hno, fun _ => Bool.not_eq_true _ ▸ hquiet⟩

omit [Platform] in
/-- A pin whose direction a state machine has set. -/
theorem reports_pio_outputs_pin_three :
    letI : Platform := ⟨.rp2350⟩
    let w := initial.run [.setConsecutivePindirs 0 0 3 1 true]
    ((w.pads 0).pinIsPioOutput 3 = true ↔ (w.pads 0).PioDrives 3) ∧
      ((w.pads 0).Unrouted 3 → (w.pads 0).pinIsPioOutput 3 = false) :=
  (@reports_pio_outputs_iff ⟨.rp2350⟩ _ ⟨[.setConsecutivePindirs 0 0 3 1 true], rfl⟩ 0 3).mpr
    (.inl (by decide +kernel))

omit [Platform] in
/-- A pin routed to nothing, its output enable forced on by OEOVER, is reported as a PIO output. -/
theorem forced_pin_reported :
    letI : Platform := ⟨.rp2350⟩
    let w := initial.run [.gpioSetFunction 0 5 funcNull, .pad 0 (.gpioSetOeover 5 .high)]
    ¬ ((w.pads 0).pinIsPioOutput 5 = true ↔ (w.pads 0).PioDrives 5) := by
  let P : Platform := ⟨.rp2350⟩
  intro w h
  have hunclaimed : (w.pads 0).pinDirs.getLsbD (pinIdx 5) = false := by decide +kernel
  have hdrives := (h.mp (by decide +kernel)).1
  rw [hunclaimed] at hdrives
  cases hdrives

end World
end PioSim
