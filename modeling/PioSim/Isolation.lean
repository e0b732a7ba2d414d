import PioSim.PioOutput
import Mathlib.Data.List.Induction

/-!
# Pad isolation

Raising ISO latches the drive that the chip has on a pad at that moment, and the latch outlives
whatever happens to the live drive under it. What an isolated pad feeds to the synchroniser is 0
before INOVER.
-/

namespace PioSim

variable [Platform]

namespace Pads

/-- What the pad hands to INOVER: the wire, gated by the input enable and the isolation. -/
def padInput (p : Pads) : Mask :=
  let v := p.live &&& p.padIe
  if hasPadIso then v &&& ~~~ p.padIso else v

def overrideInput (p : Pads) (k : ℕ) (v : Bool) : Bool :=
  ((v ^^ p.inoverInv.getLsbD k) || p.inoverHigh.getLsbD k) && !p.inoverLow.getLsbD k

theorem getLsbD_inputView (p : Pads) {k : ℕ} (hk : k < 64) :
    p.inputView.getLsbD k = p.overrideInput k (p.padInput.getLsbD k) := by
  have hview : p.inputView =
      ((p.padInput ^^^ p.inoverInv) ||| p.inoverHigh) &&& ~~~ p.inoverLow := rfl
  rw [hview]
  simp [overrideInput, hk]

theorem padInput_of_isolated {p : Pads} {k : ℕ} (h : p.isolated k = true) :
    p.padInput.getLsbD k = false := by
  rw [isolated, Bool.and_eq_true] at h
  simp [padInput, h.1, h.2]

theorem chipDrive_level (p : Pads) (k : ℕ) : p.chipDrive.2.getLsbD k =
    if p.isolated k then p.isoLevels.getLsbD k else p.functionLevel.getLsbD k := by
  rw [chipDrive_eq, isolated]
  cases hasPadIso with
  | false => rfl
  | true => rw [if_pos rfl, getLsbD_overwrite, Bool.true_and]

/-- The drive of a pin at the pad: output enable and level. -/
def driveAt (p : Pads) (k : ℕ) : Bool × Bool := (p.chipDrive.1.getLsbD k, p.chipDrive.2.getLsbD k)

/-! ### Raising ISO -/

/-- The pad set with the drive of a pin latched. -/
def latch (p : Pads) (pin : ℕ) : Pads :=
  { p with
    isoOe := maskSet p.isoOe pin (p.chipDrive.1.getLsbD (pinIdx pin))
    isoLevels := maskSet p.isoLevels pin (p.chipDrive.2.getLsbD (pinIdx pin))
    padIso := maskSet p.padIso pin true }

theorem padSetIso_isolated {p : Pads} {pin : ℕ} (h : p.padIso.getLsbD (pinIdx pin) = true) :
    p.padSetIso pin true = p := by
  have hiso : maskSet p.padIso pin true = p.padIso := by
    apply BitVec.eq_of_getLsbD_eq
    intro k _
    rw [getLsbD_maskSet]
    split
    · rename_i hk
      rw [hk, h]
    · rfl
  rw [padSetIso, h]
  simp only [Bool.not_true, Bool.and_false, Bool.false_eq_true, if_false, hiso]

theorem padSetIso_live {p : Pads} {pin : ℕ} (h : p.padIso.getLsbD (pinIdx pin) = false) :
    p.padSetIso pin true = p.latch pin := by
  rw [padSetIso, h]
  rfl

/-- The latch holds what the chip drove, so raising ISO shows on no pad. -/
theorem chipDrive_latch (p : Pads) (pin : ℕ) : (p.latch pin).chipDrive = p.chipDrive := by
  have hoe : (p.latch pin).functionOe = p.functionOe := rfl
  have hlevel : (p.latch pin).functionLevel = p.functionLevel := rfl
  have heq := p.chipDrive_eq
  rw [chipDrive_eq, hoe, hlevel]
  cases hiso : hasPadIso with
  | false =>
    rw [hiso] at heq
    exact heq.symm
  | true =>
    rw [hiso, if_pos rfl] at heq
    rw [if_pos rfl, heq, Prod.mk.injEq]
    constructor
    all_goals
      apply BitVec.eq_of_getLsbD_eq
      intro k _
      simp only [getLsbD_overwrite, latch, getLsbD_maskSet, heq]
      by_cases hk : k = pinIdx pin
      · subst hk
        simp only [if_true]
      · simp only [if_neg hk]

theorem chipDrive_padSetIso (p : Pads) (pin : ℕ) :
    (p.padSetIso pin true).chipDrive = p.chipDrive := by
  cases h : p.padIso.getLsbD (pinIdx pin) with
  | true => rw [padSetIso_isolated h]
  | false => rw [padSetIso_live h, chipDrive_latch]

theorem padIso_padSetIso (p : Pads) (pin k : ℕ) : (p.padSetIso pin true).padIso.getLsbD k =
    if k = pinIdx pin then true else p.padIso.getLsbD k := getLsbD_maskSet _ _ _ _

/-- Raising ISO on one pin leaves what the others feed to the synchroniser. -/
theorem inputView_padSetIso {p : Pads} {pin k : ℕ} (hk : k < 64) (hne : k ≠ pinIdx pin) :
    (p.padSetIso pin true).inputView.getLsbD k = p.inputView.getLsbD k := by
  cases h : p.padIso.getLsbD (pinIdx pin) with
  | true => rw [padSetIso_isolated h]
  | false =>
    have hiso := padIso_padSetIso p pin k
    rw [padSetIso_live h, if_neg hne] at hiso
    rw [padSetIso_live h, getLsbD_inputView _ hk, getLsbD_inputView _ hk]
    have hlive : (p.latch pin).live = p.live := by
      rw [live, chipDrive_latch]
      rfl
    have hie : (p.latch pin).padIe = p.padIe := rfl
    have hinput : (p.latch pin).padInput.getLsbD k = p.padInput.getLsbD k := by
      rw [padInput, padInput, hlive, hie]
      cases hasPadIso with
      | false => rfl
      | true => simp only [if_true, BitVec.getLsbD_and, BitVec.getLsbD_not, hiso]
    rw [hinput]
    rfl

/-! ### The latch from then on -/

/-- The setters that leave the isolation of pin `k` raised. -/
def KeepsIso (k : ℕ) : PadOp → Prop
  | .padSetIso pin iso => iso = true ∨ pinIdx pin ≠ k
  | .resetHw => False
  | _ => True

/-- Pin `k` is isolated and latched at the given output enable and level. -/
structure Latched (k : ℕ) (drive : Bool × Bool) (p : Pads) : Prop where
  iso : p.isolated k = true
  oe : p.isoOe.getLsbD k = drive.1
  level : p.isoLevels.getLsbD k = drive.2

theorem Latched.driveAt {k : ℕ} {drive : Bool × Bool} {p : Pads} (h : p.Latched k drive)
    (hk : k < 64) : p.driveAt k = drive := by
  rw [Pads.driveAt, chipDrive_oe p hk, chipDrive_level, h.iso, if_pos rfl, if_pos rfl,
    h.oe, h.level]

theorem Latched.padSetIso {k : ℕ} {drive : Bool × Bool} {p : Pads} (h : p.Latched k drive)
    {pin : ℕ} {iso : Bool} (hkeeps : iso = true ∨ pinIdx pin ≠ k) :
    (p.padSetIso pin iso).Latched k drive := by
  have hk := h.iso
  rw [isolated, Bool.and_eq_true] at hk
  by_cases hpin : pinIdx pin = k
  · obtain rfl : iso = true := hkeeps.resolve_right (· hpin)
    rw [padSetIso_isolated (hpin ▸ hk.2)]
    exact h
  · have hne : k ≠ pinIdx pin := Ne.symm hpin
    have hiso : (p.padSetIso pin iso).padIso.getLsbD k = true := by
      have hset : (p.padSetIso pin iso).padIso = maskSet p.padIso pin iso := by
        unfold Pads.padSetIso
        split <;> rfl
      rw [hset, getLsbD_maskSet, if_neg hne, hk.2]
    refine ⟨by rw [isolated, hk.1, hiso]; rfl, ?_, ?_⟩
    · refine Eq.trans ?_ h.oe
      unfold Pads.padSetIso
      split
      · exact (getLsbD_maskSet ..).trans (if_neg hne)
      · rfl
    · refine Eq.trans ?_ h.level
      unfold Pads.padSetIso
      split
      · exact (getLsbD_maskSet ..).trans (if_neg hne)
      · rfl

/-- The fields that make the latch. -/
theorem Latched.of_fields {k : ℕ} {drive : Bool × Bool} {p q : Pads} (h : p.Latched k drive)
    (hiso : q.padIso = p.padIso) (hoe : q.isoOe = p.isoOe) (hlevel : q.isoLevels = p.isoLevels) :
    q.Latched k drive := by
  refine ⟨?_, hoe ▸ h.oe, hlevel ▸ h.level⟩
  rw [isolated, hiso]
  exact h.iso

theorem Latched.apply {k : ℕ} {drive : Bool × Bool} {p : Pads} (h : p.Latched k drive) {op : PadOp}
    (hop : KeepsIso k op) : (op.apply p).Latched k drive := by
  cases op with
  | padSetIso pin iso => exact h.padSetIso hop
  | resetHw => exact hop.elim
  | setPullLevel mask level =>
    rw [PadOp.apply, Pads.setPullLevel]
    split <;> exact h.of_fields rfl rfl rfl
  | _ => exact h.of_fields rfl rfl rfl

/-- Whatever rewrites the live drive, the latch stays. -/
theorem Latched.step {k : ℕ} {drive : Bool × Bool} {p q : Pads} (hs : Step (KeepsIso k) p q)
    (h : p.Latched k drive) : q.Latched k drive := by
  cases hs with
  | resolve sm => exact h.of_fields rfl rfl rfl
  | setter _ op hop => exact h.apply hop
  | gpioSetFunction sm _ pin f => exact h.of_fields rfl rfl rfl
  | clockSync => exact h.of_fields rfl rfl rfl

theorem latched_padSetIso (hiso : hasPadIso = true) (p : Pads) (pin : ℕ) :
    (p.padSetIso pin true).Latched (pinIdx pin) (p.driveAt (pinIdx pin)) := by
  have hon : (p.padSetIso pin true).isolated (pinIdx pin) = true := by
    rw [isolated, padIso_padSetIso, if_pos rfl, hiso]
    rfl
  have hdrive : (p.padSetIso pin true).driveAt (pinIdx pin) = p.driveAt (pinIdx pin) := by
    rw [driveAt, chipDrive_padSetIso, driveAt]
  rw [← hdrive, driveAt, chipDrive_oe _ (pinIdx_lt pin), chipDrive_level, hon]
  exact ⟨hon, rfl, rfl⟩

end Pads

namespace World

variable {w : World} {b : BlockAddr} {i : Fin 4} {r : PadRef} {k : ℕ} {drive : Bool × Bool}

/-- The call neither initialises pad set `r` nor lowers the isolation of its pin `k`. -/
def LeavesIso (r : PadRef) (k : ℕ) (w : World) (c : Call) : Prop :=
  reinits r c = false ∧ Admits (Pads.KeepsIso k) r w c

theorem latched_step {c : Call} (h : (w.padsAt r).Latched k drive) (hc : LeavesIso r k w c) :
    ((w.step c).padsAt r).Latched k drive :=
  (steps_step hc.2 hc.1).invariant (fun hs hp => Pads.Latched.step hs hp) h

theorem latched_run {cs : List Call} (h : (w.padsAt r).Latched k drive)
    (hc : Run.Along step (LeavesIso r k) w cs) : ((w.run cs).padsAt r).Latched k drive :=
  Run.invariant (I := fun v : World => (v.padsAt r).Latched k drive) (fun _ _ => latched_step) h hc

/-- Up to the presentation of a word a tick takes the pads through steps as well. -/
theorem steps_presentation {allows : PadOp → Prop} {c : Call} {p : Presentation}
    (hp : presentation b i w c = some p) : (w.padsAt r).Steps allows (p.world.padsAt r) := by
  have hself : (w.padsAt r).Steps allows (w.padsAt r) := .refl
  cases c with
  | tickSms b' =>
    obtain ⟨-, -, -, rfl⟩ := presentation_tickSms hp
    have hturns : (w.padsAt r).Steps allows ((w.beforeSm b i).padsAt r) :=
      steps_foldl (fun v j hv => smTick_closed (steps_closed allows _ r b j)
        (fun u hu => steps_modifySm hu b j _) hv) _ (steps_openWindow hself b)
    refine (steps_closed allows _ r b i).fetch _ ?_
    exact steps_modifySm (steps_modifySm hturns b i _) b i _
  | smExec b' j insn =>
    obtain ⟨-, rfl⟩ := presentation_smExec hp
    dsimp only
    rw [padsAt_modifySm]
  | _ => cases hp

/-- Since the pin was isolated, some state of the run showed the level `v` behind INOVER, made from
a pad input of 0. -/
def ShownGated (r : PadRef) (k : ℕ) (w : World) (cs : List Call) (v : Bool) : Prop :=
  ∃ ds, ds <+: cs ∧ ((w.run ds).padsAt r).padInput.getLsbD k = false ∧
    v = ((w.run ds).padsAt r).overrideInput k false

theorem ShownGated.append {cs : List Call} {v : Bool} (h : ShownGated r k w cs v) (c : Call) :
    ShownGated r k w (cs ++ [c]) v := by
  obtain ⟨ds, hds, hrest⟩ := h
  exact ⟨ds, hds.trans (List.prefix_append cs [c]), hrest⟩

/-- The view of an isolated pin is INOVER's of 0. -/
theorem shownGated_view {cs : List Call} (h : ((w.run cs).padsAt r).Latched k drive) (hk : k < 64) :
    ShownGated r k w cs (((w.run cs).padsAt r).inputView.getLsbD k) := by
  have hinput := Pads.padInput_of_isolated h.iso
  refine ⟨cs, List.prefix_rfl, hinput, ?_⟩
  rw [Pads.getLsbD_inputView _ hk, hinput]

/-- The stages of the synchroniser, as far as the run has refreshed them since the pin was
isolated. -/
structure StagesGated (r : PadRef) (k : ℕ) (w : World) (cs : List Call) (n : ℕ) : Prop where
  first : 1 ≤ n → ShownGated r k w cs (((w.run cs).stagesAt r).1.getLsbD k)
  second : 2 ≤ n → ShownGated r k w cs (((w.run cs).stagesAt r).2.getLsbD k)

theorem StagesGated.step {cs : List Call} {c : Call} {n : ℕ} (h : StagesGated r k w cs n)
    (hlatch : ((w.run (cs ++ [c])).padsAt r).Latched k drive) (hk : k < 64)
    (hinit : reinits r c = false) :
    StagesGated r k w (cs ++ [c]) (n + (endings r (w.run cs) c).length) := by
  have hview := shownGated_view hlatch hk
  have hrun : w.run (cs ++ [c]) = (w.run cs).step c := run_append w cs [c]
  rw [hrun] at hview
  by_cases hsettle : SettlesSync r (w.run cs) c
  · -- `pio_sim_sync_settle` puts the view of the moment into both stages
    obtain ⟨b, rfl, hr⟩ := hsettle
    have hpads : ((w.run cs).step (.pad b .syncSettle)).padsAt r =
        ((w.run cs).padsAt r).syncSettle := by
      rw [← hr]
      exact padsAt_setPads_self _ _
    have hstages : ((w.run cs).step (.pad b .syncSettle)).stagesAt r =
        ((((w.run cs).step (.pad b .syncSettle)).padsAt r).inputView,
          (((w.run cs).step (.pad b .syncSettle)).padsAt r).inputView) := by
      rw [stagesAt, hpads]
      rfl
    constructor
    · intro _
      rw [hrun, hstages]
      exact hview
    · intro _
      rw [hrun, hstages]
      exact hview
  · have hstages := stagesAt_step hsettle
    unfold endings
    cases hclocks : clocks r (w.run cs) c with
    | true =>
      rw [hclocks, if_pos rfl] at hstages
      rw [if_pos rfl, List.length_singleton]
      constructor
      · intro _
        rw [hrun, hstages]
        exact hview
      · intro hn
        rw [hrun, hstages]
        exact (h.first (by omega)).append c
    | false =>
      rw [hclocks, if_neg Bool.false_ne_true, hinit, if_neg Bool.false_ne_true] at hstages
      rw [if_neg Bool.false_ne_true, List.length_nil, Nat.add_zero]
      constructor
      · intro hn
        rw [hrun, hstages]
        exact (h.first hn).append c
      · intro hn
        rw [hrun, hstages]
        exact (h.second hn).append c

theorem stagesGated_run (h : (w.padsAt r).Latched k drive) (hk : k < 64) {cs : List Call}
    (hc : Run.Along step (LeavesIso r k) w cs) :
    StagesGated r k w cs (Run.collect step (endings r) w cs).length := by
  induction cs using List.reverseRecOn with
  | nil =>
    have hnone : (Run.collect step (endings r) w []).length = 0 := rfl
    rw [hnone]
    exact ⟨fun hn => by omega, fun hn => by omega⟩
  | append_singleton cs c ih =>
    have hlatch := latched_run h hc
    rw [Run.along_append] at hc
    have hstep := (ih hc.1).step hlatch hk hc.2.1.1
    rw [Run.collect_append, List.length_append]
    simpa [Run.collect, run] using hstep

/-- What a state machine of block `b` samples of an isolated pin. -/
def SamplesGated (r : PadRef) (pin : ℕ) (w : World) (cs : List Call) : Prop :=
  ∀ b i c p, presentation b i (w.run cs) c = some p → p.world.padRef b = r →
    ((p.world.pads b).syncBypass.getLsbD (pinIdx pin) = true →
      (p.world.pads b).padInput.getLsbD (pinIdx pin) = false ∧
        p.world.inputLevel b pin = (p.world.pads b).overrideInput (pinIdx pin) false) ∧
    ((p.world.pads b).syncBypass.getLsbD (pinIdx pin) = false →
      2 ≤ (Run.collect step (endings r) w cs).length →
        ShownGated r (pinIdx pin) w cs (p.world.inputLevel b pin))

/-- On a pin with bypass a state machine samples the view of the moment. -/
theorem inputLevel_of_bypassed {pin : ℕ} (h : (w.pads b).syncBypass.getLsbD (pinIdx pin) = true) :
    w.inputLevel b pin = (w.pads b).inputView.getLsbD (pinIdx pin) := by
  have hlt := pinIdx_lt pin
  rw [inputLevel, Pads.inputLevel, BitVec.getLsbD_or, BitVec.getLsbD_and, BitVec.getLsbD_and,
    BitVec.getLsbD_not, h]
  simp [hlt]

theorem samplesGated {pin : ℕ} (h : (w.padsAt r).Latched (pinIdx pin) drive) {cs : List Call}
    (hc : Run.Along step (LeavesIso r (pinIdx pin)) w cs) : SamplesGated r pin w cs := by
  intro b i c p hp hr
  have hlatch : (p.world.pads b).Latched (pinIdx pin) drive := by
    rw [pads, hr]
    exact (steps_presentation hp).invariant (fun hs hq => Pads.Latched.step hs hq)
      (latched_run h hc)
  refine ⟨fun hbypass => ?_, fun hbypass hn => ?_⟩
  · have hinput := Pads.padInput_of_isolated hlatch.iso
    refine ⟨hinput, ?_⟩
    rw [inputLevel_of_bypassed hbypass, Pads.getLsbD_inputView _ (pinIdx_lt pin), hinput]
  · rw [inputLevel_of_not_bypassed hbypass, hr, stagesAt_presentation hp]
    exact (stagesGated_run h (pinIdx_lt pin) hc).second hn

/-- Raising ISO shows on no pad and on no other pin's input; and in every run from there on that
leaves the isolation raised and the pad set initialised, the pin's drive stays what it was, its
input before INOVER is 0, and that is what state machines sample: at once on a pin with bypass, else
once two ticks have ended. -/
theorem iso_freezes_pin (hiso : hasPadIso = true) (w : World) (b : BlockAddr) (pin : ℕ) :
    (((w.step (.pad b (.padSetIso pin true))).pads b).chipDrive = (w.pads b).chipDrive ∧
      ∀ k < 64, k ≠ pinIdx pin →
        ((w.step (.pad b (.padSetIso pin true))).pads b).isolated k = (w.pads b).isolated k ∧
        ((w.step (.pad b (.padSetIso pin true))).pads b).inputView.getLsbD k =
          (w.pads b).inputView.getLsbD k) ∧
    ∀ cs, Run.Along step (LeavesIso (w.padRef b) (pinIdx pin))
        (w.step (.pad b (.padSetIso pin true))) cs →
      (((w.step (.pad b (.padSetIso pin true))).run cs).padsAt (w.padRef b)).driveAt (pinIdx pin) =
        (w.pads b).driveAt (pinIdx pin) ∧
      (((w.step (.pad b (.padSetIso pin true))).run cs).padsAt (w.padRef b)).padInput.getLsbD
        (pinIdx pin) = false ∧
      SamplesGated (w.padRef b) pin (w.step (.pad b (.padSetIso pin true))) cs := by
  have hat : (w.step (.pad b (.padSetIso pin true))).padsAt (w.padRef b) =
      (w.pads b).padSetIso pin true := padsAt_setPads_self _ _
  have hpads : (w.step (.pad b (.padSetIso pin true))).pads b = (w.pads b).padSetIso pin true := by
    have href : (w.step (.pad b (.padSetIso pin true))).padRef b = w.padRef b :=
      congrFun (padRef_modifyPads b _) b
    rw [pads, href, hat]
  have hlatch : ((w.step (.pad b (.padSetIso pin true))).padsAt (w.padRef b)).Latched (pinIdx pin)
      ((w.pads b).driveAt (pinIdx pin)) := hat ▸ Pads.latched_padSetIso hiso _ pin
  refine ⟨⟨by rw [hpads, Pads.chipDrive_padSetIso], fun k hk hne => ?_⟩, fun cs hc => ?_⟩
  · rw [hpads, Pads.inputView_padSetIso hk hne, Pads.isolated, Pads.padIso_padSetIso, if_neg hne,
      Pads.isolated]
    exact ⟨rfl, rfl⟩
  · have hend := latched_run hlatch hc
    exact ⟨hend.driveAt (pinIdx_lt pin), Pads.padInput_of_isolated hend.iso, samplesGated hlatch hc⟩

omit [Platform] in
/-- Pin 3 driven high and isolated, then released by the state machine, over a tick. -/
theorem iso_freezes_pin_three :
    letI : Platform := ⟨.rp2350⟩
    let w := initial.run [.smInit 0 0 0 { defaultSmConfig with setBase := 3, setCount := 1 },
      .setConsecutivePindirs 0 0 3 1 true, .smExec 0 0 0xE001]
    let cs : List Call := [.setConsecutivePindirs 0 0 3 1 false, .tickSms 0, .tickEnd 0]
    (((w.step (.pad 0 (.padSetIso 3 true))).run cs).padsAt (w.padRef 0)).driveAt (pinIdx 3) =
      (w.pads 0).driveAt (pinIdx 3) := by
  let P : Platform := ⟨.rp2350⟩
  intro w cs
  have hcs : Run.Along step (LeavesIso (w.padRef 0) (pinIdx 3))
    (w.step (.pad 0 (.padSetIso 3 true)))
      cs := by
    refine ⟨⟨rfl, ?_⟩, ⟨rfl, ?_⟩, ⟨rfl, ?_⟩, trivial⟩ <;>
      · intro b op h
        cases h
  exact ((iso_freezes_pin rfl w 0 3).2 cs hcs).1

end World

end PioSim
