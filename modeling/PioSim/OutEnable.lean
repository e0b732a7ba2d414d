import PioSim.Sticky
import PioSim.ForcedDelay

/-!
# The inline OUT enable

Under OUT_STICKY the enable bit of an OUT PINS word chooses between two writes of the span: set, the
word drives its levels; clear, it gives the pins up, levels and directions. Nothing but a write of
the pin directions turns a pin given up into an output again, so a word with its enable bit set
drives the pad only where the state machine still marks the pin as an output.
-/

namespace PioSim

variable [Platform]

/-! ### The pin registers at one pin -/

/-- What the pin registers say about one pin: its level and whether that was written this cycle, its
direction and whether the state machine claims it. -/
structure PinBits where
  val : Bool
  wrote : Bool
  oe : Bool
  driven : Bool
  deriving DecidableEq

def PinRegs.bits (r : PinRegs) (pin : ℕ) : PinBits :=
  ⟨r.outPinVal.getLsbD pin, r.wroteThisCycle.getLsbD pin, r.outPinOe.getLsbD pin,
    r.dirDriven.getLsbD pin⟩

omit [Platform] in
theorem getLsbD_clear (m : Mask) (p pin : ℕ) :
    (m &&& ~~~ pinBit p).getLsbD pin = if p = pin then false else m.getLsbD pin := by
  by_cases h64 : pin < 64
  · by_cases hp : p = pin
    · subst hp
      simp [getLsbD_pinBit, h64]
    · have hbit : (pinBit p).getLsbD pin = false := by simp [getLsbD_pinBit, Ne.symm hp]
      rw [if_neg hp, BitVec.getLsbD_and, BitVec.getLsbD_not, hbit, decide_eq_true h64,
        Bool.not_false, Bool.and_true, Bool.and_true]
  · simp [BitVec.getLsbD_of_ge m pin (by omega)]

omit [Platform] in
theorem getLsbD_raise (m : Mask) (p : ℕ) {pin : ℕ} (h64 : pin < 64) :
    (m ||| pinBit p).getLsbD pin = if p = pin then true else m.getLsbD pin := by
  by_cases hp : p = pin
  · subst hp
    simp [getLsbD_pinBit, h64]
  · simp [getLsbD_pinBit, hp, Ne.symm hp]

namespace PinRegs

variable {r : PinRegs} {p pin : ℕ}

section
omit [Platform]

theorem bits_drivePin (h64 : pin < 64) (level : Bool) : (r.drivePin p level).bits pin =
    if p = pin then { r.bits pin with val := level, wrote := true } else r.bits pin := by
  cases level with
  | false =>
    simp only [bits, drivePin, Bool.false_eq_true, if_false, getLsbD_clear, getLsbD_raise _ _ h64]
    split <;> rfl
  | true =>
    simp only [bits, drivePin, if_true, getLsbD_raise _ _ h64]
    split <;> rfl

theorem bits_drivePindir (h64 : pin < 64) (out : Bool) : (r.drivePindir p out).bits pin =
    if p = pin then { r.bits pin with oe := out, driven := true } else r.bits pin := by
  cases out with
  | false =>
    simp only [bits, drivePindir, Bool.false_eq_true, if_false, getLsbD_clear,
      getLsbD_raise _ _ h64]
    split <;> rfl
  | true =>
    simp only [bits, drivePindir, if_true, getLsbD_raise _ _ h64]
    split <;> rfl

theorem bits_releasePin : (r.releasePin p).bits pin =
    if p = pin then ⟨r.outPinVal.getLsbD pin, false, false, false⟩ else r.bits pin := by
  simp only [bits, releasePin, getLsbD_clear]
  split <;> rfl

end

end PinRegs

/-- The last round of the loop over a span that passes the pin: the one whose data bit the pin
takes. -/
def spanIndex (phys : ℕ → ℕ) (base count pin : ℕ) : Option ℕ :=
  LastWriter.last (fun k => phys (u8 (base + k)) == pin) (List.range (clampPinCount count))

section
omit [Platform]

theorem spans_of_spanIndex {phys : ℕ → ℕ} {base count pin k : ℕ}
    (h : spanIndex phys base count pin = some k) :
    spans phys base (clampPinCount count) pin = true := by
  unfold spanIndex at h
  have hpin := LastWriter.claims_of_last h
  exact List.any_eq_true.mpr ⟨k, LastWriter.mem_of_last h, hpin⟩

/-- A pin the loop of `drive_pins` passes takes its data bit and is written; its direction stays. -/
theorem PinRegs.bits_drivePins {r : PinRegs} {phys : ℕ → ℕ} {base count pin k : ℕ} {value : Word}
    (h64 : pin < 64) (h : spanIndex phys base count pin = some k) :
    (r.drivePins phys base count value).bits pin =
      { r.bits pin with val := value.getLsbD k, wrote := true } := by
  have hscan : ∀ (l : List ℕ) (r : PinRegs),
      (l.foldl (fun r k => r.drivePin (phys (u8 (base + k))) (value.getLsbD k)) r).bits pin =
        (LastWriter.last (fun k => phys (u8 (base + k)) == pin) l).elim (r.bits pin)
          fun k => { r.bits pin with val := value.getLsbD k, wrote := true } := by
    intro l
    induction l using List.reverseRecOn with
    | nil => exact fun r => rfl
    | append_singleton l k ih =>
      intro r
      rw [List.foldl_append, List.foldl_cons, List.foldl_nil, bits_drivePin h64, ih r,
        LastWriter.last_append, LastWriter.last_cons, LastWriter.last_nil, Option.none_or]
      by_cases hk : phys (u8 (base + k)) = pin
      · rw [if_pos hk, if_pos (beq_iff_eq.mpr hk), Option.some_or]
        cases LastWriter.last (fun k => phys (u8 (base + k)) == pin) l <;> rfl
      · rw [if_neg hk, if_neg (fun he => hk (beq_iff_eq.mp he)), Option.none_or]
  rw [PinRegs.drivePins, hscan]
  rw [spanIndex] at h
  rw [h]
  rfl

/-- A pin of a released span is neither written nor claimed. -/
theorem PinRegs.bits_releaseOutPins {r : PinRegs} {phys : ℕ → ℕ} {base count pin : ℕ}
    (h : spans phys base count pin = true) :
    (r.releaseOutPins phys base count).bits pin =
      ⟨r.outPinVal.getLsbD pin, false, false, false⟩ := by
  have hloop : ∀ (l : List ℕ) (r : PinRegs), (l.any fun k => phys (u8 (base + k)) == pin) = true →
      (l.foldl (fun r k => r.releasePin (phys (u8 (base + k)))) r).bits pin =
        ⟨r.outPinVal.getLsbD pin, false, false, false⟩ := by
    intro l
    induction l using List.reverseRecOn with
    | nil => exact fun r hany => nomatch hany
    | append_singleton l k ih =>
      intro r hany
      have hval : (l.foldl (fun r k => r.releasePin (phys (u8 (base + k)))) r).outPinVal =
          r.outPinVal :=
        List.foldlRecOn (motive := fun q : PinRegs => q.outPinVal = r.outPinVal) _ _ rfl
          fun q hq _ _ => hq
      rw [List.foldl_append, List.foldl_cons, List.foldl_nil, bits_releasePin, hval]
      by_cases hk : phys (u8 (base + k)) = pin
      · rw [if_pos hk]
      · rw [if_neg hk]
        rw [List.any_append, Bool.or_eq_true] at hany
        rcases hany with hany | hany
        · exact ih r hany
        · simp [hk] at hany
  exact hloop (List.range count) r h

/-- A write leaves a pin alone that it neither drives nor directs nor releases. -/
theorem PinWrite.bits_apply {t : PinWrite} {phys : ℕ → ℕ} {value : Word} {r : PinRegs} {pin : ℕ}
    (h64 : pin < 64) (hdrives : t.drives phys pin = false) (hdirects : t.directs phys pin = false)
    (hreleases : t.releases phys pin = false) : (t.apply phys value r).bits pin = r.bits pin := by
  have hne : ∀ {base n k : ℕ}, spans phys base n pin = false → k ∈ List.range n →
      phys (u8 (base + k)) ≠ pin :=
    fun hspan hk he => List.any_eq_false.mp hspan _ hk (beq_iff_eq.mpr he)
  cases t with
  | levels base count =>
    refine List.foldlRecOn (motive := fun q : PinRegs => q.bits pin = r.bits pin) _ _ rfl ?_
    intro q hq k hk
    rw [PinRegs.bits_drivePin h64, if_neg (hne hdrives hk), hq]
  | dirs base count =>
    refine List.foldlRecOn (motive := fun q : PinRegs => q.bits pin = r.bits pin) _ _ rfl ?_
    intro q hq k hk
    rw [PinRegs.bits_drivePindir h64, if_neg (hne hdirects hk), hq]
  | release base count =>
    refine List.foldlRecOn (motive := fun q : PinRegs => q.bits pin = r.bits pin) _ _ rfl ?_
    intro q hq k hk
    rw [PinRegs.bits_releasePin, if_neg (hne hreleases hk), hq]

end

/-! ### OUT PINS -/

namespace Sm

def outData (s : Sm) (insn : Insn) : Word := s.outValue (shiftCount (operandOf insn))

def outEnabled (s : Sm) (insn : Insn) : Bool := (s.outData insn).getLsbD s.outEnSel

/-- An OUT PINS that does not stall, on an enabled state machine with OUT_STICKY and inline
enable. -/
structure Gates (s : Sm) (insn : Insn) : Prop where
  enabled : s.enabled = true
  sticky : s.outSticky = true
  inlineEn : s.outInlineEn = true
  op : opcode insn = 3
  dest : operandOf insn / 32 % 8 = 0
  flows : s.outStalls = false

instance (s : Sm) (insn : Insn) : Decidable (s.Gates insn) :=
  decidable_of_iff (s.enabled = true ∧ s.outSticky = true ∧ s.outInlineEn = true ∧ opcode insn = 3 ∧
    operandOf insn / 32 % 8 = 0 ∧ s.outStalls = false)
    ⟨fun ⟨he, hs, hi, ho, hd, hf⟩ => ⟨he, hs, hi, ho, hd, hf⟩,
      fun h => ⟨h.enabled, h.sticky, h.inlineEn, h.op, h.dest, h.flows⟩⟩

/-- The write that the enable bit chooses. -/
def gatedWrite (s : Sm) (insn : Insn) : PinWrite :=
  if s.outEnabled insn then .levels s.outBase s.outCount else .release s.outBase s.outCount

def sideSpares (s : Sm) (phys : ℕ → ℕ) (insn : Insn) (pin : ℕ) : Bool :=
  (s.sideWrite insn).all fun t => !t.drives phys pin && !t.directs phys pin

end Sm

namespace World

variable {v w : World} {b : BlockAddr} {i : Fin 4} {insn : Insn} {d : Driver} {pin : ℕ}

theorem execInsn_gated (h : (v.sm b i).Gates insn) : v.execInsn b i insn =
    ⟨(v.setSm b i ((v.sm b i).outShift (shiftCount (operandOf insn)))).setPins b i
      (((v.sm b i).gatedWrite insn).apply (v.physPin b) ((v.sm b i).outData insn) (v.sm b i).pins),
      false, none⟩ := by
  have hphys : (v.setSm b i ((v.sm b i).outShift (shiftCount (operandOf insn)))).physPin b =
      v.physPin b :=
    physPin_of_shell (shell_setSm b i _) b
  simp only [execInsn, h.op, execOut, h.flows, h.dest, Bool.false_eq_true, if_false, outStore,
    sm_setSm_self]
  have hen : ((v.sm b i).outShift (shiftCount (operandOf insn))).outInlineEn = true := h.inlineEn
  have hst : ((v.sm b i).outShift (shiftCount (operandOf insn))).outSticky = true := h.sticky
  rw [hen, hst, Bool.not_true, Bool.false_or, if_pos rfl, Sm.gatedWrite, Sm.outEnabled, Sm.outData]
  have hsel : ((v.sm b i).outShift (shiftCount (operandOf insn))).outEnSel =
    (v.sm b i).outEnSel := rfl
  rw [hsel]
  split
  · rw [drivePins_eq, hphys, sm_setSm_self]
    rfl
  · rw [releaseOutPins_eq, hphys, sm_setSm_self]
    rfl

/-- The OUT with its side-set: where that spares a pin, the pin is as the gated write left it. -/
theorem execOne_gated (h : (v.sm b i).Gates insn) : (v.execOne b i insn).committed = true ∧
    (∃ p : Pads, (v.execOne b i insn).world.pads b = p.resolve (v.execOne b i insn).world.sm ∧
      p.levelView.2 = (v.pads b).levelView.2) ∧
    ∀ pin < 64, (v.sm b i).sideSpares (v.physPin b) insn pin = true →
      ((v.execOne b i insn).world.sm b i).pins.bits pin =
        (((v.sm b i).gatedWrite insn).apply (v.physPin b) ((v.sm b i).outData insn)
        (v.sm b i).pins).bits pin := by
  obtain ⟨u, hu⟩ : ∃ u, v.setSm b i ((v.sm b i).outShift (shiftCount (operandOf insn))) =
    u := ⟨_, rfl⟩
  obtain ⟨r, hr⟩ : ∃ r, ((v.sm b i).gatedWrite insn).apply (v.physPin b) ((v.sm b i).outData insn)
      (v.sm b i).pins = r := ⟨_, rfl⟩
  have hinsn := execInsn_gated h
  rw [hu, hr] at hinsn
  have hshape := execInsn_shape v b i insn
  rw [hinsn] at hshape
  have hphys : (u.setPins b i r).physPin b = v.physPin b := physPin_of_shell hshape.local.shell b
  obtain ⟨side, hside⟩ := applySideset_writes (u := u.setPins b i r) insn hshape.control
  have hone : (v.execOne b i insn).world =
      (u.setPins b i r).putPins b i (v.physPin b) side ((v.sm b i).sideWrite insn) := by
    rw [← hphys, ← hside, execOne, hinsn]
  have hroute : ((u.setPins b i r).pads b).levelView.2 = (v.pads b).levelView.2 := by
    rw [World.setPins, route_resolvePads, World.pads, padRef_modifySm, padsAt_modifySm, ← hu,
      padRef_setSm, padsAt_setSm]
    rfl
  have hresolved : ∀ (x : World) (q : PinRegs), ∃ p : Pads, (x.setPins b i q).pads b =
      p.resolve (x.setPins b i q).sm ∧ p.levelView.2 = (x.pads b).levelView.2 := by
    intro x q
    refine ⟨(x.modifySm b i fun t => { t with pins := q }).pads b, ?_, ?_⟩
    · rw [World.setPins, pads_resolvePads, if_pos rfl, sm_resolvePads]
    · rw [World.pads, padRef_modifySm, padsAt_modifySm]
      rfl
  refine ⟨by rw [execOne, hinsn]; rfl, ?_, fun pin h64 hspares => ?_⟩
  · rw [hone]
    cases (v.sm b i).sideWrite insn with
    | none =>
      obtain ⟨p, hp, hview⟩ := hresolved u r
      refine ⟨p, hp, hview.trans ?_⟩
      rw [World.pads, ← hu, padRef_setSm, padsAt_setSm]
      rfl
    | some t =>
      obtain ⟨p, hp, hview⟩ := hresolved (u.setPins b i r)
        (t.apply (v.physPin b) side ((u.setPins b i r).sm b i).pins)
      exact ⟨p, hp, hview.trans hroute⟩
  · rw [hone, pins_putPins, sm_setPins_self]
    cases hwrite : (v.sm b i).sideWrite insn with
    | none => rw [Option.elim_none, hr]
    | some t =>
      rw [Sm.sideSpares, hwrite, Option.all_some, Bool.and_eq_true, Bool.not_eq_true',
        Bool.not_eq_true'] at hspares
      rw [Option.elim_some, hr]
      exact PinWrite.bits_apply h64 hspares.1 hspares.2 (Sm.sideWrite_releases hwrite _ _)

/-! ### Calls -/

/-- The instruction the call has the state machine execute, with the record it finds. -/
def runs (w : World) (d : Driver) : Call → Option (Sm × Insn)
  | .tickSms b =>
    if b = d.1 ∧ w.due d.1 d.2.2 = true ∧ (w.sm d.1 d.2.2).delay = 0 then
      some ((w.sm d.1 d.2.2).presented, w.getInstruction d.1 d.2.2)
    else none
  | .smExec b k insn => if (b, smIdx k) = machine d then some (w.sm d.1 d.2.2, insn) else none
  | _ => none

/-- What the call leaves of a gated OUT. -/
structure Leaves (d : Driver) (w : World) (s : Sm) (insn : Insn) (w' : World) : Prop where
  enabled : (w'.sm d.1 d.2.2).enabled = true
  pads : ∃ p : Pads, w'.pads d.1 = p.resolve w'.sm ∧ p.levelView.2 = (w.pads d.1).levelView.2
  bits : ∀ pin < 64, s.sideSpares (w.physPin d.1) insn pin = true →
    (s.gatedWrite insn).drives (w.physPin d.1) pin ||
      (s.gatedWrite insn).releases (w.physPin d.1) pin →
    (w'.sm d.1 d.2.2).pins.bits pin =
      ((s.gatedWrite insn).apply (w.physPin d.1) (s.outData insn) s.pins).bits pin

section
omit [Platform]

theorem exists_spanIndex {phys : ℕ → ℕ} {base count pin : ℕ}
    (h : spans phys base (clampPinCount count) pin = true) :
    ∃ k, spanIndex phys base count pin = some k := by
  obtain ⟨k, hk, hpin⟩ := List.any_eq_true.mp h
  refine Option.ne_none_iff_exists'.mp fun hnone => ?_
  rw [LastWriter.last_eq_none_iff.mp hnone k hk] at hpin
  cases hpin

/-- A pin of the span is written or given up, so re-asserting what is held adds nothing there. -/
theorem gated_settled {s : Sm} {phys : ℕ → ℕ} {value : Word} {r : PinRegs} (h64 : pin < 64)
    (h : ((s.gatedWrite insn).drives phys pin || (s.gatedWrite insn).releases phys pin) = true) :
    (((s.gatedWrite insn).apply phys value r).bits pin).wrote = true ∨
      (((s.gatedWrite insn).apply phys value r).bits pin).oe = false := by
  revert h
  rw [Sm.gatedWrite]
  split
  · intro h
    obtain ⟨k, hk⟩ := exists_spanIndex (Bool.or_false _ ▸ h)
    exact .inl (congrArg PinBits.wrote (PinRegs.bits_drivePins h64 hk))
  · intro h
    exact .inr (congrArg PinBits.oe (PinRegs.bits_releaseOutPins h))

theorem bits_stickyReassert {t : Sm}
    (h : (t.pins.bits pin).wrote = true ∨ (t.pins.bits pin).oe = false) :
    (stickyReassert t).pins.bits pin = t.pins.bits pin := by
  unfold stickyReassert
  split
  · have hwrote : (t.pins.wroteThisCycle ||| t.pins.outPinOe).getLsbD pin =
        t.pins.wroteThisCycle.getLsbD pin := by
      simp only [PinRegs.bits] at h
      rcases h with h | h <;> simp [h]
    simp only [PinRegs.bits, hwrote]
  · rfl

end

theorem leaves_tickSms {b : BlockAddr} {i : Fin 4} {o : ℕ} (hdue : w.due b i = true)
    (hd : (w.sm b i).delay = 0) (h : (w.sm b i).presented.Gates (w.getInstruction b i)) :
    Leaves (b, o, i) w (w.sm b i).presented (w.getInstruction b i) (w.tickSms b) := by
  have hsm : (w.presentWorld b i).sm b i = (w.sm b i).presented := by
    rw [sm_presentWorld, sm_cycleWorld]
    rfl
  have hphys : (w.presentWorld b i).physPin b = w.physPin b :=
    physPin_of_shell (shell_presentWorld w b i) b
  have hgates : ((w.presentWorld b i).sm b i).Gates (w.getInstruction b i) := by rw [hsm]; exact h
  obtain ⟨hcommit, -, hbits⟩ := execOne_gated hgates
  have hafter := sm_tickSms_of_commit hdue hd rfl hcommit
  obtain ⟨r, hr⟩ := stickyReassert_eq (Sm.retire
    (((w.presentWorld b i).execOne b i (w.getInstruction b i)).world.sm b i) (w.sm b i).execPending
    ((w.presentWorld b i).execOne b i (w.getInstruction b i)).setPc
    ((w.presentWorld b i).execOne b i (w.getInstruction b i)).delay)
  have hkept : ∀ (t : Sm) (f : Bool) (pc : Option ℕ) (n : ℕ),
      (t.retire f pc n).pins = t.pins ∧ (t.retire f pc n).enabled = t.enabled := by
    intro t f pc n
    unfold Sm.retire
    split <;> exact ⟨rfl, rfl⟩
  refine ⟨?_, ⟨w.pads b, ?_, rfl⟩, fun pin h64 hspares hspan => ?_⟩
  · have hcontrol := execOne_control (w.presentWorld b i) b i (w.getInstruction b i)
    rw [hafter, hr]
    exact (hkept _ _ _ _).2.trans ((congrArg (fun c : SmConfig × Bool × _ => c.2.1) hcontrol).trans
      hgates.enabled)
  · exact (pads_tickSms w b b).trans (if_pos rfl)
  · have hone := hbits pin h64 (by rw [hsm, hphys]; exact hspares)
    rw [hsm, hphys] at hone
    have hfiled := (hkept (((w.presentWorld b i).execOne b i (w.getInstruction b i)).world.sm b i)
      (w.sm b i).execPending ((w.presentWorld b i).execOne b i (w.getInstruction b i)).setPc
      ((w.presentWorld b i).execOne b i (w.getInstruction b i)).delay).1
    rw [hafter, bits_stickyReassert, hfiled, hone]
    rw [hfiled, hone]
    exact gated_settled h64 hspan

theorem leaves_smExec {b : BlockAddr} {k o : ℕ} (h : (w.sm b (smIdx k)).Gates insn) :
    Leaves (b, o, smIdx k) w (w.sm b (smIdx k)) insn (w.smExec b (smIdx k) insn) := by
  obtain ⟨v, hv⟩ : ∃ v, w.modifySm b (smIdx k) (fun s => { s with stalled := false }) =
    v := ⟨_, rfl⟩
  have hsm : v.sm b (smIdx k) = { w.sm b (smIdx k) with stalled := false } := by
    rw [← hv, sm_modifySm_self]
  have hphys : v.physPin b = w.physPin b := by
    rw [← hv]; exact physPin_of_shell (shell_modifySm b _ _) b
  have hgates : (v.sm b (smIdx k)).Gates insn := by
    rw [hsm]
    exact ⟨h.enabled, h.sticky, h.inlineEn, h.op, h.dest, h.flows⟩
  obtain ⟨hcommit, ⟨p, hp, hview⟩, hbits⟩ := execOne_gated hgates
  obtain ⟨u, hu⟩ : ∃ u, (v.execOne b (smIdx k) insn).world = u := ⟨_, rfl⟩
  rw [hu] at hp hbits
  have hafter : w.smExec b (smIdx k) insn =
      u.modifySm b (smIdx k) fun s =>
          { s with pc := (v.execOne b (smIdx k) insn).setPc.getD s.pc } := by
    rw [smExec, hv, if_pos hcommit, hu]
  refine ⟨?_, ⟨p, ?_, ?_⟩, fun pin h64 hspares _ => ?_⟩
  · have hcontrol := execOne_control v b (smIdx k) insn
    rw [hu] at hcontrol
    rw [hafter, sm_modifySm_self]
    exact (congrArg (fun c : SmConfig × Bool × _ => c.2.1) hcontrol).trans hgates.enabled
  · have hsame : ∀ c j, ((w.smExec b (smIdx k) insn).sm c j).enabled = (u.sm c j).enabled ∧
        ((w.smExec b (smIdx k) insn).sm c j).pins = (u.sm c j).pins := by
      intro c j
      rw [hafter, modifySm, sm_setSm]
      split
      · rename_i he
        obtain ⟨rfl, rfl⟩ := Prod.mk.inj he
        exact ⟨rfl, rfl⟩
      · exact ⟨rfl, rfl⟩
    rw [resolve_congr p (fun c j => (hsame c j).1) fun c j => (hsame c j).2, hafter, World.pads,
      padRef_modifySm, padsAt_modifySm]
    exact hp
  · rw [hview, World.pads, ← hv, padRef_modifySm, padsAt_modifySm]
    rfl
  · have hone := hbits pin h64 (by rw [hsm, hphys]; exact hspares)
    rw [hphys, hsm] at hone
    rw [hafter, sm_modifySm_self]
    exact hone

/-- What a call leaves of the gated OUT it has a state machine execute. -/
theorem leaves_step {c : Call} {s : Sm} (hr : w.runs d c = some (s, insn)) (h : s.Gates insn) :
    Leaves d w s insn (w.step c) := by
  obtain ⟨b, o, i⟩ := d
  cases c with
  | tickSms b' =>
    rw [runs] at hr
    split at hr
    · rename_i hruns
      obtain ⟨hb, hdue, hd⟩ := hruns
      subst hb
      obtain ⟨rfl, rfl⟩ := Prod.mk.inj (Option.some.inj hr)
      exact leaves_tickSms hdue hd h
    · cases hr
  | smExec b' k insn' =>
    rw [runs] at hr
    split at hr
    · rename_i he
      obtain ⟨rfl, rfl⟩ := Prod.mk.inj he
      obtain ⟨rfl, rfl⟩ := Prod.mk.inj (Option.some.inj hr)
      exact leaves_smExec h
    · cases hr
  | _ => cases hr

/-! ### Who drives the OUT pins -/

/-- Another state machine that arbitration places above the driver has written the pin or, enabled,
claims its direction. -/
def Outranked (w : World) (d : Driver) (pin : ℕ) : Prop :=
  ∃ e, [d, e].Sublist (w.pads d.1).drivers ∧ machine e ≠ machine d ∧
    ((w.pads d.1).writesPin w.sm pin e = true ∨
      (w.sm e.1 e.2.2).enabled = true ∧ (w.pads d.1).claimsPin w.sm pin e = true)

def DrivenAt (w : World) (b : BlockAddr) (pin : ℕ) (level : Bool) : Prop :=
  (w.pads b).pinDirs.getLsbD pin = true ∧ (w.pads b).pinLevels.getLsbD pin = level

/-- Arbitration follows the state machine in the pin's direction or in its level. -/
def Governs (w : World) (d : Driver) (pin : ℕ) : Prop := ∃ e, machine e = machine d ∧
  ((w.pads d.1).dirOwner w.sm pin = some e ∨ (w.pads d.1).levelWriter w.sm pin = some e)

/-- A gated OUT in the call toggles its pins: the enable bit set, those that nobody outranks it on
are driven at their data bits; the bit clear, none is driven by this state machine. -/
structure Toggles (d : Driver) (w : World) (c : Call) : Prop where
  drives : ∀ s insn, w.runs d c = some (s, insn) → s.Gates insn → s.outEnabled insn = true →
    ∀ pin k, spanIndex (w.physPin d.1) s.outBase s.outCount pin = some k →
      ¬ (w.step c).Outranked d pin → (w.step c).DrivenAt d.1 pin ((s.outData insn).getLsbD k)
  frees : ∀ s insn, w.runs d c = some (s, insn) → s.Gates insn → s.outEnabled insn = false →
    ∀ pin, spans (w.physPin d.1) s.outBase (clampPinCount s.outCount) pin = true →
      ¬ (w.step c).Governs d pin

/-- The state machine marks the pin as an output, and the mux routes the pin to its block. -/
structure MarksOutput (w : World) (d : Driver) (pin : ℕ) : Prop where
  driver : d ∈ (w.pads d.1).drivers
  routed : ((w.pads d.1).pioFuncMask d.2.1).getLsbD pin = true
  claimed : (w.sm d.1 d.2.2).pins.dirDriven.getLsbD pin = true
  oe : (w.sm d.1 d.2.2).pins.outPinOe.getLsbD pin = true

instance (w : World) (d : Driver) (pin : ℕ) : Decidable (w.MarksOutput d pin) :=
  decidable_of_iff (d ∈ (w.pads d.1).drivers ∧ ((w.pads d.1).pioFuncMask d.2.1).getLsbD pin = true ∧
    (w.sm d.1 d.2.2).pins.dirDriven.getLsbD pin = true ∧
      (w.sm d.1 d.2.2).pins.outPinOe.getLsbD pin = true)
    ⟨fun ⟨hd, hr, hc, ho⟩ => ⟨hd, hr, hc, ho⟩, fun h => ⟨h.driver, h.routed, h.claimed, h.oe⟩⟩

/-- Of every pin of a gated OUT in the call `P` holds. -/
def OutPins (d : Driver) (w : World) (c : Call) (P : Sm → Insn → ℕ → Prop) : Prop :=
  ∀ x ∈ w.runs d c, x.1.Gates x.2 → ∀ k ∈ List.range (clampPinCount x.1.outCount),
    P x.1 x.2 (w.physPin d.1 (u8 (x.1.outBase + k)))

/-- A gated OUT in the call finds its pins ready: its side-set spares them, and a word with the
enable bit set comes while the state machine marks them as outputs, but for those it is outranked
on. -/
def OutReady (d : Driver) (w : World) (c : Call) : Prop :=
  OutPins d w c fun s insn pin => s.sideSpares (w.physPin d.1) insn pin = true ∧
    (s.outEnabled insn = true → ¬ (w.step c).Outranked d pin → w.MarksOutput d pin)

/-- The pins of a gated OUT in the call are routed to the block, its side-set spares them, and no
other state machine claims their directions. -/
def OutAlone (d : Driver) (w : World) (c : Call) : Prop :=
  OutPins d w c fun s insn pin => s.sideSpares (w.physPin d.1) insn pin = true ∧
    d ∈ (w.pads d.1).drivers ∧ ((w.pads d.1).pioFuncMask d.2.1).getLsbD pin = true ∧
    ∀ e ∈ (w.pads d.1).drivers, machine e ≠ machine d →
      ((w.step c).pads d.1).claimsPin (w.step c).sm pin e = false

theorem OutPins.of_spans {c : Call} {s : Sm} {P : Sm → Insn → ℕ → Prop} (h : OutPins d w c P)
    (hr : w.runs d c = some (s, insn)) (hg : s.Gates insn)
    (hpin : spans (w.physPin d.1) s.outBase (clampPinCount s.outCount) pin = true) :
    P s insn pin := by
  obtain ⟨k, hk, he⟩ := List.any_eq_true.mp hpin
  rw [← beq_iff_eq.mp he]
  exact h (s, insn) hr hg k hk

theorem lt_of_spans {b : BlockAddr} {base n : ℕ} (h : spans (w.physPin b) base n pin = true) :
    pin < 64 := by
  obtain ⟨k, -, he⟩ := List.any_eq_true.mp h
  rw [← beq_iff_eq.mp he]
  have hlt := w.physPin_lt b (u8 (base + k))
  have hle := numPins_le
  omega

omit [Platform] in
/-- Opening the window and topping up the OSR leave the directions. -/
theorem dirs_of_runs {c : Call} {s : Sm} (h : w.runs d c = some (s, insn)) :
    s.pins.outPinOe = (w.sm d.1 d.2.2).pins.outPinOe ∧
      s.pins.dirDriven = (w.sm d.1 d.2.2).pins.dirDriven := by
  cases c with
  | tickSms b =>
    rw [runs] at h
    split at h
    · obtain ⟨rfl, -⟩ := Prod.mk.inj (Option.some.inj h)
      rcases (w.sm d.1 d.2.2).openWindow.elapse.backgroundAutopull_eq with he | ⟨x, t, he⟩ <;>
        rw [Sm.presented, he] <;> exact ⟨rfl, rfl⟩
    · cases h
  | smExec b k insn' =>
    rw [runs] at h
    split at h
    · obtain ⟨rfl, -⟩ := Prod.mk.inj (Option.some.inj h)
      exact ⟨rfl, rfl⟩
    · cases h
  | _ => cases h

variable {s : Sm} {w' : World}

theorem Leaves.bits_of_enabled (h : Leaves d w s insn w') (hen : s.outEnabled insn = true) {k : ℕ}
    (hk : spanIndex (w.physPin d.1) s.outBase s.outCount pin = some k)
    (hspares : s.sideSpares (w.physPin d.1) insn pin = true) : (w'.sm d.1 d.2.2).pins.bits pin =
      { s.pins.bits pin with val := (s.outData insn).getLsbD k, wrote := true } := by
  have hspan := spans_of_spanIndex hk
  have h64 := lt_of_spans hspan
  have hbits := h.bits pin h64 hspares
  rw [Sm.gatedWrite, if_pos hen] at hbits
  rw [hbits (Bool.or_eq_true _ _ ▸ .inl hspan)]
  exact PinRegs.bits_drivePins h64 hk

theorem Leaves.bits_of_disabled (h : Leaves d w s insn w') (hen : s.outEnabled insn = false)
    (hspan : spans (w.physPin d.1) s.outBase (clampPinCount s.outCount) pin = true)
    (hspares : s.sideSpares (w.physPin d.1) insn pin = true) : (w'.sm d.1 d.2.2).pins.bits pin =
      ⟨s.pins.outPinVal.getLsbD pin, false, false, false⟩ := by
  have hall : spans (w.physPin d.1) s.outBase s.outCount pin = true := by
    obtain ⟨k, hk, he⟩ := List.any_eq_true.mp hspan
    refine List.any_eq_true.mpr ⟨k, List.mem_range.mpr ?_, he⟩
    have hlt := List.mem_range.mp hk
    unfold clampPinCount at hlt
    split at hlt <;> omega
  have hbits := h.bits pin (lt_of_spans hspan) hspares
  rw [Sm.gatedWrite, if_neg (by rw [hen]; exact Bool.false_ne_true)] at hbits
  rw [hbits hall]
  exact PinRegs.bits_releaseOutPins hall

/-- Of the pads after a resolve: their drivers and masks, and what arbitration made of a pin. -/
theorem Leaves.arbitrated (h : Leaves d w s insn w') :
    (w'.pads d.1).drivers = (w.pads d.1).drivers ∧
    (w'.pads d.1).pioFuncMask = (w.pads d.1).pioFuncMask ∧
    (∀ pin, (w'.pads d.1).pinDirs.getLsbD pin = (w'.pads d.1).dirOf w'.sm pin) ∧
    ∀ pin, d ∈ (w.pads d.1).drivers → (w'.pads d.1).writesPin w'.sm pin d = true →
      ¬ w'.Outranked d pin →
      (w'.pads d.1).pinLevels.getLsbD pin = (w'.sm d.1 d.2.2).pins.outPinVal.getLsbD pin := by
  obtain ⟨p, hp, hview⟩ := h.pads
  obtain ⟨hmask, howners⟩ := Prod.mk.inj hview
  have hdrivers : (w'.pads d.1).drivers = p.drivers := by
    rw [hp]
    rfl
  refine ⟨hdrivers.trans (Pads.drivers_of_owners howners), by rw [hp]; exact hmask, fun pin => ?_,
    fun pin hd hwrites hnot => ?_⟩
  · rw [hp]
    exact p.getLsbD_resolvedDirs w'.sm pin
  · have hin : d ∈ p.drivers := Pads.drivers_of_owners howners ▸ hd
    rw [Outranked, hp] at hnot
    rw [hp] at hwrites ⊢
    refine (p.getLsbD_resolvedLevels w'.sm pin).trans
      (Pads.levelOf_of_unrivalled hin (.inl ⟨hwrites, ?_⟩) ?_)
    · intro e hsub hne
      by_contra he
      exact hnot ⟨e, hsub, hne, .inl (Bool.not_eq_false _ ▸ he)⟩
    · intro hfalse
      exact absurd (hwrites.symm.trans hfalse) Bool.noConfusion

/-- An output that the state machine claims and nobody outranks it on is an output of the PIO. -/
theorem Leaves.dir_of_claims (h : Leaves d w s insn w') (hd : d ∈ (w.pads d.1).drivers)
    (hclaims : (w'.pads d.1).claimsPin w'.sm pin d = true) (hnot : ¬ w'.Outranked d pin)
    (hoe : (w'.sm d.1 d.2.2).pins.outPinOe.getLsbD pin = true) :
    (w'.pads d.1).pinDirs.getLsbD pin = true := by
  obtain ⟨hdrivers, -, hdirs, -⟩ := h.arbitrated
  have hself : (fun e : Driver => (w'.sm e.1 e.2.2).enabled && (w'.pads d.1).claimsPin w'.sm pin e)
    d =
      true := Bool.and_eq_true _ _ ▸ ⟨h.enabled, hclaims⟩
  rw [hdirs, Pads.dirOf]
  cases hlast : LastWriter.last (fun e : Driver => (w'.sm e.1 e.2.2).enabled &&
      (w'.pads d.1).claimsPin w'.sm pin e) (w'.pads d.1).drivers with
  | none =>
    have hno := LastWriter.last_eq_none_iff.mp hlast d (hdrivers ▸ hd)
    exact absurd (hself.symm.trans hno) Bool.noConfusion
  | some e =>
    rw [Pads.dirOwner_of_last_enabled hlast, Option.elim_some]
    by_cases he : machine e = machine d
    · obtain ⟨hb, hi⟩ := Prod.mk.inj he
      rw [hb, hi, hoe]
    · exfalso
      have hclaim := Bool.and_eq_true _ _ ▸ LastWriter.claims_of_last hlast
      rcases LastWriter.sublist_of_last hlast (hdrivers ▸ hd) hself with rfl | hsub
      · exact he rfl
      · exact hnot ⟨e, hsub, he, .inr hclaim⟩

omit [Platform] in
theorem bit_claims {p : Pads} {sm : BlockAddr → Fin 4 → Sm}
    (hmask : (p.pioFuncMask d.2.1).getLsbD pin = true)
    (h : (sm d.1 d.2.2).pins.dirDriven.getLsbD pin = true) : p.claimsPin sm pin d = true := by
  rw [Pads.claimsPin, Pads.drivenBy, BitVec.getLsbD_and, h, hmask, Bool.true_and]

omit [Platform] in
theorem bit_writes {p : Pads} {sm : BlockAddr → Fin 4 → Sm}
    (hmask : (p.pioFuncMask d.2.1).getLsbD pin = true)
    (h : (sm d.1 d.2.2).pins.wroteThisCycle.getLsbD pin = true) : p.writesPin sm pin d = true := by
  rw [Pads.writesPin, Pads.writtenBy, BitVec.getLsbD_and, h, hmask, Bool.true_and]

/-- The step lemma: an OUT that finds its pins ready toggles them. -/
theorem OutReady.toggles {c : Call} (h : OutReady d w c) : Toggles d w c := by
  constructor
  · intro s insn hr hg hen pin k hk hnot
    have hleaves := leaves_step hr hg
    obtain ⟨hspares, hmarks⟩ := OutPins.of_spans h hr hg (spans_of_spanIndex hk)
    have hmark := hmarks hen hnot
    have hbits := hleaves.bits_of_enabled hen hk hspares
    obtain ⟨hoe, hdriven⟩ := dirs_of_runs hr
    obtain ⟨-, hmask, -, hlevels⟩ := hleaves.arbitrated
    have hrouted : (((w.step c).pads d.1).pioFuncMask d.2.1).getLsbD pin = true := by
      rw [hmask]
      exact hmark.routed
    have hclaimed : ((w.step c).sm d.1 d.2.2).pins.dirDriven.getLsbD pin = true := by
      refine (congrArg PinBits.driven hbits).trans ?_
      show s.pins.dirDriven.getLsbD pin = true
      rw [hdriven]
      exact hmark.claimed
    have houtput : ((w.step c).sm d.1 d.2.2).pins.outPinOe.getLsbD pin = true := by
      refine (congrArg PinBits.oe hbits).trans ?_
      show s.pins.outPinOe.getLsbD pin = true
      rw [hoe]
      exact hmark.oe
    refine ⟨hleaves.dir_of_claims hmark.driver (bit_claims hrouted hclaimed) hnot houtput, ?_⟩
    rw [hlevels pin hmark.driver (bit_writes hrouted (congrArg PinBits.wrote hbits)) hnot]
    exact congrArg PinBits.val hbits
  · intro s insn hr hg hen pin hspan hgoverns
    have hleaves := leaves_step hr hg
    have hbits := hleaves.bits_of_disabled hen hspan (OutPins.of_spans h hr hg hspan).1
    obtain ⟨e, he, howns⟩ := hgoverns
    obtain ⟨hb, hi⟩ := Prod.mk.inj he
    rcases howns with howns | howns
    · have hclaims := (Pads.dirOwner_isGreatest howns).holds
      rw [Pads.claimsPin, Pads.drivenBy, BitVec.getLsbD_and, Bool.and_eq_true, hb, hi] at hclaims
      exact absurd (hclaims.1.symm.trans (congrArg PinBits.driven hbits)) Bool.noConfusion
    · have hwrites := (Pads.levelWriter_isGreatest howns).holds
      rw [Pads.writesPin, Pads.writtenBy, BitVec.getLsbD_and, Bool.and_eq_true, hb, hi] at hwrites
      exact absurd (hwrites.1.symm.trans (congrArg PinBits.wrote hbits)) Bool.noConfusion

/-- A pin that the state machine does not mark as an output stays off under a set enable bit, unless
another one claims it. -/
theorem off_of_unmarked {c : Call} (hr : w.runs d c = some (s, insn)) (hg : s.Gates insn)
    (hen : s.outEnabled insn = true) {k : ℕ}
    (hk : spanIndex (w.physPin d.1) s.outBase s.outCount pin = some k)
    (hspares : s.sideSpares (w.physPin d.1) insn pin = true)
    (hoff : (w.sm d.1 d.2.2).pins.dirDriven.getLsbD pin = false ∨
      (w.sm d.1 d.2.2).pins.outPinOe.getLsbD pin = false)
    (hothers : ∀ e ∈ (w.pads d.1).drivers, machine e ≠ machine d →
      ((w.step c).pads d.1).claimsPin (w.step c).sm pin e = false) :
    ((w.step c).pads d.1).pinDirs.getLsbD pin = false := by
  have hleaves := leaves_step hr hg
  have hbits := hleaves.bits_of_enabled hen hk hspares
  obtain ⟨hoe, hdriven⟩ := dirs_of_runs hr
  obtain ⟨hdrivers, -, hdirs, -⟩ := hleaves.arbitrated
  rw [hdirs, Pads.dirOf]
  cases howner : ((w.step c).pads d.1).dirOwner (w.step c).sm pin with
  | none => rfl
  | some e =>
    have hgreatest := Pads.dirOwner_isGreatest howner
    have hmachine : machine e = machine d := by
      by_contra hne
      have hclaims := hothers e (hdrivers ▸ hgreatest.mem) hne
      exact absurd (hgreatest.holds.symm.trans hclaims) Bool.noConfusion
    obtain ⟨hb, hi⟩ := Prod.mk.inj hmachine
    rw [Option.elim_some, hb, hi]
    refine (congrArg PinBits.oe hbits).trans ?_
    show s.pins.outPinOe.getLsbD pin = false
    rw [hoe]
    rcases hoff with hoff | hoff
    · have hclaims := hgreatest.holds
      rw [Pads.claimsPin, Pads.drivenBy, BitVec.getLsbD_and, Bool.and_eq_true, hb, hi] at hclaims
      have hnot : ((w.step c).sm d.1 d.2.2).pins.dirDriven.getLsbD pin = false := by
        refine (congrArg PinBits.driven hbits).trans ?_
        show s.pins.dirDriven.getLsbD pin = false
        rw [hdriven, hoff]
      exact absurd (hclaims.1.symm.trans hnot) Bool.noConfusion
    · exact hoff

/-- Where nobody else claims the pins, an OUT only toggles those it finds ready. -/
theorem Toggles.ready {c : Call} (h : Toggles d w c) (halone : OutAlone d w c) :
    OutReady d w c := by
  intro x hx hg k hk
  have hspan : spans (w.physPin d.1) x.1.outBase (clampPinCount x.1.outCount)
      (w.physPin d.1 (u8 (x.1.outBase + k))) = true := spans_of_mem hk
  obtain ⟨hspares, hdriver, hrouted, hothers⟩ := halone x hx hg k hk
  refine ⟨hspares, fun hen hnot => ?_⟩
  obtain ⟨j, hj⟩ := exists_spanIndex hspan
  have hdriven := (h.drives x.1 x.2 hx hg hen _ j hj hnot).1
  refine ⟨hdriver, hrouted, ?_, ?_⟩
  · by_contra hoff
    have hdark := off_of_unmarked hx hg hen hj hspares (.inl (Bool.not_eq_true _ ▸ hoff)) hothers
    exact absurd (hdriven.symm.trans hdark) Bool.noConfusion
  · by_contra hoff
    have hdark := off_of_unmarked hx hg hen hj hspares (.inr (Bool.not_eq_true _ ▸ hoff)) hothers
    exact absurd (hdriven.symm.trans hdark) Bool.noConfusion

/-- In every run in which the words with the enable bit set find the OUT pins marked as outputs, and
no OUT side-sets its own pins, every OUT toggles its pins; and in every run an OUT whose pins nobody
else claims toggles them only if it finds them so. -/
theorem out_enable_toggles (w : World) (d : Driver) (calls : List Call) :
    (Run.Along step (OutReady d) w calls → Run.Along step (Toggles d) w calls) ∧
      Run.Along step (fun u c => OutAlone d u c → Toggles d u c → OutReady d u c) w calls :=
  ⟨fun h => h.mono fun _ _ => OutReady.toggles,
    Run.along_of_forall (fun _ _ halone h => h.ready halone) w calls⟩

/-- An OUT PINS of one data bit and its enable bit, looped, with words waiting in TX. -/
def toggleRun (words : List Word) : List Call :=
  [.smInit 0 0 0 { defaultSmConfig with
      outCount := 1, wrapTop := 0, outDir := .right, autopull := true, pullThresh :=
        2, outSticky := true
      outInlineEn := true, outEnSel := 1 },
    .block 0 (.load 0 [0x6002]), .setConsecutivePindirs 0 0 0 1 true] ++
  words.map (fun word => .sm 0 0 (.put word)) ++ [.setEnabled 0 0 true]

omit [Platform] in
/-- The theorem at a pin that a clear enable bit gave up and that was made an output again. -/
theorem out_enable_toggles_remarked :
    letI : Platform := ⟨.rp2350⟩
    Run.Along step (Toggles (0, 0, 0)) (initial.run (toggleRun [3, 1, 3]))
      [.tickSms 0, .tickSms 0, .setConsecutivePindirs 0 0 0 1 true, .tickSms 0] := by
  let P : Platform := ⟨.rp2350⟩
  refine (out_enable_toggles _ (0, 0, 0) _).1 ?_
  have hready :
    ∀ {u : World}
    {c : Call}, (∀ x ∈ u.runs (0, 0, 0) c, ∀ k ∈ List.range (clampPinCount x.1.outCount),
      x.1.sideSpares (u.physPin 0) x.2 (u.physPin 0 (u8 (x.1.outBase + k))) = true ∧
        (x.1.outEnabled x.2 = true → u.MarksOutput (0, 0, 0)
          (u.physPin 0 (u8 (x.1.outBase + k))))) →
      OutReady (0, 0, 0) u c :=
    fun h x hx _ k hk => ⟨(h x hx k hk).1, fun hen _ => (h x hx k hk).2 hen⟩
  refine ⟨hready ?_, hready ?_, hready ?_, hready ?_, trivial⟩
  · decide +kernel
  · decide +kernel
  · decide +kernel
  · decide +kernel

omit [Platform] in
/-- A word with the enable bit set, after one with the bit clear, does not drive the pin. -/
theorem reenabled_pin_stays_off :
    letI : Platform := ⟨.rp2350⟩
    ¬ Run.Along step (Toggles (0, 0, 0)) (initial.run (toggleRun [3, 1, 3]))
      [.tickSms 0, .tickSms 0, .tickSms 0] := by
  let P : Platform := ⟨.rp2350⟩
  rintro ⟨-, -, hthird, -⟩
  have hdriven := hthird.drives _ _ (by rfl) (by decide +kernel) (by decide +kernel) 0 0
    (by decide +kernel)
    ?_
  · exact absurd hdriven.1 (by decide +kernel)
  · rintro ⟨e, hsub, hne, hactive⟩
    have hquiet :
      ∀ e ∈ ((((initial.run (toggleRun [3, 1, 3])).step (.tickSms 0)).step (.tickSms 0)).step
        (.tickSms 0)).pads 0 |>.drivers, machine e ≠ (0, 0) →
        (((((initial.run (toggleRun [3, 1, 3])).step (.tickSms 0)).step (.tickSms 0)).step
          (.tickSms 0)).sm e.1 e.2.2).pins = PinRegs.none := by
      decide +kernel
    have hnone := hquiet e (hsub.subset (List.mem_cons_of_mem _ List.mem_cons_self)) hne
    simp only [Pads.writesPin, Pads.writtenBy, Pads.claimsPin, Pads.drivenBy, hnone] at hactive
    simp [PinRegs.none] at hactive

end World
end PioSim
