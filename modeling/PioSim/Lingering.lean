import PioSim.OutEnable

/-!
# Writes that linger

A write of a level competes until its block opens its next write window, and not only in the cycle
it was made in. A tick opens the window of one block and the host may write between two ticks, so a
forced write meets what the tick before has left: the pad keeps its level if, block by block, the
last of the writes that still stand agrees with it.
-/

namespace PioSim

variable [Platform]

namespace Pads

variable {p q : Pads} {sm sm' : BlockAddr → Fin 4 → Sm} {pin : ℕ} {v : Bool}

/-- The last state machine of the block, in scan order, whose write of the pin stands. -/
def blockWriter (sm : BlockAddr → Fin 4 → Sm) (p : Pads) (pin : ℕ) (b : BlockAddr) :
    Option Driver :=
  LastWriter.last (fun d => d.1 == b && p.writesPin sm pin d) p.drivers

/-- The pin has the level, and keeps it whichever of the blocks open their windows. -/
structure Settled (sm : BlockAddr → Fin 4 → Sm) (p : Pads) (pin : ℕ) (v : Bool) : Prop where
  level : p.pinLevels.getLsbD pin = v
  agree : ∀ b d, p.blockWriter sm pin b = some d → (sm d.1 d.2.2).pins.outPinVal.getLsbD pin = v

section
omit [Platform]

/-- The writer of the pin is the last one of its own block. -/
theorem blockWriter_of_levelWriter {d : Driver} (h : p.levelWriter sm pin = some d) :
    p.blockWriter sm pin d.1 = some d := by
  have hwrites : p.writesPin sm pin d = true := LastWriter.claims_of_last h
  refine LastWriter.last_of_imp h (fun e _ he => ?_) ?_
  · rw [Bool.and_eq_true] at he
    exact he.2
  · rw [hwrites, beq_self_eq_true, Bool.and_true]

theorem Settled.levelOf (h : p.Settled sm pin v) : p.levelOf sm pin = v := by
  rw [Pads.levelOf]
  cases hlast : p.levelWriter sm pin with
  | none => exact h.level
  | some d => exact h.agree d.1 d (blockWriter_of_levelWriter hlast)

theorem Settled.resolve (h : p.Settled sm pin v) : (p.resolve sm).Settled sm pin v where
  level := (p.getLsbD_resolvedLevels sm pin).trans h.levelOf
  agree := h.agree

/-- Each block's writes of the pin stay as they are, or none of them stands any more. -/
theorem Settled.of_blocks (h : p.Settled sm pin v)
    (hlevel : q.pinLevels.getLsbD pin = p.pinLevels.getLsbD pin)
    (hdrivers : q.drivers = p.drivers)
    (hblocks : ∀ b, (∀ d ∈ p.drivers, d.1 = b → q.writesPin sm' pin d = false) ∨
      ∀ d ∈ p.drivers, d.1 = b → q.writesPin sm' pin d = p.writesPin sm pin d ∧
        (p.writesPin sm pin d = true →
          (sm' d.1 d.2.2).pins.outPinVal.getLsbD pin = (sm d.1 d.2.2).pins.outPinVal.getLsbD pin)) :
    q.Settled sm' pin v := by
  refine ⟨hlevel.trans h.level, fun b d hd => ?_⟩
  rw [blockWriter, hdrivers] at hd
  have hmem : d ∈ p.drivers := LastWriter.mem_of_last hd
  have hclaims := Bool.and_eq_true _ _ ▸ LastWriter.claims_of_last hd
  rcases hblocks b with hnone | hsame
  · exact absurd hclaims.2
      (by rw [hnone d hmem (beq_iff_eq.mp hclaims.1)]; exact Bool.false_ne_true)
  · obtain ⟨hwrites, hval⟩ := hsame d hmem (beq_iff_eq.mp hclaims.1)
    rw [hval (hwrites ▸ hclaims.2)]
    refine h.agree b d ?_
    rw [blockWriter, ← hd]
    refine LastWriter.last_congr fun e he => ?_
    by_cases heb : e.1 = b
    · rw [(hsame e he heb).1]
    · rw [beq_eq_false_iff_ne.mpr heb, Bool.false_and, Bool.false_and]

end

end Pads

section
omit [Platform]

/-- A write that neither drives nor releases a pin leaves its level and whether that was written. -/
theorem PinWrite.level_apply {t : PinWrite} {phys : ℕ → ℕ} {value : Word} {r : PinRegs} {pin : ℕ}
    (hdrives : t.drives phys pin = false) (hreleases : t.releases phys pin = false) :
    (t.apply phys value r).outPinVal.getLsbD pin = r.outPinVal.getLsbD pin ∧
      (t.apply phys value r).wroteThisCycle.getLsbD pin = r.wroteThisCycle.getLsbD pin := by
  by_cases h64 : pin < 64
  · cases t with
    | dirs base count =>
      exact List.foldlRecOn
        (motive := fun q : PinRegs => q.outPinVal.getLsbD pin = r.outPinVal.getLsbD pin ∧
        q.wroteThisCycle.getLsbD pin = r.wroteThisCycle.getLsbD pin) _ _ ⟨rfl, rfl⟩
          fun q hq _ _ => hq
    | levels base count =>
      have hbits : ((levels base count).apply phys value r).bits pin = r.bits pin :=
        bits_apply h64 hdrives rfl hreleases
      exact ⟨congrArg PinBits.val hbits, congrArg PinBits.wrote hbits⟩
    | release base count =>
      have hbits : ((release base count).apply phys value r).bits pin = r.bits pin :=
        bits_apply h64 hdrives rfl hreleases
      exact ⟨congrArg PinBits.val hbits, congrArg PinBits.wrote hbits⟩
  · have hge : 64 ≤ pin := Nat.le_of_not_lt h64
    exact ⟨by rw [BitVec.getLsbD_of_ge _ _ hge, BitVec.getLsbD_of_ge _ _ hge],
      by rw [BitVec.getLsbD_of_ge _ _ hge, BitVec.getLsbD_of_ge _ _ hge]⟩

def PinWrite.levelAt (phys : ℕ → ℕ) (value : Word) (pin : ℕ) : PinWrite → Option Bool
  | .levels base count => (spanIndex phys base count pin).map fun k => value.getLsbD k
  | _ => none

theorem PinWrite.apply_levelAt {t : PinWrite} {phys : ℕ → ℕ} {value : Word} {r : PinRegs}
    {pin : ℕ} {l : Bool}
    (h64 : pin < 64) (h : t.levelAt phys value pin = some l) :
    (t.apply phys value r).outPinVal.getLsbD pin = l ∧
      (t.apply phys value r).wroteThisCycle.getLsbD pin = true := by
  cases t with
  | levels base count =>
    obtain ⟨k, hk, rfl⟩ := Option.map_eq_some_iff.mp h
    have hbits : ((levels base count).apply phys value r).bits pin =
        { r.bits pin with val := value.getLsbD k, wrote := true } := PinRegs.bits_drivePins h64 hk
    exact ⟨congrArg PinBits.val hbits, congrArg PinBits.wrote hbits⟩
  | dirs base count => cases h
  | release base count => cases h

theorem PinWrite.drives_of_levelAt {t : PinWrite} {phys : ℕ → ℕ} {value : Word} {pin : ℕ}
    (h : t.levelAt phys value pin = none) : t.drives phys pin = false := by
  cases t with
  | levels base count =>
    by_contra hdrives
    obtain ⟨k, hk⟩ := World.exists_spanIndex (Bool.not_eq_false _ ▸ hdrives)
    rw [levelAt, hk] at h
    cases h
  | dirs base count => rfl
  | release base count => rfl

end

namespace World

variable {u v v' w w' : World} {b c : BlockAddr} {i j : Fin 4} {r : PadRef} {pin : ℕ} {l : Bool}

/-! ### Calls that write nothing to the pin -/

/-- The instruction neither drives the pin nor gives it up. -/
def sparesLevel (w : World) (b : BlockAddr) (i : Fin 4) (insn : Insn) (pin : ℕ) : Prop :=
  (∀ t ∈ (w.sm b i).pinWrite insn, t.drives (w.physPin b) pin = false ∧
    t.releases (w.physPin b) pin = false) ∧
    ∀ t ∈ (w.sm b i).sideWrite insn, t.drives (w.physPin b) pin = false

/-- The state machine is a driver of the pads that the mux lets through to the pin. -/
def Reaches (w : World) (r : PadRef) (pin : ℕ) (b : BlockAddr) (i : Fin 4) : Prop :=
  ∃ d ∈ (w.padsAt r).drivers, machine d = (b, i) ∧
    ((w.padsAt r).pioFuncMask d.2.1).getLsbD pin = true

/-- In the call nobody writes the pin of these pads. Forced instructions do not give it up either,
it is not routed anew, and the pads are not reset. -/
def Spares (r : PadRef) (pin : ℕ) (w : World) : Call → Prop
  | .tickSms b => ∀ d ∈ (w.padsAt r).drivers, d.1 = b →
    (w.padsAt r).writesPin (w.tickSms b).sm pin d = false
  | .smExec b k insn => w.Reaches r pin b (smIdx k) → w.sparesLevel b (smIdx k) insn pin
  | .gpioSetFunction b k f =>
    ∀ o, (((w.gpioSetFunction b k f).padsAt r).pioFuncMask o).getLsbD pin =
      ((w.padsAt r).pioFuncMask o).getLsbD pin
  | .init b => r ≠ .embedded b
  | .groupInitShared g _ => r ≠ .shared g
  | _ => True

/-- The pads are settled on the level of the pin among the records of the world. -/
def Settled (w : World) (r : PadRef) (pin : ℕ) (l : Bool) : Prop := (w.padsAt r).Settled w.sm pin l

omit [Platform] in
theorem writesPin_eq (p : Pads) (sm : BlockAddr → Fin 4 → Sm) (pin : ℕ) (d : Driver) :
    p.writesPin sm pin d =
    ((sm d.1 d.2.2).pins.wroteThisCycle.getLsbD pin && (p.pioFuncMask d.2.1).getLsbD pin) := by
  rw [Pads.writesPin, Pads.writtenBy, BitVec.getLsbD_and]

omit [Platform] in
theorem Settled.sameLevels (hw : w.Settled r pin l) (h : SameLevels w v) : v.Settled r pin l := by
  obtain ⟨hlevels, hroute⟩ := Prod.mk.inj (h.pads r)
  obtain ⟨hmask, howners⟩ := Prod.mk.inj hroute
  refine Pads.Settled.of_blocks hw (congrArg (·.getLsbD pin) hlevels)
    (Pads.drivers_of_owners howners)
    fun b => .inr fun d _ _ => ?_
  obtain ⟨hval, hwrote⟩ := Prod.mk.inj (h.sm d.1 d.2.2)
  refine ⟨?_, fun _ => congrArg (·.getLsbD pin) hval⟩
  rw [writesPin_eq, writesPin_eq, hmask, hwrote]

theorem Settled.resolvePads (hw : w.Settled r pin l) (b : BlockAddr) :
    (w.resolvePads b).Settled r pin l := by
  rw [Settled, padsAt_resolvePads, sm_resolvePads]
  split
  · exact Pads.Settled.resolve hw
  · exact hw

theorem Settled.resolve_of_sameLevels (hw : w.Settled r pin l) (h : SameLevels w v)
    (b : BlockAddr) :
    (v.resolvePads b).Settled r pin l := (hw.sameLevels h).resolvePads b

omit [Platform] in
/-- The records of one block lose their writes of the pin, the others stay. -/
theorem Settled.of_cleared (hw : w.Settled r pin l)
    (hpads : (v.padsAt r).pinLevels = (w.padsAt r).pinLevels)
    (hmask : (v.padsAt r).pioFuncMask = (w.padsAt r).pioFuncMask)
    (howners : (v.padsAt r).owners = (w.padsAt r).owners)
    (hclear : ∀ d ∈ (w.padsAt r).drivers, d.1 = b → (w.padsAt r).writesPin v.sm pin d = false)
    (hsm : ∀ c, c ≠ b → ∀ i, v.sm c i = w.sm c i) : v.Settled r pin l := by
  refine Pads.Settled.of_blocks hw (congrArg (·.getLsbD pin) hpads)
    (Pads.drivers_of_owners howners) fun c => ?_
  by_cases hc : c = b
  · refine .inl fun d hd hdc => ?_
    rw [writesPin_eq, hmask, ← writesPin_eq]
    exact hclear d hd (hdc.trans hc)
  · refine .inr fun d _ hdc => ?_
    rw [writesPin_eq, writesPin_eq, hmask, hsm d.1 (hdc ▸ hc)]
    exact ⟨rfl, fun _ => rfl⟩

omit [Platform] in
theorem Settled.openWindow (hw : w.Settled r pin l) (b : BlockAddr) :
    (w.openWindow b).Settled r pin l := by
  have hpads : (w.openWindow b).padsAt = w.padsAt :=
    openWindow_induction (P := fun v : World => v.padsAt = w.padsAt)
      (fun v i hv => by rw [padsAt_modifySm]; exact hv) rfl
  refine hw.of_cleared (b := b) (by rw [hpads]) (by rw [hpads]) (by rw [hpads]) (fun d _ hd => ?_)
    fun c hc i => by rw [sm_openWindow, if_neg hc]
  have hopened : ∀ s : Sm, s.openWindow.pins.wroteThisCycle = 0 := fun _ => rfl
  rw [writesPin_eq, sm_openWindow, if_pos hd, hopened]
  exact Bool.and_eq_false_imp.mpr fun h => absurd h (by simp)

theorem Settled.tickSms (hw : w.Settled r pin l) (h : w.Spares r pin (.tickSms b)) :
    (w.tickSms b).Settled r pin l := by
  have hmid : (w.padsAt r).Settled (w.tickSms b).sm pin l := by
    refine Pads.Settled.of_blocks hw rfl rfl fun c => ?_
    by_cases hc : c = b
    · exact .inl fun d hd hdc => h d hd (hdc.trans hc)
    · refine .inr fun d _ hdc => ?_
      rw [writesPin_eq, writesPin_eq, sm_tickSms_of_ne w (hdc ▸ hc)]
      exact ⟨rfl, fun _ => rfl⟩
  rw [Settled, (padsAt_tickSms w b).2]
  split
  · exact hmid.resolve
  · exact hmid

omit [Platform] in
theorem Settled.pioSimInit (hw : w.Settled r pin l) (h : r ≠ .embedded b) :
    (w.pioSimInit b).Settled r pin l := by
  have hpads : (w.pioSimInit b).padsAt r = w.padsAt r := by
    cases r with
    | embedded c =>
      have hc : c ≠ b := fun he => h (by rw [he])
      simp [padsAt, World.pioSimInit, World.setBlock, Function.update_of_ne hc]
    | shared g => rfl
  refine hw.of_cleared (b := b) (by rw [hpads]) (by rw [hpads]) (by rw [hpads]) (fun d _ hd => ?_)
    fun c hc i => by rw [sm_pioSimInit, if_neg hc]
  have hinitial : Sm.initial.pins.wroteThisCycle = 0 := by rfl
  rw [writesPin_eq, sm_pioSimInit, if_pos hd, hinitial]
  exact Bool.and_eq_false_imp.mpr fun h => absurd h (by simp)

theorem Settled.groupInitShared {g : GroupAddr} (hw : w.Settled r pin l) (h : r ≠ .shared g)
    (blocks : List BlockAddr) : (w.groupInitShared g blocks).Settled r pin l := by
  have hfold := (foldl_setPadRef g (blocks.take numPio) ((w.groupInit g blocks).setGroup g
    { (w.groupInit g blocks).groups g with
      shared := true, pads := Pads.initDefaults (blocks.take numPio) })).2.1
  have hpads : (w.groupInitShared g blocks).padsAt r = (w.groupInit g blocks).padsAt r := by
    refine (congrFun hfold r).trans ?_
    cases r with
    | embedded c => rfl
    | shared g' =>
      have hg : g' ≠ g := fun he => h (by rw [he])
      simp [padsAt, World.setGroup, Function.update_of_ne hg]
  have hinit := hw.sameLevels (sameLevels_groupInit w g blocks)
  rw [Settled, sm_groupInit] at hinit
  rw [Settled, hpads, sm_groupInitShared]
  exact hinit

/-! ### Forced instructions -/

theorem route_putPins (phys : ℕ → ℕ) (value : Word) (t : Option PinWrite) (r : PadRef) :
    ((v.putPins b i phys value t).padsAt r).levelView.2 = (v.padsAt r).levelView.2 := by
  cases t with
  | none => rfl
  | some t =>
    rw [World.putPins, Option.elim_some, World.setPins, padsAt_resolvePads, padsAt_modifySm]
    split <;> rfl

omit [Platform] in
theorem Reaches.of_route (h : v.Reaches r pin b i)
    (hroute : (v.padsAt r).levelView.2 = (w.padsAt r).levelView.2) :
    w.Reaches r pin b i := by
  obtain ⟨hmask, howners⟩ := Prod.mk.inj hroute
  rw [Reaches, ← hmask, ← Pads.drivers_of_owners howners]
  exact h

/-- A write of the pin registers that leaves the pin alone, or that the mux keeps from it. -/
theorem Settled.putPins {phys : ℕ → ℕ} {value : Word} {t : Option PinWrite} (hv : v.Settled r pin l)
    (h : v.Reaches r pin b i → ∀ x ∈ t, x.drives phys pin = false ∧ x.releases phys pin = false) :
    (v.putPins b i phys value t).Settled r pin l := by
  cases t with
  | none => exact hv
  | some t =>
    rw [World.putPins, Option.elim_some, World.setPins]
    refine Settled.resolvePads
      (Pads.Settled.of_blocks hv (by rw [padsAt_modifySm]) (by rw [padsAt_modifySm])
      fun c => .inr fun d hd _ => ?_) b
    rw [writesPin_eq, writesPin_eq, padsAt_modifySm, World.modifySm, sm_setSm]
    split
    · rename_i hself
      obtain ⟨hb, hi⟩ := Prod.mk.inj hself
      rw [hb, hi]
      cases hmask : ((v.padsAt r).pioFuncMask d.2.1).getLsbD pin with
      | false => exact ⟨by rw [Bool.and_false, Bool.and_false], fun hset => absurd hset (by simp)⟩
      | true =>
        obtain ⟨hdrives, hreleases⟩ := h ⟨d, hd, hself, hmask⟩ t rfl
        obtain ⟨hval, hwrote⟩ := PinWrite.level_apply hdrives hreleases
        exact ⟨congrArg (· && true) hwrote, fun _ => hval⟩
    · exact ⟨rfl, fun _ => rfl⟩

/-- The data an instruction writes to the levels of its pins. -/
def pinsData (w : World) (b : BlockAddr) (i : Fin 4) (insn : Insn) : Word :=
  match opcode insn with
  | 3 => (w.sm b i).outData insn
  | 5 => w.movValue b i (operandOf insn)
  | _ => BitVec.ofNat 32 (operandOf insn % 32)

theorem outStore_levels {dest : ℕ} {val : Word} {base count n : ℕ}
    (h : (w.sm b i).outWrite val dest = some (.levels base n)) :
    (w.outStore b i dest val count).1 = w.putPins b i (w.physPin b) val
      (some (.levels base n)) := by
  match dest with
  | 0 =>
    by_cases hen : (!(w.sm b i).outInlineEn || val.getLsbD (w.sm b i).outEnSel) = true
    · have hwrite : (w.sm b i).outWrite val 0 =
          some (.levels (w.sm b i).outBase (w.sm b i).outCount) :=
        if_pos hen
      obtain ⟨rfl, rfl⟩ := PinWrite.levels.inj (Option.some.inj (hwrite.symm.trans h))
      exact congrArg Prod.fst (if_pos hen)
    · have hwrite : (w.sm b i).outWrite val 0 = if (w.sm b i).outSticky then
          some (.release (w.sm b i).outBase (w.sm b i).outCount) else none := if_neg hen
      rw [hwrite] at h
      split at h <;> cases h
  | 4 => cases h
  | 1 | 2 | 3 | 5 | 6 | 7 => cases h
  | _ + 8 => cases h

theorem execOut_levels {operand base n : ℕ} (h : (if (w.sm b i).outStalls then none
      else (w.sm b i).outWrite ((w.sm b i).outValue (shiftCount operand)) (operand / 32 % 8)) =
        some (.levels base n)) :
    ∃ v, RegSteps b i w v ∧ (w.execOut b i operand).world =
      v.putPins b i (w.physPin b) ((w.sm b i).outValue (shiftCount operand))
      (some (.levels base n)) := by
  by_cases hstalls : (w.sm b i).outStalls = true
  · rw [if_pos hstalls] at h
    cases h
  · rw [if_neg hstalls] at h
    have hphys : (w.setSm b i ((w.sm b i).outShift (shiftCount operand))).physPin b = w.physPin b :=
      physPin_of_shell (shell_setSm b i _) b
    refine ⟨w.setSm b i ((w.sm b i).outShift (shiftCount operand)),
      .single (.sm w _ (Sm.outShift_effect _ _)), ?_⟩
    rw [execOut, if_neg hstalls, ← hphys]
    exact outStore_levels (by rw [sm_setSm_self]; exact h)

theorem execMov_levels {operand base n : ℕ} (h : (match operand / 32 % 8 with
      | 0 => some (.levels (w.sm b i).outBase (w.sm b i).outCount)
      | 3 => if hasMovPindirs then some (.dirs (w.sm b i).outBase (w.sm b i).outCount) else none
      | _ => none) = some (PinWrite.levels base n)) :
    (w.execMov b i operand).world =
      w.putPins b i (w.physPin b) (w.movValue b i operand) (some (.levels base n)) := by
  unfold execMov
  dsimp only
  generalize operand / 32 % 8 = dest at h
  match dest with
  | 0 =>
    obtain ⟨rfl, rfl⟩ := PinWrite.levels.inj (Option.some.inj h)
    rfl
  | 3 =>
    revert h
    split_ifs <;> exact fun h => nomatch h
  | 1 | 2 | 4 | 5 | 6 => cases h
  | _ + 7 => cases h

theorem execSet_levels {operand base n : ℕ} (h : (match operand / 32 % 8 with
      | 0 => some (.levels (w.sm b i).setBase (w.sm b i).setCount)
      | 4 => some (.dirs (w.sm b i).setBase (w.sm b i).setCount)
      | _ => none) = some (PinWrite.levels base n)) :
    w.execSet b i operand =
      w.putPins b i (w.physPin b) (BitVec.ofNat 32 (operand % 32)) (some (.levels base n)) := by
  unfold execSet
  dsimp only
  generalize operand / 32 % 8 = dest at h
  match dest with
  | 0 =>
    obtain ⟨rfl, rfl⟩ := PinWrite.levels.inj (Option.some.inj h)
    rfl
  | 1 | 2 | 3 | 4 => cases h
  | _ + 5 => cases h

/-- An instruction that writes levels writes its own data. -/
theorem execInsn_levels {insn : Insn} {base n : ℕ}
    (h : (w.sm b i).pinWrite insn = some (.levels base n)) :
    ∃ v, RegSteps b i w v ∧ (w.execInsn b i insn).world =
      v.putPins b i (w.physPin b) (w.pinsData b i insn) (some (.levels base n)) := by
  unfold Sm.pinWrite at h
  unfold execInsn pinsData
  dsimp only at h ⊢
  generalize opcode insn = op at h ⊢
  match op with
  | 0 | 1 | 2 | 4 | 6 => cases h
  | 3 => exact execOut_levels h
  | 5 => exact ⟨w, .refl, execMov_levels h⟩
  | _ + 7 => exact ⟨w, .refl, execSet_levels h⟩

/-- An instruction puts its data on the levels it writes, then its side-set. -/
theorem execOne_puts (w : World) (b : BlockAddr) (i : Fin 4) (insn : Insn) :
    ∃ v value, RegSteps b i w v ∧ (w.execOne b i insn).world =
      (v.putPins b i (w.physPin b) value ((w.sm b i).pinWrite insn)).putPins b i (w.physPin b)
        ((w.sm b i).decodeDelaySideset (delayField insn)).sideVal ((w.sm b i).sideWrite insn) ∧
      ∀ base n, (w.sm b i).pinWrite insn = some (.levels base n) → value = w.pinsData b i insn := by
  have hshape := execInsn_shape w b i insn
  have hside := applySideset_eq (u := (w.execInsn b i insn).world) insn hshape.control
  rw [physPin_of_shell hshape.local.shell b] at hside
  by_cases hlevels : ∃ base n, (w.sm b i).pinWrite insn = some (.levels base n)
  · obtain ⟨base, n, hwrite⟩ := hlevels
    obtain ⟨v, hv, he⟩ := execInsn_levels hwrite
    exact ⟨v, w.pinsData b i insn, hv, by rw [hwrite, ← he, ← hside]; rfl, fun _ _ _ => rfl⟩
  · obtain ⟨v, value, hv, he⟩ := execInsn_writes w b i insn
    exact ⟨v, value, hv,
      by rw [← he, ← hside]; rfl, fun base n hwrite => (hlevels ⟨base, n, hwrite⟩).elim⟩

theorem movValue_modifySm {f : Sm → Sm} (hf : ∀ s : Sm, ∃ e : Garb, f s = s.dress e) (operand : ℕ) :
    (w.modifySm b i f).movValue b i operand = w.movValue b i operand := by
  refine movValue_sameView (A := fun _ _ => True)
    ⟨?_, irqs_modifySm b i f, shell_modifySm b i f⟩ ?_ operand
  · funext pin
    rw [inputLevel, inputLevel, World.pads, padRef_modifySm, padsAt_modifySm]
    rfl
  · obtain ⟨e, he⟩ := hf (w.sm b i)
    exact ⟨e, by rw [sm_modifySm_self, he], trivial⟩

/-- Between the worlds nothing happened that pads see. -/
structure SamePads (w w' : World) : Prop where
  padRef : w'.padRef = w.padRef
  padsAt : w'.padsAt = w.padsAt
  pins : ∀ c i, (w'.sm c i).pins = (w.sm c i).pins
  enabled : ∀ c i, (w'.sm c i).enabled = (w.sm c i).enabled

omit [Platform] in
theorem SamePads.refl (w : World) : SamePads w w := ⟨rfl, rfl, fun _ _ => rfl, fun _ _ => rfl⟩

omit [Platform] in
theorem SamePads.modifySm {f : Sm → Sm} (h : SamePads w v)
    (hf : ∀ s, (f s).pins = s.pins ∧ (f s).enabled = s.enabled) :
    SamePads w (v.modifySm b i f) := by
  have hsm : ∀ c j, ((v.modifySm b i f).sm c j).pins = (v.sm c j).pins ∧
      ((v.modifySm b i f).sm c j).enabled = (v.sm c j).enabled := by
    intro c j
    rw [World.modifySm, sm_setSm]
    split
    · rename_i he
      obtain ⟨rfl, rfl⟩ := Prod.mk.inj he
      exact hf _
    · exact ⟨rfl, rfl⟩
  exact ⟨(padRef_modifySm b i f).trans h.padRef, (padsAt_modifySm b i f).trans h.padsAt,
    fun c j => (hsm c j).1.trans (h.pins c j), fun c j => (hsm c j).2.trans (h.enabled c j)⟩

theorem SamePads.regSteps (h : SamePads w v) (hsteps : RegSteps b i v v') : SamePads w v' := by
  induction hsteps with
  | refl => exact h
  | tail _ hs ih =>
    cases hs with
    | sm t he =>
      obtain ⟨hcontrol, hpins⟩ := he.keeps
      rename_i u _
      have hsm : ∀ c j, ((u.setSm b i t).sm c j).pins = (u.sm c j).pins ∧
          ((u.setSm b i t).sm c j).enabled = (u.sm c j).enabled := by
        intro c j
        rw [sm_setSm]
        split
        · rename_i he
          obtain ⟨rfl, rfl⟩ := Prod.mk.inj he
          exact ⟨hpins, congrArg (fun x : SmConfig × Bool × _ => x.2.1) hcontrol⟩
        · exact ⟨rfl, rfl⟩
      exact ⟨(padRef_setSm b i t).trans ih.padRef, (padsAt_setSm b i t).trans ih.padsAt,
        fun c j => (hsm c j).1.trans (ih.pins c j), fun c j => (hsm c j).2.trans (ih.enabled c j)⟩
    | irq c x =>
      exact ⟨(padRef_setIrq c x).trans ih.padRef, (padsAt_setIrq c x).trans ih.padsAt,
        fun d j => (congrArg (fun s => (s d j).pins) (sm_setIrq c x)).trans (ih.pins d j),
        fun d j => (congrArg (fun s => (s d j).enabled) (sm_setIrq c x)).trans (ih.enabled d j)⟩

omit [Platform] in
theorem SamePads.sameLevels (h : SamePads w v) : SameLevels w v :=
  ⟨h.padRef, fun r => by rw [h.padsAt], fun c i => by rw [Sm.levelView, h.pins, Sm.levelView]⟩

/-- A forced instruction, whether it commits or stalls, puts its data and its side-set. -/
theorem smExec_puts (w : World) (b : BlockAddr) (i : Fin 4) (insn : Insn) :
    ∃ v value, SamePads w v ∧
      SamePads ((v.putPins b i (w.physPin b) value ((w.sm b i).pinWrite insn)).putPins b i
        (w.physPin b) ((w.sm b i).decodeDelaySideset (delayField insn)).sideVal
        ((w.sm b i).sideWrite insn)) (w.smExec b i insn) ∧
      ∀ base n, (w.sm b i).pinWrite insn = some (.levels base n) → value = w.pinsData b i insn := by
  obtain ⟨v, value, hv, hone, hvalue⟩ :=
    execOne_puts (w.modifySm b i fun s => { s with stalled := false }) b i insn
  have hphys : (w.modifySm b i fun s => { s with stalled := false }).physPin b = w.physPin b :=
    physPin_of_shell (shell_modifySm b i _) b
  have hmov : ∀ operand, (w.modifySm b i fun s => { s with stalled := false }).movValue
    b i operand =
      w.movValue b i operand :=
    movValue_modifySm fun s => ⟨{ s.garb with stalled := false }, rfl⟩
  have hdata : (w.modifySm b i fun s => { s with stalled := false }).pinsData b i insn =
      w.pinsData b i insn := by
    unfold pinsData
    rw [hmov, sm_modifySm_self]
    rfl
  rw [hphys, sm_modifySm_self] at hone
  rw [sm_modifySm_self, hdata] at hvalue
  have hstart : SamePads w (w.modifySm b i fun s => { s with stalled := false }) :=
    (SamePads.refl w).modifySm fun _ => ⟨rfl, rfl⟩
  refine ⟨v, value, hstart.regSteps hv, ?_, hvalue⟩
  have hend : SamePads
    ((w.modifySm b i fun s => { s with stalled := false }).execOne b i insn).world
      (w.smExec b i insn) := by
    rw [smExec]
    split
    · exact (SamePads.refl _).modifySm fun _ => ⟨rfl, rfl⟩
    · exact (SamePads.refl _).modifySm fun _ => ⟨rfl, rfl⟩
  rw [hone] at hend
  exact hend

theorem Settled.smExec {k : ℕ} {insn : Insn} (hw : w.Settled r pin l)
    (h : w.Spares r pin (.smExec b k insn)) :
    (w.smExec b (smIdx k) insn).Settled r pin l := by
  obtain ⟨v, value, hsame, hlast, -⟩ := smExec_puts w b (smIdx k) insn
  have hv := hsame.sameLevels
  have hend := hlast.sameLevels
  have hroute : (v.padsAt r).levelView.2 = (w.padsAt r).levelView.2 := congrArg Prod.snd (hv.pads r)
  have hfirst :
      (v.putPins b (smIdx k) (w.physPin b) value ((w.sm b (smIdx k)).pinWrite insn)).Settled r
      pin l :=
    (hw.sameLevels hv).putPins fun hreach => (h (hreach.of_route hroute)).1
  refine (hfirst.putPins fun hreach t ht => ⟨?_, ?_⟩).sameLevels hend
  · exact (h (hreach.of_route ((route_putPins _ _ _ r).trans hroute))).2 t ht
  · exact Sm.sideWrite_releases ht _ _

/-! ### Runs -/

theorem Settled.gpioSetFunction {k f : ℕ} (hw : w.Settled r pin l)
    (h : w.Spares r pin (.gpioSetFunction b k f)) :
    (w.gpioSetFunction b k f).Settled r pin l := by
  have hsm : (w.gpioSetFunction b k f).sm = w.sm := sm_modifyPads b _
  by_cases href : r = w.padRef b
  · subst href
    obtain ⟨p, hp, hlevels⟩ := Pads.gpioSetFunction_eq w.sm (w.pads b) k f
    have hpads : (w.gpioSetFunction b k f).padsAt (w.padRef b) = p.resolve w.sm := by
      rw [World.gpioSetFunction, modifyPads, padsAt_setPads_self, hp]
    have howners : ((w.gpioSetFunction b k f).padsAt (w.padRef b)).owners =
        (w.padsAt (w.padRef b)).owners := by
      rw [World.gpioSetFunction, modifyPads, padsAt_setPads_self]
      rfl
    rw [Settled, hsm, hpads]
    refine Pads.Settled.resolve (Pads.Settled.of_blocks hw (by rw [hlevels]; rfl)
      (Pads.drivers_of_owners (by rw [hpads] at howners; exact howners)) fun c =>
        .inr fun d _ _ => ?_)
    have hmask := h d.2.1
    rw [hpads] at hmask
    refine ⟨?_, fun _ => rfl⟩
    rw [writesPin_eq, writesPin_eq]
    exact congrArg _ hmask
  · have hpads : (w.gpioSetFunction b k f).padsAt r = w.padsAt r := padsAt_setPads_of_ne href _
    rw [Settled, hsm, hpads]
    exact hw

/-- A call that spares the pin leaves it settled. -/
theorem settled_step {c : Call} (h : Spares r pin w c) (hw : w.Settled r pin l) :
    (w.step c).Settled r pin l := by
  cases c with
  | sm b k op =>
    have hsame : SameLevels w (w.modifySm b (smIdx k) fun t => op.apply t) :=
      (SameLevels.refl w).modifySm (by rw [Sm.levelView, SmOp.pins_apply, Sm.levelView])
    exact hw.sameLevels hsame
  | block b op => exact hw.sameLevels (sameLevels_blockOp w b op)
  | pad b op =>
    have hsame : SameLevels w (w.modifyPads b fun p => op.apply p) :=
      (SameLevels.refl w).setPads (PadOp.levelView_apply (w.pads b) op)
    exact hw.sameLevels hsame
  | init b => exact hw.pioSimInit h
  | setEnabled b k enabled => exact hw.resolve_of_sameLevels ((SameLevels.refl w).modifySm rfl) b
  | setSmMaskEnabled b mask enabled =>
      exact hw.resolve_of_sameLevels (sameLevels_setEnables w b mask enabled) b
  | clkdivRestartSmMask b mask => exact hw.sameLevels (sameLevels_clkdivRestartSmMask w b mask)
  | enableSmMaskInSync b mask =>
    exact (hw.resolve_of_sameLevels (sameLevels_setEnables w b mask true) b).sameLevels
      (sameLevels_clkdivRestartSmMask _ b mask)
  | setConsecutivePindirs b k base count isOut =>
    refine hw.resolve_of_sameLevels ((SameLevels.refl w).modifySm ?_) b
    exact List.foldlRecOn (motive := fun r : PinRegs => (r.outPinVal, r.wroteThisCycle) =
      (w.sm b (smIdx k)).levelView) _ _ rfl fun r hr _ _ => hr
  | smInit b k pc cfg => exact hw.sameLevels (sameLevels_smInit w b (smIdx k) pc cfg)
  | smExec b k insn => exact hw.smExec h
  | gpioSetFunction b k f => exact hw.gpioSetFunction h
  | groupInit g blocks => exact hw.sameLevels (sameLevels_groupInit w g blocks)
  | groupInitShared g blocks => exact hw.groupInitShared h blocks
  | loadProgram b k offset prog =>
    rcases w.loadProgram_cases b (smIdx k) offset prog with he | ⟨words, -, he⟩
    · rw [step, he]
      exact hw
    · rw [step, he]
      exact hw.sameLevels ((sameLevels_blockOp w b (.load offset words)).modifySm rfl)
  | tickSms b => exact hw.tickSms h
  | tickEnd b => exact hw.sameLevels (sameLevels_tickEnd w b)
  | groupOpen g =>
    exact List.foldlRecOn (motive := fun v : World => v.Settled r pin l) _ _ hw fun v hv b _ =>
      hv.openWindow b
  | groupEnd g =>
    rw [step, groupEnd]
    split
    · exact hw.sameLevels ((SameLevels.refl w).setPads rfl)
    · exact hw

theorem settled_run {cs : List Call} (hw : w.Settled r pin l)
    (h : Run.Along step (Spares r pin) w cs) :
    (w.run cs).Settled r pin l :=
  Run.invariant (I := fun w : World => w.Settled r pin l) (fun _ _ hv hc => settled_step hc hv) hw h

/-! ### Windows opened one by one -/

/-- A tick of a block whose state machines have been disabled. -/
def parkedTick (b : BlockAddr) : List Call :=
  [.setSmMaskEnabled b 0x0F false, .tickSms b, .tickEnd b]

/-- From `w` to `w'` the blocks `cs` have opened their windows, and nothing else happened to
levels. -/
structure Opens (cs : List BlockAddr) (w w' : World) : Prop where
  padRef : w'.padRef = w.padRef
  route : ∀ r, (w'.padsAt r).levelView.2 = (w.padsAt r).levelView.2
  opened : ∀ c ∈ cs, ∀ i, (w'.sm c i).pins.wroteThisCycle = 0
  others : ∀ c, c ∉ cs → ∀ i, (w'.sm c i).levelView = (w.sm c i).levelView

theorem sm_setSmMaskEnabled_all (w : World) (b c : BlockAddr) (i : Fin 4) (enabled : Bool) :
    (w.setSmMaskEnabled b 0x0F enabled).sm c i =
      if c = b then { w.sm c i with enabled := enabled } else w.sm c i := by
  have hall : ∀ j : Fin 4, (0x0F : BitVec 8).getLsbD j = true := by decide
  have hloop : (fun (v : World) (j : Fin 4) => if (0x0F : BitVec 8).getLsbD j then
      v.modifySm b j fun s => { s with enabled := enabled } else v) =
        fun v j => v.modifySm b j fun s => { s with enabled := enabled } := by
    funext v j
    exact if_pos (hall j)
  rw [setSmMaskEnabled, sm_resolvePads, hloop]
  split
  · rename_i hc
    subst hc
    exact sm_foldl_modifySm_of_mem (List.nodup_finRange 4) (List.mem_finRange i) _ w
  · rename_i hc
    refine List.foldlRecOn (motive := fun v : World => v.sm c i = w.sm c i) _ _ rfl ?_
    exact fun v hv j _ => (sm_modifySm_of_ne (fun he => hc (Prod.mk.inj he).1) _).trans hv

/-- A tick of disabled state machines opens their windows and writes nothing. -/
theorem wrote_parkedTick (w : World) (b : BlockAddr) (i : Fin 4) :
    (((w.setSmMaskEnabled b 0x0F false).tickSms b).sm b i).pins.wroteThisCycle = 0 := by
  have hdue : (w.setSmMaskEnabled b 0x0F false).due b i = false := by
    rw [due, sm_setSmMaskEnabled_all, if_pos rfl, Bool.false_and]
  obtain ⟨n, hn⟩ := sm_tickSms_of_not_due hdue
  rw [hn]
  rfl

theorem opens_parkedTick (w : World) (b : BlockAddr) : Opens [b] w (w.run (parkedTick b)) := by
  obtain ⟨v, hv⟩ : ∃ v, w.setSmMaskEnabled b 0x0F false = v := ⟨_, rfl⟩
  have hrun : w.run (parkedTick b) = (v.tickSms b).tickEnd b := by
    rw [← hv]
    rfl
  have hmask := sameLevels_setEnables w b 0x0F false
  have hend := sameLevels_tickEnd (v.tickSms b) b
  obtain ⟨href, hpads⟩ := padsAt_tickSms v b
  have hvref : v.padRef = w.padRef := by
    rw [← hv, setSmMaskEnabled, padRef_resolvePads, hmask.padRef]
  have hvroute : ∀ r, (v.padsAt r).levelView.2 = (w.padsAt r).levelView.2 := by
    intro r
    rw [← hmask.pads r, ← hv, setSmMaskEnabled, padsAt_resolvePads]
    split <;> rfl
  rw [hrun]
  refine ⟨hend.padRef.trans (href.trans hvref), fun r => ?_, fun c hc i => ?_, fun c hc i => ?_⟩
  · rw [hend.pads r, ← hvroute r, hpads]
    split <;> rfl
  · obtain rfl := List.mem_singleton.mp hc
    rw [hend.wrote, ← hv]
    exact wrote_parkedTick w c i
  · have hne : c ≠ b := fun he => hc (List.mem_singleton.mpr he)
    rw [hend.sm c i, sm_tickSms_of_ne v hne, ← hv, sm_setSmMaskEnabled_all, if_neg hne]

theorem opens_parkedTicks (cs : List BlockAddr) (w : World) :
    Opens cs w (w.run (cs.flatMap parkedTick)) := by
  induction cs generalizing w with
  | nil => exact ⟨rfl, fun _ => rfl, fun c hc => (List.not_mem_nil hc).elim, fun _ _ _ => rfl⟩
  | cons b cs ih =>
    have hhead := opens_parkedTick w b
    have htail := ih (w.run (parkedTick b))
    rw [List.flatMap_cons, run_append]
    refine ⟨htail.padRef.trans hhead.padRef, fun r => (htail.route r).trans (hhead.route r),
      fun c hc i => ?_, fun c hc i => ?_⟩
    · by_cases hlater : c ∈ cs
      · exact htail.opened c hlater i
      · have hcb : c ∈ [b] := List.mem_singleton.mpr ((List.mem_cons.mp hc).resolve_right hlater)
        exact (congrArg Prod.snd (htail.others c hlater i)).trans (hhead.opened c hcb i)
    · rw [List.mem_cons, not_or] at hc
      exact (htail.others c hc.2 i).trans
        (hhead.others c (fun he => hc.1 (List.mem_singleton.mp he)) i)

theorem spares_parkedTicks (cs : List BlockAddr) (w : World) (r : PadRef) (pin : ℕ) :
    Run.Along step (Spares r pin) w (cs.flatMap parkedTick) := by
  induction cs generalizing w with
  | nil => trivial
  | cons b cs ih =>
    rw [List.flatMap_cons, Run.along_append]
    refine ⟨⟨trivial, fun d _ hd => ?_, trivial, trivial⟩, ih _⟩
    have hopened :
        (((w.step (.setSmMaskEnabled b 0x0F false)).tickSms b).sm d.1 d.2.2).pins.wroteThisCycle =
        0 := by
      rw [hd]
      exact wrote_parkedTick w b d.2.2
    rw [writesPin_eq, hopened]
    exact Bool.and_eq_false_imp.mpr fun h => absurd h (by simp)

/-- A pin is settled on a level when and only when it keeps it for as long as nobody writes it. -/
theorem settled_iff (w : World) (b : BlockAddr) (pin : ℕ) (l : Bool) :
    w.Settled (w.padRef b) pin l ↔
    ∀ cs, Run.Along step (Spares (w.padRef b) pin) w cs →
      ((w.run cs).padsAt (w.padRef b)).pinLevels.getLsbD pin = l := by
  refine ⟨fun hw cs hcs => (settled_run hw hcs).level, fun h => ⟨h [] trivial, fun c d hd => ?_⟩⟩
  -- every other block opens its window, then the block itself resolves the pads
  obtain ⟨cs, hcs⟩ : ∃ cs, (w.padsAt (w.padRef b)).owners.filter (· != c) = cs := ⟨_, rfl⟩
  obtain ⟨v, hv⟩ : ∃ v, w.run (cs.flatMap parkedTick) = v := ⟨_, rfl⟩
  have hopens := opens_parkedTicks cs w
  rw [hv] at hopens
  obtain ⟨hmask, howners⟩ := Prod.mk.inj (hopens.route (w.padRef b))
  have hlast : v.step (.setSmMaskEnabled b 0 false) = v.resolvePads b := by
    refine congrArg (fun u : World => u.resolvePads b) ?_
    refine List.foldlRecOn (motive := fun u : World => u = v) _ _ rfl fun u hu i _ => ?_
    rw [if_neg (by simp), hu]
  have hlevel := h (cs.flatMap parkedTick ++ [.setSmMaskEnabled b 0 false])
    ((Run.along_append _ _ _).mpr ⟨spares_parkedTicks cs w _ pin, by simp only [Spares], trivial⟩)
  have hdc : d.1 = c := beq_iff_eq.mp (Bool.and_eq_true _ _ ▸ LastWriter.claims_of_last hd).1
  have hout : c ∉ cs := by
    rw [← hcs]
    simp
  have hwriter : (v.padsAt (w.padRef b)).levelWriter v.sm pin = some d := by
    rw [Pads.levelWriter, Pads.drivers_of_owners howners, ← hd]
    refine LastWriter.last_congr fun e he => ?_
    rw [writesPin_eq, writesPin_eq, hmask]
    by_cases hec : e.1 = c
    · have hsame := congrArg Prod.snd (hopens.others e.1 (hec ▸ hout) e.2.2)
      rw [beq_iff_eq.mpr hec, Bool.true_and]
      exact congrArg (fun m : Mask => m.getLsbD pin && _) hsame
    · have hin : e.1 ∈ cs := by
        rw [← hcs]
        simp [Pads.mem_drivers he, hec]
      rw [hopens.opened e.1 hin, beq_eq_false_iff_ne.mpr hec, Bool.false_and]
      exact Bool.and_eq_false_imp.mpr fun h => absurd h (by simp)
  have hval : (v.sm d.1 d.2.2).pins.outPinVal = (w.sm d.1 d.2.2).pins.outPinVal :=
    congrArg Prod.fst (hopens.others d.1 (hdc ▸ hout) d.2.2)
  have hfinal : w.run (cs.flatMap parkedTick ++ [.setSmMaskEnabled b 0 false]) =
      v.resolvePads b := by
    rw [run_append, hv, ← hlast]
    rfl
  rw [hfinal, padsAt_resolvePads, hopens.padRef, if_pos rfl] at hlevel
  rw [← hval, ← hlevel]
  refine Eq.symm ((Pads.getLsbD_resolvedLevels v.sm _ pin).trans ?_)
  rw [Pads.levelOf, hwriter, Option.elim_some]

/-! ### A forced write of the pin -/

/-- The level a forced instruction writes to the pin: that of its side-set, else that of its
operation. -/
def forcedLevel (w : World) (b : BlockAddr) (i : Fin 4) (insn : Insn) (pin : ℕ) : Option Bool :=
  (((w.sm b i).sideWrite insn).bind fun t => t.levelAt (w.physPin b)
    ((w.sm b i).decodeDelaySideset (delayField insn)).sideVal pin).or
  (((w.sm b i).pinWrite insn).bind fun t => t.levelAt (w.physPin b) (w.pinsData b i insn) pin)

/-- Block by block, the last state machine whose write of the pin stands, the one that writes it now
among them, is that one or has its level. -/
def Concedes (w : World) (d : Driver) (pin : ℕ) (l : Bool) : Prop :=
  ∀ b e, LastWriter.last (fun f => f.1 == b && ((w.pads d.1).writesPin w.sm pin f ||
      machine f == machine d && ((w.pads d.1).pioFuncMask f.2.1).getLsbD pin))
        (w.pads d.1).drivers = some e →
    machine e ≠ machine d → (w.sm e.1 e.2.2).pins.outPinVal.getLsbD pin = l

/-- From `w` to `x` the state machine has written the level to the pin. -/
structure Forces (b : BlockAddr) (i : Fin 4) (pin : ℕ) (l : Bool) (w x : World) : Prop where
  padRef : x.padRef = w.padRef
  route : ∀ r, (x.padsAt r).levelView.2 = (w.padsAt r).levelView.2
  val : (x.sm b i).pins.outPinVal.getLsbD pin = l
  wrote : (x.sm b i).pins.wroteThisCycle.getLsbD pin = true
  others : ∀ d, machine d ≠ (b, i) → (x.sm d.1 d.2.2).levelView = (w.sm d.1 d.2.2).levelView
  resolved : (x.pads b).pinLevels.getLsbD pin = (x.pads b).levelOf x.sm pin

theorem lt_of_levelAt {t : PinWrite} {value : Word}
    (h : t.levelAt (w.physPin b) value pin = some l) : pin < 64 := by
  cases t with
  | levels base count =>
    obtain ⟨k, hk, -⟩ := Option.map_eq_some_iff.mp h
    exact lt_of_spans (spans_of_spanIndex hk)
  | dirs base count => cases h
  | release base count => cases h

theorem sm_putPins_of_ne {phys : ℕ → ℕ} {value : Word} {t : Option PinWrite} (h : (c, j) ≠ (b, i)) :
    (v.putPins b i phys value t).sm c j = v.sm c j := by
  cases t with
  | none => rfl
  | some t => rw [World.putPins, Option.elim_some, World.setPins, sm_resolvePads,
      sm_modifySm_of_ne h]

theorem padRef_putPins (phys : ℕ → ℕ) (value : Word) (t : Option PinWrite) :
    (v.putPins b i phys value t).padRef = v.padRef := by
  cases t with
  | none => rfl
  | some t => rw [World.putPins, Option.elim_some, World.setPins, padRef_resolvePads,
      padRef_modifySm]

theorem resolved_putPins (phys : ℕ → ℕ) (value : Word) (t : PinWrite) :
    ((v.putPins b i phys value (some t)).pads b).pinLevels.getLsbD pin =
      ((v.putPins b i phys value (some t)).pads b).levelOf
        (v.putPins b i phys value (some t)).sm pin := by
  rw [World.putPins, Option.elim_some, World.setPins, sm_resolvePads, pads_resolvePads, if_pos rfl,
    ← Pads.getLsbD_resolvedLevels]
  obtain ⟨p, hp⟩ :
    ∃ p, (v.modifySm b i fun q => { q with pins := t.apply phys value (v.sm b i).pins }).pads b =
      p := ⟨_, rfl⟩
  rw [hp]
  exact congrArg (fun q : Pads => q.pinLevels.getLsbD pin) (Pads.resolve_resolve _ p).symm

/-- What a state machine has written to the pin, with the pads resolved since. -/
def Written (w : World) (b : BlockAddr) (i : Fin 4) (pin : ℕ) (l : Bool) : Prop :=
  (w.sm b i).pins.outPinVal.getLsbD pin = l ∧ (w.sm b i).pins.wroteThisCycle.getLsbD pin = true ∧
    (w.pads b).pinLevels.getLsbD pin = (w.pads b).levelOf w.sm pin

theorem written_putPins {t : PinWrite} {value : Word}
    (h : t.levelAt (w.physPin b) value pin = some l) :
    (v.putPins b i (w.physPin b) value (some t)).Written b i pin l := by
  have hpins := pins_putPins (v := v) (b := b) (i := i) (w.physPin b) value (some t)
  obtain ⟨hval, hwrote⟩ := PinWrite.apply_levelAt (r := (v.sm b i).pins) (lt_of_levelAt h) h
  refine ⟨?_, ?_, resolved_putPins _ _ t⟩
  · rw [hpins]
    exact hval
  · rw [hpins]
    exact hwrote

theorem Written.putPins {phys : ℕ → ℕ} {value : Word} {t : Option PinWrite}
    (hv : v.Written b i pin l)
    (h : ∀ x ∈ t, x.drives phys pin = false ∧ x.releases phys pin = false) :
    (v.putPins b i phys value t).Written b i pin l := by
  cases t with
  | none => exact hv
  | some t =>
    have hpins := pins_putPins (v := v) (b := b) (i := i) phys value (some t)
    obtain ⟨hdrives, hreleases⟩ := h t rfl
    obtain ⟨hval, hwrote⟩ := PinWrite.level_apply (r := (v.sm b i).pins) hdrives hreleases
    refine ⟨?_, ?_, resolved_putPins _ _ t⟩
    · rw [hpins]
      exact hval.trans hv.1
    · rw [hpins]
      exact hwrote.trans hv.2.1

theorem forces_smExec {insn : Insn} (h : w.forcedLevel b i insn pin = some l) :
    ∃ x, Forces b i pin l w x ∧ SameLevels x (w.smExec b i insn) := by
  obtain ⟨v, value, hsame, hend, hvalue⟩ := smExec_puts w b i insn
  have hv := hsame.sameLevels
  refine ⟨_, ?_, hend.sameLevels⟩
  have hwritten :
    ((v.putPins b i (w.physPin b) value ((w.sm b i).pinWrite insn)).putPins b i (w.physPin b)
      ((w.sm b i).decodeDelaySideset (delayField insn)).sideVal ((w.sm b i).sideWrite insn)).Written
          b i pin l := by
    unfold forcedLevel at h
    rcases Option.or_eq_some_iff.mp h with hside | ⟨hside, hdata⟩
    · obtain ⟨t, ht, hlevel⟩ := Option.bind_eq_some_iff.mp hside
      rw [ht]
      exact written_putPins hlevel
    · obtain ⟨t, ht, hlevel⟩ := Option.bind_eq_some_iff.mp hdata
      have hfirst : (v.putPins b i (w.physPin b) value ((w.sm b i).pinWrite insn)).Written b
          i pin l := by
        cases t with
        | levels base n =>
          rw [ht, hvalue base n ht]
          exact written_putPins hlevel
        | dirs base n => cases hlevel
        | release base n => cases hlevel
      exact hfirst.putPins fun t ht =>
        ⟨PinWrite.drives_of_levelAt (Option.bind_eq_none_iff.mp hside t ht),
        Sm.sideWrite_releases ht _ _⟩
  refine ⟨?_, fun r => ?_, hwritten.1, hwritten.2.1, fun d hd => ?_, hwritten.2.2⟩
  · rw [padRef_putPins, padRef_putPins, hv.padRef]
  · rw [route_putPins, route_putPins, hv.pads r]
  · rw [sm_putPins_of_ne hd, sm_putPins_of_ne hd, hv.sm]

omit [Platform] in
theorem SameLevels.symm (h : SameLevels w v) : SameLevels v w :=
  ⟨h.padRef.symm, fun r => (h.pads r).symm, fun c i => (h.sm c i).symm⟩

section Forced
variable {d : Driver}

omit [Platform] in
/-- After a forced write the writers of a block are those the write meets. -/
theorem Forces.blockWriter {x : World} (h : Forces d.1 d.2.2 pin l w x) (b : BlockAddr) :
    (x.padsAt (w.padRef d.1)).blockWriter x.sm pin b =
      LastWriter.last (fun f => f.1 == b && ((w.pads d.1).writesPin w.sm pin f ||
        machine f == machine d && ((w.pads d.1).pioFuncMask f.2.1).getLsbD pin))
        (w.pads d.1).drivers := by
  obtain ⟨hmask, howners⟩ := Prod.mk.inj (h.route (w.padRef d.1))
  rw [Pads.blockWriter, Pads.drivers_of_owners howners]
  refine LastWriter.last_congr fun f _ => congrArg _ ?_
  rw [writesPin_eq, writesPin_eq, hmask]
  by_cases hf : machine f = machine d
  · obtain ⟨hb, hi⟩ := Prod.mk.inj hf
    rw [hf, hb, hi, h.wrote, beq_self_eq_true, Bool.true_and, Bool.true_and]
    exact (Bool.or_eq_right_iff_imp.mpr fun hset => (Bool.and_eq_true _ _ ▸ hset).2).symm
  · have hsame := congrArg Prod.snd (h.others f hf)
    rw [beq_eq_false_iff_ne.mpr hf, Bool.false_and, Bool.or_false]
    exact congrArg (fun m : Mask => m.getLsbD pin && _) hsame

omit [Platform] in
theorem Forces.settled_iff {x : World} (h : Forces d.1 d.2.2 pin l w x)
    (hd : d ∈ (w.pads d.1).drivers)
    (hroute : ((w.pads d.1).pioFuncMask d.2.1).getLsbD pin = true) :
    x.Settled (w.padRef d.1) pin l ↔ w.Concedes d pin l := by
  obtain ⟨hmask, howners⟩ := Prod.mk.inj (h.route (w.padRef d.1))
  constructor
  · intro hx b e he hne
    have hval := hx.agree b e ((h.blockWriter b).trans he)
    rw [← hval]
    exact congrArg (fun m : Mask => m.getLsbD pin) (congrArg Prod.fst (h.others e hne)).symm
  · intro hw
    have hagree : ∀ b e, (x.padsAt (w.padRef d.1)).blockWriter x.sm pin b = some e →
        (x.sm e.1 e.2.2).pins.outPinVal.getLsbD pin = l := by
      intro b e he
      rw [h.blockWriter b] at he
      by_cases hed : machine e = machine d
      · obtain ⟨hb, hi⟩ := Prod.mk.inj hed
        rw [hb, hi, h.val]
      · rw [← hw b e he hed]
        exact congrArg (fun m : Mask => m.getLsbD pin) (congrArg Prod.fst (h.others e hed))
    refine ⟨?_, hagree⟩
    have hpads : x.pads d.1 = x.padsAt (w.padRef d.1) := by rw [World.pads, h.padRef]
    rw [← hpads, h.resolved, Pads.levelOf, hpads]
    cases hlast : (x.padsAt (w.padRef d.1)).levelWriter x.sm pin with
    | some e => exact hagree e.1 e (Pads.blockWriter_of_levelWriter hlast)
    | none =>
      have hnot := LastWriter.last_eq_none_iff.mp hlast d (Pads.drivers_of_owners howners ▸ hd)
      rw [writesPin_eq, h.wrote, hmask, Bool.true_and] at hnot
      exact absurd (hroute.symm.trans hnot) Bool.noConfusion

end Forced

/-- A forced write of a routed pin lands, and stays for as long as nobody writes the pin, if and
only if the writes that still stand concede it. -/
theorem forced_write_lands_iff (w : World) (d : Driver) (k pin : ℕ) (insn : Insn) (l : Bool)
    (hk : smIdx k = d.2.2) (hd : d ∈ (w.pads d.1).drivers)
    (hroute : ((w.pads d.1).pioFuncMask d.2.1).getLsbD pin = true)
    (hl : w.forcedLevel d.1 d.2.2 insn pin = some l) :
    (∀ cs, Run.Along step (Spares (w.padRef d.1) pin) (w.step (.smExec d.1 k insn)) cs →
      (((w.step (.smExec d.1 k insn)).run cs).padsAt (w.padRef d.1)).pinLevels.getLsbD pin = l) ↔
      w.Concedes d pin l := by
  obtain ⟨x, hx, hsame⟩ := forces_smExec hl
  have href : (w.smExec d.1 d.2.2 insn).padRef d.1 = w.padRef d.1 := by
    rw [hsame.padRef, hx.padRef]
  have hsettled := settled_iff (w.smExec d.1 d.2.2 insn) d.1 pin l
  rw [href] at hsettled
  rw [step, hk, ← hsettled, ← hx.settled_iff hd hroute]
  exact ⟨fun h => h.sameLevels hsame.symm, fun h => h.sameLevels hsame⟩

/-- A state machine of block 0 sets pin 3 in a tick; another one of the block may set it too. -/
def pinThreeTick (i : ℕ) : List Call :=
  [.block 0 (.load 0 [0xE001]), .smInit 0 0 0 { defaultSmConfig with setBase := 3, setCount := 1 },
    .smInit 0 1 0 { defaultSmConfig with setBase := 3, setCount := 1 },
      .setConsecutivePindirs 0 i 3 1 true,
    .setEnabled 0 i true, .tickSms 0, .tickEnd 0]

omit [Platform] in
/-- The theorem where the lower state machine has written the pin in the tick and the higher one is
forced. -/
theorem forced_write_lands_over_lower :
    letI : Platform := ⟨.rp2350⟩
    let w := initial.run (pinThreeTick 0)
    ∀ cs, Run.Along step (Spares (w.padRef 0) 3) (w.step (.smExec 0 1 0xE000)) cs →
      (((w.step (.smExec 0 1 0xE000)).run cs).padsAt (w.padRef 0)).pinLevels.getLsbD 3 = false := by
  let P : Platform := ⟨.rp2350⟩
  refine (forced_write_lands_iff (initial.run (pinThreeTick 0)) (0, 0, 1) 1 3 0xE000 false rfl
    (by decide +kernel) (by decide +kernel) (by decide +kernel)).mpr fun b e he hne => ?_
  have howner : e.1 = 0 := by
    have hmem := Pads.mem_drivers (LastWriter.mem_of_last he)
    have howners : ((initial.run (pinThreeTick 0)).pads 0).owners = [0] := by decide +kernel
    rw [howners] at hmem
    exact List.mem_singleton.mp hmem
  have hblock : b = 0 :=
    (beq_iff_eq.mp (Bool.and_eq_true _ _ ▸ LastWriter.claims_of_last he).1).symm.trans howner
  subst hblock
  have hlast : LastWriter.last
    (fun f => f.1 == 0 && (((initial.run (pinThreeTick 0)).pads 0).writesPin
      (initial.run (pinThreeTick 0)).sm 3 f || machine f == ((0 : BlockAddr), (1 : Fin 4)) &&
        (((initial.run (pinThreeTick 0)).pads 0).pioFuncMask f.2.1).getLsbD 3))
      ((initial.run (pinThreeTick 0)).pads 0).drivers = some (0, 0, 1) := by
    decide +kernel
  exact absurd (congrArg machine (Option.some.inj (he.symm.trans hlast))) hne

omit [Platform] in
/-- After a tick in which state machine 1 set the pin, a forced `set pins, 0` on state machine 0
leaves it high. -/
theorem forced_write_lost_to_finished_tick :
    letI : Platform := ⟨.rp2350⟩
    let w := initial.run (pinThreeTick 1)
    (0, 0, 0) ∈ (w.pads 0).drivers ∧ ((w.pads 0).pioFuncMask 0).getLsbD 3 = true ∧
      w.forcedLevel 0 0 0xE000 3 = some false ∧
      ¬ ∀ cs, Run.Along step (Spares (w.padRef 0) 3) (w.step (.smExec 0 0 0xE000)) cs →
        (((w.step (.smExec 0 0 0xE000)).run cs).padsAt (w.padRef 0)).pinLevels.getLsbD 3 =
            false := by
  let P : Platform := ⟨.rp2350⟩
  refine ⟨by decide +kernel, by decide +kernel, by decide +kernel, fun h => ?_⟩
  have hlevel := h [] trivial
  exact absurd hlevel (by decide +kernel)

end World
end PioSim
