import PioSim.Isolation
import PioSim.PadEffect
import PioSim.PioOutput

/-!
# The function mux over whole runs

FUNCSEL decides at every resolve whose levels and directions reach a pad. The directions follow from
the claims of the moment, so that for them only the FUNCSEL of the moment counts; a level nobody
writes is the one latched before, and what was latched depends on where the pin was routed when it
was written. Two runs that differ in the FUNCSEL of one pin are compared here, call by call.
-/

namespace PioSim

variable [Platform]

namespace Pads

variable {p q : Pads} {sm sm' : BlockAddr → Fin 4 → Sm} {k i : ℕ}

/-- A pad set but for the mux, what arbitration made of it, and what it has latched. -/
def settings (p : Pads) : Pads :=
  { p with
    funcsel := fun _ => 0
    pioFuncMask := fun _ => 0
    periphSelMask := 0
    pinDirs := 0
    pinLevels := 0
    inSync0 := 0
    inSync1 := 0
    keepState := 0
    isoLevels := 0
    isoOe := 0 }

/-- FUNCSEL routes the pin to owner slot `i`, as `FUNC_PIOi`. -/
def SelectsOwner (p : Pads) (k i : ℕ) : Prop := p.funcsel k = funcPio0 + i

instance (p : Pads) (k i : ℕ) : Decidable (p.SelectsOwner k i) :=
  inferInstanceAs (Decidable (_ = _))

/-- Two pad sets whose muxes need not agree on the pin: they have its level in common, and where
both route it to owner slot `i`, its direction. -/
structure Apart (k i : ℕ) (p q : Pads) : Prop where
  settings : q.settings = p.settings
  level : q.pinLevels.getLsbD k = p.pinLevels.getLsbD k
  dir : p.SelectsOwner k i → q.SelectsOwner k i → q.pinDirs.getLsbD k = p.pinDirs.getLsbD k

omit [Platform] in
theorem Apart.refl (k i : ℕ) (p : Pads) : p.Apart k i p := ⟨rfl, rfl, fun _ _ => rfl⟩

theorem settings_apply (p : Pads) (op : PadOp) :
    (op.apply p).settings = (op.apply p.settings).settings := by
  cases op with
  | setPullLevel mask level =>
    simp only [PadOp.apply, setPullLevel]
    split <;> rfl
  | padSetIso pin iso =>
    have hiso : ∀ x : Pads, (x.padSetIso pin iso).settings =
        { x.settings with padIso := maskSet x.padIso pin iso } := by
      intro x
      simp only [padSetIso]
      split <;> rfl
    rw [PadOp.apply, PadOp.apply, hiso, hiso]
    rfl
  | _ => rfl

theorem Apart.apply (h : p.Apart k i q) (op : PadOp) : (op.apply p).Apart k i (op.apply q) := by
  have hp := World.PadOp.dirView_apply p op
  have hq := World.PadOp.dirView_apply q op
  simp only [dirView, Prod.mk.injEq] at hp hq
  have hplevel := congrArg Prod.fst (World.PadOp.levelView_apply p op)
  have hqlevel := congrArg Prod.fst (World.PadOp.levelView_apply q op)
  refine ⟨?_, ?_, fun hselp hselq => ?_⟩
  · rw [settings_apply, h.settings, ← settings_apply]
  · exact (congrArg (·.getLsbD k) hqlevel).trans
      (h.level.trans (congrArg (·.getLsbD k) hplevel).symm)
  · rw [hp.1, hq.1]
    refine h.dir ?_ ?_
    · rw [SelectsOwner, ← hp.2.1]
      exact hselp
    · rw [SelectsOwner, ← hq.2.1]
      exact hselq

theorem Apart.clockSync (h : p.Apart k i q) : p.clockSync.Apart k i q.clockSync :=
  ⟨h.settings, h.level, h.dir⟩

/-- The last state machine of owner slot `i` in the scan whose write of the pin stands. -/
def ownerWriter (sm : BlockAddr → Fin 4 → Sm) (p : Pads) (k i : ℕ) : Option Driver :=
  LastWriter.last (fun d => (sm d.1 d.2.2).pins.wroteThisCycle.getLsbD k && d.2.1 == i) p.drivers

/-- Over a pin latched at `latched`, the last write that the mux lets through leaves the level that
the last write of owner slot `i` leaves. -/
def Heard (sm : BlockAddr → Fin 4 → Sm) (p : Pads) (k i : ℕ) (latched : Bool) : Prop :=
  (p.levelWriter sm k).elim latched (fun d => (sm d.1 d.2.2).pins.outPinVal.getLsbD k) =
    (p.ownerWriter sm k i).elim latched (fun d => (sm d.1 d.2.2).pins.outPinVal.getLsbD k)

instance (sm : BlockAddr → Fin 4 → Sm) (p : Pads) (k i : ℕ) (latched : Bool) :
    Decidable (p.Heard sm k i latched) :=
  inferInstanceAs (Decidable (_ = _))

/-- The state machines of slot `i` have the same pin registers and enable bits among both
records. -/
def SameOwner (sm sm' : BlockAddr → Fin 4 → Sm) (p : Pads) (i : ℕ) : Prop :=
  ∀ d ∈ p.drivers, d.2.1 = i → (sm' d.1 d.2.2).pins = (sm d.1 d.2.2).pins ∧
    (sm' d.1 d.2.2).enabled = (sm d.1 d.2.2).enabled

theorem MuxCached.selectsOwner (h : p.MuxCached) (hk : k < numPins) (hi : i < numPio)
    (hsel : p.SelectsOwner k i)
    (o : ℕ) : (p.pioFuncMask o).getLsbD k = (o == i) := by
  rw [(h k hk).1 o, hsel, selectsPio, funcLegacyAnyPio, funcPio0]
  have hle : numPio ≤ 3 := by
    unfold numPio
    split <;> omega
  have hlegacy : (6 + i == 0xFF) = false := beq_eq_false_iff_ne.mpr (by omega)
  have hlow : decide (6 ≤ 6 + i) = true := decide_eq_true (by omega)
  have hhigh : decide (6 + i < 6 + numPio) = true := decide_eq_true (by omega)
  rw [hlegacy, hlow, hhigh, Nat.add_sub_cancel_left, Bool.false_or, Bool.true_and, Bool.true_and]
  exact Bool.beq_comm

omit [Platform] in
/-- Among the same records of the owner, two resolves give the pin the same level. -/
theorem levelOf_of_heard (hdrivers : q.drivers = p.drivers)
    (hlevel : q.pinLevels.getLsbD k = p.pinLevels.getLsbD k)
    (hsame : p.SameOwner sm sm' i) (hp : p.Heard sm k i (p.pinLevels.getLsbD k))
    (hq : q.Heard sm' k i (q.pinLevels.getLsbD k)) :
    q.levelOf sm' k = p.levelOf sm k := by
  have hwriter : q.ownerWriter sm' k i = p.ownerWriter sm k i := by
    rw [ownerWriter, ownerWriter, hdrivers]
    refine LastWriter.last_congr fun d hd => ?_
    by_cases hdi : d.2.1 = i
    · rw [(hsame d hd hdi).1]
    · rw [beq_eq_false_iff_ne.mpr hdi, Bool.and_false, Bool.and_false]
  rw [levelOf, levelOf, hp, hq, hwriter]
  cases hlast : p.ownerWriter sm k i with
  | none => exact hlevel
  | some d =>
    have hclaims := LastWriter.claims_of_last hlast
    rw [Bool.and_eq_true, beq_iff_eq] at hclaims
    rw [Option.elim_some, Option.elim_some, (hsame d (LastWriter.mem_of_last hlast) hclaims.2).1]

omit [Platform] in
/-- Where both route the pin to the owner, two resolves give it the same direction. -/
theorem dirOf_of_selected (hdrivers : q.drivers = p.drivers) (hsame : p.SameOwner sm sm' i)
    (hp : ∀ o, (p.pioFuncMask o).getLsbD k = (o == i))
    (hq : ∀ o, (q.pioFuncMask o).getLsbD k = (o == i)) :
    q.dirOf sm' k = p.dirOf sm k := by
  have hclaims : ∀ d ∈ p.drivers, q.claimsPin sm' k d = p.claimsPin sm k d ∧
      (p.claimsPin sm k d = true → d.2.1 = i) := by
    intro d hd
    rw [claimsPin, claimsPin, drivenBy, drivenBy, BitVec.getLsbD_and, BitVec.getLsbD_and, hp, hq]
    by_cases hdi : d.2.1 = i
    · rw [(hsame d hd hdi).1]
      exact ⟨rfl, fun _ => hdi⟩
    · rw [beq_eq_false_iff_ne.mpr hdi, Bool.and_false, Bool.and_false]
      exact ⟨rfl, fun h => absurd h Bool.false_ne_true⟩
  have hlast : ∀ f : Bool → Bool,
      LastWriter.last (fun d => f (sm' d.1 d.2.2).enabled && q.claimsPin sm' k d) q.drivers =
        LastWriter.last (fun d => f (sm d.1 d.2.2).enabled && p.claimsPin sm k d) p.drivers := by
    intro f
    rw [hdrivers]
    refine LastWriter.last_congr fun d hd => ?_
    rw [(hclaims d hd).1]
    cases hc : p.claimsPin sm k d with
    | false => rw [Bool.and_false, Bool.and_false]
    | true => rw [(hsame d hd ((hclaims d hd).2 hc)).2]
  have howner : q.dirOwner sm' k = p.dirOwner sm k := by
    rw [dirOwner, dirOwner]
    exact congrArg₂ Option.or (hlast id) (hlast not)
  rw [dirOf, dirOf, howner]
  cases hd : p.dirOwner sm k with
  | none => rfl
  | some d =>
    have hg := dirOwner_isGreatest hd
    rw [Option.elim_some, Option.elim_some, (hsame d hg.mem ((hclaims d hg.mem).2 hg.holds)).1]

theorem Apart.of_resolve (hk : k < numPins) (hi : i < numPio) (hsettings : q.settings = p.settings)
    (hlevel : q.pinLevels.getLsbD k = p.pinLevels.getLsbD k) (hmp : p.MuxCached) (hmq : q.MuxCached)
    (hsame : p.SameOwner sm sm' i) (hp : p.Heard sm k i (p.pinLevels.getLsbD k))
    (hq : q.Heard sm' k i (q.pinLevels.getLsbD k)) :
    (p.resolve sm).Apart k i (q.resolve sm') := by
  have hdrivers : q.drivers = p.drivers :=
    drivers_of_owners (congrArg Pads.owners hsettings : q.settings.owners = p.settings.owners)
  refine ⟨hsettings, ?_, fun hselp hselq => ?_⟩
  · exact (q.getLsbD_resolvedLevels sm' k).trans
      ((levelOf_of_heard hdrivers hlevel hsame hp hq).trans (p.getLsbD_resolvedLevels sm k).symm)
  · exact (q.getLsbD_resolvedDirs sm' k).trans ((dirOf_of_selected hdrivers hsame
      (hmp.selectsOwner hk hi hselp) (hmq.selectsOwner hk hi hselq)).trans
        (p.getLsbD_resolvedDirs sm k).symm)

theorem Apart.resolve (h : p.Apart k i q) (hk : k < numPins) (hi : i < numPio) (hmp : p.MuxCached)
    (hmq : q.MuxCached) (hsame : p.SameOwner sm sm' i) (hp : p.Heard sm k i (p.pinLevels.getLsbD k))
    (hq : q.Heard sm' k i (q.pinLevels.getLsbD k)) :
    (p.resolve sm).Apart k i (q.resolve sm') :=
  .of_resolve hk hi h.settings h.level hmp hmq hsame hp hq

/-- Two FUNCSEL writes of a pin, which may route it differently. -/
theorem Apart.gpioSetFunction (h : p.Apart k i q) (hk : k < numPins) (hi : i < numPio)
    (hsame : p.SameOwner sm sm' i) (pin f f' : ℕ)
    (hp : (p.gpioSetFunction sm pin f).Heard sm k i (p.pinLevels.getLsbD k))
    (hq : (q.gpioSetFunction sm' pin f').Heard sm' k i (q.pinLevels.getLsbD k)) :
    (p.gpioSetFunction sm pin f).Apart k i (q.gpioSetFunction sm' pin f') :=
  .of_resolve hk hi h.settings h.level (muxCached_refreshFuncMasks _)
    (muxCached_refreshFuncMasks _) hsame hp hq

omit [Platform] in
/-- A step on a condition keeps the pad sets apart if the step does. -/
theorem Apart.step_if {a : Prop} [Decidable a] {p' q' : Pads} {hp' hq' : Bool} (h : p.Apart k i q)
    (hstep : p'.SameOwner sm sm' i → p'.Heard sm k i hp' → q'.Heard sm' k i hq' → p'.Apart k i q')
    (hsame : (if a then p' else p).SameOwner sm sm' i) (hp : (if a then p' else p).Heard sm k i hp')
    (hq : (if a then q' else q).Heard sm' k i hq') :
    (if a then p' else p).Apart k i (if a then q' else q) := by
  by_cases ha : a
  · rw [if_pos ha] at hsame hp hq ⊢
    rw [if_pos ha]
    exact hstep hsame hp hq
  · rw [if_neg ha, if_neg ha]
    exact h

/-- A clocking touches only what the pad sets need not share. -/
theorem Apart.clockSync_if {a a' : Prop} [Decidable a] [Decidable a'] (h : p.Apart k i q) :
    (if a then p.clockSync else p).Apart k i (if a' then q.clockSync else q) := by
  split
  · split <;> exact ⟨h.settings, h.level, h.dir⟩
  · split <;> exact ⟨h.settings, h.level, h.dir⟩

/-! ### What the pin shows -/

/-- The pad shows a level of its own from before: it is isolated, or its bus keeper holds it. -/
def Recalls (p : Pads) (k : ℕ) : Bool :=
  p.isolated k || p.padPue.getLsbD k && p.padPde.getLsbD k && !p.chipDrive.1.getLsbD k &&
    !p.extDrive.getLsbD k

omit [Platform] in
theorem getLsbD_functionLevel (p : Pads) (hk : k < 64) : p.functionLevel.getLsbD k =
    (((p.pinLevels.getLsbD k && p.pinDirs.getLsbD k || p.periphLevel.getLsbD k &&
      p.periphDrives k) ^^
      p.outoverInv.getLsbD k || p.outoverHigh.getLsbD k) && !p.outoverLow.getLsbD k) := by
  simp [functionLevel, periphDrives, hk]

theorem getLsbD_live (p : Pads) (hk : k < 64) : p.live.getLsbD k =
    if p.chipDrive.1.getLsbD k then p.chipDrive.2.getLsbD k
    else if p.extDrive.getLsbD k then p.extLevels.getLsbD k
    else p.padPue.getLsbD k && (!p.padPde.getLsbD k || p.keepState.getLsbD k) := by
  have hbits : p.live.getLsbD k =
      (p.chipDrive.2.getLsbD k && p.chipDrive.1.getLsbD k ||
        p.extLevels.getLsbD k && (p.extDrive.getLsbD k && !p.chipDrive.1.getLsbD k) ||
        p.padPue.getLsbD k && !p.padPde.getLsbD k &&
          (!p.chipDrive.1.getLsbD k && !(p.extDrive.getLsbD k && !p.chipDrive.1.getLsbD k)) ||
        p.keepState.getLsbD k && (p.padPue.getLsbD k && p.padPde.getLsbD k &&
          (!p.chipDrive.1.getLsbD k && !(p.extDrive.getLsbD k && !p.chipDrive.1.getLsbD k)))) := by
    simp only [live, BitVec.getLsbD_or, BitVec.getLsbD_and, BitVec.getLsbD_not, decide_eq_true hk,
      Bool.true_and]
  rw [hbits]
  cases p.chipDrive.1.getLsbD k with
  | true => cases p.chipDrive.2.getLsbD k <;> simp
  | false => cases p.extDrive.getLsbD k <;> cases p.padPue.getLsbD k <;>
      cases p.padPde.getLsbD k <;> simp

/-- Pad sets that both route the pin to the owner show the same, unless the pad recalls a level. -/
theorem Apart.getPin {pin : ℕ} (h : p.Apart (pinIdx pin) i q) (hmp : p.MuxCached)
    (hmq : q.MuxCached)
    (hp : p.SelectsOwner (pinIdx pin) i) (hq : q.SelectsOwner (pinIdx pin) i)
    (hrecalls : p.Recalls (pinIdx pin) = false) : q.getPin pin = p.getPin pin := by
  obtain ⟨k, hk⟩ : ∃ k, pinIdx pin = k := ⟨_, rfl⟩
  have h64 : k < 64 := hk ▸ pinIdx_lt pin
  have hnum : k < numPins := hk ▸ pinIdx_lt_numPins pin
  rw [Pads.getPin, Pads.getPin]
  rw [hk] at h hp hq hrecalls ⊢
  have hsel : q.periphSelMask.getLsbD k = p.periphSelMask.getLsbD k := by
    rw [(hmp k hnum).2, (hmq k hnum).2, hp, hq]
  have hdir := h.dir hp hq
  have hfields : ∀ {α : Type} (f : Pads → α), (∀ x : Pads, f x.settings = f x) → f q = f p :=
    fun f hf => (hf q).symm.trans ((congrArg f h.settings).trans (hf p))
  have hperiph : q.periphDrives k = p.periphDrives k := by
    rw [periphDrives, periphDrives, hsel, hdir, hfields Pads.periphOe fun _ => rfl]
  have hiso : q.isolated k = p.isolated k := hfields (·.isolated k) fun _ => rfl
  rw [Recalls, Bool.or_eq_false_iff] at hrecalls
  obtain ⟨hnotiso, hkeeper⟩ := hrecalls
  have hoe : q.chipDrive.1.getLsbD k = p.chipDrive.1.getLsbD k := by
    rw [chipDrive_oe q h64, chipDrive_oe p h64, hiso, hnotiso, hdir, hperiph]
    exact hfields (fun x => x.overrideOe k (p.pinDirs.getLsbD k || p.periphDrives k)) fun _ => rfl
  have hlevel : q.chipDrive.2.getLsbD k = p.chipDrive.2.getLsbD k := by
    have hshown : ¬ p.isolated k = true := Bool.eq_false_iff.mp hnotiso
    rw [chipDrive_level, chipDrive_level, hiso, if_neg hshown, if_neg hshown,
      getLsbD_functionLevel q h64, getLsbD_functionLevel p h64, hperiph, hdir, h.level,
      hfields Pads.outoverInv fun _ => rfl, hfields Pads.outoverHigh fun _ => rfl,
      hfields Pads.outoverLow fun _ => rfl, hfields Pads.periphLevel fun _ => rfl]
  rw [getLsbD_live q h64, getLsbD_live p h64, hoe, hlevel, hfields Pads.extDrive fun _ => rfl,
    hfields Pads.extLevels fun _ => rfl, hfields Pads.padPue fun _ => rfl,
      hfields Pads.padPde fun _ => rfl]
  cases hon : p.chipDrive.1.getLsbD k with
  | true => rfl
  | false =>
    cases hext : p.extDrive.getLsbD k with
    | true => rfl
    | false =>
      -- without drive, only the keeper could tell the two apart
      rw [hon, hext, Bool.not_false, Bool.and_true, Bool.and_true] at hkeeper
      cases hpue : p.padPue.getLsbD k with
      | false => rfl
      | true =>
        rw [hpue, Bool.true_and] at hkeeper
        rw [hkeeper]
        rfl

end Pads
namespace World

variable {w w' : World} {r : PadRef} {k i : ℕ} {c c' : Call}

def stepPair (x : World × World) (e : Call × Call) : World × World := (x.1.step e.1, x.2.step e.2)

/-- The calls are the same, or both write FUNCSEL of one pin. -/
def SameCall (c c' : Call) : Prop :=
  c' = c ∨ ∃ b pin f f', c = .gpioSetFunction b pin f ∧ c' = .gpioSetFunction b pin f'

/-- Whether the call is a forced instruction that writes pins. -/
def forcesPins (w : World) : Call → Bool
  | .smExec b k insn => w.writesPins b (smIdx k) insn
  | _ => false

/-- The state machines of owner slot `i` write the same in both runs. -/
def SameWrites (r : PadRef) (i : ℕ) (x : World × World) (e : Call × Call) : Prop :=
  x.2.forcesPins e.1 = x.1.forcesPins e.1 ∧
    ∀ d ∈ ((x.1.step e.1).padsAt r).drivers, d.2.1 = i →
      ((x.2.step e.2).sm d.1 d.2.2).pins = ((x.1.step e.1).sm d.1 d.2.2).pins

instance (r : PadRef) (i : ℕ) (x : World × World) (e : Call × Call) :
    Decidable (SameWrites r i x e) :=
  inferInstanceAs (Decidable (_ ∧ ∀ d ∈ ((x.1.step e.1).padsAt r).drivers, _ → _))

/-- In both runs, the writes of the pin that stand after the call and that the mux lets through
leave over its latched level what those of the owner in slot `i` leave. -/
def HeardBoth (r : PadRef) (k i : ℕ) (x : World × World) (e : Call × Call) : Prop :=
  ((x.1.step e.1).padsAt r).Heard (x.1.step e.1).sm k i ((x.1.padsAt r).pinLevels.getLsbD k) ∧
    ((x.2.step e.2).padsAt r).Heard (x.2.step e.2).sm k i ((x.2.padsAt r).pinLevels.getLsbD k)

instance (r : PadRef) (k i : ℕ) (x : World × World) (e : Call × Call) :
    Decidable (HeardBoth r k i x e) :=
  inferInstanceAs (Decidable (_ ∧ _))

/-- The worlds of two such runs. -/
structure Apart (r : PadRef) (k i : ℕ) (w w' : World) : Prop where
  left : w.Reachable
  right : w'.Reachable
  padRef : w'.padRef = w.padRef
  enabled : ∀ b j, (w'.sm b j).enabled = (w.sm b j).enabled
  pads : (w.padsAt r).Apart k i (w'.padsAt r)

theorem Reachable.muxCached (hw : w.Reachable) (r : PadRef) : (w.padsAt r).MuxCached :=
  (hw.pads_invariant Pads.routed_initDefaults (fun h => h.routed) r).mux

theorem Reachable.step (hw : w.Reachable) (c : Call) : (w.step c).Reachable := hw.run [c]

theorem SameCall.effects (h : SameCall c c') :
    (∀ ref b, refEffect ref b c' = refEffect ref b c) ∧ ∀ old b j, enabledEffect old b j c' =
      enabledEffect old b j c := by
  rcases h with rfl | ⟨b, pin, f, f', rfl, rfl⟩
  · exact ⟨fun _ _ => rfl, fun _ _ _ => rfl⟩
  · exact ⟨fun _ _ => rfl, fun _ _ _ => rfl⟩

/-- The pads, call by call. -/
theorem Apart.pads_step (h : Apart r k i w w') (hk : k < numPins) (hi : i < numPio)
    (hcall : SameCall c c')
    (henabled : ∀ b j, ((w'.step c').sm b j).enabled = ((w.step c).sm b j).enabled)
    (hwrites : SameWrites r i (w, w') (c, c')) (hheard : HeardBoth r k i (w, w') (c, c')) :
    ((w.step c).padsAt r).Apart k i ((w'.step c').padsAt r) := by
  obtain ⟨hforces, hpins⟩ := hwrites
  obtain ⟨hp, hq⟩ := hheard
  dsimp only at hforces hpins hp hq
  have hsame : ((w.step c).padsAt r).SameOwner (w.step c).sm (w'.step c').sm i :=
    fun d hd hdi => ⟨hpins d hd hdi, henabled d.1 d.2.2⟩
  have hmp := h.left.muxCached r
  have hmq := h.right.muxCached r
  have href := h.padRef
  rw [padsAt_step] at hp hq hsame ⊢
  rw [padsAt_step w' c']
  rcases hcall with rfl | ⟨b, pin, f, f', rfl, rfl⟩
  · cases c' with
    | setEnabled b k enabled =>
      rw [padEffect, href] at hq
      rw [padEffect, padEffect, href]
      exact h.pads.step_if (h.pads.resolve hk hi hmp hmq) hsame hp hq
    | setSmMaskEnabled b mask enabled =>
      rw [padEffect, href] at hq
      rw [padEffect, padEffect, href]
      exact h.pads.step_if (h.pads.resolve hk hi hmp hmq) hsame hp hq
    | enableSmMaskInSync b mask =>
      rw [padEffect, href] at hq
      rw [padEffect, padEffect, href]
      exact h.pads.step_if (h.pads.resolve hk hi hmp hmq) hsame hp hq
    | setConsecutivePindirs b k base count isOut =>
      rw [padEffect, href] at hq
      rw [padEffect, padEffect, href]
      exact h.pads.step_if (h.pads.resolve hk hi hmp hmq) hsame hp hq
    | tickSms b =>
      rw [padEffect, href] at hq
      rw [padEffect, padEffect, href]
      exact h.pads.step_if (h.pads.resolve hk hi hmp hmq) hsame hp hq
    | smExec b j insn =>
      have hwrote : w'.writesPins b (smIdx j) insn = w.writesPins b (smIdx j) insn := hforces
      rw [padEffect, href, hwrote] at hq
      rw [padEffect, padEffect, href, hwrote]
      exact h.pads.step_if (h.pads.resolve hk hi hmp hmq) hsame hp hq
    | gpioSetFunction b pin f =>
      rw [padEffect, href] at hq
      rw [padEffect, padEffect, href]
      exact h.pads.step_if (fun hsame => h.pads.gpioSetFunction hk hi hsame _ _ _) hsame hp hq
    | pad b op =>
      rw [padEffect, padEffect, href]
      split
      · exact h.pads.apply op
      · exact h.pads
    | init b =>
      rw [padEffect, padEffect]
      split
      · exact .refl k i _
      · exact h.pads
    | groupInitShared g blocks =>
      rw [padEffect, padEffect]
      split
      · exact .refl k i _
      · exact h.pads
    | tickEnd b => exact h.pads.clockSync_if
    | groupEnd g => exact h.pads.clockSync_if
    | _ => exact h.pads
  · rw [padEffect, href] at hq
    rw [padEffect, padEffect, href]
    exact h.pads.step_if (fun hsame => h.pads.gpioSetFunction hk hi hsame _ _ _) hsame hp hq

theorem Apart.step (h : Apart r k i w w') (hk : k < numPins) (hi : i < numPio)
    (hcall : SameCall c c')
    (hwrites : SameWrites r i (w, w') (c, c')) (hheard : HeardBoth r k i (w, w') (c, c')) :
    Apart r k i (w.step c) (w'.step c') := by
  obtain ⟨hrefs, henables⟩ := hcall.effects
  have henabled : ∀ b j, ((w'.step c').sm b j).enabled = ((w.step c).sm b j).enabled :=
      fun b j => by
    rw [enabled_step, enabled_step, henables, h.enabled]
  refine ⟨h.left.step c, h.right.step c', ?_, henabled,
    h.pads_step hk hi hcall henabled hwrites hheard⟩
  funext b
  rw [padRef_step, padRef_step, hrefs, h.padRef]

theorem foldl_stepPair (x : World × World) (cs : List (Call × Call)) :
    cs.foldl stepPair x = (x.1.run (cs.map Prod.fst), x.2.run (cs.map Prod.snd)) := by
  induction cs generalizing x with
  | nil => rfl
  | cons e cs ih => exact ih (stepPair x e)

/-- Two runs that differ in FUNCSEL only, and in which the state machines of owner slot `i` write
the same: where in both the mux lets through writes of the pin that leave what the owner's leave,
and both end with the pin routed to the owner, the pin shows the same, unless its pad recalls a
level. -/
theorem mux_combinational_while_heard {w : World} (hw : w.Reachable) (r : PadRef) (pin i : ℕ)
    (hi : i < numPio) (cs : List (Call × Call)) (hcalls : ∀ e ∈ cs, SameCall e.1 e.2)
    (hwrites : Run.Along stepPair (SameWrites r i) (w, w) cs)
    (hheard : Run.Along stepPair (HeardBoth r (pinIdx pin) i) (w, w) cs)
    (hleft : ((w.run (cs.map Prod.fst)).padsAt r).SelectsOwner (pinIdx pin) i)
    (hright : ((w.run (cs.map Prod.snd)).padsAt r).SelectsOwner (pinIdx pin) i)
    (hrecalls : ((w.run (cs.map Prod.fst)).padsAt r).Recalls (pinIdx pin) = false) :
    ((w.run (cs.map Prod.snd)).padsAt r).getPin pin =
      ((w.run (cs.map Prod.fst)).padsAt r).getPin pin := by
  have hcs := ((Run.along_of_mem hcalls (w, w)).and hwrites).and hheard
  have hapart : Apart r (pinIdx pin) i (cs.foldl stepPair (w, w)).1 (cs.foldl stepPair (w, w)).2 :=
    Run.invariant (I := fun x : World × World => Apart r (pinIdx pin) i x.1 x.2)
      (fun x e hx he => hx.step (pinIdx_lt_numPins pin) hi he.1.1 he.1.2 he.2)
      ⟨hw, hw, rfl, fun _ _ => rfl, .refl _ i _⟩ hcs
  rw [foldl_stepPair] at hapart
  exact hapart.pads.getPin (hapart.left.muxCached r) (hapart.right.muxCached r) hleft
    hright hrecalls

/-- State machine 0 sets pin 3 in its first cycle, and nothing in its second. -/
def setThenIdle : List Call :=
  [.block 0 (.load 0 [0xE001, 0xA042]), .smInit 0 0 0
    { defaultSmConfig with setBase := 3, setCount := 1 }, .setConsecutivePindirs 0 0 3 1 true,
    .gpioSetFunction 0 3 funcPio0, .setEnabled 0 0 true]

def tickPair : List (Call × Call) := [(.tickSms 0, .tickSms 0), (.tickEnd 0, .tickEnd 0)]

omit [Platform] in
/-- The theorem where the pin is routed to SIO for a tick in which nobody writes it. -/
theorem mux_combinational_while_idle :
    letI : Platform := ⟨.rp2350⟩
    let w := initial.run setThenIdle
    let cs := tickPair ++ [(.gpioSetFunction 0 3 5, .gpioSetFunction 0 3 funcPio0)] ++ tickPair ++
      [(.gpioSetFunction 0 3 funcPio0, .gpioSetFunction 0 3 funcPio0)]
    ((w.run (cs.map Prod.snd)).padsAt (.embedded 0)).getPin 3 =
      ((w.run (cs.map Prod.fst)).padsAt (.embedded 0)).getPin 3 := by
  let P : Platform := ⟨.rp2350⟩
  refine mux_combinational_while_heard ⟨setThenIdle, rfl⟩ (.embedded 0) 3 0 (by decide) _ ?_ ?_ ?_
    (by decide +kernel) (by decide +kernel) (by decide +kernel)
  · simp only [tickPair, List.cons_append, List.nil_append, List.forall_mem_cons]
    exact ⟨.inl rfl, .inl rfl, .inr ⟨0, 3, 5, funcPio0, rfl, rfl⟩, .inl rfl, .inl rfl,
      .inl rfl, by simp⟩
  · refine ⟨?_, ?_, ?_, ?_, ?_, ?_, trivial⟩
    all_goals decide +kernel
  · refine ⟨?_, ?_, ?_, ?_, ?_, ?_, trivial⟩
    all_goals decide +kernel

omit [Platform] in
/-- Routed to SIO in the tick that sets it, and back a tick later, the pin stays low; routed to the
PIO throughout it is high. -/
theorem level_lost_while_routed_elsewhere :
    letI : Platform := ⟨.rp2350⟩
    let w := initial.run setThenIdle
    let cs := [(.gpioSetFunction 0 3 5, .gpioSetFunction 0 3 funcPio0)] ++ tickPair ++ tickPair ++
      [(.gpioSetFunction 0 3 funcPio0, .gpioSetFunction 0 3 funcPio0)]
    (∀ e ∈ cs, SameCall e.1 e.2) ∧ Run.Along stepPair (SameWrites (.embedded 0) 0) (w, w) cs ∧
      ((w.run (cs.map Prod.fst)).padsAt (.embedded 0)).SelectsOwner 3 0 ∧
      ((w.run (cs.map Prod.snd)).padsAt (.embedded 0)).SelectsOwner 3 0 ∧
      ((w.run (cs.map Prod.fst)).padsAt (.embedded 0)).Recalls 3 = false ∧
      ((w.run (cs.map Prod.fst)).padsAt (.embedded 0)).getPin 3 = false ∧
      ((w.run (cs.map Prod.snd)).padsAt (.embedded 0)).getPin 3 = true := by
  let P : Platform := ⟨.rp2350⟩
  refine ⟨?_, ⟨?_, ?_, ?_, ?_, ?_, ?_, trivial⟩, ?_, ?_, ?_, ?_, ?_⟩
  · simp only [tickPair, List.cons_append, List.nil_append, List.forall_mem_cons]
    exact ⟨.inr ⟨0, 3, 5, funcPio0, rfl, rfl⟩, .inl rfl, .inl rfl, .inl rfl, .inl rfl,
      .inl rfl, by simp⟩
  all_goals decide +kernel

end World
end PioSim
