import PioSim.TurnOrder
import PioSim.PinWrites

/-!
# OUT_STICKY

An OUT_STICKY state machine re-asserts its pins in the ticks its own divider elapses in, and in no
other. So the pad shows its level at the end of such a tick, if nobody of higher priority asserts
the pin; from there on it shows it for as long as no other state machine asserts the pin, or the
assertion of that tick still stands. `Contends` says before a call who may assert a pin in it.
-/

namespace PioSim

variable [Platform]

/-- The state machine that a driver of the pads is. -/
def machine (d : Driver) : BlockAddr × Fin 4 := (d.1, d.2.2)

/-- What the level arbitration reads of a record, and of a pad set. -/
def Sm.levelView (s : Sm) : Mask × Mask := (s.pins.outPinVal, s.pins.wroteThisCycle)

/-- The record as a turn presents its instruction: the window is open, the divider has elapsed and
the OSR is topped up. -/
def Sm.presented (s : Sm) : Sm := s.openWindow.elapse.backgroundAutopull

def Sm.holds (s : Sm) (pin : ℕ) : Bool := s.outSticky && s.pins.outPinOe.getLsbD pin

/-- The instruction drives the pin, or leaves it held. A write of directions counts as one that
turns the pin into an output. -/
def Sm.assertsBy (s : Sm) (phys : ℕ → ℕ) (insn : Insn) (pin : ℕ) : Bool :=
  (s.pinWrite insn).any (·.drives phys pin) || (s.sideWrite insn).any (·.drives phys pin) ||
    s.outSticky && ((s.pinWrite insn).any (·.directs phys pin) ||
      (s.sideWrite insn).any (·.directs phys pin)) ||
    s.holds pin && !(s.pinWrite insn).any (·.releases phys pin)

def Pads.levelView (p : Pads) : Mask × (ℕ → Mask) × List BlockAddr :=
  (p.pinLevels, p.pioFuncMask, p.owners)

namespace Pads

variable {p q : Pads} {sm sm' : BlockAddr → Fin 4 → Sm} {pin : ℕ} {s : Driver}

/-- No other state machine writes the pin, or none that outranks `s`, which writes it. -/
def Unrivalled (sm : BlockAddr → Fin 4 → Sm) (p : Pads) (pin : ℕ) (s : Driver) : Prop :=
  (p.writesPin sm pin s = true ∧
    ∀ d, [s, d].Sublist p.drivers → machine d ≠ machine s → p.writesPin sm pin d = false) ∨
  ∀ d ∈ p.drivers, machine d ≠ machine s → p.writesPin sm pin d = false

omit [Platform] in
/-- An unrivalled state machine has its level on the pin, if it writes it or the pin had that
level. -/
theorem levelOf_of_unrivalled (hs : s ∈ p.drivers) (h : p.Unrivalled sm pin s)
    (hlevel : p.writesPin sm pin s = false →
      p.pinLevels.getLsbD pin = (sm s.1 s.2.2).pins.outPinVal.getLsbD pin) :
    p.levelOf sm pin = (sm s.1 s.2.2).pins.outPinVal.getLsbD pin := by
  have hsame : ∀ d, machine d = machine s → (sm d.1 d.2.2).pins = (sm s.1 s.2.2).pins := by
    intro d hd
    obtain ⟨hb, hi⟩ := Prod.mk.inj hd
    rw [hb, hi]
  rw [levelOf]
  cases hlast : p.levelWriter sm pin with
  | none => exact hlevel (LastWriter.last_eq_none_iff.mp hlast s hs)
  | some d =>
    by_cases hd : machine d = machine s
    · rw [Option.elim_some, hsame d hd]
    · exfalso
      have hclaims : p.writesPin sm pin d = true := LastWriter.claims_of_last hlast
      rcases h with ⟨hwrites, habove⟩ | hnone
      · rcases LastWriter.sublist_of_last hlast hs hwrites with rfl | hsub
        · exact hd rfl
        · rw [habove d hsub hd] at hclaims
          cases hclaims
      · rw [hnone d (LastWriter.mem_of_last hlast) hd] at hclaims
        cases hclaims

/-- A change of FUNCSEL refreshes the masks and then resolves. -/
theorem gpioSetFunction_eq (sm : BlockAddr → Fin 4 → Sm) (p : Pads) (k f : ℕ) :
    ∃ q : Pads, p.gpioSetFunction sm k f = q.resolve sm ∧ q.pinLevels = p.pinLevels := ⟨_, rfl, rfl⟩

omit [Platform] in
theorem drivers_of_owners (h : q.owners = p.owners) : q.drivers = p.drivers := by
  rw [drivers, drivers, slots, slots, h]

end Pads

namespace World

variable {u v v' w w' : World} {b c : BlockAddr} {i j : Fin 4} {s : Driver} {pin : ℕ}

/-- The pad has the level the state machine holds for the pin. -/
def Shows (w : World) (s : Driver) (pin : ℕ) : Prop :=
  (w.pads s.1).pinLevels.getLsbD pin = (w.sm s.1 s.2.2).pins.outPinVal.getLsbD pin

instance (w : World) (s : Driver) (pin : ℕ) : Decidable (w.Shows s pin) :=
  inferInstanceAs (Decidable (_ = _))

/-- The enabled state machine holds the pin under OUT_STICKY, and the pin is routed to its block. -/
structure Sticks (w : World) (s : Driver) (pin : ℕ) : Prop where
  enabled : (w.sm s.1 s.2.2).enabled = true
  sticky : (w.sm s.1 s.2.2).outSticky = true
  oe : (w.sm s.1 s.2.2).pins.outPinOe.getLsbD pin = true
  driver : s ∈ (w.pads s.1).drivers
  routed : ((w.pads s.1).pioFuncMask s.2.1).getLsbD pin = true

instance (w : World) (s : Driver) (pin : ℕ) : Decidable (w.Sticks s pin) :=
  decidable_of_iff ((w.sm s.1 s.2.2).enabled = true ∧ (w.sm s.1 s.2.2).outSticky = true ∧
    (w.sm s.1 s.2.2).pins.outPinOe.getLsbD pin = true ∧ s ∈ (w.pads s.1).drivers ∧
    ((w.pads s.1).pioFuncMask s.2.1).getLsbD pin = true)
    ⟨fun ⟨he, hs, ho, hd, hr⟩ => ⟨he, hs, ho, hd, hr⟩,
      fun h => ⟨h.enabled, h.sticky, h.oe, h.driver, h.routed⟩⟩

/-! ### Who asserts a pin -/

/-- The state machine has written the pin and its write window is still open. -/
def wrote (w : World) (d : Driver) (pin : ℕ) : Bool :=
  (w.sm d.1 d.2.2).pins.wroteThisCycle.getLsbD pin

/-- The turn to come asserts the pin: by the instruction it presents or, on a delay cycle, because
the pin is held. -/
def turnAsserts (w : World) (b : BlockAddr) (i : Fin 4) (pin : ℕ) : Bool :=
  let s := (w.sm b i).presented
  w.due b i && if s.delay = 0 then s.assertsBy (w.physPin b) (w.getInstruction b i) pin
    else s.holds pin

/-- The driver may assert the pin in a resolve the call makes. -/
def asserts (w : World) (pin : ℕ) (d : Driver) : Call → Bool
  | .tickSms b => if d.1 = b then w.turnAsserts d.1 d.2.2 pin else w.wrote d pin
  | .smExec b k insn =>
    w.wrote d pin || machine d == (b, smIdx k) &&
      (((w.sm b (smIdx k)).pinWrite insn).any (·.drives (w.physPin b) pin) ||
        ((w.sm b (smIdx k)).sideWrite insn).any (·.drives (w.physPin b) pin))
  | .setEnabled _ _ _ | .setSmMaskEnabled _ _ _ | .enableSmMaskInSync _ _
  | .setConsecutivePindirs _ _ _ _ _ | .gpioSetFunction _ _ _ => w.wrote d pin
  | _ => false

/-- Another state machine may assert the pin in the call, and its block is routed to it. -/
def contends (w : World) (s : Driver) (pin : ℕ) (c : Call) (d : Driver) : Bool :=
  machine d != machine s && w.asserts pin d c &&
    (((w.step c).pads s.1).pioFuncMask d.2.1).getLsbD pin

/-- The state machine itself asserts the pin throughout the call: in a tick of its block because it
is due, in any other call because its last assertion stands. -/
def stands (w : World) (s : Driver) (pin : ℕ) : Call → Bool
  | .tickSms b => if b = s.1 then w.due s.1 s.2.2 else w.wrote s pin
  | _ => w.wrote s pin

/-- A forced instruction makes the state machine give the pin up, or its block gets new pads. -/
def givesUp (w : World) (s : Driver) (pin : ℕ) : Call → Bool
  | .smExec b k insn => (b, smIdx k) == machine s &&
    ((w.sm b (smIdx k)).pinWrite insn).any (·.releases (w.physPin b) pin)
  | .groupInitShared _ blocks => decide (s.1 ∈ blocks.take numPio)
  | _ => false

/-- The call leaves the state machine holding the pin, and nobody of higher priority asserts it. -/
structure Retains (s : Driver) (pin : ℕ) (w : World) (c : Call) : Prop where
  sticks : (w.step c).Sticks s pin
  kept : w.givesUp s pin c = false
  first : ∀ d ∈ ((w.step c).pads s.1).drivers, w.contends s pin c d = true →
    ¬ [s, d].Sublist ((w.step c).pads s.1).drivers

instance (s : Driver) (pin : ℕ) (w : World) (c : Call) : Decidable (Retains s pin w c) :=
  decidable_of_iff ((w.step c).Sticks s pin ∧ w.givesUp s pin c = false ∧
    ∀ d ∈ ((w.step c).pads s.1).drivers, w.contends s pin c d = true →
      ¬ [s, d].Sublist ((w.step c).pads s.1).drivers)
    ⟨fun ⟨hs, hk, hf⟩ => ⟨hs, hk, hf⟩, fun h => ⟨h.sticks, h.kept, h.first⟩⟩

/-- Nobody takes the pin over in the call: the state machine itself asserts it, or nobody else
does. -/
def Uncontested (s : Driver) (pin : ℕ) (w : World) (c : Call) : Prop :=
  w.stands s pin c = true ∨ ∀ d ∈ ((w.step c).pads s.1).drivers, w.contends s pin c d = false

instance (s : Driver) (pin : ℕ) (w : World) (c : Call) : Decidable (Uncontested s pin w c) :=
  inferInstanceAs (Decidable (_ ∨ _))

/-- What is to show of a call that resolves pads: the writers are among those foreseen. -/
theorem Retains.unrivalled {c : Call} (h : Retains s pin w c) (hu : Uncontested s pin w c)
    {sm : BlockAddr → Fin 4 → Sm} {p : Pads} (howners : p.owners = ((w.step c).pads s.1).owners)
    (hmask : p.pioFuncMask = ((w.step c).pads s.1).pioFuncMask)
    (hothers : ∀ d, machine d ≠ machine s →
      (sm d.1 d.2.2).pins.wroteThisCycle.getLsbD pin = true → w.asserts pin d c = true)
    (hself : w.stands s pin c = true → (sm s.1 s.2.2).pins.wroteThisCycle.getLsbD pin = true) :
    p.Unrivalled sm pin s := by
  have hcontends : ∀ d, machine d ≠ machine s → p.writesPin sm pin d = true →
      w.contends s pin c d = true := by
    intro d hd hwrites
    simp only [Pads.writesPin, Pads.writtenBy, BitVec.getLsbD_and, Bool.and_eq_true,
      hmask] at hwrites
    simp only [contends, Bool.and_eq_true, bne_iff_ne, ne_eq]
    exact ⟨⟨hd, hothers d hd hwrites.1⟩, hwrites.2⟩
  have hdrivers := Pads.drivers_of_owners howners
  rcases hu with hstands | hnone
  · refine .inl ⟨?_, fun d hsub hd => ?_⟩
    · simp only [Pads.writesPin, Pads.writtenBy, BitVec.getLsbD_and, Bool.and_eq_true, hmask]
      exact ⟨hself hstands, h.sticks.routed⟩
    · by_contra hwrites
      rw [hdrivers] at hsub
      have hmem : d ∈ ((w.step c).pads s.1).drivers :=
        hsub.subset (List.mem_cons_of_mem _ List.mem_cons_self)
      exact h.first d hmem (hcontends d hd (Bool.not_eq_false _ ▸ hwrites)) hsub
  · refine .inr fun d hmem hd => ?_
    by_contra hwrites
    have hfalse := hnone d (hdrivers ▸ hmem)
    rw [hcontends d hd (Bool.not_eq_false _ ▸ hwrites)] at hfalse
    cases hfalse

omit [Platform] in
/-- A resolve among foreseen writers. -/
theorem Shows.of_resolve {p : Pads} (hp : v'.pads s.1 = p.resolve v'.sm) (hs : s ∈ p.drivers)
    (hun : p.Unrivalled v'.sm pin s) (hlevel : p.writesPin v'.sm pin s = false →
      p.pinLevels.getLsbD pin = (v'.sm s.1 s.2.2).pins.outPinVal.getLsbD pin) : v'.Shows s pin := by
  rw [Shows, hp]
  exact (Pads.getLsbD_resolvedLevels _ _ _).trans (Pads.levelOf_of_unrivalled hs hun hlevel)

/-! ### Calls that leave the levels alone -/

/-- Between the worlds nothing happened to the levels: pads, records and the routing of pins show
the same. -/
structure SameLevels (w w' : World) : Prop where
  padRef : w'.padRef = w.padRef
  pads : ∀ r, (w'.padsAt r).levelView = (w.padsAt r).levelView
  sm : ∀ c i, (w'.sm c i).levelView = (w.sm c i).levelView

section
omit [Platform]

theorem SameLevels.refl (w : World) : SameLevels w w := ⟨rfl, fun _ => rfl, fun _ _ => rfl⟩

theorem SameLevels.trans (h : SameLevels w v) (h' : SameLevels v v') : SameLevels w v' :=
  ⟨h'.padRef.trans h.padRef, fun r => (h'.pads r).trans (h.pads r),
    fun c i => (h'.sm c i).trans (h.sm c i)⟩

theorem SameLevels.view (h : SameLevels w v) (c : BlockAddr) :
    (v.pads c).levelView = (w.pads c).levelView := by
  rw [World.pads, World.pads, h.padRef]
  exact h.pads _

theorem SameLevels.shows (h : SameLevels w v) (hw : w.Shows s pin) : v.Shows s pin := by
  have hlevels : (v.pads s.1).pinLevels = (w.pads s.1).pinLevels := congrArg Prod.fst (h.view s.1)
  have hval : (v.sm s.1 s.2.2).pins.outPinVal = (w.sm s.1 s.2.2).pins.outPinVal :=
    congrArg Prod.fst (h.sm s.1 s.2.2)
  rw [Shows, hlevels, hval]
  exact hw

theorem SameLevels.wrote (h : SameLevels w v) (c : BlockAddr) (i : Fin 4) :
    (v.sm c i).pins.wroteThisCycle = (w.sm c i).pins.wroteThisCycle := congrArg Prod.snd (h.sm c i)

theorem SameLevels.modifySm {f : Sm → Sm} (h : SameLevels w v)
    (hf : (f (v.sm b i)).levelView = (v.sm b i).levelView) : SameLevels w (v.modifySm b i f) := by
  refine h.trans ⟨padRef_modifySm b i f, fun r => by rw [padsAt_modifySm], fun c j => ?_⟩
  rw [World.modifySm, sm_setSm]
  split
  · rename_i he
    obtain ⟨rfl, rfl⟩ := Prod.mk.inj he
    exact hf
  · rfl

theorem SameLevels.setBlock {p : Pio} (h : SameLevels w v) (hp : p.pads = (v.blocks b).pads)
    (he : p.padsEmbedded.levelView = (v.blocks b).padsEmbedded.levelView)
    (hs : p.sm = (v.blocks b).sm) :
    SameLevels w (v.setBlock b p) := by
  refine h.trans ⟨padRef_setBlock hp, fun r => ?_, fun c i => by rw [sm_setBlock hs]⟩
  cases r with
  | embedded c =>
    by_cases hc : c = b
    · subst hc
      simpa [padsAt, World.setBlock] using he
    · simp [padsAt, World.setBlock, Function.update_of_ne hc]
  | shared g => rfl

theorem SameLevels.setPads {r : PadRef} {p : Pads} (h : SameLevels w v)
    (hp : p.levelView = (v.padsAt r).levelView) : SameLevels w (v.setPads r p) := by
  refine h.trans ⟨padRef_setPads r p, fun r' => ?_, fun c i => by rw [sm_setPads]⟩
  by_cases hr : r' = r
  · subst hr
    rw [padsAt_setPads_self]
    exact hp
  · rw [padsAt_setPads_of_ne hr]

theorem SameLevels.setGroup {grp : Group} {g : GroupAddr} (h : SameLevels w v)
    (hp : grp.pads = (v.groups g).pads) : SameLevels w (v.setGroup g grp) := by
  refine h.trans ⟨rfl, fun r => ?_, fun _ _ => rfl⟩
  cases r with
  | embedded c => rfl
  | shared g' =>
    by_cases hg : g' = g
    · subst hg
      simp [padsAt, World.setGroup, hp]
    · simp [padsAt, World.setGroup, Function.update_of_ne hg]

theorem SameLevels.foldl {α : Type} {f : World → α → World} (hf : ∀ v a, SameLevels v (f v a))
    (l : List α) (w : World) : SameLevels w (l.foldl f w) :=
  List.foldlRecOn (motive := SameLevels w) _ _ (.refl w) fun v hv a _ => hv.trans (hf v a)

end

theorem SameLevels.regSteps (h : SameLevels w v) (hsteps : RegSteps b i v v') :
    SameLevels w v' := by
  induction hsteps with
  | refl => exact h
  | tail _ hs ih =>
    cases hs with
    | sm t he =>
      have hrecord := ih.modifySm (b := b) (i := i) (f := fun _ => t)
        (by rw [Sm.levelView, he.keeps.2]; rfl)
      exact hrecord
    | irq c x => exact ih.setBlock (by rfl) (by rfl) (by rfl)

theorem SmOp.pins_apply (t : Sm) (op : SmOp) : (op.apply t).pins = t.pins := by
  cases op with
  | setConfig cfg =>
    simp only [SmOp.apply, Sm.setConfig, Sm.applyFifoJoin]
    split <;> rfl
  | put word =>
    obtain ⟨f, x, h⟩ := t.put_eq word
    rw [SmOp.apply, h]
  | get =>
    obtain ⟨f, x, h⟩ := t.get_eq
    rw [SmOp.apply, h]
  | _ => rfl

theorem PadOp.levelView_apply (p : Pads) (op : PadOp) : (op.apply p).levelView = p.levelView := by
  cases op with
  | setPullLevel mask level =>
    simp only [PadOp.apply, Pads.setPullLevel]
    split <;> rfl
  | padSetIso pin iso =>
    simp only [PadOp.apply, Pads.padSetIso]
    split <;> rfl
  | _ => rfl

theorem sameLevels_blockOp (w : World) (b : BlockAddr) (op : BlockOp) :
    SameLevels w (w.setBlock b (op.apply (w.blocks b))) := by
  cases op with
  | load offset insns =>
    have hload : ∀ p : Pio, (p.load offset insns).pads = p.pads ∧
        (p.load offset insns).padsEmbedded = p.padsEmbedded := by
      intro p
      refine List.foldlRecOn (motive := fun q : Pio => q.pads = p.pads ∧
        q.padsEmbedded = p.padsEmbedded) _ _ ⟨rfl, rfl⟩ fun q hq x _ => ?_
      dsimp only
      split <;> exact hq
    exact (SameLevels.refl w).setBlock (hload _).1 (congrArg Pads.levelView (hload _).2)
      (BlockOp.sm_apply _ (.load offset insns))
  | _ => exact (SameLevels.refl w).setBlock (by rfl) (by rfl) (by rfl)

theorem sameLevels_groupInit (w : World) (g : GroupAddr) (blocks : List BlockAddr) :
    SameLevels w (w.groupInit g blocks) := by
  have hgroup : SameLevels w (w.setGroup g
      { w.groups g with blk := blocks.take numPio, shared := false }) :=
        (SameLevels.refl w).setGroup rfl
  unfold groupInit
  dsimp only
  split
  · refine List.foldlRecOn (motive := SameLevels w) _ _ hgroup fun v hv k _ => ?_
    split
    · exact hv
    · exact hv.setBlock (by rfl) (by rfl) (by rfl)
  · exact hgroup

omit [Platform] in
theorem sameLevels_clkdivRestartSmMask (w : World) (b : BlockAddr) (mask : BitVec 8) :
    SameLevels w (w.clkdivRestartSmMask b mask) := by
  refine SameLevels.foldl (fun v i => ?_) _ w
  split
  · exact (SameLevels.refl v).modifySm rfl
  · exact .refl v

omit [Platform] in
/-- The loop of `pio_sim_set_sm_mask_enabled`. -/
theorem sameLevels_setEnables (w : World) (b : BlockAddr) (mask : BitVec 8) (enabled : Bool) :
    SameLevels w ((List.finRange 4).foldl (fun w (i : Fin 4) =>
      if mask.getLsbD i then w.modifySm b i fun s => { s with enabled := enabled } else w) w) := by
  refine SameLevels.foldl (fun v i => ?_) _ w
  split
  · exact (SameLevels.refl v).modifySm rfl
  · exact .refl v

theorem sameLevels_smInit (w : World) (b : BlockAddr) (i : Fin 4) (pc : ℕ) (c : SmConfig) :
    SameLevels w (w.smInit b i pc c) := by
  refine (SameLevels.refl w).modifySm ?_
  simp only [Sm.levelView, Sm.init, Sm.setConfig, Sm.applyFifoJoin]
  split <;> rfl

theorem sameLevels_tickEnd (w : World) (b : BlockAddr) : SameLevels w (w.tickEnd b) := by
  have hsync : SameLevels w
      (if w.padRef b = .embedded b then w.modifyPads b Pads.clockSync else w) := by
    split
    · exact (SameLevels.refl w).setPads rfl
    · exact .refl w
  exact hsync.setBlock (by rfl) (by rfl) (by rfl)

/-! ### Calls that resolve -/

theorem pads_resolvePads (x : World) (b c : BlockAddr) : (x.resolvePads b).pads c =
    if x.padRef c = x.padRef b then (x.pads c).resolve x.sm else x.pads c := by
  rw [World.pads, padRef_resolvePads, padsAt_resolvePads]
  rfl

theorem route_resolvePads (x : World) (b c : BlockAddr) :
    ((x.resolvePads b).pads c).levelView.2 = (x.pads c).levelView.2 := by
  rw [pads_resolvePads]
  split <;> rfl

omit [Platform] in
theorem wrote_eq_of_sm (h : v.sm = w.sm) (d : Driver) (pin : ℕ) :
    v.wrote d pin = w.wrote d pin := by
  rw [wrote, wrote, h]

/-- A resolve in a call, among the writers foreseen for it. -/
theorem Retains.shows_resolvePads {c : Call} {x : World} (h : Retains s pin w c)
    (hu : Uncontested s pin w c)
    (hroute : (x.pads s.1).levelView.2 = ((w.step c).pads s.1).levelView.2)
    (hothers : ∀ d, machine d ≠ machine s → x.wrote d pin = true → w.asserts pin d c = true)
    (hself : w.stands s pin c = true → x.wrote s pin = true)
    (hlevel : x.wrote s pin = false ∨ x.padRef s.1 ≠ x.padRef b → x.Shows s pin) :
    (x.resolvePads b).Shows s pin := by
  obtain ⟨hmask, howners⟩ := Prod.mk.inj hroute
  by_cases href : x.padRef s.1 = x.padRef b
  · have hpads := pads_resolvePads x b s.1
    rw [if_pos href] at hpads
    have hdriver : s ∈ (x.pads s.1).drivers := Pads.drivers_of_owners howners ▸ h.sticks.driver
    rw [← sm_resolvePads (w := x) b] at hpads
    refine Shows.of_resolve hpads hdriver ?_ fun hnot => ?_
    · rw [sm_resolvePads]
      exact h.unrivalled hu howners hmask hothers hself
    · rw [sm_resolvePads] at hnot ⊢
      refine hlevel (.inl ?_)
      simp only [Pads.writesPin, Pads.writtenBy, BitVec.getLsbD_and, hmask, h.sticks.routed,
        Bool.and_true] at hnot
      exact hnot
  · have hpads := pads_resolvePads x b s.1
    rw [if_neg href] at hpads
    rw [Shows, hpads, sm_resolvePads]
    exact hlevel (.inr href)

/-- A call that resolves the pads of one block once, whatever it does besides. -/
theorem Retains.shows_of_sameLevels {c : Call} (h : Retains s pin w c) (hu : Uncontested s pin w c)
    (hw : w.Shows s pin) (hv : SameLevels w v) (hstep : SameLevels (v.resolvePads b) (w.step c))
    (hothers : ∀ d, w.asserts pin d c = w.wrote d pin) (hself : w.stands s pin c = w.wrote s pin) :
    (w.step c).Shows s pin := by
  have hwrote : ∀ d, v.wrote d pin = w.wrote d pin := fun d => by rw [wrote, wrote, hv.wrote]
  refine hstep.shows
    (h.shows_resolvePads hu ?_ (fun d _ hd => ?_) (fun hstands => ?_) fun _ => hv.shows hw)
  · rw [← route_resolvePads v b, congrArg Prod.snd (hstep.view s.1)]
  · rw [hothers, ← hwrote, hd]
  · rw [hwrote, ← hself, hstands]

theorem wrote_setPins (r : PinRegs) (d : Driver) : (v.setPins b i r).wrote d pin =
    if machine d = (b, i) then r.wroteThisCycle.getLsbD pin else v.wrote d pin := by
  rw [wrote, World.setPins, sm_resolvePads, modifySm, sm_setSm, machine]
  split <;> rfl

theorem wrote_putPins {phys : ℕ → ℕ} {value : Word} {t : Option PinWrite} {d : Driver}
    (h : (v.putPins b i phys value t).wrote d pin = true) :
    v.wrote d pin = true ∨ (machine d = (b, i) ∧ t.any (·.drives phys pin) = true) := by
  cases t with
  | none => exact .inl h
  | some t =>
    rw [putPins, Option.elim_some, wrote_setPins] at h
    split at h
    · rename_i hd
      obtain ⟨hb, hi⟩ := Prod.mk.inj hd
      rcases PinWrite.wrote_apply h with hold | hdrives
      · refine .inl ?_
        rw [wrote, hb, hi]
        exact hold
      · exact .inr ⟨hd, hdrives⟩
    · exact .inl h

theorem wrote_putPins_of_wrote {phys : ℕ → ℕ} {value : Word} {t : Option PinWrite} {d : Driver}
    (h : v.wrote d pin = true) (ht : machine d = (b, i) → t.any (·.releases phys pin) = false) :
    (v.putPins b i phys value t).wrote d pin = true := by
  cases t with
  | none => exact h
  | some t =>
    rw [putPins, Option.elim_some, wrote_setPins]
    split
    · rename_i hd
      obtain ⟨hb, hi⟩ := Prod.mk.inj hd
      rw [wrote, hb, hi] at h
      exact PinWrite.wrote_apply_of_wrote h (ht hd)
    · exact h

theorem putPins_route (phys : ℕ → ℕ) (value : Word) (t : Option PinWrite) (c : BlockAddr) :
    ((v.putPins b i phys value t).pads c).levelView.2 = (v.pads c).levelView.2 := by
  cases t with
  | none => rfl
  | some t =>
    rw [putPins, Option.elim_some, World.setPins, route_resolvePads, World.pads, padRef_modifySm,
      padsAt_modifySm]
    rfl

/-- One write of the pin registers in a forced instruction. -/
theorem Retains.shows_putPins {c : Call} (h : Retains s pin w c) (hu : Uncontested s pin w c)
    {phys : ℕ → ℕ} {value : Word} {t : Option PinWrite} (hv : v.Shows s pin)
    (hroute : (v.pads s.1).levelView.2 = ((w.step c).pads s.1).levelView.2)
    (hothers : ∀ d, machine d ≠ machine s → (v.putPins b i phys value t).wrote d pin = true →
      w.asserts pin d c = true)
    (hself : w.stands s pin c = true → (v.putPins b i phys value t).wrote s pin = true) :
    (v.putPins b i phys value t).Shows s pin := by
  cases t with
  | none => exact hv
  | some t =>
    have hwrote : ∀ d, (v.putPins b i phys value (some t)).wrote d pin =
        (v.modifySm b i fun q => { q with pins := t.apply phys value (v.sm b i).pins }).wrote
            d pin :=
      fun d => wrote_eq_of_sm (sm_resolvePads b) d pin
    have hpads : (v.modifySm b i fun q =>
      { q with pins := t.apply phys value (v.sm b i).pins }).pads
        s.1 = v.pads s.1 := by rw [World.pads, padRef_modifySm, padsAt_modifySm, World.pads]
    refine h.shows_resolvePads hu (by rw [hpads, hroute]) (fun d hd hset => hothers d hd ?_)
      (fun hstands => ?_) fun hnot => ?_
    · rw [hwrote, hset]
    · rw [← hwrote, hself hstands]
    · rw [Shows, hpads]
      refine hv.trans ?_
      rw [modifySm, sm_setSm]
      split
      · rename_i hd
        obtain ⟨hb, hi⟩ := Prod.mk.inj hd
        subst hb hi
        rcases hnot with hnot | hne
        · rw [wrote, sm_modifySm_self] at hnot
          exact (PinWrite.val_apply hnot).symm
        · exact absurd rfl hne
      · rfl

theorem Retains.shows_smExec {k : ℕ} {insn : Insn} (h : Retains s pin w (.smExec b k insn))
    (hu : Uncontested s pin w (.smExec b k insn)) (hw : w.Shows s pin) :
    (w.step (.smExec b k insn)).Shows s pin := by
  have hstart : SameLevels w (w.modifySm b (smIdx k) fun q => { q with stalled := false }) :=
    (SameLevels.refl w).modifySm rfl
  have hmain : ∀ t, (w.modifySm b (smIdx k) fun q => { q with stalled := false }).sm b (smIdx k) =
    t →
      t.pinWrite insn = (w.sm b (smIdx k)).pinWrite insn ∧
        t.sideWrite insn = (w.sm b (smIdx k)).sideWrite insn := by
    rintro t rfl
    rw [sm_modifySm_self]
    exact ⟨rfl, rfl⟩
  obtain ⟨hpin, hside⟩ := hmain _ rfl
  have hphys : (w.modifySm b (smIdx k) fun q => { q with stalled := false }).physPin b =
      w.physPin b :=
    physPin_of_shell (shell_modifySm b (smIdx k) _) b
  obtain ⟨v, value, side, hv, hone⟩ :=
    execOne_writes (w.modifySm b (smIdx k) fun q => { q with stalled := false }) b (smIdx k) insn
  rw [hpin, hside, hphys] at hone
  have hsame : SameLevels w v := hstart.regSteps hv
  have hend : SameLevels
    ((v.putPins b (smIdx k) (w.physPin b) value ((w.sm b (smIdx k)).pinWrite insn)).putPins
      b (smIdx k) (w.physPin b) side ((w.sm b (smIdx k)).sideWrite insn))
          (w.step (.smExec b k insn)) := by
    rw [← hone, step, smExec]
    split
    · exact (SameLevels.refl _).modifySm rfl
    · exact (SameLevels.refl _).modifySm rfl
  have hroute : (v.pads s.1).levelView.2 = ((w.step (.smExec b k insn)).pads s.1).levelView.2 := by
    rw [hend.view s.1, putPins_route, putPins_route]
  have hwrote : ∀ d, v.wrote d pin = w.wrote d pin := fun d => by rw [wrote, wrote, hsame.wrote]
  -- who has written the pin after the first write, and after both
  have hfirst :
    ∀ d, (v.putPins b (smIdx k) (w.physPin b) value ((w.sm b (smIdx k)).pinWrite insn)).wrote
      d pin = true → w.wrote d pin = true ∨ (machine d = (b, smIdx k) ∧
        ((w.sm b (smIdx k)).pinWrite insn).any (·.drives (w.physPin b) pin) = true) := by
    intro d hd
    rw [← hwrote]
    exact wrote_putPins hd
  have hasserts : ∀ d, (w.wrote d pin = true ∨ (machine d = (b, smIdx k) ∧
      (((w.sm b (smIdx k)).pinWrite insn).any (·.drives (w.physPin b) pin) = true ∨
        ((w.sm b (smIdx k)).sideWrite insn).any (·.drives (w.physPin b) pin) = true))) →
      w.asserts pin d (.smExec b k insn) = true := by
    intro d hd
    simp only [asserts, Bool.or_eq_true, Bool.and_eq_true, beq_iff_eq]
    exact hd
  have hkeeps : w.stands s pin (.smExec b k insn) = true →
      (v.putPins b (smIdx k) (w.physPin b) value ((w.sm b (smIdx k)).pinWrite insn)).wrote s pin =
          true := by
    intro hstands
    refine wrote_putPins_of_wrote (by rw [hwrote]; exact hstands) fun hd => ?_
    have hkept := h.kept
    simp only [givesUp, ← hd, beq_self_eq_true, Bool.true_and] at hkept
    exact hkept
  have hmid : (v.putPins b (smIdx k) (w.physPin b) value ((w.sm b (smIdx k)).pinWrite insn)).Shows
      s pin :=
    h.shows_putPins hu (hsame.shows hw) hroute
      (fun d _ hd => hasserts d ((hfirst d hd).imp_right fun hm => ⟨hm.1, .inl hm.2⟩)) hkeeps
  refine hend.shows (h.shows_putPins hu hmid (by rw [putPins_route, hroute]) (fun d _ hd => ?_)
    fun hstands => wrote_putPins_of_wrote (hkeeps hstands) fun _ => ?_)
  · rcases wrote_putPins hd with hbefore | ⟨hm, hdrives⟩
    · exact hasserts d ((hfirst d hbefore).imp_right fun hm => ⟨hm.1, .inl hm.2⟩)
    · exact hasserts d (.inr ⟨hm, .inr hdrives⟩)
  · cases ht : (w.sm b (smIdx k)).sideWrite insn with
    | none => rfl
    | some t => exact Sm.sideWrite_releases ht _ _

/-! ### Ticks -/

theorem kept_foldl {l : List (Fin 4)} (hl : l.Nodup)
    (hopen : ∀ i, (u.sm b i).pins.wroteThisCycle = 0) :
    Kept b u (l.foldl (fun w i => w.smTick b i) u) := by
  induction l using List.reverseRecOn with
  | nil => exact .refl b u
  | append_singleton l i ih =>
    rw [List.nodup_append] at hl
    obtain ⟨hl, -, hdisjoint⟩ := hl
    have hi : i ∉ l := fun h => hdisjoint i h i List.mem_cons_self rfl
    rw [List.foldl_append]
    refine (ih hl).smTick ?_
    rw [sm_foldl_smTick_of_notMem hi]
    exact hopen i

/-- What a tick leaves of a pad set: its own, resolved once among the records it leaves, and any
other as it was. -/
theorem padsAt_tickSms (w : World) (b : BlockAddr) : (w.tickSms b).padRef = w.padRef ∧
    ∀ r, (w.tickSms b).padsAt r =
      if r = w.padRef b then (w.padsAt r).resolve (w.tickSms b).sm else w.padsAt r := by
  have hopen : (w.openWindow b).padRef = w.padRef ∧ (w.openWindow b).padsAt = w.padsAt :=
    openWindow_induction (P := fun v : World => v.padRef = w.padRef ∧ v.padsAt = w.padsAt)
      (fun v i hv => by rw [padRef_modifySm, padsAt_modifySm]; exact hv) ⟨rfl, rfl⟩
  have hkept : Kept b (w.openWindow b)
      ((List.finRange 4).foldl (fun w i => w.smTick b i) (w.openWindow b)) :=
    kept_foldl (List.nodup_finRange 4) fun i => by rw [sm_openWindow, if_pos rfl]; rfl
  refine ⟨by rw [tickSms, padRef_resolvePads, hkept.outside.padRef, hopen.1], fun r => ?_⟩
  split
  · rename_i hr
    have hpads := hkept.pads_resolvePads
    rw [hopen.1, pads_openWindow] at hpads
    rw [hr, tickSms, hpads, sm_resolvePads]
    rfl
  · rename_i hr
    rw [tickSms, padsAt_resolvePads, hkept.outside.padRef, hopen.1, if_neg hr]
    exact (hkept.outside.pads _ (by rw [hopen.1]; exact hr)).trans (by rw [hopen.2])

/-- The pads a tick leaves: those of before, resolved once among the records it leaves. -/
theorem pads_tickSms (w : World) (b c : BlockAddr) : (w.tickSms b).pads c =
    if w.padRef c = w.padRef b then (w.pads c).resolve (w.tickSms b).sm else w.pads c := by
  obtain ⟨href, hpads⟩ := padsAt_tickSms w b
  rw [World.pads, href, hpads]
  rfl

omit [Platform] in
theorem wrote_stickyReassert (t : Sm) (pin : ℕ) :
    (stickyReassert t).pins.wroteThisCycle.getLsbD pin =
      (t.pins.wroteThisCycle.getLsbD pin || t.outSticky && t.pins.outPinOe.getLsbD pin) := by
  unfold stickyReassert
  cases hs : t.outSticky with
  | false => simp
  | true => simp

/-- A due OUT_STICKY state machine asserts what it holds by the end of its turn. -/
theorem Sticks.wrote_tickSms (h : (w.tickSms s.1).Sticks s pin) (hdue : w.due s.1 s.2.2 = true) :
    (w.tickSms s.1).wrote s pin = true := by
  have hsticky := h.sticky
  have hoe := h.oe
  have hkeeps : ∀ t : Sm, (stickyReassert t).outSticky = t.outSticky ∧
      (stickyReassert t).pins.outPinOe = t.pins.outPinOe := by
    intro t
    unfold stickyReassert
    split <;> exact ⟨rfl, rfl⟩
  rw [sm_tickSms_of_due hdue, (hkeeps _).1] at hsticky
  rw [sm_tickSms_of_due hdue, (hkeeps _).2] at hoe
  rw [wrote, sm_tickSms_of_due hdue, wrote_stickyReassert, hsticky, hoe]
  simp

theorem pins_putPins (phys : ℕ → ℕ) (value : Word) (t : Option PinWrite) :
    ((v.putPins b i phys value t).sm b i).pins =
      t.elim (v.sm b i).pins fun t => t.apply phys value (v.sm b i).pins := by
  cases t with
  | none => rfl
  | some t => rw [putPins, Option.elim_some, Option.elim_some, sm_setPins_self]

theorem oe_putPins {phys : ℕ → ℕ} {value : Word} {t : Option PinWrite}
    (h : ((v.putPins b i phys value t).sm b i).pins.outPinOe.getLsbD pin = true) :
    ((v.sm b i).pins.outPinOe.getLsbD pin = true ∧ t.any (·.releases phys pin) = false) ∨
      t.any (·.directs phys pin) = true := by
  rw [pins_putPins] at h
  cases t with
  | none => exact .inl ⟨h, rfl⟩
  | some t => exact PinWrite.oe_apply h

/-- An instruction presented in an open window, with the re-assertion after it. -/
theorem asserts_of_execOne (insn : Insn)
    (hopen : (v.sm b i).pins.wroteThisCycle.getLsbD pin = false)
    (h : ((v.execOne b i insn).world.sm b i).pins.wroteThisCycle.getLsbD pin = true ∨
      ((v.sm b i).outSticky = true ∧
        ((v.execOne b i insn).world.sm b i).pins.outPinOe.getLsbD pin = true)) :
    (v.sm b i).assertsBy (v.physPin b) insn pin = true := by
  obtain ⟨x, value, side, hx, hone⟩ := execOne_writes v b i insn
  have hpins : (x.sm b i).pins = (v.sm b i).pins := hx.sm_effects.keeps.2
  simp only [Sm.assertsBy, Sm.holds, Bool.or_eq_true, Bool.and_eq_true, Bool.not_eq_true']
  rw [hone] at h
  rcases h with hwrote | ⟨hsticky, hoe⟩
  · refine .inl (.inl ?_)
    have hself : ∀ y : World, (y.sm b i).pins.wroteThisCycle.getLsbD pin =
      y.wrote (b, 0, i) pin := fun _ => rfl
    rw [hself] at hwrote
    rcases wrote_putPins hwrote with hwrote | ⟨-, hside⟩
    · rcases wrote_putPins hwrote with hwrote | ⟨-, hmain⟩
      · rw [← hself, hpins, hopen] at hwrote
        cases hwrote
      · exact .inl hmain
    · exact .inr hside
  · rcases oe_putPins hoe with ⟨hoe, -⟩ | hside
    · rcases oe_putPins hoe with ⟨hoe, hkept⟩ | hmain
      · rw [hpins] at hoe
        exact .inr ⟨⟨hsticky, hoe⟩, hkept⟩
      · exact .inl (.inr ⟨hsticky, .inl hmain⟩)
    · exact .inl (.inr ⟨hsticky, .inr hside⟩)

omit [Platform] in
theorem filed_fields (r : Executed) (fromExec : Bool) (t : Sm) :
    (if r.committed then t.retire fromExec r.setPc r.delay else { t with stalled := true }).pins =
      t.pins ∧
      (if r.committed then t.retire fromExec r.setPc r.delay
        else { t with stalled := true }).outSticky =
        t.outSticky := by
  split
  · unfold Sm.retire
    split <;> exact ⟨rfl, rfl⟩
  · exact ⟨rfl, rfl⟩

/-- A turn asserts no more than foreseen before the tick. -/
theorem turnAsserts_of_wrote (h : ((w.tickSms b).sm b i).pins.wroteThisCycle.getLsbD pin = true) :
    w.turnAsserts b i pin = true := by
  cases hdue : w.due b i with
  | false =>
    obtain ⟨n, hn⟩ := sm_tickSms_of_not_due hdue
    rw [hn] at h
    simp [Sm.openWindow] at h
  | true =>
    have hsm := sm_beforeSm w b i
    have hdue' : (w.beforeSm b i).due b i = true := by
      unfold due at hdue ⊢
      rw [hsm]
      exact hdue
    have hword : (w.beforeSm b i).getInstruction b i = w.getInstruction b i := by
      unfold getInstruction
      rw [hsm, insn_of_shell (shell_beforeSm w b i) b]
      rfl
    obtain ⟨-, -, -, hdelay, -⟩ := Sm.backgroundAutopull_fields (w.sm b i).openWindow.elapse
    have hopen : (w.sm b i).presented.pins.wroteThisCycle = 0 := by
      rcases (w.sm b i).openWindow.elapse.backgroundAutopull_eq with he | ⟨x, t, he⟩ <;>
        rw [Sm.presented, he] <;> rfl
    rw [sm_tickSms] at h
    rw [turnAsserts, hdue, Bool.true_and]
    split
    · rename_i hrun
      have hpresents : ((w.beforeSm b i).sm b i).delay = 0 := by
        rw [hsm]
        exact hdelay.symm.trans hrun
      have hturn : ((w.beforeSm b i).turnWorld b i).sm b i = (w.sm b i).presented := by
        rw [sm_turnWorld, hsm]
        rfl
      have hphys : ((w.beforeSm b i).turnWorld b i).physPin b = w.physPin b :=
        physPin_of_shell ((countFetch_local _ b b i i).shell.trans
          ((shell_modifySm b i _).trans ((shell_modifySm b i _).trans (shell_beforeSm w b i)))) b
      rw [smTick_of_presents hdue' hpresents, hword] at h
      dsimp only at h
      rw [sm_modifySm_self, Executed.file, wrote_stickyReassert] at h
      have hsticky :
        ((((w.beforeSm b i).turnWorld b i).execOne b i (w.getInstruction b i)).world.sm b
          i).outSticky = (((w.beforeSm b i).turnWorld b i).sm b i).outSticky :=
        congrArg (fun c : SmConfig × _ => c.1.outSticky) (execOne_control _ b i _)
      have hclear : (((w.beforeSm b i).turnWorld b i).sm b i).pins.wroteThisCycle.getLsbD pin =
          false := by
        rw [hturn, hopen]
        simp
      have hone := asserts_of_execOne (w.getInstruction b i) hclear
      rw [hturn, hphys] at hone
      rw [(filed_fields _ _ _).1, (filed_fields _ _ _).2, hsticky, hturn, Bool.or_eq_true,
        Bool.and_eq_true] at h
      exact hone h
    · rename_i hwait
      have hpos : 0 < ((w.beforeSm b i).sm b i).delay := by
        rw [hsm]
        exact Nat.pos_of_ne_zero fun he => hwait (hdelay.trans he)
      rw [smTick_of_delay hdue' hpos, sm_modifySm_self, hsm, Sm.delayCycle,
        wrote_stickyReassert] at h
      have hnone : (w.sm b i).presented.pins.wroteThisCycle.getLsbD pin = false := by
        rw [hopen]
        simp
      exact (Bool.or_eq_true _ _ ▸ h).resolve_left fun hw =>
        absurd (hnone.symm.trans hw) Bool.false_ne_true

theorem Retains.shows_tickSms (h : Retains s pin w (.tickSms b))
    (hu : Uncontested s pin w (.tickSms b))
    (hw : w.Shows s pin ∨ (b = s.1 ∧ w.due s.1 s.2.2 = true)) :
    (w.step (.tickSms b)).Shows s pin := by
  have hpads := pads_tickSms w b s.1
  have hroute : (w.pads s.1).levelView.2 = ((w.tickSms b).pads s.1).levelView.2 := by
    rw [hpads]
    split <;> rfl
  obtain ⟨hmask, howners⟩ := Prod.mk.inj hroute
  have hsticks : (w.tickSms b).Sticks s pin := h.sticks
  have hother : s.1 ≠ b → (w.tickSms b).sm s.1 s.2.2 = w.sm s.1 s.2.2 := fun hne =>
    sm_tickSms_of_ne w hne s.2.2
  have hval : ¬ (b = s.1 ∧ w.due s.1 s.2.2 = true) → ((w.tickSms b).sm s.1 s.2.2).pins.outPinVal =
      (w.sm s.1 s.2.2).pins.outPinVal := by
    intro hnot
    by_cases hb : s.1 = b
    · have hidle : w.due s.1 s.2.2 = false := Bool.not_eq_true _ ▸ fun hdue => hnot ⟨hb.symm, hdue⟩
      obtain ⟨n, hn⟩ := sm_tickSms_of_not_due hidle
      rw [← hb, hn]
      rfl
    · rw [hother hb]
  have hself : w.stands s pin (.tickSms b) = true → (w.tickSms b).wrote s pin = true := by
    intro hstands
    by_cases hb : b = s.1
    · rw [stands, if_pos hb] at hstands
      rw [hb] at hsticks ⊢
      exact hsticks.wrote_tickSms hstands
    · rw [stands, if_neg hb] at hstands
      rw [wrote, hother (Ne.symm hb)]
      exact hstands
  have hothers : ∀ d, machine d ≠ machine s → (w.tickSms b).wrote d pin = true →
      w.asserts pin d (.tickSms b) = true := by
    intro d _ hd
    by_cases hb : d.1 = b
    · rw [wrote, ← hb] at hd
      rw [asserts, if_pos hb]
      exact turnAsserts_of_wrote hd
    · rw [wrote, sm_tickSms_of_ne w hb] at hd
      rw [asserts, if_neg hb]
      exact hd
  show (w.tickSms b).Shows s pin
  by_cases href : w.padRef s.1 = w.padRef b
  · rw [if_pos href] at hpads
    refine Shows.of_resolve hpads (Pads.drivers_of_owners howners ▸ hsticks.driver)
      (h.unrivalled hu howners hmask hothers hself) fun hnot => ?_
    have hsilent : (w.tickSms b).wrote s pin = false := by
      simp only [Pads.writesPin, Pads.writtenBy, BitVec.getLsbD_and, hmask, hsticks.routed,
        Bool.and_true] at hnot
      exact hnot
    have hidle : ¬ (b = s.1 ∧ w.due s.1 s.2.2 = true) := by
      rintro ⟨hb, hdue⟩
      have hstands : w.stands s pin (.tickSms b) = true := by rw [stands, if_pos hb, hdue]
      rw [hself hstands] at hsilent
      cases hsilent
    rw [hval hidle]
    exact hw.resolve_right hidle
  · rw [if_neg href] at hpads
    have hb : s.1 ≠ b := fun he => href (by rw [he])
    rw [Shows, hpads, hother hb]
    exact hw.resolve_right fun he => hb he.1.symm

/-! ### The other calls -/

theorem shows_gpioSetFunction {k f : ℕ} (h : Retains s pin w (.gpioSetFunction b k f))
    (hu : Uncontested s pin w (.gpioSetFunction b k f)) (hw : w.Shows s pin) :
    (w.step (.gpioSetFunction b k f)).Shows s pin := by
  have hsm : (w.step (.gpioSetFunction b k f)).sm = w.sm := sm_modifyPads b _
  by_cases href : w.padRef s.1 = w.padRef b
  · -- the pads with the masks of the new FUNCSEL, which the call then resolves
    obtain ⟨p, hp, hlevels⟩ := Pads.gpioSetFunction_eq w.sm (w.pads b) k f
    have hp : (w.step (.gpioSetFunction b k f)).pads s.1 = p.resolve w.sm := by
      rw [step, gpioSetFunction, World.pads, padRef_modifyPads, href, modifyPads,
        padsAt_setPads_self, hp]
    have hsame : (w.pads s.1).pinLevels = (w.pads b).pinLevels := by
      rw [World.pads, href, World.pads]
    have hmask : p.pioFuncMask = ((w.step (.gpioSetFunction b k f)).pads s.1).pioFuncMask := by
      rw [hp]
      rfl
    have howners : p.owners = ((w.step (.gpioSetFunction b k f)).pads s.1).owners := by
      rw [hp]
      rfl
    refine Shows.of_resolve (by rw [hsm]; exact hp)
      (Pads.drivers_of_owners howners ▸ h.sticks.driver) ?_ fun _ => ?_
    · rw [hsm]
      exact h.unrivalled hu howners hmask (fun d _ hd => hd) id
    · rw [hsm, hlevels, ← hsame]
      exact hw
  · have hpads : (w.step (.gpioSetFunction b k f)).pads s.1 = w.pads s.1 := by
      rw [step, gpioSetFunction, World.pads, padRef_modifyPads]
      exact padsAt_setPads_of_ne href _
    rw [Shows, hpads, hsm]
    exact hw

theorem shows_pioSimInit (h : Retains s pin w (.init b)) (hw : w.Shows s pin) :
    (w.step (.init b)).Shows s pin := by
  have hne : s.1 ≠ b := by
    intro hb
    have henabled := h.sticks.enabled
    rw [step, sm_pioSimInit, if_pos hb] at henabled
    cases henabled
  have href : (w.pioSimInit b).padRef s.1 = w.padRef s.1 := by
    simp [padRef, pioSimInit, World.setBlock, hne]
  have hown : w.padRef s.1 ≠ .embedded b := by
    intro he
    have hmem : s.1 ∈ ((w.pioSimInit b).pads s.1).owners := Pads.mem_drivers h.sticks.driver
    rw [World.pads, href, he] at hmem
    simp [padsAt, pioSimInit, World.setBlock, Pio.initial, Pads.initDefaults, hne] at hmem
  have hpads : (w.pioSimInit b).pads s.1 = w.pads s.1 := by
    rw [World.pads, href, World.pads]
    cases hr : w.padRef s.1 with
    | embedded c =>
      have hcb : c ≠ b := fun he => hown (by rw [hr, he])
      simp [padsAt, pioSimInit, World.setBlock, Function.update_of_ne hcb]
    | shared g => rfl
  rw [Shows, step, hpads, sm_pioSimInit, if_neg hne]
  exact hw

theorem shows_groupInitShared {g : GroupAddr} {blocks : List BlockAddr}
    (h : Retains s pin w (.groupInitShared g blocks)) (hw : w.Shows s pin) :
    (w.step (.groupInitShared g blocks)).Shows s pin := by
  obtain ⟨href, hnew, -, hsm⟩ := groupInitShared_sets w g blocks
  have hout : s.1 ∉ blocks.take numPio := of_decide_eq_false h.kept
  have hkeep : (w.groupInitShared g blocks).padRef s.1 = w.padRef s.1 := by rw [href, if_neg hout]
  have hother : w.padRef s.1 ≠ .shared g := by
    intro he
    have hmem : s.1 ∈ ((w.groupInitShared g blocks).pads s.1).owners :=
      Pads.mem_drivers h.sticks.driver
    rw [World.pads, hkeep, he, hnew] at hmem
    exact hout hmem
  have hlevels : ((w.groupInitShared g blocks).pads s.1).pinLevels = (w.pads s.1).pinLevels := by
    have hfold := (foldl_setPadRef g (blocks.take numPio) ((w.groupInit g blocks).setGroup g
      { (w.groupInit g blocks).groups g with
        shared := true, pads := Pads.initDefaults (blocks.take numPio) })).2.1
    have hinit := congrArg Prod.fst ((sameLevels_groupInit w g blocks).pads (w.padRef s.1))
    rw [World.pads, hkeep]
    refine (congrArg Pads.pinLevels (congrFun hfold _)).trans (Eq.trans ?_ hinit)
    cases hr : w.padRef s.1 with
    | embedded c => rfl
    | shared g' =>
      have hg : g' ≠ g := fun he => hother (by rw [hr, he])
      simp [padsAt, World.setGroup, Function.update_of_ne hg, Pads.levelView]
  rw [Shows, step, hlevels, hsm]
  exact hw

theorem shows_groupOpen (g : GroupAddr) (hw : w.Shows s pin) :
    (w.step (.groupOpen g)).Shows s pin := by
  refine List.foldlRecOn (motive := fun v : World => v.Shows s pin) _ _ hw fun v hv b _ => ?_
  have hval : ((v.openWindow b).sm s.1 s.2.2).pins.outPinVal = (v.sm s.1 s.2.2).pins.outPinVal := by
    rw [sm_openWindow]
    split <;> rfl
  have hpads : (v.openWindow b).pads s.1 = v.pads s.1 :=
    openWindow_induction (P := fun x : World => x.pads s.1 = v.pads s.1)
      (fun x i hx => by rw [World.pads, padsAt_modifySm, padRef_modifySm]; exact hx) rfl
  rw [Shows, hpads, hval]
  exact hv

/-- A call in which the state machine retains the pin and nobody takes it over leaves its level on
the pad. -/
theorem shows_step {c : Call} (h : Retains s pin w c) (hu : Uncontested s pin w c)
    (hw : w.Shows s pin) : (w.step c).Shows s pin := by
  cases c with
  | sm b k op =>
    have hsame : SameLevels w (w.modifySm b (smIdx k) fun t => op.apply t) :=
      (SameLevels.refl w).modifySm (by rw [Sm.levelView, SmOp.pins_apply, Sm.levelView])
    exact hsame.shows hw
  | block b op => exact (sameLevels_blockOp w b op).shows hw
  | pad b op =>
    have hsame : SameLevels w (w.modifyPads b fun p => op.apply p) :=
      (SameLevels.refl w).setPads (PadOp.levelView_apply (w.pads b) op)
    exact hsame.shows hw
  | init b => exact shows_pioSimInit h hw
  | setEnabled b k enabled =>
    exact h.shows_of_sameLevels hu hw ((SameLevels.refl w).modifySm rfl) (.refl _)
      (fun _ => rfl) rfl
  | setSmMaskEnabled b mask enabled =>
    exact h.shows_of_sameLevels hu hw (sameLevels_setEnables w b mask enabled) (.refl _)
      (fun _ => rfl) rfl
  | clkdivRestartSmMask b mask => exact (sameLevels_clkdivRestartSmMask w b mask).shows hw
  | enableSmMaskInSync b mask =>
    exact h.shows_of_sameLevels hu hw (sameLevels_setEnables w b mask true)
      (sameLevels_clkdivRestartSmMask _ b mask) (fun _ => rfl) rfl
  | setConsecutivePindirs b k base count isOut =>
    refine h.shows_of_sameLevels hu hw ((SameLevels.refl w).modifySm ?_) (.refl _)
      (fun _ => rfl) rfl
    exact List.foldlRecOn (motive := fun r : PinRegs => (r.outPinVal, r.wroteThisCycle) =
      (w.sm b (smIdx k)).levelView) _ _ rfl fun r hr _ _ => hr
  | smInit b k pc cfg => exact (sameLevels_smInit w b (smIdx k) pc cfg).shows hw
  | smExec b k insn => exact h.shows_smExec hu hw
  | gpioSetFunction b k f => exact shows_gpioSetFunction h hu hw
  | groupInit g blocks => exact (sameLevels_groupInit w g blocks).shows hw
  | groupInitShared g blocks => exact shows_groupInitShared h hw
  | loadProgram b k offset prog =>
    rcases w.loadProgram_cases b (smIdx k) offset prog with he | ⟨words, -, he⟩
    · rw [step, he]
      exact hw
    · rw [step, he]
      exact SameLevels.shows ((sameLevels_blockOp w b (.load offset words)).modifySm rfl) hw
  | tickSms b => exact h.shows_tickSms hu (.inl hw)
  | tickEnd b => exact (sameLevels_tickEnd w b).shows hw
  | groupOpen g => exact shows_groupOpen g hw
  | groupEnd g =>
    rw [step, groupEnd]
    split
    · exact SameLevels.shows ((SameLevels.refl w).setPads rfl) hw
    · exact hw

theorem shows_run {cs : List Call} (hw : w.Shows s pin) (hret : Run.Along step (Retains s pin) w cs)
    (hun : Run.Along step (Uncontested s pin) w cs) : (w.run cs).Shows s pin :=
  Run.invariant (I := fun w : World => w.Shows s pin) (fun _ _ hv hc => shows_step hc.1 hc.2 hv) hw
    (hret.and hun)

/-- In a tick its divider does not elapse in, an OUT_STICKY state machine has no say in the
level. -/
theorem shows_tickSms_of_not_due (hdue : w.due s.1 s.2.2 = false) : (w.tickSms s.1).Shows s pin ↔
    ((w.pads s.1).levelWriter (w.tickSms s.1).sm pin).elim (w.Shows s pin) fun d =>
      machine d ≠ machine s ∧ ((w.tickSms s.1).sm d.1 d.2.2).pins.outPinVal.getLsbD pin =
        (w.sm s.1 s.2.2).pins.outPinVal.getLsbD pin := by
  obtain ⟨n, hn⟩ := sm_tickSms_of_not_due hdue
  have hpads := pads_tickSms w s.1 s.1
  rw [if_pos rfl] at hpads
  have hval : ((w.tickSms s.1).sm s.1 s.2.2).pins.outPinVal = (w.sm s.1 s.2.2).pins.outPinVal := by
    rw [hn]
    rfl
  have hlevel : (w.tickSms s.1).Shows s pin ↔ (w.pads s.1).levelOf (w.tickSms s.1).sm pin =
      (w.sm s.1 s.2.2).pins.outPinVal.getLsbD pin := by
    rw [Shows, hpads, hval, Pads.resolve, Pads.getLsbD_resolvedLevels]
  rw [hlevel, Pads.levelOf]
  cases hlast : (w.pads s.1).levelWriter (w.tickSms s.1).sm pin with
  | none => exact Iff.rfl
  | some d =>
    refine ⟨fun hl => ⟨fun hd => ?_, hl⟩, fun hl => hl.2⟩
    have hwrites := LastWriter.claims_of_last hlast
    obtain ⟨hb, hi⟩ := Prod.mk.inj hd
    simp only [Pads.writesPin, Pads.writtenBy, BitVec.getLsbD_and, Bool.and_eq_true] at hwrites
    rw [hb, hi, hn] at hwrites
    simp [Sm.openWindow] at hwrites

/-- From a tick in which its own divider elapses on, an OUT_STICKY state machine has its level on a
pin it holds for as long as nobody takes the pin over: in each later call the state machine asserts
the pin, or no other does. In a tick its divider does not elapse in it asserts nothing, so that the
last of the others to write the pin has it. -/
theorem sticky_shows_while_uncontested (s : Driver) (pin : ℕ) :
    (∀ (w : World) (cs : List Call), w.due s.1 s.2.2 = true →
      Run.Along step (Retains s pin) w (.tickSms s.1 :: cs) →
      Run.Along step (Uncontested s pin) (w.tickSms s.1) cs →
        (w.run (.tickSms s.1 :: cs)).Shows s pin) ∧
    ∀ w : World, w.due s.1 s.2.2 = false → ((w.tickSms s.1).Shows s pin ↔
      ((w.pads s.1).levelWriter (w.tickSms s.1).sm pin).elim (w.Shows s pin) fun d =>
        machine d ≠ machine s ∧ ((w.tickSms s.1).sm d.1 d.2.2).pins.outPinVal.getLsbD pin =
          (w.sm s.1 s.2.2).pins.outPinVal.getLsbD pin) := by
  refine ⟨fun w cs hdue hret hun => ?_, fun w hdue => shows_tickSms_of_not_due hdue⟩
  have hstart : (w.step (.tickSms s.1)).Shows s pin := by
    refine hret.1.shows_tickSms (.inl ?_) (.inr ⟨rfl, hdue⟩)
    rw [stands, if_pos rfl, hdue]
  have hrun := shows_run hstart hret.2 hun
  exact hrun

omit [Platform] in
/-- State machine 1 drives pin 3 high at half speed. -/
theorem sticky_shows_while_uncontested_half_speed :
    letI : Platform := ⟨.rp2350⟩
    let set := { Sm.initial.config with setBase := 3, setCount := 1, outSticky := true, clkdivInt := 2 }
    let w := initial.run [.block 0 (.load 0 [0xE001]), .smInit 0 1 0 set,
      .setConsecutivePindirs 0 1 3 1 true, .setEnabled 0 1 true, .tickSms 0, .tickEnd 0]
    (w.run [.tickSms 0, .tickEnd 0, .tickSms 0, .tickEnd 0, .tickSms 0]).Shows (0, 0, 1) 3 := by
  intro set w
  exact (@sticky_shows_while_uncontested ⟨.rp2350⟩ (0, 0, 1) 3).1 w
    [.tickEnd 0, .tickSms 0, .tickEnd 0, .tickSms 0]
    (by decide +kernel) (by decide +kernel) (by decide +kernel)

omit [Platform] in
/-- With state machine 0 driving the same pin low at full speed, the pin is low after every second
tick, although nobody outranks state machine 1. -/
theorem sticky_pin_lost_between_cycles :
    letI : Platform := ⟨.rp2350⟩
    let set := { Sm.initial.config with setBase := 3, setCount := 1, wrapTop := 0 }
    let high := { set with outSticky := true, clkdivInt := 2, wrapBottom := 1, wrapTop := 1 }
    let w := initial.run
      [.block 0 (.load 0 [0xE000, 0xE001]), .smInit 0 0 0 set, .smInit 0 1 1 high,
      .setConsecutivePindirs 0 1 3 1 true, .setSmMaskEnabled 0 3 true, .tickSms 0, .tickEnd 0]
    let v := w.run [.tickSms 0, .tickEnd 0]
    w.due 0 1 = true ∧ Retains (0, 0, 1) 3 w (.tickSms 0) ∧ v.Shows (0, 0, 1) 3 ∧
      Retains (0, 0, 1) 3 v (.tickSms 0) ∧ ¬ (v.tickSms 0).Shows (0, 0, 1) 3 := by
  let P : Platform := ⟨.rp2350⟩
  decide +kernel

end World
end PioSim
