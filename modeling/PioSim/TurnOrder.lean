import PioSim.IrqLedger
import PioSim.Congruence
import PioSim.Relocation
import PioSim.Synchroniser
import Mathlib.Data.List.Induction

/-!
# The order of the turns in a tick

Within a tick the state machines of a block meet in three places only: the IRQ flags, the pads and
the count of unwritten fetches. While no flag is touched and no synchroniser is bypassed, none of
them sees what the others do, so each leaves the record it would leave going first. Each resolve on
the way gives a pin its level by what has been written so far, and nothing written in a tick is
unwritten in it, so the last resolve alone decides.
-/

namespace PioSim

variable [Platform]

/-! ### What turns leave of the pads -/

/-- The pad set without what a resolve writes. -/
def Pads.unresolved (p : Pads) : Pads := { p with pinLevels := 0, pinDirs := 0 }

/-- A synchronised input does not depend on a resolve. -/
theorem Pads.inputLevel_of_unresolved {p q : Pads} (hbypass : p.syncBypass = 0)
    (h : q.unresolved = p.unresolved) : q.inputLevel = p.inputLevel := by
  have hsync : q.inSync1 = p.inSync1 :=
    (congrArg Pads.inSync1 h : q.unresolved.inSync1 = p.unresolved.inSync1)
  have hmask : q.syncBypass = p.syncBypass :=
    (congrArg Pads.syncBypass h : q.unresolved.syncBypass = p.unresolved.syncBypass)
  have hnone : ∀ m : Mask, m &&& 0 = 0 := fun m => BitVec.and_zero
  funext pin
  simp only [Pads.inputLevel, hsync, hmask, hbypass, hnone]

namespace World

variable {u v v' w : World} {b c : BlockAddr} {i j : Fin 4}

/-- Outside the records, the IRQ flags, block `b`'s count of unwritten fetches and what resolves
write to its pads, the worlds are one. -/
structure SameOutside (b : BlockAddr) (v v' : World) : Prop where
  block : ∀ c, v'.blocks c = { v.blocks c with
    sm := (v'.blocks c).sm
    irq := (v'.blocks c).irq
    unwrittenFetches := (v'.blocks c).unwrittenFetches
    padsEmbedded := (v'.blocks c).padsEmbedded }
  group : ∀ g, v'.groups g = { v.groups g with pads := (v'.groups g).pads }
  fetches : ∀ c, c ≠ b → (v'.blocks c).unwrittenFetches = (v.blocks c).unwrittenFetches
  pads : ∀ r, r ≠ v.padRef b → v'.padsAt r = v.padsAt r
  own : (v'.padsAt (v.padRef b)).unresolved = (v.padsAt (v.padRef b)).unresolved

section
omit [Platform]

theorem SameOutside.refl (b : BlockAddr) (v : World) : SameOutside b v v :=
  ⟨fun _ => rfl, fun _ => rfl, fun _ _ => rfl, fun _ _ => rfl, rfl⟩

theorem SameOutside.padRef (h : SameOutside b v v') : v'.padRef = v.padRef := by
  funext c
  rw [World.padRef, h.block]
  rfl

theorem SameOutside.shell (h : SameOutside b v v') : v'.shell = v.shell := by
  funext c
  rw [World.shell, h.block]
  rfl

/-- Writes of a block that leave its pad set and, unless it is `b`, its fetch count. -/
theorem SameOutside.setBlock (h : SameOutside b u v) {q : Pio}
    (hq : q = { v.blocks c with sm := q.sm, irq := q.irq, unwrittenFetches := q.unwrittenFetches })
    (hf : c ≠ b → q.unwrittenFetches = (v.blocks c).unwrittenFetches) :
    SameOutside b u (v.setBlock c q) := by
  have hpads : (v.setBlock c q).padsAt = v.padsAt := padsAt_setBlock (by rw [hq])
  refine ⟨fun d => ?_, h.group, fun d hd => ?_, fun r hr => ?_, ?_⟩
  · by_cases hdc : d = c
    · subst hdc
      simp only [World.setBlock, Function.update_self]
      rw [hq, h.block]
    · simp only [World.setBlock, Function.update_of_ne hdc]
      exact h.block d
  · by_cases hdc : d = c
    · subst hdc
      simp only [World.setBlock, Function.update_self]
      exact (hf hd).trans (h.fetches d hd)
    · simp only [World.setBlock, Function.update_of_ne hdc]
      exact h.fetches d hd
  · rw [hpads]
    exact h.pads r hr
  · rw [hpads]
    exact h.own

theorem SameOutside.setSm (h : SameOutside b u v) (c : BlockAddr) (j : Fin 4) (s : Sm) :
    SameOutside b u (v.setSm c j s) := h.setBlock rfl fun _ => rfl

end

theorem SameOutside.resolvePads (h : SameOutside b u v) : SameOutside b u (v.resolvePads b) := by
  have href : v.padRef b = u.padRef b := congrFun h.padRef b
  have hother : ∀ r, r ≠ u.padRef b → (v.resolvePads b).padsAt r = v.padsAt r := by
    intro r hr
    exact padsAt_setPads_of_ne (by rw [href]; exact hr) _
  refine ⟨fun c => ?_, fun g => ?_, fun c hc => ?_, fun r hr => ?_, ?_⟩
  · have hblock : (v.resolvePads b).blocks c =
        { v.blocks c with padsEmbedded := ((v.resolvePads b).blocks c).padsEmbedded } := by
      unfold World.resolvePads modifyPads World.setPads
      cases v.padRef b with
      | shared g => rfl
      | embedded d =>
        by_cases hcd : c = d
        · subst hcd
          simp [World.setBlock]
        · simp [World.setBlock, Function.update_of_ne hcd]
    rw [hblock, h.block c]
  · have hgroup : (v.resolvePads b).groups g =
        { v.groups g with pads := ((v.resolvePads b).groups g).pads } := by
      unfold World.resolvePads modifyPads World.setPads
      cases v.padRef b with
      | embedded d => rfl
      | shared d =>
        by_cases hgd : g = d
        · subst hgd
          simp [World.setGroup]
        · simp [World.setGroup, Function.update_of_ne hgd]
    rw [hgroup, h.group g]
  · have hledger := congrArg (fun l : _ × _ × BitVec 64 => l.2.2)
      (congrFun (ledger_resolvePads (w := v) (c := b)) c)
    exact hledger.trans (h.fetches c hc)
  · rw [hother r hr]
    exact h.pads r hr
  · have hown := h.own
    rw [← href] at hown ⊢
    rw [World.resolvePads, modifyPads, padsAt_setPads_self]
    exact hown

omit [Platform] in
/-- Worlds that are the same outside and agree inside are equal. -/
theorem SameOutside.ext (h : SameOutside b u v) (h' : SameOutside b u v') (hsm : v'.sm = v.sm)
    (hirqs : v'.irqs = v.irqs)
    (hfetch : (v'.blocks b).unwrittenFetches = (v.blocks b).unwrittenFetches)
    (hpads : v'.padsAt (u.padRef b) = v.padsAt (u.padRef b)) : v' = v := by
  have hat : v'.padsAt = v.padsAt := by
    funext r
    by_cases hr : r = u.padRef b
    · rw [hr, hpads]
    · rw [h'.pads r hr, h.pads r hr]
  have hblocks : v'.blocks = v.blocks := by
    funext c
    have hcount : (v'.blocks c).unwrittenFetches = (v.blocks c).unwrittenFetches := by
      by_cases hc : c = b
      · rw [hc, hfetch]
      · rw [h'.fetches c hc, h.fetches c hc]
    have hrecords : (v'.blocks c).sm = (v.blocks c).sm := congrFun hsm c
    have hflags : (v'.blocks c).irq = (v.blocks c).irq := congrFun hirqs c
    have hembedded : (v'.blocks c).padsEmbedded = (v.blocks c).padsEmbedded :=
      congrFun hat (.embedded c)
    rw [h'.block c, h.block c, hrecords, hflags, hcount, hembedded]
  have hgroups : v'.groups = v.groups := by
    funext g
    have hshared : (v'.groups g).pads = (v.groups g).pads := congrFun hat (.shared g)
    rw [h'.group g, h.group g, hshared]
  calc v' = ⟨v'.blocks, v'.groups⟩ := rfl
    _ = v := by rw [hblocks, hgroups]

/-! ### What a turn makes of its record -/

omit [Platform] in
theorem coupled_eq : Coupled (Eq : Garb → Garb → Prop) :=
  ⟨fun f h => by rw [h], fun x h => by rw [h], fun d h => by rw [h]⟩

omit [Platform] in
theorem alike_eq {s s' : Sm} : Sm.Alike Eq s s' ↔ s' = s := by
  constructor
  · rintro ⟨e, rfl, rfl⟩
    rfl
  · rintro rfl
    exact ⟨s'.garb, rfl, rfl⟩

def SameRecord (b : BlockAddr) (i : Fin 4) (v v' : World) : Prop := v'.sm b i = v.sm b i

theorem parallel_sameRecord (b : BlockAddr) (i : Fin 4) : Parallel Eq b i (SameRecord b i) where
  sm h := alike_eq.mpr h
  record h hs := by
    rw [SameRecord, sm_setSm_self, sm_setSm_self]
    exact alike_eq.mp hs
  irq c x h := by
    rw [SameRecord, sm_setIrq, sm_setIrq]
    exact h
  pins h hs := by
    rw [SameRecord, sm_setPins_self, sm_setPins_self]
    exact alike_eq.mp hs

theorem SameView.modifySm (h : SameView b v v') (c : BlockAddr) (i : Fin 4) (f : Sm → Sm) :
    SameView b (v.modifySm c i f) (v'.modifySm c i f) where
  input := by
    have hinput : ∀ w : World, (w.modifySm c i f).inputLevel b = w.inputLevel b := by
      intro w
      funext pin
      rw [inputLevel, pads, padsAt_modifySm, padRef_modifySm]
      rfl
    rw [hinput, hinput, h.input]
  irqs := by rw [irqs_modifySm, irqs_modifySm, h.irqs]
  shell := by rw [shell_modifySm, shell_modifySm, h.shell]

theorem SameView.countFetch (h : SameView b v v') (i : Fin 4) :
    SameView b (v.countFetch b i) (v'.countFetch b i) where
  input := by
    funext pin
    rw [inputLevel_countFetch, inputLevel_countFetch, h.input]
  irqs := by rw [irqs_countFetch, irqs_countFetch, h.irqs]
  shell := by rw [(countFetch_local v b b i i).shell, (countFetch_local v' b b i i).shell, h.shell]

/-- A turn makes the same of the same record, where its state machine sees the same. -/
theorem smTick_congr (h : SameView b v v') (hsm : v'.sm b i = v.sm b i) :
    (v'.smTick b i).sm b i = (v.smTick b i).sm b i := by
  have hdue' : v'.due b i = v.due b i := by unfold due; rw [hsm]
  cases hdue : v.due b i with
  | false =>
    rw [smTick_of_not_due hdue, smTick_of_not_due (hdue'.trans hdue), sm_modifySm_self,
      sm_modifySm_self, hsm]
  | true =>
    by_cases hd : (v.sm b i).delay = 0
    · have hword : v'.getInstruction b i = v.getInstruction b i := by
        unfold getInstruction
        rw [hsm, insn_of_shell h.shell b]
      have hturn : SameView b (v.turnWorld b i) (v'.turnWorld b i) :=
        ((h.modifySm b i _).modifySm b i _).countFetch i
      have hrecord : SameRecord b i (v.turnWorld b i) (v'.turnWorld b i) := by
        rw [SameRecord, sm_turnWorld, sm_turnWorld, hsm]
      have hone : ExecutedAlike (SameRecord b i)
          ((v.turnWorld b i).execOne b i (v.getInstruction b i))
          ((v'.turnWorld b i).execOne b i (v.getInstruction b i)) :=
        (parallel_sameRecord b i).execOne coupled_eq hrecord hturn fun _ _ _ => by rw [hrecord]
      rw [smTick_of_presents hdue hd, smTick_of_presents (hdue'.trans hdue)
        (by rw [hsm, hd]), hword, hsm]
      dsimp only
      rw [sm_modifySm_self, sm_modifySm_self, hone.world]
      unfold Executed.file
      rw [hone.committed, hone.setPc, hone.delay]
    · have hpos := Nat.pos_of_ne_zero hd
      rw [smTick_of_delay hdue hpos, smTick_of_delay (hdue'.trans hdue) (by rwa [hsm]),
        sm_modifySm_self, sm_modifySm_self, hsm]

/-! ### Flags and fetches -/

/-- The word neither writes nor waits for an IRQ flag. -/
def isQuiet (insn : Insn) : Bool :=
  opcode insn != 6 && !(opcode insn == 1 && operandOf insn / 32 % 4 == 2)

theorem irqs_execOne_of_isQuiet {insn : Insn} (h : isQuiet insn = true) :
    (w.execOne b i insn).world.irqs = w.irqs := by
  simp only [isQuiet, Bool.and_eq_true, bne_iff_ne, ne_eq, Bool.not_eq_true', Bool.and_eq_false_iff,
    beq_eq_false_iff_ne] at h
  obtain ⟨hirq, hwait⟩ := h
  rw [irqs_execOne]
  rcases w.irqs_execInsn b i insn with he | ⟨c, k, -, hword | hword, -⟩ | ⟨c, k, -, hword, -⟩
  · exact he
  · simp only [isWaitIrq, Bool.and_eq_true, beq_iff_eq] at hword
    rcases hwait with hne | hne
    · exact absurd hword.1.1 hne
    · exact absurd hword.1.2 hne
  · simp only [isIrqClear, Bool.and_eq_true, beq_iff_eq] at hword
    exact absurd hword.1 hirq
  · simp only [isIrqRaise, Bool.and_eq_true, beq_iff_eq] at hword
    exact absurd hword.1 hirq

def TurnQuiet (w : World) (b : BlockAddr) (i : Fin 4) : Prop :=
  w.due b i = true → (w.sm b i).delay = 0 → isQuiet (w.getInstruction b i) = true

instance (w : World) (b : BlockAddr) (i : Fin 4) : Decidable (w.TurnQuiet b i) :=
  inferInstanceAs (Decidable (_ → _ → _))

theorem irqs_smTick_of_turnQuiet (h : w.TurnQuiet b i) : (w.smTick b i).irqs = w.irqs := by
  cases hdue : w.due b i with
  | false => rw [smTick_of_not_due hdue, irqs_modifySm]
  | true =>
    by_cases hd : (w.sm b i).delay = 0
    · rw [smTick_of_presents hdue hd]
      dsimp only
      rw [irqs_modifySm, irqs_execOne_of_isQuiet (h hdue hd), irqs_turnWorld]
    · rw [smTick_of_delay hdue (Nat.pos_of_ne_zero hd), irqs_modifySm]

/-- The turn fetches a word that was never loaded. -/
def fetchesUnwritten (w : World) (b : BlockAddr) (i : Fin 4) : Bool :=
  w.due b i && (w.sm b i).delay == 0 && !(w.sm b i).execPending &&
    !(w.blocks b).insnUsed (Fin.ofNat 32 (w.sm b i).pc)

omit [Platform] in
/-- Whether loaded words are fetched is a matter of the record alone. -/
theorem fetchesUnwritten_congr (hsm : v'.sm b i = v.sm b i)
    (hused : (v'.blocks b).insnUsed = (v.blocks b).insnUsed) :
    v'.fetchesUnwritten b i = v.fetchesUnwritten b i := by
  unfold fetchesUnwritten due
  rw [hsm, hused]

omit [Platform] in
theorem fetches_countFetch (w : World) (b : BlockAddr) (i : Fin 4) :
    ((w.countFetch b i).blocks b).unwrittenFetches = (w.blocks b).unwrittenFetches +
      if !(w.sm b i).execPending && !(w.blocks b).insnUsed (Fin.ofNat 32 (w.sm b i).pc) then
        1 else 0 := by
  unfold World.countFetch
  rw [← Bool.not_or]
  cases h : (w.sm b i).execPending || (w.blocks b).insnUsed (Fin.ofNat 32 (w.sm b i).pc) with
  | true => exact (BitVec.add_zero _).symm
  | false => simp [World.setBlock]

/-- A turn counts a fetch of a word that was never loaded, and nothing else. -/
theorem fetches_smTick (w : World) (b : BlockAddr) (i : Fin 4) :
    ((w.smTick b i).blocks b).unwrittenFetches =
      (w.blocks b).unwrittenFetches + if w.fetchesUnwritten b i then 1 else 0 := by
  have hledger : ∀ {v v' : World}, v'.ledger = v.ledger →
      (v'.blocks b).unwrittenFetches = (v.blocks b).unwrittenFetches :=
    fun h => congrArg (fun l : _ × _ × BitVec 64 => l.2.2) (congrFun h b)
  cases hdue : w.due b i with
  | false =>
    rw [smTick_of_not_due hdue, hledger (ledger_modifySm _), fetchesUnwritten, hdue]
    exact (BitVec.add_zero _).symm
  | true =>
    by_cases hd : (w.sm b i).delay = 0
    · rw [smTick_of_presents hdue hd]
      dsimp only
      rw [hledger (ledger_modifySm _), hledger (ledger_execOne b i _), turnWorld,
        fetches_countFetch]
      have hsm : (((w.modifySm b i Sm.elapse).toppedUp b i).sm b i) =
          (w.sm b i).elapse.backgroundAutopull := by
        rw [toppedUp, sm_modifySm_self, sm_modifySm_self]
      obtain ⟨hpend, -, hpc, -⟩ := Sm.backgroundAutopull_fields (w.sm b i).elapse
      have hused : (((w.modifySm b i Sm.elapse).toppedUp b i).blocks b).insnUsed =
          (w.blocks b).insnUsed := by
        have h := congrFun ((ledger_modifySm (w := w.modifySm b i Sm.elapse) (c := b) (j := i)
          Sm.backgroundAutopull).trans (ledger_modifySm _)) b
        exact congrArg (fun l : _ × (Fin 32 → Bool) × _ => l.2.1) h
      have hcount : (((w.modifySm b i Sm.elapse).toppedUp b i).blocks b).unwrittenFetches =
          (w.blocks b).unwrittenFetches := hledger ((ledger_modifySm _).trans (ledger_modifySm _))
      rw [hsm, hpend, hpc, hused, hcount, fetchesUnwritten, hdue, hd]
      rfl
    · rw [smTick_of_delay hdue (Nat.pos_of_ne_zero hd), hledger (ledger_modifySm _),
        fetchesUnwritten, beq_eq_false_iff_ne.mpr hd, Bool.and_false, Bool.false_and]
      exact (BitVec.add_zero _).symm

end World

/-! ### Levels -/

namespace PinRegs

def Grows (r r' : PinRegs) : Prop :=
  ∀ pin, r.wroteThisCycle.getLsbD pin = true → r'.wroteThisCycle.getLsbD pin = true

section
omit [Platform]

theorem Grows.refl (r : PinRegs) : r.Grows r := fun _ h => h

theorem Grows.of_eq {r r' : PinRegs} (h : r'.wroteThisCycle = r.wroteThisCycle) : r.Grows r' :=
  fun pin hp => by rwa [h]

theorem Grows.trans {r r' r'' : PinRegs} (h : r.Grows r') (h' : r'.Grows r'') : r.Grows r'' :=
  fun pin hp => h' pin (h pin hp)

theorem Grows.of_none {r r' : PinRegs} (h : r.wroteThisCycle = 0) : r.Grows r' := by
  intro pin hp
  rw [h] at hp
  simp at hp

theorem grows_drivePins (r : PinRegs) (phys : ℕ → ℕ) (base count : ℕ) (value : Word) :
    r.Grows (r.drivePins phys base count value) := by
  refine List.foldlRecOn (motive := fun r' : PinRegs => r.Grows r') _ _ (.refl r)
    fun r' hr k _ => ?_
  intro pin hp
  simp [drivePin, hr pin hp]

theorem grows_drivePindirs (r : PinRegs) (phys : ℕ → ℕ) (base count : ℕ) (value : Word) :
    r.Grows (r.drivePindirs phys base count value) :=
  List.foldlRecOn (motive := fun r' : PinRegs => r.Grows r') _ _ (.refl r) fun _ hr _ _ => hr

end

end PinRegs

omit [Platform] in
theorem grows_stickyReassert (s : Sm) : s.pins.Grows (World.stickyReassert s).pins := by
  unfold World.stickyReassert
  split
  · intro pin hp
    simp [hp]
  · exact .refl _

omit [Platform] in
theorem Pads.writesPin_of_unresolved {p q : Pads} (h : q.unresolved = p.unresolved) :
    q.drivers = p.drivers ∧ ∀ sm, q.writesPin sm = p.writesPin sm := by
  have howners : q.owners = p.owners :=
    (congrArg Pads.owners h : q.unresolved.owners = p.unresolved.owners)
  have hmask : q.pioFuncMask = p.pioFuncMask :=
    (congrArg Pads.pioFuncMask h : q.unresolved.pioFuncMask = p.unresolved.pioFuncMask)
  refine ⟨by rw [Pads.drivers, Pads.drivers, Pads.slots, Pads.slots, howners], ?_⟩
  intro sm
  funext pin d
  rw [Pads.writesPin, Pads.writesPin, Pads.writtenBy, Pads.writtenBy, hmask]

namespace World

variable {u v v' w : World} {b c : BlockAddr} {i j : Fin 4}

/-- The pins of `b` no driver has written this tick have the level they had in `u`. -/
def LevelsKept (b : BlockAddr) (u v : World) : Prop :=
  ∀ pin, (∀ d ∈ (u.pads b).drivers, (u.pads b).writesPin v.sm pin d = false) →
    (v.pads b).pinLevels.getLsbD pin = (u.pads b).pinLevels.getLsbD pin

section
omit [Platform]

theorem SameOutside.unresolved (h : SameOutside b u v) :
    (v.pads b).unresolved = (u.pads b).unresolved := by
  rw [World.pads, World.pads, h.padRef]
  exact h.own

theorem LevelsKept.congr (h : LevelsKept b u v) (hpads : v'.pads b = v.pads b)
    (hwrites : ∀ pin d, (u.pads b).writesPin v.sm pin d = true →
      (u.pads b).writesPin v'.sm pin d = true) : LevelsKept b u v' := by
  intro pin hpin
  rw [hpads]
  refine h pin fun d hd => ?_
  cases hv : (u.pads b).writesPin v.sm pin d with
  | false => rfl
  | true => rw [← hwrites pin d hv, hpin d hd]

theorem LevelsKept.setSm (h : LevelsKept b u v) {s : Sm} (hs : (v.sm b i).pins.Grows s.pins) :
    LevelsKept b u (v.setSm b i s) := by
  refine h.congr (by rw [World.pads, padsAt_setSm, padRef_setSm, World.pads]) fun pin d hd => ?_
  simp only [Pads.writesPin, Pads.writtenBy, BitVec.getLsbD_and, Bool.and_eq_true] at hd ⊢
  refine ⟨?_, hd.2⟩
  rw [sm_setSm]
  split
  · rename_i hself
    obtain ⟨hb, hi⟩ := Prod.mk.inj hself
    rw [hb, hi] at hd
    exact hs pin hd.1
  · exact hd.1

end

/-- The last driver that wrote a pin decides its level; where none wrote it, it keeps it. -/
theorem LevelsKept.resolvePads (h : LevelsKept b u v) (hout : SameOutside b u v) :
    LevelsKept b u (v.resolvePads b) := by
  intro pin hpin
  rw [sm_resolvePads] at hpin
  obtain ⟨hdrivers, hwrites⟩ := Pads.writesPin_of_unresolved hout.unresolved
  have hnone : (v.pads b).levelWriter v.sm pin = none := by
    rw [Pads.levelWriter, hdrivers, hwrites]
    exact LastWriter.last_eq_none_iff.mpr hpin
  have hpads : (v.resolvePads b).pads b = (v.pads b).resolve v.sm := by
    rw [World.pads, padRef_resolvePads, World.resolvePads, modifyPads, padsAt_setPads_self]
  rw [hpads]
  show ((v.pads b).resolvedLevels v.sm).getLsbD pin = _
  rw [Pads.getLsbD_resolvedLevels, Pads.levelOf, hnone]
  exact h pin hpin

/-- Both: what a turn keeps. -/
structure Kept (b : BlockAddr) (u v : World) : Prop where
  outside : SameOutside b u v
  levels : LevelsKept b u v

omit [Platform] in
theorem Kept.refl (b : BlockAddr) (u : World) : Kept b u u := ⟨.refl b u, fun _ _ => rfl⟩

omit [Platform] in
theorem Kept.setSm (h : Kept b u v) {s : Sm} (hs : (v.sm b i).pins.Grows s.pins) :
    Kept b u (v.setSm b i s) := ⟨h.outside.setSm b i s, h.levels.setSm hs⟩

theorem Kept.setPins (h : Kept b u v) {r : PinRegs} (hr : (v.sm b i).pins.Grows r) :
    Kept b u (v.setPins b i r) := by
  have hset : Kept b u (v.modifySm b i fun s => { s with pins := r }) := h.setSm hr
  exact ⟨hset.outside.resolvePads, hset.levels.resolvePads hset.outside⟩

theorem Kept.regSteps (h : Kept b u v) (hsteps : RegSteps b i v v') : Kept b u v' := by
  induction hsteps with
  | refl => exact h
  | tail _ hs ih =>
    cases hs with
    | sm s he => exact ih.setSm (.of_eq (by rw [he.keeps.2]))
    | irq c x =>
      refine ⟨ih.outside.setBlock rfl fun _ => rfl, ih.levels.congr ?_ fun pin d hd => ?_⟩
      · rw [World.pads, padsAt_setIrq, padRef_setIrq, World.pads]
      · rwa [sm_setIrq]

/-- An instruction presented before its state machine has written a pin, and its side-set. -/
theorem Kept.execOne (h : Kept b u v) (hnone : (v.sm b i).pins.wroteThisCycle = 0) (insn : Insn) :
    Kept b u (v.execOne b i insn).world := by
  have hinsn : Kept b u (v.execInsn b i insn).world := by
    obtain ⟨x, hx, he⟩ := execInsn_shape v b i insn
    have hsteps := h.regSteps hx
    rcases he with he | ⟨r, he⟩
    · rwa [he]
    · rw [he]
      refine hsteps.setPins (.of_none ?_)
      rw [hx.sm_effects.keeps.2, hnone]
  unfold World.execOne applySideset
  dsimp only
  split
  · split
    · rw [drivePindirs_eq]
      exact hinsn.setPins (PinRegs.grows_drivePindirs _ _ _ _ _)
    · rw [drivePins_eq]
      exact hinsn.setPins (PinRegs.grows_drivePins _ _ _ _ _)
  · exact hinsn

omit [Platform] in
theorem Kept.countFetch (h : Kept b u v) : Kept b u (v.countFetch b i) := by
  unfold World.countFetch
  split
  · exact h
  · refine ⟨h.outside.setBlock rfl fun hne => absurd rfl hne, h.levels.congr ?_ fun pin d hd => ?_⟩
    · rw [World.pads, padsAt_setBlock (by rfl), padRef_setBlock (by rfl), World.pads]
    · rwa [sm_setBlock (by rfl)]

theorem Kept.smTick (h : Kept b u v) (hnone : (v.sm b i).pins.wroteThisCycle = 0) :
    Kept b u (v.smTick b i) := by
  have helapse : (v.sm b i).elapse.backgroundAutopull.pins = (v.sm b i).pins := by
    rcases (v.sm b i).elapse.backgroundAutopull_eq with he | ⟨x, t, he⟩ <;> rw [he] <;> rfl
  cases hdue : v.due b i with
  | false =>
    rw [smTick_of_not_due hdue]
    exact h.setSm (.refl _)
  | true =>
    by_cases hd : (v.sm b i).delay = 0
    · have hturn : Kept b u (v.turnWorld b i) := by
        refine Kept.countFetch ?_
        rw [toppedUp, modifySm_modifySm]
        exact h.setSm (.of_eq (by rw [helapse]))
      have hone := hturn.execOne (i := i) (by rw [sm_turnWorld, helapse, hnone])
        (v.getInstruction b i)
      rw [smTick_of_presents hdue hd]
      refine hone.setSm (PinRegs.Grows.trans (.of_eq ?_) (grows_stickyReassert _))
      unfold Sm.retire
      split
      · split <;> rfl
      · rfl
    · rw [smTick_of_delay hdue (Nat.pos_of_ne_zero hd)]
      refine h.setSm (PinRegs.Grows.trans (.of_eq ?_) (grows_stickyReassert _))
      exact congrArg PinRegs.wroteThisCycle helapse

/-- The last resolve of a tick decides as if it were the only one. -/
theorem Kept.pads_resolvePads (h : Kept b u v) :
    (v.resolvePads b).padsAt (u.padRef b) = (u.pads b).resolve v.sm := by
  have hunresolved := h.outside.unresolved
  obtain ⟨hdrivers, hwrites⟩ := Pads.writesPin_of_unresolved hunresolved
  have hpads : (v.resolvePads b).padsAt (u.padRef b) = (v.pads b).resolve v.sm := by
    rw [← h.outside.padRef, World.resolvePads, modifyPads, padsAt_setPads_self]
  have hdirs : (v.pads b).resolvedDirs v.sm = (u.pads b).resolvedDirs v.sm :=
    (congrArg (Pads.resolvedDirs v.sm) hunresolved :
      (v.pads b).unresolved.resolvedDirs v.sm = (u.pads b).unresolved.resolvedDirs v.sm)
  have hlevels : (v.pads b).resolvedLevels v.sm = (u.pads b).resolvedLevels v.sm := by
    refine BitVec.eq_of_getLsbD_eq fun pin _ => ?_
    rw [Pads.getLsbD_resolvedLevels, Pads.getLsbD_resolvedLevels, Pads.levelOf, Pads.levelOf,
      Pads.levelWriter, hdrivers, hwrites, ← Pads.levelWriter]
    cases hlast : (u.pads b).levelWriter v.sm pin with
    | some d => rfl
    | none => exact h.levels pin (LastWriter.last_eq_none_iff.mp hlast)
  rw [hpads, Pads.resolve, hdirs, hlevels]
  exact congrArg (fun p : Pads => { p with
    pinDirs := (u.pads b).resolvedDirs v.sm, pinLevels := (u.pads b).resolvedLevels v.sm })
      hunresolved

/-! ### Any order -/

/-- In a tick that began in `u`, the state machines in `l` have had their turns. -/
structure Partway (b : BlockAddr) (u : World) (l : List (Fin 4)) (v : World) : Prop where
  kept : Kept b u v
  irqs : v.irqs = u.irqs
  turned : ∀ i ∈ l, v.sm b i = (u.smTick b i).sm b i
  waiting : ∀ i, i ∉ l → v.sm b i = u.sm b i
  others : ∀ c, c ≠ b → ∀ i, v.sm c i = u.sm c i
  fetches : (v.blocks b).unwrittenFetches =
    (u.blocks b).unwrittenFetches + BitVec.ofNat 64 (l.countP (u.fetchesUnwritten b))

theorem Partway.start (b : BlockAddr) (u : World) : Partway b u [] u :=
  ⟨.refl b u, rfl, fun _ h => (List.not_mem_nil h).elim, fun _ _ => rfl, fun _ _ _ => rfl,
    (BitVec.add_zero _).symm⟩

/-- A state machine whose turn is still to come sees what it saw when the tick began. -/
theorem Partway.sameView {l : List (Fin 4)} (h : Partway b u l v)
    (hbypass : (u.pads b).syncBypass = 0) :
    SameView b u v where
  input := by
    funext pin
    exact congrFun (Pads.inputLevel_of_unresolved hbypass h.kept.outside.unresolved) pin
  irqs := h.irqs
  shell := h.kept.outside.shell

theorem Partway.turn {l : List (Fin 4)} (h : Partway b u l v) (hi : i ∉ l)
    (hbypass : (u.pads b).syncBypass = 0) (hopen : (u.sm b i).pins.wroteThisCycle = 0)
    (hquiet : u.TurnQuiet b i) : Partway b u (l ++ [i]) (v.smTick b i) := by
  have hview := h.sameView hbypass
  have hsm : v.sm b i = u.sm b i := h.waiting i hi
  have hinsn : v.getInstruction b i = u.getInstruction b i := by
    unfold getInstruction
    rw [hsm, insn_of_shell hview.shell b]
  have hquiet' : v.TurnQuiet b i := by
    unfold TurnQuiet due at hquiet ⊢
    rwa [hsm, hinsn]
  have hused : (v.blocks b).insnUsed = (u.blocks b).insnUsed := by rw [h.kept.outside.block b]
  have hlocal := smTick_local v b i
  refine ⟨h.kept.smTick (by rw [hsm, hopen]), (irqs_smTick_of_turnQuiet hquiet').trans h.irqs,
    fun j hj => ?_, fun j hj => ?_, fun c hc j => ?_, ?_⟩
  · rcases List.mem_append.mp hj with hj | hj
    · have hne : (b, j) ≠ (b, i) := fun he => hi ((Prod.mk.inj he).2 ▸ hj)
      rw [hlocal.sm b j hne, h.turned j hj]
    · rw [List.mem_singleton.mp hj]
      exact smTick_congr hview hsm
  · rw [List.mem_append, not_or, List.mem_singleton] at hj
    rw [hlocal.sm b j fun he => hj.2 (Prod.mk.inj he).2, h.waiting j hj.1]
  · rw [hlocal.sm c j fun he => hc (Prod.mk.inj he).1, h.others c hc j]
  · rw [fetches_smTick, h.fetches, fetchesUnwritten_congr hsm hused, List.countP_append,
      List.countP_singleton, BitVec.ofNat_add, BitVec.add_assoc]
    cases u.fetchesUnwritten b i <;> rfl

theorem partway_foldl {l : List (Fin 4)} (hl : l.Nodup) (hbypass : (u.pads b).syncBypass = 0)
    (hopen : ∀ i, (u.sm b i).pins.wroteThisCycle = 0) (hquiet : ∀ i, u.TurnQuiet b i) :
    Partway b u l (l.foldl (fun w i => w.smTick b i) u) := by
  induction l using List.reverseRecOn with
  | nil => exact .start b u
  | append_singleton l i ih =>
    rw [List.nodup_append] at hl
    obtain ⟨hl, -, hdisjoint⟩ := hl
    have hi : i ∉ l := fun h => hdisjoint i h i List.mem_cons_self rfl
    rw [List.foldl_append]
    exact (ih hl).turn hi hbypass (hopen i) (hquiet i)

/-- The turns of all four state machines, in any order, and the final resolve make the same
world. -/
theorem foldl_smTick_perm (hbypass : (u.pads b).syncBypass = 0)
    (hopen : ∀ i, (u.sm b i).pins.wroteThisCycle = 0) (hquiet : ∀ i, u.TurnQuiet b i)
    {l l' : List (Fin 4)} (hl : l.Nodup) (hall : ∀ i, i ∈ l) (hperm : l'.Perm l) :
    (l'.foldl (fun w i => w.smTick b i) u).resolvePads b =
      (l.foldl (fun w i => w.smTick b i) u).resolvePads b := by
  have h := partway_foldl hl hbypass hopen hquiet
  have h' := partway_foldl (hperm.nodup_iff.mpr hl) hbypass hopen hquiet
  have hsm : (l'.foldl (fun w i => w.smTick b i) u).sm =
      (l.foldl (fun w i => w.smTick b i) u).sm := by
    funext c i
    by_cases hc : c = b
    · rw [hc, h'.turned i (hperm.mem_iff.mpr (hall i)), h.turned i (hall i)]
    · rw [h'.others c hc, h.others c hc]
  have hfetch : ∀ v : World, ((v.resolvePads b).blocks b).unwrittenFetches =
      (v.blocks b).unwrittenFetches := fun v => congrArg (fun l : _ × _ × BitVec 64 => l.2.2)
    (congrFun (ledger_resolvePads (w := v) (c := b)) b)
  refine SameOutside.ext h.kept.outside.resolvePads h'.kept.outside.resolvePads ?_ ?_ ?_ ?_
  · rw [sm_resolvePads, sm_resolvePads, hsm]
  · rw [irqs_resolvePads, irqs_resolvePads, h'.irqs, h.irqs]
  · rw [hfetch, hfetch, h'.fetches, h.fetches, hperm.countP_eq]
  · rw [h'.kept.pads_resolvePads, h.kept.pads_resolvePads, hsm]

omit [Platform] in
theorem pads_openWindow (w : World) (b : BlockAddr) : (w.openWindow b).pads b = w.pads b :=
  openWindow_induction (P := fun v : World => v.pads b = w.pads b)
    (fun v i hv => by rw [World.pads, padsAt_modifySm, padRef_modifySm]; exact hv) rfl

/-- The order of the turns in a tick does not matter where the state machines do not communicate:
with no synchroniser bypassed, and no IRQ or `wait irq` instruction presented, any order gives the
same world, in every record, flag, pad and counter. -/
theorem turn_order_irrelevant (w : World) (b : BlockAddr) (hbypass : (w.pads b).syncBypass = 0)
    (hquiet : ∀ i, w.TurnQuiet b i) (order : List (Fin 4)) (horder : order.Perm (List.finRange 4)) :
    (order.foldl (fun w i => w.smTick b i) (w.openWindow b)).resolvePads b = w.tickSms b := by
  have hsm : ∀ i, (w.openWindow b).sm b i = (w.sm b i).openWindow := fun i => by
    rw [sm_openWindow, if_pos rfl]
  refine foldl_smTick_perm (by rwa [pads_openWindow]) (fun i => by rw [hsm]; rfl) (fun i => ?_)
    (List.nodup_finRange 4) List.mem_finRange horder
  have h := hquiet i
  unfold TurnQuiet due getInstruction at h ⊢
  rw [hsm, insn_of_shell (shell_openWindow w b) b]
  exact h

omit [Platform] in
/-- Two state machines set a pin to different levels in one tick, each having its turn first. -/
theorem turn_order_irrelevant_contended :
    letI : Platform := ⟨.rp2350⟩
    let set := { Sm.initial.config with setBase := 3, setCount := 1 }
    let w := initial.run [.block 0 (.load 0 [0xE001, 0xE000]), .smInit 0 0 0 set, .smInit 0 1 1 set,
      .setSmMaskEnabled 0 3 true]
    ([3, 1, 0, 2].foldl (fun w i => w.smTick 0 i) (w.openWindow 0)).resolvePads 0 =
        w.tickSms 0 := by
  let P : Platform := ⟨.rp2350⟩
  intro set w
  exact turn_order_irrelevant w 0 (by decide +kernel) (by decide +kernel) [3, 1, 0, 2] (by decide)

end World
end PioSim
