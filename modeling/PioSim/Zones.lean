import PioSim.Relocation
import PioSim.Coherence
import PioSim.Lib.Noninterference

/-!
# Zones

A zone is a set of blocks and groups. It is enclosed in a world when the pad sets, the IRQ
neighbours and the owners behind its pointers belong to it too. What a call on an enclosed zone does
is then blind to the world around: every handler commutes with replacing the rest of the memory by
that of another world.
-/

namespace PioSim

variable [Platform]

/-- Some of the blocks and groups of the memory. -/
structure Zone where
  block : BlockAddr → Bool
  group : GroupAddr → Bool

namespace Zone

def rest (z : Zone) : Zone := ⟨fun b => !z.block b, fun g => !z.group g⟩

/-- The pad set behind a reference belongs to the zone. -/
def pads (z : Zone) : PadRef → Bool
  | .embedded b => z.block b
  | .shared g => z.group g

omit [Platform] in
theorem rest_rest (z : Zone) : z.rest.rest = z := by
  cases z
  simp only [rest, Bool.not_not]

end Zone

namespace World

/-- The pointers of the memory: the IRQ neighbours and the pads of each block, the owners of each
pad set, the blocks of each group. -/
def wiring (w : World) : (BlockAddr → Option BlockAddr × Option BlockAddr × PadRef) ×
    (PadRef → List BlockAddr) × (GroupAddr → List BlockAddr) :=
  (fun b => ((w.blocks b).irqPrev, (w.blocks b).irqNext, (w.blocks b).pads),
    fun r => (w.padsAt r).owners, fun g => (w.groups g).blk)

/-- No pointer leads out of the zone. -/
structure Enclosed (z : Zone) (w : World) : Prop where
  prev : ∀ b, z.block b = true → ∀ c ∈ (w.blocks b).irqPrev, z.block c = true
  next : ∀ b, z.block b = true → ∀ c ∈ (w.blocks b).irqNext, z.block c = true
  pads : ∀ b, z.block b = true → z.pads (w.padRef b) = true
  owners : ∀ r, z.pads r = true → ∀ c ∈ (w.padsAt r).owners, z.block c = true
  members : ∀ g, z.group g = true → ∀ b ∈ (w.groups g).blk, z.block b = true

/-- The zone of one world in the surroundings of another. -/
def blend (w : World) (z : Zone) (u : World) : World where
  blocks b := if z.block b then w.blocks b else u.blocks b
  groups g := if z.group g then w.groups g else u.groups g

variable {z : Zone} {w u v : World} {b : BlockAddr} {i : Fin 4}

omit [Platform] in
theorem Enclosed.of_wiring (h : w.Enclosed z) (hv : v.wiring = w.wiring) : v.Enclosed z := by
  simp only [wiring, Prod.mk.injEq] at hv
  obtain ⟨hblocks, howners, hgroups⟩ := hv
  have hblock : ∀ b, (v.blocks b).irqPrev = (w.blocks b).irqPrev ∧
      (v.blocks b).irqNext = (w.blocks b).irqNext ∧ v.padRef b = w.padRef b := by
    intro b
    have hb := congrFun hblocks b
    simp only [Prod.mk.injEq] at hb
    exact hb
  refine ⟨fun b hb c hc => ?_, fun b hb c hc => ?_, fun b hb => ?_, fun r hr c hc => ?_,
    fun g hg c hc => ?_⟩
  · rw [(hblock b).1] at hc
    exact h.prev b hb c hc
  · rw [(hblock b).2.1] at hc
    exact h.next b hb c hc
  · rw [(hblock b).2.2]
    exact h.pads b hb
  · rw [congrFun howners r] at hc
    exact h.owners r hr c hc
  · rw [congrFun hgroups g] at hc
    exact h.members g hg c hc

/-! ### Wiring -/

section
omit [Platform]

theorem wiring_setBlock {q : Pio} (hp : q.irqPrev = (w.blocks b).irqPrev)
    (hn : q.irqNext = (w.blocks b).irqNext) (hr : q.pads = (w.blocks b).pads)
    (ho : q.padsEmbedded.owners = (w.blocks b).padsEmbedded.owners) :
    (w.setBlock b q).wiring = w.wiring := by
  have hblocks : ∀ c, ((w.setBlock b q).blocks c).irqPrev = (w.blocks c).irqPrev ∧
      ((w.setBlock b q).blocks c).irqNext = (w.blocks c).irqNext ∧
      ((w.setBlock b q).blocks c).pads = (w.blocks c).pads ∧
      ((w.setBlock b q).blocks c).padsEmbedded.owners = (w.blocks c).padsEmbedded.owners := by
    intro c
    by_cases hc : c = b
    · subst hc
      simp [setBlock, hp, hn, hr, ho]
    · simp [setBlock, Function.update_of_ne hc]
  refine Prod.ext (funext fun c => ?_) (Prod.ext (funext fun r => ?_) rfl)
  · simp only [wiring, (hblocks c).1, (hblocks c).2.1, (hblocks c).2.2.1]
  · cases r with
    | embedded c => exact (hblocks c).2.2.2
    | shared g => rfl

@[simp] theorem wiring_setSm (s : Sm) : (w.setSm b i s).wiring = w.wiring :=
  wiring_setBlock rfl rfl rfl rfl

@[simp] theorem wiring_modifySm (f : Sm → Sm) : (w.modifySm b i f).wiring = w.wiring :=
  wiring_setSm _

@[simp] theorem wiring_setIrq (x : BitVec 8) : (w.setIrq b x).wiring = w.wiring :=
  wiring_setBlock rfl rfl rfl rfl

theorem wiring_setPads {r : PadRef} {p : Pads} (h : p.owners = (w.padsAt r).owners) :
    (w.setPads r p).wiring = w.wiring := by
  cases r with
  | embedded c => exact wiring_setBlock rfl rfl rfl h
  | shared g =>
    have hgroups : ∀ k, ((w.setGroup g { w.groups g with pads := p }).groups k).pads.owners =
        (w.groups k).pads.owners ∧
        ((w.setGroup g { w.groups g with pads := p }).groups k).blk = (w.groups k).blk := by
      intro k
      by_cases hk : k = g
      · subst hk
        exact ⟨by simpa [setGroup, padsAt] using h, by simp [setGroup]⟩
      · simp [setGroup, Function.update_of_ne hk]
    refine Prod.ext rfl (Prod.ext (funext fun r => ?_) (funext fun k => ?_))
    · cases r with
      | embedded c => rfl
      | shared k => exact (hgroups k).1
    · exact (hgroups k).2

theorem wiring_modifyPads {f : Pads → Pads} (h : ∀ p, (f p).owners = p.owners) :
    (w.modifyPads b f).wiring = w.wiring := wiring_setPads (h _)

end

@[simp] theorem wiring_resolvePads : (w.resolvePads b).wiring = w.wiring :=
  wiring_modifyPads fun _ => rfl

@[simp] theorem wiring_setPins (r : PinRegs) : (w.setPins b i r).wiring = w.wiring :=
  (wiring_resolvePads).trans (wiring_modifySm _)

omit [Platform] in
@[simp] theorem wiring_countFetch : (w.countFetch b i).wiring = w.wiring := by
  unfold countFetch
  split
  · rfl
  · exact wiring_setBlock rfl rfl rfl rfl

/-- No execution rewires anything. -/
theorem closed_wiring (W) : Closed (fun v : World => v.wiring = W) b i where
  record _ s _ _ h := (wiring_setSm s).trans h
  irq _ _ x h := (wiring_setIrq x).trans h
  fetch _ h := (wiring_countFetch).trans h
  pins _ r h := (wiring_setPins r).trans h

theorem wiring_execInsn (insn : Insn) : (w.execInsn b i insn).world.wiring = w.wiring :=
  (execInsn_shape w b i insn).closed (closed_wiring _) rfl

theorem wiring_smExec (insn : Insn) : (w.smExec b i insn).wiring = w.wiring :=
  smExec_closed (closed_wiring _) insn rfl

theorem wiring_smTick : (w.smTick b i).wiring = w.wiring :=
  smTick_closed (closed_wiring _) (fun _ h => (wiring_modifySm _).trans h) rfl

omit [Platform] in
theorem wiring_openWindow : (w.openWindow b).wiring = w.wiring :=
  openWindow_induction (P := fun v => v.wiring = w.wiring)
    (fun _ _ h => (wiring_modifySm _).trans h) rfl

theorem wiring_tickSms : (w.tickSms b).wiring = w.wiring :=
  tickSms_induction (P := fun v => v.wiring = w.wiring) (fun _ _ h => (wiring_modifySm _).trans h)
    (fun _ _ h => (wiring_smTick).trans h) (fun _ h => (wiring_resolvePads).trans h) rfl

theorem wiring_tickEnd : (w.tickEnd b).wiring = w.wiring := by
  have hclock : (if w.padRef b = .embedded b then w.modifyPads b Pads.clockSync else w).wiring =
      w.wiring := by
    split
    · exact wiring_modifyPads fun _ => rfl
    · rfl
  unfold tickEnd
  exact (wiring_setBlock (by rfl) (by rfl) (by rfl) (by rfl)).trans hclock

/-! ### What the zone reads -/

section
omit [Platform]

theorem blocks_blend (hb : z.block b = true) : (w.blend z u).blocks b = w.blocks b := if_pos hb

theorem sm_blend (hb : z.block b = true) : (w.blend z u).sm b = w.sm b := by
  unfold sm
  rw [blocks_blend hb]

theorem padRef_blend (hb : z.block b = true) : (w.blend z u).padRef b = w.padRef b := by
  unfold padRef
  rw [blocks_blend hb]

theorem padsAt_blend {r : PadRef} (hr : z.pads r = true) : (w.blend z u).padsAt r = w.padsAt r := by
  cases r with
  | embedded c => exact congrArg Pio.padsEmbedded (blocks_blend hr)
  | shared g => exact congrArg Group.pads (if_pos hr)

theorem pads_blend (h : w.Enclosed z) (hb : z.block b = true) :
    (w.blend z u).pads b = w.pads b := by
  unfold pads
  rw [padRef_blend hb, padsAt_blend (h.pads b hb)]

end

theorem physPin_blend (hb : z.block b = true) : (w.blend z u).physPin b = w.physPin b := by
  funext view
  unfold physPin
  rw [blocks_blend hb]

theorem inputLevel_blend (h : w.Enclosed z) (hb : z.block b = true) :
    (w.blend z u).inputLevel b = w.inputLevel b := by
  funext pin
  unfold inputLevel
  rw [pads_blend h hb]

theorem readInPins_blend (h : w.Enclosed z) (hb : z.block b = true) (base count : ℕ) :
    (w.blend z u).readInPins b base count = w.readInPins b base count := by
  unfold readInPins
  rw [inputLevel_blend h hb, physPin_blend hb]

omit [Platform] in
theorem irqGet_blend (hb : z.block b = true) (irq : ℕ) :
    (w.blend z u).irqGet b irq = w.irqGet b irq := by
  unfold irqGet
  rw [blocks_blend hb]

omit [Platform] in
theorem elim_irqGet_blend {link : Option BlockAddr} (h : ∀ c ∈ link, z.block c = true) (irq : ℕ) :
    (link.elim false fun c => (w.blend z u).irqGet c irq) = link.elim false fun c =>
      w.irqGet c irq := by
  cases link with
  | none => rfl
  | some c => exact irqGet_blend (h c rfl) irq

theorem readStatus_blend (h : w.Enclosed z) (hb : z.block b = true) (s : Sm) :
    (w.blend z u).readStatus b s = w.readStatus b s := by
  unfold readStatus
  simp only [irqGet_blend hb, blocks_blend hb, elim_irqGet_blend (h.prev b hb),
    elim_irqGet_blend (h.next b hb)]

theorem readSource_blend (h : w.Enclosed z) (hb : z.block b = true) (s : Sm) (src : ℕ) :
    (w.blend z u).readSource b s src = w.readSource b s src := by
  unfold readSource
  rw [readInPins_blend h hb, readStatus_blend h hb]

theorem movValue_blend (h : w.Enclosed z) (hb : z.block b = true) (operand : ℕ) :
    (w.blend z u).movValue b i operand = w.movValue b i operand := by
  unfold movValue
  rw [readSource_blend h hb, sm_blend hb]

theorem irqTargetBlock_blend (hb : z.block b = true) (t : IrqBlockSel) :
    (w.blend z u).irqTargetBlock b t = w.irqTargetBlock b t := by
  unfold irqTargetBlock
  rw [blocks_blend hb]

/-- The flags an instruction names are in the zone. -/
theorem Enclosed.irqTarget (h : w.Enclosed z) (hb : z.block b = true) {t : IrqBlockSel}
    {c : BlockAddr}
    (hc : w.irqTargetBlock b t = some c) : z.block c = true := by
  unfold irqTargetBlock at hc
  cases t with
  | self => rwa [← Option.some.inj hc]
  | prev =>
    dsimp only at hc
    split_ifs at hc
    exact h.prev b hb c hc
  | next =>
    dsimp only at hc
    split_ifs at hc
    exact h.next b hb c hc

/-! ### Writes -/

section
omit [Platform]

theorem blend_setBlock (hb : z.block b = true) (q : Pio) :
    (w.blend z u).setBlock b q = (w.setBlock b q).blend z u := by
  simp only [blend, setBlock, mk.injEq, and_true]
  funext c
  by_cases hc : c = b
  · subst hc
    rw [Function.update_self, Function.update_self, if_pos hb]
  · rw [Function.update_of_ne hc, Function.update_of_ne hc]

theorem blend_setGroup {g : GroupAddr} (hg : z.group g = true) (grp : Group) :
    (w.blend z u).setGroup g grp = (w.setGroup g grp).blend z u := by
  simp only [blend, setGroup, mk.injEq, true_and]
  funext c
  by_cases hc : c = g
  · subst hc
    rw [Function.update_self, Function.update_self, if_pos hg]
  · rw [Function.update_of_ne hc, Function.update_of_ne hc]

theorem blend_setSm (hb : z.block b = true) (s : Sm) :
    (w.blend z u).setSm b i s = (w.setSm b i s).blend z u := by
  unfold setSm
  rw [blend_setBlock hb, blocks_blend hb]

theorem blend_modifySm (hb : z.block b = true) (f : Sm → Sm) :
    (w.blend z u).modifySm b i f = (w.modifySm b i f).blend z u := by
  unfold modifySm
  rw [blend_setSm hb, sm_blend hb]

theorem blend_setIrq (hb : z.block b = true) (x : BitVec 8) :
    (w.blend z u).setIrq b x = (w.setIrq b x).blend z u := by
  unfold setIrq
  rw [blend_setBlock hb, blocks_blend hb]

theorem blend_setPads {r : PadRef} (hr : z.pads r = true) (p : Pads) :
    (w.blend z u).setPads r p = (w.setPads r p).blend z u := by
  cases r with
  | embedded c =>
    have hblock : (w.blend z u).blocks c = w.blocks c := blocks_blend hr
    unfold setPads
    dsimp only
    rw [blend_setBlock hr, hblock]
  | shared g =>
    have hgroup : (w.blend z u).groups g = w.groups g := if_pos hr
    unfold setPads
    dsimp only
    rw [blend_setGroup hr, hgroup]

theorem blend_modifyPads (h : w.Enclosed z) (hb : z.block b = true) (f : Pads → Pads) :
    (w.blend z u).modifyPads b f = (w.modifyPads b f).blend z u := by
  unfold modifyPads
  rw [padRef_blend hb, blend_setPads (h.pads b hb), pads_blend h hb]

/-- The resolution reads the state machines of the owners only. -/
theorem resolve_owners {f f' : BlockAddr → Fin 4 → Sm} {p : Pads} (h : ∀ c ∈ p.owners, f' c = f c) :
    p.resolve f' = p.resolve f := by
  have hdirs : p.resolvedDirs f' = p.resolvedDirs f :=
    Pads.resolvedDirs_congr rfl fun c hc j => by rw [h c hc]
  have hlevels : p.resolvedLevels f' = p.resolvedLevels f :=
    List.foldl_ext _ _ _ fun acc d hd => by
      rw [Pads.writtenBy, h d.1 (Pads.mem_drivers hd), Pads.writtenBy]
  rw [Pads.resolve, hdirs, hlevels, Pads.resolve]

end

theorem blend_resolvePads (h : w.Enclosed z) (hb : z.block b = true) :
    (w.blend z u).resolvePads b = (w.resolvePads b).blend z u := by
  have howners := h.owners (w.padRef b) (h.pads b hb)
  have hsame : (w.pads b).resolve (w.blend z u).sm = (w.pads b).resolve w.sm :=
    resolve_owners fun c hc => sm_blend (howners c hc)
  have hblend := blend_modifyPads (u := u) h hb (·.resolve w.sm)
  refine Eq.trans ?_ hblend
  unfold resolvePads modifyPads
  dsimp only
  rw [pads_blend h hb, hsame]

theorem blend_setPins (h : w.Enclosed z) (hb : z.block b = true) (r : PinRegs) :
    (w.blend z u).setPins b i r = (w.setPins b i r).blend z u := by
  unfold setPins
  rw [blend_modifySm hb, blend_resolvePads (h.of_wiring (wiring_modifySm _)) hb]

/-! ### Handlers -/

omit [Platform] in
theorem blend_ite {q : Prop} [Decidable q] {s t : World} :
    (if q then s else t).blend z u = if q then s.blend z u else t.blend z u :=
  apply_ite (fun v : World => v.blend z u) q s t

end World

/-- What a handler hands back, in other surroundings. -/
def ExecOut.blend (z : Zone) (u : World) (r : ExecOut) : ExecOut :=
  ⟨r.world.blend z u, r.stalled, r.setPc⟩

namespace World

variable {z : Zone} {w u : World} {b : BlockAddr} {i : Fin 4}

section
omit [Platform]

theorem execOut_blend_ite {q : Prop} [Decidable q] {r t : ExecOut} :
    (if q then r else t).blend z u = if q then r.blend z u else t.blend z u :=
  apply_ite (ExecOut.blend z u) q r t

theorem blend_irqClear (hb : z.block b = true) (irq : ℕ) :
    (w.blend z u).irqClear b irq = (w.irqClear b irq).blend z u := by
  unfold irqClear
  rw [blend_setIrq hb, blocks_blend hb]

theorem blend_irqRaise (hb : z.block b = true) (irq : ℕ) :
    (w.blend z u).irqRaise b irq = (w.irqRaise b irq).blend z u := by
  unfold irqRaise
  rw [blend_setIrq hb, blocks_blend hb]

end

theorem blend_execWait (h : w.Enclosed z) (hb : z.block b = true) (operand : ℕ) :
    (w.blend z u).execWait b i operand = (w.execWait b i operand).blend z u := by
  unfold execWait
  dsimp only
  simp only [execOut_blend_ite, inputLevel_blend h hb, physPin_blend hb, sm_blend hb]
  refine if_congr Iff.rfl rfl (if_congr Iff.rfl rfl (if_congr Iff.rfl ?_ rfl))
  rw [irqTargetBlock_blend hb]
  cases htarget : w.irqTargetBlock b (resolveIrqTarget i (operand % 32)).block with
  | none => rfl
  | some blk =>
    have hblk := h.irqTarget hb htarget
    simp only [execOut_blend_ite, irqGet_blend hblk]
    refine if_congr Iff.rfl ?_ rfl
    simp only [ExecOut.blend, blend_ite, blend_irqClear hblk]

/-- What `out_store` hands back, in other surroundings. -/
def blendFst {α : Type} (z : Zone) (u : World) (r : World × α) : World × α := (r.1.blend z u, r.2)

theorem blend_outStore (h : w.Enclosed z) (hb : z.block b = true) (dest : ℕ) (val : Word)
    (count : ℕ) :
    (w.blend z u).outStore b i dest val count = blendFst z u (w.outStore b i dest val count) := by
  have hreg : ∀ s : Sm, ((w.blend z u).setSm b i s, (none : Option ℕ)) =
      blendFst z u (w.setSm b i s, none) := fun s => by rw [blend_setSm hb]; rfl
  have hpins : ∀ r, ((w.blend z u).setPins b i r, (none : Option ℕ)) =
      blendFst z u (w.setPins b i r, none) := fun r => by rw [blend_setPins h hb]; rfl
  unfold outStore
  simp only [sm_blend hb, drivePins_eq, drivePindirs_eq, releaseOutPins_eq,
    physPin_blend hb, hreg, hpins]
  match dest with
  | 0 => simp only [apply_ite (blendFst z u)]; rfl
  | 1 => rfl
  | 2 => rfl
  | 3 => rfl
  | 4 => rfl
  | 5 => rfl
  | 6 => rfl
  | 7 => rfl
  | _ + 8 => rfl

theorem blend_execOut (h : w.Enclosed z) (hb : z.block b = true) (operand : ℕ) :
    (w.blend z u).execOut b i operand = (w.execOut b i operand).blend z u := by
  unfold execOut
  dsimp only
  simp only [execOut_blend_ite, sm_blend hb, blend_setSm hb,
    blend_outStore (h.of_wiring (wiring_setSm _)) hb]
  rfl

theorem blend_execMov (h : w.Enclosed z) (hb : z.block b = true) (operand : ℕ) :
    (w.blend z u).execMov b i operand = (w.execMov b i operand).blend z u := by
  unfold execMov
  dsimp only
  simp only [movValue_blend h hb, sm_blend hb, drivePins_eq, drivePindirs_eq, physPin_blend hb,
    blend_setSm hb, blend_setPins h hb]
  generalize w.movValue b i operand = v
  generalize operand / 32 % 8 = dest
  match dest with
  | 0 => rfl
  | 1 => rfl
  | 2 => rfl
  | 3 => simp only [execOut_blend_ite]; rfl
  | 4 => rfl
  | 5 => rfl
  | 6 => rfl
  | _ + 7 => rfl

theorem blend_execIrq (h : w.Enclosed z) (hb : z.block b = true) (operand : ℕ) :
    (w.blend z u).execIrq b i operand = (w.execIrq b i operand).blend z u := by
  unfold execIrq
  dsimp only
  rw [irqTargetBlock_blend hb, sm_blend hb]
  cases htarget : w.irqTargetBlock b (resolveIrqTarget i (operand % 32)).block with
  | none => rfl
  | some blk =>
    have hblk := h.irqTarget hb htarget
    simp only [execOut_blend_ite, blend_irqClear hblk, blend_irqRaise hblk]
    refine if_congr Iff.rfl rfl (if_congr Iff.rfl ?_ rfl)
    cases (w.sm b i).stalled with
    | false => exact congrArg (ExecOut.mk _ · none) (irqGet_blend hblk _)
    | true => exact congrArg (ExecOut.mk _ · none) (irqGet_blend hblk _)

theorem blend_execSet (h : w.Enclosed z) (hb : z.block b = true) (operand : ℕ) :
    (w.blend z u).execSet b i operand = (w.execSet b i operand).blend z u := by
  unfold execSet
  dsimp only
  simp only [sm_blend hb, drivePins_eq, drivePindirs_eq, physPin_blend hb, blend_setSm hb,
    blend_setPins h hb]
  generalize operand / 32 % 8 = dest
  match dest with
  | 0 => rfl
  | 1 => rfl
  | 2 => rfl
  | 3 => rfl
  | 4 => rfl
  | _ + 5 => rfl

/-- An instruction of an enclosed zone is blind to the surroundings. -/
theorem blend_execInsn (h : w.Enclosed z) (hb : z.block b = true) (insn : Insn) :
    (w.blend z u).execInsn b i insn = (w.execInsn b i insn).blend z u := by
  unfold execInsn
  dsimp only
  simp only [sm_blend hb, inputLevel_blend h hb, physPin_blend hb, readSource_blend h hb,
    blend_setSm hb, blend_execWait h hb, blend_execOut h hb, blend_execMov h hb, blend_execIrq h hb,
    blend_execSet h hb]
  generalize operandOf insn = operand
  generalize opcode insn = op
  match op with
  | 0 => rfl
  | 1 => rfl
  | 2 => rfl
  | 3 => rfl
  | 4 => simp only [execOut_blend_ite]; rfl
  | 5 => rfl
  | 6 => rfl
  | _ + 7 => rfl

theorem blend_applySideset (h : w.Enclosed z) (hb : z.block b = true) (ds : DelaySideset) :
    (w.blend z u).applySideset b i ds = (w.applySideset b i ds).blend z u := by
  unfold applySideset
  simp only [sm_blend hb, drivePins_eq, drivePindirs_eq, physPin_blend hb,
    blend_setPins h hb, blend_ite]

theorem blend_execOne (h : w.Enclosed z) (hb : z.block b = true) (insn : Insn) :
    (w.blend z u).execOne b i insn =
      { w.execOne b i insn with world := (w.execOne b i insn).world.blend z u } := by
  have hafter :=
    blend_applySideset (u := u) (i := i) (h.of_wiring (wiring_execInsn (b := b) (i := i) insn)) hb
    ((w.sm b i).decodeDelaySideset (delayField insn))
  unfold execOne
  simp only [blend_execInsn h hb, sm_blend hb, ExecOut.blend, hafter]

/-! ### Ticks -/

omit [Platform] in
theorem blend_countFetch (hb : z.block b = true) :
    (w.blend z u).countFetch b i = (w.countFetch b i).blend z u := by
  unfold countFetch
  rw [blend_ite, ← blend_setBlock hb, sm_blend hb, blocks_blend hb]

omit [Platform] in
theorem getInstruction_blend (hb : z.block b = true) :
    (w.blend z u).getInstruction b i = w.getInstruction b i := by
  unfold getInstruction
  rw [sm_blend hb, blocks_blend hb]

theorem blend_present (h : w.Enclosed z) (hb : z.block b = true) :
    (w.blend z u).present b i = (w.present b i).blend z u := by
  unfold present
  simp only [blend_countFetch hb, getInstruction_blend hb, sm_blend hb,
    blend_execOne (h.of_wiring wiring_countFetch) hb, blend_modifySm hb, blend_ite]

theorem blend_smCycle (h : w.Enclosed z) (hb : z.block b = true) :
    (w.blend z u).smCycle b i = (w.smCycle b i).blend z u := by
  unfold smCycle
  simp only [blend_modifySm hb, sm_blend hb,
    blend_present (h.of_wiring (wiring_modifySm _)) hb, blend_ite]

theorem blend_smTick (h : w.Enclosed z) (hb : z.block b = true) :
    (w.blend z u).smTick b i = (w.smTick b i).blend z u := by
  unfold smTick
  simp only [sm_blend hb, blend_setSm hb, blend_smCycle (h.of_wiring (wiring_setSm _)) hb,
    blend_modifySm hb, blend_ite]

omit [Platform] in
theorem blend_openWindow (hb : z.block b = true) :
    (w.blend z u).openWindow b = (w.openWindow b).blend z u :=
  List.foldl_hom (fun v : World => v.blend z u) fun _ _ => blend_modifySm hb _

theorem blend_foldl_smTick (hb : z.block b = true) (l : List (Fin 4)) :
    ∀ {w : World}, w.Enclosed z →
    l.foldl (fun w j => w.smTick b j) (w.blend z u) =
      (l.foldl (fun w j => w.smTick b j) w).blend z u ∧
      (l.foldl (fun w j => w.smTick b j) w).Enclosed z := by
  induction l with
  | nil => exact fun h => ⟨rfl, h⟩
  | cons j l ih =>
    intro w h
    rw [List.foldl_cons, List.foldl_cons, blend_smTick h hb]
    exact ih (h.of_wiring wiring_smTick)

theorem blend_tickSms (h : w.Enclosed z) (hb : z.block b = true) :
    (w.blend z u).tickSms b = (w.tickSms b).blend z u := by
  obtain ⟨hticks, hend⟩ := blend_foldl_smTick (u := u) hb (List.finRange 4) (h.of_wiring
    (wiring_openWindow (b := b)))
  unfold tickSms
  rw [blend_openWindow hb, hticks, blend_resolvePads hend hb]

theorem blend_tickEnd (h : w.Enclosed z) (hb : z.block b = true) :
    (w.blend z u).tickEnd b = (w.tickEnd b).blend z u := by
  have hclock :
    (if (w.blend z u).padRef b = .embedded b then (w.blend z u).modifyPads b Pads.clockSync
      else w.blend z u) =
      (if w.padRef b = .embedded b then w.modifyPads b Pads.clockSync else w).blend z u := by
    rw [padRef_blend hb, blend_ite, blend_modifyPads h hb]
  unfold tickEnd
  simp only [hclock, blend_setBlock hb, blocks_blend hb]

theorem blend_smExec (h : w.Enclosed z) (hb : z.block b = true) (insn : Insn) :
    (w.blend z u).smExec b i insn = (w.smExec b i insn).blend z u := by
  unfold smExec
  simp only [blend_modifySm hb, blend_execOne (h.of_wiring (wiring_modifySm _)) hb, blend_ite]

end World
end PioSim
