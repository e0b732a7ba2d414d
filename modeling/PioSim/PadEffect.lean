import PioSim.Lingering
import PioSim.PadSteps

/-!
# What one call does to the pads

The exact effect of a call on a pad set, given the records it leaves, on the pads a block points at
and on the enable bits. A tick or a forced instruction resolves its pads many times over, and all of
that comes to one resolve among the records left in the end.
-/

namespace PioSim

variable [Platform]

namespace World

variable {u v w w' : World} {b c : BlockAddr} {i j : Fin 4} {r : PadRef} {pin : ℕ}

/-! ### What a call does to a pad set -/

/-- The forced instruction writes pin registers, so that the call resolves. -/
def writesPins (w : World) (b : BlockAddr) (i : Fin 4) (insn : Insn) : Bool :=
  ((w.sm b i).pinWrite insn).isSome || ((w.sm b i).sideWrite insn).isSome

/-- What the call makes of a pad set, given the records it leaves. -/
def padEffect (w : World) (r : PadRef) (sm' : BlockAddr → Fin 4 → Sm) (p : Pads) : Call → Pads
  | .pad b op => if r = w.padRef b then op.apply p else p
  | .init b => if r = .embedded b then Pads.initDefaults [b] else p
  | .groupInitShared g blocks => if r = .shared g then Pads.initDefaults (blocks.take numPio) else p
  | .setEnabled b _ _ | .setSmMaskEnabled b _ _ | .enableSmMaskInSync b _
  | .setConsecutivePindirs b _ _ _ _ | .tickSms b => if r = w.padRef b then p.resolve sm' else p
  | .smExec b k insn =>
    if r = w.padRef b ∧ w.writesPins b (smIdx k) insn = true then p.resolve sm' else p
  | .gpioSetFunction b k f => if r = w.padRef b then p.gpioSetFunction sm' k f else p
  | .tickEnd b => if r = w.padRef b ∧ w.padRef b = .embedded b then p.clockSync else p
  | .groupEnd g => if r = .shared g ∧ (w.groups g).shared = true then p.clockSync else p
  | _ => p

omit [Platform] in
theorem padsAt_modifyPads (f : Pads → Pads) (b : BlockAddr) (r : PadRef) :
    (w.modifyPads b f).padsAt r = if r = w.padRef b then f (w.padsAt r) else w.padsAt r := by
  split
  · rename_i hr
    subst hr
    rw [modifyPads, padsAt_setPads_self]
    rfl
  · rename_i hr
    rw [modifyPads, padsAt_setPads_of_ne hr]

omit [Platform] in
/-- Two resolves one after the other, where what was written stays written, are the second one. -/
theorem resolve_of_grows {p : Pads} {sm sm' : BlockAddr → Fin 4 → Sm}
    (h : ∀ c i pin, (sm c i).pins.wroteThisCycle.getLsbD pin = true →
      (sm' c i).pins.wroteThisCycle.getLsbD pin = true) :
    (p.resolve sm).resolve sm' = p.resolve sm' := by
  have hlevels : (p.resolve sm).resolvedLevels sm' = p.resolvedLevels sm' := by
    apply BitVec.eq_of_getLsbD_eq
    intro pin _
    rw [Pads.getLsbD_resolvedLevels, Pads.getLsbD_resolvedLevels, Pads.levelOf, Pads.levelOf]
    have hwriter : (p.resolve sm).levelWriter sm' pin = p.levelWriter sm' pin := rfl
    rw [hwriter]
    cases hlast : p.levelWriter sm' pin with
    | some d => rfl
    | none =>
      have hnone : p.levelWriter sm pin = none := by
        refine LastWriter.last_eq_none_iff.mpr fun d hd => ?_
        have hlater := LastWriter.last_eq_none_iff.mp hlast d hd
        rw [writesPin_eq] at hlater ⊢
        cases hmask : (p.pioFuncMask d.2.1).getLsbD pin with
        | false => rw [Bool.and_false]
        | true =>
          rw [hmask, Bool.and_true] at hlater
          rw [Bool.and_true]
          by_contra hset
          exact absurd (h _ _ pin (Bool.not_eq_false _ ▸ hset))
            (by rw [hlater]; exact Bool.false_ne_true)
      have hlevel := p.getLsbD_resolvedLevels sm pin
      rw [Pads.levelOf, hnone] at hlevel
      exact hlevel
  have hdirs : (p.resolve sm).resolvedDirs sm' = p.resolvedDirs sm' := rfl
  rw [Pads.resolve, hlevels, hdirs]
  rfl

theorem padsAt_putPins (phys : ℕ → ℕ) (value : Word) (t : PinWrite) (r : PadRef) :
    (v.putPins b i phys value (some t)).padsAt r = if r = v.padRef b then
      (v.padsAt r).resolve (v.putPins b i phys value (some t)).sm else v.padsAt r := by
  rw [putPins, Option.elim_some, World.setPins, padsAt_resolvePads, padRef_modifySm,
    padsAt_modifySm, sm_resolvePads]

/-- A forced instruction that writes pins resolves the pads once, for what they are in the end. -/
theorem padsAt_smExec (w : World) (b : BlockAddr) (i : Fin 4) (insn : Insn) (r : PadRef) :
    (w.smExec b i insn).padRef = w.padRef ∧ (w.smExec b i insn).padsAt r =
      if r = w.padRef b ∧ w.writesPins b i insn = true then
        (w.padsAt r).resolve (w.smExec b i insn).sm
      else w.padsAt r := by
  obtain ⟨v, value, hv, hend, -⟩ := smExec_puts w b i insn
  refine ⟨hend.padRef.trans ((padRef_putPins _ _ _).trans ((padRef_putPins _ _ _).trans hv.padRef)),
    ?_⟩
  have hresolve : ∀ p : Pads, p.resolve (w.smExec b i insn).sm = p.resolve
      ((v.putPins b i (w.physPin b) value ((w.sm b i).pinWrite insn)).putPins b i (w.physPin b)
        ((w.sm b i).decodeDelaySideset (delayField insn)).sideVal ((w.sm b i).sideWrite insn)).sm :=
    fun p => resolve_congr p hend.enabled hend.pins
  rw [hend.padsAt, hresolve, ← hv.padsAt, ← hv.padRef, writesPins]
  cases hop : (w.sm b i).pinWrite insn with
  | none =>
    cases hside : (w.sm b i).sideWrite insn with
    | none => rw [if_neg fun h => Bool.false_ne_true h.2]; rfl
    | some t =>
      have hput := padsAt_putPins (v := v) (b := b) (i := i) (w.physPin b)
        ((w.sm b i).decodeDelaySideset (delayField insn)).sideVal t r
      by_cases hr : r = v.padRef b
      · rw [if_pos hr] at hput
        rw [if_pos ⟨hr, rfl⟩]
        exact hput
      · rw [if_neg hr] at hput
        rw [if_neg fun h => hr h.1]
        exact hput
  | some t =>
    obtain ⟨y, hy⟩ : ∃ y, v.putPins b i (w.physPin b) value (some t) = y := ⟨_, rfl⟩
    have hput := padsAt_putPins (v := v) (b := b) (i := i) (w.physPin b) value t r
    have href : y.padRef = v.padRef := by rw [← hy, padRef_putPins]
    rw [hy] at hput ⊢
    by_cases hr : r = v.padRef b
    · rw [if_pos hr] at hput
      rw [if_pos ⟨hr, by simp⟩]
      cases hside : (w.sm b i).sideWrite insn with
      | none => exact hput
      | some s =>
        rw [padsAt_putPins, href, if_pos hr, hput]
        refine resolve_of_grows fun c j pin hset => ?_
        -- the side-set releases nothing
        exact wrote_putPins_of_wrote (d := (c, 0, j)) hset fun _ => Sm.sideWrite_releases hside _ _
    · rw [if_neg hr] at hput
      rw [if_neg fun h => hr h.1]
      cases hside : (w.sm b i).sideWrite insn with
      | none => exact hput
      | some s =>
        rw [padsAt_putPins, href, if_neg hr]
        exact hput

omit [Platform] in
theorem samePads_clkdivRestartSmMask (w : World) (b : BlockAddr) (mask : BitVec 8) :
    SamePads w (w.clkdivRestartSmMask b mask) := by
  refine List.foldlRecOn (motive := SamePads w) _ _ (.refl w) fun v hv i _ => ?_
  split
  · exact hv.modifySm fun _ => ⟨rfl, rfl⟩
  · exact hv

omit [Platform] in
theorem padsAt_setEnables (w : World) (b : BlockAddr) (mask : BitVec 8) (enabled : Bool) :
    ((List.finRange 4).foldl (fun w (i : Fin 4) =>
      if mask.getLsbD i then w.modifySm b i fun s => { s with enabled := enabled } else w)
        w).padRef = w.padRef ∧
    ((List.finRange 4).foldl (fun w (i : Fin 4) =>
      if mask.getLsbD i then w.modifySm b i fun s => { s with enabled := enabled } else w)
        w).padsAt =
        w.padsAt := by
  refine List.foldlRecOn (motive := fun v : World => v.padRef = w.padRef ∧ v.padsAt = w.padsAt) _ _
    ⟨rfl, rfl⟩ ?_
  intro v hv i _
  split
  · exact ⟨(padRef_modifySm ..).trans hv.1, (padsAt_modifySm ..).trans hv.2⟩
  · exact hv

theorem padsAt_setSmMaskEnabled (w : World) (b : BlockAddr) (mask : BitVec 8) (enabled : Bool)
    (r : PadRef) :
    (w.setSmMaskEnabled b mask enabled).padsAt r =
      if r = w.padRef b then (w.padsAt r).resolve (w.setSmMaskEnabled b mask enabled).sm
        else w.padsAt r := by
  obtain ⟨href, hpads⟩ := padsAt_setEnables w b mask enabled
  rw [setSmMaskEnabled, padsAt_resolvePads, sm_resolvePads, href, hpads]

theorem padsAt_tickEnd (w : World) (b : BlockAddr) (r : PadRef) : (w.tickEnd b).padsAt r =
    if r = w.padRef b ∧ w.padRef b = .embedded b then (w.padsAt r).clockSync else w.padsAt r := by
  have hblock : (w.tickEnd b).padsAt =
      (if w.padRef b = .embedded b then w.modifyPads b Pads.clockSync else w).padsAt :=
    padsAt_setBlock (by rfl)
  rw [hblock]
  by_cases hown : w.padRef b = .embedded b
  · rw [if_pos hown, padsAt_modifyPads]
    by_cases hr : r = w.padRef b
    · rw [if_pos hr, if_pos ⟨hr, hown⟩]
    · rw [if_neg hr, if_neg fun h => hr h.1]
  · rw [if_neg hown, if_neg fun h => hown h.2]

theorem padsAt_groupEnd (w : World) (g : GroupAddr) (r : PadRef) : (w.groupEnd g).padsAt r =
    if r = .shared g ∧ (w.groups g).shared = true then (w.padsAt r).clockSync else w.padsAt r := by
  rw [groupEnd]
  by_cases hshared : (w.groups g).shared = true
  · rw [if_pos hshared]
    by_cases hr : r = .shared g
    · subst hr
      rw [if_pos ⟨rfl, hshared⟩, padsAt_setPads_self]
    · rw [if_neg fun h => hr h.1, padsAt_setPads_of_ne hr]
  · rw [if_neg hshared, if_neg fun h => hshared h.2]

/-- What a call does to a pad set. -/
theorem padsAt_step (w : World) (c : Call) (r : PadRef) :
    (w.step c).padsAt r = w.padEffect r (w.step c).sm (w.padsAt r) c := by
  cases c with
  | sm b k op => exact congrFun (padsAt_modifySm b (smIdx k) fun s => op.apply s) r
  | block b op =>
    cases op with
    | load offset insns => exact congrFun (padsAt_load w b offset insns) r
    | _ => exact congrFun (padsAt_setBlock (by rfl)) r
  | pad b op => exact padsAt_modifyPads _ b r
  | init b =>
    rw [padEffect]
    split
    · rename_i hr
      subst hr
      simp [step, pioSimInit, padsAt, setBlock, Pio.initial]
    · rename_i hr
      cases r with
      | embedded c =>
        have hc : c ≠ b := fun he => hr (by rw [he])
        simp [step, pioSimInit, padsAt, setBlock, hc]
      | shared g => rfl
  | setEnabled b k enabled =>
    rw [step, smSetEnabled, padsAt_resolvePads, sm_resolvePads, padRef_modifySm, padsAt_modifySm]
    rfl
  | setSmMaskEnabled b mask enabled => exact padsAt_setSmMaskEnabled w b mask enabled r
  | clkdivRestartSmMask b mask => exact congrFun (samePads_clkdivRestartSmMask w b mask).padsAt r
  | enableSmMaskInSync b mask =>
    have hsame := samePads_clkdivRestartSmMask (w.setSmMaskEnabled b mask true) b mask
    refine (congrFun hsame.padsAt r).trans ((padsAt_setSmMaskEnabled w b mask true r).trans ?_)
    rw [padEffect]
    split
    · exact (resolve_congr _ hsame.enabled hsame.pins).symm
    · rfl
  | setConsecutivePindirs b k base count isOut =>
    rw [step, smSetConsecutivePindirs, padsAt_resolvePads, sm_resolvePads, padRef_modifySm,
      padsAt_modifySm]
    rfl
  | smInit b k pc cfg => exact congrFun (padsAt_modifySm b (smIdx k) fun s => s.init pc cfg) r
  | smExec b k insn => exact (padsAt_smExec w b (smIdx k) insn r).2
  | gpioSetFunction b k f =>
    rw [step, World.gpioSetFunction, padsAt_modifyPads, sm_modifyPads]
    rfl
  | groupInit g blocks => exact congrFun (padsAt_groupInit w g blocks) r
  | groupInitShared g blocks =>
    rw [padEffect]
    split
    · rename_i hr
      subst hr
      exact (groupInitShared_sets w g blocks).2.1
    · rename_i hr
      exact World.padsAt_groupInitShared w g blocks hr
  | loadProgram b k offset prog =>
    rcases w.loadProgram_cases b (smIdx k) offset prog with h | ⟨words, -, h⟩
    · rw [step, h]
      rfl
    · rw [step, h, padsAt_modifySm, padsAt_load]
      rfl
  | tickSms b => exact (padsAt_tickSms w b).2 r
  | tickEnd b => exact padsAt_tickEnd w b r
  | groupOpen g =>
    refine congrFun (List.foldlRecOn (motive := fun v : World => v.padsAt = w.padsAt) _ _ rfl
      fun v hv b _ => ?_) r
    exact openWindow_induction (P := fun v : World => v.padsAt = w.padsAt)
      (fun v i hv => by rw [padsAt_modifySm]; exact hv) hv
  | groupEnd g => exact padsAt_groupEnd w g r

def refEffect (ref : PadRef) (b : BlockAddr) : Call → PadRef
  | .init c => if b = c then .embedded b else ref
  | .groupInitShared g blocks => if b ∈ blocks.take numPio then .shared g else ref
  | _ => ref

theorem padRef_step (w : World) (c : Call) (b : BlockAddr) :
    (w.step c).padRef b = refEffect (w.padRef b) b c := by
  cases c with
  | init a =>
    rw [refEffect]
    split
    · rename_i hb
      subst hb
      simp [step, pioSimInit, padRef, setBlock, Pio.initial]
    · rename_i hb
      simp [step, pioSimInit, padRef, setBlock, hb]
  | groupInitShared g blocks => exact (groupInitShared_sets w g blocks).1 b
  | block a op =>
    cases op with
    | load offset insns => exact congrFun (sameLevels_blockOp w a (.load offset insns)).padRef b
    | _ => exact congrFun (padRef_setBlock (by rfl)) b
  | smExec a k insn => exact congrFun (padsAt_smExec w a (smIdx k) insn (.embedded a)).1 b
  | tickSms a => exact congrFun (padsAt_tickSms w a).1 b
  | tickEnd a => exact congrFun (sameLevels_tickEnd w a).padRef b
  | groupInit g blocks => exact congrFun (sameLevels_groupInit w g blocks).padRef b
  | loadProgram a k offset prog =>
    rcases w.loadProgram_cases a (smIdx k) offset prog with h | ⟨words, -, h⟩
    · rw [step, h]
      rfl
    · rw [step, h, padRef_modifySm]
      exact congrFun (sameLevels_blockOp w a (.load offset words)).padRef b
  | groupOpen g =>
    refine congrFun (List.foldlRecOn (motive := fun v : World => v.padRef = w.padRef) _ _ rfl
      fun v hv a _ => ?_) b
    exact openWindow_induction (P := fun v : World => v.padRef = w.padRef)
      (fun v i hv => by rw [padRef_modifySm]; exact hv) hv
  | groupEnd g =>
    rw [step, groupEnd]
    split
    · exact congrFun (padRef_setPads ..) b
    · rfl
  | enableSmMaskInSync a mask =>
    have hsame := samePads_clkdivRestartSmMask (w.setSmMaskEnabled a mask true) a mask
    refine (congrFun hsame.padRef b).trans ?_
    rw [setSmMaskEnabled, padRef_resolvePads, (padsAt_setEnables w a mask true).1]
    rfl
  | setSmMaskEnabled a mask enabled =>
    rw [step, setSmMaskEnabled, padRef_resolvePads, (padsAt_setEnables w a mask enabled).1]
    rfl
  | clkdivRestartSmMask a mask => exact congrFun (samePads_clkdivRestartSmMask w a mask).padRef b
  | sm a k op => exact congrFun (padRef_modifySm a (smIdx k) fun s => op.apply s) b
  | smInit a k pc cfg => exact congrFun (padRef_modifySm a (smIdx k) fun s => s.init pc cfg) b
  | pad a op => exact congrFun (padRef_modifyPads a fun p => op.apply p) b
  | gpioSetFunction a k f => exact congrFun (padRef_modifyPads a _) b
  | setEnabled a k enabled => exact congrFun ((padRef_resolvePads a).trans (padRef_modifySm ..)) b
  | setConsecutivePindirs a k base count isOut =>
    exact congrFun ((padRef_resolvePads a).trans (padRef_modifySm ..)) b

/-- Whether a state machine is enabled after the call. -/
def enabledEffect (old : Bool) (b : BlockAddr) (i : Fin 4) : Call → Bool
  | .init c => if b = c then false else old
  | .setEnabled c k enabled => if (b, i) = (c, smIdx k) then enabled else old
  | .setSmMaskEnabled c mask enabled => if b = c ∧ mask.getLsbD i = true then enabled else old
  | .enableSmMaskInSync c mask => if b = c ∧ mask.getLsbD i = true then true else old
  | .smInit c k _ _ => if (b, i) = (c, smIdx k) then false else old
  | _ => old

theorem enabled_closed (w : World) (b : BlockAddr) (i : Fin 4) :
    Closed (fun v => ∀ c j, (v.sm c j).enabled = (w.sm c j).enabled) b i where
  record v s _ hs hv c j := by
    rw [sm_setSm]
    split
    · rename_i he
      obtain ⟨rfl, rfl⟩ := Prod.mk.inj he
      exact hs.trans (hv c j)
    · exact hv c j
  irq v blk x hv c j := by
    rw [sm_setIrq]
    exact hv c j
  fetch v hv c j := by
    rw [sm_countFetch]
    exact hv c j
  pins v r hv c j := by
    rw [World.setPins, sm_resolvePads, modifySm, sm_setSm]
    split
    · rename_i he
      obtain ⟨rfl, rfl⟩ := Prod.mk.inj he
      exact hv c j
    · exact hv c j

omit [Platform] in
theorem enabled_modifySm {f : Sm → Sm} (hf : ∀ s, (f s).enabled = s.enabled) (b c : BlockAddr)
    (i j : Fin 4) :
    ((w.modifySm b i f).sm c j).enabled = (w.sm c j).enabled :=
  keeps_modifySm Sm.enabled f hf w b c i j

theorem enabled_setEnables (w : World) (b c : BlockAddr) (mask : BitVec 8) (enabled : Bool)
    (j : Fin 4) :
    ((w.setSmMaskEnabled b mask enabled).sm c j).enabled =
      if c = b ∧ mask.getLsbD j = true then enabled else (w.sm c j).enabled := by
  have hloop : ∀ (l : List (Fin 4)) (v : World), ((l.foldl (fun w (i : Fin 4) =>
      if mask.getLsbD i then w.modifySm b i fun s => { s with enabled := enabled } else w) v).sm
        c j).enabled =
        if c = b ∧ j ∈ l ∧ mask.getLsbD j = true then enabled else (v.sm c j).enabled := by
    intro l
    induction l with
    | nil => simp
    | cons k l ih =>
      intro v
      rw [List.foldl_cons, ih]
      by_cases hself : (c, j) = (b, k)
      · obtain ⟨rfl, rfl⟩ := Prod.mk.inj hself
        cases hbit : mask.getLsbD j <;> simp
      · have hother :
          ((if mask.getLsbD k then v.modifySm b k fun s => { s with enabled := enabled } else v).sm
          c
            j).enabled = (v.sm c j).enabled := by
          split
          · rw [sm_modifySm_of_ne hself]
          · rfl
        rw [hother]
        by_cases hc : c = b
        · have hj : j ≠ k := fun he => hself (by rw [hc, he])
          simp [hc, hj]
        · simp [hc]
  rw [setSmMaskEnabled, sm_resolvePads, hloop]
  simp

theorem enabled_step (w : World) (c : Call) (b : BlockAddr) (i : Fin 4) :
    ((w.step c).sm b i).enabled = enabledEffect (w.sm b i).enabled b i c := by
  cases c with
  | init a =>
    rw [step, sm_pioSimInit, enabledEffect]
    split <;> rfl
  | setEnabled a k enabled =>
    rw [step, smSetEnabled, sm_resolvePads, modifySm, sm_setSm, enabledEffect]
    split <;> rfl
  | setSmMaskEnabled a mask enabled => exact enabled_setEnables w a b mask enabled i
  | enableSmMaskInSync a mask =>
    exact ((samePads_clkdivRestartSmMask _ a mask).enabled b i).trans
      (enabled_setEnables w a b mask true i)
  | smInit a k pc cfg =>
    rw [step, World.smInit, modifySm, sm_setSm, enabledEffect]
    split <;> rfl
  | sm a k op => exact enabled_modifySm (fun s => SmOp.enabled_apply s op) ..
  | block a op =>
    exact congrArg (fun s : BlockAddr → Fin 4 → Sm => (s b i).enabled)
      (sm_setBlock (BlockOp.sm_apply _ op))
  | pad a op =>
    exact congrArg (fun s : BlockAddr → Fin 4 → Sm => (s b i).enabled) (sm_modifyPads a _)
  | gpioSetFunction a k f =>
    exact congrArg (fun s : BlockAddr → Fin 4 → Sm => (s b i).enabled) (sm_modifyPads a _)
  | clkdivRestartSmMask a mask => exact (samePads_clkdivRestartSmMask w a mask).enabled b i
  | setConsecutivePindirs a k base count isOut =>
    rw [step, smSetConsecutivePindirs, sm_resolvePads]
    refine enabled_modifySm ?_ ..
    exact fun _ => rfl
  | smExec a k insn => exact smExec_closed (enabled_closed w a (smIdx k)) insn (fun _ _ => rfl) b i
  | groupInit g blocks =>
    rw [step, sm_groupInit]
    rfl
  | groupInitShared g blocks =>
    rw [step, sm_groupInitShared]
    rfl
  | loadProgram a k offset prog =>
    rcases w.loadProgram_cases a (smIdx k) offset prog with h | ⟨words, -, h⟩
    · rw [step, h]
      rfl
    · rw [step, h]
      refine (enabled_modifySm ?_ ..).trans
        (congrArg (fun s : BlockAddr → Fin 4 → Sm => (s b i).enabled)
        (sm_setBlock (BlockOp.sm_apply _ (.load offset words))))
      exact fun _ => rfl
  | tickSms a =>
    have hopen : ∀ s : Sm, s.openWindow.enabled = s.enabled := fun _ => rfl
    exact tickSms_induction (P := fun v => ∀ c j, (v.sm c j).enabled = (w.sm c j).enabled)
      (fun v k hv c j => (enabled_modifySm hopen ..).trans (hv c j))
      (fun v k hv => smTick_closed (enabled_closed w a k)
        (fun x hx c j =>
          (enabled_modifySm (fun s => by unfold stickyReassert; split <;> rfl) ..).trans (hx c j))
          hv)
      (fun v hv c j => by rw [sm_resolvePads]; exact hv c j) (fun _ _ => rfl) b i
  | tickEnd a =>
    rw [step, tickEnd]
    refine (congrArg (fun s : BlockAddr → Fin 4 → Sm => (s b i).enabled)
      (sm_setBlock (by rfl))).trans ?_
    split
    · rw [sm_modifyPads]
      rfl
    · rfl
  | groupOpen g =>
    refine List.foldlRecOn
      (motive := fun v : World => (v.sm b i).enabled = (w.sm b i).enabled) _ _ rfl ?_
    intro v hv a _
    rw [sm_openWindow]
    split
    · exact hv
    · exact hv
  | groupEnd g =>
    rw [step, groupEnd]
    split
    · rw [sm_setPads]
      rfl
    · rfl

end World
end PioSim
