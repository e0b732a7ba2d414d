import PioSim.Bystander
import PioSim.PadEffect

/-!
# Fixtures

How the blocks are wired to one another and to their pads, and how often they have ticked. These are
written by few calls: the initialisation of a block, the forming of a group, a new pair of
neighbours and the end of a tick.
-/

namespace PioSim

variable [Platform]

/-- The calls that rewire a block, form a group or count a tick. -/
def Call.writesFixtures : Call → Bool
  | .block _ (.setIrqNeighbors ..) | .init _ | .groupInit .. | .groupInitShared ..
    | .tickEnd _ => true
  | _ => false

namespace World

variable {w : World} {b : BlockAddr} {g : GroupAddr}

/-- The cycle count and the IRQ neighbours of each block, the members of each group and whether they
share pads. -/
def fixtures (w : World) : (BlockAddr → BitVec 64 × Option BlockAddr × Option BlockAddr) ×
    (GroupAddr → List BlockAddr × Bool) :=
  (fun b => ((w.blocks b).cycle, (w.blocks b).irqPrev, (w.blocks b).irqNext),
    fun g => ((w.groups g).blk, (w.groups g).shared))

section
omit [Platform]

theorem fixtures_setBlock {p : Pio} (hcycle : p.cycle = (w.blocks b).cycle)
    (hprev : p.irqPrev = (w.blocks b).irqPrev) (hnext : p.irqNext = (w.blocks b).irqNext) :
    (w.setBlock b p).fixtures = w.fixtures := by
  refine Prod.ext (funext fun c => ?_) rfl
  by_cases hc : c = b
  · subst hc
    simp [fixtures, setBlock, hcycle, hprev, hnext]
  · simp [fixtures, setBlock, Function.update_of_ne hc]

theorem bystander_fixtures : Bystander fixtures where
  setSm _ _ _ _ := fixtures_setBlock rfl rfl rfl
  setIrq _ _ _ := fixtures_setBlock rfl rfl rfl
  countFetch w b i := by
    unfold countFetch
    split
    · rfl
    · exact fixtures_setBlock rfl rfl rfl
  setPads w r p := by
    cases r with
    | embedded c => exact fixtures_setBlock rfl rfl rfl
    | shared g =>
      refine Prod.ext rfl (funext fun k => ?_)
      by_cases hk : k = g
      · subst hk
        simp [fixtures, setPads, setGroup]
      · simp [fixtures, setPads, setGroup, Function.update_of_ne hk]

theorem fixtures_load (w : World) (b : BlockAddr) (offset : ℕ) (words : List Insn) :
    (w.setBlock b ((w.blocks b).load offset words)).fixtures = w.fixtures := by
  have hload : ((w.blocks b).load offset words).cycle = (w.blocks b).cycle ∧
      ((w.blocks b).load offset words).irqPrev = (w.blocks b).irqPrev ∧
      ((w.blocks b).load offset words).irqNext = (w.blocks b).irqNext := by
    refine List.foldlRecOn (motive := fun q : Pio => q.cycle = (w.blocks b).cycle ∧
      q.irqPrev = (w.blocks b).irqPrev ∧ q.irqNext = (w.blocks b).irqNext) _ _ ⟨rfl, rfl, rfl⟩
        fun q hq x _ => ?_
    simp only
    split
    · exact hq
    · exact hq
  exact fixtures_setBlock hload.1 hload.2.1 hload.2.2

end

theorem fixtures_step (w : World) {c : Call} (hc : c.writesFixtures = false) :
    (w.step c).fixtures = w.fixtures := by
  cases hwrites : c.writesBlock with
  | false => exact bystander_fixtures.step w hwrites
  | true =>
    cases c with
    | block b op =>
      cases op with
      | load offset words => exact fixtures_load w b offset words
      | setIrqNeighbors => cases hc
      | irqClear | irqForce | setIrqnSourceMaskEnabled | setIntf | setGpioBase =>
        exact fixtures_setBlock rfl rfl rfl
    | loadProgram b k offset prog =>
      exact bystander_fixtures.loadProgram w b _ offset prog (fixtures_load w b offset)
    | init | groupInit | groupInitShared | tickEnd => cases hc
    | _ => cases hwrites

/-- The end of a tick counts it for its block, and rewires nothing. -/
theorem fixtures_tickEnd (w : World) (b : BlockAddr) :
    (∀ c, ((w.tickEnd b).fixtures.1 c).2 = (w.fixtures.1 c).2) ∧
      (w.tickEnd b).fixtures.2 = w.fixtures.2 ∧
      ∀ c, ((w.tickEnd b).blocks c).cycle = (w.blocks c).cycle + if c = b then 1 else 0 := by
  obtain ⟨v, hv, hend⟩ : ∃ v : World, v.fixtures = w.fixtures ∧
      w.tickEnd b = v.setBlock b { v.blocks b with cycle := (v.blocks b).cycle + 1 } := by
    unfold tickEnd
    simp only
    split
    · exact ⟨_, bystander_fixtures.setPads w _ _, rfl⟩
    · exact ⟨w, rfl, rfl⟩
  have hblock : ∀ c, (v.fixtures.1 c) = w.fixtures.1 c := fun c => congrFun (congrArg Prod.fst hv) c
  rw [hend, ← hv]
  refine ⟨fun c => ?_, rfl, fun c => ?_⟩
  · by_cases hc : c = b
    · subst hc
      simp [fixtures, setBlock]
    · simp [fixtures, setBlock, Function.update_of_ne hc]
  · have hcycle : (v.blocks c).cycle = (w.blocks c).cycle := congrArg Prod.fst (hblock c)
    by_cases hc : c = b
    · subst hc
      simp [setBlock, hcycle]
    · simp [setBlock, hc, hcycle]

/-- A call keeps the owners of a pad set unless it makes the set anew. -/
theorem owners_step (w : World) {c : Call} {r : PadRef} (hinit : ∀ b, r = .embedded b → c ≠ .init b)
    (hgroup : ∀ g blocks, r = .shared g → c ≠ .groupInitShared g blocks) :
    ((w.step c).padsAt r).owners = (w.padsAt r).owners := by
  rw [padsAt_step]
  cases c with
  | init b =>
    rw [padEffect, if_neg fun hr => hinit b hr rfl]
  | groupInitShared g blocks =>
    rw [padEffect, if_neg fun hr => hgroup g blocks hr rfl]
  | pad b op =>
    rw [padEffect]
    split
    · exact congrArg (fun v => v.2.2.2.2) (PadOp.dirView_apply (w.padsAt r) op)
    · rfl
  | gpioSetFunction b k f =>
    rw [padEffect]
    split
    · unfold Pads.gpioSetFunction
      rfl
    · rfl
  | setEnabled | setSmMaskEnabled | enableSmMaskInSync | setConsecutivePindirs | tickSms | smExec
      | tickEnd | groupEnd =>
    rw [padEffect]
    split <;> rfl
  | _ => rfl

end World
end PioSim
