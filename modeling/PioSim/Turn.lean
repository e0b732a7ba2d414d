import PioSim.Dividers

/-!
# One turn

What a tick does to the whole memory in the turn of one state machine: it only counts its divider,
or counts down a delay, or presents one instruction and files the outcome.
-/

namespace PioSim

variable [Platform]

/-- How `sm_cycle` files the outcome of a presentation, with the re-assertion that follows it. -/
def Executed.file (r : Executed) (fromExec : Bool) (s : Sm) : Sm :=
  World.stickyReassert
    (if r.committed then s.retire fromExec r.setPc r.delay else { s with stalled := true })

omit [Platform] in
theorem Executed.file_of_commit (r : Executed) (h : r.committed = true) (fromExec : Bool) (s : Sm) :
    r.file fromExec s = World.stickyReassert (s.retire fromExec r.setPc r.delay) := by
  rw [file, if_pos h]

omit [Platform] in
theorem Executed.file_of_stall (r : Executed) (h : r.committed = false) (fromExec : Bool) (s : Sm) :
    r.file fromExec s = World.stickyReassert { s with stalled := true } := by
  rw [file, if_neg (by rw [h]; exact Bool.false_ne_true)]

/-- A delay cycle: one cycle less, and the OSR topped up. -/
def Sm.delayCycle (s : Sm) : Sm :=
  World.stickyReassert { s.backgroundAutopull with delay := s.backgroundAutopull.delay - 1 }

def Sm.elapse (s : Sm) : Sm := { s with clkAccum := u32 (s.clkAccum + 256) - World.divUnits s }

namespace World

variable {w : World} {b : BlockAddr} {i : Fin 4}

omit [Platform] in
theorem modifySm_modifySm (w : World) (b : BlockAddr) (i : Fin 4) (f g : Sm → Sm) :
    (w.modifySm b i f).modifySm b i g = w.modifySm b i fun s => g (f s) := by
  unfold modifySm
  rw [sm_setSm_self, setSm_setSm]

def turnWorld (w : World) (b : BlockAddr) (i : Fin 4) : World :=
  ((w.modifySm b i Sm.elapse).toppedUp b i).countFetch b i

theorem presentWorld_eq (w : World) (b : BlockAddr) (i : Fin 4) :
    w.presentWorld b i = (w.beforeSm b i).turnWorld b i := rfl

omit [Platform] in
theorem sm_turnWorld (w : World) (b : BlockAddr) (i : Fin 4) :
    (w.turnWorld b i).sm b i = (w.sm b i).elapse.backgroundAutopull := by
  rw [turnWorld, sm_countFetch, toppedUp, sm_modifySm_self, sm_modifySm_self]

theorem smTick_of_due (h : w.due b i = true) : w.smTick b i =
    ((w.modifySm b i Sm.elapse).smCycle b i).modifySm b i stickyReassert := by
  simp only [due, Bool.and_eq_true, decide_eq_true_eq] at h
  unfold smTick
  dsimp only
  rw [if_pos h.2, if_pos h.1]
  rfl

/-- A turn in which the state machine is not due counts its divider. -/
theorem smTick_of_not_due (h : w.due b i = false) : w.smTick b i =
    w.modifySm b i fun s => { s with clkAccum := s.nextAccum } := by
  simp only [due, Bool.and_eq_false_iff, decide_eq_false_iff_not] at h
  unfold smTick modifySm Sm.nextAccum
  dsimp only
  split_ifs with hdue hen
  · exact absurd hdue (h.resolve_left (by simp [hen]))
  · rfl
  · rfl

/-- A turn on a delay cycle. -/
theorem smTick_of_delay (h : w.due b i = true) (hd : 0 < (w.sm b i).delay) : w.smTick b i =
    w.modifySm b i fun s => s.elapse.delayCycle := by
  obtain ⟨-, -, -, hdelay, -⟩ := Sm.backgroundAutopull_fields (w.sm b i).elapse
  have hwait : 0 <
      (((w.modifySm b i Sm.elapse).modifySm b i Sm.backgroundAutopull).sm b i).delay := by
    rw [sm_modifySm_self, sm_modifySm_self, hdelay]
    exact hd
  rw [smTick_of_due h, smCycle]
  rw [if_pos hwait, modifySm_modifySm, modifySm_modifySm, modifySm_modifySm]
  rfl

/-- A turn that presents an instruction. -/
theorem smTick_of_presents (h : w.due b i = true) (hd : (w.sm b i).delay = 0) : w.smTick b i =
    let r := (w.turnWorld b i).execOne b i (w.getInstruction b i)
    r.world.modifySm b i (r.file (w.sm b i).execPending) := by
  obtain ⟨hpend, hinsn, hpc, hdelay, -⟩ := Sm.backgroundAutopull_fields (w.sm b i).elapse
  have hrun : ¬ 0 <
      (((w.modifySm b i Sm.elapse).modifySm b i Sm.backgroundAutopull).sm b i).delay := by
    rw [sm_modifySm_self, sm_modifySm_self, hdelay]
    exact Nat.not_lt.mpr (Nat.le_of_eq hd)
  have hword : ((w.modifySm b i Sm.elapse).modifySm b i Sm.backgroundAutopull).getInstruction b i =
      w.getInstruction b i := by
    simp only [getInstruction, sm_modifySm_self, hpend, hinsn, hpc, insn_modifySm]
    rfl
  rw [smTick_of_due h, smCycle]
  have hturn : ((w.modifySm b i Sm.elapse).modifySm b i Sm.backgroundAutopull).countFetch b i =
      w.turnWorld b i := rfl
  rw [if_neg hrun, present, hword, sm_modifySm_self, sm_modifySm_self, hpend, hturn]
  generalize (w.turnWorld b i).execOne b i (w.getInstruction b i) = r
  dsimp only
  split
  · rename_i hc
    rw [modifySm_modifySm]
    exact congrArg _ (funext fun s => (r.file_of_commit hc (w.sm b i).execPending s).symm)
  · rename_i hc
    rw [modifySm_modifySm]
    exact congrArg _ (funext fun s =>
      (r.file_of_stall (Bool.not_eq_true _ ▸ hc) (w.sm b i).execPending s).symm)

end World

end PioSim
