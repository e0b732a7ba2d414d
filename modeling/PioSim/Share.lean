import PioSim.Effects

/-!
# One state machine's share of a tick

A tick runs the four state machines of a block in turn. What it does to one of them happens in its
own `smTick`, in the world its predecessors leave; neither they nor its successors touch its record
or the instruction memory.
-/

namespace PioSim.World

variable [Platform]

theorem sm_foldl_smTick_of_notMem {b : BlockAddr} {i : Fin 4} {l : List (Fin 4)} (h : i ∉ l)
    (w : World) : (l.foldl (fun w j => w.smTick b j) w).sm b i = w.sm b i := by
  induction l generalizing w with
  | nil => rfl
  | cons j l ih =>
    rw [List.mem_cons, not_or] at h
    rw [List.foldl_cons, ih h.2]
    apply (smTick_local w b j).sm
    exact fun he => h.1 (Prod.mk.inj he).2

theorem shell_foldl_smTick (b : BlockAddr) (l : List (Fin 4)) (w : World) :
    (l.foldl (fun w j => w.smTick b j) w).shell = w.shell :=
  List.foldlRecOn (motive := fun v : World => v.shell = w.shell) _ _ rfl
    fun v hv j _ => (smTick_local v b j).shell.trans hv

section
omit [Platform]

theorem sm_foldl_modifySm_of_notMem {b : BlockAddr} {i : Fin 4} {l : List (Fin 4)} (h : i ∉ l)
    (f : Sm → Sm) (w : World) : (l.foldl (fun w j => w.modifySm b j f) w).sm b i = w.sm b i := by
  induction l generalizing w with
  | nil => rfl
  | cons j l ih =>
    rw [List.mem_cons, not_or] at h
    rw [List.foldl_cons, ih h.2, sm_modifySm_of_ne fun he => h.1 (Prod.mk.inj he).2]

theorem sm_foldl_modifySm_of_mem {b : BlockAddr} {i : Fin 4} {l : List (Fin 4)} (hl : l.Nodup)
    (h : i ∈ l) (f : Sm → Sm) (w : World) :
    (l.foldl (fun w j => w.modifySm b j f) w).sm b i = f (w.sm b i) := by
  induction l generalizing w with
  | nil => cases h
  | cons j l ih =>
    obtain ⟨hj, hl⟩ := List.nodup_cons.mp hl
    rw [List.foldl_cons]
    rcases List.mem_cons.mp h with rfl | h
    · rw [sm_foldl_modifySm_of_notMem hj, sm_modifySm_self]
    · have hne : (b, i) ≠ (b, j) := fun he => hj ((Prod.mk.inj he).2 ▸ h)
      rw [ih hl h, sm_modifySm_of_ne hne]

theorem sm_openWindow (w : World) (b c : BlockAddr) (i : Fin 4) :
    (w.openWindow b).sm c i = if c = b then (w.sm c i).openWindow else w.sm c i := by
  split
  · rename_i h
    subst h
    exact sm_foldl_modifySm_of_mem (List.nodup_finRange 4) (List.mem_finRange i) _ w
  · rename_i h
    refine List.foldlRecOn (motive := fun v : World => v.sm c i = w.sm c i) _ _ rfl ?_
    exact fun v hv j _ => (sm_modifySm_of_ne (fun he => h (Prod.mk.inj he).1) _).trans hv

theorem shell_openWindow (w : World) (b : BlockAddr) : (w.openWindow b).shell = w.shell :=
  openWindow_induction (P := fun v => v.shell = w.shell)
    (fun _ i hv => (shell_modifySm b i _).trans hv) rfl

/-- The world in which `pio_sim_tick` gives state machine `i` its turn. -/
def beforeSm (w : World) (b : BlockAddr) (i : Fin 4) : World :=
  ((List.finRange 4).take i).foldl (fun w j => w.smTick b j) (w.openWindow b)

theorem finRange_split (i : Fin 4) : List.finRange 4 =
    (List.finRange 4).take i ++ i :: (List.finRange 4).drop (i + 1) := by
  revert i
  decide

theorem notMem_take_finRange (i : Fin 4) : i ∉ (List.finRange 4).take i := by
  revert i
  decide

theorem notMem_drop_finRange (i : Fin 4) : i ∉ (List.finRange 4).drop (i + 1) := by
  revert i
  decide

end

theorem sm_beforeSm (w : World) (b : BlockAddr) (i : Fin 4) :
    (w.beforeSm b i).sm b i = (w.sm b i).openWindow := by
  rw [beforeSm, sm_foldl_smTick_of_notMem (notMem_take_finRange i), sm_openWindow, if_pos rfl]

theorem shell_beforeSm (w : World) (b : BlockAddr) (i : Fin 4) :
    (w.beforeSm b i).shell = w.shell :=
  (shell_foldl_smTick b _ _).trans (shell_openWindow w b)

/-- What a tick of the block does to one of its state machines. -/
theorem sm_tickSms (w : World) (b : BlockAddr) (i : Fin 4) :
    (w.tickSms b).sm b i = ((w.beforeSm b i).smTick b i).sm b i := by
  rw [tickSms, sm_resolvePads, finRange_split i, List.foldl_append, List.foldl_cons,
    sm_foldl_smTick_of_notMem (notMem_drop_finRange i)]
  rfl

theorem sm_tickSms_of_ne (w : World) {b c : BlockAddr} (h : c ≠ b) (i : Fin 4) :
    (w.tickSms b).sm c i = w.sm c i := by
  apply tickSms_induction (P := fun v => v.sm c i = w.sm c i)
  · exact fun v j hv => (sm_modifySm_of_ne (fun he => h (Prod.mk.inj he).1) _).trans hv
  · exact fun v j hv => ((smTick_local v b j).sm c i fun he => h (Prod.mk.inj he).1).trans hv
  · exact fun v hv => by rwa [sm_resolvePads]
  · rfl

@[simp] theorem shell_tickSms (w : World) (b : BlockAddr) : (w.tickSms b).shell = w.shell := by
  apply tickSms_induction (P := fun v => v.shell = w.shell)
  · exact fun v j hv => (shell_modifySm b j _).trans hv
  · exact fun v j hv => (smTick_local v b j).shell.trans hv
  · exact fun v hv => (shell_resolvePads b).trans hv
  · rfl

/-! ### The turn of one state machine -/

/-- The state machine is enabled and its divider is about to elapse. -/
def due (w : World) (b : BlockAddr) (i : Fin 4) : Bool :=
  (w.sm b i).enabled && divUnits (w.sm b i) ≤ u32 ((w.sm b i).clkAccum + 256)

/-- The world `sm_cycle` runs in: the predecessors had their turns and the divider has elapsed. -/
def cycleWorld (w : World) (b : BlockAddr) (i : Fin 4) : World :=
  (w.beforeSm b i).modifySm b i fun sm =>
    { sm with clkAccum := u32 (sm.clkAccum + 256) - divUnits sm }

theorem sm_cycleWorld (w : World) (b : BlockAddr) (i : Fin 4) :
    (w.cycleWorld b i).sm b i = { (w.sm b i).openWindow with
      clkAccum := u32 ((w.sm b i).clkAccum + 256) - divUnits (w.sm b i) } := by
  rw [cycleWorld, sm_modifySm_self, sm_beforeSm]
  rfl

theorem shell_cycleWorld (w : World) (b : BlockAddr) (i : Fin 4) :
    (w.cycleWorld b i).shell = w.shell :=
  (shell_modifySm b i _).trans (shell_beforeSm w b i)

/-- A tick in which the state machine is due runs one `sm_cycle` of it. -/
theorem sm_tickSms_of_due {w : World} {b : BlockAddr} {i : Fin 4} (h : w.due b i = true) :
    (w.tickSms b).sm b i = stickyReassert (((w.cycleWorld b i).smCycle b i).sm b i) := by
  simp only [due, Bool.and_eq_true, decide_eq_true_eq] at h
  have hsm := sm_beforeSm w b i
  have hdue : divUnits ((w.beforeSm b i).sm b i) ≤
      u32 (((w.beforeSm b i).sm b i).clkAccum + 256) := by
    rw [hsm]
    exact h.2
  have hen : ((w.beforeSm b i).sm b i).enabled = true := by
    rw [hsm]
    exact h.1
  rw [sm_tickSms, smTick]
  simp only
  rw [if_pos hdue, if_pos hen, sm_modifySm_self]
  rfl

/-- A tick in which it is not due only advances its divider. -/
theorem sm_tickSms_of_not_due {w : World} {b : BlockAddr} {i : Fin 4} (h : w.due b i = false) :
    ∃ n, (w.tickSms b).sm b i = { (w.sm b i).openWindow with clkAccum := n } := by
  have hsm := sm_beforeSm w b i
  rw [sm_tickSms, smTick]
  simp only
  split_ifs with hdue hen
  · rw [hsm] at hdue hen
    simp only [due, Bool.and_eq_false_iff, decide_eq_false_iff_not] at h
    rcases h with h | h
    · rw [show (w.sm b i).enabled = true from hen] at h
      cases h
    · exact absurd hdue h
  · exact ⟨_, by rw [sm_setSm_self, hsm]⟩
  · exact ⟨_, by rw [sm_setSm_self, hsm]⟩

/-- The state in which `sm_cycle` presents its instruction, after the background autopull. -/
def toppedUp (w : World) (b : BlockAddr) (i : Fin 4) : World := w.modifySm b i Sm.backgroundAutopull

omit [Platform] in
/-- The background autopull changes nothing the next word is chosen by. -/
theorem getInstruction_toppedUp (w : World) (b : BlockAddr) (i : Fin 4) :
    (w.toppedUp b i).getInstruction b i = w.getInstruction b i := by
  obtain ⟨hp, hi, hpc, -, -⟩ := Sm.backgroundAutopull_fields (w.sm b i)
  simp only [getInstruction, toppedUp, sm_modifySm_self, hp, hi, hpc, insn_modifySm]

theorem getInstruction_cycleWorld (w : World) (b : BlockAddr) (i : Fin 4) :
    (w.cycleWorld b i).getInstruction b i = w.getInstruction b i := by
  have hmem : ((w.cycleWorld b i).blocks b).insn = (w.blocks b).insn :=
    congrArg Prod.fst (congrFun (shell_cycleWorld w b i) b)
  simp only [getInstruction, sm_cycleWorld, hmem]
  rfl

/-- The world in which a tick presents the state machine's next instruction. -/
def presentWorld (w : World) (b : BlockAddr) (i : Fin 4) : World :=
  ((w.cycleWorld b i).toppedUp b i).countFetch b i

theorem sm_presentWorld (w : World) (b : BlockAddr) (i : Fin 4) :
    (w.presentWorld b i).sm b i = Sm.backgroundAutopull ((w.cycleWorld b i).sm b i) := by
  rw [presentWorld, sm_countFetch, toppedUp, sm_modifySm_self]

theorem shell_presentWorld (w : World) (b : BlockAddr) (i : Fin 4) :
    (w.presentWorld b i).shell = w.shell :=
  (countFetch_local _ b b i i).shell.trans ((shell_modifySm b i _).trans (shell_cycleWorld w b i))

omit [Platform] in
theorem stickyReassert_eq (s : Sm) : ∃ r, stickyReassert s = { s with pins := r } := by
  unfold stickyReassert
  split
  · exact ⟨_, rfl⟩
  · exact ⟨s.pins, rfl⟩

/-- A tick that presents an instruction: the record after it, by whether the word commits. -/
theorem sm_tickSms_of_presents {w : World} {b : BlockAddr} {i : Fin 4} {r : Executed}
    (h : w.due b i = true) (hd : (w.sm b i).delay = 0)
    (hr : (w.presentWorld b i).execOne b i (w.getInstruction b i) = r) :
    (w.tickSms b).sm b i = stickyReassert (if r.committed
      then (r.world.sm b i).retire (w.sm b i).execPending r.setPc r.delay
      else { r.world.sm b i with stalled := true }) := by
  obtain ⟨hp, -, -, hdelay, -⟩ := Sm.backgroundAutopull_fields ((w.cycleWorld b i).sm b i)
  rw [sm_cycleWorld] at hp hdelay
  have hrun : ¬ 0 < (((w.cycleWorld b i).toppedUp b i).sm b i).delay := by
    rw [toppedUp, sm_modifySm_self, sm_cycleWorld, hdelay]
    exact Nat.not_lt.mpr (Nat.le_of_eq hd)
  have hpend : (((w.cycleWorld b i).toppedUp b i).sm b i).execPending = (w.sm b i).execPending := by
    rw [toppedUp, sm_modifySm_self, sm_cycleWorld, hp]
    rfl
  have hone : (((w.cycleWorld b i).toppedUp b i).countFetch b i).execOne b i
      (((w.cycleWorld b i).toppedUp b i).getInstruction b i) = r := by
    rw [getInstruction_toppedUp, getInstruction_cycleWorld]
    exact hr
  rw [sm_tickSms_of_due h, smCycle]
  simp only
  rw [← toppedUp, if_neg hrun, present, hone, hpend]
  split
  · rw [sm_modifySm_self]
  · rw [sm_modifySm_self]

/-- A tick that presents an instruction, which commits. -/
theorem sm_tickSms_of_commit {w : World} {b : BlockAddr} {i : Fin 4} {r : Executed}
    (h : w.due b i = true) (hd : (w.sm b i).delay = 0)
    (hr : (w.presentWorld b i).execOne b i (w.getInstruction b i) = r)
    (hc : r.committed = true) : (w.tickSms b).sm b i =
      stickyReassert ((r.world.sm b i).retire (w.sm b i).execPending r.setPc r.delay) := by
  rw [sm_tickSms_of_presents h hd hr, if_pos hc]

/-- A tick that presents an instruction, which stalls. -/
theorem sm_tickSms_of_stall {w : World} {b : BlockAddr} {i : Fin 4} {r : Executed}
    (h : w.due b i = true) (hd : (w.sm b i).delay = 0)
    (hr : (w.presentWorld b i).execOne b i (w.getInstruction b i) = r)
    (hc : r.committed = false) :
    (w.tickSms b).sm b i = stickyReassert { r.world.sm b i with stalled := true } := by
  rw [sm_tickSms_of_presents h hd hr, if_neg (by rw [hc]; exact Bool.false_ne_true)]

/-- A tick on a delay cycle only counts the delay down and tops the OSR up. -/
theorem sm_tickSms_of_delay {w : World} {b : BlockAddr} {i : Fin 4} (h : w.due b i = true)
    (hd : 0 < (w.sm b i).delay) :
    (w.tickSms b).sm b i = stickyReassert
      { Sm.backgroundAutopull ((w.cycleWorld b i).sm b i) with
        delay := (w.sm b i).delay - 1 } := by
  obtain ⟨-, -, -, hdelay, -⟩ := Sm.backgroundAutopull_fields ((w.cycleWorld b i).sm b i)
  have hcycle : ((w.cycleWorld b i).sm b i).delay = (w.sm b i).delay := by
    rw [sm_cycleWorld]
    rfl
  rw [hcycle] at hdelay
  have hwait : 0 < (((w.cycleWorld b i).toppedUp b i).sm b i).delay := by
    rw [toppedUp, sm_modifySm_self, hdelay]
    exact hd
  rw [sm_tickSms_of_due h, smCycle]
  simp only
  rw [← toppedUp, if_pos hwait, sm_modifySm_self, toppedUp, sm_modifySm_self, hdelay]

/-- A tick that presents an instruction which only works on the record: `s'` is the record it
leaves. -/
theorem sm_tickSms_of_record {w : World} {b : BlockAddr} {i : Fin 4} {s' : Sm} {stalled : Bool}
    {setPc : Option ℕ} (h : w.due b i = true) (hd : (w.sm b i).delay = 0)
    (hr : (w.presentWorld b i).execInsn b i (w.getInstruction b i) =
      ⟨(w.presentWorld b i).setSm b i s', stalled, setPc⟩) :
    ∃ r n, (w.tickSms b).sm b i = { (if stalled then { s' with stalled := true }
      else s'.retire (w.sm b i).execPending setPc n) with pins := r } := by
  obtain ⟨ds, hds⟩ : ∃ ds, ((w.presentWorld b i).sm b i).decodeDelaySideset
      (delayField (w.getInstruction b i)) = ds := ⟨_, rfl⟩
  obtain ⟨r, hside⟩ := sm_applySideset ((w.presentWorld b i).setSm b i s') b i ds
  rw [sm_setSm_self] at hside
  have hone : (w.presentWorld b i).execOne b i (w.getInstruction b i) =
      ⟨((w.presentWorld b i).setSm b i s').applySideset b i ds, !stalled, setPc, ds.delay⟩ := by
    rw [execOne, hr, hds]
  rw [sm_tickSms_of_presents h hd hone]
  simp only [hside]
  cases stalled with
  | true =>
    obtain ⟨r', hr'⟩ := stickyReassert_eq { { s' with pins := r } with stalled := true }
    rw [Bool.not_true, if_neg Bool.false_ne_true, hr']
    exact ⟨r', 0, rfl⟩
  | false =>
    obtain ⟨r', hr'⟩ := stickyReassert_eq
      (Sm.retire { s' with pins := r } (w.sm b i).execPending setPc ds.delay)
    rw [Bool.not_false, if_pos rfl, hr']
    refine ⟨r', ds.delay, ?_⟩
    unfold Sm.retire
    split <;> rfl

end PioSim.World
