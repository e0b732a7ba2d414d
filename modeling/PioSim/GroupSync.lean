import PioSim.ClockRate
import PioSim.Fixtures
import PioSim.Lockstep
import PioSim.PadEffect
import PioSim.Lib.Round

/-!
# A group started in step

`pio_sim_group_enable_sm_mask_in_sync` enables state machines across the blocks of a group and
restarts their dividers. A tick of the group clocks every one of them once, so from there on the
ticks on which a state machine acts are those of its divider counted from the start, whatever its
block and its place in the group.
-/

namespace PioSim

variable [Platform]

namespace World

def groupEnableSmMaskInSync (w : World) (g : GroupAddr) (masks : ℕ → BitVec 8) : World :=
  (w.groups g).blk.zipIdx.foldl (fun w p => w.enableSmMaskInSync p.1 (masks p.2)) w

/-- The world that block `b` finds at its turn in a tick of the group. -/
def groupTurn (w : World) (g : GroupAddr) (onTick : BlockAddr → World → World)
    (b : BlockAddr) : World :=
  Round.found (fun w a => w.pioSimTick a (onTick a)) (w.groups g).blk b (w.groupOpen g)

/-- The devices leave the clock of state machine `(b, i)` and the members of the groups alone. -/
def Punctual (onTick : BlockAddr → World → World) (b : BlockAddr) (i : Fin 4) : Prop :=
  ∀ a w, ((onTick a w).sm b i).enabled = (w.sm b i).enabled ∧
    ((onTick a w).sm b i).timing = (w.sm b i).timing ∧
    ∀ g, ((onTick a w).groups g).blk = (w.groups g).blk

/-- State machine `(b, i)` is enabled with the divider `d` of period `D`, `n` ticks after its phase
was 0, and the groups have the members they had in `w₀`. -/
structure Started (w₀ : World) (b : BlockAddr) (i : Fin 4) (d : ℕ × ℕ) (D n : ℕ)
    (w : World) : Prop where
  enabled : (w.sm b i).enabled = true
  period : divUnits (w.sm b i) = D
  rate : AtRate b i d D w (Rate.train 256 D n)
  members : ∀ g, (w.groups g).blk = (w₀.groups g).blk

variable {w₀ w v : World} {g : GroupAddr} {a b : BlockAddr} {i : Fin 4} {d : ℕ × ℕ} {D n : ℕ}
  {onTick : BlockAddr → World → World}

omit [Platform] in
/-- Only the clock and the members count. -/
theorem Started.congr (h : Started w₀ b i d D n w) (he : (v.sm b i).enabled = (w.sm b i).enabled)
    (ht : (v.sm b i).timing = (w.sm b i).timing) (hm : ∀ g, (v.groups g).blk = (w.groups g).blk) :
    Started w₀ b i d D n v := by
  obtain ⟨hdivider, haccum⟩ := timing_eq ht
  refine ⟨he.trans h.enabled, (Sm.divUnits_congr hdivider).trans h.period, ?_,
    fun g => (hm g).trans (h.members g)⟩
  exact ⟨hdivider.trans h.rate.divider, haccum.trans h.rate.phase, h.rate.train⟩

/-- A tick of its block takes the state machine one tick on, and clocks it on the pulse of its
divider. -/
theorem Started.tickSms (h : Started w₀ b i d D n w) (hfits : DividerFits d) :
    Started w₀ b i d D (n + 1) (w.tickSms b) ∧ w.due b i = Rate.pulses 256 D (256 * n % D) := by
  have hticks : (ApiCall.call (.tickSms b)).ticks b = true := by simp [ApiCall.ticks]
  have hrate := h.rate.step h.period hfits (e := .call (.tickSms b)) fun hno =>
    absurd (hticks.symm.trans hno) (by decide)
  have hcycle : cycles b i w (.call (.tickSms b)) = [w.cycleDue b i] := if_pos hticks
  have hlength : (Rate.train 256 D n).length = n := by simp [Rate.train]
  have htrain := hrate.train
  rw [hcycle, List.length_append, hlength, List.length_singleton, Rate.train_succ] at htrain
  have hdue : w.cycleDue b i = Rate.pulses 256 D (256 * n % D) :=
    (List.cons.inj (List.append_cancel_left htrain)).1
  rw [hcycle, hdue, ← Rate.train_succ] at hrate
  refine ⟨⟨?_, ?_, hrate, fun g => ?_⟩, ?_⟩
  · exact (enabled_step w (.tickSms b) b i).trans h.enabled
  · exact (Sm.divUnits_congr (hrate.divider.trans h.rate.divider.symm)).trans h.period
  · exact (congrArg (fun x => (x.2 g).1) (fixtures_step w (c := .tickSms b) rfl)).trans
      (h.members g)
  · rw [due_eq, h.enabled, Bool.true_and, hdue]

/-- The hook and the end of a tick leave the clock alone. -/
theorem Started.rest (h : Started w₀ b i d D n w) (hook : Punctual onTick b i) (a : BlockAddr) :
    Started w₀ b i d D n ((onTick a w).tickEnd a) := by
  obtain ⟨he, ht, hm⟩ := hook a w
  refine (h.congr he ht hm).congr ?_ ?_ fun g => ?_
  · rw [sm_tickEnd]
  · rw [sm_tickEnd]
  · exact congrArg (fun x => (x g).1) (fixtures_tickEnd (onTick a w) a).2.1

/-- The turn of another block leaves the clock alone. -/
theorem Started.other (h : Started w₀ b i d D n w) (hook : Punctual onTick b i) (ha : a ≠ b) :
    Started w₀ b i d D n (w.pioSimTick a (onTick a)) := by
  have hsm : (w.tickSms a).sm b i = w.sm b i := sm_tickSms_of_ne w (Ne.symm ha) i
  have htick : Started w₀ b i d D n (w.tickSms a) := by
    refine h.congr ?_ ?_ fun g => ?_
    · rw [hsm]
    · rw [hsm]
    · exact congrArg (fun x => (x.2 g).1) (fixtures_step w (c := .tickSms a) rfl)
  exact htick.rest hook a

theorem Started.groupOpen (h : Started w₀ b i d D n w) (g : GroupAddr) :
    Started w₀ b i d D n (w.groupOpen g) := by
  refine h.congr (enabled_step w (.groupOpen g) b i) ?_ fun k => ?_
  · refine List.foldlRecOn (motive := fun v : World => (v.sm b i).timing = (w.sm b i).timing) _ _
      rfl fun v hv a _ => ?_
    rw [sm_openWindow]
    split
    · exact hv
    · exact hv
  · exact congrArg (fun x => (x.2 k).1) (fixtures_step w (c := .groupOpen g) rfl)

theorem Started.groupEnd (h : Started w₀ b i d D n w) (g : GroupAddr) :
    Started w₀ b i d D n (w.groupEnd g) := by
  have hsm : (w.groupEnd g).sm = w.sm := by
    unfold World.groupEnd
    split
    · exact sm_setPads _ _
    · rfl
  refine h.congr ?_ ?_ fun k => ?_
  · rw [hsm]
  · rw [hsm]
  · exact congrArg (fun x => (x.2 k).1) (fixtures_step w (c := .groupEnd g) rfl)

/-- A tick of the group takes a state machine of one of its blocks one tick on. -/
theorem Started.groupTick (h : Started w₀ b i d D n w) (hfits : DividerFits d)
    (hook : Punctual onTick b i)
    (hnodup : (w₀.groups g).blk.Nodup) (hb : b ∈ (w₀.groups g).blk) :
    Started w₀ b i d D (n + 1) (w.groupTick g onTick) ∧
      (w.groupTurn g onTick b).due b i = Rate.pulses 256 D (256 * n % D) := by
  rw [← h.members g] at hnodup hb
  have hothers : ∀ m, ∀ c ∈ (w.groups g).blk, c ≠ b → ∀ v, Started w₀ b i d D m v →
      Started w₀ b i d D m (v.pioSimTick c (onTick c)) := fun _ _ _ hc _ hv => hv.other hook hc
  constructor
  · have hround := Round.one_turn (f := fun w a => w.pioSimTick a (onTick a)) hnodup hb (hothers n)
      (fun v hv => (hv.tickSms hfits).1.rest hook b) (hothers (n + 1)) (h.groupOpen g)
    exact hround.groupEnd g
  · have hfound : Started w₀ b i d D n (w.groupTurn g onTick b) :=
      Round.found_of (hothers n) (h.groupOpen g)
    exact (hfound.tickSms hfits).2

theorem Started.groupRun {onTick : ℕ → BlockAddr → World → World} (h : Started w₀ b i d D n w)
    (hfits : DividerFits d) (hook : ∀ k, Punctual (onTick k) b i) (hnodup : (w₀.groups g).blk.Nodup)
    (hb : b ∈ (w₀.groups g).blk) (ticks : ℕ) :
    Started w₀ b i d D (n + ticks) (w.groupRun g onTick ticks) := by
  induction ticks with
  | zero => exact h
  | succ ticks ih => exact (ih.groupTick hfits (hook ticks) hnodup hb).1

/-! ### The start -/

/-- A synchronised start of another block leaves a state machine alone. -/
theorem sm_enableSmMaskInSync_of_ne (w : World) (ha : b ≠ a) (mask : BitVec 8) :
    (w.enableSmMaskInSync a mask).sm b i = w.sm b i := by
  have hne : ∀ j : Fin 4, (b, i) ≠ (a, j) := fun j he => ha (Prod.mk.inj he).1
  have hset : (w.setSmMaskEnabled a mask true).sm b i = w.sm b i := by
    rw [setSmMaskEnabled, sm_resolvePads]
    refine List.foldlRecOn (motive := fun v : World => v.sm b i = w.sm b i) _ _ rfl
      fun v hv j _ => ?_
    split
    · rw [sm_modifySm_of_ne (hne j)]
      exact hv
    · exact hv
  refine List.foldlRecOn (motive := fun v : World => v.sm b i = w.sm b i) _ _ hset
    fun v hv j _ => ?_
  split
  · rw [sm_modifySm_of_ne (hne j)]
    exact hv
  · exact hv

theorem groups_enableSmMaskInSync (w : World) (a : BlockAddr) (mask : BitVec 8) (g : GroupAddr) :
    ((w.enableSmMaskInSync a mask).groups g).blk = (w.groups g).blk :=
  congrArg (fun x => (x.2 g).1) (fixtures_step w (c := .enableSmMaskInSync a mask) rfl)

/-- The state machines named by the masks have started. -/
theorem started_groupEnable {masks : ℕ → BitVec 8} (hnodup : (w.groups g).blk.Nodup) {k : ℕ}
    (hk : (w.groups g).blk[k]? = some b) (hbit : (masks k).getLsbD i = true) :
    Started w b i (w.sm b i).divider (divUnits (w.sm b i)) 0
      (w.groupEnableSmMaskInSync g masks) := by
  have hturn : ∀ v : World, (v.sm b i).divider = (w.sm b i).divider ∧
    (∀ g, (v.groups g).blk = (w.groups g).blk) →
      Started w b i (w.sm b i).divider (divUnits (w.sm b i)) 0
          (v.enableSmMaskInSync b (masks k)) := by
    intro v hv
    have hdivider : ((v.enableSmMaskInSync b (masks k)).sm b i).divider = (w.sm b i).divider :=
      (keeps_step steady_divider (c := .enableSmMaskInSync b (masks k)) id).trans hv.1
    have henabled := enabled_step v (.enableSmMaskInSync b (masks k)) b i
    have haccum := accum_of_restarts (b := b) (i := i) (c := .enableSmMaskInSync b (masks k))
      (by simp [restarts, hbit]) v
    refine ⟨henabled.trans (if_pos ⟨rfl, hbit⟩), Sm.divUnits_congr hdivider,
      ⟨hdivider, ?_, rfl⟩, fun g => ?_⟩
    · exact haccum.trans (Nat.zero_mod _).symm
    · rw [groups_enableSmMaskInSync]
      exact hv.2 g
  have hother : ∀ p ∈ (w.groups g).blk.zipIdx, p ≠ (b, k) → p.1 ≠ b := by
    rintro ⟨a, j⟩ hp hne rfl
    have hj : (w.groups g).blk[j]? = some a := List.mem_zipIdx_iff_getElem?.mp hp
    have hlt : j < (w.groups g).blk.length := (List.getElem?_eq_some_iff.mp hj).1
    exact hne (Prod.ext rfl ((List.getElem?_inj hlt hnodup).mp (hj.trans hk.symm)))
  have hpairs : ((w.groups g).blk.zipIdx).Nodup := by
    refine List.Nodup.of_map Prod.fst ?_
    rwa [List.zipIdx_map_fst]
  have hmem : (b, k) ∈ (w.groups g).blk.zipIdx := List.mem_zipIdx_iff_getElem?.mpr hk
  refine Round.one_turn (P := fun v : World => (v.sm b i).divider = (w.sm b i).divider ∧
    ∀ g, (v.groups g).blk = (w.groups g).blk) hpairs hmem
      (fun p hp hne v hv => ⟨?_, fun g => ?_⟩) hturn
    (fun p hp hne v hv => ?_) ⟨rfl, fun _ => rfl⟩
  · rw [sm_enableSmMaskInSync_of_ne v (Ne.symm (hother p hp hne))]
    exact hv.1
  · rw [groups_enableSmMaskInSync]
    exact hv.2 g
  · have hsm := sm_enableSmMaskInSync_of_ne (i := i) v (Ne.symm (hother p hp hne)) (masks p.2)
    refine hv.congr ?_ ?_ fun g => groups_enableSmMaskInSync v p.1 (masks p.2) g
    · rw [hsm]
    · rw [hsm]

/-- State machines that `pio_sim_group_enable_sm_mask_in_sync` starts in any blocks of a group act
in step: in the tick of the group after `n` others a state machine is clocked exactly on the pulse
of its divider, so one whose divider divides another's is clocked whenever that one is, and two with
the same divider always together. -/
theorem group_starts_aligned (w : World) (g : GroupAddr) (masks : ℕ → BitVec 8)
    (onTick : ℕ → BlockAddr → World → World) (hnodup : (w.groups g).blk.Nodup) {k k' : ℕ}
    {b b' : BlockAddr} {i i' : Fin 4} (hk : (w.groups g).blk[k]? = some b)
    (hk' : (w.groups g).blk[k']? = some b') (hbit : (masks k).getLsbD i = true)
    (hbit' : (masks k').getLsbD i' = true) (hfits : DividerFits (w.sm b i).divider)
    (hfits' : DividerFits (w.sm b' i').divider) (hook : ∀ t, Punctual (onTick t) b i)
    (hook' : ∀ t, Punctual (onTick t) b' i') (n : ℕ) :
    let v := (w.groupEnableSmMaskInSync g masks).groupRun g onTick n
    let clocked := fun c j => (v.groupTurn g (onTick n) c).due c j
    clocked b i = Rate.pulses 256 (w.sm b i).period (256 * n % (w.sm b i).period) ∧
      ((w.sm b i).period ∣ (w.sm b' i').period → clocked b' i' = true → clocked b i = true) ∧
      ((w.sm b i).divider = (w.sm b' i').divider → clocked b i = clocked b' i') := by
  intro v clocked
  have hclocked : ∀ {j : ℕ} {c : BlockAddr} {m : Fin 4}, (w.groups g).blk[j]? = some c →
      (masks j).getLsbD m = true → DividerFits (w.sm c m).divider → (∀ t, Punctual (onTick t) c m) →
      clocked c m = Rate.pulses 256 (w.sm c m).period (256 * n % (w.sm c m).period) := by
    intro j c m hj hm hf hp
    have hmem : c ∈ (w.groups g).blk := List.mem_of_getElem? hj
    have hrun := (started_groupEnable hnodup hj hm).groupRun hf hp hnodup hmem n
    rw [Nat.zero_add] at hrun
    have hturn := (hrun.groupTick hf (hp n) hnodup hmem).2
    rwa [Sm.divUnits_eq hf] at hturn
  have hb := hclocked hk hbit hfits hook
  have hb' := hclocked hk' hbit' hfits' hook'
  have hperiod : ∀ {s : Sm}, DividerFits s.divider → 256 ≤ s.period := fun {s} hs => by
    rw [← Sm.divUnits_eq hs]
    exact (Sm.divUnits_bounds hs).1
  refine ⟨hb, fun hdvd hon => ?_, fun heq => ?_⟩
  · rw [hb'] at hon
    rw [hb]
    exact Rate.pulses_of_dvd (by decide) (hperiod hfits) (hperiod hfits') hdvd hon
  · have hsame : (w.sm b i).period = (w.sm b' i').period := by
      rw [← Sm.divUnits_eq hfits, ← Sm.divUnits_eq hfits', Sm.divUnits_congr heq]
    rw [hb, hb', hsame]

end World
end PioSim

namespace PioSim.World

local instance pairPlatform : Platform := ⟨.rp2350⟩

/-- Two blocks of a group whose first state machines have the dividers 2.5 and 5. -/
def pair : World :=
  initial.run [.init 0, .init 1, .groupInitShared 0 [0, 1],
    .sm 0 0 (.setConfig (defaultSmConfig.setClkdivIntFrac 2 128)),
    .sm 1 0 (.setConfig (defaultSmConfig.setClkdivIntFrac 5 0))]

theorem group_starts_aligned_pair :
    let v := (pair.groupEnableSmMaskInSync 0 fun _ => 1).groupRun 0 (fun _ _ w => w) 4
    let clocked := fun c j => (v.groupTurn 0 (fun _ w => w) c).due c j
    clocked 0 0 = Rate.pulses 256 (pair.sm 0 0).period (256 * 4 % (pair.sm 0 0).period) ∧
      ((pair.sm 0 0).period ∣ (pair.sm 1 0).period → clocked 1 0 = true → clocked 0 0 = true) ∧
      ((pair.sm 0 0).divider = (pair.sm 1 0).divider → clocked 0 0 = clocked 1 0) := by
  have hblk : (pair.groups 0).blk = [0, 1] := rfl
  have hfits : DividerFits (pair.sm 0 0).divider :=
    ⟨show (2 : ℕ) < 65536 by decide, show (128 : ℕ) < 256 by decide⟩
  have hfits' : DividerFits (pair.sm 1 0).divider :=
    ⟨show (5 : ℕ) < 65536 by decide, show (0 : ℕ) < 256 by decide⟩
  have hquiet : ∀ b i, Punctual (fun _ w => w) b i := fun _ _ _ _ => ⟨rfl, rfl, fun _ => rfl⟩
  have hfirst : (pair.groups 0).blk[0]? = some 0 := by
    rw [hblk]
    rfl
  have hsecond : (pair.groups 0).blk[1]? = some 1 := by
    rw [hblk]
    rfl
  have hnodup : (pair.groups 0).blk.Nodup := by
    rw [hblk]
    decide
  exact group_starts_aligned pair 0 (fun _ => 1) (fun _ _ w => w) hnodup hfirst hsecond
    (by decide) (by decide)
    hfits hfits' (fun _ => hquiet 0 0) (fun _ => hquiet 1 0) 4

end PioSim.World
