import PioSim.Dividers
import PioSim.Lib.Rate
import Mathlib.Data.List.Induction

/-!
# The rate of a divided clock

From a divider restart on, the accumulator of `pio_sim_tick` is a rate accumulator of gain 256 and
the divider as its period. It never wraps, it runs the same whether the state machine is enabled or
not, and which ticks have a cycle due depends on the divider and the number of ticks alone.
-/

namespace PioSim

variable [Platform]

/-- A divider in 1/256 units, 0 standing for 65536 in its integer part. -/
def Sm.period (s : Sm) : ℕ := 256 * (if s.clkdivInt = 0 then 65536 else s.clkdivInt) + s.clkdivFrac

omit [Platform] in
theorem Sm.divUnits_eq {s : Sm} (h : DividerFits s.divider) : World.divUnits s = s.period := by
  have hfrac : s.clkdivFrac < 256 := h.2
  unfold World.divUnits Sm.period
  rw [← Nat.shiftLeft_add_eq_or_of_lt (i := 8) hfrac, Nat.shiftLeft_eq, Nat.mul_comm 256]

namespace World

variable {w : World} {b : BlockAddr} {i : Fin 4}

/-- The test `pio_sim_tick` makes of a divider, whether or not the state machine is enabled. -/
def cycleDue (w : World) (b : BlockAddr) (i : Fin 4) : Bool :=
  divUnits (w.sm b i) ≤ u32 ((w.sm b i).clkAccum + 256)

omit [Platform] in
/-- A cycle runs where one is due and the state machine is enabled. -/
theorem due_eq (w : World) (b : BlockAddr) (i : Fin 4) :
    w.due b i = ((w.sm b i).enabled && w.cycleDue b i) := rfl

/-- The call restarts the divider of state machine `(b, i)`. -/
def restarts (b : BlockAddr) (i : Fin 4) : Call → Bool
  | .sm c k .clkdivRestart => (c, smIdx k) == (b, i)
  | .clkdivRestartSmMask c mask => c == b && mask.getLsbD i
  | .enableSmMaskInSync c mask => c == b && mask.getLsbD i
  | _ => false

omit [Platform] in
theorem accum_clkdivRestart_of_mask (w : World) (b : BlockAddr) {mask : BitVec 8}
    (hi : mask.getLsbD i = true) : ((w.clkdivRestartSmMask b mask).sm b i).clkAccum = 0 := by
  have hset : ∀ (is : List (Fin 4)) (v : World), i ∈ is → ((is.foldl (fun w (i : Fin 4) =>
      if mask.getLsbD i then w.modifySm b i Sm.clkdivRestart else w) v).sm b i).clkAccum = 0 := by
    intro is
    induction is using List.reverseRecOn with
    | nil =>
      intro v hmem
      cases hmem
    | append_singleton is j ih =>
      intro v hmem
      rw [List.foldl_append, List.foldl_cons, List.foldl_nil]
      by_cases hj : j = i
      · subst hj
        rw [if_pos hi, sm_modifySm_self]
        rfl
      · have hbefore : i ∈ is := by simpa [Ne.symm hj] using hmem
        have hne : (b, i) ≠ (b, j) := fun he => hj (Prod.mk.inj he).2.symm
        split
        · rw [sm_modifySm_of_ne hne]
          exact ih v hbefore
        · exact ih v hbefore
  exact hset _ w (List.mem_finRange i)

theorem accum_of_restarts {c : Call} (h : restarts b i c = true) (w : World) :
    ((w.step c).sm b i).clkAccum = 0 := by
  cases c with
  | sm c k op =>
    cases op with
    | clkdivRestart =>
      obtain ⟨rfl, rfl⟩ := Prod.mk.inj (eq_of_beq h)
      rw [step, sm_modifySm_self]
      rfl
    | _ => cases h
  | clkdivRestartSmMask c mask =>
    rw [restarts, Bool.and_eq_true] at h
    obtain rfl := eq_of_beq h.1
    exact accum_clkdivRestart_of_mask w c h.2
  | enableSmMaskInSync c mask =>
    rw [restarts, Bool.and_eq_true] at h
    obtain rfl := eq_of_beq h.1
    exact accum_clkdivRestart_of_mask _ c h.2
  | _ => cases h

/-- Whether a cycle is due, for each tick of the block. -/
def cycles (b : BlockAddr) (i : Fin 4) (w : World) (e : ApiCall) : List Bool :=
  if e.ticks b then [w.cycleDue b i] else []

/-- Between the block's ticks nothing touches the divider or its phase. -/
def LeavesDivider (b : BlockAddr) (i : Fin 4) (w : World) (e : ApiCall) : Prop :=
  e.ticks b = false → ((w.apiStep e).sm b i).timing = (w.sm b i).timing

/-- The run `es` from `w` starts behind a restart of the divider and leaves its configuration
alone. -/
structure SinceRestart (b : BlockAddr) (i : Fin 4) (w : World) (es : List ApiCall) : Prop where
  restarted : ∃ (v : World) (c : Call), restarts b i c = true ∧ w = v.step c
  fits : DividerFits (w.sm b i).divider
  leaves : Run.Along apiStep (LeavesDivider b i) w es

/-- After the ticks in `l` the divider is `d` and its phase that of a rate accumulator. -/
structure AtRate (b : BlockAddr) (i : Fin 4) (d : ℕ × ℕ) (D : ℕ) (w : World) (l : List Bool) :
    Prop where
  divider : (w.sm b i).divider = d
  phase : (w.sm b i).clkAccum = 256 * l.length % D
  train : l = Rate.train 256 D l.length

omit [Platform] in
theorem timing_eq {s s' : Sm} (h : s'.timing = s.timing) :
    s'.divider = s.divider ∧ s'.clkAccum = s.clkAccum :=
  ⟨congrArg (fun t => (t.1, t.2.1)) h, congrArg (·.2.2) h⟩

omit [Platform] in
/-- The accumulator of a fitting divider has room for a tick's gain. -/
theorem AtRate.room {d : ℕ × ℕ} {D : ℕ} {l : List Bool} (h : AtRate b i d D w l) (hD : 0 < D)
    (hsmall : D < 16777472) : (w.sm b i).clkAccum + 256 < 4294967296 := by
  have hlt := Nat.mod_lt (256 * l.length) hD
  rw [h.phase]
  omega

theorem AtRate.step {d : ℕ × ℕ} {D : ℕ} {l : List Bool} (h : AtRate b i d D w l)
    (hD : divUnits (w.sm b i) = D) (hfits : DividerFits d) {e : ApiCall}
    (hc : LeavesDivider b i w e) : AtRate b i d D (w.apiStep e) (l ++ cycles b i w e) := by
  obtain ⟨hlow, hhigh⟩ := Sm.divUnits_bounds (s := w.sm b i) (h.divider ▸ hfits)
  rw [hD] at hlow hhigh
  unfold cycles
  cases ht : e.ticks b with
  | false =>
    obtain ⟨hdivider, haccum⟩ := timing_eq (hc ht)
    rw [if_neg Bool.false_ne_true, List.append_nil]
    exact ⟨hdivider.trans h.divider, haccum.trans h.phase, h.train⟩
  | true =>
    obtain rfl := ApiCall.eq_of_ticks ht
    have htick := timing_tickSms w b i
    have hwrap : u32 ((w.sm b i).clkAccum + 256) = (w.sm b i).clkAccum + 256 :=
      Nat.mod_eq_of_lt (h.room (by omega) hhigh)
    have hdue : w.cycleDue b i = Rate.pulses 256 D (256 * l.length % D) := by
      rw [cycleDue, hwrap, hD, h.phase]
      rfl
    have hnext : (w.sm b i).nextAccum = Rate.next 256 D (256 * l.length % D) := by
      rw [Sm.nextAccum, hwrap, hD, h.phase, Rate.next, Rate.pulses]
      simp only [decide_eq_true_eq]
    rw [if_pos rfl, hdue]
    constructor
    · exact (congrArg (fun t => (t.1, t.2.1)) htick).trans h.divider
    · rw [List.length_append, List.length_singleton, ← Rate.next_mod hlow (by omega), ← hnext]
      exact congrArg (·.2.2) htick
    · rw [List.length_append, List.length_singleton, Rate.train_succ, ← h.train]

theorem SinceRestart.atRate {es : List ApiCall} (h : SinceRestart b i w es) {pre : List ApiCall}
    (hpre : pre <+: es) :
    AtRate b i (w.sm b i).divider (divUnits (w.sm b i)) (pre.foldl apiStep w)
      (Run.collect apiStep (cycles b i) w pre) := by
  obtain ⟨v, c, hc, hw⟩ := h.restarted
  obtain ⟨post, rfl⟩ := hpre
  have hrun := ((Run.along_append _ _ _).mp h.leaves).1
  have hstart : AtRate b i (w.sm b i).divider (divUnits (w.sm b i)) w [] := by
    refine ⟨rfl, ?_, rfl⟩
    rw [List.length_nil, Nat.mul_zero, Nat.zero_mod, hw]
    exact accum_of_restarts hc v
  have hend := Run.invariant_collect (J := AtRate b i (w.sm b i).divider (divUnits (w.sm b i)))
    (l := []) (fun u e l hl he => hl.step (Sm.divUnits_congr hl.divider) h.fits he) hstart hrun
  rwa [List.nil_append] at hend

theorem length_cycles (b : BlockAddr) (i : Fin 4) (w : World) (es : List ApiCall) :
    (Run.collect apiStep (cycles b i) w es).length = es.countP (·.ticks b) := by
  induction es generalizing w with
  | nil => rfl
  | cons e es ih =>
    rw [Run.collect, List.length_append, ih, List.countP_cons, cycles]
    split
    · rw [List.length_singleton, Nat.add_comm]
    · rw [List.length_nil, Nat.zero_add, Nat.add_zero]

/-- In every run that leaves a divider alone from its restart on, the cycles due in the first `n`
ticks of the block are `256 * n` over the divider's 1/256 units, enabled or not, the 32-bit
accumulator never wraps, and any other divider of the same value has its cycles due on the same
ticks from its restart. -/
theorem cycles_at_exact_rate {b : BlockAddr} {i : Fin 4} {w : World} {es : List ApiCall}
    (h : SinceRestart b i w es) :
    (Run.collect apiStep (cycles b i) w es).count true =
        256 * es.countP (·.ticks b) / (w.sm b i).period ∧
      (∀ pre, pre <+: es → ((pre.foldl apiStep w).sm b i).clkAccum + 256 < 4294967296) ∧
      ∀ c j v fs, SinceRestart c j v fs → (v.sm c j).divider = (w.sm b i).divider →
        fs.countP (·.ticks c) = es.countP (·.ticks b) →
          Run.collect apiStep (cycles c j) v fs = Run.collect apiStep (cycles b i) w es := by
  obtain ⟨hlow, hhigh⟩ := Sm.divUnits_bounds h.fits
  have hend := h.atRate List.prefix_rfl
  refine ⟨?_, fun pre hpre => ?_, fun c j v fs hv hsame hticks => ?_⟩
  · rw [hend.train, Rate.count_train hlow (by omega), length_cycles, Sm.divUnits_eq h.fits]
  · exact (h.atRate hpre).room (by omega) hhigh
  · rw [hend.train, (hv.atRate List.prefix_rfl).train, length_cycles, length_cycles, hticks,
      Sm.divUnits_congr hsame]

omit [Platform] in
/-- A divider of 2.5 restarted by a mask: two cycles are due in five ticks. -/
theorem cycles_at_exact_rate_two_and_a_half :
    letI : Platform := ⟨.rp2350⟩
    let w := ((initial.step (.sm 0 0 (.setConfig (defaultSmConfig.setClkdivIntFrac 2 128)))).step
      (.clkdivRestartSmMask 0 1))
    let es := List.replicate 5 (ApiCall.call (.tickSms 0))
    (Run.collect apiStep (cycles 0 0) w es).count true =
      256 * es.countP (·.ticks 0) / (w.sm 0 0).period := by
  let P : Platform := ⟨.rp2350⟩
  intro w es
  have hticks : ∀ e ∈ es, e.ticks 0 = true := by
    intro e he
    rw [List.eq_of_mem_replicate he]
    rfl
  have hrun : Run.Along apiStep (LeavesDivider 0 0) w es :=
    (Run.along_of_mem hticks w).mono fun v e he hno => absurd (he.symm.trans hno) (by decide)
  have hstart : SinceRestart 0 0 w es :=
    ⟨⟨_, .clkdivRestartSmMask 0 1, rfl, rfl⟩,
      ⟨show (2 : ℕ) < 65536 by decide, show (128 : ℕ) < 256 by decide⟩, hrun⟩
  exact (cycles_at_exact_rate hstart).1

end World

end PioSim
