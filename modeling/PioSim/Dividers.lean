import PioSim.Invariant

/-!
# Clock dividers

The accumulator of a state machine gains 256 a tick and loses one period when a cycle is due, so it
stays below the period and the cycles keep to the divider's rate. Writing a divider keeps the
accumulator, and the rate is kept as long as what it has gathered does not amount to a period of the
new divider.
-/

namespace PioSim

variable [Platform]

/-! ### One divider -/

/-- The parts of a divider have the widths of `clkdiv_int` and `clkdiv_frac`. -/
def DividerFits (d : ℕ × ℕ) : Prop := d.1 < 65536 ∧ d.2 < 256

def SmConfig.divider (c : SmConfig) : ℕ × ℕ := (c.clkdivInt, c.clkdivFrac)

namespace Sm

def divider (s : Sm) : ℕ × ℕ := (s.clkdivInt, s.clkdivFrac)

def timing (s : Sm) : ℕ × ℕ × ℕ := (s.clkdivInt, s.clkdivFrac, s.clkAccum)

def nextAccum (s : Sm) : ℕ :=
  if World.divUnits s ≤ u32 (s.clkAccum + 256) then u32 (s.clkAccum + 256) - World.divUnits s
  else u32 (s.clkAccum + 256)

section
omit [Platform]

theorem timing_of_control {s s' : Sm} (h : s'.control = s.control) : s'.timing = s.timing :=
  congrArg (fun k => (k.1.clkdivInt, k.1.clkdivFrac, k.2.2.2.2.2)) h

theorem timing_backgroundAutopull (s : Sm) : s.backgroundAutopull.timing = s.timing := by
  rcases s.backgroundAutopull_eq with h | ⟨v, tx, h⟩
  · rw [h]
  · rw [h]
    rfl

theorem timing_retire (s : Sm) (fromExec : Bool) (setPc : Option ℕ) (delay : ℕ) :
    (s.retire fromExec setPc delay).timing = s.timing := by
  unfold retire
  split <;> rfl

end

theorem timing_setConfig (s : Sm) (c : SmConfig) :
    (s.setConfig c).timing = (c.clkdivInt, c.clkdivFrac, s.clkAccum) := by
  unfold setConfig applyFifoJoin
  dsimp only
  split <;> rfl

theorem timing_init (s : Sm) (pc : ℕ) (c : SmConfig) :
    (s.init pc c).timing = (c.clkdivInt, c.clkdivFrac, 0) := by
  have h := s.timing_setConfig c
  exact Prod.ext (congrArg (·.1) h) (Prod.ext (congrArg (·.2.1) h) rfl)

omit [Platform] in
theorem divUnits_congr {s s' : Sm} (h : s'.divider = s.divider) :
    World.divUnits s' = World.divUnits s := by
  obtain ⟨hint, hfrac⟩ := Prod.mk.inj h
  unfold World.divUnits
  rw [hint, hfrac]

omit [Platform] in
/-- A divider is at least 1 and far from the width of the accumulator. -/
theorem divUnits_bounds {s : Sm} (h : DividerFits s.divider) :
    256 ≤ World.divUnits s ∧ World.divUnits s < 16777472 := by
  obtain ⟨hint, hfrac⟩ : s.clkdivInt < 65536 ∧ s.clkdivFrac < 256 := h
  unfold World.divUnits
  rw [← Nat.shiftLeft_add_eq_or_of_lt (i := 8) hfrac, Nat.shiftLeft_eq]
  split <;> omega

end Sm

namespace World

variable {w : World} {b : BlockAddr} {i : Fin 4}

theorem timing_smCycle (w : World) (b : BlockAddr) (i : Fin 4) :
    ((w.smCycle b i).sm b i).timing = (w.sm b i).timing := by
  have hpull := (w.sm b i).timing_backgroundAutopull
  unfold smCycle
  dsimp only
  split
  · rw [sm_modifySm_self, sm_modifySm_self]
    exact hpull
  · generalize hv : w.modifySm b i Sm.backgroundAutopull = v
    have hself : (v.sm b i).timing = (w.sm b i).timing := by
      rw [← hv, sm_modifySm_self, hpull]
    have hone := Sm.timing_of_control
      ((v.countFetch b i).execOne_control b i (v.getInstruction b i))
    rw [sm_countFetch, hself] at hone
    unfold present
    dsimp only
    split
    · rw [sm_modifySm_self, Sm.timing_retire, hone]
    · rw [sm_modifySm_self]
      exact hone

theorem timing_smExec (w : World) (b : BlockAddr) (i : Fin 4) (insn : Insn) :
    ((w.smExec b i insn).sm b i).timing = (w.sm b i).timing := by
  have hone := Sm.timing_of_control (execOne_control
    (w.modifySm b i fun s => { s with stalled := false }) b i insn)
  have hself : ((w.modifySm b i fun s => { s with stalled := false }).sm b i).timing =
      (w.sm b i).timing := by
    rw [sm_modifySm_self]
    rfl
  unfold smExec
  dsimp only
  split
  · rw [sm_modifySm_self]
    exact hone.trans hself
  · rw [sm_modifySm_self]
    exact hone.trans hself

/-- What a tick of the block does to a divider. -/
theorem timing_tickSms (w : World) (b : BlockAddr) (i : Fin 4) : ((w.tickSms b).sm b i).timing =
    ((w.sm b i).clkdivInt, (w.sm b i).clkdivFrac, (w.sm b i).nextAccum) := by
  have hsticky : ∀ s : Sm, (stickyReassert s).timing = s.timing := by
    intro s
    obtain ⟨r, h⟩ := stickyReassert_eq s
    rw [h]
    rfl
  have hsm := sm_beforeSm w b i
  rw [sm_tickSms, smTick, hsm]
  dsimp only
  unfold Sm.nextAccum
  by_cases hdue : divUnits (w.sm b i) ≤ u32 ((w.sm b i).clkAccum + 256)
  · rw [if_pos hdue, if_pos (show divUnits (w.sm b i).openWindow ≤
      u32 ((w.sm b i).openWindow.clkAccum + 256) from hdue)]
    split
    · rw [sm_modifySm_self, hsticky, timing_smCycle, sm_setSm_self]
      rfl
    · rw [sm_setSm_self]
      rfl
  · rw [if_neg hdue, if_neg (show ¬ divUnits (w.sm b i).openWindow ≤
      u32 ((w.sm b i).openWindow.clkAccum + 256) from hdue), sm_setSm_self]
    rfl

/-! ### Calls -/

/-- The call writes the divider of state machine `(b, i)` and keeps its phase. -/
def SetsDivider (b : BlockAddr) (i : Fin 4) (c : Call) : Prop :=
  ∃ k cfg, smIdx k = i ∧ c = .sm b k (.setConfig cfg)

omit [Platform] in
theorem accum_modifySm {b c : BlockAddr} {i j : Fin 4} {f : Sm → Sm} {w : World}
    (hf : ∀ s, (f s).clkAccum = s.clkAccum ∨ (f s).clkAccum = 0) :
    ((w.modifySm c j f).sm b i).clkAccum = (w.sm b i).clkAccum ∨
      ((w.modifySm c j f).sm b i).clkAccum = 0 := by
  by_cases h : (b, i) = (c, j)
  · obtain ⟨rfl, rfl⟩ := Prod.mk.inj h
    rw [sm_modifySm_self]
    exact hf _
  · exact Or.inl (by rw [sm_modifySm_of_ne h])

omit [Platform] in
theorem accum_foldl {α : Type} {f : World → α → World}
    (hf : ∀ v a, ((f v a).sm b i).clkAccum = (v.sm b i).clkAccum ∨ ((f v a).sm b i).clkAccum = 0)
    (l : List α) (w : World) :
    ((l.foldl f w).sm b i).clkAccum = (w.sm b i).clkAccum ∨
      ((l.foldl f w).sm b i).clkAccum = 0 := by
  refine List.foldlRecOn (motive := fun v : World =>
    (v.sm b i).clkAccum = (w.sm b i).clkAccum ∨ (v.sm b i).clkAccum = 0) _ _ (Or.inl rfl) ?_
  intro v hv a _
  rcases hf v a with h | h
  · rwa [h]
  · exact Or.inr h

theorem Sm.clkAccum_apply (s : Sm) (op : SmOp) :
    (op.apply s).clkAccum = s.clkAccum ∨ (op.apply s).clkAccum = 0 := by
  cases op with
  | restart => exact Or.inr rfl
  | clkdivRestart => exact Or.inr rfl
  | setConfig c => exact Or.inl (congrArg (·.2.2) (s.timing_setConfig c))
  | put word =>
    obtain ⟨f, t, h⟩ := s.put_eq word
    exact Or.inl (by rw [SmOp.apply, h])
  | get =>
    obtain ⟨f, r, h⟩ := s.get_eq
    exact Or.inl (by rw [SmOp.apply, h])
  | _ => exact Or.inl rfl

theorem accum_setSmMaskEnabled (w : World) (c : BlockAddr) (mask : BitVec 8) (enabled : Bool) :
    ((w.setSmMaskEnabled c mask enabled).sm b i).clkAccum = (w.sm b i).clkAccum ∨
      ((w.setSmMaskEnabled c mask enabled).sm b i).clkAccum = 0 := by
  rw [setSmMaskEnabled, sm_resolvePads]
  refine accum_foldl (fun v j => ?_) _ w
  split
  · exact accum_modifySm fun s => Or.inl rfl
  · exact Or.inl rfl

omit [Platform] in
theorem accum_clkdivRestartSmMask (w : World) (c : BlockAddr) (mask : BitVec 8) :
    ((w.clkdivRestartSmMask c mask).sm b i).clkAccum = (w.sm b i).clkAccum ∨
      ((w.clkdivRestartSmMask c mask).sm b i).clkAccum = 0 := by
  refine accum_foldl (fun v j => ?_) _ w
  split
  · exact accum_modifySm fun s => Or.inr rfl
  · exact Or.inl rfl

/-- Outside the block's ticks the phase of a divider is kept or zeroed. -/
theorem accum_step {c : Call} (hc : c ≠ .tickSms b) :
    ((w.step c).sm b i).clkAccum = (w.sm b i).clkAccum ∨ ((w.step c).sm b i).clkAccum = 0 := by
  cases c with
  | sm c k op => exact accum_modifySm fun s => Sm.clkAccum_apply s op
  | block c op => exact Or.inl (by rw [step, sm_setBlock (BlockOp.sm_apply _ op)])
  | pad c op => exact Or.inl (by rw [step, sm_modifyPads])
  | init c =>
    rw [step, sm_pioSimInit]
    split
    · exact Or.inr rfl
    · exact Or.inl rfl
  | setEnabled c k enabled =>
    rw [step, smSetEnabled, sm_resolvePads]
    exact accum_modifySm fun s => Or.inl rfl
  | setSmMaskEnabled c mask enabled => exact accum_setSmMaskEnabled w c mask enabled
  | clkdivRestartSmMask c mask => exact accum_clkdivRestartSmMask w c mask
  | enableSmMaskInSync c mask =>
    rcases accum_clkdivRestartSmMask (b := b) (i := i) (w.setSmMaskEnabled c mask true) c
      mask with h | h
    · rw [step, enableSmMaskInSync, h]
      exact accum_setSmMaskEnabled w c mask true
    · exact Or.inr h
  | setConsecutivePindirs c k base count isOut =>
    rw [step, smSetConsecutivePindirs, sm_resolvePads]
    exact accum_modifySm fun s => Or.inl rfl
  | smInit c k pc cfg => exact accum_modifySm (f := (·.init pc cfg)) fun s => Or.inr rfl
  | smExec c k insn =>
    by_cases h : (b, i) = (c, smIdx k)
    · obtain ⟨rfl, rfl⟩ := Prod.mk.inj h
      exact Or.inl (congrArg (·.2.2) (timing_smExec w b (smIdx k) insn))
    · exact Or.inl (by rw [step, (smExec_local w c (smIdx k) insn).sm b i h])
  | gpioSetFunction c pin f => exact Or.inl (by rw [step, gpioSetFunction, sm_modifyPads])
  | groupInit gr blocks => exact Or.inl (by rw [step, sm_groupInit])
  | groupInitShared gr blocks => exact Or.inl (by rw [step, sm_groupInitShared])
  | loadProgram c k offset prog =>
    rcases w.loadProgram_cases c (smIdx k) offset prog with h | ⟨words, -, h⟩
    · exact Or.inl (by rw [step, h])
    · rw [step, h]
      rcases accum_modifySm (b := b) (i := i) (c := c) (j := smIdx k)
        (f := (·.startProgram offset prog))
        (w := w.setBlock c ((w.blocks c).load offset words)) (fun s => Or.inl rfl) with
          hload | hload
      · rw [hload, sm_load]
        exact Or.inl rfl
      · exact Or.inr hload
  | tickSms c =>
    have hne : b ≠ c := fun h => hc (by rw [h])
    exact Or.inl (by rw [step, sm_tickSms_of_ne w hne])
  | tickEnd c => exact Or.inl (by rw [step, sm_tickEnd])
  | groupOpen gr =>
    refine accum_foldl (fun v c => ?_) _ w
    rw [sm_openWindow]
    split <;> exact Or.inl rfl
  | groupEnd gr =>
    rw [step, groupEnd]
    split
    · exact Or.inl (by rw [sm_setPads])
    · exact Or.inl rfl

omit [Platform] in
theorem steady_divider : Steady Sm.divider := ⟨fun _ _ => rfl, fun _ _ => rfl, fun _ _ => rfl⟩

theorem Sm.divider_apply {op : SmOp} (h : ∀ cfg, op ≠ .setConfig cfg) (s : Sm) :
    (op.apply s).divider = s.divider := by
  cases op with
  | setConfig c => exact absurd rfl (h c)
  | put word =>
    obtain ⟨f, t, h⟩ := s.put_eq word
    rw [SmOp.apply, h]
    rfl
  | get =>
    obtain ⟨f, r, h⟩ := s.get_eq
    rw [SmOp.apply, h]
    rfl
  | _ => rfl

/-- A divider is only written by `pio_sim_sm_set_config`, or with its phase zeroed. -/
theorem divider_step {c : Call} (hc : ¬ SetsDivider b i c) :
    ((w.step c).sm b i).divider = (w.sm b i).divider ∨
      ((w.step c).sm b i).clkAccum = 0 ∧ ∀ P : SmConfig → Prop, c.Configures P →
        ((w.step c).sm b i).divider = (1, 0) ∨
          ∃ cfg, P cfg ∧ ((w.step c).sm b i).divider = cfg.divider := by
  by_cases hd : c.Drives b i
  swap
  · exact Or.inl (keeps_step steady_divider hd)
  cases c with
  | tickSms c =>
    obtain rfl : c = b := hd
    exact Or.inl (congrArg (fun t => (t.1, t.2.1)) (timing_tickSms w c i))
  | init c =>
    obtain rfl : c = b := hd
    rw [step_init]
    exact Or.inr ⟨rfl, fun _ _ => Or.inl rfl⟩
  | sm c k op =>
    obtain ⟨rfl, rfl⟩ := Prod.mk.inj hd
    rw [step, sm_modifySm_self]
    exact Or.inl (Sm.divider_apply (fun cfg he => hc ⟨k, cfg, rfl, by rw [he]⟩) _)
  | smInit c k pc cfg =>
    obtain ⟨rfl, rfl⟩ := Prod.mk.inj hd
    rw [step, smInit, sm_modifySm_self]
    have h := (w.sm c (smIdx k)).timing_init pc cfg
    exact Or.inr ⟨rfl, fun P hP => Or.inr ⟨cfg, hP, congrArg (fun t => (t.1, t.2.1)) h⟩⟩
  | smExec c k insn =>
    obtain ⟨rfl, rfl⟩ := Prod.mk.inj hd
    exact Or.inl (congrArg (fun t => (t.1, t.2.1)) (timing_smExec w c (smIdx k) insn))
  | loadProgram c k offset prog =>
    obtain ⟨rfl, rfl⟩ := Prod.mk.inj hd
    rcases w.loadProgram_cases c (smIdx k) offset prog with h | ⟨words, -, h⟩
    · exact Or.inl (by rw [step, h])
    · rw [step, h, sm_modifySm_self, sm_load]
      exact Or.inl rfl
  | _ => exact absurd hd (by simp only [Call.Drives, not_false_iff])

end World

/-! ### Runs -/

namespace ApiCall

/-- The divider the call writes, if any, has the widths of the C types. -/
def Fits : ApiCall → Prop
  | .call c => c.Configures (DividerFits ·.divider)
  | .applyProgramConfig _ _ prog => ∀ d, prog.clockDiv = some d → DividerFits d

def ticks (b : BlockAddr) : ApiCall → Bool
  | .call (.tickSms c) => c == b
  | _ => false

/-- The call writes the divider of state machine `(b, i)` and keeps its phase. -/
def writesDivider (b : BlockAddr) (i : Fin 4) : ApiCall → Bool
  | .call (.sm c k (.setConfig _)) => (c, smIdx k) == (b, i)
  | .applyProgramConfig c k _ => (c, smIdx k) == (b, i)
  | _ => false

omit [Platform] in
theorem eq_of_ticks {b : BlockAddr} {e : ApiCall} (h : e.ticks b = true) :
    e = .call (.tickSms b) := by
  unfold ticks at h
  split at h
  · rw [eq_of_beq h]
  · cases h

end ApiCall

namespace World

variable {b : BlockAddr} {i : Fin 4}

/-- How far past its period a phase may be for the rate to be kept from there: phases move in steps
of `gcd 256 D`, and a divider of 1 has a cycle due in every tick. -/
def slack (D : ℕ) : ℕ := if D = 256 then 0 else Nat.gcd 256 D

/-- A run together with whether the divider was written since the last tick. -/
def dividing (b : BlockAddr) (i : Fin 4) (s : World × Bool) (e : ApiCall) : World × Bool :=
  (s.1.apiStep e, if e.ticks b then false else s.2 || e.writesDivider b i)

/-- A tick that is the first under a new divider finds a phase within it. -/
def Gentle (b : BlockAddr) (i : Fin 4) (s : World × Bool) (e : ApiCall) : Prop :=
  e.ticks b = true → s.2 = true →
    (s.1.sm b i).clkAccum < divUnits (s.1.sm b i) + slack (divUnits (s.1.sm b i))

/-- Whether state machine `(b, i)` has a cycle, for each tick of its block. -/
def turns (b : BlockAddr) (i : Fin 4) (w : World) (e : ApiCall) : List Bool :=
  if e.ticks b then [w.due b i] else []

/-- The divider has the widths of its fields and, unless it was just written, the phase is within
it. -/
structure Paced (b : BlockAddr) (i : Fin 4) (s : World × Bool) : Prop where
  fits : DividerFits (s.1.sm b i).divider
  within : s.2 = false → (s.1.sm b i).clkAccum < divUnits (s.1.sm b i)

section
omit [Platform]

theorem slack_le {D : ℕ} (h : 256 ≤ D) : 256 + slack D ≤ D := by
  unfold slack
  split
  · omega
  · rename_i hne
    have hdvd : Nat.gcd 256 D ∣ D - 256 :=
      Nat.dvd_sub (Nat.gcd_dvd_right 256 D) (Nat.gcd_dvd_left 256 D)
    have hle := Nat.le_of_dvd (by omega) hdvd
    omega

/-- What a potential of the phase and the cycles so far says about their number. -/
theorem turns_le_of_potential {D n k : ℕ} (hD : 256 ≤ D) (h : D * k < 256 * n + D + slack D) :
    k ≤ 256 * n / D + 1 := by
  by_contra hk
  have hk : 256 * n / D + 2 ≤ k := by omega
  have hmul : D * (256 * n / D) + D * 2 ≤ D * k := by
    rw [← Nat.mul_add]
    exact Nat.mul_le_mul_left D hk
  have hdiv := Nat.div_add_mod (256 * n) D
  have hlt := Nat.mod_lt (256 * n) (show 0 < D by omega)
  have hnear : D - 256 * n % D < slack D := by omega
  unfold slack at hnear
  split at hnear
  · omega
  · -- Both the period and the rest are multiples of the step.
    have hrest : Nat.gcd 256 D ∣ 256 * n % D :=
      (Nat.dvd_mod_iff (Nat.gcd_dvd_right 256 D)).mpr (Dvd.dvd.mul_right (Nat.gcd_dvd_left 256 D) n)
    have hle := Nat.le_of_dvd (by omega) (Nat.dvd_sub (Nat.gcd_dvd_right 256 D) hrest)
    omega

theorem divUnits_initial : divUnits Sm.initial = 256 := rfl

theorem Paced.initial : Paced b i (World.initial, false) :=
  ⟨⟨show (1 : ℕ) < 65536 by decide, show (0 : ℕ) < 256 by decide⟩,
    fun _ => show 0 < divUnits Sm.initial by rw [divUnits_initial]; decide⟩

theorem Paced.gentle {s : World × Bool} (h : Paced b i s) {e : ApiCall} (hc : Gentle b i s e)
    (ht : e.ticks b = true) :
    (s.1.sm b i).clkAccum < divUnits (s.1.sm b i) + slack (divUnits (s.1.sm b i)) := by
  cases hs : s.2 with
  | true => exact hc ht hs
  | false => exact Nat.lt_of_lt_of_le (h.within hs) (Nat.le_add_right _ _)

/-- A tick takes a period off the phase when a cycle is due, and then the phase is within the
period. -/
theorem nextAccum_within {s : Sm} (hfits : DividerFits s.divider)
    (h : s.clkAccum < divUnits s + slack (divUnits s)) :
    s.nextAccum < divUnits s ∧
      s.nextAccum + (if divUnits s ≤ u32 (s.clkAccum + 256) then divUnits s else 0) =
        s.clkAccum + 256 := by
  obtain ⟨hlow, hhigh⟩ := Sm.divUnits_bounds hfits
  have hslack := slack_le hlow
  have hwrap : u32 (s.clkAccum + 256) = s.clkAccum + 256 := Nat.mod_eq_of_lt (by omega)
  unfold Sm.nextAccum
  rw [hwrap]
  split <;> omega

end

theorem accum_apiStep {w : World} {e : ApiCall} (ht : e.ticks b = false) :
    ((w.apiStep e).sm b i).clkAccum = (w.sm b i).clkAccum ∨
      ((w.apiStep e).sm b i).clkAccum = 0 := by
  refine accum_step fun hc => ?_
  cases e with
  | call c =>
    rw [show c = .tickSms b from hc] at ht
    simp [ApiCall.ticks] at ht
  | applyProgramConfig c k prog => cases hc

omit [Platform] in
theorem divider_overlay {α : Type} {f : SmConfig → α → SmConfig}
    (hf : ∀ c d, (f c d).divider = c.divider) (c : SmConfig) (d : Option α) :
    (c.overlay f d).divider = c.divider := by
  cases d with
  | none => rfl
  | some a => exact hf c a

/-- Of the directives only `.clock_div` touches the divider. -/
theorem divider_programConfig (s : Sm) (prog : ProgramConfig) :
    (s.programConfig prog).divider = prog.clockDiv.getD s.divider := by
  unfold Sm.programConfig
  rw [divider_overlay, divider_overlay, divider_overlay, divider_overlay, divider_overlay]
  · cases prog.clockDiv <;> rfl
  · intro c d
    rfl
  · intro c d
    rfl
  · intro c d
    dsimp only
    split <;> rfl
  · intro c d
    rfl
  · intro c d
    rfl

theorem divider_setConfig (w : World) (b : BlockAddr) (k : ℕ) (cfg : SmConfig) :
    ((w.step (.sm b k (.setConfig cfg))).sm b (smIdx k)).divider = cfg.divider := by
  have ht := (w.sm b (smIdx k)).timing_setConfig cfg
  rw [step, sm_modifySm_self]
  exact congrArg (fun t => (t.1, t.2.1)) ht

theorem fits_apiStep {w : World} (h : DividerFits (w.sm b i).divider) {e : ApiCall} (he : e.Fits) :
    DividerFits ((w.apiStep e).sm b i).divider := by
  cases e with
  | call c =>
    by_cases hc : SetsDivider b i c
    · obtain ⟨k, cfg, rfl, rfl⟩ := hc
      rw [apiStep, ApiCall.resolve, divider_setConfig]
      exact he
    · rw [apiStep, ApiCall.resolve]
      rcases divider_step (w := w) hc with hd | ⟨-, hd⟩
      · rwa [hd]
      · rcases hd _ he with hd | ⟨cfg, hcfg, hd⟩
        · rw [hd]
          exact ⟨by decide, by decide⟩
        · rwa [hd]
  | applyProgramConfig c k prog =>
    rw [apiStep, ApiCall.resolve]
    by_cases hself : (c, smIdx k) = (b, i)
    · obtain ⟨rfl, rfl⟩ := Prod.mk.inj hself
      rw [divider_setConfig, divider_programConfig]
      cases hd : prog.clockDiv with
      | none => exact h
      | some d => exact he d hd
    · rwa [keeps_step steady_divider (c := .sm c k _) hself]

/-- A call that does not write the divider keeps it, or zeroes its phase. -/
theorem divider_apiStep {w : World} {e : ApiCall} (he : e.writesDivider b i = false) :
    ((w.apiStep e).sm b i).divider = (w.sm b i).divider ∨ ((w.apiStep e).sm b i).clkAccum = 0 := by
  cases e with
  | call c =>
    have hc : ¬ SetsDivider b i c := by
      rintro ⟨k, cfg, rfl, rfl⟩
      simp [ApiCall.writesDivider] at he
    exact (divider_step (w := w) hc).imp_right And.left
  | applyProgramConfig c k prog =>
    have hother : (c, smIdx k) ≠ (b, i) := by simpa [ApiCall.writesDivider] using he
    exact Or.inl (keeps_step steady_divider (c := .sm c k _) hother)

/-- Any call keeps the pace, a tick of the block if it is gentle. -/
theorem Paced.step {s : World × Bool} (h : Paced b i s) {e : ApiCall} (he : e.Fits)
    (hc : Gentle b i s e) : Paced b i (dividing b i s e) := by
  have hfits := fits_apiStep h.fits he
  refine ⟨hfits, fun hflag => ?_⟩
  cases ht : e.ticks b with
  | true =>
    have htiming := timing_tickSms s.1 b i
    have hkept : ((s.1.tickSms b).sm b i).divider = (s.1.sm b i).divider :=
      congrArg (fun t => (t.1, t.2.1)) htiming
    obtain rfl := ApiCall.eq_of_ticks ht
    show ((s.1.tickSms b).sm b i).clkAccum < divUnits ((s.1.tickSms b).sm b i)
    rw [Sm.divUnits_congr hkept, show ((s.1.tickSms b).sm b i).clkAccum = _ from
      congrArg (·.2.2) htiming]
    exact (nextAccum_within h.fits (h.gentle hc ht)).1
  | false =>
    simp only [dividing, ht, Bool.false_eq_true, if_false, Bool.or_eq_false_iff] at hflag
    show ((s.1.apiStep e).sm b i).clkAccum < divUnits ((s.1.apiStep e).sm b i)
    have hpos : 0 < divUnits ((s.1.apiStep e).sm b i) :=
      Nat.lt_of_lt_of_le (by decide) (Sm.divUnits_bounds hfits).1
    rcases divider_apiStep (w := s.1) hflag.2 with hd | hzero
    · rw [Sm.divUnits_congr hd]
      rcases accum_apiStep (i := i) (w := s.1) ht with ha | ha
      · rw [ha]
        exact h.within hflag.1
      · rw [ha, ← Sm.divUnits_congr hd]
        exact hpos
    · rw [hzero]
      exact hpos

/-- The cycles of the ticks so far and the phase they leave, over a window with one divider. -/
def Potential (b : BlockAddr) (i : Fin 4) (D : ℕ) (s : World × Bool) (l : List Bool) : Prop :=
  Paced b i s ∧
    (l = [] ∨ D * l.count true + (s.1.sm b i).clkAccum < 256 * l.length + D + slack D)

theorem Potential.step {D : ℕ} {s : World × Bool} {l : List Bool} (h : Potential b i D s l)
    {e : ApiCall} (he : e.Fits) (hc : Gentle b i s e) (hD : divUnits (s.1.sm b i) = D) :
    Potential b i D (dividing b i s e) (l ++ turns b i s.1 e) := by
  refine ⟨h.1.step he hc, ?_⟩
  cases ht : e.ticks b with
  | true =>
    obtain rfl := ApiCall.eq_of_ticks ht
    have hstart := h.1.gentle hc ht
    obtain ⟨-, hnext⟩ := nextAccum_within h.1.fits hstart
    have haccum : ((dividing b i s (.call (.tickSms b))).1.sm b i).clkAccum =
        (s.1.sm b i).nextAccum :=
      congrArg (·.2.2) (timing_tickSms s.1 b i)
    have hpay : D * [s.1.due b i].count true + (s.1.sm b i).nextAccum ≤
        (s.1.sm b i).clkAccum + 256 := by
      rw [hD] at hnext
      by_cases hdue : D ≤ u32 ((s.1.sm b i).clkAccum + 256)
      · rw [if_pos hdue] at hnext
        have hcount := List.count_le_length (a := true) (l := [s.1.due b i])
        have hle : D * [s.1.due b i].count true ≤ D * 1 := Nat.mul_le_mul_left D hcount
        omega
      · rw [if_neg hdue] at hnext
        have hno : s.1.due b i = false := by
          rw [due, hD, decide_eq_false hdue, Bool.and_false]
        rw [hno, show [false].count true = 0 from rfl]
        omega
    rw [turns, if_pos ht, List.count_append, Nat.mul_add, haccum, List.length_append,
      List.length_singleton]
    rw [hD] at hstart
    rcases h.2 with rfl | hl
    · refine Or.inr ?_
      simp only [List.count_nil, List.length_nil]
      omega
    · exact Or.inr (by omega)
  | false =>
    rw [turns, ht, if_neg Bool.false_ne_true, List.append_nil]
    refine h.2.imp_right fun hl => ?_
    rcases accum_apiStep (i := i) (w := s.1) ht with ha | ha
    · rw [dividing, ha]
      exact hl
    · rw [dividing, ha]
      omega

theorem foldl_dividing (s : World × Bool) (es : List ApiCall) :
    (es.foldl (dividing b i) s).1 = es.foldl apiStep s.1 :=
  (List.foldl_hom Prod.fst fun _ _ => rfl).symm

theorem along_dividing {C : World → ApiCall → Prop} (s : World × Bool) (es : List ApiCall) :
    Run.Along apiStep C s.1 es ↔ Run.Along (dividing b i) (fun s e => C s.1 e) s es :=
  Run.along_hom (fun _ _ => rfl) s es

theorem collect_dividing {α : Type} (out : World → ApiCall → List α) (s : World × Bool)
    (es : List ApiCall) :
    Run.collect apiStep out s.1 es = Run.collect (dividing b i) (fun s e => out s.1 e) s es :=
  Run.collect_hom (fun _ _ => rfl) out s es

/-- In every run from the start, if the first tick under each new divider of a state machine finds
its phase within the divider or less than one step of the phase past it, then every tick leaves the
phase within the divider, and no window of ticks under one divider has more than one cycle over the
rate. -/
theorem divider_keeps_rate (b : BlockAddr) (i : Fin 4) (es : List ApiCall)
    (hfits : ∀ e ∈ es, e.Fits)
    (hgentle : Run.Along (dividing b i) (Gentle b i) (World.initial, false) es) :
    (∀ pre e, pre ++ [e] <+: es → e.ticks b = true →
      (((pre ++ [e]).foldl apiStep World.initial).sm b i).clkAccum <
        divUnits (((pre ++ [e]).foldl apiStep World.initial).sm b i)) ∧
    ∀ pre win D, pre ++ win <+: es →
      Run.Along apiStep (fun w _ => divUnits (w.sm b i) = D) (pre.foldl apiStep World.initial) win →
      let l := Run.collect apiStep (turns b i) (pre.foldl apiStep World.initial) win
      l.count true ≤ 256 * l.length / D + 1 := by
  have hrun := (Run.along_of_mem hfits _).and hgentle
  have hpaced : ∀ pre, pre <+: es → Paced b i (pre.foldl (dividing b i) (World.initial, false)) :=
    fun pre hpre => Run.invariant_prefix (fun s e hs hc => hs.step hc.1 hc.2) .initial hrun hpre
  refine ⟨fun pre e hpre ht => ?_, fun pre win D hpre hD => ?_⟩
  · have h := (hpaced _ hpre).within (by simp only [List.foldl_append, List.foldl_cons,
      List.foldl_nil, dividing, ht, if_true])
    rwa [foldl_dividing] at h
  · obtain ⟨post, rfl⟩ := hpre
    have hstart := hpaced pre ⟨win ++ post, (List.append_assoc _ _ _).symm⟩
    have hwin := ((Run.along_append _ _ _).mp ((Run.along_append _ _ _).mp hrun).1).2
    rw [← foldl_dividing (b := b) (i := i) (World.initial, false) pre] at hD ⊢
    rw [along_dividing (b := b) (i := i)] at hD
    rw [collect_dividing (b := b) (i := i)]
    obtain ⟨-, hl⟩ := Run.invariant_collect (J := Potential b i D) (l := [])
      (fun s e l hs hc => hs.step hc.1.1 hc.1.2 hc.2) ⟨hstart, Or.inl rfl⟩ (hwin.and hD)
    rw [List.nil_append] at hl
    rcases hl with hl | hl
    · simp [hl]
    · cases win with
      | nil => exact Nat.zero_le _
      | cons e win =>
        refine turns_le_of_potential ?_ (Nat.lt_of_le_of_lt (Nat.le_add_right _ _) hl)
        rw [← hD.1]
        exact (Sm.divUnits_bounds hstart.fits).1

instance decidableGentle (s : World × Bool) (e : ApiCall) : Decidable (Gentle b i s e) :=
  inferInstanceAs (Decidable (_ → _ → _))

omit [Platform] in
/-- A divider of 4 written over by one of 2 half a period later. -/
theorem divider_keeps_rate_four_two :
    letI : Platform := ⟨.rp2350⟩
    let pre : List ApiCall := [.call (.sm 0 0 (.setConfig (defaultSmConfig.setClkdivIntFrac 4 0))),
      .call (.tickSms 0), .call (.tickSms 0),
      .call (.sm 0 0 (.setConfig (defaultSmConfig.setClkdivIntFrac 2 0)))]
    let w := (pre ++ [ApiCall.call (.tickSms 0)]).foldl apiStep World.initial
    (w.sm 0 0).clkAccum < divUnits (w.sm 0 0) := by
  let P : Platform := ⟨.rp2350⟩
  intro pre w
  have hfits : ∀ e ∈ pre ++ [.call (.tickSms 0)], e.Fits := by
    simp only [pre, List.forall_mem_append, List.forall_mem_cons]
    exact ⟨⟨⟨by decide, by decide⟩, trivial, trivial, ⟨by decide, by decide⟩, fun _ h => nomatch h⟩,
      trivial, fun _ h => nomatch h⟩
  have hgentle : Run.Along (dividing 0 0) (Gentle 0 0) (World.initial, false)
      (pre ++ [.call (.tickSms 0)]) := by decide +kernel
  exact (divider_keeps_rate 0 0 _ hfits hgentle).1 pre (.call (.tickSms 0)) (List.prefix_refl _) rfl

omit [Platform] in
/-- A divider of 16 written over by one of 2 with the phase at 15 ticks: the next four ticks have a
cycle each. -/
theorem divider_change_bursts :
    letI : Platform := ⟨.rp2350⟩
    ¬ ∀ (b : BlockAddr) (i : Fin 4) (es : List ApiCall), (∀ e ∈ es, e.Fits) →
      (∀ pre e, pre ++ [e] <+: es → e.ticks b = true →
        (((pre ++ [e]).foldl apiStep World.initial).sm b i).clkAccum <
          divUnits (((pre ++ [e]).foldl apiStep World.initial).sm b i)) ∧
      ∀ pre win D, pre ++ win <+: es →
        Run.Along apiStep (fun w _ => divUnits (w.sm b i) = D)
          (pre.foldl apiStep World.initial) win →
        let l := Run.collect apiStep (turns b i) (pre.foldl apiStep World.initial) win
        l.count true ≤ 256 * l.length / D + 1 := by
  let P : Platform := ⟨.rp2350⟩
  intro hall
  let pre : List ApiCall := [.call (.sm 0 0 (.setConfig (defaultSmConfig.setClkdivIntFrac 16 0))),
    .call (.setEnabled 0 0 true)] ++ List.replicate 15 (.call (.tickSms 0)) ++
    [.call (.sm 0 0 (.setConfig (defaultSmConfig.setClkdivIntFrac 2 0)))]
  let win : List ApiCall := List.replicate 4 (.call (.tickSms 0))
  have hfits : ∀ e ∈ pre ++ win, e.Fits := by
    simp only [pre, win, List.forall_mem_append, List.forall_mem_cons, List.mem_replicate]
    have hticks : ∀ n, ∀ e : ApiCall, n ≠ 0 ∧ e = .call (.tickSms 0) → e.Fits := by
      rintro n e ⟨-, rfl⟩
      trivial
    exact ⟨⟨⟨⟨⟨by decide, by decide⟩, trivial, fun _ h => nomatch h⟩, hticks 15⟩,
      ⟨by decide, by decide⟩, fun _ h => nomatch h⟩, hticks 4⟩
  have hburst := (hall 0 0 (pre ++ win) hfits).2 pre win 512 (List.prefix_refl _)
    (by decide +kernel)
  have hfour : (Run.collect apiStep (turns 0 0) (pre.foldl apiStep World.initial) win) =
      List.replicate 4 true := by decide +kernel
  simp only [hfour] at hburst
  revert hburst
  decide

end World

end PioSim
