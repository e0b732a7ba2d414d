import PioSim.DmaTransfer

/-!
# Runs with hooks

A completion hook is host code: it may make any calls on the controller, and these may complete a
channel and run it again. What every elementary action of the controller keeps is kept by every run,
however deep the hooks nest.
-/

namespace PioSim

variable [Platform]

theorem chIdx_lt (ch : ℕ) : chIdx ch < dmaNumChannels := Nat.mod_lt _ dmaNumChannels_pos

/-- Hooks that make the calls `calls`, and run inside each other at most `n` deep. -/
def Callback.nested (calls : ℕ → ℕ → Chip → List ChipCall) : ℕ → Callback
  | 0 => .idle
  | n + 1 => fun fn ch s => s.run (nested calls n) (calls fn ch s)

namespace Chip

/-- `dma_raise_irq` up to the hook. -/
def flagged (s : Chip) (ch : ℕ) : Chip :=
  s.modifyDma fun d => { d.record (.raised (chIdx ch)) with intr := d.intr ||| (1#32 <<< chIdx ch) }

/-- `pio_dma_channel_configure` up to the trigger. -/
def configured (s : Chip) (ch : ℕ) (c : DmaConfig) (writeAddr readAddr : DmaAddr)
    (transCount : BitVec 32) :
    Chip :=
  s.modifyDma (·.modifyCh (chIdx ch) fun chan =>
    { chan with
      ctrl := c
      writeAddr := writeAddr
      readAddr := readAddr
      transCountReload := transCount
      en := true })

/-- A trigger with a count. -/
def armed (s : Chip) (c : ℕ) : Chip :=
  (s.modifyDma (·.record (.triggered c))).modifyDma (·.modifyCh c fun chan =>
    { chan with transCount := chan.transCountReload, busy := true })

/-- `R` holds between the states before and after every elementary action in a run of calls from
`Q`. -/
structure Actions (Q : ChipCall → Prop) (R : Chip → Chip → Prop) : Prop where
  refl : ∀ s, R s s
  trans : ∀ {s t u}, R s t → R t u → R s u
  pio : ∀ s call, Q (.pio call) → R s { s with world := s.world.step call }
  mem : ∀ s m, R s { s with mem := m }
  op : ∀ s o, Q (.op o) → R s (s.modifyDma fun d => o.apply d)
  configured : ∀ s ch c writeAddr readAddr transCount trigger,
    Q (.channelConfigure ch c writeAddr readAddr transCount trigger) →
      R s (s.configured ch c writeAddr readAddr transCount)
  clocked : ∀ s, Q .dmaTick → R s s.clocked
  seat : ∀ s c, Q .dmaTick →
    R s (s.modifyDma fun d => { d with rrNext := (c + 1) % dmaNumChannels })
  armed : ∀ s c, c < dmaNumChannels → (s.dma.ch c).transCountReload ≠ 0 → R s (s.armed c)
  null : ∀ s c, c < dmaNumChannels → R s (s.modifyDma (·.record (.triggered c)))
  nullRaised : ∀ s c, c < dmaNumChannels → R s ((s.modifyDma (·.record (.triggered c))).flagged c)
  moved : ∀ s c, Q .dmaTick → c < dmaNumChannels → s.channelReady c = true → R s (s.moved c)
  finished : ∀ s c, Q .dmaTick → c < dmaNumChannels → s.channelReady c = true →
    ((s.moved c).dma.ch c).transCount = 0 → R s ((s.moved c).flagged c)
  chained : ∀ s c target, c < dmaNumChannels → R s (s.modifyDma (·.record (.chained c target)))

omit [Platform] in
theorem busy_of_ready {s : Chip} {c : ℕ} (h : s.channelReady c = true) :
    (s.dma.ch c).busy = true := by
  unfold channelReady at h
  simp only [Bool.and_eq_true] at h
  exact h.1.1.2

section Rule
variable {Q : ChipCall → Prop} {R : Chip → Chip → Prop} {cb : Callback} {s t : Chip} {c : ℕ}

/-- The flag, then what the hook does. -/
theorem Actions.raiseIrq (h : Actions Q R) (hcb : ∀ fn ch s, R s (cb fn ch s)) {u : Chip}
    (hflag : R u (s.flagged c)) : R u (s.raiseIrq cb c) := by
  unfold Chip.raiseIrq
  simp only
  split
  · exact hflag
  · exact h.trans hflag (hcb _ _ _)

theorem Actions.trigger (h : Actions Q R) (hcb : ∀ fn ch s, R s (cb fn ch s))
    (hc : c < dmaNumChannels)
    (s : Chip) : R s (s.trigger cb c) := by
  unfold Chip.trigger
  simp only
  split_ifs with hzero
  · exact h.raiseIrq hcb (h.nullRaised s c hc)
  · exact h.null s c hc
  · exact h.armed s c hc hzero

theorem Actions.startChannelMask (h : Actions Q R) (hcb : ∀ fn ch s, R s (cb fn ch s)) (s : Chip)
    (mask : BitVec 32) : R s (s.startChannelMask cb mask) := by
  refine List.foldlRecOn (motive := R s) _ _ (h.refl s) fun t ht c hc => ?_
  split
  · exact h.trans ht (h.trigger hcb (List.mem_range.mp hc) t)
  · exact ht

/-- What follows the interrupt of a completion. -/
theorem Actions.complete (h : Actions Q R) (hcb : ∀ fn ch s, R s (cb fn ch s))
    (hc : c < dmaNumChannels)
    (hraise : R s (if (t.dma.ch c).ctrl.irqQuiet then t else t.raiseIrq cb c)) :
    R s (t.complete cb c) := by
  unfold Chip.complete
  simp only
  generalize (if (t.dma.ch c).ctrl.irqQuiet then t else t.raiseIrq cb c) = u at hraise ⊢
  split
  · exact h.trans hraise (h.trans (h.chained u c _ hc) (h.startChannelMask hcb _ _))
  · exact hraise

theorem Actions.transferOne (h : Actions Q R) (hcb : ∀ fn ch s, R s (cb fn ch s))
    (htick : Q .dmaTick)
    (hc : c < dmaNumChannels) (hready : s.channelReady c = true) : R s (s.transferOne cb c) := by
  rw [transferOne_eq]
  split
  · rename_i hzero
    refine h.complete hcb hc ?_
    split
    · exact h.moved s c htick hc hready
    · exact h.raiseIrq hcb (h.finished s c htick hc hready hzero)
  · exact h.moved s c htick hc hready

theorem Actions.dmaTick (h : Actions Q R) (hcb : ∀ fn ch s, R s (cb fn ch s))
    (htick : Q .dmaTick) (s : Chip) :
    R s (s.step cb .dmaTick) := by
  cases hserved : s.clocked.served with
  | none =>
    rw [step_dmaTick_of_idle hserved]
    exact h.clocked s htick
  | some c =>
    obtain ⟨hc, hready⟩ := ready_of_served hserved
    rw [step_dmaTick_of_served hserved]
    exact h.trans (h.clocked s htick)
      (h.trans (h.transferOne hcb htick hc hready) (h.seat _ c htick))

theorem Actions.step (h : Actions Q R) (hcb : ∀ fn ch s, R s (cb fn ch s)) (s : Chip)
    {x : ChipCall} (hx : Q x) :
    R s (s.step cb x) := by
  cases x with
  | pio call => exact h.pio s call hx
  | poke p v => exact h.mem s _
  | op o => exact h.op s o hx
  | startChannelMask mask => exact h.startChannelMask hcb s mask
  | channelConfigure ch cfg writeAddr readAddr transCount trigger =>
    have hconfigured := h.configured s ch cfg writeAddr readAddr transCount trigger hx
    unfold Chip.step Chip.channelConfigure
    simp only
    split
    · exact h.trans hconfigured (h.startChannelMask hcb _ _)
    · exact hconfigured
  | dmaTick => exact h.dmaTick hcb hx s

theorem Actions.run (h : Actions Q R) (hcb : ∀ fn ch s, R s (cb fn ch s)) {xs : List ChipCall}
    (hxs : ∀ x ∈ xs, Q x) (s : Chip) : R s (s.run cb xs) :=
  List.foldlRecOn (motive := R s) _ _ (h.refl s) fun t ht x hx =>
    h.trans ht (h.step hcb t (hxs x hx))

/-- Hooks keep what the actions keep, however deep they nest. -/
theorem Actions.nested (h : Actions Q R) {calls : ℕ → ℕ → Chip → List ChipCall}
    (hcalls : ∀ fn ch s, ∀ x ∈ calls fn ch s, Q x) (n : ℕ) :
    ∀ fn ch s, R s (Callback.nested calls n fn ch s) := by
  induction n with
  | zero => exact fun _ _ s => h.refl s
  | succ n ih => exact fun fn ch s => h.run ih (hcalls fn ch s) s

end Rule
end Chip
end PioSim
