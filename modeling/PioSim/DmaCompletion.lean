import PioSim.DmaRuns
import PioSim.DmaService

/-!
# Copies that end

A copy in memory is never short of data or of room, so an enabled channel with the right of way is
served in every round of ticks until its count is used up.
-/

namespace PioSim.Chip

variable [Platform] {γ : Type} {g : World → γ} {cb : Callback} {s s₀ : Chip} {ctrl : DmaConfig}
  {c r w n k : ℕ}

/-- The call, if it is a tick, finds `c` enabled and with the right of way. -/
def Unhindered (c : ℕ) (s : Chip) : ChipCall → Prop
  | .dmaTick => (s.clocked.dma.ch c).en = true ∧ s.clocked.RightOfWay c
  | _ => True

/-- What does not serve the channel leaves its progress alone. -/
theorem Copied.other (hcb : cb.Minds (· = c) (Own ctrl r w n) g) {e : ChipCall}
    (h : Copied ctrl c r w n s₀ k s)
    (he : s.LeavesAlone (· = c) (Own ctrl r w n) g e) (hserved : c ∉ s.transfers e) :
    Copied ctrl c r w n s₀ k (s.step cb e) :=
  h.untouched (untouched_step hcb he fun x hx hxc => by
    rw [hxc] at hx
    exact hserved hx)

/-- A tick that serves the channel moves the next element. -/
theorem Copied.own (hcb : cb.Minds (· = c) (Own ctrl r w n) g) (hlt : c < dmaNumChannels)
    (hring : ctrl.ringSize = 0) (hdisj : ∀ a, ctrl.Reads r n a → ¬ ctrl.Writes w n a)
    (h : Copied ctrl c r w n s₀ k s) (hk : k < n) (hserved : s.clocked.served = some c) :
    Copied ctrl c r w n s₀ (k + 1) (s.step cb .dmaTick) := by
  have hclocked : Copied ctrl c r w n s₀ k s.clocked := h.untouched (g := g) untouched_clocked
  rw [step_dmaTick_of_served hserved]
  exact (hclocked.transfer hcb hlt hring hdisj hk).untouched (g := g)
    (untouched_modifyDma rfl rfl rfl)

/-- A copy that has elements left is ready. -/
theorem Copied.ready (h : Copied ctrl c r w n s₀ k s)
    (hforce : ctrl.treqSel = treqForce) (hr : r ≠ 0)
    (hw : w ≠ 0) (hk : k < n) (hen : (s.dma.ch c).en = true) : s.channelReady c = true := by
  have htreq : s.treqReady (s.dma.ch c) = true := by
    unfold treqReady
    rw [unsniffed_eq h.config]
    exact if_pos hforce
  have hread : ctrl.readAt r k ≠ 0 := fun hzero => hr (Nat.eq_zero_of_add_eq_zero_right hzero)
  have hwrite : ctrl.writeAt w k ≠ 0 := fun hzero => hw (Nat.eq_zero_of_add_eq_zero_right hzero)
  have hends : s.endpointsReady (s.dma.ch c) = true := by
    unfold endpointsReady
    rw [h.read, h.write]
    simp [sourceReady, destReady, hread, hwrite]
  unfold channelReady
  dsimp only
  rw [hen, h.busy, decide_eq_true hk, htreq, hends]
  rfl

/-- A finished copy is not served. -/
theorem Copied.not_served (h : Copied ctrl c r w n s₀ n s) : s.clocked.served ≠ some c := by
  intro hserved
  have hbusy := busy_of_ready (ready_of_served hserved).2
  have hclocked : Copied ctrl c r w n s₀ n s.clocked :=
    h.untouched (g := fun _ => ()) untouched_clocked
  rw [hclocked.busy, decide_eq_false (Nat.lt_irrefl n)] at hbusy
  cases hbusy

/-- A run moves further elements: all that are left, or one for every round of ticks. -/
theorem Copied.run (hcb : cb.Minds (· = c) (Own ctrl r w n) g) (hseat : cb.KeepsSeat)
    (hlt : c < dmaNumChannels)
    (hring : ctrl.ringSize = 0) (hdisj : ∀ a, ctrl.Reads r n a → ¬ ctrl.Writes w n a)
    (hforce : ctrl.treqSel = treqForce) (hr : r ≠ 0) (hw : w ≠ 0) {es : List ChipCall}
    (h : Copied ctrl c r w n s₀ k s) (hrun : Run.Along (Chip.step cb)
      (fun s e => s.LeavesAlone (· = c) (Own ctrl r w n) g e ∧ s.Unhindered c e) s es) :
    ∃ m, Copied ctrl c r w n s₀ (k + m) (s.run cb es) ∧ (k + m = n ∨
      es.countP ChipCall.isTick ≤ RoundRobin.ahead dmaNumChannels s.dma.rrNext c +
        dmaNumChannels * m) := by
  induction es generalizing s k with
  | nil => exact ⟨0, h, .inr (Nat.zero_le _)⟩
  | cons e es ih =>
    obtain ⟨⟨halone, hway⟩, hrest⟩ := hrun
    by_cases he : e = .dmaTick
    · subst he
      rw [List.countP_cons_of_pos rfl]
      rcases Nat.lt_or_eq_of_le h.le with hk | rfl
      · have hclocked : Copied ctrl c r w n s₀ k s.clocked := h.untouched (g := g) untouched_clocked
        have hwaiting : s.Waiting c .dmaTick := ⟨hclocked.ready hforce hr hw hk hway.1, hway.2⟩
        obtain ⟨a, ha, hahead⟩ := waiting_tick cb hlt hwaiting
        split at hahead
        · rename_i hself
          obtain ⟨m, hm, hbound⟩ := ih (h.own hcb hlt hring hdisj hk (hself ▸ ha)) hrest
          refine ⟨m + 1, by rw [Nat.add_comm m 1, ← Nat.add_assoc]; exact hm, ?_⟩
          rw [Nat.mul_succ]
          omega
        · rename_i hne
          have hother : c ∉ s.transfers .dmaTick := fun hmem =>
            hne (Option.some.inj (ha.symm.trans (mem_transfers_dmaTick.mp hmem)))
          obtain ⟨m, hm, hbound⟩ := ih (h.other hcb halone hother) hrest
          exact ⟨m, hm, hbound.imp id fun hle => by omega⟩
      · have hother : c ∉ s.transfers .dmaTick :=
          fun hmem => h.not_served (mem_transfers_dmaTick.mp hmem)
        obtain ⟨m, hm, -⟩ := ih (h.other hcb halone hother) hrest
        exact ⟨m, hm, .inl (Nat.le_antisymm hm.le (Nat.le_add_right _ m))⟩
    · have hplain := isTick_of_ne he
      have hother : c ∉ s.transfers e := by
        cases e with
        | dmaTick => exact absurd rfl he
        | pio | poke | op | startChannelMask | channelConfigure => exact List.not_mem_nil
      obtain ⟨m, hm, hbound⟩ := ih (h.other hcb halone hother) hrest
      rw [rrNext_step hseat s he] at hbound
      rw [List.countP_cons_of_neg (by rw [hplain]; exact Bool.false_ne_true)]
      exact ⟨m, hm, hbound⟩

/-- As many rounds as elements finish the copy. -/
theorem Copied.finished (hcb : cb.Minds (· = c) (Own ctrl r w n) g) (hseat : cb.KeepsSeat)
    (hlt : c < dmaNumChannels)
    (hring : ctrl.ringSize = 0) (hdisj : ∀ a, ctrl.Reads r n a → ¬ ctrl.Writes w n a)
    (hforce : ctrl.treqSel = treqForce) (hr : r ≠ 0) (hw : w ≠ 0) {es : List ChipCall}
    (h : Copied ctrl c r w n s₀ 0 s) (hrun : Run.Along (Chip.step cb)
      (fun s e => s.LeavesAlone (· = c) (Own ctrl r w n) g e ∧ s.Unhindered c e) s es)
    (hticks : n * dmaNumChannels ≤ es.countP ChipCall.isTick) :
    Copied ctrl c r w n s₀ n (s.run cb es) := by
  obtain ⟨m, hm, hbound⟩ := h.run hcb hseat hlt hring hdisj hforce hr hw hrun
  rw [Nat.zero_add] at hm hbound
  rcases hbound with rfl | hpaid
  · exact hm
  · have hahead : RoundRobin.ahead dmaNumChannels s.dma.rrNext c < dmaNumChannels :=
      RoundRobin.ahead_lt hlt
    have hrounds : n * dmaNumChannels < (m + 1) * dmaNumChannels := by
      rw [Nat.succ_mul, Nat.mul_comm m]
      omega
    obtain rfl := Nat.le_antisymm hm.le (Nat.lt_succ_iff.mp (Nat.lt_of_mul_lt_mul_right hrounds))
    exact hm

/-- An unpaced copy of `n` elements is done after `n` rounds of ticks: while the channel is enabled
and has the right of way, whatever else is called around it, every element has then arrived, and the
channel is idle and has completed. -/
theorem copy_completes (hcb : cb.Minds (· = c) (Own (s.dma.ch c).ctrl r w n) fun _ => ())
    (hseat : cb.KeepsSeat)
    (hlt : c < dmaNumChannels) (harmed : s.Armed c r w n)
    (hforce : (s.dma.ch c).ctrl.treqSel = treqForce) (hr : r ≠ 0) (hw : w ≠ 0)
    (hdisj : ∀ a, (s.dma.ch c).ctrl.Reads r n a → ¬ (s.dma.ch c).ctrl.Writes w n a)
    {es : List ChipCall} (hrun : Run.Along (Chip.step cb)
      (fun t e => t.LeavesAlone (· = c) (Own (s.dma.ch c).ctrl r w n) (fun _ => ()) e ∧
        t.Unhindered c e) s es)
    (hticks : n * dmaNumChannels ≤ es.countP ChipCall.isTick) :
    ((s.run cb es).dma.ch c).busy = false ∧
      (s.run cb es).dma.history c = s.dma.history c ++ (s.dma.ch c).ctrl.moves c s.mem r w n ++
        (s.dma.ch c).ctrl.completion c ∧
      ∀ i < n, ∀ j < elemBytes (s.dma.ch c).ctrl.dataSize,
        (s.dma.ch c).ctrl.incrWrite = true ∨ i + 1 = n →
        (s.run cb es).mem ((s.dma.ch c).ctrl.writeAt w i + j) =
          s.mem ((s.dma.ch c).ctrl.readAt r i +
            if (s.dma.ch c).ctrl.bswap then elemBytes (s.dma.ch c).ctrl.dataSize - 1 - j
              else j) := by
  have hdone := harmed.copied.finished hcb hseat hlt harmed.ring hdisj hforce hr hw hrun hticks
  refine ⟨by rw [hdone.busy, decide_eq_false (Nat.lt_irrefl n)], by rw [hdone.history, if_pos rfl],
    fun i hi j hj hor => ?_⟩
  exact (hdone.dest i hi j hj hor).trans (DmaConfig.byte_element _ _ _ _ hj)

/-- A tick that serves nobody but `c`, which is enabled and has the right of way. -/
def calm (c : ℕ) (s : Chip) : ChipCall → Bool
  | .dmaTick => (s.clocked.served == none || s.clocked.served == some c) &&
    (s.clocked.dma.ch c).en &&
      s.clocked.firstReady true == none
  | _ => false

theorem of_calm {M : ℕ → Prop} {e : ChipCall} (h : calm c s e = true) :
    s.LeavesAlone (· = c) M (fun _ => ()) e ∧ s.Unhindered c e := by
  cases e with
  | dmaTick =>
    simp only [calm, Bool.and_eq_true, Bool.or_eq_true, beq_iff_eq] at h
    obtain ⟨⟨hserved, hen⟩, hway⟩ := h
    refine ⟨fun x hx hne => ?_, hen, .inr hway⟩
    rcases hserved with hnone | hself
    · exact absurd (hx.symm.trans hnone) (Option.some_ne_none x)
    · exact absurd (Option.some.inj (hx.symm.trans hself)) hne
  | pio | poke | op | startChannelMask | channelConfigure => cases h

end PioSim.Chip

namespace PioSim.Chip

local instance halfwordPlatform : Platform := ⟨.rp2040⟩

/-- A copy of two halfwords to consecutive places, each with its bytes swapped. -/
def swappedHalfwords : DmaConfig :=
  { DmaConfig.default 5 with incrWrite := true, dataSize := .size16, bswap := true }

/-- Channel 5 has been triggered with it. -/
def swapping : Chip :=
  step Callback.idle ⟨World.initial, Dma.init [], fun a => BitVec.ofNat 8 a⟩
    (.channelConfigure 5 swappedHalfwords (.mem 16) (.mem 4) 2 true)

theorem reads_halfwords {a : ℕ} (h : swappedHalfwords.Reads 4 2 a) : a < 16 := by
  obtain ⟨i, hi, hlo, hhi⟩ := h
  simp only [DmaConfig.readAt, swappedHalfwords, DmaConfig.default, elemBytes, if_true] at *
  omega

theorem writes_halfwords {a : ℕ} (h : swappedHalfwords.Writes 16 2 a) : 16 ≤ a := by
  obtain ⟨i, hi, hlo, hhi⟩ := h
  simp only [DmaConfig.writeAt, swappedHalfwords, DmaConfig.default, elemBytes, if_true] at *
  omega

theorem copy_completes_halfwords :
    ((swapping.run Callback.idle (List.replicate 24 .dmaTick)).dma.ch 5).busy = false ∧
      ∀ i < 2, ∀ j < 2, (swapping.run Callback.idle (List.replicate 24 .dmaTick)).mem
        (16 + i * 2 + j) =
        swapping.mem (4 + i * 2 + (2 - 1 - j)) := by
  have hctrl : (swapping.dma.ch 5).ctrl = swappedHalfwords := by decide +kernel
  have harmed : swapping.Armed 5 4 16 2 :=
    ⟨by decide +kernel,
      by decide +kernel, by decide +kernel, by decide +kernel, by decide +kernel, by decide⟩
  have hdisj : ∀ a, (swapping.dma.ch 5).ctrl.Reads 4 2 a →
      ¬ (swapping.dma.ch 5).ctrl.Writes 16 2 a := by
    rw [hctrl]
    exact fun a hr hw => Nat.not_le_of_lt (reads_halfwords hr) (writes_halfwords hw)
  have hcalm : Run.Along (step Callback.idle) (fun s e => calm 5 s e = true) swapping
      (List.replicate 24 .dmaTick) := by
    decide +kernel
  obtain ⟨hidle, -, hbytes⟩ := copy_completes (Callback.idle_minds _ _ _) (fun _ _ _ => rfl)
    (by decide) harmed
    (by rw [hctrl]; rfl) (by decide) (by decide) hdisj (hcalm.mono fun _ _ => of_calm)
      (by decide +kernel)
  rw [hctrl] at hbytes
  simp only [swappedHalfwords, DmaConfig.default, DmaConfig.readAt, DmaConfig.writeAt, elemBytes,
    if_true, true_or, forall_const] at hbytes
  exact ⟨hidle, hbytes⟩

end PioSim.Chip
