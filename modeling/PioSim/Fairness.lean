import PioSim.DmaFrame

/-!
# DMA arbitration

`pio_dma_tick` scans the channels twice, high priority first, from one round-robin seat. Within a
pass the scan is fair: whoever was served last is met last. But a high-priority transfer moves the
seat of the normal pass as well, so a normal channel keeps its turn only as long as the seat is left
at a place from which it is met before its competitor.
-/

namespace PioSim

variable [Platform]

/-- The host's hooks do not move the round-robin seat: they do not tick the controller. -/
def Callback.KeepsSeat (cb : Callback) : Prop :=
  ∀ fn ch s, (cb fn ch s).dma.rrNext = s.dma.rrNext

namespace Dma

theorem rrNext_apply (d : Dma) (o : DmaOp) : (o.apply d).rrNext = d.rrNext := by
  cases o with
  | channelAbortMask mask =>
    refine List.foldlRecOn (motive := fun e : Dma => e.rrNext = d.rrNext) _ _ rfl ?_
    intro e he c _
    split <;> exact he
  | snifferEnable ch mode force => cases force <;> rfl
  | _ => rfl

end Dma

namespace Chip

variable {cb : Callback} {s : Chip} {a b c : ℕ}

theorem rrNext_raiseIrq (hcb : cb.KeepsSeat) (s : Chip) (ch : ℕ) :
    (s.raiseIrq cb ch).dma.rrNext = s.dma.rrNext := by
  unfold raiseIrq
  simp only
  split
  · rfl
  · exact hcb _ _ _

theorem rrNext_trigger (hcb : cb.KeepsSeat) (s : Chip) (c : ℕ) :
    (s.trigger cb c).dma.rrNext = s.dma.rrNext := by
  unfold trigger
  simp only
  split_ifs
  · exact rrNext_raiseIrq hcb _ c
  · rfl
  · rfl

theorem rrNext_startChannelMask (hcb : cb.KeepsSeat) (s : Chip) (mask : BitVec 32) :
    (s.startChannelMask cb mask).dma.rrNext = s.dma.rrNext := by
  refine List.foldlRecOn (motive := fun t : Chip => t.dma.rrNext = s.dma.rrNext) _ _ rfl ?_
  intro t ht c _
  split
  · exact (rrNext_trigger hcb t c).trans ht
  · exact ht

/-- Only a tick moves the seat. -/
theorem rrNext_step (hcb : cb.KeepsSeat) (s : Chip) {e : ChipCall} (he : e ≠ .dmaTick) :
    (s.step cb e).dma.rrNext = s.dma.rrNext := by
  cases e with
  | pio call => rfl
  | poke p v => rfl
  | op o => exact Dma.rrNext_apply s.dma o
  | startChannelMask mask => exact rrNext_startChannelMask hcb s mask
  | channelConfigure ch cfg writeAddr readAddr transCount trigger =>
    rw [step, channelConfigure]
    split
    · exact rrNext_startChannelMask hcb _ _
    · rfl
  | dmaTick => exact absurd rfl he

theorem rrNext_dmaTick_of_served (h : s.clocked.served = some c) :
    (s.step cb .dmaTick).dma.rrNext = (c + 1) % dmaNumChannels := by
  rw [step_dmaTick_of_served h]
  rfl

theorem rrNext_dmaTick_of_idle (h : s.clocked.served = none) :
    (s.step cb .dmaTick).dma.rrNext = s.dma.rrNext := by
  rw [step_dmaTick_of_idle h]
  exact rrNext_clocked s

/-! ### Two channels of one priority -/

/-- The call, if it is a tick, finds `a` and `b` at the same priority and `b` ready. -/
def Contending (a b : ℕ) (s : Chip) : ChipCall → Prop
  | .dmaTick => (s.dma.ch a).ctrl.highPriority = (s.dma.ch b).ctrl.highPriority ∧
      s.clocked.channelReady b = true
  | _ => True

/-- The call, if it is a tick, does not serve `b`'s priority after a high-priority channel from
which a scan meets `a` before `b`: the first ready high-priority channel, if `b` is not of that
priority itself, does not sit from `b` round to `a`. -/
def Orderly (a b : ℕ) (s : Chip) : ChipCall → Prop
  | .dmaTick => (s.dma.ch b).ctrl.highPriority = false → ∀ h, s.clocked.firstReady true = some h →
      RoundRobin.Before dmaNumChannels ((h + 1) % dmaNumChannels) b a
  | _ => True

omit [Platform] in
/-- A ready channel is seen by the pass of its priority. -/
theorem ready_in_pass (h : s.channelReady b = true) :
    ((s.dma.ch b).ctrl.highPriority == (s.dma.ch b).ctrl.highPriority && s.channelReady b) =
      true := by
  rw [h, beq_self_eq_true, Bool.and_self]

/-- With `b` ready, `b`'s own pass serves somebody. -/
theorem firstReady_ne_none (hb : b < dmaNumChannels) (h : s.channelReady b = true) :
    s.firstReady (s.dma.ch b).ctrl.highPriority ≠ none :=
  Option.ne_none_iff_isSome.mpr (RoundRobin.scan_isSome hb (ready_in_pass h))

theorem priority_of_firstReady {hp : Bool} (h : s.firstReady hp = some c) :
    (s.dma.ch c).ctrl.highPriority = hp := by
  have hready := (RoundRobin.scan_eq_some h).2.1
  rw [Bool.and_eq_true, beq_iff_eq] at hready
  exact hready.1

/-- Who a tick serves while `b` is ready: the first of `b`'s own pass, or a high-priority channel
while `b` is not one. -/
theorem served_cases (hb : b < dmaNumChannels) (hready : s.channelReady b = true)
    (h : s.served = some c) : s.firstReady (s.dma.ch b).ctrl.highPriority = some c ∨
      (s.dma.ch b).ctrl.highPriority = false ∧ s.firstReady true = some c := by
  have hpass := firstReady_ne_none hb hready
  rw [served] at h
  cases hp : (s.dma.ch b).ctrl.highPriority with
  | true =>
    rw [hp] at hpass
    obtain ⟨d, hd⟩ := Option.ne_none_iff_exists'.mp hpass
    rw [hd, Option.some_or] at h
    exact .inl (hd.trans h)
  | false =>
    cases hhigh : s.firstReady true with
    | some d =>
      rw [hhigh, Option.some_or] at h
      exact .inr ⟨rfl, h⟩
    | none =>
      rw [hhigh, Option.none_or] at h
      exact .inl h

/-- A tick that is orderly keeps `b` before `a`, unless it serves `b`. -/
theorem before_dmaTick (hb : b < dmaNumChannels) (hc : s.Contending a b .dmaTick)
    (ho : s.Orderly a b .dmaTick) (hs : s.clocked.served = some c) (hne : c ≠ b)
    (h : RoundRobin.Before dmaNumChannels s.dma.rrNext b a) :
    RoundRobin.Before dmaNumChannels ((c + 1) % dmaNumChannels) b a := by
  obtain ⟨-, hready⟩ := hc
  rcases served_cases hb hready hs with hpass | ⟨hlow, hhigh⟩
  · rw [← rrNext_clocked] at h
    exact h.scan hb (ready_in_pass hready) hpass hne
  · rw [ch_clocked] at hlow
    exact ho hlow c hhigh

/-- While the seat meets `b` before `a`, a tick does not serve `a`. -/
theorem served_ne (hb : b < dmaNumChannels) (hc : s.Contending a b .dmaTick)
    (h : RoundRobin.Before dmaNumChannels s.dma.rrNext b a) : s.clocked.served ≠ some a := by
  intro hs
  obtain ⟨hsame, hready⟩ := hc
  rcases served_cases hb hready hs with hpass | ⟨hlow, hhigh⟩
  · rw [← rrNext_clocked] at h
    exact h.scan_ne hb (ready_in_pass hready) hpass
  · have hp := priority_of_firstReady hhigh
    rw [ch_clocked] at hlow hp
    rw [← hsame, hp] at hlow
    cases hlow

/-- The invariant between two transfers of `a`: `b` has been served, or is met before `a`. -/
theorem turn_step (hcb : cb.KeepsSeat) (hb : b < dmaNumChannels) {e : ChipCall} {l : List ℕ}
    (hc : s.Contending a b e) (ho : s.Orderly a b e)
    (h : b ∈ l ∨ RoundRobin.Before dmaNumChannels s.dma.rrNext b a) :
    b ∈ l ++ s.transfers e ∨
      RoundRobin.Before dmaNumChannels (s.step cb e).dma.rrNext b a := by
  rcases h with h | h
  · exact .inl (List.mem_append_left _ h)
  by_cases he : e = .dmaTick
  · subst he
    cases hs : s.clocked.served with
    | none =>
      rw [rrNext_dmaTick_of_idle hs]
      exact .inr h
    | some c =>
      by_cases hcb' : c = b
      · subst hcb'
        exact .inl (List.mem_append_right _ (mem_transfers_dmaTick.mpr hs))
      · rw [rrNext_dmaTick_of_served hs]
        exact .inr (before_dmaTick hb hc ho hs hcb' h)
  · rw [rrNext_step hcb s he]
    exact .inr h

/-- Between two transfers of `a`, a channel `b` of the same priority that is ready at every tick
gets its turn, provided the ticks are orderly. -/
theorem served_between_transfers (hcb : cb.KeepsSeat) (ha : a < dmaNumChannels)
    (hb : b < dmaNumChannels) (hne : b ≠ a) {es : List ChipCall} (hfirst : a ∈ s.transfers .dmaTick)
    (hrun : Run.Along (step cb) (fun s e => s.Contending a b e ∧ s.Orderly a b e)
      (s.step cb .dmaTick) (es ++ [.dmaTick]))
    (hnext : a ∈ ((s.step cb .dmaTick).run cb es).transfers .dmaTick) :
    b ∈ Run.collect (step cb) transfers (s.step cb .dmaTick) es := by
  obtain ⟨hbetween, hlast⟩ := (Run.along_append _ _ _).mp hrun
  have hstart : RoundRobin.Before dmaNumChannels (s.step cb .dmaTick).dma.rrNext b a := by
    rw [rrNext_dmaTick_of_served (mem_transfers_dmaTick.mp hfirst)]
    exact RoundRobin.before_after_self ha hb hne
  have hturn := Run.invariant_collect
    (J := fun (s : Chip) l => b ∈ l ∨ RoundRobin.Before dmaNumChannels s.dma.rrNext b a)
    (l := []) (fun _ _ _ hJ hCO => turn_step hcb hb hCO.1 hCO.2 hJ) (.inr hstart) hbetween
  rcases hturn with hmem | hbefore
  · exact hmem
  · exact absurd (mem_transfers_dmaTick.mp hnext) (served_ne hb hlast.1.1 hbefore)

/-- Channels 1 and 2 copy words, unpaced, beside a disabled high-priority channel 0. -/
def rivals : Chip :=
  run Callback.idle ⟨World.initial, Dma.init [], fun _ => 0⟩
    [.channelConfigure 0 { DmaConfig.default 0 with highPriority := true } (.mem 8) (.mem 4) 1 true,
      .op (.channelSetEnabled 0 false),
      .channelConfigure 1 (DmaConfig.default 1) (.mem 16) (.mem 32) 3 true,
      .channelConfigure 2 (DmaConfig.default 2) (.mem 20) (.mem 48) 2 true]

omit [Platform] in
/-- Channel 0 served between two transfers of channel 2 leaves channel 1 its turn. -/
theorem served_between_transfers_rivals :
    letI : Platform := ⟨.rp2350⟩
    1 ∈ Run.collect (step Callback.idle) transfers
      ((rivals.step Callback.idle .dmaTick).step Callback.idle .dmaTick)
      [.op (.channelSetEnabled 0 true), .dmaTick, .dmaTick] := by
  let P : Platform := ⟨.rp2350⟩
  have hrun : Run.Along (step Callback.idle) (fun s e => s.Contending 2 1 e ∧ s.Orderly 2 1 e)
      ((rivals.step Callback.idle .dmaTick).step Callback.idle .dmaTick)
      ([.op (.channelSetEnabled 0 true), .dmaTick, .dmaTick] ++ [.dmaTick]) := by
    refine ⟨⟨trivial, trivial⟩, ⟨⟨by decide +kernel, by decide +kernel⟩, fun _ h hh => ?_⟩,
      ⟨⟨by decide +kernel, by decide +kernel⟩, fun _ h hh => ?_⟩,
      ⟨⟨by decide +kernel, by decide +kernel⟩, fun _ h hh => ?_⟩, trivial⟩
    · -- channel 0 is served: a scan from channel 1 on meets channel 1 before channel 2
      obtain rfl : h = 0 := Option.some.inj (hh.symm.trans (by decide +kernel))
      show RoundRobin.ahead _ _ _ < RoundRobin.ahead _ _ _
      decide +kernel
    · exact absurd (hh.symm.trans (by decide +kernel)) (Option.some_ne_none h)
    · exact absurd (hh.symm.trans (by decide +kernel)) (Option.some_ne_none h)
  exact served_between_transfers (fun _ _ _ => rfl) (by decide) (by decide) (by decide)
    (by decide +kernel) hrun (by decide +kernel)

omit [Platform] in
/-- Channel 0 served between two transfers of channel 1 takes channel 2's turn away. -/
theorem high_priority_moves_normal_seat :
    letI : Platform := ⟨.rp2350⟩
    ¬ ∀ (s : Chip) (es : List ChipCall), 1 ∈ s.transfers .dmaTick →
      Run.Along (step Callback.idle) (Contending 1 2) (s.step Callback.idle .dmaTick)
        (es ++ [.dmaTick]) →
      1 ∈ ((s.step Callback.idle .dmaTick).run Callback.idle es).transfers .dmaTick →
      2 ∈ Run.collect (step Callback.idle) transfers (s.step Callback.idle .dmaTick) es := by
  let P : Platform := ⟨.rp2350⟩
  intro h
  have hserved := h rivals [.op (.channelSetEnabled 0 true), .dmaTick] (by decide +kernel)
    ⟨trivial, ⟨by decide +kernel, by decide +kernel⟩, ⟨by decide +kernel, by decide +kernel⟩,
      trivial⟩ (by decide +kernel)
  revert hserved
  decide +kernel

end Chip
end PioSim
