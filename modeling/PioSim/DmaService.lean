import PioSim.Fairness

/-!
# The share of a channel

A scan passes over at most every other channel before it comes to one that stays ready. So a channel
whose priority class has the right of way gets at least one transfer in every round of ticks,
whatever the others do.
-/

namespace RoundRobin

variable {n seat a c : ℕ}

/-- Whoever has just been served waits for everybody else. -/
theorem ahead_self (hc : c < n) : ahead n ((c + 1) % n) c + 1 = n := by
  unfold ahead
  rw [Nat.mod_mod]
  by_cases hlast : c + 1 = n
  · rw [hlast, Nat.mod_self]
    split <;> omega
  · rw [Nat.mod_eq_of_lt (by omega)]
    split <;> omega

/-- Serving somebody met before `c` brings the scan nearer to `c`. -/
theorem ahead_after_served (ha : a < n) (hc : c < n) (h : ahead n seat a < ahead n seat c) :
    ahead n ((a + 1) % n) c < ahead n seat c := by
  have hseat : seat % n < n := Nat.mod_lt _ (by omega)
  unfold ahead at *
  rw [Nat.mod_mod]
  by_cases hlast : a + 1 = n
  · rw [hlast, Nat.mod_self]
    revert h
    split <;> split <;> split <;> omega
  · rw [Nat.mod_eq_of_lt (show a + 1 < n by omega)]
    revert h
    split <;> split <;> split <;> omega

/-- A scan that finds `c` ready takes it or comes nearer to it. -/
theorem ahead_scan {ready : ℕ → Bool} (hc : c < n) (hready : ready c = true)
    (h : scan n seat ready = some a)
    (hne : a ≠ c) : ahead n ((a + 1) % n) c < ahead n seat c := by
  obtain ⟨ha, -, hfirst⟩ := scan_eq_some h
  refine ahead_after_served ha hc (Nat.lt_of_le_of_ne (hfirst c hc hready) fun he => hne ?_)
  rw [← place_ahead (n := n) (c := a) ha, he, place_ahead hc]

end RoundRobin

namespace PioSim

variable [Platform]

def ChipCall.isTick : ChipCall → Bool
  | .dmaTick => true
  | _ => false

omit [Platform] in
theorem isTick_of_ne {e : ChipCall} (he : e ≠ .dmaTick) : e.isTick = false := by
  cases e with
  | dmaTick => exact absurd rfl he
  | pio | poke | op | startChannelMask | channelConfigure => rfl

namespace Chip

variable {cb : Callback} {s : Chip} {a c : ℕ}

/-- No channel of a higher priority than `c`'s is ready. -/
def RightOfWay (c : ℕ) (s : Chip) : Prop :=
  (s.dma.ch c).ctrl.highPriority = true ∨ s.firstReady true = none

/-- The call, if it is a tick, finds `c` ready and with the right of way. -/
def Waiting (c : ℕ) (s : Chip) : ChipCall → Prop
  | .dmaTick => s.clocked.channelReady c = true ∧ s.clocked.RightOfWay c
  | _ => True

/-- With the right of way, the pass of `c`'s priority decides. -/
theorem served_of_rightOfWay (hc : c < dmaNumChannels) (hready : s.channelReady c = true)
    (h : s.RightOfWay c) :
    s.served = s.firstReady (s.dma.ch c).ctrl.highPriority := by
  have hpass := firstReady_ne_none hc hready
  unfold served
  cases hp : (s.dma.ch c).ctrl.highPriority with
  | true =>
    rw [hp] at hpass
    obtain ⟨a, ha⟩ := Option.ne_none_iff_exists'.mp hpass
    rw [ha, Option.some_or]
  | false =>
    have hnone := h.resolve_left (by rw [hp]; exact Bool.false_ne_true)
    rw [hnone, Option.none_or]

/-- A tick at which `c` waits serves `c`, and then it is `c` that is met last, or brings the scan
nearer to it. -/
theorem waiting_tick (cb : Callback) (hc : c < dmaNumChannels) (h : s.Waiting c .dmaTick) :
    ∃ a, s.clocked.served = some a ∧
    if a = c then RoundRobin.ahead dmaNumChannels (s.step cb .dmaTick).dma.rrNext c + 1 =
      dmaNumChannels
    else RoundRobin.ahead dmaNumChannels (s.step cb .dmaTick).dma.rrNext c <
      RoundRobin.ahead dmaNumChannels s.dma.rrNext c := by
  obtain ⟨hready, hway⟩ := h
  have hserved := served_of_rightOfWay hc hready hway
  obtain ⟨a, ha⟩ := Option.ne_none_iff_exists'.mp (firstReady_ne_none hc hready)
  have hstep : (s.step cb .dmaTick).dma.rrNext = (a + 1) % dmaNumChannels :=
    rrNext_dmaTick_of_served (hserved.trans ha)
  refine ⟨a, hserved.trans ha, ?_⟩
  rw [hstep]
  split
  · rename_i he
    rw [he]
    exact RoundRobin.ahead_self hc
  · rename_i hne
    rw [← rrNext_clocked s]
    exact RoundRobin.ahead_scan hc (ready_in_pass hready) ha hne

/-- The ticks of a run are paid for by the seat's distance to `c`, and by `c`'s transfers. -/
theorem ticks_le (hcb : cb.KeepsSeat) (hc : c < dmaNumChannels) {es : List ChipCall}
    (hrun : Run.Along (step cb) (Waiting c) s es) :
    es.countP ChipCall.isTick ≤ RoundRobin.ahead dmaNumChannels s.dma.rrNext c +
      dmaNumChannels * (Run.collect (step cb) transfers s es).count c := by
  induction es generalizing s with
  | nil => exact Nat.zero_le _
  | cons e es ih =>
    obtain ⟨hwait, hrest⟩ := hrun
    have hafter := ih hrest
    rw [Run.collect, List.count_append, Nat.mul_add]
    by_cases he : e = .dmaTick
    · subst he
      obtain ⟨a, ha, hahead⟩ := waiting_tick cb hc hwait
      have htransfers : s.transfers .dmaTick = [a] := congrArg Option.toList ha
      rw [htransfers, List.countP_cons_of_pos rfl, List.count_singleton]
      split at hahead
      · rename_i hself
        rw [if_pos (by rw [hself, beq_self_eq_true]), Nat.mul_one]
        omega
      · omega
    · have hplain := isTick_of_ne he
      rw [List.countP_cons_of_neg (by rw [hplain]; exact Bool.false_ne_true)]
      rw [rrNext_step hcb s he] at hafter
      omega

/-- A channel that is ready with the right of way at every tick of a run gets at least every
`dmaNumChannels`-th transfer of it, whatever is called in between. -/
theorem channel_gets_its_share (hcb : cb.KeepsSeat) (hc : c < dmaNumChannels) {es : List ChipCall}
    (hrun : Run.Along (step cb) (Waiting c) s es) :
    es.countP ChipCall.isTick / dmaNumChannels ≤
      (Run.collect (step cb) transfers s es).count c := by
  have hpaid := ticks_le hcb hc hrun
  have hahead : RoundRobin.ahead dmaNumChannels s.dma.rrNext c < dmaNumChannels :=
    RoundRobin.ahead_lt hc
  refine Nat.lt_succ_iff.mp ((Nat.div_lt_iff_lt_mul (Nat.zero_lt_of_lt hc)).mpr ?_)
  rw [Nat.succ_mul, Nat.mul_comm]
  omega

end Chip
end PioSim

namespace PioSim.Chip

local instance rivalsPlatform : Platform := ⟨.rp2040⟩

instance (c : ℕ) (s : Chip) (e : ChipCall) : Decidable (s.Waiting c e) :=
  match e with
  | .dmaTick => inferInstanceAs (Decidable (_ = _ ∧ (_ = _ ∨ _ = _)))
  | .pio _ | .poke _ _ | .op _ | .startChannelMask _ | .channelConfigure .. => isTrue trivial

/-- Channels 3 and 7 copy words, unpaced. -/
def rivalCopies : Chip :=
  run Callback.idle ⟨World.initial, Dma.init [], fun _ => 0⟩
    [.channelConfigure 3 (DmaConfig.default 3) (.mem 16) (.mem 32) 20 true,
      .channelConfigure 7 (DmaConfig.default 7) (.mem 20) (.mem 48) 20 true]

/-- A write to memory and a round of ticks. -/
def round : List ChipCall := .poke 100 1 :: List.replicate 12 .dmaTick

theorem channel_gets_its_share_rivals :
    round.countP ChipCall.isTick / 12 ≤
      (Run.collect (step Callback.idle) transfers rivalCopies round).count 7 := by
  have hwaiting : Run.Along (step Callback.idle) (Waiting 7) rivalCopies round := by decide +kernel
  exact channel_gets_its_share (fun _ _ _ => rfl) (by decide) hwaiting

end PioSim.Chip
