import PioSim.DmaTransfer
import PioSim.Lib.Rate

/-!
# Pacing timers

A pacing timer accumulates its numerator at every tick and latches a request whenever the
accumulator reaches the denominator, which it then loses. While the numerator is at most the
denominator this is an exact rate. Above it the accumulator gains a fixed excess at every tick, in
32 bits: a tick is missed when the wrapped sum falls below the denominator, and until then every
tick latches. A latched request paces at most one transfer of all the channels that wait for the
timer.
-/

namespace PioSim

def DmaTimer.latches (tm : DmaTimer) : Bool :=
  decide (tm.den ≠ 0) && decide (tm.den ≤ u32 (tm.accum + tm.num))

/-- What a timer's requests depend on: its fraction and its accumulator. -/
def DmaTimer.phase (tm : DmaTimer) : ℕ × ℕ × ℕ := (tm.num, tm.den, tm.accum)

theorem DmaTimer.credit_tick (tm : DmaTimer) : tm.tick.credit = (tm.credit || tm.latches) := by
  unfold tick latches
  by_cases hden : tm.den = 0
  · simp [hden]
  · rw [if_neg hden]
    by_cases hle : tm.den ≤ u32 (tm.accum + tm.num)
    · simp [hden, hle]
    · simp [hle]

theorem DmaTimer.phase_tick {tm : DmaTimer} (hden : tm.den ≠ 0) : tm.tick.phase =
    (tm.num, tm.den, if tm.latches then u32 (tm.accum + tm.num) - tm.den
      else u32 (tm.accum + tm.num)) := by
  unfold tick latches phase
  rw [if_neg hden]
  by_cases hle : tm.den ≤ u32 (tm.accum + tm.num)
  · simp [hden, hle]
  · simp [hle]

def ChipCall.SetsFraction (t : ℕ) : ChipCall → Prop
  | .op (.timerSetFraction timer _ _) => timer % dmaNumTimers = t
  | _ => False

def Callback.SparesTimers (cb : Callback) : Prop := ∀ fn ch s, (cb fn ch s).dma.timer = s.dma.timer

theorem Dma.timer_timersTick (d : Dma) {t : ℕ} (ht : t < dmaNumTimers) :
    d.timersTick.timer t = (d.timer t).tick := by
  unfold dmaNumTimers at ht
  interval_cases t <;> simp [timersTick, dmaNumTimers, List.range_succ, setTimer]

namespace Chip
variable [Platform] {cb : Callback} {s : Chip} {t : ℕ}

/-- The ticks of timer `t` in a call, by whether they latch a request. -/
def latch (t : ℕ) (s : Chip) : ChipCall → List Bool
  | .dmaTick => [(s.dma.timer t).latches]
  | _ => []

/-- The transfers of a call that timer `t` paces. -/
def paced (t : ℕ) (s : Chip) (x : ChipCall) : List ℕ :=
  (s.transfers x).filter fun c => timerOf (s.dma.ch c).ctrl.treqSel == some t

omit [Platform] in
theorem unfinished_timers (hcb : cb.SparesTimers) : Unfinished cb fun s => s.dma.timer where
  hook := hcb
  raised _ _ _ := rfl
  triggered _ _ := rfl
  chained _ _ _ := rfl
  armed _ _ := rfl

theorem timer_moveElem (s : Chip) (c : ℕ) : (s.moveElem c).dma.timer = s.dma.timer := by
  obtain ⟨_, _, hdma⟩ := dma_moveElem s c
  rw [hdma]

/-- A transfer uses up the request of the timer that paces its channel and leaves the others. -/
theorem timer_transferOne (hcb : cb.SparesTimers) (s : Chip) (c : ℕ) :
    (s.transferOne cb c).dma.timer t =
      if timerOf (s.dma.ch c).ctrl.treqSel = some t then { s.dma.timer t with credit := false }
      else s.dma.timer t := by
  have hmoved : (s.moved c).dma.timer t = ((s.moveElem c).consumeCredit
      (s.dma.ch c).ctrl.treqSel).dma.timer t := rfl
  rw [congrFun ((unfinished_timers hcb).transferOne s c) t, hmoved, consumeCredit]
  cases htimer : timerOf (s.dma.ch c).ctrl.treqSel with
  | none => rw [timer_moveElem, if_neg (by simp)]
  | some k =>
    dsimp only [modifyDma, Dma.setTimer]
    rw [timer_moveElem]
    by_cases hk : k = t
    · subst hk
      rw [Function.update_self, if_pos rfl]
    · rw [Function.update_of_ne (Ne.symm hk), if_neg (by simpa using hk)]

theorem timer_op (d : Dma) {o : DmaOp} (ho : ¬ (ChipCall.op o).SetsFraction t) :
    (o.apply d).timer t = d.timer t := by
  cases o with
  | timerSetFraction timer numerator denominator => exact Function.update_of_ne (Ne.symm ho) _ _
  | channelAbortMask mask =>
    refine congrFun (List.foldlRecOn (motive := fun e : Dma => e.timer = d.timer) _ _ rfl ?_) t
    intro e he x _
    split <;> exact he
  | snifferEnable ch mode force => cases force <;> rfl
  | _ => rfl

/-- A call other than a tick leaves a timer that it does not set. -/
theorem timer_step (hcb : cb.SparesTimers) {x : ChipCall} (hx : ¬ x.SetsFraction t)
    (htick : x ≠ .dmaTick) :
    (s.step cb x).dma.timer t = s.dma.timer t := by
  have hkept := unfinished_timers hcb
  cases x with
  | pio call => rfl
  | poke p v => rfl
  | op o => exact timer_op s.dma hx
  | startChannelMask mask => exact congrFun (hkept.startChannelMask s mask) t
  | channelConfigure ch cfg writeAddr readAddr transCount trigger =>
    rw [step, channelConfigure]
    split
    · exact congrFun (hkept.startChannelMask _ _) t
    · rfl
  | dmaTick => exact absurd rfl htick

/-- A tick advances a timer, and a transfer that the timer paces then uses up its request. -/
theorem timer_dmaTick (hcb : cb.SparesTimers) (ht : t < dmaNumTimers) (s : Chip) :
    (s.step cb .dmaTick).dma.timer t =
      if s.paced t .dmaTick = [] then (s.dma.timer t).tick
      else { (s.dma.timer t).tick with credit := false } := by
  have hclocked : s.clocked.dma.timer t = (s.dma.timer t).tick := Dma.timer_timersTick s.dma ht
  cases hserved : s.clocked.served with
  | none =>
    rw [step_dmaTick_of_idle hserved, paced, transfers, hserved]
    exact hclocked
  | some c =>
    rw [step_dmaTick_of_served hserved, paced, transfers, hserved, Option.toList_some,
      List.filter_singleton]
    have htransfer := timer_transferOne (t := t) hcb s.clocked c
    rw [ch_clocked, hclocked] at htransfer
    refine htransfer.trans ?_
    by_cases hpaced : timerOf (s.dma.ch c).ctrl.treqSel = some t
    · simp [hpaced]
    · rw [if_neg hpaced, beq_eq_false_iff_ne.mpr hpaced]
      exact (if_pos rfl).symm

/-- A transfer that a timer paces finds its request latched. -/
theorem credit_of_paced (ht : t < dmaNumTimers) (h : s.paced t .dmaTick ≠ []) :
    (s.dma.timer t).tick.credit = true := by
  obtain ⟨c, hc⟩ := List.exists_mem_of_ne_nil _ h
  rw [paced, List.mem_filter, mem_transfers_dmaTick, beq_iff_eq] at hc
  obtain ⟨hserved, htimer⟩ := hc
  have hready := (ready_of_served hserved).2
  rw [channelReady, ch_clocked] at hready
  simp only [Bool.and_eq_true] at hready
  have htreq := hready.1.2
  have hforce : (s.dma.ch c).ctrl.treqSel ≠ treqForce := by
    intro he
    have hnone : timerOf treqForce = none := by decide
    rw [he, hnone] at htimer
    cases htimer
  rw [treqReady, if_neg hforce, htimer] at htreq
  exact (congrArg DmaTimer.credit (Dma.timer_timersTick s.dma ht)).symm.trans htreq

/-! ### Transfers against requests -/

/-- The transfers paced so far and a request still pending are no more than the requests latched. -/
def Covered (t : ℕ) (s : Chip) (requests transfers : ℕ) : Prop :=
  transfers + (if (s.dma.timer t).credit then 1 else 0) ≤ requests

theorem length_paced_le (t : ℕ) (s : Chip) : (s.paced t .dmaTick).length ≤ 1 := by
  refine (List.length_filter_le _ _).trans ?_
  rw [transfers]
  cases s.clocked.served with
  | none => exact Nat.zero_le 1
  | some c => exact le_rfl

/-- Every call keeps the transfers covered. -/
theorem Covered.step (hcb : cb.SparesTimers) (ht : t < dmaNumTimers) {requests transfers : ℕ}
    (h : Covered t s requests transfers) {x : ChipCall} (hx : ¬ x.SetsFraction t) :
    Covered t (s.step cb x) (requests + (s.latch t x).count true)
      (transfers + (s.paced t x).length) := by
  by_cases htick : x = .dmaTick
  · subst htick
    have hcredit := (s.dma.timer t).credit_tick
    have hlength := length_paced_le t s
    have hlatch : (s.latch t .dmaTick).count true = if (s.dma.timer t).latches then 1 else 0 := by
      rw [latch]
      cases (s.dma.timer t).latches <;> rfl
    have hpending : transfers + (if (s.dma.timer t).tick.credit then 1 else 0) ≤
        requests + (s.latch t .dmaTick).count true := by
      unfold Covered at h
      rw [hcredit, hlatch]
      cases hc : (s.dma.timer t).credit <;> cases (s.dma.timer t).latches <;>
        simp [hc] at h ⊢ <;> omega
    unfold Covered
    rw [timer_dmaTick hcb ht]
    by_cases hpaced : s.paced t .dmaTick = []
    · rw [if_pos hpaced, hpaced]
      exact hpending
    · rw [if_neg hpaced]
      rw [credit_of_paced ht hpaced, if_pos rfl] at hpending
      dsimp only
      rw [if_neg Bool.false_ne_true]
      omega
  · have hlatch : s.latch t x = [] := by
      cases x with
      | dmaTick => exact absurd rfl htick
      | _ => rfl
    have hpaced : s.paced t x = [] := by
      cases x with
      | dmaTick => exact absurd rfl htick
      | _ => rfl
    unfold Covered
    rw [timer_step hcb hx htick, hlatch, hpaced]
    exact h

/-! ### The train of requests -/

/-- Every call advances a timer that it does not set by the ticks it makes. -/
theorem phase_step (hcb : cb.SparesTimers) (ht : t < dmaNumTimers) {x : ChipCall}
    (hx : ¬ x.SetsFraction t) :
    (s.latch t x = [] ∧ ((s.step cb x).dma.timer t).phase = (s.dma.timer t).phase) ∨
      (s.latch t x = [(s.dma.timer t).latches] ∧
        ((s.step cb x).dma.timer t).phase = (s.dma.timer t).tick.phase) := by
  by_cases htick : x = .dmaTick
  · subst htick
    refine .inr ⟨rfl, ?_⟩
    rw [timer_dmaTick hcb ht]
    split <;> rfl
  · refine .inl ⟨?_, ?_⟩
    · cases x with
      | dmaTick => exact absurd rfl htick
      | _ => rfl
    · rw [timer_step hcb hx htick]

/-- A timer at most at full rate, after the ticks in `l`: it has run as the rate accumulator. -/
structure AtRate (t num den : ℕ) (s : Chip) (l : List Bool) : Prop where
  train : l = Rate.train num den l.length
  phase : (s.dma.timer t).phase = (num, den, num * l.length % den)

theorem AtRate.step (hcb : cb.SparesTimers) (ht : t < dmaNumTimers) {num den : ℕ} (hpos : 0 < den)
    (hle : num ≤ den) (hden : den < 65536) {l : List Bool} (h : AtRate t num den s l) {x : ChipCall}
    (hx : ¬ x.SetsFraction t) : AtRate t num den (s.step cb x) (l ++ s.latch t x) := by
  obtain ⟨hlatch, hphase⟩ | ⟨hlatch, hphase⟩ := phase_step (s := s) hcb ht hx
  · rw [hlatch, List.append_nil]
    exact ⟨h.train, hphase.trans h.phase⟩
  · obtain ⟨hnum, hrest⟩ := Prod.mk.inj h.phase
    obtain ⟨hperiod, haccum⟩ := Prod.mk.inj hrest
    have hmod := Nat.mod_lt (num * l.length) hpos
    have hsum : u32 (num * l.length % den + num) = num * l.length % den + num :=
      Nat.mod_eq_of_lt (by omega)
    have hpulse : (s.dma.timer t).latches = Rate.pulses num den (num * l.length % den) := by
      rw [DmaTimer.latches, hperiod, haccum, hnum, Rate.pulses, hsum]
      simp [hpos.ne']
    have hlength : (l ++ s.latch t x).length = l.length + 1 := by
      rw [hlatch, List.length_append]; rfl
    refine ⟨?_, ?_⟩
    · rw [hlength, Rate.train_succ, ← h.train, hlatch, hpulse]
    · rw [hphase, DmaTimer.phase_tick (by omega), hlength, ← Rate.next_mod hle hpos, hnum,
        hperiod, hpulse, haccum, Rate.next, hsum]

/-- The wrapped sum that tick `k` compares, if every tick so far has latched. -/
def excess (num den k : ℕ) : ℕ := (k * (num - den) + num) % 4294967296

/-- A timer at full rate or above, after the ticks in `l`: all of them have latched exactly when no
wrapped sum fell below the denominator, and then the accumulator has gained the excess of each. -/
structure AboveRate (t num den : ℕ) (s : Chip) (l : List Bool) : Prop where
  all_iff : (∀ b ∈ l, b = true) ↔ ∀ k < l.length, den ≤ excess num den k
  fraction : ((s.dma.timer t).num, (s.dma.timer t).den) = (num, den)
  accum : (∀ b ∈ l, b = true) → (s.dma.timer t).accum = l.length * (num - den) % 4294967296

theorem AboveRate.step (hcb : cb.SparesTimers) (ht : t < dmaNumTimers) {num den : ℕ}
    (hpos : 0 < den)
    (hle : den ≤ num) {l : List Bool} (h : AboveRate t num den s l) {x : ChipCall}
    (hx : ¬ x.SetsFraction t) : AboveRate t num den (s.step cb x) (l ++ s.latch t x) := by
  obtain ⟨hnum, hden⟩ := Prod.mk.inj h.fraction
  obtain ⟨hlatch, hphase⟩ | ⟨hlatch, hphase⟩ := phase_step (s := s) hcb ht hx
  · obtain ⟨hnum', hrest⟩ := Prod.mk.inj hphase
    obtain ⟨hden', haccum'⟩ := Prod.mk.inj hrest
    rw [hlatch, List.append_nil]
    exact ⟨h.all_iff, by rw [hnum', hden', h.fraction], fun hall => haccum'.trans (h.accum hall)⟩
  · rw [DmaTimer.phase_tick (by omega)] at hphase
    obtain ⟨hnum', hrest⟩ := Prod.mk.inj hphase
    obtain ⟨hden', haccum'⟩ := Prod.mk.inj hrest
    have hsum (hall : ∀ b ∈ l, b = true) :
        u32 ((s.dma.timer t).accum + (s.dma.timer t).num) = excess num den l.length := by
      rw [h.accum hall, hnum, u32, excess, Nat.mod_add_mod]
    have hpulse (hall : ∀ b ∈ l, b = true) :
        (s.dma.timer t).latches = decide (den ≤ excess num den l.length) := by
      rw [DmaTimer.latches, hsum hall, hden]
      simp [hpos.ne']
    have hall_append : (∀ b ∈ l ++ s.latch t x, b = true) ↔
        (∀ b ∈ l, b = true) ∧ (s.dma.timer t).latches = true := by
      rw [hlatch]
      simp [List.mem_append, or_imp, forall_and]
    have hlength : (l ++ s.latch t x).length = l.length + 1 := by
      rw [hlatch, List.length_append]; rfl
    refine ⟨?_, by rw [hnum', hden', h.fraction], fun hall => ?_⟩
    · rw [hall_append, hlength, Nat.forall_lt_succ_right, ← h.all_iff]
      refine and_congr_right fun hall => ?_
      rw [hpulse hall, decide_eq_true_iff]
    · obtain ⟨hbefore, hnow⟩ := hall_append.mp hall
      have hge : den ≤ excess num den l.length := by
        rw [hpulse hbefore] at hnow
        exact of_decide_eq_true hnow
      rw [haccum', hnow, if_pos rfl, hsum hbefore, hlength, hden, Nat.succ_mul]
      unfold excess at hge ⊢
      generalize l.length * (num - den) = gained at *
      omega

/-! ### Runs -/

theorem Covered.run (hcb : cb.SparesTimers) (ht : t < dmaNumTimers) {requests transfers : ℕ}
    (h : Covered t s requests transfers) {xs : List ChipCall} (hxs : ∀ x ∈ xs, ¬ x.SetsFraction t) :
    Covered t (s.run cb xs) (requests + (Run.collect (Chip.step cb) (latch t) s xs).count true)
      (transfers + (Run.collect (Chip.step cb) (paced t) s xs).length) := by
  induction xs generalizing s requests transfers with
  | nil => exact h
  | cons x xs ih =>
    have hstep := h.step hcb ht (hxs x List.mem_cons_self)
    have hrest := ih hstep fun y hy => hxs y (List.mem_cons_of_mem _ hy)
    simp only [Run.collect, List.count_append, List.length_append, ← Nat.add_assoc]
    exact hrest

theorem aboveRate_run (hcb : cb.SparesTimers) (ht : t < dmaNumTimers) {num den : ℕ} (hpos : 0 < den)
    (hle : den ≤ num) (h : AboveRate t num den s []) {xs : List ChipCall}
    (hxs : ∀ x ∈ xs, ¬ x.SetsFraction t) :
    AboveRate t num den (s.run cb xs) (Run.collect (Chip.step cb) (latch t) s xs) :=
  Run.invariant_collect (J := AboveRate t num den) (l := [])
    (fun _ _ _ hl hx => hl.step hcb ht hpos hle hx) h (Run.along_of_mem hxs s)

def setFraction (cb : Callback) (s : Chip) (timer num den : ℕ) : Chip :=
  s.step cb (.op (.timerSetFraction timer num den))

theorem timer_setFraction (timer num den : ℕ) :
    (s.setFraction cb timer num den).dma.timer (timer % dmaNumTimers) = ⟨num, den, 0, false⟩ :=
  Function.update_self _ _ _

/-- From its fraction on a pacing timer latches a request on exactly the ticks that its rate gives
it, and paces no more transfers than that, as long as no sum wraps below the denominator. -/
theorem requests_exact_iff (hcb : cb.SparesTimers) (s : Chip) (timer : ℕ) (num den : BitVec 16)
    (hden : den ≠ 0) {xs : List ChipCall}
    (hxs : ∀ x ∈ xs, ¬ x.SetsFraction (timer % dmaNumTimers)) :
    let start := s.setFraction cb timer num.toNat den.toNat
    let ticks := Run.collect (Chip.step cb) (latch (timer % dmaNumTimers)) start xs
    let transfers := Run.collect (Chip.step cb) (paced (timer % dmaNumTimers)) start xs
    (ticks.count true = min ticks.length (ticks.length * num.toNat / den.toNat) ∧
        transfers.length ≤ ticks.count true) ↔
      (num.toNat ≤ den.toNat ∨ ∀ k < ticks.length, den.toNat ≤ excess num.toNat den.toNat k) := by
  intro start ticks transfers
  have ht : timer % dmaNumTimers < dmaNumTimers := Nat.mod_lt _ (by decide)
  have htimer : start.dma.timer (timer % dmaNumTimers) = ⟨num.toNat, den.toNat, 0, false⟩ :=
    timer_setFraction timer num.toNat den.toNat
  have hpos : 0 < den.toNat := by
    refine Nat.pos_of_ne_zero fun hzero => hden ?_
    exact BitVec.eq_of_toNat_eq hzero
  have hcovered : transfers.length ≤ ticks.count true := by
    have hstart : Covered (timer % dmaNumTimers) start 0 0 := by
      unfold Covered
      rw [htimer]
      exact Nat.le_refl 0
    have hend := hstart.run hcb ht hxs
    unfold Covered at hend
    rw [Nat.zero_add, Nat.zero_add] at hend
    exact (Nat.le_add_right _ _).trans hend
  rw [and_iff_left hcovered]
  by_cases hle : num.toNat ≤ den.toNat
  · have hrate : AtRate (timer % dmaNumTimers) num.toNat den.toNat (start.run cb xs) ticks :=
      Run.invariant_collect (J := AtRate (timer % dmaNumTimers) num.toNat den.toNat) (l := [])
        (fun _ _ _ hl hx => hl.step hcb ht hpos hle den.isLt hx)
        ⟨rfl, by rw [htimer]; simp [DmaTimer.phase]⟩ (Run.along_of_mem hxs start)
    have hcount := Rate.count_train hle hpos ticks.length
    rw [← hrate.train, Nat.mul_comm] at hcount
    have hslow : ticks.length * num.toNat / den.toNat ≤ ticks.length :=
      Nat.div_le_of_le_mul (by rw [Nat.mul_comm]; exact Nat.mul_le_mul_right _ hle)
    exact ⟨fun _ => .inl hle, fun _ => by rw [hcount, Nat.min_eq_right hslow]⟩
  · have habove := aboveRate_run hcb ht hpos (Nat.le_of_not_le hle) (s := start)
      ⟨by simp, by rw [htimer], fun _ => by rw [htimer]; simp⟩ hxs
    have hfast : ticks.length ≤ ticks.length * num.toNat / den.toNat :=
      (Nat.le_div_iff_mul_le hpos).mpr (Nat.mul_le_mul_left _ (Nat.le_of_not_le hle))
    rw [Nat.min_eq_left hfast, or_iff_right hle, ← habove.all_iff, List.count_eq_length]
    exact ⟨fun h b hb => (h b hb).symm, fun h b hb => (h b hb).symm⟩

omit [Platform] in
/-- A quarter rate over eight ticks. -/
theorem requests_exact_quarter :
    letI : Platform := ⟨.rp2350⟩
    let start := setFraction Callback.idle ⟨World.initial, Dma.init [], fun _ => 0⟩ 0 1 4
    let ticks := Run.collect (Chip.step Callback.idle) (latch 0) start (List.replicate 8 .dmaTick)
    let transfers := Run.collect (Chip.step Callback.idle) (paced 0) start
      (List.replicate 8 .dmaTick)
    ticks.count true = min ticks.length (ticks.length * 1 / 4) ∧
        transfers.length ≤ ticks.count true := by
  let P : Platform := ⟨.rp2350⟩
  have hidle : Callback.idle.SparesTimers := fun _ _ _ => rfl
  refine (requests_exact_iff hidle ⟨World.initial, Dma.init [], fun _ => 0⟩ 0 1 4 (by decide)
    fun x hx => ?_).mpr (.inl (by decide))
  rw [List.eq_of_mem_replicate hx]
  exact not_false

theorem length_latch_replicate (n : ℕ) :
    (Run.collect (Chip.step cb) (latch t) s (List.replicate n .dmaTick)).length = n := by
  induction n generalizing s with
  | zero => rfl
  | succ n ih =>
    rw [List.replicate_succ, Run.collect, List.length_append, ih, Nat.add_comm]
    rfl

omit [Platform] in
/-- At twice the rate of its ticks a timer misses one when its accumulator wraps. -/
theorem full_rate_misses_tick :
    letI : Platform := ⟨.rp2350⟩
    let start := setFraction Callback.idle ⟨World.initial, Dma.init [], fun _ => 0⟩ 0 40000 20000
    let ticks := Run.collect (Chip.step Callback.idle) (latch 0) start
      (List.replicate 214748 .dmaTick)
    ticks.length = 214748 ∧ ticks.count true < min ticks.length (ticks.length * 40000 / 20000) := by
  let P : Platform := ⟨.rp2350⟩
  intro start ticks
  have hlength : ticks.length = 214748 := length_latch_replicate 214748
  have hidle : Callback.idle.SparesTimers := fun _ _ _ => rfl
  have hbegun : AboveRate 0 40000 20000 start [] := ⟨by simp, rfl, fun _ => rfl⟩
  have habove :
      AboveRate 0 40000 20000 (start.run Callback.idle (List.replicate 214748 .dmaTick)) ticks := by
    refine aboveRate_run hidle (by decide) (by decide) (by decide) hbegun fun x hx => ?_
    rw [List.eq_of_mem_replicate hx]
    exact not_false
  have hmissed : ¬ ∀ b ∈ ticks, b = true := by
    intro hall
    have hfalls := habove.all_iff.mp hall 214747 (by
      rw [hlength]
      decide)
    exact absurd hfalls (by decide)
  have hlt : ticks.count true < ticks.length := by
    refine lt_of_le_of_ne List.count_le_length fun he => hmissed fun b hb => ?_
    exact (List.count_eq_length.mp he b hb).symm
  refine ⟨hlength, ?_⟩
  rw [hlength] at hlt ⊢
  exact hlt

end Chip

end PioSim
