import PioSim.Capture
import PioSim.Lib.Until

/-!
# Waiting for a FIFO

`pio_sim_run_until_rx` and `pio_sim_run_until_tx_empty` tick a block until a FIFO of one of its
state machines has what the host waits for. While the device leaves the FIFOs alone, the first
returns with the next word the state machine pushed and with no other, and the second when it has
taken all that was queued.
-/

namespace PioSim

theorem Fifo.isEmpty_iff {f : Fifo} : f.isEmpty = true ↔ f.contents = [] := by
  rw [isEmpty, beq_iff_eq, ← List.length_eq_zero_iff, length_contents]

variable [Platform]

namespace World

/-- `pio_sim_run_until_rx`; `onTick` is what the device hook does. -/
def runUntilRx (w : World) (b : BlockAddr) (sm : ℕ) (onTick : World → World)
    (maxTicks : ℕ) : World × ℕ :=
  Until.loop (fun v => !(v.sm b (smIdx sm)).rx.isEmpty) (·.pioSimTick b onTick) maxTicks w

/-- `pio_sim_run_until_tx_empty`; `onTick` is what the device hook does. -/
def runUntilTxEmpty (w : World) (b : BlockAddr) (sm : ℕ) (onTick : World → World)
    (maxTicks : ℕ) : World × ℕ :=
  Until.loop (fun v => (v.sm b (smIdx sm)).tx.isEmpty) (·.pioSimTick b onTick) maxTicks w

def ticked (w : World) (b : BlockAddr) (onTick : World → World) (k : ℕ) : World :=
  (·.pioSimTick b onTick)^[k] w

/-- The device leaves the FIFOs of state machine `(b, i)` alone. -/
def HandsOff (onTick : World → World) (b : BlockAddr) (i : Fin 4) : Prop :=
  ∀ w, ((onTick w).sm b i).queues = (w.sm b i).queues

variable {w v : World} {b : BlockAddr} {i : Fin 4} {sm : ℕ} {onTick : World → World}

/-- In a tick of the block the FIFOs pass words on to and from the state machine, at most one of
them pushed. -/
theorem ledger_pioSimTick (hwf : (w.sm b i).QueuesWf) (hook : HandsOff onTick b i) :
    ((w.pioSimTick b onTick).sm b i).QueuesWf ∧ (w.sm b i).Ledger [] []
    ((w.pioSimTick b onTick).sm b i) ∧
      (w.sm b i).PushesOne ((w.pioSimTick b onTick).sm b i) := by
  obtain ⟨hwf', hledger⟩ := (tickSms_flows w b b i).ledger hwf
  have hrest : ((w.pioSimTick b onTick).sm b i).queues = ((w.tickSms b).sm b i).queues := by
    rw [pioSimTick, sm_tickEnd]
    exact hook _
  exact ⟨hwf'.of_queues hrest, hledger.trans (.of_queues hrest),
    (pushesOne_tickSms w b i).congr rfl (congrArg (·.2.2.2.2) hrest)⟩

/-- From `w` to `v` the state machine pushed at most one word, which waits in a FIFO that was
empty. -/
def PushedOnce (b : BlockAddr) (i : Fin 4) (w v : World) : Prop :=
  (v.sm b i).QueuesWf ∧ ∃ l : List Word, l.length ≤ 1 ∧ (v.sm b i).pushed = (w.sm b i).pushed ++ l ∧
    (v.sm b i).rx.contents = l

theorem PushedOnce.tick (h : PushedOnce b i w v) (hook : HandsOff onTick b i)
    (hempty : (v.sm b i).rx.isEmpty = true) :
    PushedOnce b i w (v.pioSimTick b onTick) := by
  obtain ⟨hwf, l, -, hpushed, hwaiting⟩ := h
  obtain ⟨hwf', ⟨popped, fresh, -, hfresh, -, hrx⟩, m, hm, hone⟩ := ledger_pioSimTick hwf hook
  have hnone : l = [] := by
    rw [← hwaiting]
    exact Fifo.isEmpty_iff.mp hempty
  obtain rfl : fresh = m := List.append_cancel_left (hfresh.symm.trans hone)
  rw [hwaiting, hnone] at hrx
  rw [hpushed, hnone, List.append_nil] at hfresh
  exact ⟨hwf', fresh, hm, hfresh, hrx.symm⟩

/-- From `w` to `v` the state machine took words off the front of its TX FIFO, and nothing else
happened to it. -/
def PulledSome (b : BlockAddr) (i : Fin 4) (w v : World) : Prop :=
  (v.sm b i).QueuesWf ∧ ∃ l : List Word, (v.sm b i).pulled = (w.sm b i).pulled ++ l ∧
    (w.sm b i).tx.contents = l ++ (v.sm b i).tx.contents

theorem PulledSome.tick (h : PulledSome b i w v) (hook : HandsOff onTick b i) :
    PulledSome b i w (v.pioSimTick b onTick) := by
  obtain ⟨hwf, l, hpulled, hleft⟩ := h
  obtain ⟨hwf', ⟨popped, fresh, hpopped, -, htx, -⟩, -⟩ := ledger_pioSimTick hwf hook
  rw [List.append_nil] at htx
  refine ⟨hwf', l ++ popped, ?_, ?_⟩
  · rw [hpopped, hpulled, List.append_assoc]
  · rw [hleft, htx, List.append_assoc]

/-- `pio_sim_run_until_rx` ends at the first tick after which a word waits, and with that word
alone. -/
theorem runUntilRx_first (hwf : (w.sm b (smIdx sm)).QueuesWf) (hook : HandsOff onTick b (smIdx sm))
    (maxTicks : ℕ) :
    let i := smIdx sm
    let rx := w.runUntilRx b sm onTick maxTicks
    rx.2 ≤ maxTicks ∧ rx.1 = w.ticked b onTick rx.2 ∧
      (∀ k < rx.2, ((w.ticked b onTick k).sm b i).rx.contents = []) ∧
      ((w.sm b i).rx.contents = [] → ∃ l : List Word, (rx.1.sm b i).pushed =
        (w.sm b i).pushed ++ l ∧
        (rx.1.sm b i).rx.contents = l ∧ l.length ≤ 1 ∧ (rx.2 < maxTicks → l.length = 1)) := by
  intro i rx
  obtain ⟨hle, horbit, hpassed, hend⟩ := Until.loop_first (fun v : World => !(v.sm b i).rx.isEmpty)
    (·.pioSimTick b onTick) maxTicks w
  refine ⟨hle, horbit, fun k hk => ?_, fun hnone => ?_⟩
  · have hwaits := hpassed k hk
    rw [Bool.not_eq_false'] at hwaits
    exact Fifo.isEmpty_iff.mp hwaits
  · have hstart : PushedOnce b i w w := ⟨hwf, [], Nat.zero_le 1, (List.append_nil _).symm, hnone⟩
    obtain ⟨-, l, hl, hpushed, hwaiting⟩ : PushedOnce b i w rx.1 :=
      Until.loop_keeps (fun v hv h => h.tick hook (Bool.not_eq_eq_eq_not.mp hv)) maxTicks hstart
    refine ⟨l, hpushed, hwaiting, hl, fun hlt => ?_⟩
    have hstop := hend hlt
    have hsome : ¬ (rx.1.sm b i).rx.isEmpty = true := by
      rw [Bool.not_eq_true]
      exact Bool.not_eq_eq_eq_not.mp hstop
    rw [Fifo.isEmpty_iff, hwaiting] at hsome
    exact Nat.le_antisymm hl (List.length_pos_iff.mpr hsome)

/-- `pio_sim_run_until_tx_empty` ends at the first tick after which nothing is queued, and all of it
was taken. -/
theorem runUntilTxEmpty_takes (hwf : (w.sm b (smIdx sm)).QueuesWf)
    (hook : HandsOff onTick b (smIdx sm))
    (maxTicks : ℕ) :
    let i := smIdx sm
    let tx := w.runUntilTxEmpty b sm onTick maxTicks
    tx.2 ≤ maxTicks ∧ tx.1 = w.ticked b onTick tx.2 ∧
      (∀ k < tx.2, ((w.ticked b onTick k).sm b i).tx.contents ≠ []) ∧
      ∃ l : List Word, (tx.1.sm b i).pulled = (w.sm b i).pulled ++ l ∧
        (w.sm b i).tx.contents = l ++ (tx.1.sm b i).tx.contents ∧
        (tx.2 < maxTicks → l = (w.sm b i).tx.contents) := by
  intro i tx
  obtain ⟨hle, horbit, hpassed, hend⟩ := Until.loop_first (fun v : World => (v.sm b i).tx.isEmpty)
    (·.pioSimTick b onTick) maxTicks w
  have hstart : PulledSome b i w w := ⟨hwf, [], (List.append_nil _).symm, rfl⟩
  obtain ⟨-, l, hpulled, hleft⟩ : PulledSome b i w tx.1 :=
    Until.loop_keeps (fun v _ h => h.tick hook) maxTicks hstart
  refine ⟨hle, horbit, fun k hk hnone => ?_, l, hpulled, hleft, fun hlt => ?_⟩
  · have hwaits := Fifo.isEmpty_iff.mpr hnone
    exact Bool.false_ne_true ((hpassed k hk).symm.trans hwaits)
  · have hstop : (tx.1.sm b i).tx.contents = [] := Fifo.isEmpty_iff.mp (hend hlt)
    rw [hstop, List.append_nil] at hleft
    exact hleft.symm

/-- From any reachable state and with a device that leaves the FIFOs alone, `pio_sim_run_until_rx`
runs for the ticks up to the first after which a word waits, if there are that many, and then that
word, which it finds alone in a FIFO that was empty before, is the only one pushed.
`pio_sim_run_until_tx_empty` runs up to the first tick after which the FIFO is empty, and what the
state machine has then taken is what was queued, in order. -/
theorem waits_for_fifos (w : World) (hw : w.Reachable) (b : BlockAddr) (sm : ℕ)
    (onTick : World → World)
    (hook : HandsOff onTick b (smIdx sm)) (maxTicks : ℕ) :
    let i := smIdx sm
    let rx := w.runUntilRx b sm onTick maxTicks
    let tx := w.runUntilTxEmpty b sm onTick maxTicks
    (rx.2 ≤ maxTicks ∧ rx.1 = w.ticked b onTick rx.2 ∧
      (∀ k < rx.2, ((w.ticked b onTick k).sm b i).rx.contents = []) ∧
      ((w.sm b i).rx.contents = [] → ∃ l : List Word, (rx.1.sm b i).pushed =
        (w.sm b i).pushed ++ l ∧
        (rx.1.sm b i).rx.contents = l ∧ l.length ≤ 1 ∧ (rx.2 < maxTicks → l.length = 1))) ∧
    (tx.2 ≤ maxTicks ∧ tx.1 = w.ticked b onTick tx.2 ∧
      (∀ k < tx.2, ((w.ticked b onTick k).sm b i).tx.contents ≠ []) ∧
      ∃ l : List Word, (tx.1.sm b i).pulled = (w.sm b i).pulled ++ l ∧
        (w.sm b i).tx.contents = l ++ (tx.1.sm b i).tx.contents ∧
        (tx.2 < maxTicks → l = (w.sm b i).tx.contents)) := by
  intro i rx tx
  have hwf := hw.queuesWf b i
  exact ⟨runUntilRx_first hwf hook maxTicks, runUntilTxEmpty_takes hwf hook maxTicks⟩

end World
end PioSim

namespace PioSim.World

local instance answeringPlatform : Platform := ⟨.rp2350⟩

/-- State machine 0 of block 0 runs `pull block`, `mov isr, osr` and `push block`, and one word is
queued for it. -/
def answering : World :=
  initial.run [.init 0, .block 0 (.load 0 [0x80A0, 0xA0C7, 0x8020]), .setEnabled 0 0 true,
    .sm 0 0 (.put 7)]

theorem waits_for_fifos_answering :
    let i := smIdx 0
    let rx := answering.runUntilRx 0 0 id 10
    let tx := answering.runUntilTxEmpty 0 0 id 10
    (rx.2 ≤ 10 ∧ rx.1 = answering.ticked 0 id rx.2 ∧
      (∀ k < rx.2, ((answering.ticked 0 id k).sm 0 i).rx.contents = []) ∧
      ((answering.sm 0 i).rx.contents = [] →
        ∃ l : List Word, (rx.1.sm 0 i).pushed = (answering.sm 0 i).pushed ++ l ∧
        (rx.1.sm 0 i).rx.contents = l ∧ l.length ≤ 1 ∧ (rx.2 < 10 → l.length = 1))) ∧
    (tx.2 ≤ 10 ∧ tx.1 = answering.ticked 0 id tx.2 ∧
      (∀ k < tx.2, ((answering.ticked 0 id k).sm 0 i).tx.contents ≠ []) ∧
      ∃ l : List Word, (tx.1.sm 0 i).pulled = (answering.sm 0 i).pulled ++ l ∧
        (answering.sm 0 i).tx.contents = l ++ (tx.1.sm 0 i).tx.contents ∧
        (tx.2 < 10 → l = (answering.sm 0 i).tx.contents)) :=
  waits_for_fifos answering ⟨_, rfl⟩ 0 0 id (fun _ => rfl) 10

end PioSim.World
