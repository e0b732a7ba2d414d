import PioSim.PioChip
import PioSim.RegisterFile
import PioSim.Lib.Round

/-!
# Capturing a stream

A DMA channel set up on the RX FIFO of a state machine records what the machine pushes. In one tick
the machine pushes at most one word, and the bus, which runs after the blocks, takes it out in the
same tick. Whatever the program does, the recording is complete, in order and in place until the
channel has its count, and the machine never finds its FIFO full before.
-/

namespace PioSim

variable [Platform]

/-! ### One word a tick -/

namespace Sm

/-- From `s` to `s'` at most one word was pushed. -/
def PushesOne (s s' : Sm) : Prop := ∃ l : List Word, l.length ≤ 1 ∧ s'.pushed = s.pushed ++ l

section
omit [Platform]

theorem PushesOne.of_same {s s' : Sm} (h : s'.pushed = s.pushed) : s.PushesOne s' :=
  ⟨[], Nat.zero_le _, h.trans (List.append_nil _).symm⟩

theorem PushesOne.of_receipts {s s' : Sm} (h : s'.receipts = s.receipts) : s.PushesOne s' :=
  .of_same (congrArg Prod.snd h)

/-- Only what was pushed before and after matters. -/
theorem PushesOne.congr {s s' t t' : Sm} (h : s.PushesOne s') (hs : t.pushed = s.pushed)
    (hs' : t'.pushed = s'.pushed) : t.PushesOne t' := by
  unfold PushesOne
  rw [hs, hs']
  exact h

theorem pushesOne_isrDrain (s : Sm) : s.PushesOne (s.isrDrain.getD s) := by
  cases h : s.isrDrain with
  | none => exact .of_same rfl
  | some s' =>
    obtain ⟨rx, -, rfl⟩ := isrDrain_eq_some h
    exact ⟨[s.isr], Nat.le_refl 1, rfl⟩

end

theorem pushesOne_execIn (s : Sm) (src : Word) (count : ℕ) :
    s.PushesOne (s.execIn src count).1 := by
  unfold execIn
  dsimp only
  split_ifs
  · exact .of_same rfl
  · exact (pushesOne_isrDrain (s.inShift src count)).congr rfl rfl
  · exact .of_same rfl

theorem pushesOne_push (s : Sm) (ifFull block : Bool) : s.PushesOne (s.push ifFull block).1 := by
  unfold push
  dsimp only
  split_ifs
  · exact .of_same rfl
  · exact .of_same rfl
  · exact .of_same rfl
  · exact pushesOne_isrDrain s

omit [Platform] in
theorem pushed_backgroundAutopull (s : Sm) : s.backgroundAutopull.pushed = s.pushed := by
  rcases s.backgroundAutopull_eq with h | ⟨v, tx, h⟩
  · rw [h]
  · rw [h]

end Sm

namespace World

variable {w : World} {b : BlockAddr} {i : Fin 4}

theorem pushesOne_runOperation (w : World) (b : BlockAddr) (i : Fin 4) (op : Operation ℕ) :
    (w.sm b i).PushesOne ((w.runOperation b i op).world.sm b i) := by
  cases op with
  | «in» src count =>
    rw [runOperation, sm_setSm_self]
    exact Sm.pushesOne_execIn _ _ count
  | push ifFull block =>
    rw [runOperation, sm_setSm_self]
    exact Sm.pushesOne_push _ ifFull block
  | movToRxfifo k =>
    rw [runOperation, sm_setSm_self]
    unfold Sm.movToRxfifo
    split <;> exact .of_same rfl
  | movFromRxfifo k =>
    rw [runOperation, sm_setSm_self]
    unfold Sm.movFromRxfifo
    split <;> exact .of_same rfl
  | jmp cond target =>
    rw [runOperation, sm_setSm_self]
    exact .of_receipts (Sm.receipts_test _ _ cond)
  | wait polarity source index ref =>
    rw [runOperation, sm_wait]
    exact .of_same rfl
  | out dest count =>
    unfold runOperation
    dsimp only
    split
    · rw [sm_setSm_self]
      exact .of_same rfl
    · have hout := receipts_outTo (w.setSm b i ((w.sm b i).outShift count)) b i
        ((w.sm b i).outValue count) count dest
      rw [sm_setSm_self] at hout
      exact .of_receipts hout
  | pull ifEmpty block =>
    rw [runOperation, sm_setSm_self]
    exact .of_receipts (Sm.receipts_pull _ ifEmpty block)
  | mov dest op src => exact .of_receipts (receipts_movTo w b i _ dest)
  | irq clr waits index ref =>
    rw [runOperation, sm_irq]
    exact .of_same rfl
  | set dest value => exact .of_receipts (receipts_setTo w b i _ dest)

theorem pushesOne_execOne (w : World) (b : BlockAddr) (i : Fin 4) (insn : Insn) :
    (w.sm b i).PushesOne ((w.execOne b i insn).world.sm b i) := by
  obtain ⟨r, hr⟩ := sm_applySideset (w.execInsn b i insn).world b i
    ((w.sm b i).decodeDelaySideset (delayField insn))
  have hop := pushesOne_runOperation w b i (decode insn)
  rw [← execInsn_eq] at hop
  refine hop.congr rfl ?_
  rw [execOne, hr]

/-- In a tick of its block a state machine pushes at most one word. -/
theorem pushesOne_tickSms (w : World) (b : BlockAddr) (i : Fin 4) :
    (w.sm b i).PushesOne ((w.tickSms b).sm b i) := by
  have hcycle : ((w.cycleWorld b i).sm b i).pushed = (w.sm b i).pushed := by
    rw [sm_cycleWorld]
    rfl
  cases hdue : w.due b i with
  | false =>
    obtain ⟨n, h⟩ := sm_tickSms_of_not_due hdue
    rw [h]
    exact .of_same rfl
  | true =>
    by_cases hdelay : (w.sm b i).delay = 0
    · have hone := pushesOne_execOne (w.presentWorld b i) b i (w.getInstruction b i)
      generalize hr : (w.presentWorld b i).execOne b i (w.getInstruction b i) = r at hone
      rw [sm_tickSms_of_presents hdue hdelay hr]
      obtain ⟨p, hp⟩ := stickyReassert_eq (if r.committed
        then (r.world.sm b i).retire (w.sm b i).execPending r.setPc r.delay
        else { r.world.sm b i with stalled := true })
      rw [hp]
      refine hone.congr ?_ ?_
      · rw [sm_presentWorld, Sm.pushed_backgroundAutopull, hcycle]
      · unfold Sm.retire
        split
        · split <;> rfl
        · rfl
    · rw [sm_tickSms_of_delay hdue (Nat.pos_of_ne_zero hdelay)]
      obtain ⟨p, hp⟩ := stickyReassert_eq { Sm.backgroundAutopull ((w.cycleWorld b i).sm b i) with
        delay := (w.sm b i).delay - 1 }
      rw [hp]
      exact .of_same ((Sm.pushed_backgroundAutopull _).trans hcycle)

/-- The devices leave the FIFOs of state machine `(b, i)` and the members of the groups alone. -/
def Aloof (onTick : BlockAddr → World → World) (b : BlockAddr) (i : Fin 4) : Prop :=
  ∀ a w, ((onTick a w).sm b i).queues = (w.sm b i).queues ∧
    ∀ g, ((onTick a w).groups g).blk = (w.groups g).blk

/-- From `w` to `v` state machine `(b, i)` queued the words `l`, and the groups kept their
members. -/
structure Deposits (b : BlockAddr) (i : Fin 4) (l : List Word) (w v : World) : Prop where
  wf : (v.sm b i).QueuesWf
  pushed : (v.sm b i).pushed = (w.sm b i).pushed ++ l
  waiting : (v.sm b i).rx.contents = (w.sm b i).rx.contents ++ l
  members : ∀ g, (v.groups g).blk = (w.groups g).blk

variable {u v : World} {onTick : BlockAddr → World → World}

theorem Deposits.of_same (hwf : (w.sm b i).QueuesWf)
    (hqueues : (v.sm b i).queues = (w.sm b i).queues)
    (hmembers : ∀ g, (v.groups g).blk = (w.groups g).blk) : Deposits b i [] w v := by
  refine ⟨hwf.of_queues hqueues, ?_, ?_, hmembers⟩
  · rw [List.append_nil]
    exact congrArg (·.2.2.2.2) hqueues
  · rw [List.append_nil]
    exact congrArg (fun x => x.2.1.contents) hqueues

theorem Deposits.trans {l l' : List Word} (h : Deposits b i l w v) (h' : Deposits b i l' v u) :
    Deposits b i (l ++ l') w u where
  wf := h'.wf
  pushed := by rw [h'.pushed, h.pushed, List.append_assoc]
  waiting := by rw [h'.waiting, h.waiting, List.append_assoc]
  members g := (h'.members g).trans (h.members g)

/-- A call that does not let the state machine run deposits nothing. -/
theorem deposits_step (hwf : (w.sm b i).QueuesWf) {c : Call} (hc : ¬ c.Drives b i)
    (hfix : c.writesFixtures = false) :
    Deposits b i [] w (w.step c) :=
  .of_same hwf (keeps_step (g := Sm.queues) ⟨fun _ _ => rfl, fun _ _ => rfl, fun _ _ => rfl⟩ hc)
    fun g => congrArg (fun x => (x.2 g).1) (fixtures_step w hfix)

/-- A tick of the block deposits what was pushed, at most one word. -/
theorem deposits_tickSms (hwf : (w.sm b i).QueuesWf) :
    ∃ l : List Word, l.length ≤ 1 ∧ Deposits b i l w (w.tickSms b) := by
  obtain ⟨l, hl, hpushed⟩ := pushesOne_tickSms w b i
  obtain ⟨hwf', -, fresh, -, hfresh, -, hrx⟩ := (tickSms_flows w b b i).ledger hwf
  obtain rfl : fresh = l := List.append_cancel_left (hfresh.symm.trans hpushed)
  refine ⟨fresh, hl, hwf', hpushed, hrx.symm, fun g => ?_⟩
  exact congrArg (fun x => (x.2 g).1) (fixtures_step w (c := .tickSms b) rfl)

/-- The hook and the end of a tick deposit nothing. -/
theorem deposits_rest (hwf : (w.sm b i).QueuesWf) (hook : Aloof onTick b i) (a : BlockAddr) :
    Deposits b i [] w ((onTick a w).tickEnd a) := by
  obtain ⟨hqueues, hmembers⟩ := hook a w
  have hhook : Deposits b i [] w (onTick a w) := .of_same hwf hqueues hmembers
  refine hhook.trans (.of_same hhook.wf ?_ fun g => ?_)
  · exact keeps_step (g := Sm.queues) (c := .tickEnd a)
      ⟨fun _ _ => rfl, fun _ _ => rfl, fun _ _ => rfl⟩ id
  · exact congrArg (fun x => (x g).1) (fixtures_tickEnd (onTick a w) a).2.1

/-- In a tick of the group a state machine queues at most one word. -/
theorem deposits_groupTick (g : GroupAddr) (hwf : (w.sm b i).QueuesWf)
    (hnodup : (w.groups g).blk.Nodup)
    (hook : Aloof onTick b i) : ∃ l : List Word, l.length ≤ 1 ∧
      Deposits b i l w (w.groupTick g onTick) := by
  have hopen : Deposits b i [] w (w.groupOpen g) := deposits_step (c := .groupOpen g) hwf id rfl
  have hothers : ∀ l, ∀ a ∈ (w.groups g).blk, a ≠ b → ∀ v, Deposits b i l w v →
      Deposits b i l w (v.pioSimTick a (onTick a)) := by
    intro l a _ ha v hv
    have htick : Deposits b i [] v (v.tickSms a) := deposits_step (c := .tickSms a) hv.wf ha rfl
    have hall := hv.trans (htick.trans (deposits_rest htick.wf hook a))
    rwa [List.append_nil, List.append_nil] at hall
  have hown : ∀ v, Deposits b i [] w v →
      ∃ l : List Word, l.length ≤ 1 ∧ Deposits b i l w (v.pioSimTick b (onTick b)) := by
    intro v hv
    obtain ⟨l, hl, htick⟩ := deposits_tickSms hv.wf
    have hall := hv.trans (htick.trans (deposits_rest htick.wf hook b))
    rw [List.nil_append, List.append_nil] at hall
    exact ⟨l, hl, hall⟩
  obtain ⟨l, hl, hticked⟩ : ∃ l : List Word, l.length ≤ 1 ∧
      Deposits b i l w
          ((w.groups g).blk.foldl (fun v a => v.pioSimTick a (onTick a)) (w.groupOpen g)) := by
    by_cases hb : b ∈ (w.groups g).blk
    · refine Round.one_turn (Q := fun v => ∃ l : List Word, l.length ≤ 1 ∧ Deposits b i l w v)
        hnodup hb (hothers [])
        hown (fun a ha hne v hv => ?_) hopen
      obtain ⟨l, hl, hv⟩ := hv
      exact ⟨l, hl, hothers l a ha hne v hv⟩
    · exact ⟨[], Nat.zero_le _, Round.keeps (hothers []) hb hopen⟩
  have hend : Deposits b i [] _ (w.groupTick g onTick) :=
    deposits_step (c := .groupEnd g) hticked.wf id rfl
  have hall := hticked.trans hend
  rw [List.append_nil] at hall
  exact ⟨l, hl, hall⟩

end World

/-! ### The recording channel -/

/-- A channel that records `n` words pushed by a state machine in the memory from `w` on. -/
structure Recorder where
  b : BlockAddr
  i : Fin 4
  ch : ℕ
  k : ℕ
  sm : ℕ
  w : ℕ
  n : ℕ
  ctrl : DmaConfig
  ch_lt : ch < dmaNumChannels
  sm_idx : smIdx sm = i
  increments : ctrl.incrWrite = true
  ringless : ctrl.ringSize = 0
  paced : ctrl.treqSel = treqForce ∨ k < numPio ∧ sm < 4 ∧ ctrl.treqSel = dreqPioRx k sm
  unchained : ctrl.chainTo = ch
  placed : 0 < w
  wanted : 0 < n
  counted : n < 2 ^ 32

namespace Recorder

open Chip

variable (r : Recorder) {s s₀ t : Chip} {got : List Word} {m : ℕ} {cb : Callback}

def bytes : ℕ := elemBytes r.ctrl.dataSize

/-- The call of `pio_dma_channel_configure` that starts the recording. -/
def start : ChipCall := .channelConfigure r.ch r.ctrl (.mem r.w) (.rxf r.k r.sm)
    (BitVec.ofNat 32 r.n) true

/-- The FIFO is empty, no channel is at work, and the recording one has no hook. -/
structure Clear (s : Chip) : Prop where
  attached : s.dma.pioAt r.k = some r.b
  idle : ∀ x, (s.dma.ch x).busy = false
  hookless : (s.dma.ch r.ch).onComplete = none
  empty : (s.world.sm r.b r.i).rx.contents = []

/-- Of the words `got` pushed since `s₀` the channel has recorded `m`, and the others wait. -/
structure Recorded (s₀ : Chip) (got : List Word) (m : ℕ) (s : Chip) : Prop where
  le : m ≤ r.n
  le_got : m ≤ got.length
  attached : s.dma.pioAt r.k = some r.b
  ctrl : (s.dma.ch r.ch).ctrl = r.ctrl
  enabled : (s.dma.ch r.ch).en = true
  busy : (s.dma.ch r.ch).busy = decide (m < r.n)
  count : (s.dma.ch r.ch).transCount.toNat = r.n - m
  source : (s.dma.ch r.ch).readAddr = .rxf r.k r.sm
  dest : (s.dma.ch r.ch).writeAddr = .mem (r.w + m * r.bytes)
  hookless : (s.dma.ch r.ch).onComplete = none
  alone : ∀ x, x ≠ r.ch → (s.dma.ch x).busy = false
  wf : (s.world.sm r.b r.i).QueuesWf
  pushed : (s.world.sm r.b r.i).pushed = (s₀.world.sm r.b r.i).pushed ++ got
  waiting : (s.world.sm r.b r.i).rx.contents = got.drop m
  members : ∀ g, (s.world.groups g).blk = (s₀.world.groups g).blk
  mem : s.mem = LittleEndian.storeAll s₀.mem r.w r.bytes ((got.take m).map r.ctrl.carry)

variable {r}

/-- Starting the recording triggers its channel alone. -/
theorem step_start (cb : Callback) (s : Chip) :
    s.step cb r.start =
      (s.configured r.ch r.ctrl (.mem r.w) (.rxf r.k r.sm) (BitVec.ofNat 32 r.n)).armed r.ch := by
  have hreload : BitVec.ofNat 32 r.n ≠ 0 := by
    intro hzero
    have hn := congrArg BitVec.toNat hzero
    rw [BitVec.toNat_ofNat, Nat.mod_eq_of_lt r.counted] at hn
    exact absurd hn (Nat.pos_iff_ne_zero.mp r.wanted)
  have hconfigured : s.step cb r.start = (s.configured r.ch r.ctrl (.mem r.w) (.rxf r.k r.sm)
      (BitVec.ofNat 32 r.n)).startChannelMask cb (1#32 <<< chIdx r.ch) := rfl
  rw [hconfigured, chIdx_of_lt r.ch_lt, startChannelMask_bit cb r.ch_lt]
  unfold Chip.trigger configured
  rw [chIdx_of_lt r.ch_lt]
  simp only
  rw [if_neg]
  · rfl
  · simpa only [modifyDma, Dma.record, Dma.ch_modifyCh_self] using hreload

theorem Clear.recorded (cb : Callback) (h : r.Clear s) (hwf : (s.world.sm r.b r.i).QueuesWf) :
    r.Recorded s [] 0 (s.step cb r.start) := by
  have hself : (s.step cb r.start).dma.ch r.ch =
      { s.dma.ch r.ch with
        ctrl := r.ctrl
        writeAddr := .mem r.w
        readAddr := .rxf r.k r.sm
        transCountReload := BitVec.ofNat 32 r.n
        en := true
        transCount := BitVec.ofNat 32 r.n
        busy := true } := by
    rw [step_start]
    unfold armed configured modifyDma
    rw [chIdx_of_lt r.ch_lt]
    simp only [Dma.record, Dma.ch_modifyCh_self]
  have hother : ∀ x, x ≠ r.ch → (s.step cb r.start).dma.ch x = s.dma.ch x := by
    intro x hx
    rw [step_start]
    unfold armed configured modifyDma
    rw [chIdx_of_lt r.ch_lt]
    simp only [Dma.record, Dma.ch_modifyCh_of_ne _ hx]
  have hrest : (s.step cb r.start).world = s.world ∧ (s.step cb r.start).mem = s.mem ∧
      (s.step cb r.start).dma.pio = s.dma.pio := by
    rw [step_start]
    exact ⟨rfl, rfl, rfl⟩
  obtain ⟨hworld, hmem, hpio⟩ := hrest
  exact
    { le := Nat.zero_le _
      le_got := Nat.zero_le _
      attached := (congrFun (Dma.pioAt_congr hpio) r.k).trans h.attached
      ctrl := by rw [hself]
      enabled := by rw [hself]
      busy := by rw [hself, decide_eq_true r.wanted]
      count := by rw [hself, BitVec.toNat_ofNat, Nat.mod_eq_of_lt r.counted, Nat.sub_zero]
      source := by rw [hself]
      dest := by rw [hself, Nat.zero_mul, Nat.add_zero]
      hookless := by rw [hself]; exact h.hookless
      alone := fun x hx => by rw [hother x hx]; exact h.idle x
      wf := hworld ▸ hwf
      pushed := by rw [hworld, List.append_nil]
      waiting := by rw [hworld, h.empty]; rfl
      members := by rw [hworld]; exact fun _ => rfl
      mem := hmem }

/-- What the blocks deposit is pushed and waits. -/
theorem Recorded.deposit {l : List Word} {v : World} (h : r.Recorded s₀ got m s)
    (hv : World.Deposits r.b r.i l s.world v) : r.Recorded s₀ (got ++ l) m { s with world := v } :=
  { h with
    le_got := h.le_got.trans (by rw [List.length_append]; exact Nat.le_add_right _ _)
    wf := hv.wf
    pushed := by rw [hv.pushed, h.pushed, List.append_assoc]
    waiting := by rw [hv.waiting, h.waiting, List.drop_append_of_le_length h.le_got]
    members g := (hv.members g).trans (h.members g)
    mem := by rw [h.mem, List.take_append_of_le_length h.le_got] }

/-- What leaves the channels, the blocks and the memory alone leaves the recording alone. -/
theorem Recorded.congr (h : r.Recorded s₀ got m s) (hch : t.dma.ch = s.dma.ch)
    (hpio : t.dma.pio = s.dma.pio)
    (hworld : t.world = s.world) (hmem : t.mem = s.mem) : r.Recorded s₀ got m t where
  le := h.le
  le_got := h.le_got
  attached := (congrFun (Dma.pioAt_congr hpio) r.k).trans h.attached
  ctrl := hch ▸ h.ctrl
  enabled := hch ▸ h.enabled
  busy := hch ▸ h.busy
  count := hch ▸ h.count
  source := hch ▸ h.source
  dest := hch ▸ h.dest
  hookless := hch ▸ h.hookless
  alone := hch ▸ h.alone
  wf := hworld ▸ h.wf
  pushed := hworld ▸ h.pushed
  waiting := hworld ▸ h.waiting
  members := hworld ▸ h.members
  mem := hmem.trans h.mem

theorem Recorded.clocked (h : r.Recorded s₀ got m s) : r.Recorded s₀ got m s.clocked := by
  obtain ⟨tm, htm⟩ := timersTick_eq s.dma
  refine h.congr (Chip.ch_clocked s) ?_ rfl rfl
  unfold Chip.clocked modifyDma
  rw [htm]

/-! #### When the channel is ready -/

theorem Recorded.dreqRx_iff (h : r.Recorded s₀ got m s) :
    s.dreqRx r.k r.sm = true ↔ m < got.length := by
  have hlen := congrArg List.length h.waiting
  rw [Fifo.length_contents, List.length_drop] at hlen
  unfold dreqRx
  rw [h.attached, Option.elim_some, r.sm_idx, Fifo.isEmpty, hlen]
  have hle := h.le_got
  simp
  omega

/-- The request of an RX FIFO is told from the timers and names its FIFO. -/
theorem treqReady_rx {k sm : ℕ} (hk : k < numPio) (hsm : sm < 4) (s : Chip) {chan : DmaChannel}
    (h : chan.ctrl.treqSel = dreqPioRx k sm) : s.treqReady chan = s.dreqRx k sm := by
  have hk : k < 3 := Nat.lt_of_lt_of_le hk (by unfold numPio; split <;> decide)
  have hvalue : dreqPioRx k sm = k * 8 + 4 + sm := Nat.mod_eq_of_lt (by omega)
  have htimer : timerOf (k * 8 + 4 + sm) = none := by
    unfold timerOf
    rw [if_neg]
    intro hle
    have hlow : 0x3B ≤ k * 8 + 4 + sm := hle.1
    omega
  have hforce : k * 8 + 4 + sm ≠ treqForce := by
    unfold treqForce
    omega
  unfold treqReady
  dsimp only
  rw [h, hvalue, if_neg hforce, htimer]
  dsimp only
  rw [if_pos (by omega), show (k * 8 + 4 + sm) / 8 =
    k by omega, show (k * 8 + 4 + sm) % 4 = sm by omega]

/-- The channel is ready while it has something to record and a word to record. -/
theorem Recorded.ready_iff (h : r.Recorded s₀ got m s) : s.channelReady r.ch = true ↔ m < r.n ∧
    m < got.length := by
  have hdest : s.destReady (s.dma.ch r.ch).writeAddr = true := by
    rw [h.dest]
    have hplaced := r.placed
    exact bne_iff_ne.mpr (by omega)
  have hsource : s.sourceReady (s.dma.ch r.ch).readAddr = s.dreqRx r.k r.sm := by
    rw [h.source]
    rfl
  have htreq : s.dreqRx r.k r.sm = true → s.treqReady (s.dma.ch r.ch) = true := by
    intro hdreq
    rcases r.paced with hforce | ⟨hk, hsm, htreq⟩
    · unfold treqReady
      dsimp only
      rw [h.ctrl, if_pos hforce]
    · rw [treqReady_rx hk hsm s (h.ctrl ▸ htreq)]
      exact hdreq
  unfold channelReady endpointsReady
  dsimp only
  rw [h.enabled, h.busy, hdest, hsource, Bool.true_and, Bool.and_true, Bool.and_eq_true,
    Bool.and_eq_true, decide_eq_true_eq]
  rw [h.dreqRx_iff] at htreq ⊢
  exact ⟨fun hall => ⟨hall.1.1, hall.2⟩, fun hall => ⟨⟨hall.1, htreq hall.2⟩, hall.2⟩⟩

/-- The only channel at work is served when it is ready. -/
theorem served_of_alone {c : ℕ} (hc : c < dmaNumChannels)
    (halone : ∀ x, x ≠ c → (s.dma.ch x).busy = false) :
    s.served = if s.channelReady c = true then some c else none := by
  have honly : ∀ x, s.served = some x → x = c := fun x hx => by
    by_contra hne
    exact absurd ((halone x hne).symm.trans (busy_of_ready (ready_of_served hx).2))
      Bool.false_ne_true
  split
  · rename_i hready
    have hsome : s.served.isSome = true := by
      have hpass : (s.firstReady (s.dma.ch c).ctrl.highPriority).isSome = true :=
        RoundRobin.scan_isSome hc (by simp [hready])
      unfold served
      rw [Option.isSome_or]
      cases hp : (s.dma.ch c).ctrl.highPriority <;> simp [hp ▸ hpass]
    obtain ⟨x, hx⟩ := Option.isSome_iff_exists.mp hsome
    rw [hx, honly x hx]
  · rename_i hready
    cases hx : s.served with
    | none => rfl
    | some x => exact absurd (honly x hx ▸ (ready_of_served hx).2) hready

/-! #### One word -/

/-- The recording of the next word. -/
theorem Recorded.moved (h : r.Recorded s₀ got m s) (hm : m < r.n) (hgot : m < got.length) :
    r.Recorded s₀ got (m + 1) (s.moved r.ch) := by
  have hready := h.ready_iff.mpr ⟨hm, hgot⟩
  obtain ⟨v, w, hgives, hvalue, htakes⟩ := carried_completes (endpoints_of_ready hready)
  have hworld := world_moved s r.ch
  have hmem := mem_moved s r.ch
  rw [h.source] at hgives
  rw [h.dest] at htakes
  generalize (s.carried r.ch).world = w' at htakes hworld
  generalize (s.carried r.ch).mem = m' at htakes hmem
  cases htakes with
  | mem _ _ =>
  cases hgives with
  | rxf _ _ b v rx hb hpop =>
  obtain rfl : b = r.b := Option.some.inj (hb.symm.trans h.attached)
  rw [r.sm_idx] at hpop hworld
  have hget : (s.world.sm r.b r.i).get = ({ s.world.sm r.b r.i with rx := rx }, some v) := by
    unfold Sm.get
    rw [hpop]
  obtain ⟨hwf, -, fresh, -, hfresh, -, hcontents⟩ := hget ▸ h.wf.get
  obtain rfl : fresh = [] := List.append_cancel_left (hfresh.symm.trans (List.append_nil _).symm)
  -- the word taken is the next one of those that wait
  rw [List.append_nil, h.waiting, List.drop_eq_getElem_cons hgot] at hcontents
  obtain ⟨rfl, hrest⟩ := List.cons.inj hcontents
  have hsm : (s.moved r.ch).world.sm r.b r.i = { s.world.sm r.b r.i with rx := rx } := by
    rw [hworld, World.sm_modifySm_self]
  have hch := ch_moved_self s r.ch
  have hpred : ((s.dma.ch r.ch).transCount - 1).toNat = r.n - (m + 1) := by
    rw [toNat_pred (by rw [h.count]; omega), h.count]
    omega
  refine
    { le := hm
      le_got := hgot
      attached := (congrFun (Dma.pioAt_congr (pio_moved s r.ch)) r.k).trans h.attached
      ctrl := by rw [hch]; exact h.ctrl
      enabled := by rw [hch]; exact h.enabled
      busy := ?_
      count := by rw [hch]; exact hpred
      source := ?_
      dest := ?_
      hookless := by rw [hch]; exact h.hookless
      alone := fun x hx => by rw [ch_moved_of_ne s hx]; exact h.alone x hx
      wf := by rw [hsm]; exact hwf
      pushed := by rw [hsm]; exact h.pushed
      waiting := by rw [hsm]; exact hrest.symm
      members := by rw [hworld]; exact h.members
      mem := ?_ }
  · have hbusy : (s.dma.ch r.ch).advance.busy =
        if (s.dma.ch r.ch).transCount - 1 = 0 then false else (s.dma.ch r.ch).busy := rfl
    have hzero : (s.dma.ch r.ch).transCount - 1 = 0 ↔ m + 1 = r.n := by
      rw [← BitVec.toNat_inj, hpred]
      simp
      omega
    rw [hch, hbusy, h.busy]
    by_cases hlast : m + 1 = r.n
    · rw [if_pos (hzero.mpr hlast), decide_eq_false (by omega)]
    · rw [if_neg (hzero.not.mpr hlast), decide_eq_true hm, decide_eq_true (by omega)]
  · rw [hch]
    change dmaAdvance (s.dma.ch r.ch).readAddr _ _ _ _ = _
    rw [h.source]
    rfl
  · rw [hch]
    change dmaAdvance (s.dma.ch r.ch).writeAddr _ _ _ _ = _
    rw [h.dest, h.ctrl, dmaAdvance_mem _ _ _ r.ringless, r.increments, if_pos rfl, Nat.succ_mul,
      Nat.add_assoc]
    rfl
  · have hcarry : s.moveValue r.ch = r.ctrl.carry got[m] := by
      rw [hvalue, width, h.ctrl]
      rfl
    have hwidth : s.width r.ch = r.bytes := by rw [width, h.ctrl, bytes]
    rw [hmem, hcarry, hwidth, h.mem, List.take_succ_eq_append_getElem hgot, List.map_append,
      List.map_singleton, LittleEndian.storeAll_concat, List.length_map,
      List.length_take_of_le h.le_got]

/-- The completion of the recording calls no hook and starts no other channel. -/
theorem Recorded.complete (h : r.Recorded s₀ got m s) :
    r.Recorded s₀ got m (s.complete cb r.ch) := by
  have hflag : r.Recorded s₀ got m (s.raiseIrq cb r.ch) := by
    unfold Chip.raiseIrq
    dsimp only
    split
    · exact h.congr rfl rfl rfl rfl
    · rename_i fn hfn
      rw [chIdx_of_lt r.ch_lt] at hfn
      cases h.hookless.symm.trans hfn
  have hafter :
      r.Recorded s₀ got m (if (s.dma.ch r.ch).ctrl.irqQuiet then s else s.raiseIrq cb r.ch) := by
    split
    · exact h
    · exact hflag
  unfold Chip.complete
  dsimp only
  rw [hafter.ctrl, r.unchained, if_neg fun hne => hne.1 rfl]
  exact hafter

/-- A cycle of the bus records a word if one waits and one is wanted. -/
theorem Recorded.dmaTick (cb : Callback) (h : r.Recorded s₀ got m s) :
    r.Recorded s₀ got (if m < r.n ∧ m < got.length then m + 1 else m) (s.step cb .dmaTick) := by
  have hserved := served_of_alone r.ch_lt h.clocked.alone
  by_cases hready : m < r.n ∧ m < got.length
  · rw [if_pos (h.clocked.ready_iff.mpr hready)] at hserved
    rw [step_dmaTick_of_served hserved, if_pos hready]
    have hmoved := h.clocked.moved hready.1 hready.2
    have htransfer : r.Recorded s₀ got (m + 1) (s.clocked.transferOne cb r.ch) := by
      rw [transferOne_eq]
      split
      · exact hmoved.complete
      · exact hmoved
    exact htransfer.congr rfl rfl rfl rfl
  · rw [if_neg (h.clocked.ready_iff.not.mpr hready)] at hserved
    rw [step_dmaTick_of_idle hserved, if_neg hready]
    exact h.clocked

end Recorder

namespace PioChip

variable (cb : Callback) {onTick : BlockAddr → World → World}

variable {s₀ : Chip} {c : PioChip} {r : Recorder} {got : List Word}

/-- In a tick of the chip at most one word is pushed, and it is recorded if it is wanted. -/
theorem recorded_tick (h : r.Recorded s₀ got (min got.length r.n) c.chip)
    (hnodup : (s₀.world.groups c.grp).blk.Nodup)
    (hook : World.Aloof onTick r.b r.i) : ∃ l : List Word, l.length ≤ 1 ∧
      r.Recorded s₀ (got ++ l) (min (got ++ l).length r.n) (c.tick cb onTick).chip := by
  obtain ⟨l, hl, hticked⟩ :=
    World.deposits_groupTick c.grp h.wf (by rw [h.members]; exact hnodup) hook
  refine ⟨l, hl, ?_⟩
  have hbus := (h.deposit hticked).dmaTick cb
  have hcount :
    (if min got.length r.n < r.n ∧ min got.length r.n < (got ++ l).length then
    min got.length r.n + 1
      else min got.length r.n) = min (got ++ l).length r.n := by
    rw [List.length_append]
    split <;> omega
  rwa [hcount] at hbus

/-- After every tick of the chip all that was pushed is recorded, as far as it is wanted. -/
theorem recorded_run {onTick : ℕ → BlockAddr → World → World} (h : r.Recorded s₀ [] 0 c.chip)
    (hnodup : (s₀.world.groups c.grp).blk.Nodup) (hook : ∀ k, World.Aloof (onTick k) r.b r.i)
    (ticks : ℕ) : (c.run cb onTick ticks).grp = c.grp ∧
      ∃ got : List Word, got.length ≤ ticks ∧
        r.Recorded s₀ got (min got.length r.n) (c.run cb onTick ticks).chip := by
  induction ticks with
  | zero =>
    refine ⟨rfl, [], Nat.le_refl 0, ?_⟩
    rw [List.length_nil, Nat.zero_min]
    exact h
  | succ n ih =>
    obtain ⟨hgrp, got, hlen, hgot⟩ := ih
    obtain ⟨l, hl, hnext⟩ := recorded_tick cb hgot (hgrp ▸ hnodup) (hook n)
    refine ⟨hgrp, got ++ l, ?_, hnext⟩
    rw [List.length_append]
    omega

/-- A channel without a completion hook, started on the RX FIFO of a state machine with the FIFO
empty and no other channel at work, misses nothing: after any number of ticks of the chip, whatever
the program and the devices do, the memory from `w` on holds the elements of the words pushed since
then, of the size and byte order of the channel, in order and without a gap, until the channel has
its count. Only what comes after that waits in the FIFO, and no other byte of the memory changes. -/
theorem capture_loses_nothing (c : PioChip) (r : Recorder) (cb : Callback)
    (onTick : ℕ → BlockAddr → World → World)
    (ticks : ℕ) (hwired : c.chip.world.Wired c.ptrs c.grp) (hreach : c.chip.world.Reachable)
    (hclear : r.Clear c.chip) (hook : ∀ k, World.Aloof (onTick k) r.b r.i) :
    let d := ((c.step cb (.call r.start)).run cb onTick ticks).chip
    ∃ got : List Word, got.length ≤ ticks ∧
      (d.world.sm r.b r.i).pushed = (c.chip.world.sm r.b r.i).pushed ++ got ∧
      (d.world.sm r.b r.i).rx.contents = got.drop r.n ∧
      (d.dma.ch r.ch).transCount.toNat = r.n - got.length ∧
      (d.dma.ch r.ch).busy = decide (got.length < r.n) ∧
      (∀ j (hj : j < got.length), j < r.n → ∀ q < r.bytes,
        d.mem (r.w + j * r.bytes + q) = LittleEndian.byte (r.ctrl.carry got[j]) q) ∧
      ∀ a, a < r.w ∨ r.w + min got.length r.n * r.bytes ≤ a → d.mem a = c.chip.mem a := by
  intro d
  have hnodup : (c.chip.world.groups c.grp).blk.Nodup := hwired.members ▸ c.nodup_ptrs
  have hstart := hclear.recorded cb (hreach.queuesWf r.b r.i)
  obtain ⟨-, got, hlen, h⟩ := recorded_run cb (c := c.step cb (.call r.start)) hstart
    hnodup hook ticks
  have hcount : (got.take (min got.length r.n)).length = min got.length r.n :=
    List.length_take_of_le h.le_got
  refine ⟨got, hlen, h.pushed, ?_, ?_, ?_, fun j hj hn q hq => ?_, fun a ha => ?_⟩
  · rcases Nat.le_total got.length r.n with hle | hle
    · rw [h.waiting, Nat.min_eq_left hle, List.drop_length, List.drop_eq_nil_of_le hle]
    · rw [h.waiting, Nat.min_eq_right hle]
  · rw [h.count]
    omega
  · rw [h.busy]
    exact decide_eq_decide.mpr (by omega)
  · have hall : j < ((got.take (min got.length r.n)).map r.ctrl.carry).length := by
      rw [List.length_map, hcount]
      omega
    rw [h.mem, LittleEndian.storeAll_of_mem _ _ hall hq, List.getElem_map, List.getElem_take]
  · rw [h.mem, LittleEndian.storeAll_of_notMem]
    rwa [List.length_map, hcount]

end PioChip
end PioSim

namespace PioSim.PioChip

local instance recordingPlatform : Platform := ⟨.rp2350⟩

/-- State machine 0 of block 0 runs `mov isr, ~null` and `push noblock`. -/
def pushing : List Call := [.block 0 (.load 0 [0xA0CB, 0x8000]), .setEnabled 0 0 true]

theorem smIdx_zero : smIdx 0 = 0 := rfl

/-- Channel 0 records two words from address 16 on. -/
def recording : DmaConfig := { DmaConfig.default 0 with incrRead := false, incrWrite := true }

def recorder : Recorder :=
  ⟨0, 0, 0, 0, 0, 16, 2, recording,
    by decide, smIdx_zero, rfl, rfl, .inl rfl, rfl, by decide, Nat.two_pos, by decide⟩

def rolling : PioChip :=
  { board.init with chip := { board.init.chip with world := board.init.chip.world.run pushing } }

theorem capture_loses_nothing_rolling :
    let d := ((rolling.step .idle (.call recorder.start)).run .idle (fun _ _ w => w) 6).chip
    ∃ got : List Word, got.length ≤ 6 ∧
      (d.world.sm recorder.b recorder.i).pushed =
        (rolling.chip.world.sm recorder.b recorder.i).pushed ++ got ∧
      (d.world.sm recorder.b recorder.i).rx.contents = got.drop recorder.n ∧
      (d.dma.ch recorder.ch).transCount.toNat = recorder.n - got.length ∧
      (d.dma.ch recorder.ch).busy = decide (got.length < recorder.n) ∧
      (∀ j (hj : j < got.length), j < recorder.n → ∀ q < recorder.bytes,
        d.mem (recorder.w + j * recorder.bytes + q) =
          LittleEndian.byte (recorder.ctrl.carry got[j]) q) ∧
      ∀ a, a < recorder.w ∨ recorder.w + min got.length recorder.n * recorder.bytes ≤ a →
        d.mem a = rolling.chip.mem a := by
  have hinit :=
    (World.wired_init World.initial 0 board.nodup_ptrs (Nat.le_of_eq board.length_ptrs)).1
  have hspares : ∀ call ∈ pushing, call.SparesChip board.ptrs 0 := by
    simp [pushing, Call.SparesChip]
  have hwired : rolling.chip.world.Wired board.ptrs 0 := (hinit.run hspares).1
  have hreach : rolling.chip.world.Reachable :=
    ⟨board.ptrs.map .init ++ .groupInitShared 0 board.ptrs :: pushing, rfl⟩
  have hclear : recorder.Clear rolling.chip := by
    refine ⟨?_, fun _ => ?_, ?_, ?_⟩
    · decide +kernel
    · rfl
    · rfl
    · rfl
  have hook : ∀ _ : ℕ, World.Aloof (fun _ w => w) recorder.b recorder.i :=
    fun _ _ _ => ⟨rfl, fun _ => rfl⟩
  exact capture_loses_nothing rolling recorder .idle (fun _ _ w => w) 6 hwired hreach hclear hook

end PioSim.PioChip
