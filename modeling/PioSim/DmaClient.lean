import PioSim.DmaLedger
import PioSim.DmaRing
import PioSim.Queues
import Mathlib.Data.List.Forall2

/-!
# The controller as a client

The controller reaches the PIO blocks through `pio_sim_sm_put` and `pio_sim_sm_get` alone. However
its channels and hooks are set up, what happens to the blocks is a run of their calls: those of the
host and its hooks, and between them the FIFO calls of the elements the history says were moved. A
FIFO that only the controller fills or empties hands on its words in order.
-/

namespace PioSim

variable [Platform]

/-- The calls of a read of an endpoint, and of a write. -/
def DmaAddr.gets (pioAt : ℕ → Option BlockAddr) : DmaAddr → List Call
  | .rxf k sm => (pioAt k).toList.map fun b => .sm b sm .get
  | _ => []

def DmaAddr.puts (pioAt : ℕ → Option BlockAddr) (v : Word) : DmaAddr → List Call
  | .txf k sm => (pioAt k).toList.map fun b => .sm b sm (.put v)
  | _ => []

/-- The calls that carry a moved element between the blocks and the bus. -/
def DmaEvent.fifoCalls (pioAt : ℕ → Option BlockAddr) : DmaEvent → List Call
  | .moved _ src dst v => src.gets pioAt ++ dst.puts pioAt v
  | _ => []

/-- The word `v` if it is read from the RX FIFO of state machine `(b, i)`, or written to its TX
FIFO. -/
def DmaAddr.reads (pioAt : ℕ → Option BlockAddr) (b : BlockAddr) (i : Fin 4) (v : Word) :
    DmaAddr → List Word
  | .rxf k sm => if pioAt k = some b ∧ smIdx sm = i then [v] else []
  | _ => []

def DmaAddr.writes (pioAt : ℕ → Option BlockAddr) (b : BlockAddr) (i : Fin 4) (v : Word) :
    DmaAddr → List Word
  | .txf k sm => if pioAt k = some b ∧ smIdx sm = i then [v] else []
  | _ => []

/-- The word an event put into the TX FIFO of state machine `(b, i)`. -/
def DmaEvent.sent (pioAt : ℕ → Option BlockAddr) (b : BlockAddr) (i : Fin 4) : DmaEvent → List Word
  | .moved _ _ dst v => dst.writes pioAt b i v
  | _ => []

/-- What an event made of the word it took from the RX FIFO of state machine `(b, i)`, and for which
channel. -/
def DmaEvent.fetched (pioAt : ℕ → Option BlockAddr) (b : BlockAddr) (i : Fin 4) :
    DmaEvent → List (ℕ × Word)
  | .moved ch src _ v => (src.reads pioAt b i v).map (ch, ·)
  | _ => []

/-- The controls a channel may have. SNIFF_EN is left out: the sniffer sets it, and no value depends
on it. -/
abbrev Controls := ℕ → DmaConfig → Prop

/-- The channel made of the word taken what a control that it may have makes of it. -/
def Carried (K : Controls) (taken : Word) (x : ℕ × Word) : Prop :=
  ∃ ctrl, K x.1 ctrl ∧ x.2 = ctrl.carry taken

/-- A call configures a channel with a control that it may have. -/
def ChipCall.Keeps (K : Controls) : ChipCall → Prop
  | .channelConfigure ch ctrl _ _ _ _ => K (chIdx ch) ctrl.unsniffed
  | _ => True

def Dma.Controlled (K : Controls) (d : Dma) : Prop := ∀ c, K c (d.ch c).ctrl.unsniffed

/-! ### A client of the blocks -/

/-- One thing that happens to the blocks: a call of the host, or an event of the controller. -/
abbrev BlockAct := Call ⊕ DmaEvent

def BlockAct.calls (pioAt : ℕ → Option BlockAddr) : BlockAct → List Call
  | .inl c => [c]
  | .inr e => e.fifoCalls pioAt

/-- A register write attaches no block and is not part of the history. -/
theorem Dma.op_kept (d : Dma) (o : DmaOp) : (o.apply d).pio = d.pio ∧ (o.apply d).log = d.log := by
  cases o with
  | channelAbortMask mask =>
    refine List.foldlRecOn (motive := fun e : Dma => e.pio = d.pio ∧ e.log = d.log) _ _ ⟨rfl, rfl⟩
      fun e he x _ => ?_
    split
    · exact he
    · exact he
  | snifferEnable ch mode force => cases force <;> exact ⟨rfl, rfl⟩
  | _ => exact ⟨rfl, rfl⟩

namespace Chip

variable {P : Call → Prop} {s t u : Chip} {c : ℕ} {b : BlockAddr} {i : Fin 4}

/-- Between two states the blocks saw calls allowed by `P` and the FIFO calls of what the history
moved. -/
structure Client (P : Call → Prop) (s t : Chip) : Prop where
  pio : t.dma.pio = s.dma.pio
  acts : ∃ (es : List DmaEvent) (acts : List BlockAct), t.dma.log = s.dma.log ++ es ∧
    t.world = s.world.run (acts.flatMap (BlockAct.calls s.dma.pioAt)) ∧
    acts.filterMap Sum.getRight? = es.filter DmaEvent.isMove ∧ ∀ call, .inl call ∈ acts → P call

theorem Client.trans (h : Client P s t) (h' : Client P t u) : Client P s u := by
  obtain ⟨hpio, es, acts, hlog, hworld, hmoves, hcalls⟩ := h
  obtain ⟨hpio', es', acts', hlog', hworld', hmoves', hcalls'⟩ := h'
  refine ⟨hpio'.trans hpio, es ++ es', acts ++ acts', ?_, ?_, ?_, fun call hcall => ?_⟩
  · rw [hlog', hlog, List.append_assoc]
  · rw [hworld', Dma.pioAt_congr hpio, hworld, List.flatMap_append, World.run_append]
  · rw [List.filterMap_append, hmoves, hmoves', List.filter_append]
  · exact (List.mem_append.mp hcall).elim (hcalls call) (hcalls' call)

/-- Nothing happens to the blocks, and the history moves nothing. -/
theorem Client.of_quiet {l : List DmaEvent} (hpio : t.dma.pio = s.dma.pio)
    (hworld : t.world = s.world)
    (hlog : t.dma.log = s.dma.log ++ l) (hl : ∀ e ∈ l, e.isMove = false) : Client P s t := by
  refine ⟨hpio, l, [], hlog, hworld, ?_, fun _ hcall => absurd hcall List.not_mem_nil⟩
  exact (List.filter_eq_nil_iff.mpr fun e he => by simp [hl e he]).symm

theorem Client.of_same (hpio : t.dma.pio = s.dma.pio) (hworld : t.world = s.world)
    (hlog : t.dma.log = s.dma.log) : Client P s t :=
  .of_quiet hpio hworld (hlog.trans (List.append_nil _).symm) (List.forall_mem_nil _)

theorem pio_moved (s : Chip) (c : ℕ) : (s.moved c).dma.pio = s.dma.pio := by
  obtain ⟨tm, htm⟩ := moved_eq s c
  rw [htm]

/-- A read of a ready endpoint is the call of its FIFO. -/
theorem Gives.run {bytes : ℕ} {a : DmaAddr} {v : Word} {w : World} (h : s.Gives bytes a v w) :
    w = s.world.run (a.gets s.dma.pioAt) := by
  cases h with
  | mem p hp => rfl
  | rxf k sm b v rx hb hpop =>
    have hget : (s.world.sm b (smIdx sm)).get =
        ({ s.world.sm b (smIdx sm) with rx := rx }, some v) := by
      unfold Sm.get
      rw [hpop]
    simp [DmaAddr.gets, hb, World.run, World.step, World.modifySm, SmOp.apply, hget]

/-- A write of a ready endpoint is the call of its FIFO. -/
theorem Takes.run {d : Dma} {w w' : World} {m m' : LittleEndian.Memory} {bytes : ℕ} {v : Word}
    {a : DmaAddr}
    (h : Takes d w m bytes v a w' m') : w' = w.run (a.puts d.pioAt v) := by
  cases h with
  | mem p hp => rfl
  | txf k sm b tx hb hpush =>
    have hput : (w.sm b (smIdx sm)).put v = ({ w.sm b (smIdx sm) with tx := tx }, true) := by
      unfold Sm.put
      rw [hpush]
    simp [DmaAddr.puts, hb, World.run, World.step, World.modifySm, SmOp.apply, hput]

omit [Platform] in
theorem endpoints_of_ready (h : s.channelReady c = true) :
    s.endpointsReady (s.dma.ch c) = true := by
  unfold channelReady at h
  simp only [Bool.and_eq_true] at h
  exact h.2

theorem client_moved (h : s.channelReady c = true) : Client P s (s.moved c) := by
  obtain ⟨v, w, hgives, -, htakes⟩ := carried_completes (endpoints_of_ready h)
  refine ⟨pio_moved s c, _,
    [.inr (.moved c (s.dma.ch c).readAddr (s.dma.ch c).writeAddr (s.moveValue c))],
    log_moved s c, ?_, rfl, fun call hcall => by simp at hcall⟩
  rw [world_moved, htakes.run, hgives.run, ← World.run_append]
  simp [BlockAct.calls, DmaEvent.fifoCalls]

theorem client_flagged (s : Chip) (c : ℕ) : Client P s (s.flagged c) :=
  .of_quiet (l := [.raised (chIdx c)]) rfl rfl rfl (by simp [DmaEvent.isMove])

/-- Every elementary action is a client's. -/
theorem actions_client (P : Call → Prop) :
    Actions (fun x => ∀ call, x = .pio call → P call) (Client P) where
  refl _ := .of_same rfl rfl rfl
  trans h h' := h.trans h'
  pio s call hcall := by
    refine ⟨rfl, [], [.inl call], (List.append_nil _).symm, rfl, rfl, fun x hx => ?_⟩
    cases List.mem_singleton.mp hx
    exact hcall call rfl
  mem _ _ := .of_same rfl rfl rfl
  op s o _ :=
    have hkept := Dma.op_kept s.dma o
    .of_same hkept.1 rfl hkept.2
  configured _ _ _ _ _ _ _ _ := .of_same rfl rfl rfl
  clocked s _ := by
    obtain ⟨tm, htm⟩ := timersTick_eq s.dma
    unfold clocked modifyDma
    rw [htm]
    exact .of_same rfl rfl rfl
  seat _ _ _ := .of_same rfl rfl rfl
  armed _ c _ _ := .of_quiet (l := [.triggered c]) rfl rfl rfl (by simp [DmaEvent.isMove])
  null _ c _ := .of_quiet (l := [.triggered c]) rfl rfl rfl (by simp [DmaEvent.isMove])
  nullRaised s c _ := .of_quiet (l := [.triggered c, .raised (chIdx c)]) rfl rfl
    (List.append_assoc _ _ _) (by simp [DmaEvent.isMove])
  moved _ _ _ _ hready := client_moved hready
  finished s c _ _ hready _ := (client_moved hready).trans (client_flagged _ c)
  chained _ c target _ :=
    .of_quiet (l := [.chained c target]) rfl rfl rfl (by simp [DmaEvent.isMove])

/-- Whatever the channels, the host and its hooks do, the blocks see a run of their own calls: those
of the host and its hooks, and the FIFO calls of the elements the history says were moved, in its
order. -/
theorem blocks_see_client (s : Chip) (P : Call → Prop)
    (calls : ℕ → ℕ → Chip → List ChipCall) (n : ℕ)
    (xs : List ChipCall) (hcalls : ∀ fn ch t, ∀ call, .pio call ∈ calls fn ch t → P call)
    (hxs : ∀ call, .pio call ∈ xs → P call) :
    let t := s.run (.nested calls n) xs
    ∃ acts : List BlockAct, t.world = s.world.run (acts.flatMap (BlockAct.calls s.dma.pioAt)) ∧
      acts.filterMap Sum.getRight? = (t.dma.log.drop s.dma.log.length).filter DmaEvent.isMove ∧
      (∀ call, .inl call ∈ acts → P call) ∧ (s.world.Reachable → t.world.Reachable) := by
  intro t
  have hactions := actions_client P
  have hnested := hactions.nested (fun fn ch t x hx call he => hcalls fn ch t call (he ▸ hx)) n
  obtain ⟨-, es, acts, hlog, hworld, hmoves, hallowed⟩ : Client P s t :=
    hactions.run hnested (fun x hx call he => hxs call (he ▸ hx)) s
  refine ⟨acts, hworld, ?_, hallowed, fun hs => ?_⟩
  · rw [hlog, List.drop_left]
    exact hmoves
  · rw [hworld]
    exact hs.run _

end Chip

/-! ### Streams -/

theorem Sm.Effect.fifoJoin {s s' : Sm} (h : s.Effect s') : s'.fifoJoin = s.fifoJoin := by
  cases h with
  | refill _ h =>
    obtain ⟨v, tx, -, rfl⟩ := osrRefill_eq_some h
    rfl
  | drain _ _ h =>
    obtain ⟨rx, -, rfl⟩ := isrDrain_eq_some h
    rfl
  | regs | inject | slot => rfl

theorem Sm.Flows.fifoJoin {s s' : Sm} (h : s.Flows s') : s'.fifoJoin = s.fifoJoin := by
  induction h with
  | refl => rfl
  | tail _ hstep ih =>
    cases hstep with
    | effect he => exact he.fifoJoin.trans ih
    | same hq =>
      simp only [Sm.queues, Prod.mk.injEq] at hq
      exact hq.2.2.1.trans ih

/-- The calls that leave the FIFOs of state machine `(b, i)` to the machine and the bus while its
join is `join`. -/
def Call.SparesQueues (b : BlockAddr) (i : Fin 4) (join : FifoJoin) : Call → Prop
  | .sm b' k op => (b', smIdx k) = (b, i) → match op with
      | .put _ | .get | .clearFifos | .restart => False
      | .setConfig c => Sm.effectiveJoin c.fifoJoin = join
      | .rxfifoPut _ _ => ({ Sm.initial with fifoJoin := join } : Sm).rxFifoIsRegisterFile = true
      | _ => True
  | .smInit b' k _ _ => (b', smIdx k) ≠ (b, i)
  | .init b' => b' ≠ b
  | _ => True

namespace World

variable {w : World} {b : BlockAddr} {i : Fin 4} {join : FifoJoin} {c : Call}

theorem fifoJoin_step (hc : c.SparesQueues b i join) (hjoin : (w.sm b i).fifoJoin = join) :
    ((w.step c).sm b i).fifoJoin = join := by
  by_cases hop : ∃ op, HostOp b i c op
  · obtain ⟨op, hop⟩ := hop
    rw [step_hostOp hop]
    obtain ⟨k, rfl, rfl⟩ := hop
    cases op with
    | setConfig cfg => exact (Sm.fifoJoin_setConfig _ cfg).trans (hc rfl)
    | put | get | clearFifos | restart => exact (hc rfl).elim
    | _ => exact hjoin
  · refine (step_flows w (not_exists.mp hop) ?_ ?_).fifoJoin.trans hjoin
    · rintro rfl
      exact hc rfl
    · rintro k pc cfg rfl rfl
      exact hc rfl

/-- A call that spares the FIFOs puts no word in, takes none out and clears neither. -/
theorem spares_ledger (hc : c.SparesQueues b i join) (hjoin : (w.sm b i).fifoJoin = join)
    (hw : (w.sm b i).QueuesWf) : (w.sm b i).Ledger [] [] ((w.step c).sm b i) := by
  have hclears : ¬ clearsFifos b i w c := by
    intro hclears
    cases c with
    | sm b' k op =>
      obtain ⟨hk, hop⟩ := hclears
      have hspares := hc hk
      cases op with
      | setConfig cfg => exact hop (hspares.trans hjoin.symm)
      | rxfifoPut index word =>
        simp only [Sm.rxFifoIsRegisterFile, hjoin] at hop hspares
        exact absurd (hspares.symm.trans hop) Bool.false_ne_true.symm
      | put | get | setPc | setStatusValue | clearStatusValue | clkdivRestart
          | clearFdebug => exact hop
      | _ => exact hspares
    | smInit b' k pc cfg => exact hc hclears
    | init b' => exact hc hclears
    | _ => exact hclears
  have hwords : accepted b i w c = [] ∧ returned b i w c = [] := by
    cases c with
    | sm b' k op =>
      by_cases hk : (b', smIdx k) = (b, i)
      · have hspares := hc hk
        cases op with
        | put | get => exact hspares.elim
        | _ => exact ⟨rfl, rfl⟩
      · cases op <;> simp [accepted, returned, hk]
    | _ => exact ⟨rfl, rfl⟩
  have hledger := step_ledger hw hclears
  rwa [hwords.1, hwords.2] at hledger

end World

namespace Chip

variable {K : Controls} {s t u : Chip} {c : ℕ} {b : BlockAddr} {i : Fin 4} {join : FifoJoin}

/-- The FIFOs of state machine `(b, i)` are well-formed queues under the join `join`, and the
channels have controls that they may have. -/
structure Queued (K : Controls) (b : BlockAddr) (i : Fin 4) (join : FifoJoin)
    (s : Chip) : Prop where
  wf : (s.world.sm b i).QueuesWf
  join : (s.world.sm b i).fifoJoin = join
  controlled : s.dma.Controlled K

/-- Between two states the FIFOs of state machine `(b, i)` passed on, in order, what the history
says was sent to them and fetched from them. -/
structure Streamed (K : Controls) (b : BlockAddr) (i : Fin 4) (join : FifoJoin)
    (s t : Chip) : Prop where
  pio : t.dma.pio = s.dma.pio
  queued : t.Queued K b i join
  ledger : ∃ (es : List DmaEvent) (taken : List Word), t.dma.log = s.dma.log ++ es ∧
    (s.world.sm b i).Ledger (es.flatMap (DmaEvent.sent s.dma.pioAt b i)) taken (t.world.sm b i) ∧
    List.Forall₂ (Carried K) taken (es.flatMap (DmaEvent.fetched s.dma.pioAt b i))

theorem Streamed.trans (h : Streamed K b i join s t) (h' : Streamed K b i join t u) :
    Streamed K b i join s u := by
  obtain ⟨es, taken, hlog, hledger, hcarried⟩ := h.ledger
  obtain ⟨es', taken', hlog', hledger', hcarried'⟩ := h'.ledger
  rw [Dma.pioAt_congr h.pio] at hledger' hcarried'
  refine ⟨h'.pio.trans h.pio, h'.queued, es ++ es', taken ++ taken', ?_, ?_, ?_⟩
  · rw [hlog', hlog, List.append_assoc]
  · rw [List.flatMap_append]
    exact hledger.trans hledger'
  · rw [List.flatMap_append]
    exact List.rel_append hcarried hcarried'

/-- Nothing happens to the FIFOs, and the history moves nothing. -/
theorem Queued.quiet (h : s.Queued K b i join) {l : List DmaEvent} (hpio : t.dma.pio = s.dma.pio)
    (hworld : t.world = s.world)
    (hctrl : ∀ c, (t.dma.ch c).ctrl.unsniffed = (s.dma.ch c).ctrl.unsniffed)
    (hlog : t.dma.log = s.dma.log ++ l) (hl : ∀ e ∈ l, e.isMove = false) :
    Streamed K b i join s t := by
  have hnone : ∀ e ∈ l, e.sent s.dma.pioAt b i = [] ∧ e.fetched s.dma.pioAt b i = [] := by
    intro e he
    cases e with
    | moved => exact absurd (hl _ he) (by simp [DmaEvent.isMove])
    | _ => exact ⟨rfl, rfl⟩
  refine ⟨hpio, ⟨hworld ▸ h.wf, hworld ▸ h.join, fun c => hctrl c ▸ h.controlled c⟩, l, [],
    hlog, ?_, ?_⟩
  · rw [List.flatMap_eq_nil_iff.mpr fun e he => (hnone e he).1, hworld]
    exact .refl _
  · rw [List.flatMap_eq_nil_iff.mpr fun e he => (hnone e he).2]
    exact .nil

theorem Queued.same (h : s.Queued K b i join) (hpio : t.dma.pio = s.dma.pio)
    (hworld : t.world = s.world)
    (hctrl : ∀ c, (t.dma.ch c).ctrl.unsniffed = (s.dma.ch c).ctrl.unsniffed)
    (hlog : t.dma.log = s.dma.log) : Streamed K b i join s t :=
  h.quiet hpio hworld hctrl (hlog.trans (List.append_nil _).symm) (List.forall_mem_nil _)

/-- A read of a ready endpoint takes the oldest word of its FIFO. -/
theorem Gives.streamed {bytes : ℕ} {a : DmaAddr} {v : Word} {w : World} (h : s.Gives bytes a v w)
    (hq : s.Queued K b i join) : (w.sm b i).QueuesWf ∧ (w.sm b i).fifoJoin = join ∧
      (s.world.sm b i).Ledger [] (a.reads s.dma.pioAt b i v) (w.sm b i) := by
  cases h with
  | mem p hp => exact ⟨hq.wf, hq.join, .refl _⟩
  | rxf k sm b' v rx hb hpop =>
    by_cases he : (b', smIdx sm) = (b, i)
    · obtain ⟨rfl, rfl⟩ := Prod.mk.inj he
      have hget : (s.world.sm b' (smIdx sm)).get =
          ({ s.world.sm b' (smIdx sm) with rx := rx }, some v) := by
        unfold Sm.get
        rw [hpop]
      have hkept := hq.wf.get
      rw [hget] at hkept
      rw [World.sm_modifySm_self, DmaAddr.reads, if_pos ⟨hb, rfl⟩]
      exact ⟨hkept.1, hq.join, hkept.2⟩
    · have hne : ¬ (s.dma.pioAt k = some b ∧ smIdx sm = i) := by
        rintro ⟨hk, rfl⟩
        exact he (by rw [Option.some.inj (hb.symm.trans hk)])
      rw [World.sm_modifySm_of_ne (Ne.symm he), DmaAddr.reads, if_neg hne]
      exact ⟨hq.wf, hq.join, .refl _⟩

/-- A write to a ready endpoint queues the word behind those of its FIFO. -/
theorem Takes.streamed {d : Dma} {w w' : World} {m m' : LittleEndian.Memory} {bytes : ℕ} {v : Word}
    {a : DmaAddr}
    (h : Takes d w m bytes v a w' m') (hwf : (w.sm b i).QueuesWf)
    (hjoin : (w.sm b i).fifoJoin = join) :
    (w'.sm b i).QueuesWf ∧ (w'.sm b i).fifoJoin = join ∧
      (w.sm b i).Ledger (a.writes d.pioAt b i v) [] (w'.sm b i) := by
  cases h with
  | mem p hp => exact ⟨hwf, hjoin, .refl _⟩
  | txf k sm b' tx hb hpush =>
    by_cases he : (b', smIdx sm) = (b, i)
    · obtain ⟨rfl, rfl⟩ := Prod.mk.inj he
      have hput : (w.sm b' (smIdx sm)).put v = ({ w.sm b' (smIdx sm) with tx := tx }, true) := by
        unfold Sm.put
        rw [hpush]
      have hkept := hwf.put v
      rw [hput] at hkept
      rw [World.sm_modifySm_self, DmaAddr.writes, if_pos ⟨hb, rfl⟩]
      exact ⟨hkept.1, hjoin, hkept.2⟩
    · have hne : ¬ (d.pioAt k = some b ∧ smIdx sm = i) := by
        rintro ⟨hk, rfl⟩
        exact he (by rw [Option.some.inj (hb.symm.trans hk)])
      rw [World.sm_modifySm_of_ne (Ne.symm he), DmaAddr.writes, if_neg hne]
      exact ⟨hwf, hjoin, .refl _⟩

theorem ctrl_moved (s : Chip) (x : ℕ) (c : ℕ) :
    ((s.moved x).dma.ch c).ctrl = (s.dma.ch c).ctrl := by
  by_cases hc : c = x
  · subst hc
    rw [ch_moved_self, DmaChannel.ctrl_advance]
  · rw [ch_moved_of_ne s hc]

theorem Queued.moved (h : s.Queued K b i join) (hready : s.channelReady c = true) :
    Streamed K b i join s (s.moved c) := by
  obtain ⟨v, w, hgives, hvalue, htakes⟩ := carried_completes (endpoints_of_ready hready)
  obtain ⟨hwf, hjoin, hread⟩ := hgives.streamed h
  obtain ⟨hwf', hjoin', hwrite⟩ := htakes.streamed hwf hjoin
  refine ⟨pio_moved s c, ⟨world_moved s c ▸ hwf', world_moved s c ▸ hjoin', fun x => ?_⟩, _,
    (s.dma.ch c).readAddr.reads s.dma.pioAt b i v, log_moved s c, ?_, ?_⟩
  · rw [ctrl_moved]
    exact h.controlled x
  · rw [List.flatMap_singleton, world_moved]
    have hledger := hread.trans hwrite
    rwa [List.nil_append, List.append_nil] at hledger
  · have hcarried : Carried K v (c, s.moveValue c) :=
      ⟨(s.dma.ch c).ctrl.unsniffed, h.controlled c, hvalue⟩
    rw [List.flatMap_singleton]
    change List.Forall₂ (Carried K) _
      (((s.dma.ch c).readAddr.reads s.dma.pioAt b i (s.moveValue c)).map (c, ·))
    unfold DmaAddr.reads
    split
    · split
      · exact .cons hcarried .nil
      · exact .nil
    · exact .nil

theorem Queued.flagged (h : s.Queued K b i join) (c : ℕ) : Streamed K b i join s (s.flagged c) :=
  h.quiet (l := [.raised (chIdx c)]) rfl rfl (fun _ => rfl) rfl (by simp [DmaEvent.isMove])

/-- Every elementary action keeps the streams of a FIFO that the calls spare. -/
theorem actions_streamed (K : Controls) (b : BlockAddr) (i : Fin 4) (join : FifoJoin) :
    Actions (fun x => (∀ call, x = .pio call → call.SparesQueues b i join) ∧ x.Keeps K)
      fun s t => s.Queued K b i join → Streamed K b i join s t where
  refl _ h := h.same rfl rfl (fun _ => rfl) rfl
  trans hst htu h := (hst h).trans (htu (hst h).queued)
  pio s call hcall h :=
    have hspares := hcall.1 call rfl
    ⟨rfl, ⟨World.step_queuesWf h.wf call, World.fifoJoin_step hspares h.join, h.controlled⟩, [], [],
      (List.append_nil _).symm, World.spares_ledger hspares h.join h.wf, .nil⟩
  mem _ _ h := h.same rfl rfl (fun _ => rfl) rfl
  op s o _ h :=
    have hkept := Dma.op_kept s.dma o
    h.same hkept.1 rfl (fun _ => congrArg Prod.fst (motion_op s.dma o)) hkept.2
  configured s ch ctrl writeAddr readAddr transCount _ hkeeps h := by
    have hstream := h.same (t := s) rfl rfl (fun _ => rfl) rfl
    refine ⟨rfl, ⟨h.wf, h.join, fun c => ?_⟩, hstream.ledger⟩
    by_cases hc : c = chIdx ch
    · subst hc
      rw [configured, modifyDma, Dma.ch_modifyCh_self]
      exact hkeeps.2
    · rw [configured, modifyDma, Dma.ch_modifyCh_of_ne _ hc]
      exact h.controlled c
  clocked s _ h := by
    obtain ⟨tm, htm⟩ := timersTick_eq s.dma
    unfold clocked modifyDma
    rw [htm]
    exact h.same rfl rfl (fun _ => rfl) rfl
  seat _ _ _ h := h.same rfl rfl (fun _ => rfl) rfl
  armed s x _ _ h :=
    have hmotion := fun c => motion_modifyCh (c := c) x
      (f := fun chan => { chan with transCount := chan.transCountReload, busy := true })
        (fun _ => rfl) s.dma
    h.quiet (l := [.triggered x]) rfl rfl (fun c => congrArg Prod.fst (hmotion c)) rfl
      (by simp [DmaEvent.isMove])
  null _ c _ h := h.quiet (l := [.triggered c]) rfl rfl (fun _ => rfl) rfl
    (by simp [DmaEvent.isMove])
  nullRaised s c _ h := h.quiet (l := [.triggered c, .raised (chIdx c)]) rfl rfl (fun _ => rfl)
    (List.append_assoc _ _ _) (by simp [DmaEvent.isMove])
  moved _ _ _ _ hready h := h.moved hready
  finished s c _ _ hready _ h := (h.moved hready).trans ((h.moved hready).queued.flagged c)
  chained _ c target _ h := h.quiet (l := [.chained c target]) rfl rfl (fun _ => rfl) rfl
    (by simp [DmaEvent.isMove])

/-- A FIFO that the host and its hooks leave to the state machine and the bus is a stream: the words
the history says were sent to it reach the state machine in order, and the words the state machine
queued are fetched from it in order, each carried as its channel's control says, none lost, added or
doubled on the way. -/
theorem bus_keeps_streams (K : Controls) (s : Chip) (b : BlockAddr) (i : Fin 4)
    (calls : ℕ → ℕ → Chip → List ChipCall) (n : ℕ) (xs : List ChipCall) (hs : s.world.Reachable)
    (hK : s.dma.Controlled K)
    (hcalls : ∀ fn ch t, ∀ x ∈ calls fn ch t,
      (∀ call, x = .pio call → call.SparesQueues b i (s.world.sm b i).fifoJoin) ∧ x.Keeps K)
    (hxs : ∀ x ∈ xs, (∀ call, x = .pio call → call.SparesQueues b i (s.world.sm b i).fifoJoin) ∧
      x.Keeps K) :
    let t := s.run (.nested calls n) xs
    let es := t.dma.log.drop s.dma.log.length
    ∃ popped fresh taken, (t.world.sm b i).pulled = (s.world.sm b i).pulled ++ popped ∧
      (t.world.sm b i).pushed = (s.world.sm b i).pushed ++ fresh ∧
      (s.world.sm b i).tx.contents ++ es.flatMap (DmaEvent.sent s.dma.pioAt b i) =
        popped ++ (t.world.sm b i).tx.contents ∧
      (s.world.sm b i).rx.contents ++ fresh = taken ++ (t.world.sm b i).rx.contents ∧
      List.Forall₂ (Carried K) taken (es.flatMap (DmaEvent.fetched s.dma.pioAt b i)) := by
  intro t es
  have hactions := actions_streamed K b i (s.world.sm b i).fifoJoin
  have hnested := hactions.nested hcalls n
  have hstreamed : Streamed K b i (s.world.sm b i).fifoJoin s t :=
    hactions.run hnested hxs s ⟨hs.queuesWf b i, rfl, hK⟩
  obtain ⟨es', taken, hlog, ⟨popped, fresh, hpulled, hpushed, htx, hrx⟩, hcarried⟩ :=
    hstreamed.ledger
  have hes : es = es' := by
    change t.dma.log.drop s.dma.log.length = es'
    rw [hlog, List.drop_left]
  rw [hes]
  exact ⟨popped, fresh, taken, hpulled, hpushed, htx, hrx, hcarried⟩

end Chip
end PioSim

namespace PioSim.Chip

local instance feedPlatform : Platform := ⟨.rp2350⟩

/-- A chip whose controller reaches block 0, and two words of memory. -/
def fed : Chip :=
  ⟨World.initial, .init [some 0], fun p => if p = 16 then 5 else if p = 20 then 7 else 0⟩

/-- A channel sends the two words to the TX FIFO of state machine 0, and on completion once more. -/
def feed : List ChipCall :=
  [.op (.channelSetCallback 0 (some 0)),
    .channelConfigure 0 (.default 0) (.txf 0 0) (.mem 16) 2 true, .dmaTick,
    .pio (.tickSms 0), .pio (.tickEnd 0), .dmaTick, .dmaTick]

theorem blocks_see_client_feed :
    let t := fed.run (.nested again 1) feed
    ∃ acts : List BlockAct, t.world = fed.world.run (acts.flatMap (BlockAct.calls fed.dma.pioAt)) ∧
      acts.filterMap Sum.getRight? = (t.dma.log.drop fed.dma.log.length).filter DmaEvent.isMove ∧
      (∀ call, .inl call ∈ acts → call = .tickSms 0 ∨ call = .tickEnd 0) ∧
      (fed.world.Reachable → t.world.Reachable) := by
  refine blocks_see_client fed (fun call => call = .tickSms 0 ∨ call = .tickEnd 0)
    again 1 feed ?_ ?_
  · exact fun _ _ _ call hcall => by simp [again] at hcall
  · exact fun call hcall => by simpa [feed] using hcall

/-- One of the two words passes through state machine 0, and a channel that swaps bytes fetches
it. -/
def passage : List ChipCall :=
  [.channelConfigure 0 (.default 0) (.txf 0 0) (.mem 16) 2 true, .dmaTick, .dmaTick,
    .pio (.smExec 0 0 0x80A0), .pio (.smExec 0 0 0xA0C7), .pio (.smExec 0 0 0x8020),
    .channelConfigure 1 { DmaConfig.default 1 with bswap := true } (.mem 32) (.rxf 0 0) 1 true,
    .dmaTick]

def onlySecondSwaps : Controls := fun c ctrl => ctrl.bswap = true → c = 1

theorem bus_keeps_streams_passage :
    let t := fed.run (.nested again 1) passage
    (t.world.sm 0 0).pulled = [5] ∧ (t.world.sm 0 0).tx.contents = [7] ∧
      t.dma.log.flatMap (DmaEvent.sent fed.dma.pioAt 0 0) = [5, 7] ∧
      t.dma.log.flatMap (DmaEvent.fetched fed.dma.pioAt 0 0) = [(1, 0x05000000)] ∧
      ∃ taken, (t.world.sm 0 0).pushed = taken ++ (t.world.sm 0 0).rx.contents ∧
        List.Forall₂ (Carried onlySecondSwaps) taken [(1, 0x05000000)] := by
  have hforced : ∀ insn call, ChipCall.pio (.smExec 0 0 insn) = .pio call →
      call.SparesQueues 0 0 (fed.world.sm 0 0).fifoJoin := by
    rintro insn _ ⟨⟩
    trivial
  have hcalls : ∀ fn ch t, ∀ x ∈ again fn ch t,
      (∀ call, x = .pio call → call.SparesQueues 0 0 (fed.world.sm 0 0).fifoJoin) ∧
        x.Keeps onlySecondSwaps := by
    intro fn ch t x hx
    rw [List.mem_singleton.mp hx]
    exact ⟨fun _ hcall => ChipCall.noConfusion hcall, trivial⟩
  have hxs : ∀ x ∈ passage,
      (∀ call, x = .pio call → call.SparesQueues 0 0 (fed.world.sm 0 0).fifoJoin) ∧
        x.Keeps onlySecondSwaps := by
    intro x hx
    simp only [passage, List.mem_cons, List.not_mem_nil, or_false] at hx
    rcases hx with rfl | rfl | rfl | rfl | rfl | rfl | rfl | rfl
    · exact ⟨fun _ hcall => ChipCall.noConfusion hcall, fun hswap => Bool.noConfusion hswap⟩
    · exact ⟨fun _ hcall => ChipCall.noConfusion hcall, trivial⟩
    · exact ⟨fun _ hcall => ChipCall.noConfusion hcall, trivial⟩
    · exact ⟨hforced _, trivial⟩
    · exact ⟨hforced _, trivial⟩
    · exact ⟨hforced _, trivial⟩
    · exact ⟨fun _ hcall => ChipCall.noConfusion hcall, fun _ => rfl⟩
    · exact ⟨fun _ hcall => ChipCall.noConfusion hcall, trivial⟩
  have hfetched : (fed.run (.nested again 1) passage).dma.log.flatMap
      (DmaEvent.fetched fed.dma.pioAt 0 0) = [(1, 0x05000000)] := by decide +kernel
  obtain ⟨popped, fresh, taken, -, hpushed, -, hrx, hcarried⟩ :=
    bus_keeps_streams onlySecondSwaps fed 0 0 again 1 passage ⟨[], rfl⟩
      (fun _ hswap => Bool.noConfusion hswap) hcalls hxs
  refine ⟨by decide +kernel, by decide +kernel, by decide +kernel, hfetched, taken, ?_, ?_⟩
  · exact hpushed.trans hrx
  · rw [← hfetched]
    exact hcarried

end PioSim.Chip
