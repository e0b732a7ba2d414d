import PioSim.Echo
import PioSim.DmaCopy

/-!
# A buffer echoed through a state machine

One DMA channel feeds the words of a buffer to a state machine that runs the echo program, another
one drains its RX FIFO to a second buffer. The three keep their own pace; the words between the two
cursors are always the ones the state machine carries.
-/

namespace PioSim

variable [Platform]

/-- The first `k` words of the buffer at `p`. -/
def bufWords (m : LittleEndian.Memory) (p k : ℕ) : List Word :=
  (List.range k).map fun t => LittleEndian.load 32 m (p + 4 * t) 4

section
omit [Platform]

theorem bufWords_succ (m : LittleEndian.Memory) (p k : ℕ) :
    bufWords m p (k + 1) = bufWords m p k ++ [LittleEndian.load 32 m (p + 4 * k) 4] := by
  simp [bufWords, List.range_succ]

theorem bufWords_congr {m m' : LittleEndian.Memory} {p k : ℕ}
    (h : ∀ a, p ≤ a → a < p + 4 * k → m a = m' a) : bufWords m p k = bufWords m' p k := by
  refine List.map_congr_left fun t ht => LittleEndian.load_congr fun y hy => ?_
  have hlt := List.mem_range.mp ht
  exact h _ (by omega) (by omega)

/-- The next word of a buffer is the one that follows what has been taken from it. -/
theorem bufWords_next {m : LittleEndian.Memory} {p j k : ℕ} {v : Word} {l : List Word}
    (h : bufWords m p j = bufWords m p k ++ v :: l) :
    k < j ∧ v = LittleEndian.load 32 m (p + 4 * k) 4 := by
  have hlen := congrArg List.length h
  simp only [bufWords, List.length_map, List.length_range, List.length_append, List.length_cons]
    at hlen
  have hk : k < j := by omega
  have hget := congrArg (fun l => l[k]?) h
  simp [bufWords, hk] at hget
  exact ⟨hk, hget.symm⟩

end

namespace Chip

variable {s s' : Chip} {c : ℕ}

/-! ### One transfer -/

omit [Platform] in
theorem consumeCredit_cases (s : Chip) (treq : ℕ) :
    ∃ t, s.consumeCredit treq = { s with dma := { s.dma with timer := t } } := by
  unfold consumeCredit
  split
  · exact ⟨s.dma.timer, rfl⟩
  · exact ⟨_, rfl⟩

/-- A transfer before its completion: the registers of its channel, and what it has written. -/
theorem moved_fields (s : Chip) (c : ℕ) :
    let t := (s.readElem (s.dma.ch c).readAddr (elemBytes (s.dma.ch c).ctrl.dataSize)).2.writeElem
      (s.dma.ch c).writeAddr (elemBytes (s.dma.ch c).ctrl.dataSize) (s.moveValue c)
    (s.moved c).mem = t.mem ∧ (s.moved c).world = t.world ∧ (s.moved c).dma.pio = s.dma.pio ∧
      (s.moved c).dma.ch = Function.update s.dma.ch c (s.dma.ch c).advance := by
  have hwrite : ∀ (t : Chip) (n : DmaSniff) (a : DmaAddr) (bytes : ℕ) (v : Word),
      (t.modifyDma fun d => { d with sniff := n }).writeElem a bytes v =
        { t.writeElem a bytes v with dma := { t.dma with sniff := n } } := by
    intro t n a bytes v
    cases a with
    | mem p => rfl
    | txf k sm | rxf k sm =>
      have hat : ({ t.dma with sniff := n } : Dma).pioAt k = t.dma.pioAt k := rfl
      simp only [writeElem, modifyDma, hat]
      split <;> rfl
  obtain ⟨n, hn⟩ := sniffed_cases
    (s.readElem (s.dma.ch c).readAddr (elemBytes (s.dma.ch c).ctrl.dataSize)).2 c
    (s.dma.ch c).ctrl.sniffEn (s.moveValue c) (elemBytes (s.dma.ch c).ctrl.dataSize)
  obtain ⟨tm, htm⟩ := consumeCredit_cases (s.moveElem c) (s.dma.ch c).ctrl.treqSel
  intro t
  rw [moved, htm, moveElem_eq, hn, hwrite, dma_readElem]
  exact ⟨rfl, rfl, rfl, rfl⟩

/-- A channel that moves `n` words between the endpoints `r` and `w` has moved `k` of them. Once
done it does not start channel `other`. -/
structure Underway (r w : ℕ → DmaAddr) (n other k : ℕ) (chan : DmaChannel) : Prop where
  le : k ≤ n
  size : chan.ctrl.dataSize = .size32
  plain : chan.ctrl.bswap = false
  chain : chan.ctrl.chainTo ≠ other
  nextRead : ∀ k, dmaAdvance (r k) chan.ctrl.incrRead chan.ctrl.ringSize (!chan.ctrl.ringSel) 4 =
    r (k + 1)
  nextWrite : ∀ k, dmaAdvance (w k) chan.ctrl.incrWrite chan.ctrl.ringSize chan.ctrl.ringSel 4 =
    w (k + 1)
  read : chan.readAddr = r k
  write : chan.writeAddr = w k
  count : chan.transCount.toNat = n - k
  busy : chan.busy = decide (k < n)

section Underway
variable {r w : ℕ → DmaAddr} {n other k : ℕ} {chan chan' : DmaChannel}

omit [Platform] in
theorem Underway.congr (h : Underway r w n other k chan) (hc : chan'.course = chan.course) :
    Underway r w n other k chan' := by
  simp only [DmaChannel.course, Prod.mk.injEq] at hc
  obtain ⟨hctrl, hread, hwrite, hcount, hbusy⟩ := hc
  have hsame := unsniffed_eq hctrl
  refine ⟨h.le, ?_, ?_, ?_, ?_, ?_, hread.trans h.read, hwrite.trans h.write, hcount ▸ h.count,
    hbusy.trans h.busy⟩
  all_goals rw [hsame]
  · exact h.size
  · exact h.plain
  · exact h.chain
  · exact h.nextRead
  · exact h.nextWrite

omit [Platform] in
/-- One more word. -/
theorem Underway.advance (h : Underway r w n other k chan) (hk : k < n) :
    Underway r w n other (k + 1) chan.advance := by
  have hpred : (chan.transCount - 1).toNat = n - (k + 1) := by
    rw [toNat_pred (by rw [h.count]; omega), h.count]
    omega
  refine ⟨hk, h.size, h.plain, h.chain, h.nextRead, h.nextWrite, ?_, ?_, hpred, ?_⟩
  · simp only [DmaChannel.advance, h.read, h.size]
    exact h.nextRead k
  · simp only [DmaChannel.advance, h.write, h.size]
    exact h.nextWrite k
  · have hbusy : chan.advance.busy = if chan.transCount - 1 = 0 then false else chan.busy := rfl
    have hzero : chan.transCount - 1 = 0 ↔ k + 1 = n := by
      rw [← BitVec.toNat_inj, hpred]
      simp
      omega
    rw [hbusy, h.busy]
    by_cases hlast : k + 1 = n
    · rw [if_pos (hzero.mpr hlast), decide_eq_false (by omega)]
    · rw [if_neg (hzero.not.mpr hlast), decide_eq_true hk, decide_eq_true (by omega)]

end Underway

/-- A channel armed with `n` 32-bit words, without byte swap or ring, that does not chain to
`other`. -/
structure ArmedWords (readAddr writeAddr : DmaAddr) (n other : ℕ) (chan : DmaChannel) : Prop where
  read : chan.readAddr = readAddr
  write : chan.writeAddr = writeAddr
  size : chan.ctrl.dataSize = .size32
  plain : chan.ctrl.bswap = false
  ring : chan.ctrl.ringSize = 0
  chain : chan.ctrl.chainTo ≠ other
  count : chan.transCount.toNat = n
  busy : chan.busy = true

omit [Platform] in
/-- From memory with increment to a TX FIFO. -/
theorem ArmedWords.to_txf {p k sm n other : ℕ} {chan : DmaChannel} (hpos : 0 < n)
    (h : ArmedWords (.mem p) (.txf k sm) n other chan) (hincr : chan.ctrl.incrRead = true) :
    Underway (fun t => .mem (p + 4 * t)) (fun _ => .txf k sm) n other 0 chan := by
  refine ⟨Nat.zero_le n, h.size, h.plain, h.chain, fun t => ?_, fun _ => rfl, h.read,
    h.write, h.count, by rw [h.busy, decide_eq_true hpos]⟩
  rw [dmaAdvance_mem _ _ _ h.ring, hincr, if_pos rfl, Nat.mul_succ, Nat.add_assoc]

omit [Platform] in
/-- From an RX FIFO to memory with increment. -/
theorem ArmedWords.of_rxf {p k sm n other : ℕ} {chan : DmaChannel} (hpos : 0 < n)
    (h : ArmedWords (.rxf k sm) (.mem p) n other chan) (hincr : chan.ctrl.incrWrite = true) :
    Underway (fun _ => .rxf k sm) (fun t => .mem (p + 4 * t)) n other 0 chan := by
  refine ⟨Nat.zero_le n, h.size, h.plain, h.chain, fun _ => rfl, fun t => ?_, h.read,
    h.write, h.count, by rw [h.busy, decide_eq_true hpos]⟩
  rw [dmaAdvance_mem _ _ _ h.ring, hincr, if_pos rfl, Nat.mul_succ, Nat.add_assoc]

end Chip

/-- The parts of an echo: the feeding and the draining channel, the state machine with its FIFO
addresses and the place of its program, and the two buffers of `n` words. -/
structure DmaEcho where
  feed : ℕ
  drain : ℕ
  b : BlockAddr
  i : Fin 4
  txPio : ℕ
  txSm : ℕ
  rxPio : ℕ
  rxSm : ℕ
  o : ℕ
  inp : ℕ
  out : ℕ
  n : ℕ
  ne : feed ≠ drain
  feed_lt : feed < dmaNumChannels
  drain_lt : drain < dmaNumChannels
  txSm_eq : smIdx txSm = i
  rxSm_eq : smIdx rxSm = i
  pos : 0 < n
  disjoint : inp + 4 * n ≤ out ∨ out + 4 * n ≤ inp

namespace DmaEcho

variable (e : DmaEcho)

/-- The channels, the memory cells and the reading of the PIO blocks that the echo depends on. -/
def Channel (c : ℕ) : Prop := c = e.feed ∨ c = e.drain

def Cell (a : ℕ) : Prop := (e.inp ≤ a ∧ a < e.inp + 4 * e.n) ∨ (e.out ≤ a ∧ a < e.out + 4 * e.n)

def view (w : World) : Sm × (Fin 32 → Insn) := ((w.sm e.b e.i).core, (w.blocks e.b).insn)

/-- Where the two channels read and write once `k` words have been moved. -/
def feedRead (k : ℕ) : DmaAddr := .mem (e.inp + 4 * k)
def feedWrite (_ : ℕ) : DmaAddr := .txf e.txPio e.txSm
def drainRead (_ : ℕ) : DmaAddr := .rxf e.rxPio e.rxSm
def drainWrite (k : ℕ) : DmaAddr := .mem (e.out + 4 * k)

/-- The state the echo starts from. The feeding channel is armed with `n` words from the buffer at
`inp`, read with increment, to TX, the draining one with `n` words from RX to the buffer at `out`,
written with increment; neither chains to the other. The state machine has just been initialised to
run the program. How the channels are paced is left open. -/
structure Armed (s : Chip) : Prop where
  feed : Chip.ArmedWords (.mem e.inp) (.txf e.txPio e.txSm) e.n e.drain (s.dma.ch e.feed)
  incrRead : (s.dma.ch e.feed).ctrl.incrRead = true
  drain : Chip.ArmedWords (.rxf e.rxPio e.rxSm) (.mem e.out) e.n e.feed (s.dma.ch e.drain)
  incrWrite : (s.dma.ch e.drain).ctrl.incrWrite = true
  tx : s.dma.pioAt e.txPio = some e.b
  rx : s.dma.pioAt e.rxPio = some e.b
  program : EchoLoaded e.o (s.world.blocks e.b).insn
  fresh : ∃ old cfg, EchoConfigured e.o cfg ∧
    (s.world.sm e.b e.i).core = (Sm.init old e.o cfg).core

/-- Since `s₀` the feeding channel has moved `j` words and the draining one `k`; the state machine
carries those in between. -/
structure Midway (s₀ : Chip) (j k : ℕ) (s : Chip) : Prop where
  feed : Chip.Underway e.feedRead e.feedWrite e.n e.drain j (s.dma.ch e.feed)
  drain : Chip.Underway e.drainRead e.drainWrite e.n e.feed k (s.dma.ch e.drain)
  tx : s.dma.pioAt e.txPio = some e.b
  rx : s.dma.pioAt e.rxPio = some e.b
  source : ∀ a, e.inp ≤ a → a < e.inp + 4 * e.n → s.mem a = s₀.mem a
  carried : ∃ l, (echo e.o e.b e.i).Carries s.world l ∧
    bufWords s₀.mem e.inp j = bufWords s₀.mem e.inp k ++ l
  dest : bufWords s.mem e.out k = bufWords s₀.mem e.inp k

variable {e} {s s' s₀ : Chip} {j k : ℕ} {cb : Callback}

theorem Armed.midway (h : e.Armed s) : e.Midway s 0 0 s := by
  refine ⟨h.feed.to_txf e.pos h.incrRead, h.drain.of_rxf e.pos h.incrWrite, h.tx, h.rx,
    fun _ _ _ => rfl, ⟨[], ?_, rfl⟩, rfl⟩
  obtain ⟨old, cfg, hcfg, hcore⟩ := h.fresh
  have hpc : e.o % 32 = e.o := by
    have hfits := h.program.fits
    omega
  have hstart : EchoProgram.Holds e.o (old.init e.o cfg) [] := by
    refine ⟨?_, rfl, .pull hpc⟩
    have hconfig : (old.init e.o cfg).config = (old.setConfig cfg).config := rfl
    rw [hconfig, Sm.config_setConfig]
    exact ⟨hcfg.autopull, hcfg.autopush, hcfg.wrapBottom, hcfg.wrapTop⟩
  have htx := congrArg Sm.tx hcore
  have hrx := congrArg Sm.rx hcore
  exact ⟨h.program, Conveyor.regs (K := echo e.o e.b e.i) (.init hstart) htx hrx
    (Sm.datapath_of_core hcore)⟩

/-- What the frame keeps leaves both channels where they are. -/
theorem Midway.kept (h : e.Midway s₀ j k s) (hs : Chip.Kept e.Channel e.Cell e.view s s') :
    e.Midway s₀ j k s' := by
  have hat := Dma.pioAt_congr hs.pio
  obtain ⟨l, hl, hwords⟩ := h.carried
  obtain ⟨hcore, hinsn⟩ := Prod.mk.inj hs.world
  refine ⟨h.feed.congr (hs.course _ (.inl rfl)), h.drain.congr (hs.course _ (.inr rfl)), ?_, ?_,
    fun a hlo hhi => (hs.mem a (.inl ⟨hlo, hhi⟩)).trans (h.source a hlo hhi),
    ⟨l, Conveyor.of_core hl hcore hinsn, hwords⟩, ?_⟩
  · rw [hat]
    exact h.tx
  · rw [hat]
    exact h.rx
  · have hle := h.drain.le
    exact (bufWords_congr fun a hlo hhi => hs.mem a (.inr ⟨hlo, by omega⟩)).trans h.dest

/-- A call on the PIO blocks: a tick of the state machine's block, or one that spares it. -/
theorem Midway.pio (h : e.Midway s₀ j k s) {c : Call} (hc : c = .tickSms e.b ∨ c.Spares e.b e.i) :
    e.Midway s₀ j k { s with world := s.world.step c } := by
  obtain ⟨l, hl, hwords⟩ := h.carried
  refine ⟨h.feed, h.drain, h.tx, h.rx, h.source, ⟨l, ?_, hwords⟩, h.dest⟩
  rcases hc with rfl | hc
  · exact Conveyor.tickSms hl
  · exact Conveyor.spares hl hc

/-! ### The two transfers -/

section
omit [Platform]

theorem put_accepts {t : Sm} (h : t.tx.isFull = false) (v : Word) : (t.put v).2 = true := by
  unfold Sm.put
  split
  · rename_i hnone
    rw [Fifo.push_eq_none_iff, ← Fifo.isFull_iff, h] at hnone
    cases hnone
  · rfl

theorem get_returns {t : Sm} (h : t.rx.isEmpty = false) : ∃ v, t.get.2 = some v := by
  unfold Sm.get
  split
  · rename_i hnone
    rw [Fifo.pop_eq_none_iff] at hnone
    simp [Fifo.isEmpty, hnone] at h
  · exact ⟨_, rfl⟩

/-- A ready channel has words left, and both its endpoints can go. -/
theorem ready_cases {c : ℕ} (h : s.channelReady c = true) : (s.dma.ch c).busy = true ∧
    s.sourceReady (s.dma.ch c).readAddr = true ∧ s.destReady (s.dma.ch c).writeAddr = true := by
  simp only [Chip.channelReady, Chip.endpointsReady, Bool.and_eq_true] at h
  exact ⟨h.1.1.2, h.2.1, h.2.2⟩

end

/-- The feeding channel moves its next word into TX. -/
theorem Midway.moved_feed (h : e.Midway s₀ j k s) (hready : s.channelReady e.feed = true) :
    e.Midway s₀ (j + 1) k (s.moved e.feed) := by
  obtain ⟨hbusy, -, hdest⟩ := ready_cases hready
  have hj : j < e.n := of_decide_eq_true (h.feed.busy.symm.trans hbusy)
  rw [h.feed.write, feedWrite, Chip.destReady, Chip.dreqTx, h.tx, Option.elim_some, e.txSm_eq,
    Bool.not_eq_true'] at hdest
  -- the word moved is the next one of the buffer
  have hvalue : s.moveValue e.feed = LittleEndian.load 32 s₀.mem (e.inp + 4 * j) 4 := by
    rw [Chip.moveValue]
    simp only [h.feed.plain, h.feed.size, h.feed.read, feedRead, elemBytes, Chip.readElem]
    exact LittleEndian.load_congr fun y hy => h.source _ (by omega) (by omega)
  obtain ⟨hmem, hworld, hpio, hch⟩ := Chip.moved_fields s e.feed
  rw [h.feed.read, h.feed.write, feedRead, feedWrite, Chip.readElem, Chip.writeElem] at hmem hworld
  simp only [h.tx] at hmem hworld
  rw [hvalue] at hworld
  have hat := Dma.pioAt_congr hpio
  have hself : (s.moved e.feed).dma.ch e.feed = (s.dma.ch e.feed).advance := Chip.ch_moved_self s _
  have hother : (s.moved e.feed).dma.ch e.drain = s.dma.ch e.drain := by
    rw [hch, Function.update_of_ne e.ne.symm]
  obtain ⟨l, hl, hwords⟩ := h.carried
  have hput := Conveyor.put hl e.txSm_eq (LittleEndian.load 32 s₀.mem (e.inp + 4 * j) 4)
  rw [put_accepts hdest, if_pos rfl] at hput
  refine ⟨?_, ?_, ?_, ?_, ?_, ⟨_, by rw [hworld]; exact hput, ?_⟩, ?_⟩
  · rw [hself]
    exact h.feed.advance hj
  · rw [hother]
    exact h.drain
  · rw [hat]
    exact h.tx
  · rw [hat]
    exact h.rx
  · rw [hmem]
    exact h.source
  · rw [bufWords_succ, hwords, List.append_assoc]
  · rw [hmem]
    exact h.dest

/-- The draining channel moves the oldest word the state machine carries out of RX. -/
theorem Midway.moved_drain (h : e.Midway s₀ j k s) (hready : s.channelReady e.drain = true) :
    e.Midway s₀ j (k + 1) (s.moved e.drain) := by
  obtain ⟨hbusy, hsource, -⟩ := ready_cases hready
  have hk : k < e.n := of_decide_eq_true (h.drain.busy.symm.trans hbusy)
  rw [h.drain.read, drainRead, Chip.sourceReady, Chip.dreqRx, h.rx, Option.elim_some, e.rxSm_eq,
    Bool.not_eq_true'] at hsource
  obtain ⟨v, hv⟩ := get_returns hsource
  obtain ⟨l, hl, hwords⟩ := h.carried
  obtain ⟨l', hl', hout⟩ := Conveyor.get hl e.rxSm_eq
  rw [hv, Option.toList_some, List.singleton_append] at hout
  rw [hout] at hwords
  obtain ⟨hkj, hnext⟩ := bufWords_next hwords
  have hvalue : s.moveValue e.drain = v := by
    rw [Chip.moveValue]
    simp only [h.drain.plain, h.drain.size, h.drain.read, drainRead, Chip.readElem, h.rx, e.rxSm_eq,
      hv]
    rfl
  obtain ⟨hmem, hworld, hpio, hch⟩ := Chip.moved_fields s e.drain
  rw [h.drain.read, h.drain.write, drainRead, drainWrite, Chip.readElem, Chip.writeElem] at hmem hworld
  simp only [h.rx, h.drain.size, hvalue, elemBytes] at hmem hworld
  have hat := Dma.pioAt_congr hpio
  have hself : (s.moved e.drain).dma.ch e.drain = (s.dma.ch e.drain).advance :=
    Chip.ch_moved_self s _
  have hother : (s.moved e.drain).dma.ch e.feed = s.dma.ch e.feed := by
    rw [hch, Function.update_of_ne e.ne]
  have hdisj := e.disjoint
  refine ⟨?_, ?_, ?_, ?_, fun a hlo hhi => ?_, ⟨l', by rw [hworld]; exact hl', ?_⟩, ?_⟩
  · rw [hother]
    exact h.feed
  · rw [hself]
    exact h.drain.advance hk
  · rw [hat]
    exact h.tx
  · rw [hat]
    exact h.rx
  · rw [hmem, LittleEndian.store_of_notMem v (by omega)]
    exact h.source a hlo hhi
  · rw [hwords, bufWords_succ, hnext, List.append_assoc, List.singleton_append]
  · rw [hmem, bufWords_succ, bufWords_succ, LittleEndian.load_store _ _ _ _ (by rfl),
      ← hnext, ← h.dest]
    congr 1
    exact bufWords_congr fun a hlo hhi => LittleEndian.store_of_notMem v (by omega)

/-- What happens after a transfer, up to the completion's hooks and chains. -/
theorem kept_transferOne {c : ℕ} (hcb : cb.Minds e.Channel e.Cell e.view) (hc : e.Channel c)
    (hlt : c < dmaNumChannels)
    (hchain : ∀ c', e.Channel c' → (s.dma.ch c).ctrl.chainTo = c' → c' = c) :
    Chip.Kept e.Channel e.Cell e.view (s.moved c) (s.transferOne cb c) := by
  rw [Chip.transferOne_eq]
  split
  · refine (Chip.complete_self hcb hc hlt ?_).1
    rw [Chip.ch_moved_self]
    exact hchain
  · exact .refl _

/-! ### The run -/

/-- What may happen around the echo: ticks of the state machine's block, calls on the PIO blocks
that spare it, and whatever else leaves its channels and buffers alone. -/
def Allows (e : DmaEcho) (s : Chip) : ChipCall → Prop
  | .pio c => c = .tickSms e.b ∨ c.Spares e.b e.i
  | x => s.LeavesAlone e.Channel e.Cell e.view x

/-- A DMA tick moves a word of the feeding channel, one of the draining channel, or none of
theirs. -/
theorem Midway.dmaTick (hcb : cb.Minds e.Channel e.Cell e.view) (h : e.Midway s₀ j k s)
    (he : s.LeavesAlone e.Channel e.Cell e.view .dmaTick) :
    ∃ j', e.Midway s₀ j' (k + (s.transfers .dmaTick).count e.drain) (s.step cb .dmaTick) := by
  have hseat : ∀ (t : Chip) (x : ℕ), Chip.Kept e.Channel e.Cell e.view t
      (t.modifyDma fun d => { d with rrNext := (x + 1) % dmaNumChannels }) :=
    fun t _ => (Chip.untouched_modifyDma (s := t) rfl rfl rfl).toKept
  have hclock : e.Midway s₀ j k s.clocked := h.kept Chip.untouched_clocked.toKept
  rw [Chip.transfers]
  cases hs : s.clocked.served with
  | none =>
    rw [Chip.step_dmaTick_of_idle hs]
    exact ⟨j, hclock⟩
  | some x =>
    have hready := (Chip.ready_of_served hs).2
    rw [Option.toList_some]
    by_cases hfeed : x = e.feed
    · subst hfeed
      rw [Chip.step_dmaTick_of_served hs, List.count_singleton, beq_false_of_ne e.ne]
      refine ⟨j + 1,
        ((hclock.moved_feed hready).kept (kept_transferOne hcb (.inl rfl) e.feed_lt ?_)).kept
        (hseat _ _)⟩
      rintro c' (rfl | rfl) hc'
      · rfl
      · exact absurd hc' hclock.feed.chain
    · by_cases hdrain : x = e.drain
      · subst hdrain
        rw [Chip.step_dmaTick_of_served hs, List.count_singleton_self]
        refine ⟨j, ((hclock.moved_drain hready).kept
          (kept_transferOne hcb (.inr rfl) e.drain_lt ?_)).kept (hseat _ _)⟩
        rintro c' (rfl | rfl) hc'
        · exact absurd hc' hclock.drain.chain
        · rfl
      · rw [List.count_singleton, beq_false_of_ne hdrain]
        refine ⟨j, h.kept (Chip.untouched_dmaTick_of_served hcb he hs ?_).toKept⟩
        rintro (hx | hx)
        · exact hfeed hx
        · exact hdrain hx

theorem Midway.step (hcb : cb.Minds e.Channel e.Cell e.view) (h : ∃ j, e.Midway s₀ j k s)
    {x : ChipCall} (hx : e.Allows s x) :
    ∃ j, e.Midway s₀ j (k + (s.transfers x).count e.drain) (s.step cb x) := by
  obtain ⟨j, h⟩ := h
  have hframe : s.LeavesAlone e.Channel e.Cell e.view x → s.transfers x = [] →
      ∃ j, e.Midway s₀ j (k + (s.transfers x).count e.drain) (s.step cb x) := by
    intro hl hnone
    have hmoves : ∀ y ∈ s.transfers x, ¬ e.Channel y := by
      rw [hnone]
      exact fun _ hy => absurd hy List.not_mem_nil
    rw [hnone]
    exact ⟨j, h.kept (Chip.untouched_step hcb hl hmoves).toKept⟩
  cases x with
  | pio c => exact ⟨j, h.pio hx⟩
  | dmaTick => exact h.dmaTick hcb hx
  | _ => exact hframe hx rfl

/-- The words an echo has delivered. However the feeding channel, the state machine, the draining
channel and everything else on the chip are interleaved, once the draining channel has moved `k`
words these are the first `k` of the source, which is as it was; it is busy exactly until `k =
n`. -/
theorem echo_delivers (e : DmaEcho) (hcb : cb.Minds e.Channel e.Cell e.view) (h : e.Armed s)
    {xs : List ChipCall} (hrun : Run.Along (Chip.step cb) e.Allows s xs) :
    let s' := s.run cb xs
    let k := (Run.collect (Chip.step cb) Chip.transfers s xs).count e.drain
    k ≤ e.n ∧ bufWords s'.mem e.out k = bufWords s'.mem e.inp k ∧
      bufWords s'.mem e.inp e.n = bufWords s.mem e.inp e.n ∧
      (s'.dma.ch e.drain).busy = decide (k < e.n) := by
  have hmid : ∃ j, e.Midway s j
      (([] ++ Run.collect (Chip.step cb) Chip.transfers s xs).count e.drain) (s.run cb xs) := by
    refine Run.invariant_collect (J := fun t l => ∃ j, e.Midway s j (l.count e.drain) t)
      (fun t x l ht hx => ?_) ⟨0, h.midway⟩ hrun
    rw [List.count_append]
    exact Midway.step hcb ht hx
  obtain ⟨j, hj⟩ := hmid
  rw [List.nil_append] at hj
  refine ⟨hj.drain.le, ?_, bufWords_congr hj.source, hj.drain.busy⟩
  have hle := hj.drain.le
  exact hj.dest.trans (bufWords_congr fun a hlo hhi => (hj.source a hlo (by omega)).symm)

/-- A DMA tick that serves no third channel. -/
theorem allows_dmaTick (h : s.clocked.served = none ∨ s.clocked.served = some e.feed ∨
    s.clocked.served = some e.drain) : e.Allows s .dmaTick := by
  intro x hx hother
  rcases h with h | h | h
  · exact absurd (h.symm.trans hx) (Option.some_ne_none x).symm
  · exact absurd (.inl (Option.some.inj (hx.symm.trans h))) hother
  · exact absurd (.inr (Option.some.inj (hx.symm.trans h))) hother

end DmaEcho
end PioSim

namespace PioSim.DmaEcho

local instance : Platform := ⟨.rp2350⟩

/-- Two words from address 16 to address 64, through state machine 0 of block 0. -/
def twoWords : DmaEcho where
  feed := 0
  drain := 1
  b := 0
  i := 0
  txPio := 0
  txSm := 0
  rxPio := 0
  rxSm := 0
  o := 0
  inp := 16
  out := 64
  n := 2
  ne := by decide
  feed_lt := by decide
  drain_lt := by decide
  txSm_eq := rfl
  rxSm_eq := rfl
  pos := by decide
  disjoint := by decide

/-- Both channels are armed and paced by the state machine's data requests. -/
def twoWordsStart : Chip :=
  let w := World.initial.run [.block 0 (.load 0 [0x80A0, 0xA0C7, 0x8020]),
    .smInit 0 0 0 (defaultSmConfig.setWrap 0 2)]
  Chip.run Callback.idle ⟨w, Dma.init [some 0], fun a => BitVec.ofNat 8 a⟩
    [.channelConfigure 0 { DmaConfig.default 0 with treqSel := dreqPioTx 0 0 } (.txf 0 0)
      (.mem 16) 2 true, .channelConfigure 1 { DmaConfig.default 1 with
        incrRead := false, incrWrite := true, treqSel := dreqPioRx 0 0 } (.mem 64)
          (.rxf 0 0) 2 true]

/-- Eight rounds of a PIO tick and a DMA tick. -/
def rounds : List ChipCall :=
  .pio (.setEnabled 0 0 true) :: (List.replicate 8 [ChipCall.pio (.tickSms 0), .dmaTick]).flatten

/-- The calls of these rounds that need no further argument: nothing but the two channels is
served. -/
def plain (s : Chip) : ChipCall → Bool
  | .pio (.tickSms b) => b == 0
  | .pio (.setEnabled _ _ _) => true
  | .dmaTick => s.clocked.served == none || s.clocked.served == some 0 || s.clocked.served == some 1
  | _ => false

theorem allows_of_plain {s : Chip} {x : ChipCall} (h : plain s x = true) : twoWords.Allows s x := by
  unfold plain at h
  split at h
  · exact .inl (by rw [eq_of_beq h]; rfl)
  · exact .inr ⟨id, id⟩
  · apply allows_dmaTick
    simp only [Bool.or_eq_true, beq_iff_eq, or_assoc] at h
    exact h
  · cases h

/-- Both words arrive, and the draining channel is done. -/
theorem echo_delivers_two_words :
    (Run.collect (Chip.step Callback.idle) Chip.transfers twoWordsStart rounds).count 1 = 2 ∧
      bufWords (twoWordsStart.run Callback.idle rounds).mem 64 2 =
        bufWords (twoWordsStart.run Callback.idle rounds).mem 16 2 ∧
      ((twoWordsStart.run Callback.idle rounds).dma.ch 1).busy = false := by
  have harmed : twoWords.Armed twoWordsStart := by
    refine ⟨⟨?_, ?_, ?_, ?_, ?_, ?_, ?_, ?_⟩, ?_, ⟨?_, ?_, ?_, ?_, ?_, ?_, ?_, ?_⟩, ?_, ?_, ?_,
      ⟨by decide, ?_, ?_, ?_⟩, World.initial.sm 0 0, defaultSmConfig.setWrap 0 2,
      ⟨rfl, rfl, rfl, rfl⟩, ?_⟩
    all_goals first | decide +kernel | rfl
  have hplain : Run.Along (Chip.step Callback.idle) (fun s x => plain s x = true) twoWordsStart
      rounds := by decide +kernel
  have hcount :
    (Run.collect (Chip.step Callback.idle) Chip.transfers twoWordsStart rounds).count 1 =
      2 := by decide +kernel
  obtain ⟨-, hwords, -, hbusy⟩ := echo_delivers twoWords (Callback.idle_minds _ _ _) harmed
    (hplain.mono fun _ _ => allows_of_plain)
  refine ⟨hcount, ?_, ?_⟩
  · rw [show twoWords.drain = 1 from rfl, hcount] at hwords
    exact hwords
  · rw [show twoWords.drain = 1 from rfl, hcount] at hbusy
    exact hbusy

end PioSim.DmaEcho
