import PioSim.Calls
import PioSim.DmaCopy

/-!
# One transfer

What a tick of the controller does to the FIFOs and to memory: it moves one element between
endpoints that both complete, or nothing at all. What the element carries is its low bytes, except
between two FIFOs.
-/

namespace PioSim

variable [Platform]

/-! ### The low bytes of a word -/

def SameLow (n : ℕ) (v v' : Word) : Prop := ∀ k < n, LittleEndian.byte v k = LittleEndian.byte v' k

section
omit [Platform]

theorem SameLow.getLsbD {n : ℕ} {v v' : Word} (h : SameLow n v v') {i : ℕ} (hi : i < 8 * n) :
    v.getLsbD i = v'.getLsbD i := by
  have hbyte := congrArg (BitVec.getLsbD · (i % 8)) (h (i / 8) (by omega))
  simp only [LittleEndian.getLsbD_byte, Nat.mod_lt i (by decide : 0 < 8), decide_true,
    Bool.true_and, Nat.div_add_mod] at hbyte
  exact hbyte

theorem SameLow.eq {v v' : Word} (h : SameLow 4 v v') : v = v' :=
  BitVec.eq_of_getLsbD_eq fun _ hi => h.getLsbD hi

theorem SameLow.bswap {size : DmaSize} {v v' : Word} (h : SameLow (elemBytes size) v v') :
    SameLow (elemBytes size) (dmaBswap v (elemBytes size)) (dmaBswap v' (elemBytes size)) := by
  intro k hk
  rw [byte_dmaBswap v size hk, byte_dmaBswap v' size hk]
  exact h _ (by omega)

/-- A swapped halfword has nothing above it. -/
theorem SameLow.bswap_two {v v' : Word} (h : SameLow 2 v v') : dmaBswap v 2 = dmaBswap v' 2 := by
  apply BitVec.eq_of_getLsbD_eq
  intro i hi
  rw [dmaBswap, dmaBswap, if_pos rfl, if_pos rfl]
  simp only [BitVec.getLsbD_or, BitVec.getLsbD_and, BitVec.getLsbD_shiftLeft,
    BitVec.getLsbD_ushiftRight, getLsbD_ff]
  by_cases hlow : i < 8
  · rw [h.getLsbD (show 8 + i < 8 * 2 by omega)]
    simp [hlow]
  · by_cases hhigh : i < 16
    · rw [h.getLsbD (show i - 8 < 8 * 2 by omega)]
      simp [hlow]
    · simp [hlow, show ¬ i - 8 < 8 by omega]

/-- The sniffer's mask keeps the low bytes. -/
theorem sniffMask_eq (size : DmaSize) :
    (if 4 ≤ elemBytes size then 0xFFFFFFFF#32 else (1#32 <<< (8 * elemBytes size)) - 1) =
      maskN (8 * elemBytes size) := by
  cases size <;> decide

theorem SameLow.and_mask {n : ℕ} {v v' : Word} (h : SameLow n v v') :
    v &&& maskN (8 * n) = v' &&& maskN (8 * n) := by
  apply BitVec.eq_of_getLsbD_eq
  intro i _
  rw [BitVec.getLsbD_and, BitVec.getLsbD_and, getLsbD_maskN]
  by_cases hi : i < 8 * n
  · rw [h.getLsbD hi]
  · rw [decide_eq_false hi, Bool.and_false, Bool.and_false, Bool.and_false]

/-- The sniffer folds the low bytes only. -/
theorem DmaSniff.feed_congr (s : DmaSniff) (size : DmaSize) {v v' : Word}
    (h : SameLow (elemBytes size) v v') :
    s.feed v (elemBytes size) = s.feed v' (elemBytes size) := by
  unfold feed
  rw [sniffMask_eq]
  simp only [h.and_mask]

end

/-! ### Completions -/

namespace Chip

variable {α : Type} {cb : Callback} {g : Chip → α} {s t : Chip} {c : ℕ}

/-- `g` reads nothing that completing a transfer writes, nor what the hooks do. -/
structure Unfinished (cb : Callback) (g : Chip → α) : Prop where
  hook : ∀ fn ch s, g (cb fn ch s) = g s
  raised : ∀ s ch intr, g (s.modifyDma fun d => { d.record (.raised ch) with intr := intr }) = g s
  triggered : ∀ s c, g (s.modifyDma (·.record (.triggered c))) = g s
  chained : ∀ s c target, g (s.modifyDma (·.record (.chained c target))) = g s
  armed : ∀ s c, g (s.modifyDma (·.modifyCh c fun chan =>
    { chan with transCount := chan.transCountReload, busy := true })) = g s

theorem Unfinished.raiseIrq (h : Unfinished cb g) (s : Chip) (ch : ℕ) :
    g (s.raiseIrq cb ch) = g s := by
  have hflag := h.raised s (chIdx ch) (s.dma.intr ||| (1#32 <<< chIdx ch))
  unfold Chip.raiseIrq
  dsimp only
  split
  · exact hflag
  · exact (h.hook _ _ _).trans hflag

theorem Unfinished.trigger (h : Unfinished cb g) (s : Chip) (c : ℕ) : g (s.trigger cb c) = g s := by
  unfold Chip.trigger
  dsimp only
  split_ifs
  · exact (h.raiseIrq _ _).trans (h.triggered s c)
  · exact h.triggered s c
  · exact (h.armed _ _).trans (h.triggered s c)

theorem Unfinished.startChannelMask (h : Unfinished cb g) (s : Chip) (mask : BitVec 32) :
    g (s.startChannelMask cb mask) = g s := by
  refine List.foldlRecOn (motive := fun t => g t = g s) _ _ rfl fun t ht c _ => ?_
  split
  · exact (h.trigger t c).trans ht
  · exact ht

theorem Unfinished.complete (h : Unfinished cb g) (s : Chip) (c : ℕ) :
    g (s.complete cb c) = g s := by
  have hraise : g (if (s.dma.ch c).ctrl.irqQuiet then s else s.raiseIrq cb c) = g s := by
    split
    · rfl
    · exact h.raiseIrq s c
  unfold Chip.complete
  dsimp only
  generalize (if (s.dma.ch c).ctrl.irqQuiet = true then s else s.raiseIrq cb c) = t at hraise ⊢
  split
  · exact ((h.startChannelMask _ _).trans (h.chained _ _ _)).trans hraise
  · exact hraise

theorem Unfinished.transferOne (h : Unfinished cb g) (s : Chip) (c : ℕ) :
    g (s.transferOne cb c) = g (s.moved c) := by
  rw [transferOne_eq]
  split
  · exact h.complete _ _
  · rfl

/-! ### What a transfer writes -/

/-- The number of bytes channel `c` moves at a time. -/
def width (s : Chip) (c : ℕ) : ℕ := elemBytes (s.dma.ch c).ctrl.dataSize

theorem writeElem_modifyDma {f : Dma → Dma} (hf : (f s.dma).pio = s.dma.pio)
    (a : DmaAddr) (bytes : ℕ)
    (v : Word) : (s.modifyDma f).writeElem a bytes v = (s.writeElem a bytes v).modifyDma f := by
  have hat : (f s.dma).pioAt = s.dma.pioAt := Dma.pioAt_congr hf
  cases a with
  | mem p => rfl
  | txf k sm =>
    simp only [writeElem, modifyDma, hat]
    split <;> rfl
  | rxf k sm =>
    simp only [writeElem, modifyDma, hat]
    split <;> rfl

omit [Platform] in
theorem consumeCredit_eq (s : Chip) (treq : ℕ) :
    ∃ tm, s.consumeCredit treq = s.modifyDma fun d => { d with timer := tm } := by
  unfold consumeCredit
  split
  · exact ⟨s.dma.timer, rfl⟩
  · exact ⟨_, rfl⟩

/-- Channel `c`'s endpoints read and written, nothing else. -/
def carried (s : Chip) (c : ℕ) : Chip :=
  (s.readElem (s.dma.ch c).readAddr (s.width c)).2.writeElem (s.dma.ch c).writeAddr (s.width c)
    (s.moveValue c)

theorem dma_carried (s : Chip) (c : ℕ) : (s.carried c).dma = s.dma := by
  rw [carried, dma_writeElem, dma_readElem]

/-- A transfer before its completion: what it carries, and what the controller notes of it. -/
theorem moved_eq (s : Chip) (c : ℕ) : ∃ tm, s.moved c = { s.carried c with
    dma := { s.dma with
      ch := Function.update s.dma.ch c (s.dma.ch c).advance
      timer := tm
      sniff := if s.dma.sniff.en && (s.dma.ch c).ctrl.sniffEn && s.dma.sniff.chan == c then
        s.dma.sniff.feed (s.moveValue c) (s.width c) else s.dma.sniff
      log := s.dma.log ++ [.moved c (s.dma.ch c).readAddr (s.dma.ch c).writeAddr (s.moveValue c)] }
          } := by
  have hsniffed : ∀ u : Chip, u.dma = s.dma →
      u.sniffed c (s.dma.ch c).ctrl.sniffEn (s.moveValue c) (s.width c) =
        u.modifyDma fun d => { d with
          sniff := if s.dma.sniff.en && (s.dma.ch c).ctrl.sniffEn && s.dma.sniff.chan == c then
            s.dma.sniff.feed (s.moveValue c) (s.width c) else s.dma.sniff } := by
    intro u hu
    unfold sniffed modifyDma
    rw [hu]
    dsimp only
    split <;> rfl
  have hmove : s.moveElem c = (((s.readElem (s.dma.ch c).readAddr (s.width c)).2.sniffed c
    (s.dma.ch c).ctrl.sniffEn (s.moveValue c) (s.width c)).writeElem
      (s.dma.ch c).writeAddr (s.width c)
      (s.moveValue c)).modifyDma
        (·.record (.moved c (s.dma.ch c).readAddr (s.dma.ch c).writeAddr (s.moveValue c))) :=
          moveElem_eq s c
  rw [hsniffed _ (dma_readElem _ _ _), writeElem_modifyDma rfl] at hmove
  obtain ⟨tm, htm⟩ := consumeCredit_eq (s.moveElem c) (s.dma.ch c).ctrl.treqSel
  refine ⟨tm, ?_⟩
  rw [moved, htm, hmove]
  change (((((s.carried c).modifyDma _).modifyDma _).modifyDma _).modifyDma _) = _
  simp only [modifyDma, dma_carried, Dma.record, Dma.modifyCh, Dma.setCh]

theorem world_moved (s : Chip) (c : ℕ) : (s.moved c).world = (s.carried c).world := by
  obtain ⟨tm, htm⟩ := moved_eq s c
  rw [htm]

theorem mem_moved (s : Chip) (c : ℕ) : (s.moved c).mem = (s.carried c).mem := by
  obtain ⟨tm, htm⟩ := moved_eq s c
  rw [htm]

theorem sniff_moved (s : Chip) (c : ℕ) : (s.moved c).dma.sniff =
    if s.dma.sniff.en && (s.dma.ch c).ctrl.sniffEn && s.dma.sniff.chan == c then
      s.dma.sniff.feed (s.moveValue c) (s.width c) else s.dma.sniff := by
  obtain ⟨tm, htm⟩ := moved_eq s c
  rw [htm]

/-! ### The destination -/

/-- What an endpoint holds, by the blocks attached in `d`: an element's bytes in memory, or a TX
FIFO. -/
def endpoint (s : Chip) (d : Dma) (bytes : ℕ) : DmaAddr → List (BitVec 8) × Option Fifo
  | .mem p => ((List.range bytes).map fun k => s.mem (p + k), none)
  | .txf pioIndex sm | .rxf pioIndex sm =>
    ([], (d.pioAt pioIndex).map fun b => (s.world.sm b (smIdx sm)).tx)

end Chip

section
omit [Platform]

theorem Sm.tx_put (s : Sm) (v : Word) : (s.put v).1.tx = (s.tx.push v).getD s.tx := by
  unfold Sm.put
  split
  · rename_i h
    rw [h, Option.getD_none]
  · rename_i h
    rw [h, Option.getD_some]

theorem Sm.tx_get (s : Sm) : s.get.1.tx = s.tx := by
  obtain ⟨f, r, h⟩ := s.get_eq
  rw [h]

theorem Sm.get_snd (s : Sm) : s.get.2 = if s.rx.count = 0 then none else some s.rx.front := by
  unfold Sm.get Fifo.pop
  split
  · rename_i h
    split at h
    · rename_i hzero
      rw [if_pos hzero]
    · cases h
  · rename_i h
    split at h
    · cases h
    · rename_i hzero
      rw [if_neg hzero, ← (Prod.mk.inj (Option.some.inj h)).1]
      rfl

end

namespace Chip

variable {cb : Callback} {s t : Chip} {c : ℕ}

theorem tx_readElem (s : Chip) (a : DmaAddr) (bytes : ℕ) (b : BlockAddr) (i : Fin 4) :
    ((s.readElem a bytes).2.world.sm b i).tx = (s.world.sm b i).tx := by
  have hget : ∀ (b' : BlockAddr) (sm : ℕ),
      ((s.world.step (.sm b' sm .get)).sm b i).tx = (s.world.sm b i).tx := fun b' sm =>
    World.keeps_modifySm (fun x : Sm => x.tx) (fun x => x.get.1) Sm.tx_get s.world b' b (smIdx sm) i
  unfold readElem
  split
  · rfl
  all_goals
    split
    · rfl
    · exact hget _ _

/-- A move into a FIFO of a block that there is pushes the value. -/
theorem tx_carried {s u : Chip} {v : Word} (hpio : u.dma.pioAt = s.dma.pioAt)
    (htx : ∀ b i, (u.world.sm b i).tx = (s.world.sm b i).tx) (k : ℕ) (sm : ℕ) :
    (s.dma.pioAt k).map (fun b => (((match u.dma.pioAt k with
      | none => u
      | some b => { u with world := u.world.step (.sm b sm (.put v)) }) : Chip).world.sm b
        (smIdx sm)).tx) =
      (s.dma.pioAt k).map fun b => ((s.world.sm b (smIdx sm)).tx.push v).getD
          (s.world.sm b (smIdx sm)).tx := by
  rw [hpio]
  cases s.dma.pioAt k with
  | none => rfl
  | some b =>
    have hput := Sm.tx_put (u.world.sm b (smIdx sm)) v
    rw [htx] at hput
    simp only [Option.map_some, World.step, World.sm_modifySm_self, SmOp.apply, hput]

/-- The destination holds the value moved. -/
theorem endpoint_carried (s : Chip) (c : ℕ) :
    (s.carried c).endpoint s.dma (s.width c) (s.dma.ch c).writeAddr =
      match (s.dma.ch c).writeAddr with
      | .mem _ => ((List.range (s.width c)).map (LittleEndian.byte (s.moveValue c)), none)
      | .txf k sm | .rxf k sm => ([], (s.dma.pioAt k).map fun b =>
          ((s.world.sm b (smIdx sm)).tx.push (s.moveValue c)).getD
            (s.world.sm b (smIdx sm)).tx) := by
  have hpio : (s.readElem (s.dma.ch c).readAddr (s.width c)).2.dma.pioAt = s.dma.pioAt := by
    rw [dma_readElem]
  have htx := s.tx_readElem (s.dma.ch c).readAddr (s.width c)
  unfold carried
  generalize (s.readElem (s.dma.ch c).readAddr (s.width c)).2 = u at hpio htx
  cases (s.dma.ch c).writeAddr with
  | mem q =>
    refine Prod.ext (List.map_congr_left fun k hk => ?_) rfl
    exact LittleEndian.store_of_mem _ (List.mem_range.mp hk)
  | txf k sm => exact Prod.ext rfl (tx_carried hpio htx k sm)
  | rxf k sm => exact Prod.ext rfl (tx_carried hpio htx k sm)

end Chip

/-! ### Bits above the element -/

/-- The record with another word at the front of the RX FIFO. -/
def Sm.withRxFront (x : Sm) (v : Word) : Sm :=
  { x with rx := { x.rx with buf := Function.update x.rx.buf (Fin.ofNat 8 x.rx.tail) v } }

omit [Platform] in
theorem Sm.rx_count_withRxFront (x : Sm) (v : Word) : (x.withRxFront v).rx.count = x.rx.count := rfl

omit [Platform] in
theorem Sm.rx_front_withRxFront (x : Sm) (v : Word) : (x.withRxFront v).rx.front = v :=
  Function.update_self _ _ _

/-- The channel hands a word from one FIFO to another as it is, though its element is narrower. -/
def DmaChannel.RelaysWord (chan : DmaChannel) : Prop :=
  (∃ k sm, chan.readAddr = .rxf k sm) ∧ (∃ k sm, chan.writeAddr = .txf k sm) ∧
    (chan.ctrl.dataSize = .size8 ∨ chan.ctrl.dataSize = .size16 ∧ chan.ctrl.bswap = false)

namespace Chip

variable {cb : Callback} {s t : Chip} {c : ℕ}

def withRxFront (s : Chip) (b : BlockAddr) (i : Fin 4) (v : Word) : Chip :=
  { s with world := s.world.modifySm b i (·.withRxFront v) }

/-- The state differs from `s` at most above the element channel `c` is to move: anywhere but in the
element's bytes for a source in memory, in the high bits of the front word for an RX FIFO. -/
inductive DiffersAbove (s : Chip) (c : ℕ) : Chip → Prop
  | mem (p : ℕ) (m : LittleEndian.Memory) (hr : (s.dma.ch c).readAddr = .mem p)
      (hm : ∀ k < s.width c, m (p + k) = s.mem (p + k)) : DiffersAbove s c { s with mem := m }
  | rxf (k sm : ℕ) (b : BlockAddr) (v : Word) (hr : (s.dma.ch c).readAddr = .rxf k sm)
      (hb : s.dma.pioAt k = some b)
        (hv : SameLow (s.width c) v (s.world.sm b (smIdx sm)).rx.front) :
      DiffersAbove s c (s.withRxFront b (smIdx sm) v)

theorem readElem_rxf (s : Chip) {k : ℕ} (sm : ℕ) {b : BlockAddr} (hb : s.dma.pioAt k = some b)
    (bytes : ℕ) : (s.readElem (.rxf k sm) bytes).1 =
      if (s.world.sm b (smIdx sm)).rx.count = 0 then 0 else (s.world.sm b (smIdx sm)).rx.front := by
  have hget := (s.world.sm b (smIdx sm)).get_snd
  unfold readElem
  simp only [hb, hget]
  split <;> rfl

namespace DiffersAbove

omit [Platform] in
theorem dma (h : s.DiffersAbove c t) : t.dma = s.dma := by
  cases h <;> rfl

omit [Platform] in
theorem tx (h : s.DiffersAbove c t) (b : BlockAddr) (i : Fin 4) :
    (t.world.sm b i).tx = (s.world.sm b i).tx := by
  cases h with
  | mem p m hr hm => rfl
  | rxf k sm b' v hr hb hv =>
    exact World.keeps_modifySm (fun x : Sm => x.tx) (·.withRxFront v) (fun _ => rfl) s.world b' b
      (smIdx sm) i

/-- The words read agree on the element. -/
theorem read (h : s.DiffersAbove c t) : SameLow (s.width c)
    (t.readElem (s.dma.ch c).readAddr (s.width c)).1
      (s.readElem (s.dma.ch c).readAddr (s.width c)).1 := by
  cases h with
  | mem p m hr hm =>
    rw [hr]
    have heq : LittleEndian.load 32 m p (s.width c) = LittleEndian.load 32 s.mem p (s.width c) :=
      LittleEndian.load_congr hm
    exact fun k _ => congrArg (LittleEndian.byte · k) heq
  | rxf k sm b v hr hb hv =>
    have hnew := (s.withRxFront b (smIdx sm) v).readElem_rxf sm hb (s.width c)
    rw [hr, hnew, readElem_rxf s sm hb, withRxFront, World.sm_modifySm_self]
    simp only [Sm.rx_count_withRxFront, Sm.rx_front_withRxFront]
    by_cases hempty : (s.world.sm b (smIdx sm)).rx.count = 0
    · rw [if_pos hempty, if_pos hempty]
      exact fun _ _ => rfl
    · rw [if_neg hempty, if_neg hempty]
      exact hv

/-- An element read from memory is the same word. -/
theorem read_mem (h : s.DiffersAbove c t) {p : ℕ} (hp : (s.dma.ch c).readAddr = .mem p) :
    (t.readElem (s.dma.ch c).readAddr (s.width c)).1 =
      (s.readElem (s.dma.ch c).readAddr (s.width c)).1 := by
  cases h with
  | mem p m hr hm =>
    rw [hr]
    exact LittleEndian.load_congr hm
  | rxf k sm b v hr hb hv =>
    rw [hr] at hp
    cases hp

theorem moveValue_eq (h : s.DiffersAbove c t) : t.moveValue c =
    if (s.dma.ch c).ctrl.bswap then
      dmaBswap (t.readElem (s.dma.ch c).readAddr (s.width c)).1 (s.width c)
    else (t.readElem (s.dma.ch c).readAddr (s.width c)).1 := by
  rw [moveValue, h.dma]
  rfl

/-- The values moved agree on the element. -/
theorem moveValue_low (h : s.DiffersAbove c t) :
    SameLow (s.width c) (t.moveValue c) (s.moveValue c) := by
  rw [h.moveValue_eq]
  change SameLow (s.width c) _ (if (s.dma.ch c).ctrl.bswap = true then
    dmaBswap (s.readElem (s.dma.ch c).readAddr (s.width c)).1 (s.width c)
    else (s.readElem (s.dma.ch c).readAddr (s.width c)).1)
  split
  · exact h.read.bswap
  · exact h.read

/-- A value for a FIFO is the same word unless it is relayed. -/
theorem moveValue_same (h : s.DiffersAbove c t) (hrelay : ¬ (s.dma.ch c).RelaysWord) {k sm : ℕ}
    (hw : (s.dma.ch c).writeAddr = .txf k sm) : t.moveValue c = s.moveValue c := by
  have hlow := h.moveValue_low
  rw [h.moveValue_eq] at hlow ⊢
  change SameLow (s.width c) _ (if (s.dma.ch c).ctrl.bswap = true then
    dmaBswap (s.readElem (s.dma.ch c).readAddr (s.width c)).1 (s.width c)
    else (s.readElem (s.dma.ch c).readAddr (s.width c)).1) at hlow
  change _ = if (s.dma.ch c).ctrl.bswap = true then
    dmaBswap (s.readElem (s.dma.ch c).readAddr (s.width c)).1 (s.width c)
    else (s.readElem (s.dma.ch c).readAddr (s.width c)).1
  have hread := h.read
  cases h with
  | mem p m hr hm => rw [read_mem (.mem p m hr hm) hr]
  | rxf k' sm' b v hr hb hv =>
    have hnarrow : ¬ ((s.dma.ch c).ctrl.dataSize = .size8 ∨
        (s.dma.ch c).ctrl.dataSize = .size16 ∧ (s.dma.ch c).ctrl.bswap = false) :=
      fun hn => hrelay ⟨⟨k', sm', hr⟩, ⟨k, sm, hw⟩, hn⟩
    unfold width at hlow hread ⊢
    cases hsize : (s.dma.ch c).ctrl.dataSize with
    | size8 => exact absurd (Or.inl hsize) hnarrow
    | size32 =>
      rw [hsize] at hlow
      exact hlow.eq
    | size16 =>
      have hswap : (s.dma.ch c).ctrl.bswap = true := by
        by_contra hoff
        exact hnarrow (Or.inr ⟨hsize, Bool.eq_false_iff.mpr hoff⟩)
      rw [hsize] at hread
      rw [if_pos hswap, if_pos hswap]
      exact hread.bswap_two

end DiffersAbove

end Chip

/-- The hooks write neither the blocks nor host memory nor the sniffer. -/
def Callback.LeavesData (cb : Callback) : Prop :=
  ∀ fn ch s, (cb fn ch s).world = s.world ∧ (cb fn ch s).mem = s.mem ∧
    (cb fn ch s).dma.sniff = s.dma.sniff

namespace Chip

variable {cb : Callback} {s t : Chip} {c : ℕ}

omit [Platform] in
/-- What a completion leaves alone for the destination and the sniffer to be read after it. -/
theorem unfinished_data (hcb : cb.LeavesData) :
    Unfinished cb fun s => (s.world, s.mem, s.dma.sniff) where
  hook fn ch s := by
    obtain ⟨hworld, hmem, hsniff⟩ := hcb fn ch s
    simp only [hworld, hmem, hsniff]
  raised _ _ _ := rfl
  triggered _ _ := rfl
  chained _ _ _ := rfl
  armed _ _ := rfl

omit [Platform] in
theorem endpoint_congr (hworld : t.world = s.world) (hmem : t.mem = s.mem) (d : Dma) (bytes : ℕ)
    (a : DmaAddr) : t.endpoint d bytes a = s.endpoint d bytes a := by
  unfold endpoint
  rw [hworld, hmem]

/-- The destination and the sniffer after `dma_transfer_one`. -/
theorem data_transferOne (hcb : cb.LeavesData) (s : Chip) (c : ℕ) :
    (s.transferOne cb c).endpoint s.dma (s.width c) (s.dma.ch c).writeAddr =
        (s.carried c).endpoint s.dma (s.width c) (s.dma.ch c).writeAddr ∧
      (s.transferOne cb c).dma.sniff = (s.moved c).dma.sniff := by
  obtain ⟨hworld, hrest⟩ := Prod.mk.inj ((unfinished_data hcb).transferOne s c)
  obtain ⟨hmem, hsniff⟩ := Prod.mk.inj hrest
  exact ⟨endpoint_congr (hworld.trans (s.world_moved c)) (hmem.trans (s.mem_moved c)) _ _ _, hsniff⟩

/-- What lies above the element in the source shows neither at the destination nor in the
sniffer. -/
def MovesLowBytes (cb : Callback) (s : Chip) (c : ℕ) : Prop :=
  ∀ t, s.DiffersAbove c t →
    (t.transferOne cb c).endpoint s.dma (s.width c) (s.dma.ch c).writeAddr =
        (s.transferOne cb c).endpoint s.dma (s.width c) (s.dma.ch c).writeAddr ∧
      (t.transferOne cb c).dma.sniff.accumulator = (s.transferOne cb c).dma.sniff.accumulator

theorem movesLowBytes_of_not_relaysWord (hcb : cb.LeavesData)
    (hready : s.endpointsReady (s.dma.ch c))
    (hrelay : ¬ (s.dma.ch c).RelaysWord) : s.MovesLowBytes cb c := by
  intro t h
  have hdma := h.dma
  have hwidth : t.width c = s.width c := by rw [width, width, hdma]
  obtain ⟨hs, hssniff⟩ := data_transferOne hcb s c
  obtain ⟨ht, htsniff⟩ := data_transferOne hcb t c
  have hdest := endpoint_carried t c
  rw [hdma, hwidth] at ht hdest
  rw [hs, ht, hdest, endpoint_carried]
  constructor
  · cases hw : (s.dma.ch c).writeAddr with
    | mem q =>
      dsimp only
      refine Prod.ext (List.map_congr_left fun k hk => ?_) rfl
      exact h.moveValue_low k (List.mem_range.mp hk)
    | txf k sm =>
      dsimp only
      rw [h.moveValue_same hrelay hw]
      simp only [h.tx]
    | rxf k sm =>
      rw [endpointsReady, Bool.and_eq_true, hw] at hready
      cases hready.2
  · have hfeed : s.dma.sniff.feed (t.moveValue c) (s.width c) =
        s.dma.sniff.feed (s.moveValue c) (s.width c) :=
      DmaSniff.feed_congr _ _ h.moveValue_low
    rw [hssniff, htsniff, sniff_moved, sniff_moved, hdma, hwidth, hfeed]

omit [Platform] in
/-- The top bit of a word is above every element narrower than a word. -/
theorem sameLow_flip {n : ℕ} (hn : n ≤ 2) (v : Word) : SameLow n (v ^^^ 0x80000000#32) v := by
  intro k hk
  apply BitVec.eq_of_getLsbD_eq
  intro j hj
  have hbit : (0x80000000#32).getLsbD (8 * k + j) = false := by
    have hall : ∀ i < 16, (0x80000000#32).getLsbD i = false := by decide
    exact hall _ (by omega)
  rw [LittleEndian.getLsbD_byte, LittleEndian.getLsbD_byte, BitVec.getLsbD_xor, hbit,
    Bool.xor_false]

omit [Platform] in
theorem width_of_relaysWord (h : (s.dma.ch c).RelaysWord) : s.width c ≤ 2 := by
  unfold width
  rcases h.2.2 with hsize | ⟨hsize, -⟩ <;> rw [hsize] <;> decide

/-- A relayed word is the front of the RX FIFO, all of it. -/
theorem moveValue_of_relaysWord (h : (s.dma.ch c).RelaysWord) {k sm : ℕ} {b : BlockAddr}
    (hr : (s.dma.ch c).readAddr = .rxf k sm) (hb : s.dma.pioAt k = some b)
    (hwaiting : (s.world.sm b (smIdx sm)).rx.count ≠ 0) :
    s.moveValue c = (s.world.sm b (smIdx sm)).rx.front := by
  have hread := s.readElem_rxf sm hb (elemBytes (s.dma.ch c).ctrl.dataSize)
  rw [if_neg hwaiting] at hread
  unfold moveValue
  dsimp only
  rw [hr, hread]
  rcases h.2.2 with hsize | ⟨-, hoff⟩
  · rw [hsize]
    exact ite_self _
  · rw [hoff]
    rfl

section
omit [Platform]

/-- The FIFOs of endpoints that are ready: a word waits, and there is room. -/
theorem ready_rxf {k sm : ℕ} (h : s.sourceReady (.rxf k sm) = true) :
    ∃ b, s.dma.pioAt k = some b ∧ (s.world.sm b (smIdx sm)).rx.count ≠ 0 := by
  change s.dreqRx k sm = true at h
  unfold dreqRx at h
  cases hb : s.dma.pioAt k with
  | none =>
    rw [hb] at h
    cases h
  | some b =>
    refine ⟨b, rfl, fun hz => ?_⟩
    rw [hb, Option.elim_some, Fifo.isEmpty, hz] at h
    cases h

theorem ready_txf {k sm : ℕ} (h : s.destReady (.txf k sm) = true) : ∃ b, s.dma.pioAt k = some b ∧
    ¬ (s.world.sm b (smIdx sm)).tx.cap ≤ (s.world.sm b (smIdx sm)).tx.count := by
  change s.dreqTx k sm = true at h
  unfold dreqTx at h
  cases hb : s.dma.pioAt k with
  | none =>
    rw [hb] at h
    cases h
  | some b =>
    refine ⟨b, rfl, fun hle => ?_⟩
    rw [hb, Option.elim_some, (Fifo.isFull_iff _).mpr hle] at h
    cases h

/-- What is pushed can be told from the FIFO. -/
theorem push_inj {f : Fifo} (hroom : ¬ f.cap ≤ f.count) {v v' : Word}
    (h : (f.push v).getD f = (f.push v').getD f) : v = v' := by
  unfold Fifo.push at h
  rw [if_neg hroom, if_neg hroom, Option.getD_some, Option.getD_some] at h
  have hslot := congrFun (congrArg Fifo.buf h) (Fin.ofNat 8 f.head)
  dsimp only at hslot
  rwa [Function.update_self, Function.update_self] at hslot

end

/-- A channel that relays words hands on the bits above its elements. -/
theorem not_movesLowBytes_of_relaysWord (hcb : cb.LeavesData)
    (hready : s.endpointsReady (s.dma.ch c))
    (hrelay : (s.dma.ch c).RelaysWord) : ¬ s.MovesLowBytes cb c := by
  obtain ⟨⟨k, sm, hr⟩, ⟨k', sm', hw⟩, -⟩ := id hrelay
  rw [endpointsReady, Bool.and_eq_true, hr, hw] at hready
  obtain ⟨b, hb, hwaiting⟩ := ready_rxf hready.1
  obtain ⟨b', hb', hroom⟩ := ready_txf hready.2
  intro hlow
  have hdiffers : s.DiffersAbove c (s.withRxFront b (smIdx sm)
      ((s.world.sm b (smIdx sm)).rx.front ^^^ 0x80000000#32)) :=
    .rxf k sm b _ hr hb (sameLow_flip (width_of_relaysWord hrelay) _)
  have hsame := (hlow _ hdiffers).1
  have hold := moveValue_of_relaysWord hrelay hr hb hwaiting
  have hnew := moveValue_of_relaysWord (s := s.withRxFront b (smIdx sm)
      ((s.world.sm b (smIdx sm)).rx.front ^^^ 0x80000000#32)) hrelay hr hb
    (by rw [withRxFront, World.sm_modifySm_self]; exact hwaiting)
  rw [withRxFront, World.sm_modifySm_self, Sm.rx_front_withRxFront, ← withRxFront] at hnew
  generalize s.withRxFront b (smIdx sm)
    ((s.world.sm b (smIdx sm)).rx.front ^^^ 0x80000000#32) = t at *
  have ht := (data_transferOne hcb t c).1
  have htdest := endpoint_carried t c
  have hwidth : t.width c = s.width c := by rw [width, width, hdiffers.dma]
  rw [hdiffers.dma, hwidth] at ht htdest
  rw [(data_transferOne hcb s c).1, ht, endpoint_carried, htdest, hw] at hsame
  dsimp only at hsame
  rw [hb', Option.map_some, Option.map_some, hdiffers.tx, hold, hnew] at hsame
  have hbits := push_inj hroom (Option.some.inj (Prod.mk.inj hsame).2)
  have htop := congrArg (BitVec.getLsbD · 31) hbits
  rw [BitVec.getLsbD_xor] at htop
  revert htop
  cases (s.world.sm b (smIdx sm)).rx.front.getLsbD 31 <;> decide

/-- `dma_transfer_one` moves the low bytes of an element only, exactly when it does not relay a word
from one FIFO to another. -/
theorem movesLowBytes_iff (hcb : cb.LeavesData) (hready : s.endpointsReady (s.dma.ch c)) :
    s.MovesLowBytes cb c ↔ ¬ (s.dma.ch c).RelaysWord :=
  ⟨fun hlow hrelay => not_movesLowBytes_of_relaysWord hcb hready hrelay hlow,
    movesLowBytes_of_not_relaysWord hcb hready⟩

/-- A word waits in the RX FIFO of state machine 1, and channel 0 is to move one byte of it. -/
def byteChannel (dst : DmaAddr) : Chip :=
  step Callback.idle
    ⟨World.initial.run [.smExec 0 1 0xA0CB, .smExec 0 1 0x8020], Dma.init [some 0], fun _ => 0⟩
    (.channelConfigure 0 { DmaConfig.default 0 with dataSize := .size8 } dst (.rxf 0 1) 1 true)

omit [Platform] in
/-- The byte drained to memory, as for any word with that low byte. -/
theorem movesLowBytes_drained :
    letI : Platform := ⟨.rp2350⟩
    (byteChannel (.mem 16)).MovesLowBytes Callback.idle 0 := by
  let P : Platform := ⟨.rp2350⟩
  refine (movesLowBytes_iff (fun _ _ _ => ⟨rfl, rfl, rfl⟩) (by decide +kernel)).mpr ?_
  rintro ⟨-, ⟨k, sm, hw⟩, -⟩
  exact absurd (hw.symm.trans (by decide +kernel : _ = DmaAddr.mem 16)) (by intro h; cases h)

omit [Platform] in
/-- Moving one byte from an RX FIFO to a TX FIFO pushes all 32 bits of the word. -/
theorem byte_relay_hands_on_word :
    letI : Platform := ⟨.rp2350⟩
    ¬ ∀ (s : Chip) (c : ℕ), s.endpointsReady (s.dma.ch c) = true →
        s.MovesLowBytes Callback.idle c := by
  let P : Platform := ⟨.rp2350⟩
  intro hall
  have hdiffers :
      (byteChannel (.txf 0 0)).DiffersAbove 0 ((byteChannel (.txf 0 0)).withRxFront 0 1 0xFF) :=
    .rxf 0 1 0 0xFF (by decide +kernel) (by decide +kernel) (by unfold SameLow; decide +kernel)
  have hsame := (hall (byteChannel (.txf 0 0)) 0 (by decide +kernel) _ hdiffers).1
  have hword := congrArg (fun e => e.2.map Fifo.front) hsame
  revert hword
  decide +kernel

/-! ### One element or nothing -/

/-- Reading the endpoint completes: it gives `v` and leaves the blocks as `w`. -/
inductive Gives (s : Chip) (bytes : ℕ) : DmaAddr → Word → World → Prop
  | mem (p : ℕ) (hp : p ≠ 0) : Gives s bytes (.mem p) (LittleEndian.load 32 s.mem p bytes) s.world
  | rxf (k sm : ℕ) (b : BlockAddr) (v : Word) (rx : Fifo) (hb : s.dma.pioAt k = some b)
      (hpop : (s.world.sm b (smIdx sm)).rx.pop = some (v, rx)) :
      Gives s bytes (.rxf k sm) v (s.world.modifySm b (smIdx sm) fun x => { x with rx := rx })

/-- Writing `v` to the endpoint completes: it leaves the blocks `w` and the memory `m` as told. -/
inductive Takes (d : Dma) (w : World) (m : LittleEndian.Memory) (bytes : ℕ) (v : Word) :
    DmaAddr → World → LittleEndian.Memory → Prop
  | mem (p : ℕ) (hp : p ≠ 0) : Takes d w m bytes v (.mem p) w (LittleEndian.store m p bytes v)
  | txf (k sm : ℕ) (b : BlockAddr) (tx : Fifo) (hb : d.pioAt k = some b)
      (hpush : (w.sm b (smIdx sm)).tx.push v = some tx) :
      Takes d w m bytes v (.txf k sm) (w.modifySm b (smIdx sm) fun x => { x with tx := tx }) m

theorem gives_readElem {a : DmaAddr} (h : s.sourceReady a = true) (bytes : ℕ) :
    s.Gives bytes a (s.readElem a bytes).1 (s.readElem a bytes).2.world := by
  cases a with
  | mem p => exact .mem p (bne_iff_ne.mp h)
  | txf k sm => cases h
  | rxf k sm =>
    obtain ⟨b, hb, hwaiting⟩ := ready_rxf h
    cases hpop : (s.world.sm b (smIdx sm)).rx.pop with
    | none => exact absurd ((Fifo.pop_eq_none_iff _).mp hpop) hwaiting
    | some r =>
      have hget : (s.world.sm b (smIdx sm)).get =
          ({ s.world.sm b (smIdx sm) with rx := r.2 }, some r.1) := by
        unfold Sm.get
        rw [hpop]
      have hread : s.readElem (.rxf k sm) bytes = (r.1, { s with
          world := s.world.modifySm b (smIdx sm) fun x => { x with rx := r.2 } }) := by
        unfold readElem
        simp only [hb, hget, World.step, SmOp.apply, World.modifySm, Option.getD_some]
      rw [hread]
      exact .rxf k sm b r.1 r.2 hb hpop

theorem takes_writeElem {a : DmaAddr} (h : s.destReady a = true) (bytes : ℕ) (v : Word) :
    Takes s.dma s.world s.mem bytes v a (s.writeElem a bytes v).world
      (s.writeElem a bytes v).mem := by
  cases a with
  | mem p => exact .mem p (bne_iff_ne.mp h)
  | rxf k sm => cases h
  | txf k sm =>
    obtain ⟨b, hb, hroom⟩ := ready_txf h
    cases hpush : (s.world.sm b (smIdx sm)).tx.push v with
    | none => exact absurd ((Fifo.push_eq_none_iff _ v).mp hpush) hroom
    | some tx =>
      have hput : (s.world.sm b (smIdx sm)).put v =
          ({ s.world.sm b (smIdx sm) with tx := tx }, true) := by
        unfold Sm.put
        rw [hpush]
      have hwrite : s.writeElem (.txf k sm) bytes v = { s with
          world := s.world.modifySm b (smIdx sm) fun x => { x with tx := tx } } := by
        unfold writeElem
        simp only [hb, hput, World.step, SmOp.apply, World.modifySm]
      rw [hwrite]
      exact .txf k sm b tx hb hpush

theorem destReady_readElem (s : Chip) (a a' : DmaAddr) (bytes : ℕ) :
    (s.readElem a bytes).2.destReady a' = s.destReady a' := by
  cases a' with
  | mem p => rfl
  | rxf k sm => rfl
  | txf k sm =>
    change (s.readElem a bytes).2.dreqTx k sm = s.dreqTx k sm
    unfold dreqTx
    rw [dma_readElem]
    cases s.dma.pioAt k with
    | none => rfl
    | some b => rw [Option.elim_some, Option.elim_some, tx_readElem]

theorem mem_readElem (s : Chip) (a : DmaAddr) (bytes : ℕ) : (s.readElem a bytes).2.mem = s.mem := by
  unfold readElem
  split
  · rfl
  all_goals split <;> rfl

/-- A transfer between ready endpoints completes at both. -/
theorem carried_completes (h : s.endpointsReady (s.dma.ch c) = true) :
    ∃ v w, s.Gives (s.width c) (s.dma.ch c).readAddr v w ∧ s.moveValue c =
        (if (s.dma.ch c).ctrl.bswap then dmaBswap v (s.width c) else v) ∧
      Takes s.dma w s.mem (s.width c) (s.moveValue c) (s.dma.ch c).writeAddr (s.carried c).world
        (s.carried c).mem := by
  rw [endpointsReady, Bool.and_eq_true] at h
  refine ⟨_, _, gives_readElem h.1 _, rfl, ?_⟩
  have hdest : (s.readElem (s.dma.ch c).readAddr (s.width c)).2.destReady
      (s.dma.ch c).writeAddr = true := by
    rw [destReady_readElem]
    exact h.2
  have htakes := takes_writeElem hdest (s.width c) (s.moveValue c)
  rw [dma_readElem, mem_readElem] at htakes
  exact htakes

omit [Platform] in
theorem Gives.fdebug {bytes : ℕ} {a : DmaAddr} {v : Word} {w : World} (h : s.Gives bytes a v w)
    (b : BlockAddr) (i : Fin 4) : (w.sm b i).fdebug = (s.world.sm b i).fdebug := by
  cases h with
  | mem p hp => rfl
  | rxf k sm b' v rx hb hpop =>
    exact World.keeps_modifySm (fun x : Sm => x.fdebug) (fun x => { x with rx := rx })
      (fun _ => rfl)
      s.world b' b (smIdx sm) i

omit [Platform] in
theorem Takes.fdebug {d : Dma} {w w' : World} {m m' : LittleEndian.Memory} {bytes : ℕ} {v : Word}
    {a : DmaAddr} (h : Takes d w m bytes v a w' m') (b : BlockAddr) (i : Fin 4) :
    (w'.sm b i).fdebug = (w.sm b i).fdebug := by
  cases h with
  | mem p hp => rfl
  | txf k sm b' tx hb hpush =>
    exact World.keeps_modifySm (fun x : Sm => x.fdebug) (fun x => { x with tx := tx })
      (fun _ => rfl)
      w b' b (smIdx sm) i

end Chip

def Callback.SparesController (cb : Callback) : Prop :=
  ∀ fn ch s, (cb fn ch s).dma = s.dma ∧ (cb fn ch s).world = s.world

def DmaEvent.isMove : DmaEvent → Bool
  | .moved _ _ _ _ => true
  | _ => false

def Dma.moves (d : Dma) : List DmaEvent := d.log.filter DmaEvent.isMove

namespace Chip

variable {cb : Callback} {s t : Chip} {c : ℕ}

section
omit [Platform]

/-- The blocks, the transfers so far and the cursors are not touched by a completion. -/
theorem unfinished_motion (hcb : cb.SparesController) : Unfinished cb fun s =>
    (s.world, s.dma.moves, fun x => ((s.dma.ch x).readAddr, (s.dma.ch x).writeAddr)) where
  hook fn ch s := by
    obtain ⟨hdma, hworld⟩ := hcb fn ch s
    simp only [hdma, hworld]
  raised s ch intr := by
    simp [modifyDma, Dma.record, Dma.moves, DmaEvent.isMove]
  triggered s c := by
    simp [modifyDma, Dma.record, Dma.moves, DmaEvent.isMove]
  chained s c target := by
    simp [modifyDma, Dma.record, Dma.moves, DmaEvent.isMove]
  armed s c := by
    refine Prod.ext rfl (Prod.ext rfl (funext fun x => ?_))
    by_cases hx : x = c
    · subst hx
      simp only [modifyDma, Dma.ch_modifyCh_self]
    · simp only [modifyDma, Dma.ch_modifyCh_of_ne _ hx]

theorem unfinished_mem (hcb : ∀ fn ch s, (cb fn ch s).mem = s.mem) : Unfinished cb fun s => s.mem :=
  ⟨hcb, fun _ _ _ => rfl, fun _ _ => rfl, fun _ _ _ => rfl, fun _ _ => rfl⟩

theorem timersTick_eq (d : Dma) : ∃ tm, d.timersTick = { d with timer := tm } := by
  refine List.foldlRecOn (motive := fun e : Dma => ∃ tm, e = { d with timer := tm }) _ _
    ⟨d.timer, rfl⟩ ?_
  rintro e ⟨tm, rfl⟩ k _
  exact ⟨_, rfl⟩

end

/-- Channel `c` moves one element: the endpoints both complete, the transfer is noted, no other
channel's cursors move, and memory changes at most at the destination and by the hooks of a
completed run. -/
structure MovesOne (cb : Callback) (s s' : Chip) (c : ℕ) : Prop where
  lt : c < dmaNumChannels
  completes : ∃ v w m, s.Gives (s.width c) (s.dma.ch c).readAddr v w ∧ s.moveValue c =
      (if (s.dma.ch c).ctrl.bswap then dmaBswap v (s.width c) else v) ∧
    Takes s.dma w s.mem (s.width c) (s.moveValue c) (s.dma.ch c).writeAddr s'.world m ∧
    ((s.dma.ch c).transCount ≠ 1 ∨ (∀ fn ch t, (cb fn ch t).mem = t.mem) → s'.mem = m)
  moves : s'.dma.moves = s.dma.moves ++
    [.moved c (s.dma.ch c).readAddr (s.dma.ch c).writeAddr (s.moveValue c)]
  others : ∀ x, x ≠ c → (s'.dma.ch x).readAddr = (s.dma.ch x).readAddr ∧
    (s'.dma.ch x).writeAddr = (s.dma.ch x).writeAddr

theorem movesOne_transferOne (hcb : cb.SparesController) (hlt : c < dmaNumChannels)
    (hready : s.endpointsReady (s.dma.ch c) = true) : MovesOne cb s (s.transferOne cb c) c := by
  obtain ⟨v, w, hgives, hvalue, htakes⟩ := carried_completes hready
  obtain ⟨tm, htm⟩ := s.moved_eq c
  obtain ⟨hworld, hrest⟩ := Prod.mk.inj ((unfinished_motion hcb).transferOne s c)
  obtain ⟨hmoves, hcursors⟩ := Prod.mk.inj hrest
  refine ⟨hlt, ⟨v, w, (s.carried c).mem, hgives, hvalue, ?_, ?_⟩, ?_, fun x hx => ?_⟩
  · rw [hworld, world_moved]
    exact htakes
  · rintro (hcount | hmem)
    · rw [transferOne_eq, ch_moved_self, if_neg, mem_moved]
      intro hzero
      apply hcount
      have hpred : (s.dma.ch c).transCount - 1 = 0 := hzero
      rw [← BitVec.sub_add_cancel (s.dma.ch c).transCount 1, hpred]
      rfl
    · exact ((unfinished_mem hmem).transferOne s c).trans (s.mem_moved c)
  · rw [hmoves, htm, Dma.moves, Dma.moves, List.filter_append]
    rfl
  · have hother := congrFun hcursors x
    rw [htm] at hother
    dsimp only at hother
    rw [Function.update_of_ne hx] at hother
    exact Prod.mk.inj hother

theorem MovesOne.fdebug {s' : Chip} (h : MovesOne cb s s' c) (b : BlockAddr) (i : Fin 4) :
    (s'.world.sm b i).fdebug = (s.world.sm b i).fdebug := by
  obtain ⟨v, w, m, hgives, -, htakes, -⟩ := h.completes
  exact (htakes.fdebug b i).trans (hgives.fdebug b i)

theorem MovesOne.seat {s' : Chip} (h : MovesOne cb s s' c) (n : ℕ) :
    MovesOne cb s (s'.modifyDma fun d => { d with rrNext := n }) c :=
  ⟨h.lt, h.completes, h.moves, h.others⟩

/-- `pio_dma_tick` ticks the pacing timers, then sets no TXOVER or RXUNDER flag: it moves one
element of one channel between endpoints that both complete, or nothing at all. -/
theorem dmaTick_moves_one_or_nothing (hcb : cb.SparesController) (s : Chip) :
    (∃ tm, s.clocked = { s with dma := { s.dma with timer := tm } }) ∧
      (∀ b i, ((s.dmaTick cb).1.world.sm b i).fdebug = (s.world.sm b i).fdebug) ∧
      ((s.dmaTick cb).2 = true → ∃ c, MovesOne cb s.clocked (s.dmaTick cb).1 c) ∧
      ((s.dmaTick cb).2 = false → (s.dmaTick cb).1 = s.clocked) := by
  have hclocked : ∃ tm, s.clocked = { s with dma := { s.dma with timer := tm } } := by
    obtain ⟨tm, htm⟩ := timersTick_eq s.dma
    exact ⟨tm, by rw [clocked, modifyDma, htm]⟩
  have hworld : s.clocked.world = s.world := rfl
  refine ⟨hclocked, ?_⟩
  unfold dmaTick
  dsimp only
  cases hserved : s.clocked.served with
  | none => exact ⟨fun _ _ => rfl, fun h => (Bool.false_ne_true h).elim, fun _ => rfl⟩
  | some c =>
    obtain ⟨hlt, hready⟩ := ready_of_served hserved
    unfold channelReady at hready
    rw [Bool.and_eq_true] at hready
    have hone := (movesOne_transferOne hcb hlt hready.2).seat ((c + 1) % dmaNumChannels)
    refine ⟨fun b i => ?_, fun _ => ⟨c, hone⟩, fun h => (Bool.false_ne_true h.symm).elim⟩
    rw [hone.fdebug, hworld]

omit [Platform] in
/-- One byte moved from an RX FIFO to memory. -/
theorem dmaTick_moves_drained_byte :
    letI : Platform := ⟨.rp2350⟩
    ∃ c, MovesOne Callback.idle (byteChannel (.mem 16)).clocked
      ((byteChannel (.mem 16)).dmaTick Callback.idle).1 c :=
  let P : Platform := ⟨.rp2350⟩
  (dmaTick_moves_one_or_nothing (fun _ _ _ => ⟨rfl, rfl⟩) _).2.2.1 (by decide +kernel)

end Chip

end PioSim
