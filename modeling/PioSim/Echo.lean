import PioSim.Conveyor

/-!
# The echo program

`pull block; mov isr, osr; push block` in a loop, with autopull and autopush off, is a conveyor: a
word is in the OSR after the first instruction, in the ISR after the second and in RX after the
third.
-/

namespace PioSim

variable [Platform]

/-! ### The program -/

/-- `pull block; mov isr, osr; push block` from address `o` on. -/
structure EchoLoaded (o : ℕ) (mem : Fin 32 → Insn) : Prop where
  fits : o + 3 ≤ 32
  pull : opcode (mem (Fin.ofNat 32 o)) = 4 ∧ operandOf (mem (Fin.ofNat 32 o)) = 0xA0
  mov : opcode (mem (Fin.ofNat 32 (o + 1))) = 5 ∧ operandOf (mem (Fin.ofNat 32 (o + 1))) = 0xC7
  push : opcode (mem (Fin.ofNat 32 (o + 2))) = 4 ∧ operandOf (mem (Fin.ofNat 32 (o + 2))) = 0x20

/-- The program's configuration: autopull and autopush are off. -/
structure EchoConfigured (o : ℕ) (c : SmConfig) : Prop where
  autopull : c.autopull = false
  autopush : c.autopush = false
  wrapBottom : c.wrapBottom = o
  wrapTop : c.wrapTop = o + 2

namespace EchoProgram

/-- The points of the program, with the words between the FIFOs. -/
inductive Stage (o : ℕ) (s : Sm) : List Word → Prop
  | pull : s.pc = o → Stage o s []
  | mov : s.pc = o + 1 → Stage o s [s.osr]
  | push : s.pc = o + 2 → Stage o s [s.isr]

/-- The state machine is at a point of the program. -/
structure Holds (o : ℕ) (s : Sm) (m : List Word) : Prop where
  config : EchoConfigured o s.config
  fetches : s.execPending = false
  stage : Stage o s m

variable {o : ℕ} {s s' : Sm} {m l : List Word} {w : World} {b : BlockAddr} {i : Fin 4}

section
omit [Platform]

theorem Holds.datapath (hd : s'.datapath = s.datapath) (h : Holds o s m) : Holds o s' m := by
  simp only [Sm.datapath, Prod.mk.injEq] at hd
  obtain ⟨hc, hpc, he, -, hosr, hisr, -, -⟩ := hd
  refine ⟨hc ▸ h.config, he.trans h.fetches, ?_⟩
  cases h.stage with
  | pull hp => exact .pull (hpc.trans hp)
  | mov hp =>
    rw [← hosr]
    exact .mov (hpc.trans hp)
  | push hp =>
    rw [← hisr]
    exact .push (hpc.trans hp)

theorem nextPc_of_ne (hs : EchoConfigured o s.config) (hfits : o + 3 ≤ 32) {a : ℕ}
    (hpc : s.pc = o + a) (ha : a < 2) : s.nextPc = o + (a + 1) := by
  have htop : s.wrapTop = o + 2 := hs.wrapTop
  rw [Sm.nextPc, if_neg (by omega), hpc, Nat.mod_eq_of_lt (by omega), Nat.add_assoc]

theorem nextPc_of_push (hs : EchoConfigured o s.config) (hpc : s.pc = o + 2) : s.nextPc = o := by
  have htop : s.wrapTop = o + 2 := hs.wrapTop
  rw [Sm.nextPc, if_pos (by omega)]
  exact hs.wrapBottom

end

/-- `pull block` waits for a word or takes one in. -/
theorem execPushpull_pull (hauto : s.autopull = false) :
    s.execPushpull 0xA0 = ({ s with fdebug := s.fdebug ||| fdebugTxstall }, true) ∨
      ∃ s', s.osrRefill = some s' ∧ s.execPushpull 0xA0 = (s', false) := by
  have hpull : s.execPushpull 0xA0 = if s.tx.isEmpty then
      ({ s with fdebug := s.fdebug ||| fdebugTxstall }, true) else (s.osrRefill.getD s, false) := by
    have hpull : Nat.testBit 0xA0 7 = true := by decide
    have hcond : Nat.testBit 0xA0 6 = false := by decide
    have hblock : Nat.testBit 0xA0 5 = true := by decide
    simp only [Sm.execPushpull, hpull, hcond, hblock, hauto, Bool.not_true, Bool.false_and, if_true]
    rfl
  rw [hpull]
  cases hempty : s.tx.isEmpty with
  | true => exact .inl (if_pos rfl)
  | false =>
    refine .inr ?_
    rw [if_neg Bool.false_ne_true]
    cases hr : s.osrRefill with
    | some s' => exact ⟨s', rfl, rfl⟩
    | none =>
      unfold Sm.osrRefill at hr
      split at hr
      · rename_i hnone
        rw [Fifo.pop_eq_none_iff] at hnone
        simp [Fifo.isEmpty, hnone] at hempty
      · cases hr

/-- `push block` waits for room or hands a word out. -/
theorem execPushpull_push :
    s.execPushpull 0x20 = ({ s with fdebug := s.fdebug ||| fdebugRxstall }, true) ∨
      ∃ s', s.isrDrain = some s' ∧ s.execPushpull 0x20 = (s', false) := by
  have hpush : s.execPushpull 0x20 = if s.pushBlocked then
      ({ s with fdebug := s.fdebug ||| fdebugRxstall }, true) else (s.isrDrain.getD s, false) := by
    have hpull : Nat.testBit 0x20 7 = false := by decide
    have hcond : Nat.testBit 0x20 6 = false := by decide
    have hblock : Nat.testBit 0x20 5 = true := by decide
    simp only [Sm.execPushpull, hpull, hcond, hblock, Bool.not_false, Bool.false_and, if_true]
    rfl
  rw [hpush]
  cases hblocked : s.pushBlocked with
  | true => exact .inl (if_pos rfl)
  | false =>
    refine .inr ?_
    rw [if_neg Bool.false_ne_true]
    cases hr : s.isrDrain with
    | some s' => exact ⟨s', rfl, rfl⟩
    | none =>
      simp only [Sm.pushBlocked, Bool.or_eq_false_iff] at hblocked
      unfold Sm.isrDrain at hr
      split at hr
      · rename_i hnone
        rw [Fifo.push_eq_none_iff, ← Fifo.isFull_iff, hblocked.2] at hnone
        cases hnone
      · cases hr

theorem execInsn_pushpull {insn : Insn} {operand : ℕ} (hop : opcode insn = 4)
    (harg : operandOf insn = operand) (hfifo : operand.testBit 4 = false) :
    w.execInsn b i insn = ⟨w.setSm b i ((w.sm b i).execPushpull operand).1,
      ((w.sm b i).execPushpull operand).2, none⟩ := by
  simp only [World.execInsn, hop, harg, hfifo, Bool.and_false]
  rfl

theorem execInsn_mov {insn : Insn} (hop : opcode insn = 5) (harg : operandOf insn = 0xC7) :
    w.execInsn b i insn =
      ⟨w.setSm b i { w.sm b i with isr := (w.sm b i).osr, isrCount := 0 }, false, none⟩ := by
  simp only [World.execInsn, hop, harg]
  rfl

/-- The program is a conveyor. -/
theorem exec (hl : EchoLoaded o (w.blocks b).insn) (h : (w.sm b i).Carries (Holds o) l) :
    ∃ s' stalled, w.execInsn b i (w.getInstruction b i) = ⟨w.setSm b i s', stalled, none⟩ ∧
      Sm.Carries (Holds o) (if stalled then s' else { s' with pc := s'.nextPc }) l := by
  obtain ⟨m, hm, rfl⟩ := h.inside
  have hcarry : (w.sm b i).Carries (fun _ m' => m' = m)
      ((w.sm b i).rx.contents ++ m ++ (w.sm b i).tx.contents) := ⟨h.tx_wf, h.rx_wf, m, rfl, rfl⟩
  have hget : w.getInstruction b i = (w.blocks b).insn (Fin.ofNat 32 (w.sm b i).pc) := by
    rw [World.getInstruction, hm.fetches, if_neg Bool.false_ne_true]
  rw [hget]
  cases hm.stage with
  | pull hpc =>
    rw [hpc, execInsn_pushpull hl.pull.1 hl.pull.2 (by decide)]
    rcases execPushpull_pull (s := w.sm b i) hm.config.autopull with hstall | ⟨s', hr, hpull⟩
    · rw [hstall]
      refine ⟨_, true, rfl, hcarry.regs rfl rfl ?_⟩
      rintro _ rfl
      exact hm.datapath (by rfl)
    · rw [hpull]
      have hdone := hcarry.refill (G := fun t m' => Holds o { t with pc := t.nextPc } m') hr (by
        rintro _ v hv rfl
        obtain ⟨v', tx, -, rfl⟩ := Sm.osrRefill_eq_some hr
        subst hv
        exact ⟨hm.config, hm.fetches, .mov (nextPc_of_ne hm.config hl.fits hpc (by decide))⟩)
      exact ⟨s', false, rfl, hdone.regs rfl rfl fun _ h => h⟩
  | mov hpc =>
    rw [hpc, execInsn_mov hl.mov.1 hl.mov.2]
    refine ⟨_, false, rfl, hcarry.regs rfl rfl ?_⟩
    rintro _ rfl
    exact ⟨hm.config, hm.fetches, .push (nextPc_of_ne hm.config hl.fits hpc (by decide))⟩
  | push hpc =>
    rw [hpc, execInsn_pushpull hl.push.1 hl.push.2 (by decide)]
    rcases execPushpull_push (s := w.sm b i) with hstall | ⟨s', hd, hpush⟩
    · rw [hstall]
      refine ⟨_, true, rfl, hcarry.regs rfl rfl ?_⟩
      rintro _ rfl
      exact hm.datapath (by rfl)
    · rw [hpush]
      have hdone := hcarry.drain (G := fun t m' => Holds o { t with pc := t.nextPc } m') hd (by
        rintro _ rfl
        obtain ⟨rx, -, rfl⟩ := Sm.isrDrain_eq_some hd
        have hnext := nextPc_of_push (s := { w.sm b i with rx := rx }) hm.config hpc
        exact ⟨[], rfl, hm.config, hm.fetches, .pull hnext⟩)
      exact ⟨s', false, rfl, hdone.regs rfl rfl fun _ h => h⟩

end EchoProgram

/-- The program as a conveyor. -/
def echo (o : ℕ) (b : BlockAddr) (i : Fin 4) : Conveyor b i where
  Loaded := EchoLoaded o
  Holds := EchoProgram.Holds o
  datapath hd h := h.datapath hd
  fetches h := h.fetches
  autopull hauto _ h := absurd (hauto.symm.trans h.config.autopull) (by decide)
  exec hl h := EchoProgram.exec hl h

end PioSim
