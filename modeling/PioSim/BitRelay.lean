import PioSim.Conveyor
import PioSim.Lib.ShiftRegister
import Mathlib.Algebra.BigOperators.Group.List.Basic

/-!
# Words relayed in pieces

The loop `out x, n₁; in x, n₁; …; out x, nₖ; in x, nₖ` with autopull and autopush at 32 and equal
shift directions is a conveyor: each word passes from the OSR through X to the ISR a chunk at a
time, and nothing of it is lost, whichever instruction stalls.
-/

namespace PioSim

open ShiftRegister

variable [Platform]

/-- The side of the OSR a direction shifts bits out of. -/
def ShiftDir.side : ShiftDir → Side
  | .left => .high
  | .right => .low

namespace Sm

section
omit [Platform]

theorem and_maskN (v : Word) (n : ℕ) : v &&& maskN n = low n v := by
  apply BitVec.eq_of_getLsbD_eq
  intro k hk
  rw [BitVec.getLsbD_and, getLsbD_low, getLsbD_maskN, Bool.and_comm]

theorem outValue_eq (s : Sm) {n : ℕ} (hn : n ≤ 32) : s.outValue n = next s.outDir.side s.osr n := by
  unfold outValue
  cases hd : s.outDir with
  | right => exact and_maskN s.osr n
  | left =>
    rw [if_neg (by decide)]
    split
    · have hsub : 32 - n = 0 := by omega
      have hall : low n s.osr = s.osr := low_of_le (by omega) s.osr
      simp only [ShiftDir.side, next, hsub, BitVec.ushiftRight_zero, hall]
    · exact and_maskN _ n

theorem outShift_osr (s : Sm) {n : ℕ} (hn : n ≤ 32) :
    (s.outShift n).osr = rest s.outDir.side s.osr n := by
  unfold outShift
  simp only
  split
  · rw [show n = 32 by omega, rest_full]
  · cases hd : s.outDir with
    | right => exact if_pos rfl
    | left => exact if_neg (by decide)

theorem inShift_isr (s : Sm) (x : Word) {n : ℕ} (hn : n ≤ 32) :
    (s.inShift x n).isr = accept s.inDir.side s.isr x n := by
  unfold inShift
  simp only [and_maskN]
  split
  · -- all 32 bits are new
    have hn' : n = 32 := by omega
    subst hn'
    cases hd : s.inDir with
    | right =>
      have hgone : s.isr >>> 32 = 0 := BitVec.ushiftRight_eq_zero (Nat.le_refl 32)
      simp [ShiftDir.side, accept, hgone]
    | left => simp [ShiftDir.side, accept]
  · cases hd : s.inDir with
    | right => exact if_pos rfl
    | left => exact if_neg (by decide)

end

end Sm

/-! ### The counts -/

/-- Bit counts that make up one word. -/
structure BitCounts where
  counts : List ℕ
  pos : ∀ n ∈ counts, 0 < n
  sum_eq : counts.sum = 32

namespace BitCounts

variable (p : BitCounts) {j : ℕ}

def pieces : ℕ := p.counts.length

/-- How many bits have passed before piece `j`. -/
def before (j : ℕ) : ℕ := (p.counts.take j).sum

variable {p}

section
omit [Platform]

theorem before_zero : p.before 0 = 0 := rfl

theorem before_pieces : p.before p.pieces = 32 := by
  rw [before, pieces, List.take_length, p.sum_eq]

theorem before_succ (h : j < p.pieces) : p.before (j + 1) = p.before j + p.counts[j] :=
  List.sum_take_succ p.counts j h

theorem count_pos (h : j < p.pieces) : 0 < p.counts[j] := p.pos _ (List.getElem_mem h)

theorem before_le (j : ℕ) : p.before j ≤ 32 := by
  have h := List.sum_take_add_sum_drop p.counts j
  rw [p.sum_eq] at h
  exact Nat.le.intro h

theorem before_lt (h : j < p.pieces) : p.before j < 32 := by
  have hle := before_le (p := p) (j + 1)
  have hpos := count_pos h
  rw [before_succ h] at hle
  omega

theorem count_le (h : j < p.pieces) : p.counts[j] ≤ 32 := by
  have hle := before_le (p := p) (j + 1)
  rw [before_succ h] at hle
  omega

theorem pieces_pos : 0 < p.pieces := by
  by_contra h
  have hzero : p.pieces = 0 := by omega
  have hsum := before_pieces (p := p)
  rw [hzero, before_zero] at hsum
  cases hsum

/-- The word has passed whole exactly after the last piece. -/
theorem before_succ_eq_iff (h : j < p.pieces) : p.before (j + 1) = 32 ↔ j + 1 = p.pieces := by
  constructor
  · intro he
    by_contra hne
    exact absurd he (Nat.ne_of_lt (before_lt (show j + 1 < p.pieces by omega)))
  · intro he
    rw [he, before_pieces]

end

end BitCounts

/-! ### The loop -/

/-- `out x, n; in x, n` for each count in turn, from address `o` on. -/
structure BitCounts.Loaded (p : BitCounts) (o : ℕ) (mem : Fin 32 → Insn) : Prop where
  fits : o + 2 * p.pieces ≤ 32
  out : ∀ j (h : j < p.pieces), opcode (mem (Fin.ofNat 32 (o + 2 * j))) = 3 ∧
    operandOf (mem (Fin.ofNat 32 (o + 2 * j))) = 0x20 + p.counts[j] % 32
  in_ : ∀ j (h : j < p.pieces), opcode (mem (Fin.ofNat 32 (o + 2 * j + 1))) = 2 ∧
    operandOf (mem (Fin.ofNat 32 (o + 2 * j + 1))) = 0x20 + p.counts[j] % 32

/-- The loop's configuration: both shift registers run the same way, with a threshold of 32. -/
structure BitCounts.Configured (p : BitCounts) (o : ℕ) (d : ShiftDir) (c : SmConfig) : Prop where
  autopull : c.autopull = true
  autopush : c.autopush = true
  pullThresh : c.pullThresh = 32
  pushThresh : c.pushThresh = 32
  outDir : c.outDir = d
  inDir : c.inDir = d
  wrapBottom : c.wrapBottom = o
  wrapTop : c.wrapTop = o + 2 * p.pieces - 1

namespace BitRelay

/-- What the OSR holds once `c` bits of a word have left it: what is left of that word, or, when
none is, perhaps the next one. -/
def Supplies (s : Sm) (c : ℕ) (r : Word) (m : List Word) : Prop :=
  (s.osrCount = c ∧ s.osr = r ∧ m = []) ∨ (c = 32 ∧ s.osrCount = 0 ∧ m = [s.osr])

/-- The points of the loop, with the words between the FIFOs. -/
inductive Stage (p : BitCounts) (o : ℕ) (d : ShiftDir) (s : Sm) : List Word → Prop
  | idle : s.pc = o → s.osrCount = 32 → s.isrCount = 0 → s.isr = 0 → Stage p o d s []
  | out (j : ℕ) (v : Word) : j < p.pieces → s.pc = o + 2 * j →
    s.osrCount = p.before j → s.osr = rest d.side v (p.before j) →
    s.isrCount = p.before j → s.isr = part d.side v (p.before j) → Stage p o d s [v]
  | in_ (j : ℕ) (h : j < p.pieces) (v : Word) (m : List Word) : s.pc = o + 2 * j + 1 →
    s.x = chunk d.side v (p.before j) p.counts[j] →
    s.isrCount = p.before j → s.isr = part d.side v (p.before j) →
    Supplies s (p.before (j + 1)) (rest d.side v (p.before (j + 1))) m → Stage p o d s (v :: m)

/-- The state machine is at a point of the loop. -/
structure Holds (p : BitCounts) (o : ℕ) (d : ShiftDir) (s : Sm) (m : List Word) : Prop where
  config : p.Configured o d s.config
  fetches : s.execPending = false
  stage : Stage p o d s m

variable {p : BitCounts} {o : ℕ} {d : ShiftDir} {s s' : Sm} {m l : List Word} {w : World}
  {b : BlockAddr} {i : Fin 4}

section
omit [Platform]

theorem Stage.regs (h : Stage p o d s m) (hpc : s'.pc = s.pc) (hx : s'.x = s.x)
    (hosr : s'.osr = s.osr)
    (hisr : s'.isr = s.isr) (ho : s'.osrCount = s.osrCount) (hi : s'.isrCount = s.isrCount) :
    Stage p o d s' m := by
  cases h with
  | idle h₁ h₂ h₃ h₄ => exact .idle (hpc.trans h₁) (ho.trans h₂) (hi.trans h₃) (hisr.trans h₄)
  | out j v hj h₁ h₂ h₃ h₄ h₅ =>
    exact .out j v hj (hpc.trans h₁) (ho.trans h₂) (hosr.trans h₃) (hi.trans h₄) (hisr.trans h₅)
  | in_ j hj v m h₁ h₂ h₃ h₄ h₅ =>
    refine .in_ j hj v m (hpc.trans h₁) (hx.trans h₂) (hi.trans h₃) (hisr.trans h₄) ?_
    rw [Supplies, ho, hosr]
    exact h₅

theorem Holds.datapath (hd : s'.datapath = s.datapath) (h : Holds p o d s m) :
    Holds p o d s' m := by
  simp only [Sm.datapath, Prod.mk.injEq] at hd
  obtain ⟨hc, hpc, he, hx, hosr, hisr, ho, hi⟩ := hd
  exact ⟨hc ▸ h.config, he.trans h.fetches, h.stage.regs hpc hx hosr hisr ho hi⟩

/-- The background autopull finds the OSR empty only between two words. -/
theorem Holds.autopull {v : Word} (hfull : s.pullThresh ≤ s.osrCount) (h : Holds p o d s m) :
    Holds p o d { s with osr := v, osrCount := 0 } (m ++ [v]) := by
  have hthresh : s.pullThresh = 32 := h.config.pullThresh
  refine ⟨h.config, h.fetches, ?_⟩
  cases h.stage with
  | idle hpc ho hi hisr =>
    refine .out 0 v BitCounts.pieces_pos hpc rfl ?_ hi ?_
    · exact (rest_zero d.side v).symm
    · exact hisr.trans (part_zero d.side v).symm
  | out j u hj _ ho =>
    have hlt := BitCounts.before_lt hj
    omega
  | in_ j hj u m hpc hx hi hisr hsup =>
    have hle := BitCounts.before_le (p := p) (j + 1)
    rcases hsup with ⟨ho, -, rfl⟩ | ⟨-, ho, -⟩
    · exact .in_ j hj u [v] hpc hx hi hisr (.inr ⟨by omega, rfl, rfl⟩)
    · omega

end

/-! ### The two instructions -/

omit [Platform] in
theorem shiftCount_count {n : ℕ} (hpos : 0 < n) (hle : n ≤ 32) :
    shiftCount (0x20 + n % 32) = n := by
  unfold shiftCount
  split <;> omega

theorem execInsn_out {insn : Insn} {n : ℕ} (hop : opcode insn = 3)
    (harg : operandOf insn = 0x20 + n % 32) (hpos : 0 < n) (hle : n ≤ 32) :
    w.execInsn b i insn = if (w.sm b i).outStalls then
        ⟨w.setSm b i { w.sm b i with fdebug := (w.sm b i).fdebug ||| fdebugTxstall }, true, none⟩
      else
        ⟨w.setSm b i { (w.sm b i).outShift n with x := (w.sm b i).outValue n }, false, none⟩ := by
  have hdest : (0x20 + n % 32) / 32 % 8 = 1 := by omega
  simp only [World.execInsn, hop, World.execOut, harg, shiftCount_count hpos hle, hdest,
    World.outStore, World.sm_setSm_self, World.setSm_setSm]

theorem execInsn_in {insn : Insn} {n : ℕ} (hop : opcode insn = 2)
    (harg : operandOf insn = 0x20 + n % 32) (hpos : 0 < n) (hle : n ≤ 32) :
    w.execInsn b i insn = ⟨w.setSm b i ((w.sm b i).execIn (w.sm b i).x n).1,
      ((w.sm b i).execIn (w.sm b i).x n).2, none⟩ := by
  have hsrc : (0x20 + n % 32) / 32 % 8 = 1 := by omega
  simp only [World.execInsn, hop, harg, shiftCount_count hpos hle, hsrc, World.readSource]

/-- `in` with autopush: it stalls when the word it completes has nowhere to go, shifts otherwise,
and hands a completed word out. -/
theorem execIn_cases (hpush : s.autopush = true) (hthresh : s.pushThresh = 32) {n : ℕ}
    (hroom : s.isrCount + n ≤ 32) (x : Word) :
    (s.execIn x n = ({ s with fdebug := s.fdebug ||| fdebugRxstall }, true) ∨
      s.isrCount + n < 32 ∧ s.execIn x n = (s.inShift x n, false) ∨
      s.isrCount + n = 32 ∧ ∃ s', (s.inShift x n).isrDrain = some s' ∧ s.execIn x n = (s', false)) ∧
    (s.inShift x n).isrCount = s.isrCount + n := by
  have hcount : (s.inShift x n).isrCount = s.isrCount + n := by
    have hmod : u8 (s.isrCount + n) = s.isrCount + n := Nat.mod_eq_of_lt (by omega)
    simp only [Sm.inShift, hmod]
    rw [if_neg (by omega)]
  refine ⟨?_, hcount⟩
  unfold Sm.execIn
  simp only [hpush, hthresh, Bool.true_and]
  by_cases hfull : s.isrCount + n = 32
  · cases hb : s.pushBlocked with
    | true => exact .inl (if_pos (by simp [hfull]))
    | false =>
      refine .inr (.inr ⟨hfull, ?_⟩)
      rw [if_neg (by simp)]
      have hdrain : decide ((s.inShift x n).pushThresh ≤ (s.inShift x n).isrCount) = true := by
        rw [hcount, show (s.inShift x n).pushThresh = 32 from hthresh, hfull]
        rfl
      have hroomy : (s.inShift x n).rx.isFull = false := by
        simp only [Sm.pushBlocked, Bool.or_eq_false_iff] at hb
        exact hb.2
      rw [show (s.inShift x n).autopush = true from hpush, hdrain, Bool.and_self, if_pos rfl]
      cases hd : (s.inShift x n).isrDrain with
      | some s' => exact ⟨s', rfl, rfl⟩
      | none =>
        unfold Sm.isrDrain at hd
        split at hd
        · rename_i hnone
          rw [Fifo.push_eq_none_iff, ← Fifo.isFull_iff, hroomy] at hnone
          cases hnone
        · cases hd
  · have hlt : s.isrCount + n < 32 := by omega
    refine .inr (.inl ⟨hlt, ?_⟩)
    have hkeep : decide (32 ≤ s.isrCount + n) = false := decide_eq_false (by omega)
    have hkeep' : decide ((s.inShift x n).pushThresh ≤ (s.inShift x n).isrCount) = false := by
      rw [hcount, show (s.inShift x n).pushThresh = 32 from hthresh, hkeep]
    rw [hkeep, hkeep', Bool.false_and, Bool.and_false, if_neg Bool.false_ne_true,
      if_neg Bool.false_ne_true]

/-! ### One instruction of the loop -/

section
omit [Platform]

/-- Addresses inside the loop follow each other. -/
theorem nextPc_of_lt {t : Sm} {a : ℕ} (ht : p.Configured o d t.config)
    (hfits : o + 2 * p.pieces ≤ 32) (hpc : t.pc = a) (ha : a + 1 < o + 2 * p.pieces) :
    t.nextPc = a + 1 := by
  have htop : t.wrapTop = o + 2 * p.pieces - 1 := ht.wrapTop
  rw [Sm.nextPc, if_neg (by omega), hpc, Nat.mod_eq_of_lt (by omega)]

theorem nextPc_of_last {t : Sm} (ht : p.Configured o d t.config)
    (hpc : t.pc = o + 2 * p.pieces - 1) : t.nextPc = o := by
  have htop : t.wrapTop = o + 2 * p.pieces - 1 := ht.wrapTop
  rw [Sm.nextPc, hpc, if_pos htop.symm]
  exact ht.wrapBottom

/-- `out` passes the next chunk to X. -/
theorem exec_out (hfits : o + 2 * p.pieces ≤ 32) (hs : Holds p o d s m) {j : ℕ} {v : Word}
    (hj : j < p.pieces) (hpc : s.pc = o + 2 * j) (ho : s.osrCount = p.before j)
    (hosr : s.osr = rest d.side v (p.before j)) (hi : s.isrCount = p.before j)
    (hisr : s.isr = part d.side v (p.before j)) :
    let t := { s.outShift p.counts[j] with x := s.outValue p.counts[j] }
    Holds p o d { t with pc := t.nextPc } [v] := by
  have hle := BitCounts.count_le hj
  have hsucc := BitCounts.before_succ hj
  have hbound := BitCounts.before_le (p := p) (j + 1)
  have hdir : s.outDir = d := hs.config.outDir
  intro t
  have hcount : t.osrCount = p.before (j + 1) := by
    have hc : t.osrCount = if 32 < u8 (s.osrCount + p.counts[j]) then 32
      else u8 (s.osrCount + p.counts[j]) := rfl
    have hmod : u8 (s.osrCount + p.counts[j]) = p.before (j + 1) := by
      rw [ho, ← hsucc]
      exact Nat.mod_eq_of_lt (by omega)
    rw [hc, hmod, if_neg (by omega)]
  have hnext : t.nextPc = o + 2 * j + 1 :=
    nextPc_of_lt (p := p) (o := o) (d := d) (t := t) hs.config hfits hpc (by omega)
  refine ⟨hs.config, hs.fetches, .in_ j hj v [] hnext ?_ hi hisr (.inl ⟨hcount, ?_, rfl⟩)⟩
  · have hx := Sm.outValue_eq s hle
    rw [hdir, hosr, next_rest d.side v (by omega)] at hx
    exact hx
  · have hr := Sm.outShift_osr s hle
    rw [hdir, hosr, rest_rest, ← hsucc] at hr
    exact hr

end

/-- `in` before the last piece gathers a chunk. -/
theorem exec_in_more (hfits : o + 2 * p.pieces ≤ 32) {m' : List Word} (hs : Holds p o d s m')
    {j : ℕ} {v : Word}
    (hj : j < p.pieces) (hmore : j + 1 < p.pieces) (hpc : s.pc = o + 2 * j + 1)
    (hx : s.x = chunk d.side v (p.before j) p.counts[j]) (hi : s.isrCount = p.before j)
    (hisr : s.isr = part d.side v (p.before j)) (ho : s.osrCount = p.before (j + 1))
    (hosr : s.osr = rest d.side v (p.before (j + 1))) :
    let t := s.inShift s.x p.counts[j]
    Holds p o d { t with pc := t.nextPc } [v] := by
  have hsucc := BitCounts.before_succ hj
  have hbound := BitCounts.before_le (p := p) (j + 1)
  have hdir : s.inDir = d := hs.config.inDir
  intro t
  have hnext : t.nextPc = o + 2 * j + 1 + 1 :=
    nextPc_of_lt (p := p) (o := o) (d := d) (t := t) hs.config hfits hpc (by omega)
  have hcount := (execIn_cases (n := p.counts[j]) (s := s) hs.config.autopush hs.config.pushThresh
    (by omega) s.x).2
  refine ⟨hs.config, hs.fetches, .out (j + 1) v hmore hnext ho hosr ?_ ?_⟩
  · rw [hsucc, ← hi]
    exact hcount
  · refine (Sm.inShift_isr s s.x (BitCounts.count_le hj)).trans ?_
    rw [hdir, hisr, hx, accept_part d.side v (by omega), ← hsucc]

omit [Platform] in
/-- `in` of the last piece completes the word and hands it out. -/
theorem exec_in_last {m' : List Word} (hs : Holds p o d s m') {j : ℕ} {v : Word} (hj : j < p.pieces)
    (hlast : j + 1 = p.pieces) (hpc : s.pc = o + 2 * j + 1)
    (hx : s.x = chunk d.side v (p.before j) p.counts[j])
    (hisr : s.isr = part d.side v (p.before j)) (hsup : Supplies s 32 0 m)
    (hs' : (s.inShift s.x p.counts[j]).isrDrain = some s') :
    (s.inShift s.x p.counts[j]).isr = v ∧ Holds p o d { s' with pc := s'.nextPc } m := by
  have hsucc := BitCounts.before_succ hj
  have hfull := (BitCounts.before_succ_eq_iff hj).mpr hlast
  have hdir : s.inDir = d := hs.config.inDir
  obtain ⟨rx, -, rfl⟩ := Sm.isrDrain_eq_some hs'
  have hnext : Sm.nextPc { s.inShift s.x p.counts[j] with
      rx := rx, isr := 0, isrCount := 0,
      pushed := s.pushed ++ [(s.inShift s.x p.counts[j]).isr] } = o := by
    refine nextPc_of_last (p := p) (d := d) hs.config ?_
    have hpc' : s.pc = o + 2 * p.pieces - 1 := by omega
    exact hpc'
  refine ⟨?_, hs.config, hs.fetches, ?_⟩
  · refine (Sm.inShift_isr s s.x (BitCounts.count_le hj)).trans ?_
    rw [hdir, hisr, hx, accept_part d.side v (by omega), ← hsucc, hfull, part_full]
  · rcases hsup with ⟨ho, -, rfl⟩ | ⟨-, ho, rfl⟩
    · exact .idle hnext ho rfl rfl
    · exact .out 0 _ BitCounts.pieces_pos hnext ho (rest_zero d.side _).symm rfl
        (part_zero d.side _).symm

/-- The loop is a conveyor. -/
theorem exec (hl : p.Loaded o (w.blocks b).insn) (h : (w.sm b i).Carries (Holds p o d) l) :
    ∃ s' stalled, w.execInsn b i (w.getInstruction b i) = ⟨w.setSm b i s', stalled, none⟩ ∧
      Sm.Carries (Holds p o d) (if stalled then s' else { s' with pc := s'.nextPc }) l := by
  obtain ⟨m, hm, rfl⟩ := h.inside
  have hcarry : (w.sm b i).Carries (fun _ m' => m' = m)
      ((w.sm b i).rx.contents ++ m ++ (w.sm b i).tx.contents) := ⟨h.tx_wf, h.rx_wf, m, rfl, rfl⟩
  have hthresh : (w.sm b i).pullThresh = 32 := hm.config.pullThresh
  have hget : w.getInstruction b i = (w.blocks b).insn (Fin.ofNat 32 (w.sm b i).pc) := by
    rw [World.getInstruction, hm.fetches, if_neg Bool.false_ne_true]
  rw [hget]
  cases hm.stage with
  | idle hpc ho hi hisr =>
    -- nothing to shift out yet
    obtain ⟨hop, harg⟩ := hl.out 0 BitCounts.pieces_pos
    rw [Nat.mul_zero, Nat.add_zero] at hop harg
    have hstalls : (w.sm b i).outStalls = true := by
      rw [Sm.outStalls, show (w.sm b i).autopull = true from hm.config.autopull, hthresh, ho]
      rfl
    rw [hpc, execInsn_out hop harg (BitCounts.count_pos BitCounts.pieces_pos)
      (BitCounts.count_le BitCounts.pieces_pos), if_pos hstalls]
    refine ⟨_, true, rfl, hcarry.regs rfl rfl ?_⟩
    rintro _ rfl
    exact hm.datapath (by rfl)
  | out j v hj hpc ho hosr hi hisr =>
    obtain ⟨hop, harg⟩ := hl.out j hj
    have hlt := BitCounts.before_lt hj
    have hstalls : ¬ (w.sm b i).outStalls = true := by
      rw [Sm.outStalls, hthresh, ho, decide_eq_false (by omega), Bool.and_false]
      exact Bool.false_ne_true
    rw [hpc, execInsn_out hop harg (BitCounts.count_pos hj) (BitCounts.count_le hj), if_neg hstalls]
    refine ⟨_, false, rfl, hcarry.regs rfl rfl ?_⟩
    rintro _ rfl
    exact exec_out hl.fits hm hj hpc ho hosr hi hisr
  | in_ j hj v m hpc hx hi hisr hsup =>
    obtain ⟨hop, harg⟩ := hl.in_ j hj
    have hsucc := BitCounts.before_succ hj
    have hbound := BitCounts.before_le (p := p) (j + 1)
    rw [hpc, execInsn_in hop harg (BitCounts.count_pos hj) (BitCounts.count_le hj)]
    obtain ⟨hcases, hcount⟩ := execIn_cases (n := p.counts[j]) (s := w.sm b i) hm.config.autopush
      hm.config.pushThresh (by omega) (w.sm b i).x
    rcases hcases with hstall | ⟨hmore, hshift⟩ | ⟨hlast, s', hdrain, hpush⟩
    · rw [hstall]
      refine ⟨_, true, rfl, hcarry.regs rfl rfl ?_⟩
      rintro _ rfl
      exact hm.datapath (by rfl)
    · rw [hshift]
      have hnot := (BitCounts.before_succ_eq_iff hj).not.mp (by omega)
      rcases hsup with ⟨ho, hosr, rfl⟩ | ⟨hfull, -, -⟩
      · refine ⟨_, false, rfl, hcarry.regs rfl rfl ?_⟩
        rintro _ rfl
        exact exec_in_more hl.fits hm hj (by omega) hpc hx hi hisr ho hosr
      · omega
    · rw [hpush]
      have hfull : p.before (j + 1) = 32 := by omega
      rw [hfull, rest_full] at hsup
      obtain ⟨hisr', hholds⟩ := exec_in_last hm hj ((BitCounts.before_succ_eq_iff hj).mp hfull) hpc
        hx hisr hsup hdrain
      refine ⟨s', false, rfl, ?_⟩
      have hshifted : ((w.sm b i).inShift (w.sm b i).x p.counts[j]).Carries
        (fun _ m' => m' = v :: m)
          ((w.sm b i).rx.contents ++ v :: m ++ (w.sm b i).tx.contents) :=
        hcarry.regs rfl rfl fun _ h => h
      have hdone :=
        hshifted.drain (G := fun t m' => Holds p o d { t with pc := t.nextPc } m') hdrain
        (by rintro _ rfl; exact ⟨m, by rw [hisr'], hholds⟩)
      exact hdone.regs rfl rfl fun _ h => h

end BitRelay

/-- The loop as a conveyor. -/
def BitCounts.relay (p : BitCounts) (o : ℕ) (d : ShiftDir) (b : BlockAddr) (i : Fin 4) :
    Conveyor b i where
  Loaded := p.Loaded o
  Holds := BitRelay.Holds p o d
  datapath hd h := h.datapath hd
  fetches h := h.fetches
  autopull _ hfull h := h.autopull hfull
  exec hl h := BitRelay.exec hl h

namespace World

/-- From `pio_sim_sm_init` on, the loop refines a queue: along every run of ticks, `put` and `get`,
with whatever the host does elsewhere in between, the words returned are a prefix of the words
accepted. -/
theorem relayed_words_prefix (p : BitCounts) {o : ℕ} {d : ShiftDir} {cfg : SmConfig} {w : World}
    {b : BlockAddr} {i : Fin 4} (hprog : p.Loaded o (w.blocks b).insn)
    (hcfg : p.Configured o d cfg) {cs : List Call} (hcs : ∀ c ∈ cs, c.Feeds b i) :
    Run.collect step (returned b i) (w.smInit b i o cfg) cs <+:
      Run.collect step (accepted b i) (w.smInit b i o cfg) cs := by
  have hpc : o % 32 = o := by
    have hfits := hprog.fits
    have hpos := BitCounts.pieces_pos (p := p)
    omega
  have hstart : BitRelay.Holds p o d ((w.sm b i).init o cfg) [] := by
    refine ⟨?_, rfl, .idle hpc rfl rfl rfl⟩
    have hconfig : ((w.sm b i).init o cfg).config = ((w.sm b i).setConfig cfg).config := rfl
    rw [hconfig, Sm.config_setConfig]
    exact ⟨hcfg.autopull, hcfg.autopush, hcfg.pullThresh, hcfg.pushThresh, hcfg.outDir, hcfg.inDir,
      hcfg.wrapBottom, hcfg.wrapTop⟩
  have hinit : (p.relay o d b i).Carries (w.smInit b i o cfg) [] := by
    refine ⟨?_, ?_⟩
    · rw [smInit, insn_modifySm]
      exact hprog
    · rw [smInit, sm_modifySm_self]
      exact .init hstart
  obtain ⟨l, -, hl⟩ := Conveyor.run hinit hcs
  exact ⟨l, hl.symm⟩

/-- A word relayed in pieces of 12 and 20 bits. -/
def twelveTwenty : BitCounts := ⟨[12, 20], by decide, by decide⟩

omit [Platform] in
/-- One word goes round the loop and the next is put behind it. -/
theorem relayed_words_prefix_twelve_twenty :
    letI : Platform := ⟨.rp2350⟩
    let w := initial.step (.block 0 (.load 0 [0x602C, 0x402C, 0x6034, 0x4034]))
    let cfg := ((defaultSmConfig.setWrap 0 3).setOutShift true true 32).setInShift true true 32
    let cs := [.setEnabled 0 0 true, .sm 0 0 (.put 0x12345678), .tickSms 0, .tickSms 0, .tickSms 0,
      .sm 0 0 (.put 7), .tickSms 0, .sm 0 0 .get]
    Run.collect step (returned 0 0) (w.smInit 0 0 0 cfg) cs = [0x12345678] ∧
      Run.collect step (returned 0 0) (w.smInit 0 0 0 cfg) cs <+:
        Run.collect step (accepted 0 0) (w.smInit 0 0 0 cfg) cs := by
  let P : Platform := ⟨.rp2350⟩
  intro w cfg cs
  have hprog : twelveTwenty.Loaded 0 (w.blocks 0).insn :=
    ⟨by decide, by decide +kernel, by decide +kernel⟩
  have hcfg : twelveTwenty.Configured 0 .right cfg := ⟨rfl, rfl, rfl, rfl, rfl, rfl, rfl, rfl⟩
  have hcs : ∀ c ∈ cs, c.Feeds 0 0 := by
    have htick : (Call.tickSms 0).Feeds 0 0 := .inl rfl
    have hput : ∀ v, (Call.sm 0 0 (.put v)).Feeds 0 0 := fun v => .inr (.inl ⟨v, 0, rfl, rfl⟩)
    have hget : (Call.sm 0 0 .get).Feeds 0 0 := .inr (.inr (.inl ⟨0, rfl, rfl⟩))
    have henable : (Call.setEnabled 0 0 true).Feeds 0 0 := .inr (.inr (.inr ⟨id, id⟩))
    simp only [cs, List.forall_mem_cons]
    exact ⟨henable, hput _, htick, htick, htick, hput _, htick, hget, fun _ h => nomatch h⟩
  exact ⟨by decide +kernel, relayed_words_prefix twelveTwenty hprog hcfg hcs⟩

end World
end PioSim
