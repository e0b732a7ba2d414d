import PioSim.Bystander
import PioSim.Invariant
import PioSim.Lib.Latch

/-!
# The system interrupt lines

`INTR` collects what the state machines and the IRQ flags ask for, `INTE` and `INTF` say which of it
reaches a line and what is forced onto one. Over a whole run a line is asserted exactly by the
sources that are live and were enabled last, and by those that were forced last.
-/

namespace PioSim

variable [Platform]

/-- How many IRQ flags `pio_sim_get_intr` routes. -/
def irqRouteCount : ℕ := if hasIntrIrq8 then 8 else 4

namespace World

variable (w : World) (b : BlockAddr)

def getIntr : BitVec 32 :=
  let intr := (List.finRange 4).foldl (fun (intr : BitVec 32) (i : Fin 4) =>
    let intr := if !(w.sm b i).rx.isEmpty then intr ||| (1#32 <<< i.val) else intr
    if !(w.sm b i).tx.isFull then intr ||| (1#32 <<< (4 + i.val)) else intr) 0
  (List.range irqRouteCount).foldl (fun intr i =>
    if (w.blocks b).irq.getLsbD i then intr ||| (1#32 <<< (8 + i)) else intr) intr

def getInte (line : ℕ) : BitVec 32 := (w.blocks b).irqInte (Fin.ofNat 2 line)

def getIntf (line : ℕ) : BitVec 32 := (w.blocks b).irqIntf (Fin.ofNat 2 line)

def getInts (line : ℕ) : BitVec 32 :=
  (w.getIntr b &&& (w.blocks b).irqInte (Fin.ofNat 2 line)) |||
    (w.blocks b).irqIntf (Fin.ofNat 2 line)

def getIrqnAsserted (line : ℕ) : Bool := w.getInts b line != 0

/-- Source `k` of block `b`: a state machine has a word to be read or room for one, or an IRQ flag
is set. -/
def live (k : ℕ) : Bool :=
  if k < 4 then !(w.sm b (Fin.ofNat 4 k)).rx.isEmpty
  else if k < 8 then !(w.sm b (Fin.ofNat 4 k)).tx.isFull
  else decide (k < 8 + irqRouteCount) && (w.blocks b).irq.getLsbD (k - 8)

end World

def Pio.setIrqnSourceEnabled (p : Pio) (line : ℕ) (source : BitVec 32) (enabled : Bool) : Pio :=
  p.setIrqnSourceMaskEnabled line source enabled

/-! ### The sources -/

theorem irqRouteCount_le : irqRouteCount ≤ 8 := by
  unfold irqRouteCount
  split <;> decide

section
omit [Platform]

theorem getLsbD_orBit (on : Bool) (x : BitVec 32) {p : ℕ} (hp : p < 32) (k : ℕ) :
    (if on then x ||| (1#32 <<< p) else x).getLsbD k = (x.getLsbD k || (on && decide (k = p))) := by
  cases on with
  | false => simp
  | true =>
    rw [if_pos rfl, BitVec.getLsbD_or, Bool.true_and]
    by_cases hk : k = p
    · subst hk
      simp [hp]
    · rw [getLsbD_bit_of_ne (Ne.symm hk), decide_eq_false hk]

/-- The FIFO sources of the machines visited: readable at the machine's number, writable four bits
on. -/
theorem getLsbD_foldl_fifos (readable writable : Fin 4 → Bool) (is : List (Fin 4))
    (x : BitVec 32) (k : ℕ) :
    (is.foldl (fun (intr : BitVec 32) (i : Fin 4) =>
      let intr := if readable i then intr ||| (1#32 <<< i.val) else intr
      if writable i then intr ||| (1#32 <<< (4 + i.val)) else intr) x).getLsbD k =
      (x.getLsbD k || (is.any (fun i => readable i && decide (k = i.val)) ||
        is.any fun i => writable i && decide (k = 4 + i.val))) := by
  induction is generalizing x with
  | nil => simp
  | cons i is ih =>
    rw [List.foldl_cons, ih, getLsbD_orBit _ _ (by omega), getLsbD_orBit _ _ (by omega),
      List.any_cons, List.any_cons]
    ac_rfl

/-- The flags, one place each. -/
theorem getLsbD_foldl_flags (flag : ℕ → Bool) (x : BitVec 32) {n : ℕ} (hn : n ≤ 8) (k : ℕ) :
    ((List.range n).foldl (fun x i => if flag i then x ||| (1#32 <<< (8 + i)) else x) x).getLsbD k =
      (x.getLsbD k || (decide (8 ≤ k ∧ k < 8 + n) && flag (k - 8))) := by
  induction n with
  | zero =>
    rw [decide_eq_false (by omega), Bool.false_and, Bool.or_false]
    rfl
  | succ n ih =>
    rw [List.range_succ, List.foldl_append, List.foldl_cons, List.foldl_nil,
      getLsbD_orBit _ _ (by omega), ih (by omega), Bool.or_assoc]
    congr 1
    by_cases hk : k = 8 + n
    · subst hk
      simp
    · have hiff : (8 ≤ k ∧ k < 8 + n) ↔ 8 ≤ k ∧ k < 8 + (n + 1) := by omega
      simp [hk, hiff]

end

namespace World

variable {w : World} {b : BlockAddr}

omit [Platform] in
/-- Of the machines exactly the `k`-th has the bit `k`. -/
theorem any_machine (on : Fin 4 → Bool) {k : ℕ} (hk : k < 4) :
    (List.finRange 4).any (fun i => on i && decide (k = i.val)) = on (Fin.ofNat 4 k) := by
  rw [Bool.eq_iff_iff, List.any_eq_true]
  constructor
  · rintro ⟨i, -, hi⟩
    obtain ⟨hon, hki⟩ := Bool.and_eq_true_iff.mp hi
    have hmachine : Fin.ofNat 4 k = i := by
      rw [of_decide_eq_true hki]
      exact Fin.ofNat_val_eq_self i
    rw [hmachine]
    exact hon
  · intro hon
    refine ⟨Fin.ofNat 4 k, List.mem_finRange _, Bool.and_eq_true_iff.mpr ⟨hon, decide_eq_true ?_⟩⟩
    exact (Nat.mod_eq_of_lt hk).symm

omit [Platform] in
/-- A bit that no machine has stays clear. -/
theorem any_none (on : Fin 4 → Bool) {f : Fin 4 → ℕ} {k : ℕ} (hk : ∀ i, k ≠ f i) :
    ((List.finRange 4).any fun i => on i && decide (k = f i)) = false := by
  rw [List.any_eq_false]
  intro i _ hi
  exact hk i (of_decide_eq_true (Bool.and_eq_true_iff.mp hi).2)

theorem getLsbD_getIntr (w : World) (b : BlockAddr) (k : ℕ) :
    (w.getIntr b).getLsbD k = w.live b k := by
  unfold getIntr live
  rw [getLsbD_foldl_flags _ _ irqRouteCount_le, getLsbD_foldl_fifos,
    show (0 : BitVec 32).getLsbD k = false from BitVec.getLsbD_zero, Bool.false_or]
  by_cases hrx : k < 4
  · rw [if_pos hrx, any_machine (fun i => !(w.sm b i).rx.isEmpty) hrx, any_none _ (by omega),
      decide_eq_false (by omega), Bool.false_and, Bool.or_false, Bool.or_false]
  · rw [if_neg hrx, any_none _ (by omega), Bool.false_or]
    by_cases htx : k < 8
    · have hshift : ∀ i : Fin 4, decide (k = 4 + i.val) = decide (k - 4 = i.val) := fun i =>
        decide_eq_decide.mpr (by omega)
      have hmachine : Fin.ofNat 4 (k - 4) = Fin.ofNat 4 k := by
        ext
        change (k - 4) % 4 = k % 4
        omega
      simp only [hshift]
      rw [if_pos htx, any_machine (fun i => !(w.sm b i).tx.isFull) (by omega), hmachine,
        decide_eq_false (by omega), Bool.false_and, Bool.or_false]
    · rw [if_neg htx, any_none _ (by omega), Bool.false_or]
      have hle : 8 ≤ k := Nat.le_of_not_lt htx
      rw [decide_eq_decide.mpr (and_iff_right hle)]

/-! ### The registers -/

omit [Platform] in
/-- Nothing that executes reaches the interrupt registers. -/
theorem bystander_interrupts : Bystander interrupts where
  setSm _ _ _ s := interrupts_setSm s
  setIrq _ _ _ := interrupts_setBlock (by rfl) (by rfl)
  countFetch w b i := by
    unfold countFetch
    split
    · rfl
    · exact interrupts_setBlock (by rfl) (by rfl)
  setPads _ _ _ := interrupts_setPads _ _

omit [Platform] in
theorem interrupts_load (w : World) (b : BlockAddr) (offset : ℕ) (words : List Insn) :
    (w.setBlock b ((w.blocks b).load offset words)).interrupts = w.interrupts := by
  have hload : ((w.blocks b).load offset words).irqInte = (w.blocks b).irqInte ∧
      ((w.blocks b).load offset words).irqIntf = (w.blocks b).irqIntf := by
    refine List.foldlRecOn (motive := fun q : Pio => q.irqInte = (w.blocks b).irqInte ∧
      q.irqIntf = (w.blocks b).irqIntf) _ _ ⟨rfl, rfl⟩ ?_
    intro q hq x _
    simp only
    split <;> exact hq
  exact interrupts_setBlock hload.1 hload.2

end World

def Call.writesInterrupts : Call → Bool
  | .block _ (.setIrqnSourceMaskEnabled ..) => true
  | .block _ (.setIntf ..) => true
  | .init _ => true
  | _ => false

/-- What a call writes to `INTE` of a line, or to `INTF` with `forced`; `pio_sim_init` clears
both. -/
def Call.lineWrite (forced : Bool) (b : BlockAddr) (l : Fin 2) : Call → Option (Latch.Write 32)
  | .block c (.setIrqnSourceMaskEnabled line mask enabled) =>
    if forced = false ∧ c = b ∧ Fin.ofNat 2 line = l then
      some ⟨mask &&& Pio.intsValidMask, enabled⟩ else none
  | .block c (.setIntf line mask on) =>
    if forced = true ∧ c = b ∧ Fin.ofNat 2 line = l then
      some ⟨mask &&& Pio.intsValidMask, on⟩ else none
  | .init c => if c = b then some ⟨BitVec.allOnes 32, false⟩ else none
  | _ => none

namespace World

variable {w : World} {b : BlockAddr}

/-- Every other call leaves the registers alone. -/
theorem interrupts_step (w : World) {c : Call} (hc : c.writesInterrupts = false) :
    (w.step c).interrupts = w.interrupts := by
  cases hwrites : c.writesBlock with
  | false => exact bystander_interrupts.step w hwrites
  | true =>
    cases c with
    | block b op =>
      cases op with
      | load offset words => exact interrupts_load w b offset words
      | setIrqnSourceMaskEnabled | setIntf => cases hc
      | irqClear | irqForce | setIrqNeighbors | setGpioBase =>
          exact interrupts_setBlock (by rfl) (by rfl)
    | groupInit g blocks =>
      exact Bystander.groupInit w g blocks (fun _ => rfl) fun _ _ _ _ =>
        interrupts_setBlock (by rfl) (by rfl)
    | groupInitShared g blocks =>
      refine (Bystander.foldl _ (fun _ _ => interrupts_setBlock (by rfl) (by rfl)) _).trans ?_
      exact Bystander.groupInit w g blocks (fun _ => rfl) fun _ _ _ _ =>
        interrupts_setBlock (by rfl) (by rfl)
    | loadProgram b k offset prog =>
      exact bystander_interrupts.loadProgram w b _ offset prog (interrupts_load w b offset)
    | tickEnd b => exact bystander_interrupts.tickEnd w b fun _ =>
        interrupts_setBlock (by rfl) (by rfl)
    | init => cases hc
    | _ => cases hwrites

/-- `INTE` of a line, or `INTF` with `forced`. -/
def lineRegister (forced : Bool) (b : BlockAddr) (l : Fin 2) (w : World) : BitVec 32 :=
  if forced then (w.blocks b).irqIntf l else (w.blocks b).irqInte l

omit [Platform] in
theorem lineRegister_of_interrupts {w v : World} (h : v.interrupts = w.interrupts) (forced : Bool)
    (b : BlockAddr)
    (l : Fin 2) : lineRegister forced b l v = lineRegister forced b l w := by
  obtain ⟨hinte, hintf⟩ := Prod.mk.inj (congrFun h b)
  unfold lineRegister
  rw [hinte, hintf]

theorem lineWrite_of_plain {c : Call} (hc : c.writesInterrupts = false) (forced : Bool)
    (b : BlockAddr) (l : Fin 2) :
    c.lineWrite forced b l = none := by
  unfold Call.writesInterrupts at hc
  unfold Call.lineWrite
  split at hc <;> simp_all

omit [Platform] in
theorem lineRegister_setBlock_of_ne {b c : BlockAddr} (h : c ≠ b) (p : Pio) (forced : Bool)
    (l : Fin 2) (w : World) :
    lineRegister forced b l (w.setBlock c p) = lineRegister forced b l w := by
  have hblock : (w.setBlock c p).blocks b = w.blocks b := Function.update_of_ne (Ne.symm h) _ _
  unfold lineRegister
  rw [hblock]

/-- The registers of a line are reached by their own writes only. -/
theorem port_lineRegister (forced : Bool) (b : BlockAddr) (l : Fin 2) :
    Latch.Port World.step (lineRegister forced b l) (Call.lineWrite forced b l) := by
  intro w c
  cases hwrites : c.writesInterrupts with
  | false =>
    rw [lineWrite_of_plain hwrites, lineRegister_of_interrupts (interrupts_step w hwrites)]
    rfl
  | true =>
    unfold Call.writesInterrupts at hwrites
    split at hwrites
    · rename_i c line mask enabled
      by_cases hcb : c = b
      · subst hcb
        simp only [World.step, BlockOp.apply, Pio.setIrqnSourceMaskEnabled, lineRegister, setBlock,
          Call.lineWrite, Function.update_self]
        generalize Fin.ofNat 2 line = j
        by_cases hl : j = l <;> cases forced <;> simp [Latch.Write.apply, hl, eq_comm (a := l)]
      · rw [World.step, lineRegister_setBlock_of_ne hcb]
        simp [Call.lineWrite, hcb]
    · rename_i c line mask on
      by_cases hcb : c = b
      · subst hcb
        simp only [World.step, BlockOp.apply, Pio.setIntf, lineRegister, setBlock, Call.lineWrite,
          Function.update_self]
        generalize Fin.ofNat 2 line = j
        by_cases hl : j = l <;> cases forced <;> simp [Latch.Write.apply, hl, eq_comm (a := l)]
      · rw [World.step, lineRegister_setBlock_of_ne hcb]
        simp [Call.lineWrite, hcb]
    · rename_i c
      by_cases hcb : c = b
      · subst hcb
        simp [World.step, pioSimInit, lineRegister, setBlock, Pio.initial, Call.lineWrite,
          Latch.Write.apply]
      · rw [World.step, pioSimInit, lineRegister_setBlock_of_ne hcb]
        simp [Call.lineWrite, hcb]
    · cases hwrites

theorem getLsbD_intsValidMask {k : ℕ} (hk : 8 + irqRouteCount ≤ k) :
    Pio.intsValidMask.getLsbD k = false := by
  have hmask : Pio.intsValidMask = maskN (8 + irqRouteCount) := by
    unfold Pio.intsValidMask irqRouteCount
    cases hasIntrIrq8 <;> decide
  rw [hmask, getLsbD_maskN, decide_eq_false (Nat.not_lt_of_le hk)]
  simp

/-- Nothing is written outside the sources. -/
theorem mask_lineWrite {forced : Bool} {b : BlockAddr} {l : Fin 2} {c : Call} {u : Latch.Write 32}
    (h : c.lineWrite forced b l = some u) (hon : u.on = true) {k : ℕ} (hk : 8 + irqRouteCount ≤ k) :
    u.mask.getLsbD k = false := by
  have hmask : ∀ m : BitVec 32, (m &&& Pio.intsValidMask).getLsbD k = false := fun m => by
    rw [BitVec.getLsbD_and, getLsbD_intsValidMask hk, Bool.and_false]
  unfold Call.lineWrite at h
  split at h
  · obtain rfl := Option.some.inj (Option.ite_none_right_eq_some.mp h).2
    exact hmask _
  · obtain rfl := Option.some.inj (Option.ite_none_right_eq_some.mp h).2
    exact hmask _
  · obtain rfl := Option.some.inj (Option.ite_none_right_eq_some.mp h).2
    cases hon
  · cases h

omit [Platform] in
theorem ne_zero_iff_getLsbD {x : BitVec 32} : x ≠ 0 ↔ ∃ k, x.getLsbD k = true := by
  constructor
  · intro hne
    by_contra hnone
    refine hne (BitVec.eq_of_getLsbD_eq fun k _ => ?_)
    rw [Bool.eq_false_iff.mpr fun hk => hnone ⟨k, hk⟩]
    exact BitVec.getLsbD_zero.symm
  · rintro ⟨k, hk⟩ hzero
    rw [hzero] at hk
    exact absurd (BitVec.getLsbD_zero.symm.trans hk) Bool.false_ne_true

theorem getLsbD_getInts (w : World) (b : BlockAddr) (line k : ℕ) : (w.getInts b line).getLsbD k =
    (w.live b k && (lineRegister false b (Fin.ofNat 2 line) w).getLsbD k ||
      (lineRegister true b (Fin.ofNat 2 line) w).getLsbD k) := by
  unfold getInts
  rw [BitVec.getLsbD_or, BitVec.getLsbD_and, getLsbD_getIntr]
  rfl

/-- After any calls from power-up a line is asserted exactly if one of its sources is live and was
enabled by the last write that named it, or was forced by the last write that named it. -/
theorem interrupt_line_tells (cs : List Call) (b : BlockAddr) (line : ℕ) :
    (initial.run cs).getIrqnAsserted b line = true ↔ ∃ k < 8 + irqRouteCount,
      ((initial.run cs).live b k = true ∧
        Latch.last k (cs.filterMap (Call.lineWrite false b (Fin.ofNat 2 line))) false = true) ∨
      Latch.last k (cs.filterMap (Call.lineWrite true b (Fin.ofNat 2 line))) false = true := by
  have hregister :
    ∀ forced k, (lineRegister forced b (Fin.ofNat 2 line) (initial.run cs)).getLsbD k =
      Latch.last k (cs.filterMap (Call.lineWrite forced b (Fin.ofNat 2 line))) false := by
    intro forced k
    have hrun := (port_lineRegister forced b (Fin.ofNat 2 line)).run initial cs k
    have hzero : (lineRegister forced b (Fin.ofNat 2 line) initial).getLsbD k = false := by
      cases forced <;> exact BitVec.getLsbD_zero
    rw [hzero] at hrun
    exact hrun
  have hinside :
    ∀ forced k, Latch.last k (cs.filterMap (Call.lineWrite forced b (Fin.ofNat 2 line))) false =
    true →
      k < 8 + irqRouteCount := by
    intro forced k hlast
    by_contra hk
    rw [Latch.last_of_unnamed fun u hu hon => ?_] at hlast
    · cases hlast
    · obtain ⟨c, -, hc⟩ := List.mem_filterMap.mp hu
      exact mask_lineWrite hc hon (Nat.le_of_not_lt hk)
  unfold getIrqnAsserted
  rw [bne_iff_ne, ne_zero_iff_getLsbD]
  refine exists_congr fun k => ?_
  rw [getLsbD_getInts, hregister, hregister, Bool.or_eq_true, Bool.and_eq_true]
  refine ⟨fun h => ⟨?_, h⟩, And.right⟩
  exact h.elim (fun hlive => hinside false k hlive.2) (hinside true k)

end World
end PioSim
