import PioSim.Conveyor
import PioSim.Queues
import PioSim.Lib.Kahn

/-!
# Host timing

A state machine without autopull whose program only computes on its registers and blocks on its
FIFOs is a Kahn process between two buffers: a stall leaves the registers alone, so what the host
reads from RX depends on what it puts into TX but not on when it does either.
-/

namespace PioSim

open Kahn

variable [Platform]

namespace Dataflow

/-- The sources X, Y, NULL, ISR and OSR. -/
def Source (src : ℕ) : Prop := src = 1 ∨ src = 2 ∨ src = 3 ∨ src = 6 ∨ src = 7

/-- The words such a program is made of: every JMP but `jmp pin`, SET to X or Y, MOV between
registers, OUT to X, Y, NULL or ISR, IN from a register, and blocking PUSH and PULL. -/
def Allowed (insn : Insn) : Prop :=
  let operand := operandOf insn
  let field := operand / 32 % 8
  opcode insn = 0 ∧ field ≠ 6 ∨
  opcode insn = 2 ∧ Source field ∨
  opcode insn = 3 ∧ (field = 1 ∨ field = 2 ∨ field = 3 ∨ field = 6) ∨
  opcode insn = 4 ∧ operand.testBit 5 = true ∧ (hasRxfifoMov && operand.testBit 4) = false ∨
  opcode insn = 5 ∧ (field = 1 ∨ field = 2 ∨ field = 6 ∨ field = 7) ∧ Source (operand % 8) ∨
  opcode insn = 7 ∧ (field = 1 ∨ field = 2)

instance (src : ℕ) : Decidable (Source src) :=
  inferInstanceAs (Decidable (_ ∨ _ ∨ _ ∨ _ ∨ _))

instance (insn : Insn) : Decidable (Allowed insn) :=
  inferInstanceAs (Decidable (_ ∧ _ ∨ _ ∧ _ ∨ _ ∧ _ ∨ _ ∧ _ ∨ _ ∧ _ ∨ _ ∧ _))

/-- The addresses control flow can reach from `start`. -/
inductive Visits (mem : Fin 32 → Insn) (bottom top start : ℕ) : ℕ → Prop
  | start : Visits mem bottom top start start
  | next {a : ℕ} : Visits mem bottom top start a →
    Visits mem bottom top start (if a = top then bottom else (a + 1) % 32)
  | jump {a : ℕ} : Visits mem bottom top start a → opcode (mem (Fin.ofNat 32 a)) = 0 →
    Visits mem bottom top start (operandOf (mem (Fin.ofNat 32 a)) % 32)

end Dataflow

namespace Sm

/-- A record with its FIFOs, pins and timing blanked out. -/
def registers (s : Sm) : Sm :=
  { s with
    enabled := false
    pins := PinRegs.none
    clkAccum := 0
    delay := 0
    stalled := false
    fdebug := 0
    tx := Fifo.empty 0
    rx := Fifo.empty 0
    pulled := []
    pushed := [] }

/-- `read_source` for the sources inside the state machine. -/
def source (s : Sm) (src : ℕ) : Word :=
  match src with
  | 1 => s.x
  | 2 => s.y
  | 6 => s.isr
  | 7 => s.osr
  | _ => 0

/-- Where control goes on after a committed instruction. -/
def goto (s : Sm) (target : Option ℕ) : Sm := { s with pc := target.getD s.nextPc }

/-- An allowed instruction as an action of the process; the jump target comes with the registers. -/
def dataflow (s : Sm) (insn : Insn) : Act (Sm × Option ℕ) Word Word :=
  let operand := operandOf insn
  let count := shiftCount operand
  match opcode insn with
  | 0 => .go (s.execJmp false operand)
  | 2 =>
    let s := s.inShift (s.source (operand / 32 % 8)) count
    if s.autopush && s.pushThresh ≤ s.isrCount
    then .emit s.isr ({ s with isr := 0, isrCount := 0 }, none) else .go (s, none)
  | 3 =>
    let v := s.outValue count
    let s := s.outShift count
    match operand / 32 % 8 with
    | 1 => .go ({ s with x := v }, none)
    | 2 => .go ({ s with y := v }, none)
    | 6 => .go ({ s with isr := v, isrCount := count }, none)
    | _ => .go (s, none)
  | 4 =>
    if !operand.testBit 7 then
      if operand.testBit 6 && s.isrCount < s.pushThresh then .go (s, none)
      else .emit s.isr ({ s with isr := 0, isrCount := 0 }, none)
    else if operand.testBit 6 && s.osrCount < s.pullThresh then .go (s, none)
    else .take fun v => ({ s with osr := v, osrCount := 0 }, none)
  | 5 =>
    let v := s.source (operand % 8)
    let v := match operand / 8 % 4 with
      | 1 => ~~~ v
      | 2 => reverse32 v
      | _ => v
    match operand / 32 % 8 with
    | 1 => .go ({ s with x := v }, none)
    | 2 => .go ({ s with y := v }, none)
    | 6 => .go ({ s with isr := v, isrCount := 0 }, none)
    | _ => .go ({ s with osr := v, osrCount := 0 }, none)
  | _ =>
    let v := BitVec.ofNat 32 (operand % 32)
    match operand / 32 % 8 with
    | 1 => .go ({ s with x := v }, none)
    | _ => .go ({ s with y := v }, none)

/-- From `s` to `s'` the action `a` was performed, with the jump target `p`, or the state machine
stalled on it. -/
inductive Performs (s : Sm) : Act (Sm × Option ℕ) Word Word → Sm → Bool → Option ℕ → Prop
  | stall {a s' p} : s'.registers = s.registers → s'.tx = s.tx → s'.rx = s.rx →
    Performs s a s' true p
  | go {k s' p} : s'.registers = k → s'.tx = s.tx → s'.rx = s.rx →
    Performs s (.go (k, p)) s' false p
  | take {f v s' p} : s.tx.pop = some (v, s'.tx) → s'.rx = s.rx → (s'.registers, p) = f v →
    Performs s (.take f) s' false p
  | emit {k v s' p} : s.rx.push v = some s'.rx → s'.tx = s.tx → s'.registers = k →
    Performs s (.emit v (k, p)) s' false p

variable {s s' : Sm}

omit [Platform] in
theorem Performs.of_stalled {a : Act (Sm × Option ℕ) Word Word} {p : Option ℕ}
    (h : s.Performs a s' true p) :
    s'.registers = s.registers ∧ s'.tx = s.tx ∧ s'.rx = s.rx := by
  cases h with
  | stall hregs htx hrx => exact ⟨hregs, htx, hrx⟩

omit [Platform] in
theorem execJmp_performs (s : Sm) {pin : Bool} {operand : ℕ} (h : operand / 32 % 8 ≠ 6) :
    Performs s (.go (s.registers.execJmp false operand)) (s.execJmp pin operand).1 false
      (s.execJmp pin operand).2 := by
  unfold execJmp
  generalize operand / 32 % 8 = cond at h
  match cond, h with
  | 0, _ => exact .go rfl rfl rfl
  | 1, _ => exact .go rfl rfl rfl
  | 2, _ => exact .go rfl rfl rfl
  | 3, _ => exact .go rfl rfl rfl
  | 4, _ => exact .go rfl rfl rfl
  | 5, _ => exact .go rfl rfl rfl
  | 6, h => exact absurd rfl h
  | _ + 7, _ => exact .go rfl rfl rfl

/-- A drain hands the ISR to RX. -/
theorem isrDrain_performs (hb : s.pushBlocked = false) :
    Performs s (.emit s.isr ({ s.registers with isr := 0, isrCount := 0 }, none))
      (s.isrDrain.getD s) false none := by
  cases hd : s.isrDrain with
  | some s' =>
    obtain ⟨rx, hpush, rfl⟩ := isrDrain_eq_some hd
    exact .emit hpush rfl rfl
  | none =>
    simp only [pushBlocked, Bool.or_eq_false_iff] at hb
    unfold isrDrain at hd
    split at hd
    · rename_i hnone
      rw [Fifo.push_eq_none_iff, ← Fifo.isFull_iff, hb.2] at hnone
      cases hnone
    · cases hd

omit [Platform] in
/-- A refill takes the next word of TX into the OSR. -/
theorem osrRefill_performs (he : s.tx.isEmpty = false) :
    Performs s (.take fun v => ({ s.registers with osr := v, osrCount := 0 }, none))
      (s.osrRefill.getD s) false none := by
  cases hr : s.osrRefill with
  | some s' =>
    obtain ⟨v, tx, hpop, rfl⟩ := osrRefill_eq_some hr
    exact .take hpop rfl rfl
  | none =>
    unfold osrRefill at hr
    split at hr
    · rename_i hnone
      rw [Fifo.pop_eq_none_iff] at hnone
      simp [Fifo.isEmpty, hnone] at he
    · cases hr

/-- Shifting in comes before the autopush, which has been checked to have room. -/
theorem execIn_performs (s : Sm) (src : Word) (count : ℕ) :
    let t := s.inShift src count
    Performs s
      (if t.autopush && t.pushThresh ≤ t.isrCount
        then .emit t.isr ({ t.registers with isr := 0, isrCount := 0 }, none)
        else .go (t.registers, none))
      (s.execIn src count).1 (s.execIn src count).2 none := by
  intro t
  have hcount : t.isrCount ≤ s.isrCount + count := s.inShift_isrCount_le src count
  unfold execIn
  simp only
  by_cases hstall :
    (s.autopush && decide (s.pushThresh ≤ s.isrCount + count) && s.pushBlocked) = true
  · rw [if_pos hstall]
    exact .stall rfl rfl rfl
  · rw [if_neg hstall]
    by_cases hdrain : (t.autopush && decide (t.pushThresh ≤ t.isrCount)) = true
    · have hroom : t.pushBlocked = false := by
        simp only [Bool.and_eq_true, decide_eq_true_eq, not_and, Bool.not_eq_true, and_imp]
          at hstall hdrain
        exact hstall hdrain.1 (Nat.le_trans hdrain.2 hcount)
      rw [if_pos hdrain, if_pos hdrain]
      cases isrDrain_performs hroom with
      | emit hpush htx hregs => exact .emit hpush htx hregs
    · rw [if_neg hdrain, if_neg hdrain]
      exact .go rfl rfl rfl

/-- A blocking PUSH or PULL without autopull. -/
theorem execPushpull_performs {operand : ℕ} (hauto : s.autopull = false)
    (hblock : operand.testBit 5 = true) :
    Performs s
      (if !operand.testBit 7 then
        if operand.testBit 6 && s.isrCount < s.pushThresh then .go (s.registers, none)
        else .emit s.isr ({ s.registers with isr := 0, isrCount := 0 }, none)
      else if operand.testBit 6 && s.osrCount < s.pullThresh then .go (s.registers, none)
      else .take fun v => ({ s.registers with osr := v, osrCount := 0 }, none))
      (s.execPushpull operand).1 (s.execPushpull operand).2 none := by
  have hskip : (s.autopull && s.osrCount == 0) = false := by rw [hauto, Bool.false_and]
  unfold execPushpull
  simp only [hblock, hskip, if_true, Bool.false_eq_true, if_false]
  cases hpull : operand.testBit 7 with
  | false =>
    rw [Bool.not_false, if_pos rfl, if_pos rfl]
    by_cases hcond : (operand.testBit 6 && decide (s.isrCount < s.pushThresh)) = true
    · rw [if_pos hcond, if_pos hcond]
      exact .go rfl rfl rfl
    · rw [if_neg hcond, if_neg hcond]
      cases hb : s.pushBlocked with
      | true => exact .stall rfl rfl rfl
      | false => exact isrDrain_performs hb
  | true =>
    rw [Bool.not_true, if_neg Bool.false_ne_true, if_neg Bool.false_ne_true]
    by_cases hcond : (operand.testBit 6 && decide (s.osrCount < s.pullThresh)) = true
    · rw [if_pos hcond, if_pos hcond]
      exact .go rfl rfl rfl
    · rw [if_neg hcond, if_neg hcond]
      cases he : s.tx.isEmpty with
      | true => exact .stall rfl rfl rfl
      | false => exact osrRefill_performs he

end Sm

namespace Dataflow

variable {w : World} {b : BlockAddr} {i : Fin 4} {insn : Insn}

theorem readSource_eq {s : Sm} {src : ℕ} (h : Source src) :
    w.readSource b s src = s.source src := by
  rcases h with rfl | rfl | rfl | rfl | rfl <;> rfl

/-- An allowed instruction performs its action on the record alone. -/
theorem execInsn_performs (ha : Allowed insn) (hauto : (w.sm b i).autopull = false) :
    ∃ s' stalled setPc, w.execInsn b i insn = ⟨w.setSm b i s', stalled, setPc⟩ ∧
      (w.sm b i).Performs ((w.sm b i).registers.dataflow insn) s' stalled setPc := by
  unfold World.execInsn Sm.dataflow
  rcases ha with ⟨hop, ha⟩ | ⟨hop, ha⟩ | ⟨hop, ha⟩ | ⟨hop, ha⟩ | ⟨hop, ha, hsrc⟩ | ⟨hop, ha⟩
  · rw [hop]
    exact ⟨_, _, _, rfl, Sm.execJmp_performs _ ha⟩
  · simp only [hop, readSource_eq ha]
    exact ⟨_, _, _, rfl, Sm.execIn_performs _ _ _⟩
  · have hrun : (w.sm b i).outStalls = false := by simp [Sm.outStalls, hauto]
    simp only [hop, World.execOut, hrun, World.outStore, World.sm_setSm_self, World.setSm_setSm]
    rcases ha with h | h | h | h <;> rw [h] <;> exact ⟨_, _, _, rfl, .go rfl rfl rfl⟩
  · simp only [hop, ha.2]
    exact ⟨_, _, _, rfl, Sm.execPushpull_performs hauto ha.1⟩
  · simp only [hop, World.execMov, World.movValue, readSource_eq hsrc]
    rcases ha with h | h | h | h <;> rw [h] <;> exact ⟨_, _, _, rfl, .go rfl rfl rfl⟩
  · simp only [hop, World.execSet]
    rcases ha with h | h <;> rw [h] <;> exact ⟨_, _, _, rfl, .go rfl rfl rfl⟩

/-- The instruction memory as a process on the registers. -/
def process (mem : Fin 32 → Insn) (k : Sm) : Act Sm Word Word :=
  (k.dataflow (mem (Fin.ofNat 32 k.pc))).map fun r => r.1.goto r.2

/-- State machine `(b, i)` as a process between its FIFOs. -/
def buffered (b : BlockAddr) (i : Fin 4) : Buffered Sm Word Word World where
  state w := (w.sm b i).registers
  waiting w := (w.sm b i).tx.contents
  held w := (w.sm b i).rx.contents

/-- A point of the program: the registers are those of a state machine without autopull that fetches
from one of the visited addresses. -/
structure AtPoint (bottom top : ℕ) (visited : ℕ → Prop) (k : Sm) : Prop where
  autopull : k.autopull = false
  fetches : k.execPending = false
  wrapBottom : k.wrapBottom = bottom
  wrapTop : k.wrapTop = top
  point : visited k.pc

/-- The state machine runs the program `mem` and is at one of its points. -/
structure Runs (b : BlockAddr) (i : Fin 4) (mem : Fin 32 → Insn) (bottom top : ℕ)
    (visited : ℕ → Prop) (w : World) : Prop where
  memory : (w.blocks b).insn = mem
  registers : AtPoint bottom top visited (w.sm b i).registers
  tx_wf : (w.sm b i).tx.Wf
  rx_wf : (w.sm b i).rx.Wf

/-- What an action leaves as it was. -/
def Keeps (s : Sm) (insn : Insn) (r : Sm × Option ℕ) : Prop :=
  r.1.config = s.config ∧ r.1.execPending = s.execPending ∧ r.1.pc = s.pc ∧
    ∀ t, r.2 = some t → opcode insn = 0 ∧ t = operandOf insn % 32

/-- An action changes neither the configuration nor the program point; only JMP has a target. -/
theorem dataflow_keeps (ha : Allowed insn) (s : Sm) : (s.dataflow insn).Forall (Keeps s insn) := by
  unfold Sm.dataflow
  rcases ha with ⟨hop, ha⟩ | ⟨hop, ha⟩ | ⟨hop, ha⟩ | ⟨hop, ha⟩ | ⟨hop, ha, hsrc⟩ | ⟨hop, ha⟩
  · obtain ⟨x, y, taken, he⟩ := s.execJmp_eq false (operandOf insn)
    simp only [hop, he]
    refine ⟨rfl, rfl, rfl, fun t ht => ⟨hop, ?_⟩⟩
    cases taken with
    | true => exact (Option.some.inj ht).symm
    | false => cases ht
  · simp only [hop]
    exact .ite ⟨rfl, rfl, rfl, nofun⟩ ⟨rfl, rfl, rfl, nofun⟩
  · simp only [hop]
    rcases ha with h | h | h | h <;> rw [h] <;> exact ⟨rfl, rfl, rfl, nofun⟩
  · simp only [hop]
    exact .ite (.ite ⟨rfl, rfl, rfl, nofun⟩ ⟨rfl, rfl, rfl, nofun⟩)
      (.ite ⟨rfl, rfl, rfl, nofun⟩ fun v => ⟨rfl, rfl, rfl, nofun⟩)
  · simp only [hop]
    rcases ha with h | h | h | h <;> rw [h] <;> exact ⟨rfl, rfl, rfl, nofun⟩
  · simp only [hop]
    rcases ha with h | h <;> rw [h] <;> exact ⟨rfl, rfl, rfl, nofun⟩

variable {mem : Fin 32 → Insn} {bottom top start : ℕ}

/-- Wherever the process goes from a point of the program is a point of the program. -/
theorem process_forall (hmem : ∀ a, Visits mem bottom top start a → Allowed (mem (Fin.ofNat 32 a)))
    {k : Sm} (hk : AtPoint bottom top (Visits mem bottom top start) k) :
    (process mem k).Forall (AtPoint bottom top (Visits mem bottom top start)) := by
  refine (dataflow_keeps (hmem _ hk.point) k).map ?_
  rintro ⟨k', p⟩ ⟨hconfig, hpend, hpc, hjump⟩
  have hbottom : k'.wrapBottom = bottom :=
    (congrArg SmConfig.wrapBottom hconfig).trans hk.wrapBottom
  have htop : k'.wrapTop = top := (congrArg SmConfig.wrapTop hconfig).trans hk.wrapTop
  refine ⟨(congrArg SmConfig.autopull hconfig).trans hk.autopull, hpend.trans hk.fetches,
    hbottom, htop, ?_⟩
  cases p with
  | none =>
    have hnext : (k'.goto none).pc = if k.pc = top then bottom else (k.pc + 1) % 32 := by
      simp only [Sm.goto, Sm.nextPc, Option.getD_none, htop, hbottom, show k'.pc = k.pc from hpc]
    rw [hnext]
    exact hk.point.next
  | some t =>
    obtain ⟨hop, rfl⟩ := hjump t rfl
    exact hk.point.jump hop

variable {w' : World}

omit [Platform] in
/-- Registers and FIFOs are left alone. -/
theorem Runs.idle (h : Runs b i mem bottom top (Visits mem bottom top start) w)
    (hmem : (w'.blocks b).insn = mem) (hregs : (w'.sm b i).registers = (w.sm b i).registers)
    (htx : (w'.sm b i).tx = (w.sm b i).tx) (hrx : (w'.sm b i).rx = (w.sm b i).rx) :
    Runs b i mem bottom top (Visits mem bottom top start) w' ∧
      (buffered b i).Drives (process mem) w w' [] [] := by
  refine ⟨⟨hmem, hregs ▸ h.registers, htx ▸ h.tx_wf, hrx ▸ h.rx_wf⟩, .of_eq hregs ?_ ?_⟩
  · simp only [buffered, htx, List.append_nil]
  · simp only [buffered, hrx, List.nil_append]

/-- The instruction at the program point has been performed and retired. -/
theorem Runs.performed (h : Runs b i mem bottom top (Visits mem bottom top start) w)
    (hallowed : ∀ a, Visits mem bottom top start a → Allowed (mem (Fin.ofNat 32 a)))
    (hmem : (w'.blocks b).insn = mem) {s s' : Sm} {p : Option ℕ}
    (hperf : s.Performs
      ((w.sm b i).registers.dataflow (mem (Fin.ofNat 32 (w.sm b i).pc))) s' false p)
    (htx : s.tx = (w.sm b i).tx) (hrx : s.rx = (w.sm b i).rx)
    (hregs' : (w'.sm b i).registers = s'.registers.goto p) (htx' : (w'.sm b i).tx = s'.tx)
    (hrx' : (w'.sm b i).rx = s'.rx) :
    Runs b i mem bottom top (Visits mem bottom top start) w' ∧
      (buffered b i).Drives (process mem) w w' [] [] := by
  have hpoint := process_forall hallowed h.registers
  have hproc : process mem (w.sm b i).registers =
      ((w.sm b i).registers.dataflow (mem (Fin.ofNat 32 (w.sm b i).pc))).map
        fun r => r.1.goto r.2 := rfl
  generalize (w.sm b i).registers.dataflow (mem (Fin.ofNat 32 (w.sm b i).pc)) = a at hperf hproc
  cases hperf with
  | go hk hstx hsrx =>
    rw [hk] at hregs'
    rw [hproc] at hpoint
    have heq : (w'.sm b i).tx = (w.sm b i).tx := htx'.trans (hstx.trans htx)
    have heq' : (w'.sm b i).rx = (w.sm b i).rx := hrx'.trans (hsrx.trans hrx)
    refine ⟨⟨hmem, hregs' ▸ hpoint, heq ▸ h.tx_wf, heq' ▸ h.rx_wf⟩, .go ?_ ?_ ?_⟩
    · exact hproc.trans (congrArg Act.go hregs'.symm)
    · simp only [buffered, heq]
    · simp only [buffered, heq']
  | take hpop hsrx hk =>
    rename_i f v
    rw [htx, ← htx'] at hpop
    obtain ⟨hwf, hcont, -⟩ := h.tx_wf.pop hpop
    have heq' : (w'.sm b i).rx = (w.sm b i).rx := hrx'.trans (hsrx.trans hrx)
    have hk' : (w'.sm b i).registers = (f v).1.goto (f v).2 := by rw [hregs', ← hk]
    rw [hproc] at hpoint
    refine ⟨⟨hmem, hk' ▸ hpoint v, hwf, heq' ▸ h.rx_wf⟩, .take hproc hcont hk' ?_⟩
    simp only [buffered, heq']
  | emit hpush hstx hk =>
    rw [hk] at hregs'
    rw [hrx, ← hrx'] at hpush
    rw [hproc] at hpoint
    obtain ⟨hwf, hcont, -⟩ := h.rx_wf.push hpush
    have heq : (w'.sm b i).tx = (w.sm b i).tx := htx'.trans (hstx.trans htx)
    refine ⟨⟨hmem, hregs' ▸ hpoint, heq ▸ h.tx_wf, hwf⟩, .emit ?_ ?_ hcont⟩
    · exact hproc.trans (congrArg (Act.emit _) hregs'.symm)
    · simp only [buffered, heq]

/-- A tick lets the process take one step or none. -/
theorem tickSms (hallowed : ∀ a, Visits mem bottom top start a → Allowed (mem (Fin.ofNat 32 a)))
    (h : Runs b i mem bottom top (Visits mem bottom top start) w) :
    Runs b i mem bottom top (Visits mem bottom top start) (w.tickSms b) ∧
      (buffered b i).Drives (process mem) w (w.tickSms b) [] [] := by
  have hinsn : ((w.tickSms b).blocks b).insn = mem :=
    (World.insn_of_shell (World.shell_tickSms w b) b).trans h.memory
  by_cases hdue : w.due b i = true
  · have htop : Sm.backgroundAutopull ((w.cycleWorld b i).sm b i) = (w.cycleWorld b i).sm b i := by
      have hauto : ((w.cycleWorld b i).sm b i).autopull = false := by
        rw [World.sm_cycleWorld]
        exact h.registers.autopull
      rw [Sm.backgroundAutopull, hauto, Bool.false_and, if_neg Bool.false_ne_true]
    by_cases hdelay : 0 < (w.sm b i).delay
    · have hsm := World.sm_tickSms_of_delay hdue hdelay
      obtain ⟨r, hr⟩ := World.stickyReassert_eq
        { Sm.backgroundAutopull ((w.cycleWorld b i).sm b i) with delay := (w.sm b i).delay - 1 }
      rw [hr, htop, World.sm_cycleWorld] at hsm
      exact h.idle hinsn (by rw [hsm]; rfl) (by rw [hsm]; rfl) (by rw [hsm]; rfl)
    · have hpend : (w.sm b i).execPending = false := h.registers.fetches
      have hget : w.getInstruction b i = mem (Fin.ofNat 32 (w.sm b i).pc) := by
        rw [World.getInstruction, hpend, if_neg Bool.false_ne_true, h.memory]
      have hpresent := World.sm_presentWorld w b i
      rw [htop, World.sm_cycleWorld] at hpresent
      have hauto : ((w.presentWorld b i).sm b i).autopull = false := by
        rw [hpresent]
        exact h.registers.autopull
      obtain ⟨s', stalled, p, hexec, hperf⟩ :=
        execInsn_performs (w := w.presentWorld b i) (hallowed _ h.registers.point) hauto
      have hexec' := hexec
      rw [show mem (Fin.ofNat 32 (w.sm b i).registers.pc) = w.getInstruction b i from hget.symm]
        at hexec'
      obtain ⟨r, n, hsm⟩ :=
        World.sm_tickSms_of_record hdue (Nat.eq_zero_of_not_pos hdelay) hexec'
      rw [hpend] at hsm
      rw [hpresent] at hperf
      cases stalled with
      | true =>
        obtain ⟨hregs, htx, hrx⟩ := hperf.of_stalled
        refine h.idle hinsn ?_ ?_ ?_
        · rw [hsm]
          exact hregs
        · rw [hsm]
          exact htx
        · rw [hsm]
          exact hrx
      | false =>
        exact h.performed hallowed hinsn hperf rfl rfl (by rw [hsm]; rfl) (by rw [hsm]; rfl)
          (by rw [hsm]; rfl)
  · obtain ⟨n, hn⟩ := World.sm_tickSms_of_not_due (Bool.eq_false_iff.mpr hdue)
    exact h.idle hinsn (by rw [hn]; rfl) (by rw [hn]; rfl) (by rw [hn]; rfl)

theorem put (h : Runs b i mem bottom top (Visits mem bottom top start) w) {n : ℕ} (hn : smIdx n = i)
    (v : Word) : Runs b i mem bottom top (Visits mem bottom top start) (w.step (.sm b n (.put v))) ∧
      (buffered b i).Drives (process mem) w (w.step (.sm b n (.put v)))
        (if ((w.sm b i).put v).2 then [v] else []) [] := by
  have hinsn := (World.insn_step (w := w) (c := .sm b n (.put v)) (b := b) id).trans h.memory
  have hsm : (w.step (.sm b n (.put v))).sm b i = ((w.sm b i).put v).1 :=
    World.step_hostOp ⟨n, hn, rfl⟩
  cases hpush : (w.sm b i).tx.push v with
  | none =>
    have hput : (w.sm b i).put v =
        ({ w.sm b i with fdebug := (w.sm b i).fdebug ||| fdebugTxover }, false) := by
      rw [Sm.put, hpush]
    rw [hput] at hsm ⊢
    exact h.idle hinsn (by rw [hsm]; rfl) (by rw [hsm]) (by rw [hsm])
  | some tx =>
    have hput : (w.sm b i).put v = ({ w.sm b i with tx := tx }, true) := by rw [Sm.put, hpush]
    rw [hput] at hsm ⊢
    obtain ⟨hwf, hcont, -⟩ := h.tx_wf.push hpush
    have hregs : ((w.step (.sm b n (.put v))).sm b i).registers = (w.sm b i).registers := by
      rw [hsm]
      rfl
    refine ⟨⟨hinsn, hregs ▸ h.registers, by rw [hsm]; exact hwf, by rw [hsm]; exact h.rx_wf⟩, ?_⟩
    refine .of_eq hregs ?_ ?_
    · simp only [buffered, hsm, hcont, if_true]
    · simp only [buffered, hsm, List.nil_append]

theorem get (h : Runs b i mem bottom top (Visits mem bottom top start) w) {n : ℕ}
    (hn : smIdx n = i) : Runs b i mem bottom top (Visits mem bottom top start)
    (w.step (.sm b n .get)) ∧
      (buffered b i).Drives (process mem) w (w.step (.sm b n .get)) []
        (w.sm b i).get.2.toList := by
  have hinsn := (World.insn_step (w := w) (c := .sm b n .get) (b := b) id).trans h.memory
  have hsm : (w.step (.sm b n .get)).sm b i = (w.sm b i).get.1 := World.step_hostOp ⟨n, hn, rfl⟩
  cases hpop : (w.sm b i).rx.pop with
  | none =>
    have hget : (w.sm b i).get =
        ({ w.sm b i with fdebug := (w.sm b i).fdebug ||| fdebugRxunder }, none) := by
      rw [Sm.get, hpop]
    rw [hget] at hsm ⊢
    exact h.idle hinsn (by rw [hsm]; rfl) (by rw [hsm]) (by rw [hsm])
  | some r =>
    have hget : (w.sm b i).get = ({ w.sm b i with rx := r.2 }, some r.1) := by rw [Sm.get, hpop]
    rw [hget] at hsm ⊢
    obtain ⟨hwf, hcont, -⟩ := h.rx_wf.pop (v := r.1) (g := r.2) hpop
    have hregs : ((w.step (.sm b n .get)).sm b i).registers = (w.sm b i).registers := by
      rw [hsm]
      rfl
    refine ⟨⟨hinsn, hregs ▸ h.registers, by rw [hsm]; exact h.tx_wf, by rw [hsm]; exact hwf⟩, ?_⟩
    refine .of_eq hregs ?_ ?_
    · simp only [buffered, hsm, List.append_nil]
    · simp only [buffered, hsm, hcont, Option.toList_some, List.singleton_append]

/-- One call of a host that only feeds the state machine. -/
theorem step (hallowed : ∀ a, Visits mem bottom top start a → Allowed (mem (Fin.ofNat 32 a)))
    (h : Runs b i mem bottom top (Visits mem bottom top start) w) {c : Call} (hc : c.Feeds b i) :
    Runs b i mem bottom top (Visits mem bottom top start) (w.step c) ∧
      (buffered b i).Drives (process mem) w (w.step c) (World.accepted b i w c)
        (World.returned b i w c) := by
  rcases hc with rfl | ⟨v, n, hn, rfl⟩ | ⟨n, hn, rfl⟩ | hc
  · exact tickSms hallowed h
  · simpa [World.accepted, World.returned, hn] using put h hn v
  · simpa [World.accepted, World.returned, hn] using get h hn
  · have hnone : ∀ op, ¬ World.HostOp b i c op := by
      rintro op ⟨k, hk, rfl⟩
      exact hc.1 (by rw [Call.Drives, hk])
    obtain ⟨hacc, hret⟩ := World.no_words_of_not_hostOp (w := w) hnone
    have hcore := World.core_step (w := w) hc.1
    have hregs := congrArg Sm.registers hcore
    have htx := congrArg Sm.tx hcore
    have hrx := congrArg Sm.rx hcore
    rw [hacc, hret]
    exact h.idle ((World.insn_step hc.2).trans h.memory) hregs htx hrx

end Dataflow

namespace World

/-- State machine `(b, i)` runs a program, with autopull off, in which every word that control can
reach is an allowed one. -/
structure RunsDataflow (w : World) (b : BlockAddr) (i : Fin 4) : Prop where
  autopull : (w.sm b i).autopull = false
  fetches : (w.sm b i).execPending = false
  allowed : ∀ a, Dataflow.Visits (w.blocks b).insn (w.sm b i).wrapBottom (w.sm b i).wrapTop
    (w.sm b i).pc a → Dataflow.Allowed ((w.blocks b).insn (Fin.ofNat 32 a))

/-- What the host reads is determined by what it writes: of two runs that tick, put and get in any
order and put the same words in, one returns a prefix of what the other returns. -/
theorem returned_of_accepted {w : World} {b : BlockAddr} {i : Fin 4} (hw : w.Reachable)
    (hrun : w.RunsDataflow b i) {cs ds : List Call} (hcs : ∀ c ∈ cs, c.Feeds b i)
    (hds : ∀ c ∈ ds, c.Feeds b i)
    (hacc : Run.collect step (accepted b i) w cs = Run.collect step (accepted b i) w ds) :
    Run.collect step (returned b i) w cs <+: Run.collect step (returned b i) w ds ∨
      Run.collect step (returned b i) w ds <+: Run.collect step (returned b i) w cs := by
  have hwf := hw.queuesWf b i
  have hruns : Dataflow.Runs b i (w.blocks b).insn (w.sm b i).wrapBottom (w.sm b i).wrapTop
      (Dataflow.Visits (w.blocks b).insn (w.sm b i).wrapBottom (w.sm b i).wrapTop (w.sm b i).pc)
          w :=
    ⟨rfl, ⟨hrun.autopull, hrun.fetches, rfl, rfl, .start⟩, hwf.tx_wf, hwf.rx_wf⟩
  have hstep := fun (v : World) (c : Call) (hv : Dataflow.Runs b i _ _ _ _ v) (hc : c.Feeds b i) =>
    Dataflow.step hrun.allowed hv hc
  exact Buffered.returned_comparable hstep hruns hcs hds hacc

end World
end PioSim

namespace PioSim.World

local instance : Platform := ⟨.rp2350⟩

/-- `pull block; in osr, 32; push block`: one run waits for its word to come back, the other stops
early. -/
theorem returned_of_accepted_early_late :
    let w := initial.run [.block 0 (.load 0 [0x80A0, 0x40E0, 0x8020]),
      .smInit 0 0 0 (defaultSmConfig.setWrap 0 2), .setEnabled 0 0 true]
    let cs := [.sm 0 0 (.put 7), .tickSms 0, .tickSms 0, .tickSms 0, .sm 0 0 .get]
    let ds := [.tickSms 0, .sm 0 0 (.put 7), .tickSms 0, .sm 0 0 .get]
    Run.collect step (returned 0 0) w cs = [7] ∧ Run.collect step (returned 0 0) w ds = [] ∧
      (Run.collect step (returned 0 0) w cs <+: Run.collect step (returned 0 0) w ds ∨
        Run.collect step (returned 0 0) w ds <+: Run.collect step (returned 0 0) w cs) := by
  intro w cs ds
  have hallowed : ∀ k : Fin 32, Dataflow.Allowed ((w.blocks 0).insn k) := by decide +kernel
  have hrun : w.RunsDataflow 0 0 := ⟨rfl, rfl, fun a _ => hallowed _⟩
  have htick : (Call.tickSms 0).Feeds 0 0 := .inl rfl
  have hput : ∀ v, (Call.sm 0 0 (.put v)).Feeds 0 0 := fun v => .inr (.inl ⟨v, 0, rfl, rfl⟩)
  have hget : (Call.sm 0 0 .get).Feeds 0 0 := .inr (.inr (.inl ⟨0, rfl, rfl⟩))
  have hcs : ∀ c ∈ cs, c.Feeds 0 0 := by
    simp only [cs, List.forall_mem_cons]
    exact ⟨hput _, htick, htick, htick, hget, fun _ h => nomatch h⟩
  have hds : ∀ c ∈ ds, c.Feeds 0 0 := by
    simp only [ds, List.forall_mem_cons]
    exact ⟨htick, hput _, htick, hget, fun _ h => nomatch h⟩
  exact ⟨by decide +kernel, by decide +kernel,
    returned_of_accepted ⟨_, rfl⟩ hrun hcs hds (by decide +kernel)⟩

end PioSim.World
