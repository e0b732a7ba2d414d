import PioSim.IrqWait
import PioSim.Conveyor
import PioSim.Lib.Pacing

/-!
# The cycle an instruction runs on

A state machine acts on an SM cycle by executing an instruction, which asks for the delay cycles in
its own delay field. While nothing stalls, nothing writes EXEC and the host keeps away, the state
machine is the machine of `Pacing`, so the instructions executed before one settle its cycle. The
loop `jmp x--` on itself is the case where they can be counted from the start.
-/

namespace PioSim

open Pacing

variable [Platform]

/-- The delay cycles an instruction asks for, decoded under the side-set width. -/
def Sm.delayOf (s : Sm) (insn : Insn) : ℕ := (s.decodeDelaySideset (delayField insn)).delay

omit [Platform] in
theorem Sm.delayOf_of_config {s s' : Sm} (h : s'.config = s.config) : s'.delayOf = s.delayOf := by
  have hbits : s'.sidesetTotalBits = s.sidesetTotalBits := congrArg SmConfig.sidesetTotalBits h
  funext insn
  unfold delayOf decodeDelaySideset sidesetTotal
  rw [hbits]
  dsimp only
  split_ifs <;> rfl

namespace World

variable {w : World} {b : BlockAddr} {i : Fin 4}

/-- The SM cycle of a call: the instruction executed on it, `none` on a delay cycle. -/
def smCycles (b : BlockAddr) (i : Fin 4) (w : World) : Call → List (Option Insn)
  | .tickSms b' => if b' = b ∧ w.due b i = true then [w.presents b i] else []
  | _ => []

/-- The host keeps away from the state machine: it runs by ticks alone. -/
def LeftAlone (b : BlockAddr) (i : Fin 4) (c : Call) : Prop := c.Drives b i → c = .tickSms b

/-- What the call presents commits, and does not write EXEC. -/
def Commits (b : BlockAddr) (i : Fin 4) (w : World) (c : Call) : Prop :=
  ∀ p, presentation b i w c = some p → p.result.committed = true ∧ writesExec p.word = false

instance (b : BlockAddr) (i : Fin 4) (w : World) (c : Call) : Decidable (Commits b i w c) :=
  decidable_of_iff (((presentation b i w c).all fun p =>
    p.result.committed && !writesExec p.word) = true) (by
      rw [Option.all_eq_true]
      simp only [Bool.and_eq_true, Bool.not_eq_true']
      rfl)

section
omit [Platform]

theorem smCycles_of_not_drives {c : Call} (h : ¬ c.Drives b i) : smCycles b i w c = [] := by
  cases c with
  | tickSms b' => exact if_neg fun hb => h hb.1
  | _ => rfl

theorem config_retire (s : Sm) (fromExec : Bool) (setPc : Option ℕ) (delay : ℕ) :
    (s.retire fromExec setPc delay).config = s.config := by
  unfold Sm.retire
  split <;> rfl

/-- A committed instruction leaves its delay, unless it was fetched and wrote EXEC. -/
theorem delay_retire {s : Sm} {fromExec : Bool} (h : fromExec = false → s.execPending = false)
    (setPc : Option ℕ) (delay : ℕ) : (s.retire fromExec setPc delay).delay = delay := by
  cases fromExec with
  | true => rfl
  | false =>
    unfold Sm.retire
    rw [if_neg Bool.false_ne_true, h rfl]
    rfl

end

/-- What the presented instruction finds of the record it was chosen by. -/
theorem presentWorld_reads (w : World) (b : BlockAddr) (i : Fin 4) :
    ((w.presentWorld b i).sm b i).execPending = (w.sm b i).execPending ∧
      ((w.presentWorld b i).sm b i).decodeDelaySideset = (w.sm b i).decodeDelaySideset ∧
      ((w.presentWorld b i).sm b i).config = (w.sm b i).config := by
  have hfields := Sm.backgroundAutopull_fields ((w.cycleWorld b i).sm b i)
  rw [sm_presentWorld]
  refine ⟨?_, ?_, ?_⟩
  · rw [hfields.1, sm_cycleWorld]
    rfl
  · rw [hfields.2.2.2.2, sm_cycleWorld]
    rfl
  · rcases ((w.cycleWorld b i).sm b i).backgroundAutopull_eq with h | ⟨v, tx, h⟩
    all_goals
      rw [h, sm_cycleWorld]
      rfl

/-- A tick that presents an instruction which commits leaves the delay that it asks for. -/
theorem tickSms_of_commits (hdue : w.due b i = true) (hd : (w.sm b i).delay = 0)
    (hc : Commits b i w (.tickSms b)) :
    ((w.tickSms b).sm b i).delay = (w.sm b i).delayOf (w.getInstruction b i) ∧
      ((w.tickSms b).sm b i).config = (w.sm b i).config := by
  obtain ⟨hcommit, hexec⟩ := hc _ (if_pos ⟨rfl, hdue, hd⟩)
  obtain ⟨hpending, hdecode, hconfig⟩ := presentWorld_reads w b i
  have hslot := slot_execOne (w := w.presentWorld b i) (b := b) (i := i) (Or.inl hexec)
  have hcontrol := execOne_control (w.presentWorld b i) b i (w.getInstruction b i)
  obtain ⟨r, hr⟩ := stickyReassert_eq
    ((((w.presentWorld b i).execOne b i (w.getInstruction b i)).world.sm b i).retire
      (w.sm b i).execPending ((w.presentWorld b i).execOne b i (w.getInstruction b i)).setPc
      ((w.presentWorld b i).execOne b i (w.getInstruction b i)).delay)
  rw [sm_tickSms_of_commit hdue hd rfl hcommit, hr]
  constructor
  · refine (delay_retire (fun hfetch => ?_) _ _).trans ?_
    · rw [← hpending] at hfetch
      exact (congrArg Prod.fst hslot).trans hfetch
    · rw [execOne, Sm.delayOf, hdecode]
  · exact (config_retire _ _ _ _).trans ((congrArg Prod.fst hcontrol).trans hconfig)

/-- The step lemma: over a call the state machine spends the cycles it goes through. -/
theorem step_paced {c : Call} (ha : LeftAlone b i c) (hc : Commits b i w c) :
    Paced (w.sm b i).delayOf (w.sm b i).delay (smCycles b i w c) ((w.step c).sm b i).delay ∧
      ((w.step c).sm b i).config = (w.sm b i).config := by
  by_cases hd : c.Drives b i
  · obtain rfl := ha hd
    cases hdue : w.due b i with
    | false =>
      obtain ⟨n, hn⟩ := sm_tickSms_of_not_due hdue
      have hnone : smCycles b i w (.tickSms b) = [] := by simp [smCycles, hdue]
      rw [hnone, step, hn]
      exact ⟨.nil _, rfl⟩
    | true =>
      have hone : smCycles b i w (.tickSms b) = [w.presents b i] := if_pos ⟨rfl, hdue⟩
      rcases Nat.eq_zero_or_pos (w.sm b i).delay with hzero | hpos
      · obtain ⟨hdelay, hconfig⟩ := tickSms_of_commits hdue hzero hc
        have hpresents : w.presents b i = some (w.getInstruction b i) := by
          simp [presents, hzero]
        rw [hone, hpresents, hzero, step, hdelay]
        exact ⟨.act _ (.nil _), hconfig⟩
      · have hidle : w.presents b i = none := if_pos hpos
        obtain ⟨r, hr⟩ := stickyReassert_eq
          { Sm.backgroundAutopull ((w.cycleWorld b i).sm b i) with delay := (w.sm b i).delay - 1 }
        obtain ⟨n, hn⟩ := Nat.exists_eq_succ_of_ne_zero (Nat.ne_of_gt hpos)
        have hsm := sm_tickSms_of_delay hdue hpos
        rw [hr] at hsm
        rw [hone, hidle, step, hsm, hn]
        refine ⟨.idle (.nil _), ?_⟩
        have hconfig := (presentWorld_reads w b i).2.2
        rw [sm_presentWorld] at hconfig
        exact hconfig
  · have hg : Steady fun s : Sm => (s.delay, s.config) :=
      ⟨fun _ _ => rfl, fun _ _ => rfl, fun _ _ => rfl⟩
    have hkeep := keeps_step (w := w) hg hd
    simp only [Prod.mk.injEq] at hkeep
    rw [smCycles_of_not_drives hd, hkeep.1]
    exact ⟨.nil _, hkeep.2⟩

/-- The run lemma. -/
theorem run_paced {cs : List Call}
    (h : Run.Along step (fun w c => LeftAlone b i c ∧ Commits b i w c) w cs) :
    Paced (w.sm b i).delayOf (w.sm b i).delay (Run.collect step (smCycles b i) w cs)
      ((w.run cs).sm b i).delay := by
  induction cs generalizing w with
  | nil => exact .nil _
  | cons c cs ih =>
    obtain ⟨hstep, hconfig⟩ := step_paced h.1.1 h.1.2
    have hrest := ih h.2
    rw [Sm.delayOf_of_config hconfig] at hrest
    exact hstep.append hrest

/-! ### `jmp x--` on itself -/

/-- The word is `jmp x--, a`, whatever its delay and side-set. -/
structure JumpsXDec (insn : Insn) (a : ℕ) : Prop where
  opcode : opcode insn = 0
  cond : operandOf insn / 32 % 8 = 2
  target : operandOf insn % 32 = a

theorem execInsn_jumpsXDec {insn : Insn} {a : ℕ} (h : JumpsXDec insn a) (w : World) (b : BlockAddr)
    (i : Fin 4) : w.execInsn b i insn = ⟨w.setSm b i { w.sm b i with x := (w.sm b i).x - 1 }, false,
      if (w.sm b i).x = 0 then none else some a⟩ := by
  simp only [execInsn, h.opcode, Sm.execJmp, h.cond, h.target]
  simp

omit [Platform] in
theorem writesExec_jumpsXDec {insn : Insn} {a : ℕ} (h : JumpsXDec insn a) :
    writesExec insn = false := by
  simp [writesExec, h.opcode]

/-- The jump commits whenever it is presented. -/
theorem commits_jumpsXDec {a : ℕ} (h : JumpsXDec (w.getInstruction b i) a) :
    Commits b i w (.tickSms b) := by
  intro p hp
  by_cases hruns : b = b ∧ w.due b i = true ∧ (w.sm b i).delay = 0
  · rw [presentation, if_pos hruns] at hp
    obtain rfl := Option.some.inj hp
    refine ⟨?_, writesExec_jumpsXDec h⟩
    simp only [execOne, execInsn_jumpsXDec h, Bool.not_false]
  · rw [presentation, if_neg hruns] at hp
    cases hp

/-- One turn of the loop: X counts down and the jump is taken until it was 0. -/
theorem tickSms_jumpsXDec {a : ℕ} (h : JumpsXDec (w.getInstruction b i) a) (hdue : w.due b i = true)
    (hd : (w.sm b i).delay = 0) (hp : (w.sm b i).execPending = false) :
    ((w.tickSms b).sm b i).x = (w.sm b i).x - 1 ∧
      ((w.tickSms b).sm b i).pc = (if (w.sm b i).x = 0 then (w.sm b i).nextPc else a) ∧
      ((w.tickSms b).sm b i).execPending = false := by
  obtain ⟨hpending, -, -⟩ := presentWorld_reads w b i
  have hx : ((w.presentWorld b i).sm b i).x = (w.sm b i).x ∧
      ((w.presentWorld b i).sm b i).nextPc = (w.sm b i).nextPc := by
    rw [sm_presentWorld]
    rcases ((w.cycleWorld b i).sm b i).backgroundAutopull_eq with he | ⟨v, tx, he⟩
    all_goals
      rw [he, sm_cycleWorld]
      exact ⟨rfl, rfl⟩
  obtain ⟨r, n, hr⟩ := sm_tickSms_of_record hdue hd (execInsn_jumpsXDec h (w.presentWorld b i) b i)
  rw [hr, hp, hx.1]
  refine ⟨rfl, ?_, hpending.trans hp⟩
  by_cases hzero : (w.sm b i).x = 0
  · rw [if_pos hzero, if_pos hzero]
    exact hx.2
  · rw [if_neg hzero, if_neg hzero]
    rfl

/-- Where the loop stands after the SM cycles `l`, from the state `w₀` it was entered in. -/
structure Turns (w₀ : World) (b : BlockAddr) (i : Fin 4) (insn : Insn) (l : List (Option Insn))
    (w : World) : Prop where
  paced : Paced (w₀.sm b i).delayOf 0 l (w.sm b i).delay
  config : (w.sm b i).config = (w₀.sm b i).config
  fetches : (w.sm b i).execPending = false
  memory : (w.blocks b).insn (Fin.ofNat 32 (w₀.sm b i).pc) = insn
  words : ∀ e ∈ l.reduceOption, e = insn
  count : l.reduceOption.length ≤ (w₀.sm b i).x.toNat + 1
  x : (w.sm b i).x = (w₀.sm b i).x - BitVec.ofNat 32 l.reduceOption.length
  pc : (w.sm b i).pc = if l.reduceOption.length ≤ (w₀.sm b i).x.toNat then (w₀.sm b i).pc
    else (w₀.sm b i).nextPc

variable {w₀ : World} {insn : Insn} {l : List (Option Insn)}

/-- A call on which the state machine executes nothing moves the loop by its delay cycles alone. -/
theorem Turns.keep (h : Turns w₀ b i insn l w) {c : Call} (hloads : ¬ c.Loads b)
    (hpaced : Paced (w₀.sm b i).delayOf (w.sm b i).delay (smCycles b i w c)
      ((w.step c).sm b i).delay)
    (hidle : (smCycles b i w c).reduceOption = [])
    (hsm : ((w.step c).sm b i).config = (w.sm b i).config ∧
      ((w.step c).sm b i).execPending = (w.sm b i).execPending ∧
      ((w.step c).sm b i).x = (w.sm b i).x ∧ ((w.step c).sm b i).pc = (w.sm b i).pc) :
    Turns w₀ b i insn (l ++ smCycles b i w c) (w.step c) := by
  obtain ⟨hconfig, hpending, hx, hpc⟩ := hsm
  have hpath : (l ++ smCycles b i w c).reduceOption = l.reduceOption := by
    rw [List.reduceOption_append, hidle, List.append_nil]
  refine ⟨h.paced.append hpaced, hconfig.trans h.config, hpending.trans h.fetches, ?_,
    ?_, ?_, ?_, ?_⟩
  · rw [insn_step hloads]
    exact h.memory
  · rw [hpath]
    exact h.words
  · rw [hpath]
    exact h.count
  · rw [hpath, hx]
    exact h.x
  · rw [hpath, hpc]
    exact h.pc

/-- A delay cycle or a tick of a state machine that is not due keeps what the loop computes with. -/
theorem tickSms_no_turn (h : ¬ (w.due b i = true ∧ (w.sm b i).delay = 0)) :
    (smCycles b i w (.tickSms b)).reduceOption = [] ∧
      ((w.tickSms b).sm b i).execPending = (w.sm b i).execPending ∧
      ((w.tickSms b).sm b i).x = (w.sm b i).x ∧ ((w.tickSms b).sm b i).pc = (w.sm b i).pc := by
  cases hdue : w.due b i with
  | false =>
    obtain ⟨n, hn⟩ := sm_tickSms_of_not_due hdue
    rw [hn]
    exact ⟨by simp [smCycles, hdue], rfl, rfl, rfl⟩
  | true =>
    have hpos : 0 < (w.sm b i).delay := Nat.pos_of_ne_zero fun hz => h ⟨hdue, hz⟩
    obtain ⟨r, hr⟩ := stickyReassert_eq
      { Sm.backgroundAutopull ((w.cycleWorld b i).sm b i) with delay := (w.sm b i).delay - 1 }
    rw [sm_tickSms_of_delay hdue hpos, hr]
    refine ⟨by simp [smCycles, hdue, presents, hpos], ?_⟩
    rcases ((w.cycleWorld b i).sm b i).backgroundAutopull_eq with he | ⟨v, tx, he⟩
    all_goals
      rw [he, sm_cycleWorld]
      exact ⟨rfl, rfl, rfl⟩

/-- A tick that executes the jump is one more turn, while turns are left. -/
theorem Turns.turn (h : Turns w₀ b i insn l w) (hjump : JumpsXDec insn (w₀.sm b i).pc)
    (hleft : l.reduceOption.length ≤ (w₀.sm b i).x.toNat) (hdue : w.due b i = true)
    (hd : (w.sm b i).delay = 0) :
    Turns w₀ b i insn (l ++ smCycles b i w (.tickSms b)) (w.tickSms b) := by
  have hpc : (w.sm b i).pc = (w₀.sm b i).pc := by rw [h.pc, if_pos hleft]
  have hget : w.getInstruction b i = insn := by
    rw [getInstruction, h.fetches, if_neg Bool.false_ne_true, hpc]
    exact h.memory
  have hjump' : JumpsXDec (w.getInstruction b i) (w₀.sm b i).pc := by rwa [hget]
  have hcycle : smCycles b i w (.tickSms b) = [some insn] := by
    have hpresents : w.presents b i = some insn := by simp [presents, hd, hget]
    rw [← hpresents]
    exact if_pos ⟨rfl, hdue⟩
  have hcommits := commits_jumpsXDec hjump'
  obtain ⟨hx, hto, hpending⟩ := tickSms_jumpsXDec hjump' hdue hd h.fetches
  obtain ⟨hpaced, hconfig⟩ := step_paced (c := .tickSms b) (fun _ => rfl) hcommits
  rw [Sm.delayOf_of_config h.config] at hpaced
  have hpath : (l ++ smCycles b i w (.tickSms b)).reduceOption = l.reduceOption ++ [insn] := by
    rw [hcycle, List.reduceOption_append]
    rfl
  have hcount : (l ++ smCycles b i w (.tickSms b)).reduceOption.length =
      l.reduceOption.length + 1 := by
    rw [hpath, List.length_append]
    rfl
  have hlt : (w₀.sm b i).x.toNat < 2 ^ 32 := (w₀.sm b i).x.isLt
  refine ⟨h.paced.append hpaced, hconfig.trans h.config, hpending, ?_, ?_, ?_, ?_, ?_⟩
  · rw [insn_of_shell (shell_tickSms w b) b]
    exact h.memory
  · intro e he
    rw [hpath, List.mem_append, List.mem_singleton] at he
    exact he.elim (h.words e) id
  · omega
  · rw [hx, h.x, hcount]
    bv_omega
  · have hzero : (w.sm b i).x = 0 ↔ l.reduceOption.length = (w₀.sm b i).x.toNat := by
      rw [h.x]
      constructor
      · intro hz
        have hnat := congrArg BitVec.toNat hz
        rw [BitVec.toNat_sub, BitVec.toNat_ofNat] at hnat
        simp only [BitVec.ofNat_eq_ofNat, BitVec.toNat_ofNat, Nat.zero_mod] at hnat
        omega
      · intro heq
        rw [heq]
        bv_omega
    have hnext : (w.sm b i).nextPc = (w₀.sm b i).nextPc := by
      have htop : (w.sm b i).wrapTop = (w₀.sm b i).wrapTop := congrArg SmConfig.wrapTop h.config
      have hbottom : (w.sm b i).wrapBottom = (w₀.sm b i).wrapBottom :=
        congrArg SmConfig.wrapBottom h.config
      simp only [Sm.nextPc, hpc, htop, hbottom]
    rw [hto, hnext, hcount]
    by_cases hlast : l.reduceOption.length = (w₀.sm b i).x.toNat
    · rw [if_pos (hzero.mpr hlast), if_neg (by omega)]
    · rw [if_neg fun hz => hlast (hzero.mp hz), if_pos (by omega)]

/-- The step lemma of the loop: as long as the cycles are fewer than the loop takes, a call keeps it
turning. -/
theorem Turns.step (h : Turns w₀ b i insn l w) (hjump : JumpsXDec insn (w₀.sm b i).pc) {c : Call}
    (ha : LeftAlone b i c) (hloads : ¬ c.Loads b)
    (hlen : (l ++ smCycles b i w c).length ≤
      ((w₀.sm b i).x.toNat + 1) * (1 + (w₀.sm b i).delayOf insn)) :
    Turns w₀ b i insn (l ++ smCycles b i w c) (w.step c) := by
  by_cases hd : c.Drives b i
  · obtain rfl := ha hd
    by_cases hruns : w.due b i = true ∧ (w.sm b i).delay = 0
    · refine h.turn hjump ?_ hruns.1 hruns.2
      -- the cycles before this one are full turns, and fewer of them than the loop takes
      have hbalance := h.paced.balance
      rw [span_eq_mul h.words, hruns.2, Nat.zero_add, Nat.add_zero] at hbalance
      have hone : smCycles b i w (.tickSms b) = [w.presents b i] := if_pos ⟨rfl, hruns.1⟩
      rw [hone, List.length_append, List.length_singleton, ← hbalance] at hlen
      exact Nat.lt_succ_iff.mp (Nat.lt_of_mul_lt_mul_right (Nat.lt_of_succ_le hlen))
    · obtain ⟨hidle, hpending, hx, hpc⟩ := tickSms_no_turn hruns
      have hcommits : Commits b i w (.tickSms b) := by
        intro p hp
        rw [presentation, if_neg fun hif => hruns hif.2] at hp
        cases hp
      obtain ⟨hpaced, hconfig⟩ := step_paced ha hcommits
      rw [Sm.delayOf_of_config h.config] at hpaced
      exact h.keep hloads hpaced hidle ⟨hconfig, hpending, hx, hpc⟩
  · have hg : Steady fun s : Sm => (s.delay, s.config, s.execPending, s.x, s.pc) :=
      ⟨fun _ _ => rfl, fun _ _ => rfl, fun _ _ => rfl⟩
    have hkeep := keeps_step (w := w) hg hd
    simp only [Prod.mk.injEq] at hkeep
    have hnone := smCycles_of_not_drives (w := w) hd
    refine h.keep hloads ?_ ?_ hkeep.2
    · rw [hnone, hkeep.1]
      exact .nil _
    · rw [hnone]
      rfl

/-- The run lemma of the loop. -/
theorem Turns.run (h : Turns w₀ b i insn l w) (hjump : JumpsXDec insn (w₀.sm b i).pc)
    {cs : List Call} (hcs : ∀ c ∈ cs, LeftAlone b i c ∧ ¬ c.Loads b)
    (hlen : (l ++ Run.collect World.step (smCycles b i) w cs).length ≤
      ((w₀.sm b i).x.toNat + 1) * (1 + (w₀.sm b i).delayOf insn)) :
    Turns w₀ b i insn (l ++ Run.collect World.step (smCycles b i) w cs) (w.run cs) := by
  induction cs generalizing w l with
  | nil =>
    rw [Run.collect, List.append_nil]
    exact h
  | cons c cs ih =>
    obtain ⟨ha, hloads⟩ := hcs c List.mem_cons_self
    rw [Run.collect, ← List.append_assoc] at hlen ⊢
    have hfirst : (l ++ smCycles b i w c).length ≤
        ((w₀.sm b i).x.toNat + 1) * (1 + (w₀.sm b i).delayOf insn) := by
      rw [List.length_append] at hlen
      omega
    exact ih (h.step hjump ha hloads hfirst) (fun c hc => hcs c (List.mem_cons_of_mem _ hc)) hlen

omit [Platform] in
/-- A word counted down once past 0. -/
theorem sub_toNat_succ (v : Word) : v - BitVec.ofNat 32 (v.toNat + 1) = BitVec.allOnes 32 := by
  have hlt := v.isLt
  apply BitVec.eq_of_toNat_eq
  simp only [BitVec.toNat_sub, BitVec.toNat_ofNat, BitVec.toNat_allOnes]
  omega

omit [Platform] in
/-- The cycles a run of the loop has spent are its turns and the delay still to come. -/
theorem Turns.spent (h : Turns w₀ b i insn l w) :
    l.reduceOption.length * (1 + (w₀.sm b i).delayOf insn) = l.length + (w.sm b i).delay := by
  have hbalance := h.paced.balance
  rwa [span_eq_mul h.words, Nat.zero_add] at hbalance

/-- Cycle-exact timing, over any run that leaves the state machine alone and any setting around it.
While every instruction commits and none writes EXEC, the `k`-th one executed, counted from 0, runs
on the SM cycle that the delays of those before it give, cycles counted from 0 too. And `jmp x--` on
itself, entered with X at `v`, takes `(v + 1) * (1 + delay)` SM cycles and leaves all ones in X. -/
theorem runs_on_cycle {w : World} {b : BlockAddr} {i : Fin 4} (hd : (w.sm b i).delay = 0)
    (cs : List Call) :
    let s := w.sm b i
    let s' := (w.run cs).sm b i
    let cycles := Run.collect step (smCycles b i) w cs
    let path := cycles.reduceOption
    (Run.Along step (fun w c => LeftAlone b i c ∧ Commits b i w c) w cs →
      ∀ k insn, path[k]? = some insn →
        let n := ((path.take k).map fun j => 1 + s.delayOf j).sum
        cycles[n]? = some (some insn) ∧ (cycles.take n).reduceOption = path.take k) ∧
    ∀ insn, s.execPending = false → w.getInstruction b i = insn → JumpsXDec insn s.pc →
      (∀ c ∈ cs, LeftAlone b i c ∧ ¬ c.Loads b) →
      let total := (s.x.toNat + 1) * (1 + s.delayOf insn)
      (cycles.length ≤ total → ∀ j ∈ path, j = insn) ∧
      (cycles.length < total → s'.pc = s.pc ∨ 0 < s'.delay) ∧
      (cycles.length = total → path.length = s.x.toNat + 1 ∧ s'.x = BitVec.allOnes 32 ∧
        s'.pc = s.nextPc ∧ s'.delay = 0) := by
  intro s s' cycles path
  constructor
  · intro halong k insn hk
    have hpaced := run_paced halong
    rw [hd] at hpaced
    have hat := hpaced.act_at hk
    rwa [Nat.zero_add] at hat
  · intro insn hfetch hget hjump hcs total
    have hstart : Turns w b i insn [] w := by
      have hmemory : (w.blocks b).insn (Fin.ofNat 32 (w.sm b i).pc) = insn := by
        rwa [getInstruction, show (w.sm b i).execPending = false from hfetch,
          if_neg Bool.false_ne_true] at hget
      refine ⟨hd ▸ .nil _, rfl, hfetch, hmemory, by simp, Nat.zero_le _, ?_, ?_⟩
      · simp
      · simp
    have hturns : cycles.length ≤ total → Turns w b i insn cycles (w.run cs) :=
      fun hle => hstart.run hjump hcs hle
    refine ⟨fun hle => (hturns hle).words, fun hlt => ?_, fun heq => ?_⟩
    · have hrun := hturns (Nat.le_of_lt hlt)
      have hspent := hrun.spent
      rcases Nat.eq_zero_or_pos s'.delay with hzero | hpos
      · left
        have hfew : path.length * (1 + s.delayOf insn) <
            (s.x.toNat + 1) * (1 + s.delayOf insn) := by
          calc path.length * (1 + s.delayOf insn) = cycles.length + s'.delay := hspent
            _ = cycles.length := by rw [hzero, Nat.add_zero]
            _ < total := hlt
        have hle : path.length ≤ s.x.toNat := Nat.lt_succ_iff.mp (Nat.lt_of_mul_lt_mul_right hfew)
        have hpc := hrun.pc
        rwa [if_pos hle] at hpc
      · exact .inr hpos
    · have hrun := hturns (Nat.le_of_eq heq)
      have hspent : path.length * (1 + s.delayOf insn) = total + s'.delay := by
        rw [← heq]
        exact hrun.spent
      have hcount : path.length ≤ s.x.toNat + 1 := hrun.count
      have hmost : path.length * (1 + s.delayOf insn) ≤ total := Nat.mul_le_mul_right _ hcount
      have hdelay : s'.delay = 0 := by omega
      have hall : path.length = s.x.toNat + 1 := by
        refine Nat.eq_of_mul_eq_mul_right (Nat.add_pos_left Nat.one_pos (s.delayOf insn)) ?_
        rw [hspent, hdelay, Nat.add_zero]
      refine ⟨hall, ?_, ?_, hdelay⟩
      · have hx := hrun.x
        rw [show cycles.reduceOption.length = s.x.toNat + 1 from hall] at hx
        refine hx.trans ?_
        exact sub_toNat_succ s.x
      · have hpc := hrun.pc
        have hpast : ¬ cycles.reduceOption.length ≤ (w.sm b i).x.toNat :=
          Nat.not_le_of_lt (Nat.lt_of_succ_le (Nat.le_of_eq hall.symm))
        rwa [if_neg hpast] at hpc

omit [Platform] in
/-- The theorem at `jmp x--` on itself with a delay of one, entered with X at 2: the second jump
runs on the third cycle, and after six the loop is over. -/
theorem runs_on_cycle_three_turns :
    letI : Platform := ⟨.rp2350⟩
    let w := initial.run [.block 0 (.load 0 [0x0140]), .smExec 0 0 0xE022, .setEnabled 0 0 true]
    (Run.collect step (smCycles 0 0) w [.tickSms 0, .tickSms 0, .tickSms 0])[2]? =
        some (some 0x0140) ∧
      ((w.run (List.replicate 6 (.tickSms 0))).sm 0 0).x = BitVec.allOnes 32 := by
  let P : Platform := ⟨.rp2350⟩
  intro w
  have hd : (w.sm 0 0).delay = 0 := by decide +kernel
  constructor
  · have halong : Run.Along step (fun w c => LeftAlone 0 0 c ∧ Commits 0 0 w c) w
        [.tickSms 0, .tickSms 0, .tickSms 0] :=
      ⟨⟨fun _ => rfl, by decide +kernel⟩, ⟨fun _ => rfl, by decide +kernel⟩,
        ⟨fun _ => rfl, by decide +kernel⟩, trivial⟩
    have hspan : (((Run.collect step (smCycles 0 0) w
        [.tickSms 0, .tickSms 0, .tickSms 0]).reduceOption.take 1).map
          fun j => 1 + (w.sm 0 0).delayOf j).sum = 2 := by decide +kernel
    have hsecond := ((runs_on_cycle hd [.tickSms 0, .tickSms 0, .tickSms 0]).1 halong 1 0x0140
      (by decide +kernel)).1
    rwa [hspan] at hsecond
  · have hticks : ∀ c ∈ List.replicate 6 (Call.tickSms 0), LeftAlone 0 0 c ∧ ¬ c.Loads 0 := by
      intro c hc
      obtain ⟨-, rfl⟩ := List.mem_replicate.mp hc
      exact ⟨fun _ => rfl, id⟩
    exact (((runs_on_cycle hd (List.replicate 6 (.tickSms 0))).2 0x0140 (by decide +kernel)
      (by decide +kernel) ⟨by decide, by decide, by decide +kernel⟩ hticks).2.2
      (by decide +kernel)).2.1

end World
end PioSim
