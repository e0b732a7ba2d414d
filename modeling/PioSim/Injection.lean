import PioSim.Share

/-!
# Instructions that inject instructions

OUT EXEC and MOV EXEC write a word into the same pending slot that `sm_cycle` executes injected
words from and clears behind them. A fetched word leaves its write in the slot and drops its own
delay; an injected one has the slot cleared over what it has just written, and keeps its delay.
-/

namespace PioSim

variable [Platform]

/-- The word writes EXEC: an `out exec` or a `mov exec`. -/
def writesExec (insn : Insn) : Bool :=
  (opcode insn == 3 && operandOf insn / 32 % 8 == 7) ||
    (opcode insn == 5 && operandOf insn / 32 % 8 == 4)

namespace World

/-- The value an EXEC write of state machine `(b, i)` moves. -/
def execValue (w : World) (b : BlockAddr) (i : Fin 4) (insn : Insn) : Word :=
  if opcode insn = 3 then (w.sm b i).outValue (shiftCount (operandOf insn))
  else w.movValue b i (operandOf insn)

/-- The word the state machine executes on its next cycle; `none` on a delay cycle. -/
def presents (w : World) (b : BlockAddr) (i : Fin 4) : Option Insn :=
  if 0 < (w.sm b i).delay then none else some (w.getInstruction b i)

/-- The instruction `sm_cycle` presents commits. -/
def commits (w : World) (b : BlockAddr) (i : Fin 4) : Bool :=
  (((w.toppedUp b i).countFetch b i).execOne b i (w.getInstruction b i)).committed

/-! ### The fetch counter is not read -/

section
omit [Platform]

theorem blocks_countFetch (w : World) (b : BlockAddr) (i : Fin 4) (c : BlockAddr) :
    ∃ n, (w.countFetch b i).blocks c = { w.blocks c with unwrittenFetches := n } := by
  unfold countFetch
  split
  · exact ⟨_, rfl⟩
  · by_cases hc : c = b
    · subst hc
      exact ⟨_, Function.update_self ..⟩
    · exact ⟨(w.blocks c).unwrittenFetches, Function.update_of_ne hc _ _⟩

theorem groups_countFetch (w : World) (b : BlockAddr) (i : Fin 4) :
    (w.countFetch b i).groups = w.groups := by
  unfold countFetch
  split <;> rfl

theorem countFetch_field {α : Type} (f : Pio → α)
    (hf : ∀ p n, f { p with unwrittenFetches := n } = f p)
    (w : World) (b : BlockAddr) (i : Fin 4) (c : BlockAddr) :
    f ((w.countFetch b i).blocks c) = f (w.blocks c) := by
  obtain ⟨n, hn⟩ := blocks_countFetch w b i c
  rw [hn, hf]

theorem padsAt_countFetch (w : World) (b : BlockAddr) (i : Fin 4) :
    (w.countFetch b i).padsAt = w.padsAt := by
  funext r
  cases r with
  | embedded c => exact countFetch_field (·.padsEmbedded) (fun _ _ => rfl) w b i c
  | shared g => simp only [padsAt, groups_countFetch]

theorem irqGet_countFetch (w : World) (b : BlockAddr) (i : Fin 4) :
    (w.countFetch b i).irqGet = w.irqGet := by
  funext c irq
  simp only [irqGet, countFetch_field (·.irq) (fun _ _ => rfl) w b i c]

end

theorem physPin_countFetch (w : World) (b : BlockAddr) (i : Fin 4) :
    (w.countFetch b i).physPin b = w.physPin b := by
  funext view
  simp only [physPin, countFetch_field (·.gpioBase) (fun _ _ => rfl) w b i b]

theorem inputLevel_countFetch (w : World) (b : BlockAddr) (i : Fin 4) :
    (w.countFetch b i).inputLevel b = w.inputLevel b := by
  funext pin
  have href := countFetch_field (·.pads) (fun _ _ => rfl) w b i b
  simp only [inputLevel, pads, padRef, padsAt_countFetch, href]

theorem readInPins_countFetch (w : World) (b : BlockAddr) (i : Fin 4) (base count : ℕ) :
    (w.countFetch b i).readInPins b base count = w.readInPins b base count := by
  unfold readInPins
  rw [physPin_countFetch, inputLevel_countFetch]

theorem readStatus_countFetch (w : World) (b : BlockAddr) (i : Fin 4) (s : Sm) :
    (w.countFetch b i).readStatus b s = w.readStatus b s := by
  have hprev := countFetch_field (·.irqPrev) (fun _ _ => rfl) w b i b
  have hnext := countFetch_field (·.irqNext) (fun _ _ => rfl) w b i b
  unfold readStatus
  simp only [irqGet_countFetch, hprev, hnext]

theorem movValue_countFetch (w : World) (b : BlockAddr) (i : Fin 4) (operand : ℕ) :
    (w.countFetch b i).movValue b i operand = w.movValue b i operand := by
  have hsrc : (w.countFetch b i).readSource b = w.readSource b := by
    funext s src
    unfold readSource
    rw [readInPins_countFetch, readStatus_countFetch]
  simp only [movValue, hsrc, sm_countFetch]

/-! ### One presentation -/

/-- A committed EXEC write leaves its value pending and sets no PC. -/
theorem execInsn_writesExec {w : World} {b : BlockAddr} {i : Fin 4} {insn : Insn}
    (hx : writesExec insn = true) (hc : (w.execInsn b i insn).stalled = false) :
    (w.execInsn b i insn).setPc = none ∧
      ((w.execInsn b i insn).world.sm b i).execPending = true ∧
      ((w.execInsn b i insn).world.sm b i).execInsn = (w.execValue b i insn).setWidth 16 := by
  simp only [writesExec, Bool.or_eq_true, Bool.and_eq_true, beq_iff_eq] at hx
  rcases hx with ⟨hop, hdest⟩ | ⟨hop, hdest⟩
  · have hout : w.execInsn b i insn = w.execOut b i (operandOf insn) := by
      simp only [execInsn, hop]
    rw [hout] at hc ⊢
    unfold execOut at hc ⊢
    simp only at hc ⊢
    split at hc
    · cases hc
    · rename_i hrun
      simp only [if_neg hrun, hdest, outStore, sm_setSm_self, execValue, hop, if_true, true_and]
  · have hmov : w.execInsn b i insn = w.execMov b i (operandOf insn) := by
      simp only [execInsn, hop]
    rw [hmov]
    simp only [execMov, hdest, sm_setSm_self, execValue, hop, true_and]
    rfl

theorem execOne_writesExec {w : World} {b : BlockAddr} {i : Fin 4} {insn : Insn}
    (hx : writesExec insn = true) (hc : (w.execOne b i insn).committed = true) :
    (w.execOne b i insn).setPc = none ∧
      ((w.execOne b i insn).world.sm b i).execPending = true ∧
      ((w.execOne b i insn).world.sm b i).execInsn = (w.execValue b i insn).setWidth 16 := by
  have hstall : (w.execInsn b i insn).stalled = false := by
    simpa only [execOne, Bool.not_eq_true'] using hc
  obtain ⟨hpc, hpend, hinsn⟩ := execInsn_writesExec hx hstall
  obtain ⟨r, hr⟩ := sm_applySideset (w.execInsn b i insn).world b i
    ((w.sm b i).decodeDelaySideset (delayField insn))
  have hworld : (w.execOne b i insn).world.sm b i =
      { (w.execInsn b i insn).world.sm b i with pins := r } := hr
  rw [hworld]
  exact ⟨hpc, hpend, hinsn⟩

omit [Platform] in
theorem retire_fromExec (s : Sm) (delay : ℕ) :
    s.retire true none delay =
      { s with stalled := false, execPending := false, delay := delay } := rfl

omit [Platform] in
/-- A fetched EXEC write retires with the written word pending and no delay. -/
theorem retire_fetched {s : Sm} (h : s.execPending = true) (delay : ℕ) :
    (s.retire false none delay).execPending = true ∧
      (s.retire false none delay).execInsn = s.execInsn ∧
      (s.retire false none delay).delay = 0 := by
  simp [Sm.retire, h]

/-- The `sm_cycle` of a state machine that is not delaying, when what it presents commits. -/
theorem smCycle_of_commits {w : World} {b : BlockAddr} {i : Fin 4} (hd : (w.sm b i).delay = 0)
    (hc : w.commits b i = true) :
    let r := ((w.toppedUp b i).countFetch b i).execOne b i (w.getInstruction b i)
    w.smCycle b i = r.world.modifySm b i (·.retire (w.sm b i).execPending r.setPc r.delay) := by
  obtain ⟨hp, -, -, hdelay, -⟩ := Sm.backgroundAutopull_fields (w.sm b i)
  have hrun : ¬ 0 < ((w.toppedUp b i).sm b i).delay := by
    rw [toppedUp, sm_modifySm_self, hdelay, hd]
    exact Nat.lt_irrefl 0
  have hpend : ((w.toppedUp b i).sm b i).execPending = (w.sm b i).execPending := by
    rw [toppedUp, sm_modifySm_self, hp]
  unfold commits at hc
  simp only [smCycle]
  rw [← toppedUp, if_neg hrun, present]
  simp only [getInstruction_toppedUp, hc, if_true, hpend]

omit [Platform] in
theorem presents_of_pending {w : World} {b : BlockAddr} {i : Fin 4}
    (hp : (w.sm b i).execPending = true) (hd : (w.sm b i).delay = 0) :
    w.presents b i = some (w.sm b i).execInsn := by
  simp [presents, getInstruction, hp, hd]

omit [Platform] in
theorem presents_of_fetch {w : World} {b : BlockAddr} {i : Fin 4}
    (hp : (w.sm b i).execPending = false) (insn : Insn) :
    w.presents b i = some insn ↔
      (w.sm b i).delay = 0 ∧ (w.blocks b).insn (Fin.ofNat 32 (w.sm b i).pc) = insn := by
  simp [presents, getInstruction, hp, Nat.pos_iff_ne_zero]

/-- When an EXEC write commits in `sm_cycle`, the state machine goes on to execute the low half of
the value written, without the writing word's delay, exactly if that word was fetched. An injected
EXEC write only does so by coincidence: its own delay field is zero and the instruction at the PC is
already the word it wrote. -/
theorem exec_write_injects_iff (w : World) (b : BlockAddr) (i : Fin 4)
    (hd : (w.sm b i).delay = 0) (hx : writesExec (w.getInstruction b i) = true)
    (hc : w.commits b i = true) :
    let insn := w.getInstruction b i
    let word := ((w.toppedUp b i).execValue b i insn).setWidth 16
    (w.smCycle b i).presents b i = some word ↔
      (w.sm b i).execPending = false ∨
        (((w.sm b i).decodeDelaySideset (delayField insn)).delay = 0 ∧
          (w.blocks b).insn (Fin.ofNat 32 (w.sm b i).pc) = word) := by
  intro insn word
  have hcycle := smCycle_of_commits hd hc
  simp only at hcycle
  obtain ⟨hset, hpend, hinsn⟩ := execOne_writesExec hx hc
  have hword : ((w.toppedUp b i).countFetch b i).execValue b i insn =
      (w.toppedUp b i).execValue b i insn := by
    simp only [execValue, sm_countFetch, movValue_countFetch]
  rw [hword] at hinsn
  obtain ⟨-, -, hpc, -, hfield⟩ := Sm.backgroundAutopull_fields (w.sm b i)
  rw [hcycle, hset]
  cases hfrom : (w.sm b i).execPending with
  | false =>
    obtain ⟨hp, hi, hdelay⟩ := retire_fetched hpend
      (((w.toppedUp b i).countFetch b i).execOne b i insn).delay
    rw [presents_of_pending (by rw [sm_modifySm_self, hp]) (by rw [sm_modifySm_self, hdelay]),
      sm_modifySm_self, hi, hinsn]
    simp [word]
  | true =>
    have hlocal := ((local_modifySm (w := w) (b := b) (i := i) Sm.backgroundAutopull).trans
      (countFetch_local (w.toppedUp b i) b b i i)).trans
      (execOne_local ((w.toppedUp b i).countFetch b i) b i insn)
    have hdel : (((w.toppedUp b i).countFetch b i).execOne b i insn).delay =
        ((w.sm b i).decodeDelaySideset (delayField insn)).delay := by
      simp only [execOne, sm_countFetch, toppedUp, sm_modifySm_self, hfield]
    have hat : ((((w.toppedUp b i).countFetch b i).execOne b i insn).world.sm b i).pc =
        (w.sm b i).pc := by
      rw [execOne_pc, sm_countFetch, toppedUp, sm_modifySm_self, hpc]
    have hmem : ((((w.toppedUp b i).countFetch b i).execOne b i insn).world.blocks b).insn =
        (w.blocks b).insn := congrArg Prod.fst (congrFun hlocal.shell b)
    rw [presents_of_fetch (by rw [sm_modifySm_self]; rfl), insn_modifySm, sm_modifySm_self,
      retire_fromExec, hmem, hat, hdel]
    simp only [Bool.true_eq_false, false_or]

omit [Platform] in
/-- A fetched `mov exec, x` with a delay of 3 injects `x` and drops the delay. -/
theorem exec_write_injects_fetched :
    letI : Platform := ⟨.rp2350⟩
    let w := initial.run [.block 0 (.load 0 [0xA381]), .smExec 0 0 0xE025, .setEnabled 0 0 true]
    (w.smCycle 0 0).presents 0 0 = some 5 := by
  let P : Platform := ⟨.rp2350⟩
  let w := initial.run [.block 0 (.load 0 [0xA381]), .smExec 0 0 0xE025, .setEnabled 0 0 true]
  have hinjects := (exec_write_injects_iff w 0 0 (by decide +kernel) (by decide +kernel)
    (by decide +kernel)).mpr (.inl (by decide +kernel))
  have hword : ((w.toppedUp 0 0).execValue 0 0 (w.getInstruction 0 0)).setWidth 16 = 5#16 := by
    decide +kernel
  exact hinjects.trans (congrArg some hword)

omit [Platform] in
/-- An `out exec, 16` forced while TX is empty is latched, retried once the host has put `set x, 5`,
and commits; the word it wrote is never executed. -/
theorem injected_exec_write_lost :
    letI : Platform := ⟨.rp2350⟩
    ¬ ∀ w : World, w.Reachable → ∀ b i, (w.sm b i).delay = 0 →
      writesExec (w.getInstruction b i) = true → w.commits b i = true →
        (w.smCycle b i).presents b i =
          some (((w.toppedUp b i).execValue b i (w.getInstruction b i)).setWidth 16) := by
  let P : Platform := ⟨.rp2350⟩
  intro hall
  have hinjects := hall (initial.run [
    .smInit 0 0 0 (defaultSmConfig.setOutShift true true 32), .smExec 0 0 0x60F0,
    .sm 0 0 (.put 0xE025), .setEnabled 0 0 true]) ⟨_, rfl⟩ 0 0
    (by decide +kernel) (by decide +kernel) (by decide +kernel)
  revert hinjects
  decide +kernel

end World
end PioSim
