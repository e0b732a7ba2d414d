import PioSim.Calls
import PioSim.Injection

/-!
# `irq n wait`

An execution of `irq n wait` spans several presentations: the first raises the flag, the later ones
wait for the host to clear it. The code tells the first from the later ones by the `stalled` bit of
the state machine. `Monitor` records which instruction, of the program or pending, has really been
presented and has not committed yet, and the run lemma says under which calls the two agree.
-/

namespace PioSim

variable [Platform]

def isIrqWait (insn : Insn) : Bool :=
  opcode insn == 6 && !(operandOf insn).testBit 6 && (operandOf insn).testBit 5

namespace Sm

def slot (s : Sm) : Bool × Insn := (s.execPending, s.execInsn)

section
omit [Platform]

theorem slot_refill (s : Sm) : (s.osrRefill.getD s).slot = s.slot := by
  cases h : s.osrRefill with
  | none => rfl
  | some s' =>
    obtain ⟨v, tx, -, rfl⟩ := osrRefill_eq_some h
    rfl

theorem slot_drain (s : Sm) : (s.isrDrain.getD s).slot = s.slot := by
  cases h : s.isrDrain with
  | none => rfl
  | some s' =>
    obtain ⟨rx, -, rfl⟩ := isrDrain_eq_some h
    rfl

theorem slot_execJmp (s : Sm) (pin : Bool) (operand : ℕ) :
    (s.execJmp pin operand).1.slot = s.slot := by
  unfold execJmp
  split
  rename_i hjmp
  split at hjmp <;> cases hjmp <;> rfl

end

theorem slot_execIn (s : Sm) (src : Word) (count : ℕ) : (s.execIn src count).1.slot = s.slot := by
  unfold execIn
  simp only
  split
  · rfl
  · split
    · exact slot_drain _
    · rfl

theorem slot_execPushpull (s : Sm) (operand : ℕ) : (s.execPushpull operand).1.slot = s.slot := by
  unfold execPushpull
  simp only
  split_ifs
  any_goals rfl
  · exact slot_drain s
  · exact slot_refill s

omit [Platform] in
theorem slot_execMovRxfifo (s : Sm) (operand : ℕ) : (s.execMovRxfifo operand).slot = s.slot := by
  unfold execMovRxfifo
  simp only
  split_ifs <;> rfl

end Sm

namespace World

theorem slot_setPins (w : World) (b : BlockAddr) (i : Fin 4) (r : PinRegs) :
    ((w.setPins b i r).sm b i).slot = (w.sm b i).slot := by
  rw [sm_setPins_self]
  rfl

theorem slot_execOut {w : World} {b : BlockAddr} {i : Fin 4} {operand : ℕ}
    (h : operand / 32 % 8 ≠ 7 ∨ (w.execOut b i operand).stalled = true) :
    ((w.execOut b i operand).world.sm b i).slot = (w.sm b i).slot := by
  unfold execOut at h ⊢
  simp only at h ⊢
  split
  · rw [sm_setSm_self]
    rfl
  · rename_i hrun
    rw [if_neg hrun] at h
    have hdest : operand / 32 % 8 ≠ 7 := h.resolve_right (by simp)
    unfold outStore
    split
    any_goals rw [sm_setSm_self]; rfl
    any_goals rw [sm_setSm_self, sm_setSm_self]; rfl
    · simp only
      split
      · exact (slot_setPins _ b i _).trans (by rw [sm_setSm_self]; rfl)
      · split
        · exact (slot_setPins _ b i _).trans (by rw [sm_setSm_self]; rfl)
        · rw [sm_setSm_self]
          rfl
    · exact (slot_setPins _ b i _).trans (by rw [sm_setSm_self]; rfl)
    · exact absurd ‹_› hdest

theorem slot_execMov {w : World} {b : BlockAddr} {i : Fin 4} {operand : ℕ}
    (h : operand / 32 % 8 ≠ 4) :
    ((w.execMov b i operand).world.sm b i).slot = (w.sm b i).slot := by
  unfold execMov
  simp only
  split
  any_goals rw [sm_setSm_self]; rfl
  any_goals rfl
  · exact slot_setPins w b i _
  · split
    · exact slot_setPins w b i _
    · rfl
  · exact absurd ‹_› h

theorem slot_execSet (w : World) (b : BlockAddr) (i : Fin 4) (operand : ℕ) :
    ((w.execSet b i operand).sm b i).slot = (w.sm b i).slot := by
  unfold execSet
  simp only
  split
  any_goals rw [sm_setSm_self]; rfl
  · exact slot_setPins w b i _
  · exact slot_setPins w b i _
  · rfl

/-- Only a committed EXEC write touches the pending slot. -/
theorem slot_execInsn {w : World} {b : BlockAddr} {i : Fin 4} {insn : Insn}
    (h : writesExec insn = false ∨ (w.execInsn b i insn).stalled = true) :
    ((w.execInsn b i insn).world.sm b i).slot = (w.sm b i).slot := by
  unfold execInsn at h ⊢
  simp only at h ⊢
  split
  · rw [sm_setSm_self, Sm.slot_execJmp]
  · rw [sm_execWait]
  · rw [sm_setSm_self, Sm.slot_execIn]
  · rename_i hop
    simp only [hop] at h
    apply slot_execOut
    refine h.imp_left fun hx hd => ?_
    simp [writesExec, hop, hd] at hx
  · split
    · rw [sm_setSm_self, Sm.slot_execMovRxfifo]
    · rw [sm_setSm_self, Sm.slot_execPushpull]
  · rename_i hop
    simp only [hop] at h
    apply slot_execMov
    rintro hd
    rcases h with hx | hs
    · simp [writesExec, hop, hd] at hx
    · simp [execMov, hd] at hs
  · rw [sm_execIrq]
  · exact slot_execSet w b i _

theorem slot_execOne {w : World} {b : BlockAddr} {i : Fin 4} {insn : Insn}
    (h : writesExec insn = false ∨ (w.execOne b i insn).committed = false) :
    ((w.execOne b i insn).world.sm b i).slot = (w.sm b i).slot := by
  obtain ⟨r, hr⟩ := sm_applySideset (w.execInsn b i insn).world b i
    ((w.sm b i).decodeDelaySideset (delayField insn))
  have hworld : (w.execOne b i insn).world.sm b i =
      { (w.execInsn b i insn).world.sm b i with pins := r } := hr
  rw [hworld]
  refine (Eq.trans ?_ (slot_execInsn (h.imp_right fun hc => ?_)) : _)
  · rfl
  · simpa [execOne] using hc

/-! ### One presentation -/

/-- The flag an `irq n wait` of state machine `i` raises; `none` for any other word, and where the
neighbour block it names is not linked. -/
def waitTarget (w : World) (b : BlockAddr) (i : Fin 4) (insn : Insn) : Option (BlockAddr × ℕ) :=
  if isIrqWait insn then
    (w.irqTargetBlock b (resolveIrqTarget i (operandOf insn % 32)).block).map fun blk =>
      (blk, (resolveIrqTarget i (operandOf insn % 32)).index)
  else none

theorem waitTarget_congr {w w' : World} {b : BlockAddr} (h : (w'.shell b).2.2 = (w.shell b).2.2)
    (i : Fin 4) (insn : Insn) : w'.waitTarget b i insn = w.waitTarget b i insn := by
  simp only [shell, Prod.mk.injEq] at h
  have hblock : w'.irqTargetBlock b = w.irqTargetBlock b := by
    funext sel
    cases sel <;> simp only [irqTargetBlock, h.1, h.2]
  rw [waitTarget, hblock, waitTarget]

theorem irqs_applySideset (w : World) (b : BlockAddr) (i : Fin 4) (ds : DelaySideset) :
    (w.applySideset b i ds).irqs = w.irqs := by
  rcases w.applySideset_cases b i ds with h | ⟨r, h⟩
  · rw [h]
  · rw [h, setPins, irqs_resolvePads, irqs_modifySm]

omit [Platform] in
theorem irqGet_eq (w : World) (b : BlockAddr) (irq : ℕ) :
    w.irqGet b irq = (w.irqs b).getLsbD (irq % 8) := rfl

omit [Platform] in
theorem irqGet_irqRaise (w : World) (b : BlockAddr) (irq : ℕ) :
    (w.irqRaise b irq).irqGet b irq = true := by
  rw [irqGet_eq, irqRaise, irqs_setIrq, Function.update_self]
  have hlt : irq % 8 < 8 := Nat.mod_lt _ (by omega)
  simp [hlt]

/-- A presentation of a linked `irq n wait` raises the flag if `stalled` is clear, and otherwise
only looks at it. -/
theorem execOne_irqWait {w : World} {b : BlockAddr} {i : Fin 4} {insn : Insn} {blk : BlockAddr}
    {irq : ℕ} (ht : w.waitTarget b i insn = some (blk, irq)) :
    ((w.sm b i).stalled = false → (w.execOne b i insn).committed = false ∧
      (w.execOne b i insn).world.irqs = (w.irqRaise blk irq).irqs) ∧
    ((w.sm b i).stalled = true → (w.execOne b i insn).world.irqs = w.irqs ∧
      (w.execOne b i insn).committed = !w.irqGet blk irq) := by
  unfold waitTarget at ht
  split at ht
  · rename_i hwait
    simp only [isIrqWait, Bool.and_eq_true, Bool.not_eq_true', beq_iff_eq] at hwait
    obtain ⟨⟨hop, hclr⟩, hw⟩ := hwait
    obtain ⟨t, hblk, he⟩ := Option.map_eq_some_iff.mp ht
    simp only [Prod.mk.injEq] at he
    obtain ⟨rfl, rfl⟩ := he
    have hinsn : w.execInsn b i insn = w.execIrq b i (operandOf insn) := by
      simp only [execInsn, hop]
    simp only [execOne, hinsn, irqs_applySideset, execIrq, hblk, hclr, hw, Bool.false_eq_true,
      if_false, if_true]
    refine ⟨fun hs => ?_, fun hs => ?_⟩
    · simp only [hs, Bool.false_eq_true, if_false, irqGet_irqRaise, Bool.not_true, and_self]
    · simp only [hs, if_true, and_self]
  · cases ht

/-- An instruction word handed to `exec_one`: the world it is executed in and what comes back. -/
structure Presentation where
  word : Insn
  world : World
  result : Executed

/-- The presentation a call makes for state machine `(b, i)`: a tick that finds it due and past its
delay presents the next instruction, `pio_sim_sm_exec` the forced word. -/
def presentation (b : BlockAddr) (i : Fin 4) (w : World) : Call → Option Presentation
  | .tickSms b' =>
    if b' = b ∧ w.due b i = true ∧ (w.sm b i).delay = 0 then
      some ⟨w.getInstruction b i, w.presentWorld b i,
        (w.presentWorld b i).execOne b i (w.getInstruction b i)⟩
    else none
  | .smExec b' k insn =>
    if (b', smIdx k) = (b, i) then
      let v := w.modifySm b i fun s => { s with stalled := false }
      some ⟨insn, v, v.execOne b i insn⟩
    else none
  | _ => none

def place (w : World) (b : BlockAddr) (i : Fin 4) : ℕ × Insn :=
  ((w.sm b i).pc, (w.blocks b).insn (Fin.ofNat 32 (w.sm b i).pc))

/-- The calls that reset state machine `(b, i)`. -/
def resets (b : BlockAddr) (i : Fin 4) : Call → Bool
  | .init b' => b' == b
  | .smInit b' k _ _ => (b', smIdx k) == (b, i)
  | .sm b' k .restart => (b', smIdx k) == (b, i)
  | _ => false

/-- Which executions of state machine `(b, i)` are under way: `prog` says that the instruction at
the PC has been presented and has not committed, `pend` says so of the pending instruction. -/
structure Monitor where
  prog : Bool
  pend : Bool

namespace Monitor

def fresh : Monitor := ⟨false, false⟩

/-- The flag of the instruction the state machine presents next. -/
def current (m : Monitor) (w : World) (b : BlockAddr) (i : Fin 4) : Bool :=
  if (w.sm b i).execPending then m.pend else m.prog

/-- The presentation a call makes is the first one of its execution; a forced word always is. -/
def first (m : Monitor) (b : BlockAddr) (i : Fin 4) (w : World) : Call → Bool
  | .smExec .. => true
  | _ => !m.current w b i

/-- A tick's presentation: of the pending word if there is one, else of the word at the PC. -/
def ticked (m : Monitor) (fromExec : Bool) (r : Executed) : Monitor :=
  match fromExec, r.committed with
  | true, true => ⟨m.prog && r.setPc.isNone, false⟩
  | true, false => ⟨m.prog, true⟩
  | false, true => fresh
  | false, false => ⟨true, false⟩

/-- A forced presentation: if it commits the interrupted executions go on, unless it has moved the
PC or filled the pending slot; if not it waits in the pending slot. -/
def forced (m : Monitor) (insn : Insn) (r : Executed) : Monitor :=
  if r.committed then ⟨m.prog && r.setPc.isNone, m.pend && !writesExec insn⟩ else ⟨m.prog, true⟩

def next (b : BlockAddr) (i : Fin 4) (m : Monitor) (w : World) (c : Call) : Monitor :=
  match presentation b i w c with
  | some p =>
    match c with
    | .smExec .. => m.forced p.word p.result
    | _ => m.ticked (w.sm b i).execPending p.result
  | none =>
    if resets b i c then fresh
    else ⟨m.prog && (w.step c).place b i == w.place b i, m.pend⟩

end Monitor

/-- The forced word takes the place of the instruction being presented: it moves the PC off a
program instruction, or fills the slot of a pending one. -/
def ousts (w : World) (b : BlockAddr) (i : Fin 4) (insn : Insn) : Bool :=
  let r := (w.modifySm b i fun s => { s with stalled := false }).execOne b i insn
  if (w.sm b i).execPending then !r.committed || writesExec insn
  else r.committed && r.setPc.isSome

/-- The calls under which `stalled` goes on telling first presentations from later ones. While the
state machine is parked on a linked `irq n wait`, a forced word must oust it. While it is stalled on
its program, no call puts another linked `irq n wait` under the PC. The block is not relinked. -/
def Undisturbed (b : BlockAddr) (i : Fin 4) (w : World) : Call → Prop
  | .tickSms _ => True
  | .smExec b' k insn => (b', smIdx k) = (b, i) → (w.sm b i).stalled = true →
      (w.waitTarget b i (w.getInstruction b i)).isSome = true → w.ousts b i insn = true
  | c => resets b i c = true ∨ (((w.step c).shell b).2.2 = (w.shell b).2.2 ∧
      ((w.sm b i).stalled = true → (w.sm b i).execPending = false →
        (w.step c).place b i ≠ w.place b i →
          w.waitTarget b i ((w.step c).place b i).2 = none))

/-- The monitor agrees with the code: on a linked `irq n wait` the `stalled` bit says whether it has
been presented, and no such execution is under way at the PC behind a pending instruction. -/
structure Tracks (b : BlockAddr) (i : Fin 4) (m : Monitor) (w : World) : Prop where
  current : (w.waitTarget b i (w.getInstruction b i)).isSome = true →
    (w.sm b i).stalled = m.current w b i
  behind : (w.sm b i).execPending = true → m.prog = true →
    w.waitTarget b i (w.place b i).2 = none

/-- What a presentation of a linked `irq n wait` is to do. -/
def RaisesOnce (first : Bool) (p : Presentation) (blk : BlockAddr) (irq : ℕ) : Prop :=
  (first = true → p.result.committed = false ∧
    p.result.world.irqs = (p.world.irqRaise blk irq).irqs) ∧
  (first = false → p.result.world.irqs = p.world.irqs ∧
    p.result.committed = !p.world.irqGet blk irq)

theorem presentWorld_fields (w : World) (b : BlockAddr) (i : Fin 4) :
    ((w.presentWorld b i).sm b i).stalled = (w.sm b i).stalled ∧
      ((w.presentWorld b i).sm b i).pc = (w.sm b i).pc ∧
      ((w.presentWorld b i).sm b i).slot = (w.sm b i).slot := by
  rw [sm_presentWorld, sm_cycleWorld]
  rcases Sm.backgroundAutopull_eq { (w.sm b i).openWindow with
    clkAccum := u32 ((w.sm b i).clkAccum + 256) - divUnits (w.sm b i) } with h | ⟨v, tx, h⟩ <;>
    rw [h] <;> exact ⟨rfl, rfl, rfl⟩

theorem presentation_tickSms {w : World} {b b' : BlockAddr} {i : Fin 4} {p : Presentation}
    (hp : presentation b i w (.tickSms b') = some p) :
    b' = b ∧ w.due b i = true ∧ (w.sm b i).delay = 0 ∧
      p = ⟨w.getInstruction b i, w.presentWorld b i,
        (w.presentWorld b i).execOne b i (w.getInstruction b i)⟩ := by
  simp only [presentation] at hp
  split at hp
  · rename_i h
    exact ⟨h.1, h.2.1, h.2.2, (Option.some.inj hp).symm⟩
  · cases hp

theorem presentation_smExec {w : World} {b b' : BlockAddr} {i : Fin 4} {k : ℕ} {insn : Insn}
    {p : Presentation} (hp : presentation b i w (.smExec b' k insn) = some p) :
    (b', smIdx k) = (b, i) ∧ p = ⟨insn, w.modifySm b i fun s => { s with stalled := false },
      (w.modifySm b i fun s => { s with stalled := false }).execOne b i insn⟩ := by
  simp only [presentation] at hp
  split at hp
  · rename_i h
    exact ⟨h, (Option.some.inj hp).symm⟩
  · cases hp

/-- Where the monitor agrees with the code, a presentation does what it is to do. -/
theorem Tracks.raisesOnce {b : BlockAddr} {i : Fin 4} {m : Monitor} {w : World}
    (h : Tracks b i m w) {c : Call} {p : Presentation} (hp : presentation b i w c = some p)
    {blk : BlockAddr} {irq : ℕ} (ht : p.world.waitTarget b i p.word = some (blk, irq)) :
    RaisesOnce (m.first b i w c) p blk irq := by
  cases c with
  | tickSms b' =>
    obtain ⟨-, -, -, rfl⟩ := presentation_tickSms hp
    obtain ⟨hraise, hlook⟩ := execOne_irqWait ht
    rw [(presentWorld_fields w b i).1] at hraise hlook
    rw [waitTarget_congr (congrArg (·.2.2) (congrFun (shell_presentWorld w b i) b))] at ht
    have hcur := h.current (by rw [ht]; rfl)
    rw [hcur] at hraise hlook
    exact ⟨fun hf => hraise (by simpa [Monitor.first] using hf),
      fun hf => hlook (by simpa [Monitor.first] using hf)⟩
  | smExec b' k insn =>
    obtain ⟨-, rfl⟩ := presentation_smExec hp
    obtain ⟨hraise, -⟩ := execOne_irqWait ht
    exact ⟨fun _ => hraise (by rw [sm_modifySm_self]), fun hf => by cases hf⟩
  | _ => cases hp

/-! ### The monitor follows the code -/

omit [Platform] in
theorem getInstruction_eq (w : World) (b : BlockAddr) (i : Fin 4) : w.getInstruction b i =
    if (w.sm b i).execPending then (w.sm b i).execInsn else (w.place b i).2 := rfl

/-- A step that presents nothing: the two agree on, whatever became of the word at the PC. -/
theorem Tracks.idle {b : BlockAddr} {i : Fin 4} {m : Monitor} {w w' : World} (h : Tracks b i m w)
    (hstall : (w'.sm b i).stalled = (w.sm b i).stalled) (hslot : (w'.sm b i).slot = (w.sm b i).slot)
    (hlink : (w'.shell b).2.2 = (w.shell b).2.2)
    (hplace : (w.sm b i).stalled = true → (w.sm b i).execPending = false →
      w'.place b i ≠ w.place b i → w.waitTarget b i (w'.place b i).2 = none) :
    Tracks b i ⟨m.prog && w'.place b i == w.place b i, m.pend⟩ w' := by
  obtain ⟨hpend, hinsn⟩ := Prod.mk.inj hslot
  refine ⟨fun ht => ?_, fun hp hm => ?_⟩
  · rw [waitTarget_congr hlink, getInstruction_eq, hpend, hinsn] at ht
    have hcur := h.current
    rw [getInstruction_eq] at hcur
    rw [hstall, Monitor.current, hpend]
    cases hfrom : (w.sm b i).execPending with
    | true =>
      simp only [hfrom, if_true] at ht hcur ⊢
      rw [hcur ht, Monitor.current, hfrom]
      rfl
    | false =>
      simp only [hfrom, Bool.false_eq_true, if_false] at ht hcur ⊢
      by_cases hsame : w'.place b i = w.place b i
      · rw [hsame] at ht ⊢
        rw [hcur ht, Monitor.current, hfrom]
        simp
      · have hrun : (w.sm b i).stalled = false := by
          by_contra hs
          rw [hplace (by simpa using hs) hfrom hsame] at ht
          cases ht
        rw [hrun, beq_eq_false_iff_ne.mpr hsame, Bool.and_false]
  · simp only [Bool.and_eq_true, beq_iff_eq] at hm
    rw [waitTarget_congr hlink, hm.2]
    exact h.behind (hpend ▸ hp) hm.1

/-- A step after which the state machine is not stalled and nothing is under way. -/
theorem Tracks.fresh {b : BlockAddr} {i : Fin 4} {w : World} (h : (w.sm b i).stalled = false) :
    Tracks b i .fresh w := by
  refine ⟨fun _ => ?_, fun _ hm => by cases hm⟩
  rw [h, Monitor.current]
  split <;> rfl

/-- What a tick's presentation leaves in the bookkeeping fields. -/
theorem tickSms_of_presentation {w : World} {b b' : BlockAddr} {i : Fin 4} {p : Presentation}
    (hp : presentation b i w (.tickSms b') = some p) :
    let s := (w.tickSms b').sm b i
    (p.result.committed = true → s.stalled = false ∧ ((w.sm b i).execPending = true →
      s.execPending = false ∧ s.pc = p.result.setPc.getD (w.sm b i).pc)) ∧
    (p.result.committed = false →
      s.stalled = true ∧ s.slot = (w.sm b i).slot ∧ s.pc = (w.sm b i).pc) := by
  obtain ⟨rfl, hdue, hd, rfl⟩ := presentation_tickSms hp
  obtain ⟨-, hpc, hslot⟩ := presentWorld_fields w b' i
  have hat := execOne_pc (w.presentWorld b' i) b' i (w.getInstruction b' i)
  have hkeep := @slot_execOne _ (w.presentWorld b' i) b' i (w.getInstruction b' i)
  generalize hr : (w.presentWorld b' i).execOne b' i (w.getInstruction b' i) = r at hat hkeep ⊢
  refine ⟨fun hc => ?_, fun hc => ?_⟩
  · obtain ⟨q, hq⟩ := stickyReassert_eq
      ((r.world.sm b' i).retire (w.sm b' i).execPending r.setPc r.delay)
    rw [sm_tickSms_of_commit hdue hd hr hc, hq]
    refine ⟨?_, fun hfrom => ?_⟩
    · unfold Sm.retire
      split <;> rfl
    · rw [hfrom, Sm.retire, if_pos rfl, ← hpc, ← hat]
      exact ⟨rfl, rfl⟩
  · obtain ⟨q, hq⟩ := stickyReassert_eq { r.world.sm b' i with stalled := true }
    rw [sm_tickSms_of_stall hdue hd hr hc, hq]
    exact ⟨rfl, (hkeep (.inr hc)).trans hslot, hat.trans hpc⟩

/-- A tick that presents nothing for the state machine leaves its bookkeeping fields alone. -/
theorem tickSms_idle {w : World} {b b' : BlockAddr} {i : Fin 4}
    (hp : presentation b i w (.tickSms b') = none) :
    let s := (w.tickSms b').sm b i
    s.stalled = (w.sm b i).stalled ∧ s.slot = (w.sm b i).slot ∧ s.pc = (w.sm b i).pc := by
  intro s
  by_cases hb : b' = b
  · subst hb
    cases hdue : w.due b' i with
    | false =>
      obtain ⟨n, hn⟩ := sm_tickSms_of_not_due hdue
      simp only [s, hn]
      exact ⟨rfl, rfl, rfl⟩
    | true =>
      have hd : 0 < (w.sm b' i).delay := by
        by_contra hz
        simp [presentation, hdue, Nat.eq_zero_of_not_pos hz] at hp
      obtain ⟨r, hr⟩ := stickyReassert_eq { Sm.backgroundAutopull ((w.cycleWorld b' i).sm b' i) with
        delay := (w.sm b' i).delay - 1 }
      obtain ⟨hstall, hpc, hslot⟩ := presentWorld_fields w b' i
      rw [sm_presentWorld] at hstall hpc hslot
      simp only [s, sm_tickSms_of_delay hdue hd, hr]
      exact ⟨hstall, hslot, hpc⟩
  · simp only [s, sm_tickSms_of_ne w fun h => hb h.symm]
    exact ⟨trivial, trivial, trivial⟩

omit [Platform] in
theorem place_congr {w w' : World} {b : BlockAddr} {i : Fin 4} (hs : w'.shell = w.shell)
    (hpc : (w'.sm b i).pc = (w.sm b i).pc) : w'.place b i = w.place b i := by
  have hmem : (w'.blocks b).insn = (w.blocks b).insn := congrArg Prod.fst (congrFun hs b)
  rw [place, hmem, hpc, place]

/-- An instruction under way at the PC behind a forced or pending one goes on only if that one
leaves the PC alone, so if it may not be a linked `irq n wait` before, it is none after. -/
theorem waitTarget_of_resumed {b : BlockAddr} {i : Fin 4} {w w' : World} {p : Bool}
    {setPc : Option ℕ} (hs : w'.shell = w.shell)
    (hpc : (w'.sm b i).pc = setPc.getD (w.sm b i).pc)
    (hq : p = true → setPc = none → w.waitTarget b i (w.place b i).2 = none)
    (hm : (p && setPc.isNone) = true) : w'.waitTarget b i (w'.place b i).2 = none := by
  rw [Bool.and_eq_true, Option.isNone_iff_eq_none] at hm
  rw [hm.2, Option.getD_none] at hpc
  have hlink : (w'.shell b).2.2 = (w.shell b).2.2 := by rw [hs]
  rw [waitTarget_congr hlink, place_congr hs hpc]
  exact hq hm.1 hm.2

theorem Tracks.tickSms {b b' : BlockAddr} {i : Fin 4} {m : Monitor} {w : World}
    (h : Tracks b i m w) : Tracks b i (m.next b i w (.tickSms b')) (w.tickSms b') := by
  have hshell := shell_tickSms w b'
  have hlink : ((w.tickSms b').shell b).2.2 = (w.shell b).2.2 := by rw [hshell]
  cases hp : presentation b i w (.tickSms b') with
  | none =>
    obtain ⟨hstall, hslot, hpc⟩ := tickSms_idle hp
    have hplace := place_congr hshell hpc
    simp only [Monitor.next, hp, resets, Bool.false_eq_true, if_false]
    exact h.idle hstall hslot hlink fun _ _ hne => absurd hplace hne
  | some p =>
    simp only [Monitor.next, hp]
    obtain ⟨hcommit, hstall⟩ := tickSms_of_presentation hp
    cases hc : p.result.committed with
    | true =>
      obtain ⟨hrun, hexec⟩ := hcommit hc
      cases hfrom : (w.sm b i).execPending with
      | false =>
        simp only [Monitor.ticked, hc]
        exact .fresh hrun
      | true =>
        obtain ⟨hdone, hpc⟩ := hexec hfrom
        simp only [Monitor.ticked, hc]
        refine ⟨fun ht => ?_, fun hpend => by rw [hdone] at hpend; cases hpend⟩
        rw [hrun, Monitor.current, hdone]
        by_contra hne
        rw [getInstruction_eq, hdone, if_neg Bool.false_ne_true,
          waitTarget_of_resumed hshell hpc (fun hm _ => h.behind hfrom hm)
            (by simpa using Ne.symm hne)] at ht
        cases ht
    | false =>
      obtain ⟨hst, hslot, hpc⟩ := hstall hc
      obtain ⟨hpend, hinsn⟩ := Prod.mk.inj hslot
      cases hfrom : (w.sm b i).execPending with
      | false =>
        simp only [Monitor.ticked, hc]
        refine ⟨fun _ => ?_, fun hp' => ?_⟩
        · rw [hst, Monitor.current, hpend, hfrom]
          rfl
        · rw [hpend, hfrom] at hp'
          cases hp'
      | true =>
        simp only [Monitor.ticked, hc]
        refine ⟨fun _ => ?_, fun _ hm => ?_⟩
        · rw [hst, Monitor.current, hpend, hfrom]
          rfl
        · rw [waitTarget_congr hlink, place_congr hshell hpc]
          exact h.behind hfrom hm

/-- The instruction at the PC during a forced one that neither ousts it nor moves the PC. -/
theorem Tracks.quiet {b : BlockAddr} {i : Fin 4} {m : Monitor} {w : World} (h : Tracks b i m w)
    {insn : Insn} (hc : (w.sm b i).stalled = true →
      (w.waitTarget b i (w.getInstruction b i)).isSome = true → w.ousts b i insn = true)
    (hm : m.prog = true) (hstay : (w.sm b i).execPending = false → w.ousts b i insn = false) :
    w.waitTarget b i (w.place b i).2 = none := by
  cases hfrom : (w.sm b i).execPending with
  | true => exact h.behind hfrom hm
  | false =>
    by_contra hne
    have hsome : (w.waitTarget b i (w.getInstruction b i)).isSome = true := by
      rw [getInstruction_eq, hfrom]
      exact Option.isSome_iff_ne_none.mpr hne
    have hst := h.current hsome
    rw [Monitor.current, hfrom, if_neg Bool.false_ne_true, hm] at hst
    have houst := hc hst hsome
    rw [hstay hfrom] at houst
    cases houst

/-- What `pio_sim_sm_exec` leaves in the bookkeeping fields. -/
theorem smExec_fields {w : World} {b : BlockAddr} {i : Fin 4} {insn : Insn} {r : Executed}
    (hr : (w.modifySm b i fun s => { s with stalled := false }).execOne b i insn = r) :
    let s := (w.smExec b i insn).sm b i
    (r.committed = true → s.stalled = false ∧ s.pc = r.setPc.getD (w.sm b i).pc ∧
      (writesExec insn = false → s.slot = (w.sm b i).slot) ∧
      (writesExec insn = true → s.execPending = true)) ∧
    (r.committed = false →
      s.stalled = true ∧ s.execPending = true ∧ s.pc = (w.sm b i).pc) := by
  have hcontrol := execOne_control (w.modifySm b i fun s => { s with stalled := false }) b i insn
  have hslot := @slot_execOne _ (w.modifySm b i fun s => { s with stalled := false }) b i insn
  have hwrites := @execOne_writesExec _ (w.modifySm b i fun s => { s with stalled := false }) b i
    insn
  simp only [hr, sm_modifySm_self, Sm.control, Prod.mk.injEq] at hcontrol hslot hwrites
  obtain ⟨-, -, hpc, -, hstall, -⟩ := hcontrol
  unfold smExec
  simp only [hr]
  refine ⟨fun hc => ?_, fun hc => ?_⟩
  · simp only [hc, if_true, sm_modifySm_self]
    exact ⟨hstall, by rw [hpc], fun hx => hslot (.inl hx), fun hx => (hwrites hx hc).2.1⟩
  · simp only [hc, Bool.false_eq_true, if_false, sm_modifySm_self]
    exact ⟨trivial, trivial, hpc⟩

theorem Tracks.smExec {b : BlockAddr} {i : Fin 4} {m : Monitor} {w : World} (h : Tracks b i m w)
    {insn : Insn} (hc : (w.sm b i).stalled = true →
      (w.waitTarget b i (w.getInstruction b i)).isSome = true → w.ousts b i insn = true) :
    Tracks b i (m.forced insn
      ((w.modifySm b i fun s => { s with stalled := false }).execOne b i insn))
      (w.smExec b i insn) := by
  have hshell := (smExec_local w b i insn).shell
  have hlink : ((w.smExec b i insn).shell b).2.2 = (w.shell b).2.2 := by rw [hshell]
  generalize hr : (w.modifySm b i fun s => { s with stalled := false }).execOne b i insn = r
  have hquiet := fun hm => h.quiet hc hm
  have hcur := h.current
  unfold ousts at hc hquiet
  simp only [hr] at hc hquiet
  obtain ⟨hcommit, hstall⟩ := smExec_fields hr
  cases hdone : r.committed with
  | true =>
    obtain ⟨hrun, hpc, hkeep, hfill⟩ := hcommit hdone
    -- behind: what is under way at the PC goes on only if the forced word has not moved the PC
    have hbehind := waitTarget_of_resumed (p := m.prog) hshell hpc fun hm hset =>
      hquiet hm fun hfrom => by simp [hfrom, hset]
    simp only [Monitor.forced, hdone, if_true]
    refine ⟨fun ht => ?_, fun _ hm => hbehind hm⟩
    rw [hrun, Monitor.current]
    cases hx : writesExec insn with
    | true => simp [hfill hx]
    | false =>
      obtain ⟨hpend, hinsn⟩ := Prod.mk.inj (hkeep hx)
      rw [getInstruction_eq, hpend, hinsn, waitTarget_congr hlink] at ht
      rw [hpend]
      cases hfrom : (w.sm b i).execPending with
      | false =>
        by_contra hne
        rw [hfrom, if_neg Bool.false_ne_true, ← waitTarget_congr hlink,
          hbehind (by simpa using Ne.symm hne)] at ht
        cases ht
      | true =>
        by_contra hne
        have hm : m.pend = true := by simpa using Ne.symm hne
        have hword : w.getInstruction b i = (w.sm b i).execInsn := by
          rw [getInstruction_eq, if_pos hfrom]
        rw [hfrom, if_pos rfl, ← hword] at ht
        have hst := hcur ht
        rw [Monitor.current, hfrom, if_pos rfl, hm] at hst
        have houst := hc hst ht
        simp [hfrom, hdone, hx] at houst
  | false =>
    obtain ⟨hst, hpend, hpc⟩ := hstall hdone
    simp only [Monitor.forced, hdone, Bool.false_eq_true, if_false]
    refine ⟨fun _ => ?_, fun _ hm => ?_⟩
    · rw [hst, Monitor.current, hpend, if_pos rfl]
    · rw [waitTarget_congr hlink, place_congr hshell hpc]
      exact hquiet hm fun hfrom => by simp [hfrom, hdone]

theorem fields_setConfig (s : Sm) (c : SmConfig) :
    (s.setConfig c).stalled = s.stalled ∧ (s.setConfig c).slot = s.slot := by
  simp only [Sm.setConfig, Sm.applyFifoJoin]
  split <;> exact ⟨rfl, rfl⟩

/-- Host operations short of a reset leave `stalled` and the pending slot alone. -/
theorem fields_apply {s : Sm} {op : SmOp} (hop : op ≠ .restart) :
    (op.apply s).stalled = s.stalled ∧ (op.apply s).slot = s.slot := by
  cases op with
  | restart => exact absurd rfl hop
  | setConfig c => exact fields_setConfig s c
  | put word =>
    obtain ⟨f, t, h⟩ := s.put_eq word
    rw [SmOp.apply, h]
    exact ⟨rfl, rfl⟩
  | get =>
    obtain ⟨f, r, h⟩ := s.get_eq
    rw [SmOp.apply, h]
    exact ⟨rfl, rfl⟩
  | _ => exact ⟨rfl, rfl⟩

/-- So do all calls that neither run nor reset the state machine. -/
theorem fields_step {w : World} {b : BlockAddr} {i : Fin 4} {c : Call} (hr : resets b i c = false)
    (ht : ∀ b', c ≠ .tickSms b') (hx : presentation b i w c = none) :
    ((w.step c).sm b i).stalled = (w.sm b i).stalled ∧
      ((w.step c).sm b i).slot = (w.sm b i).slot := by
  by_cases hd : c.Drives b i
  · cases c with
    | tickSms b' => exact absurd rfl (ht b')
    | smExec b' k insn => simp [presentation, show (b', smIdx k) = (b, i) from hd] at hx
    | init b' => simp [resets, show b' = b from hd] at hr
    | smInit b' k pc cfg => simp [resets, show (b', smIdx k) = (b, i) from hd] at hr
    | sm b' k op =>
      have hop : op ≠ .restart := by
        rintro rfl
        simp [resets, show (b', smIdx k) = (b, i) from hd] at hr
      obtain ⟨rfl, rfl⟩ := Prod.mk.inj hd
      rw [step, sm_modifySm_self]
      exact fields_apply hop
    | loadProgram b' k offset prog =>
      obtain ⟨rfl, rfl⟩ := Prod.mk.inj hd
      rcases w.loadProgram_cases b' (smIdx k) offset prog with h | ⟨words, -, h⟩
      · rw [step, h]
        exact ⟨rfl, rfl⟩
      · rw [step, h, sm_modifySm_self, sm_load]
        exact ⟨rfl, rfl⟩
    | _ => exact absurd hd id
  · exact Prod.mk.inj (keeps_step (g := fun s => (s.stalled, s.slot))
      ⟨fun _ _ => rfl, fun _ _ => rfl, fun _ _ => rfl⟩ hd)

theorem stalled_of_resets {w : World} {b : BlockAddr} {i : Fin 4} {c : Call}
    (h : resets b i c = true) : ((w.step c).sm b i).stalled = false := by
  cases c with
  | init b' =>
    rw [show b' = b by simpa [resets] using h, step_init]
    rfl
  | smInit b' k pc cfg =>
    obtain ⟨rfl, rfl⟩ : b' = b ∧ smIdx k = i := by simpa [resets] using h
    rw [step, smInit, sm_modifySm_self]
    rfl
  | sm b' k op =>
    cases op with
    | restart =>
      obtain ⟨rfl, rfl⟩ : b' = b ∧ smIdx k = i := by simpa [resets] using h
      rw [step, sm_modifySm_self]
      rfl
    | _ => cases h
  | _ => cases h

theorem Tracks.other {b : BlockAddr} {i : Fin 4} {m : Monitor} {w : World} (h : Tracks b i m w)
    {c : Call} (ht : ∀ b', c ≠ .tickSms b') (hx : presentation b i w c = none)
    (hc : resets b i c = true ∨ (((w.step c).shell b).2.2 = (w.shell b).2.2 ∧
      ((w.sm b i).stalled = true → (w.sm b i).execPending = false →
        (w.step c).place b i ≠ w.place b i →
          w.waitTarget b i ((w.step c).place b i).2 = none))) :
    Tracks b i (m.next b i w c) (w.step c) := by
  rw [Monitor.next, hx]
  simp only
  cases hr : resets b i c with
  | true => exact .fresh (stalled_of_resets hr)
  | false =>
    obtain ⟨hlink, hplace⟩ := hc.resolve_left (by rw [hr]; exact Bool.false_ne_true)
    obtain ⟨hstall, hslot⟩ := fields_step hr ht hx
    exact h.idle hstall hslot hlink hplace

/-- The monitor follows the code through any call under which `stalled` can be trusted. -/
theorem Tracks.step {b : BlockAddr} {i : Fin 4} {m : Monitor} {w : World} (h : Tracks b i m w)
    {c : Call} (hc : Undisturbed b i w c) : Tracks b i (m.next b i w c) (w.step c) := by
  cases c with
  | tickSms b' => exact h.tickSms
  | smExec b' k insn =>
    by_cases he : (b', smIdx k) = (b, i)
    · have hforced := h.smExec (hc he)
      obtain ⟨rfl, rfl⟩ := Prod.mk.inj he
      simp only [Monitor.next, presentation, if_true]
      exact hforced
    · have hlocal := smExec_local w b' (smIdx k) insn
      have hsm : (w.smExec b' (smIdx k) insn).sm b i = w.sm b i := hlocal.sm b i fun h => he h.symm
      refine h.other (by rintro _ ⟨⟩) (if_neg he) (.inr ⟨?_, fun _ _ hne => ?_⟩)
      · rw [World.step, hlocal.shell]
      · exact absurd (place_congr hlocal.shell (by rw [hsm])) hne
  | _ => exact h.other (by rintro _ ⟨⟩) rfl hc

/-- A run together with its monitor. -/
def monitored (b : BlockAddr) (i : Fin 4) (s : World × Monitor) (c : Call) : World × Monitor :=
  (s.1.step c, s.2.next b i s.1 c)

/-- Every presentation the call makes of a linked `irq n wait` does what it is to do: the first of
an execution raises the flag and does not commit, a later one raises nothing and commits exactly
when it finds the flag clear. -/
def WaitsRight (b : BlockAddr) (i : Fin 4) (s : World × Monitor) (c : Call) : Prop :=
  ∀ p, presentation b i s.1 c = some p → ∀ blk irq,
    p.world.waitTarget b i p.word = some (blk, irq) →
      RaisesOnce (s.2.first b i s.1 c) p blk irq

theorem waitsRight_run {b : BlockAddr} {i : Fin 4} {m : Monitor} {w : World} (h : Tracks b i m w)
    {cs : List Call} (hc : Run.Along World.step (Undisturbed b i) w cs) :
    Run.Along (monitored b i) (WaitsRight b i) (w, m) cs := by
  induction cs generalizing w m with
  | nil => trivial
  | cons c cs ih =>
    exact ⟨fun p hp blk irq ht => h.raisesOnce hp ht, ih (h.step hc.1) hc.2⟩

/-- In every run from a state in which the state machine is not stalled, whose calls all leave its
`stalled` bit to be trusted, each execution of a linked `irq n wait` raises its flag once, on its
first presentation, and commits on a later one that finds the flag clear. -/
theorem irq_wait_raises_once (w : World) (b : BlockAddr) (i : Fin 4)
    (hs : (w.sm b i).stalled = false) (cs : List Call)
    (hc : Run.Along World.step (Undisturbed b i) w cs) :
    Run.Along (monitored b i) (WaitsRight b i) (w, .fresh) cs :=
  waitsRight_run (.fresh hs) hc

omit [Platform] in
/-- `irq 0 wait` presented, parked, acknowledged by the host and committed. -/
theorem irq_wait_raises_once_acknowledged :
    letI : Platform := ⟨.rp2350⟩
    Run.Along (monitored 0 0) (WaitsRight 0 0)
      (initial.run [.block 0 (.load 0 [0xC020]), .setEnabled 0 0 true], .fresh)
      [.tickSms 0, .tickSms 0, .block 0 (.irqClear 0), .tickSms 0] := by
  let P : Platform := ⟨.rp2350⟩
  have hclear : Undisturbed 0 0 (initial.run [.block 0 (.load 0 [0xC020]), .setEnabled 0 0 true,
      .tickSms 0, .tickSms 0]) (.block 0 (.irqClear 0)) := by
    simp only [Undisturbed]
    decide +kernel
  exact irq_wait_raises_once _ 0 0 (by decide +kernel) _
    ⟨trivial, trivial, hclear, trivial, trivial⟩

/-- The calls that drive, acknowledge or redirect the state machines. -/
def mixes : Call → Bool
  | .tickSms _ | .tickEnd _ | .smExec .. | .loadProgram .. => true
  | .sm _ _ (.setPc _) => true
  | .block _ (.irqClear _) | .block _ (.irqForce ..) => true
  | _ => false

omit [Platform] in
/-- A state machine stalled on `pull block` is sent to an `irq 0 wait` by `pio_sim_sm_set_pc`: the
first presentation finds `stalled` set, raises nothing and commits. -/
theorem irq_wait_skipped_after_set_pc :
    letI : Platform := ⟨.rp2350⟩
    ¬ ∀ (w : World) (b : BlockAddr) (i : Fin 4) (cs : List Call), w.Reachable →
      (w.sm b i).stalled = false → (∀ c ∈ cs, mixes c = true) →
        Run.Along (monitored b i) (WaitsRight b i) (w, .fresh) cs := by
  let P : Platform := ⟨.rp2350⟩
  intro hall
  let w := initial.run [.block 0 (.load 0 [0x80A0, 0xC020]), .setEnabled 0 0 true]
  have hrun := hall w 0 0 [.tickSms 0, .tickEnd 0, .sm 0 0 (.setPc 1), .tickSms 0] ⟨_, rfl⟩
    (by decide +kernel) (by decide)
  obtain ⟨-, -, -, hlast, -⟩ := hrun
  let s := [Call.tickSms 0, .tickEnd 0, .sm 0 0 (.setPc 1)].foldl (monitored 0 0) (w, .fresh)
  have hfirst : s.2.first 0 0 s.1 (.tickSms 0) = true := by decide +kernel
  have htarget : (presentation 0 0 s.1 (.tickSms 0)).map
      (fun p => (p.world.waitTarget 0 0 p.word, p.result.committed)) =
          some (some (0, 0), true) := by
    decide +kernel
  obtain ⟨p, hp, he⟩ := Option.map_eq_some_iff.mp htarget
  obtain ⟨ht, hcommit⟩ := Prod.mk.inj he
  have hstays := ((hlast p hp 0 0 ht).1 hfirst).1
  rw [hcommit] at hstays
  cases hstays

end World
end PioSim
