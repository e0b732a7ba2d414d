import PioSim.Congruence
import PioSim.IrqLedger

/-!
# Stalls

Every handler decides to stall before it changes anything, so a stalled presentation leaves a sticky
FDEBUG bit, the side-set pins, and for the first presentation of an `irq wait` its flag. A state
machine that waits this way for any number of cycles is then where it would be had it come to the
instruction only on the cycle that commits it.
-/

namespace PioSim

variable [Platform]

namespace World

variable {w : World} {b : BlockAddr} {i : Fin 4}

/-! ### One stalled presentation -/

/-- What an instruction that stalls may have done before its side-set. -/
inductive StallEffect (w : World) (b : BlockAddr) (i : Fin 4) (insn : Insn) : World → Prop
  | quiet : StallEffect w b i insn w
  | fdebug (bit : BitVec 8) : bit = fdebugTxstall ∨ bit = fdebugRxstall →
    StallEffect w b i insn (w.modifySm b i fun s => { s with fdebug := s.fdebug ||| bit })
  | irq (blk : BlockAddr) (irq : ℕ) : (w.sm b i).stalled = false →
    w.waitTarget b i insn = some (blk, irq) → StallEffect w b i insn (w.irqRaise blk irq)

theorem execWait_stalls {operand : ℕ} (h : (w.execWait b i operand).stalled = true) :
    (w.execWait b i operand).world = w := by
  unfold execWait at h ⊢
  dsimp only at h ⊢
  split
  · rfl
  rename_i hsource
  rw [if_neg hsource] at h
  split
  · rfl
  rename_i hsource
  rw [if_neg hsource] at h
  split
  · rename_i hsource
    rw [if_pos hsource] at h
    split at h
    · rfl
    · split at h
      · cases h
      · rename_i hlevel
        rw [if_neg hlevel]
  · split <;> rfl

theorem execIn_stalls {s : Sm} {src : Word} {count : ℕ} (h : (s.execIn src count).2 = true) :
    (s.execIn src count).1 = { s with fdebug := s.fdebug ||| fdebugRxstall } := by
  unfold Sm.execIn at h ⊢
  dsimp only at h ⊢
  split
  · rfl
  · rename_i hrun
    rw [if_neg hrun] at h
    cases h

theorem execPushpull_stalls {s : Sm} {operand : ℕ} (h : (s.execPushpull operand).2 = true) :
    ∃ bit, (bit = fdebugTxstall ∨ bit = fdebugRxstall) ∧
      (s.execPushpull operand).1 = { s with fdebug := s.fdebug ||| bit } := by
  unfold Sm.execPushpull at h ⊢
  dsimp only at h ⊢
  split_ifs at h ⊢
  · exact ⟨_, Or.inr rfl, rfl⟩
  · exact ⟨_, Or.inl rfl, rfl⟩

theorem execMov_runs (w : World) (b : BlockAddr) (i : Fin 4) (operand : ℕ) :
    (w.execMov b i operand).stalled = false := by
  unfold execMov
  dsimp only
  split
  any_goals rfl
  · split <;> rfl

/-- Only an `irq wait` stalls, and it may have raised its flag. -/
theorem execIrq_stalls {insn : Insn} (hop : opcode insn = 6)
    (h : (w.execIrq b i (operandOf insn)).stalled = true) :
    StallEffect w b i insn (w.execIrq b i (operandOf insn)).world := by
  unfold execIrq at h ⊢
  dsimp only at h ⊢
  split at h
  · exact .quiet
  · rename_i blk hblk
    split at h
    · cases h
    · rename_i hclr
      rw [if_neg hclr]
      split at h
      · rename_i hwait
        rw [if_pos hwait]
        dsimp only
        split
        · exact .quiet
        · rename_i hfirst
          have hword : isIrqWait insn = true := by simp [isIrqWait, hop, hclr, hwait]
          refine .irq blk _ (by simpa using hfirst) ?_
          rw [waitTarget, if_pos hword, hblk]
          rfl
      · cases h

/-- No handler changes anything else before it stalls. -/
theorem execInsn_stalls {insn : Insn} (h : (w.execInsn b i insn).stalled = true) :
    StallEffect w b i insn (w.execInsn b i insn).world := by
  unfold execInsn at h ⊢
  dsimp only at h ⊢
  split at h
  · cases h
  · rw [execWait_stalls h]
    exact .quiet
  · rw [execIn_stalls h]
    exact .fdebug _ (Or.inr rfl)
  · unfold execOut at h ⊢
    dsimp only at h ⊢
    split at h
    · rename_i hstall
      rw [if_pos hstall]
      exact .fdebug _ (Or.inl rfl)
    · cases h
  · split at h
    · cases h
    · rename_i hop hmov
      obtain ⟨bit, hbit, he⟩ := execPushpull_stalls h
      rw [if_neg hmov, he]
      exact .fdebug bit hbit
  · rw [execMov_runs] at h
    cases h
  · rename_i hop
    exact execIrq_stalls hop h
  · cases h

theorem StallEffect.sm {insn : Insn} {v : World} (h : StallEffect w b i insn v) :
    ∃ bits, v.sm b i = { w.sm b i with fdebug := (w.sm b i).fdebug ||| bits } := by
  cases h with
  | quiet => exact ⟨0, by simp⟩
  | fdebug bit hbit => exact ⟨bit, sm_modifySm_self ..⟩
  | irq blk irq hfirst ht => exact ⟨0, by simp [irqRaise, sm_setIrq]⟩

/-- A stalled presentation: the effect of the stall, then the side-set. -/
theorem execOne_stalls {insn : Insn} (h : (w.execOne b i insn).committed = false) :
    ∃ v, StallEffect w b i insn v ∧ (w.execOne b i insn).world =
      v.applySideset b i ((w.sm b i).decodeDelaySideset (delayField insn)) :=
  ⟨_, execInsn_stalls (by simpa [execOne] using h), rfl⟩

/-- It leaves the record as it was, but for the FDEBUG bits and the pin registers. -/
theorem sm_execOne_stalls {insn : Insn} (h : (w.execOne b i insn).committed = false) :
    ∃ bits r, (w.execOne b i insn).world.sm b i =
      { w.sm b i with fdebug := (w.sm b i).fdebug ||| bits, pins := r } := by
  obtain ⟨v, hv, he⟩ := execOne_stalls h
  obtain ⟨bits, hbits⟩ := hv.sm
  obtain ⟨r, hr⟩ := sm_applySideset v b i ((w.sm b i).decodeDelaySideset (delayField insn))
  exact ⟨bits, r, by rw [he, hr, hbits]⟩

end World

/-! ### What waiting leaves alone -/

def SameWord (e e' : Garb) : Prop := e'.execInsn = e.execInsn

omit [Platform] in
theorem coupled_sameWord : Coupled SameWord := ⟨fun _ h => h, fun _ _ => rfl, fun _ h => h⟩

namespace Sm

/-- The record without the fields that a stalled presentation writes and that no instruction but
`irq wait` computes with. -/
def bare (s : Sm) : Sm := s.dress ⟨false, PinRegs.none, 0, false, s.execInsn, 0⟩

section
omit [Platform]

theorem alike_iff {s s' : Sm} : Alike SameWord s s' ↔ s'.bare = s.bare := by
  constructor
  · rintro ⟨e, rfl, he⟩
    show s.dress _ = s.dress _
    rw [show (s.dress e).execInsn = s.execInsn from he]
  · intro h
    have hword : s'.bare.execInsn = s.bare.execInsn := congrArg Sm.execInsn h
    refine ⟨s'.garb, ?_, hword⟩
    have hdress := congrArg (·.dress s'.garb) h
    exact hdress

theorem Alike.of_bare {s s' : Sm} (h : s'.bare = s.bare) : Alike SameWord s s' := alike_iff.mpr h

theorem bare_backgroundAutopull {s s' : Sm} (h : s'.bare = s.bare) :
    s'.backgroundAutopull.bare = s.backgroundAutopull.bare :=
  alike_iff.mp (Alike.of_bare h).backgroundAutopull

theorem bare_retire {s s' : Sm} (h : s'.bare = s.bare) (fromExec : Bool) (setPc : Option ℕ)
    (delay : ℕ) : (s'.retire fromExec setPc delay).bare = (s.retire fromExec setPc delay).bare :=
  alike_iff.mp ((Alike.of_bare h).retire (fun h => h) fromExec setPc delay)

end

theorem bare_setConfig (s : Sm) (c : SmConfig) :
    (s.bare.setConfig c).bare = (s.setConfig c).bare := by
  unfold setConfig applyFifoJoin
  exact rel_ite (R := fun t t' : Sm => t.bare = t'.bare) Iff.rfl rfl rfl

/-- A host operation reads nothing else either. -/
theorem bare_apply (s : Sm) (op : SmOp) : (op.apply s.bare).bare = (op.apply s).bare := by
  cases op with
  | setConfig c => exact bare_setConfig s c
  | put word =>
    show (s.bare.put word).1.bare = (s.put word).1.bare
    unfold put
    rw [show s.bare.tx = s.tx from rfl]
    cases s.tx.push word <;> rfl
  | get =>
    show s.bare.get.1.bare = s.get.1.bare
    unfold get
    rw [show s.bare.rx = s.rx from rfl]
    cases s.rx.pop <;> rfl
  | _ => rfl

theorem bare_init (s : Sm) (pc : ℕ) (c : SmConfig) :
    (s.bare.init pc c).bare = (s.init pc c).bare := by
  obtain ⟨e, he, -⟩ := alike_iff.mpr (bare_setConfig s c)
  unfold init
  rw [he]
  rfl

end Sm

namespace World

variable {w v v' : World} {b : BlockAddr} {i : Fin 4}

omit [Platform] in
theorem steady_bare : Steady Sm.bare := ⟨fun _ _ => rfl, fun _ _ => rfl, fun _ _ => rfl⟩

/-- Worlds in which the records of state machine `(b, i)` wait alike. -/
def WaitsAlike (b : BlockAddr) (i : Fin 4) (v v' : World) : Prop :=
  (v'.sm b i).bare = (v.sm b i).bare

theorem parallel_waitsAlike (b : BlockAddr) (i : Fin 4) :
    Parallel SameWord b i (WaitsAlike b i) where
  sm h := Sm.alike_iff.mpr h
  record h hs := by
    rw [WaitsAlike, sm_setSm_self, sm_setSm_self]
    exact Sm.alike_iff.mp hs
  irq c x h := by
    rw [WaitsAlike, sm_setIrq, sm_setIrq]
    exact h
  pins h hs := by
    rw [WaitsAlike, sm_setPins_self, sm_setPins_self]
    exact Sm.alike_iff.mp hs

/-- Another record of the state machine changes nothing of what it sees. -/
theorem sameView_setSm (w : World) (b c : BlockAddr) (i : Fin 4) (s : Sm) :
    SameView c w (w.setSm b i s) where
  input := by
    funext pin
    rw [inputLevel, pads, padsAt_setSm, padRef_setSm]
    rfl
  irqs := irqs_setSm b i s
  shell := shell_setSm b i s

/-- Two presentations of a word that is no `irq wait`, or of any word by records both marked or both
not marked as stalled, do the same to the records. -/
theorem execOne_waitsAlike (insn : Insn) {s : Sm} (hs : s.bare = (w.sm b i).bare)
    (hst : isIrqWait insn = true → s.stalled = (w.sm b i).stalled) :
    ExecutedAlike (WaitsAlike b i) (w.execOne b i insn) ((w.setSm b i s).execOne b i insn) := by
  refine (parallel_waitsAlike b i).execOne coupled_sameWord ?_ (sameView_setSm w b b i s) ?_
  · rw [WaitsAlike, sm_setSm_self]
    exact hs
  · intro hop hclr hwait
    rw [sm_setSm_self]
    exact hst (by simp [isIrqWait, hop, hclr, hwait])

theorem bare_smExec {s : Sm} (hs : s.bare = (w.sm b i).bare) (insn : Insn) :
    (((w.setSm b i s).smExec b i insn).sm b i).bare = ((w.smExec b i insn).sm b i).bare := by
  have hclear : (w.setSm b i s).modifySm b i (fun s => { s with stalled := false }) =
      (w.modifySm b i fun s => { s with stalled := false }).setSm b i
          { s with stalled := false } := by
    unfold modifySm
    rw [sm_setSm_self, setSm_setSm, setSm_setSm]
  have hone := execOne_waitsAlike
    (w := w.modifySm b i fun s => { s with stalled := false }) (b := b)
    (i := i) insn (s := { s with stalled := false }) (by rw [sm_modifySm_self]; exact hs)
    (fun _ => by rw [sm_modifySm_self])
  obtain ⟨e, he, hword⟩ := Sm.alike_iff.mpr hone.world
  unfold smExec
  rw [hclear]
  dsimp only
  rw [hone.committed, hone.setPc]
  split
  · rw [sm_modifySm_self, sm_modifySm_self, he]
    exact Sm.alike_iff.mp ⟨e, rfl, hword⟩
  · rw [sm_modifySm_self, sm_modifySm_self, he]
    rfl

/-- Outside the block's ticks a call does the same to both records. -/
theorem bare_step {c : Call} (hc : c ≠ .tickSms b) {s : Sm} (hs : s.bare = (w.sm b i).bare) :
    (((w.setSm b i s).step c).sm b i).bare = ((w.step c).sm b i).bare := by
  by_cases hd : c.Drives b i
  swap
  · rw [keeps_step steady_bare hd, keeps_step steady_bare hd, sm_setSm_self, hs]
  cases c with
  | tickSms c =>
    obtain rfl : c = b := hd
    exact absurd rfl hc
  | init c =>
    obtain rfl : c = b := hd
    rw [step_init, step_init]
  | sm c k op =>
    obtain ⟨rfl, rfl⟩ := Prod.mk.inj hd
    rw [step, step, sm_modifySm_self, sm_modifySm_self, sm_setSm_self, ← Sm.bare_apply, hs,
      Sm.bare_apply]
  | smInit c k pc cfg =>
    obtain ⟨rfl, rfl⟩ := Prod.mk.inj hd
    rw [step, step, smInit, smInit, sm_modifySm_self, sm_modifySm_self, sm_setSm_self,
      ← Sm.bare_init, hs, Sm.bare_init]
  | smExec c k insn =>
    obtain ⟨rfl, rfl⟩ := Prod.mk.inj hd
    exact bare_smExec hs insn
  | loadProgram c k offset prog =>
    obtain ⟨rfl, rfl⟩ := Prod.mk.inj hd
    rcases loadProgram_uniform c (smIdx k) offset prog with h | ⟨words, -, h⟩
    · rw [step, step, h, h, sm_setSm_self, hs]
    · rw [step, step, h, h, sm_modifySm_self, sm_modifySm_self, sm_load, sm_load, sm_setSm_self]
      exact congrArg (fun t : Sm => t.startProgram offset prog) hs
  | _ => exact absurd hd (by simp only [Call.Drives, not_false_iff])

/-! ### Waiting -/

/-- What a tick does to the record apart from presenting an instruction: a delay cycle is counted
down and, in a cycle, the OSR is topped up. -/
def idled (w : World) (b : BlockAddr) (i : Fin 4) (s : Sm) : Sm :=
  if w.due b i then
    if (w.sm b i).delay = 0 then s.backgroundAutopull
    else { s.backgroundAutopull with delay := s.backgroundAutopull.delay - 1 }
  else s

/-- A run together with a shadow of the record of state machine `(b, i)` that presents nothing in
the ticks of its block and goes through everything else. -/
def shadowed (b : BlockAddr) (i : Fin 4) (s : World × Sm) (c : Call) : World × Sm :=
  (s.1.step c,
    match c with
    | .tickSms c => if c = b then s.1.idled b i s.2 else s.2
    | c => ((s.1.setSm b i s.2).step c).sm b i)

/-- Where a tick presents an instruction of state machine `(b, i)`, it stalls. -/
def OnlyStalls (b : BlockAddr) (i : Fin 4) (s : World × Sm) (c : Call) : Prop :=
  c = .tickSms b → ∀ p, presentation b i s.1 c = some p → p.result.committed = false

theorem bare_tickSms {s : World × Sm} (hs : s.2.bare = (s.1.sm b i).bare)
    (hc : OnlyStalls b i s (.tickSms b)) :
    (s.1.idled b i s.2).bare = ((s.1.tickSms b).sm b i).bare := by
  have hcycle : s.2.bare = ((s.1.cycleWorld b i).sm b i).bare := by
    rw [sm_cycleWorld]
    exact hs
  have hpull := Sm.bare_backgroundAutopull hcycle
  unfold idled
  cases hdue : s.1.due b i with
  | false =>
    obtain ⟨n, hn⟩ := sm_tickSms_of_not_due hdue
    rw [hn]
    exact hs
  | true =>
    rw [if_pos rfl]
    by_cases hd : (s.1.sm b i).delay = 0
    · have hp : presentation b i s.1 (.tickSms b) =
        some ⟨s.1.getInstruction b i, s.1.presentWorld b i,
          (s.1.presentWorld b i).execOne b i (s.1.getInstruction b i)⟩ := if_pos ⟨rfl, hdue, hd⟩
      have hstall := hc rfl _ hp
      obtain ⟨bits, r, hsm⟩ := sm_execOne_stalls hstall
      obtain ⟨r', hr'⟩ := stickyReassert_eq
        { ((s.1.presentWorld b i).execOne b i (s.1.getInstruction b i)).world.sm b i with
          stalled := true }
      rw [if_pos hd, sm_tickSms_of_stall hdue hd rfl hstall, hr', hsm, sm_presentWorld]
      exact hpull
    · have hdelay : s.2.backgroundAutopull.delay = (s.1.sm b i).delay :=
        s.2.backgroundAutopull_fields.2.2.2.1.trans
          (congrArg Sm.delay hs : s.2.bare.delay = (s.1.sm b i).bare.delay)
      obtain ⟨r', hr'⟩ := stickyReassert_eq
        { Sm.backgroundAutopull ((s.1.cycleWorld b i).sm b i) with delay := (s.1.sm b i).delay - 1 }
      rw [if_neg hd, sm_tickSms_of_delay hdue (Nat.pos_of_ne_zero hd), hr', hdelay]
      exact congrArg (fun t : Sm => { t with delay := (s.1.sm b i).delay - 1 }) hpull

/-- The shadow stays with the record, but for what stalled presentations write. -/
theorem bare_shadowed {s : World × Sm} (hs : s.2.bare = (s.1.sm b i).bare) {c : Call}
    (hc : OnlyStalls b i s c) :
    (shadowed b i s c).2.bare = ((shadowed b i s c).1.sm b i).bare := by
  by_cases htick : c = .tickSms b
  · subst htick
    rw [shadowed, if_pos rfl]
    exact bare_tickSms hs hc
  · cases c with
    | tickSms c =>
      have hne : b ≠ c := fun h => htick (by rw [h])
      rw [shadowed, if_neg hne.symm, step, sm_tickSms_of_ne _ hne]
      exact hs
    | _ => exact bare_step htick hs

/-- The presentation as it would be the first one of state machine `(b, i)` with record `s`, on the
same cycle. -/
def presentedFirst (b : BlockAddr) (i : Fin 4) (p : Presentation) (s : Sm) : Executed :=
  (p.world.setSm b i { s.backgroundAutopull with stalled := false }).execOne b i p.word

/-- A tick that commits leaves the record as a first presentation on that cycle would. -/
theorem bare_of_commit {s : Sm} {p : Presentation} (hs : s.bare = (w.sm b i).bare)
    (hp : presentation b i w (.tickSms b) = some p) (hword : isIrqWait p.word = false)
    (hc : p.result.committed = true) :
    (presentedFirst b i p s).committed = true ∧ ((w.tickSms b).sm b i).bare =
      (((presentedFirst b i p s).world.sm b i).retire s.execPending (presentedFirst b i p s).setPc
        (presentedFirst b i p s).delay).bare := by
  obtain ⟨-, hdue, hd, rfl⟩ := presentation_tickSms hp
  have hcycle : s.bare = ((w.cycleWorld b i).sm b i).bare := by
    rw [sm_cycleWorld]
    exact hs
  have hstart : (Sm.bare { s.backgroundAutopull with stalled := false }) =
      ((w.presentWorld b i).sm b i).bare := by
    rw [sm_presentWorld]
    exact Sm.bare_backgroundAutopull hcycle
  have hone := execOne_waitsAlike (w := w.presentWorld b i) (w.getInstruction b i) hstart
    fun h => by rw [hword] at h; cases h
  have hpend : s.execPending = (w.sm b i).execPending :=
    (congrArg Sm.execPending hs : s.bare.execPending = (w.sm b i).bare.execPending)
  obtain ⟨r', hr'⟩ := stickyReassert_eq
    ((((w.presentWorld b i).execOne b i (w.getInstruction b i)).world.sm b i).retire
      (w.sm b i).execPending ((w.presentWorld b i).execOne b i (w.getInstruction b i)).setPc
      ((w.presentWorld b i).execOne b i (w.getInstruction b i)).delay)
  refine ⟨hone.committed.trans hc, ?_⟩
  rw [sm_tickSms_of_commit hdue hd rfl hc, hr', presentedFirst, hone.setPc, hone.delay, hpend]
  exact (Sm.bare_retire hone.world _ _ _).symm

/-- An instruction that stalls changes nothing but sticky FDEBUG bits, the side-set pins and, an
`irq wait` presented for the first time, its flag: the rest of its state machine's record is as it
was. So after a wait of any length, whatever happens meanwhile, an instruction other than `irq wait`
does to its record on the cycle that commits it what it would have done there if that had been its
first presentation. -/
theorem stalls_are_atomic (w : World) (b : BlockAddr) (i : Fin 4) :
    (∀ insn, (w.execOne b i insn).committed = false →
      (∃ v, StallEffect w b i insn v ∧ (w.execOne b i insn).world =
        v.applySideset b i ((w.sm b i).decodeDelaySideset (delayField insn))) ∧
      ∃ bits r, (w.execOne b i insn).world.sm b i =
        { w.sm b i with fdebug := (w.sm b i).fdebug ||| bits, pins := r }) ∧
    ∀ cs, Run.Along (shadowed b i) (OnlyStalls b i) (w, w.sm b i) cs →
      ∀ v s, cs.foldl (shadowed b i) (w, w.sm b i) = (v, s) →
        ∀ p, presentation b i v (.tickSms b) = some p → isIrqWait p.word = false →
          p.result.committed = true →
            (presentedFirst b i p s).committed = true ∧ ((v.tickSms b).sm b i).bare =
              (((presentedFirst b i p s).world.sm b i).retire s.execPending
                (presentedFirst b i p s).setPc (presentedFirst b i p s).delay).bare := by
  refine ⟨fun insn h => ⟨execOne_stalls h, sm_execOne_stalls h⟩,
    fun cs hcs v s hrun p hp hword hc => ?_⟩
  have hs := Run.invariant (I := fun s : World × Sm => s.2.bare = (s.1.sm b i).bare)
    (fun s c hs hc => bare_shadowed hs hc) rfl hcs
  rw [hrun] at hs
  exact bare_of_commit hs hp hword hc

omit [Platform] in
/-- A `pull block` on an empty TX FIFO, served by the host after a stalled tick. -/
theorem stalls_are_atomic_pull :
    letI : Platform := ⟨.rp2350⟩
    let w := initial.run [.block 0 (.load 0 [0x80A0]), .setEnabled 0 0 true]
    let cs : List Call := [.tickSms 0, .tickEnd 0, .sm 0 0 (.put 7)]
    ∃ p, presentation 0 0 (w.run cs) (.tickSms 0) = some p ∧
      (presentedFirst 0 0 p (cs.foldl (shadowed 0 0) (w, w.sm 0 0)).2).committed = true := by
  let P : Platform := ⟨.rp2350⟩
  intro w cs
  have hstalls : Run.Along (shadowed 0 0) (OnlyStalls 0 0) (w, w.sm 0 0) cs := by
    refine ⟨fun _ p hp => ?_, fun h => ?_, fun h => ?_, trivial⟩
    · obtain ⟨-, -, -, rfl⟩ := presentation_tickSms hp
      decide +kernel
    · cases h
    · cases h
  have hdue : (cs.foldl (shadowed 0 0) (w, w.sm 0 0)).1.due 0 0 = true ∧
      ((cs.foldl (shadowed 0 0) (w, w.sm 0 0)).1.sm 0 0).delay = 0 := by decide +kernel
  refine ⟨_, if_pos ⟨rfl, hdue⟩, ?_⟩
  exact ((stalls_are_atomic w 0 0).2 cs hstalls _ _ rfl _ (if_pos ⟨rfl, hdue⟩)
    (by decide +kernel) (by decide +kernel)).1

end World

end PioSim
