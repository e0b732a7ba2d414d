import PioSim.Calls

/-!
# What the FDEBUG flags say

An instruction raises at most one flag, and the handlers raise it in the state the flag speaks
about: TXSTALL with TX empty, RXSTALL with nowhere to push. The one handler that does not look is
`exec_out`, which trusts that the background autopull of the same cycle found TX empty; a forced OUT
has no such cycle before it.
-/

namespace PioSim

variable [Platform]

/-! ### One instruction -/

namespace Sm

def Raises (flag : BitVec 8) (s s' : Sm) : Prop := s.fdebug &&& flag = 0 ∧ s'.fdebug &&& flag ≠ 0

/-- An OUT that would report a stall on an empty TX while TX holds a word, the flag not being up
already. -/
def Blind (s : Sm) (insn : Insn) : Prop :=
  opcode insn = 3 ∧ s.outStalls = true ∧ s.tx.isEmpty = false ∧ s.fdebug &&& fdebugTxstall = 0

/-- The flags an instruction may leave from `s` to `s'`. -/
inductive Flags (s s' : Sm) : Prop
  | quiet : s'.fdebug = s.fdebug → Flags s s'
  | again : s'.fdebug = s.fdebug ||| fdebugTxstall → s.fdebug &&& fdebugTxstall ≠ 0 → Flags s s'
  | txstall : s'.fdebug = s.fdebug ||| fdebugTxstall → s'.tx.isEmpty = true → Flags s s'
  | rxstall : s'.fdebug = s.fdebug ||| fdebugRxstall → s'.pushBlocked = true → Flags s s'

/-- The part of a record the flags are about. -/
def alarms (s : Sm) : BitVec 8 × Fifo × Fifo × FifoJoin := (s.fdebug, s.tx, s.rx, s.fifoJoin)

theorem Flags.congr {s s' t t' : Sm} (h : s.Flags s') (hs : t.fdebug = s.fdebug)
    (hs' : t'.alarms = s'.alarms) : t.Flags t' := by
  simp only [alarms, Prod.mk.injEq] at hs'
  obtain ⟨hflags, htx, hrx, hjoin⟩ := hs'
  cases h with
  | quiet h => exact .quiet (by rw [hflags, h, hs])
  | again h hup => exact .again (by rw [hflags, h, hs]) (by rwa [hs])
  | txstall h hempty => exact .txstall (by rw [hflags, h, hs]) (by rwa [htx])
  | rxstall h hblocked =>
    have hsame : t'.pushBlocked = s'.pushBlocked := by
      simp only [pushBlocked, rxFifoIsRegisterFile, hrx, hjoin]
    exact .rxstall (by rw [hflags, h, hs]) (by rwa [hsame])

omit [Platform] in
theorem fdebug_refill (s : Sm) : (s.osrRefill.getD s).fdebug = s.fdebug := by
  cases h : s.osrRefill with
  | none => rfl
  | some s' =>
    obtain ⟨v, tx, -, rfl⟩ := osrRefill_eq_some h
    rfl

omit [Platform] in
theorem fdebug_drain (s : Sm) : (s.isrDrain.getD s).fdebug = s.fdebug := by
  cases h : s.isrDrain with
  | none => rfl
  | some s' =>
    obtain ⟨rx, -, rfl⟩ := isrDrain_eq_some h
    rfl

theorem execIn_flags (s : Sm) (src : Word) (count : ℕ) : s.Flags (s.execIn src count).1 := by
  unfold execIn
  dsimp only
  split
  · rename_i hblocked
    simp only [Bool.and_eq_true] at hblocked
    exact .rxstall rfl hblocked.2
  · refine .quiet ?_
    dsimp only
    split
    · exact fdebug_drain _
    · rfl

theorem execPushpull_flags (s : Sm) (operand : ℕ) : s.Flags (s.execPushpull operand).1 := by
  unfold execPushpull
  dsimp only
  split_ifs with hpull hcond hblocked hblock hcond hfull hempty hblock
  · exact .quiet rfl
  · exact .rxstall rfl hblocked
  · exact .rxstall rfl hblocked
  · exact .quiet (fdebug_drain s)
  · exact .quiet rfl
  · exact .quiet rfl
  · exact .txstall rfl hempty
  · exact .txstall rfl hempty
  · exact .quiet (fdebug_refill s)

section
omit [Platform]

theorem fdebug_execMovRxfifo (s : Sm) (operand : ℕ) :
    (s.execMovRxfifo operand).fdebug = s.fdebug := by
  unfold execMovRxfifo
  split_ifs <;> rfl

theorem fdebug_execJmp (s : Sm) (pin : Bool) (operand : ℕ) :
    (s.execJmp pin operand).1.fdebug = s.fdebug := by
  obtain ⟨x, y, taken, h⟩ := s.execJmp_eq pin operand
  rw [h]

theorem alarms_retire (s : Sm) (fromExec : Bool) (setPc : Option ℕ) (delay : ℕ) :
    (s.retire fromExec setPc delay).alarms = s.alarms := by
  unfold retire
  split <;> rfl

theorem fdebug_backgroundAutopull (s : Sm) : s.backgroundAutopull.fdebug = s.fdebug := by
  rcases s.backgroundAutopull_eq with h | ⟨v, tx, h⟩ <;> rw [h]

end

end Sm

namespace World

variable {w : World} {b : BlockAddr} {i : Fin 4}

theorem fdebug_outStore (w : World) (b : BlockAddr) (i : Fin 4) (dest : ℕ) (val : Word)
    (count : ℕ) :
    ((w.outStore b i dest val count).1.sm b i).fdebug = (w.sm b i).fdebug := by
  unfold outStore
  dsimp only
  split
  · split_ifs
    · rw [drivePins_eq, sm_setPins_self]
    · rw [releaseOutPins_eq, sm_setPins_self]
    · rfl
  · rw [sm_setSm_self]
  · rw [sm_setSm_self]
  · rw [drivePindirs_eq, sm_setPins_self]
  · rfl
  · rw [sm_setSm_self]
  · rw [sm_setSm_self]
  · rfl

theorem fdebug_execMov (w : World) (b : BlockAddr) (i : Fin 4) (operand : ℕ) :
    ((w.execMov b i operand).world.sm b i).fdebug = (w.sm b i).fdebug := by
  unfold execMov
  dsimp only
  split
  · rw [drivePins_eq, sm_setPins_self]
  · rw [sm_setSm_self]
  · rw [sm_setSm_self]
  · split_ifs
    · rw [drivePindirs_eq, sm_setPins_self]
    · rfl
  · rw [sm_setSm_self]
  · rfl
  · rw [sm_setSm_self]
  · rw [sm_setSm_self]

theorem fdebug_execSet (w : World) (b : BlockAddr) (i : Fin 4) (operand : ℕ) :
    ((w.execSet b i operand).sm b i).fdebug = (w.sm b i).fdebug := by
  unfold execSet
  dsimp only
  split
  · rw [drivePins_eq, sm_setPins_self]
  · rw [sm_setSm_self]
  · rw [sm_setSm_self]
  · rw [drivePindirs_eq, sm_setPins_self]
  · rfl

/-- An OUT raises TXSTALL when it finds the OSR exhausted, without a look at TX. -/
theorem execOut_flags {operand : ℕ}
    (h : (w.sm b i).outStalls = true → (w.sm b i).tx.isEmpty = false →
      (w.sm b i).fdebug &&& fdebugTxstall ≠ 0) :
    (w.sm b i).Flags ((w.execOut b i operand).world.sm b i) := by
  unfold execOut
  dsimp only
  split
  · rename_i hstall
    rw [sm_setSm_self]
    cases hempty : (w.sm b i).tx.isEmpty with
    | true => exact .txstall rfl hempty
    | false => exact .again rfl (h hstall hempty)
  · refine .quiet ?_
    rw [fdebug_outStore, sm_setSm_self]
    rfl

theorem execInsn_flags {insn : Insn} (h : ¬ (w.sm b i).Blind insn) :
    (w.sm b i).Flags ((w.execInsn b i insn).world.sm b i) := by
  unfold execInsn
  dsimp only
  split
  · rw [sm_setSm_self]
    exact .quiet (Sm.fdebug_execJmp ..)
  · exact .quiet (by rw [sm_execWait])
  · rw [sm_setSm_self]
    exact Sm.execIn_flags ..
  · rename_i hop
    exact execOut_flags fun hstall htx hup => h ⟨hop, hstall, htx, hup⟩
  · split_ifs
    · rw [sm_setSm_self]
      exact .quiet (Sm.fdebug_execMovRxfifo ..)
    · rw [sm_setSm_self]
      exact Sm.execPushpull_flags ..
  · exact .quiet (fdebug_execMov ..)
  · exact .quiet (by rw [sm_execIrq])
  · exact .quiet (fdebug_execSet ..)

theorem execOne_flags {insn : Insn} (h : ¬ (w.sm b i).Blind insn) :
    (w.sm b i).Flags ((w.execOne b i insn).world.sm b i) := by
  obtain ⟨r, hr⟩ := sm_applySideset (w.execInsn b i insn).world b i
    ((w.sm b i).decodeDelaySideset (delayField insn))
  refine (execInsn_flags h).congr rfl ?_
  rw [execOne, hr]
  rfl

/-- What the blind OUT does: it only raises the flag. -/
theorem execOne_blind {insn : Insn} (h : (w.sm b i).Blind insn) :
    ((w.execOne b i insn).world.sm b i).alarms = ((w.sm b i).fdebug ||| fdebugTxstall,
      (w.sm b i).tx, (w.sm b i).rx, (w.sm b i).fifoJoin) := by
  obtain ⟨r, hr⟩ := sm_applySideset (w.execInsn b i insn).world b i
    ((w.sm b i).decodeDelaySideset (delayField insn))
  have hinsn : (w.execInsn b i insn).world =
      w.setSm b i { w.sm b i with fdebug := (w.sm b i).fdebug ||| fdebugTxstall } := by
    simp only [execInsn, h.1, execOut, h.2.1, if_true]
  rw [execOne, hr, hinsn, sm_setSm_self]
  rfl

/-! ### Calls -/

/-- The call presents an OUT that reports a stall on a TX that is not empty: forced, or after a
background autopull that leaves the OSR exhausted. -/
def BlindOut (b : BlockAddr) (i : Fin 4) (w : World) : Call → Prop
  | .smExec b' k insn => (b', smIdx k) = (b, i) ∧ (w.sm b i).Blind insn
  | .tickSms b' => b' = b ∧ w.due b i = true ∧ (w.sm b i).delay = 0 ∧
      (w.sm b i).backgroundAutopull.Blind (w.getInstruction b i)
  | _ => False

/-- What the flags of state machine `(b, i)` say over one call is true, and only
`pio_sim_sm_clear_fdebug` and `pio_sim_init` take one down. -/
structure Truthful (b : BlockAddr) (i : Fin 4) (w : World) (c : Call) : Prop where
  txstall : (w.sm b i).Raises fdebugTxstall ((w.step c).sm b i) →
    ((w.step c).sm b i).tx.isEmpty = true
  rxstall : (w.sm b i).Raises fdebugRxstall ((w.step c).sm b i) →
    ((w.step c).sm b i).rx.isFull = true ∨ ((w.step c).sm b i).rxFifoIsRegisterFile = true
  txover : (w.sm b i).Raises fdebugTxover ((w.step c).sm b i) →
    ∃ word, HostOp b i c (.put word) ∧ ((w.sm b i).put word).2 = false
  rxunder : (w.sm b i).Raises fdebugRxunder ((w.step c).sm b i) →
    HostOp b i c .get ∧ (w.sm b i).get.2 = none
  sticky : ∀ flag, (w.sm b i).fdebug &&& flag ≠ 0 → ((w.step c).sm b i).fdebug &&& flag = 0 →
    c = .init b ∨ ∃ mask, HostOp b i c (.clearFdebug mask)

instance (s : Sm) (insn : Insn) : Decidable (s.Blind insn) :=
  inferInstanceAs (Decidable (_ ∧ _ ∧ _ ∧ _))

instance (b : BlockAddr) (i : Fin 4) (w : World) : DecidablePred (BlindOut b i w)
  | .smExec _ _ _ => inferInstanceAs (Decidable (_ ∧ _))
  | .tickSms _ => inferInstanceAs (Decidable (_ ∧ _ ∧ _ ∧ _))
  | .sm .. | .block .. | .pad .. | .init _ | .setEnabled .. | .setSmMaskEnabled ..
  | .clkdivRestartSmMask .. | .enableSmMaskInSync .. | .setConsecutivePindirs .. | .smInit ..
  | .gpioSetFunction .. | .groupInit .. | .groupInitShared .. | .loadProgram .. | .tickEnd _
  | .groupOpen _ | .groupEnd _ => inferInstanceAs (Decidable False)

omit [Platform] in
theorem or_and_eq {f g m : BitVec 8} (h : g &&& m = 0) : (f ||| g) &&& m = f &&& m := by
  ext k hk
  have hbit : (g &&& m)[k] = false := by simp [h]
  simp only [BitVec.getElem_and, BitVec.getElem_or] at hbit ⊢
  cases hf : f[k] <;> cases hg : g[k] <;> simp_all

omit [Platform] in
theorem and_ne_zero_or {f g flag : BitVec 8} (h : f &&& flag ≠ 0) : (f ||| g) &&& flag ≠ 0 := by
  intro hzero
  apply h
  ext k hk
  have hbit : ((f ||| g) &&& flag)[k] = false := by simp [hzero]
  simp only [BitVec.getElem_and, BitVec.getElem_or] at hbit ⊢
  cases hf : f[k] <;> simp_all

/-- Over a call that leaves FDEBUG as an instruction does, the flags tell the truth. -/
theorem Truthful.of_flags {c : Call} (h : (w.sm b i).Flags ((w.step c).sm b i)) :
    Truthful b i w c := by
  have hkept : ∀ flag, (w.sm b i).fdebug &&& flag ≠ 0 →
      ((w.step c).sm b i).fdebug &&& flag ≠ 0 := by
    intro flag hup
    cases h with
    | quiet h => rwa [h]
    | again h _ => rw [h]; exact and_ne_zero_or hup
    | txstall h _ => rw [h]; exact and_ne_zero_or hup
    | rxstall h _ => rw [h]; exact and_ne_zero_or hup
  -- a flag that no instruction raises stays down
  have hdown : ∀ flag, fdebugTxstall &&& flag = 0 → fdebugRxstall &&& flag = 0 →
      ¬ (w.sm b i).Raises flag ((w.step c).sm b i) := by
    rintro flag htx hrx ⟨hwas, hup⟩
    cases h with
    | quiet h => exact hup (by rwa [h])
    | again h _ => exact hup (by rwa [h, or_and_eq htx])
    | txstall h _ => exact hup (by rwa [h, or_and_eq htx])
    | rxstall h _ => exact hup (by rwa [h, or_and_eq hrx])
  refine ⟨?_, ?_, fun hr => absurd hr (hdown _ rfl rfl), fun hr => absurd hr (hdown _ rfl rfl),
    fun flag hup hzero => absurd hzero (hkept flag hup)⟩
  · rintro ⟨hwas, hup⟩
    cases h with
    | quiet h => exact absurd hwas (by rwa [← h])
    | again _ hnot => exact absurd hwas hnot
    | txstall _ hempty => exact hempty
    | rxstall h _ => exact absurd hwas (by rwa [← or_and_eq (f := (w.sm b i).fdebug)
        (g := fdebugRxstall) (m := fdebugTxstall) rfl, ← h])
  · rintro ⟨hwas, hup⟩
    cases h with
    | quiet h => exact absurd hwas (by rwa [← h])
    | again h _ => exact absurd hwas (by rwa [← or_and_eq (f := (w.sm b i).fdebug)
        (g := fdebugTxstall) (m := fdebugRxstall) rfl, ← h])
    | txstall h _ => exact absurd hwas (by rwa [← or_and_eq (f := (w.sm b i).fdebug)
        (g := fdebugTxstall) (m := fdebugRxstall) rfl, ← h])
    | rxstall _ hblocked =>
      rw [Sm.pushBlocked, Bool.or_eq_true] at hblocked
      exact hblocked.symm

/-- The background autopull reads neither the pin registers nor the divider. -/
theorem blind_presentWorld (w : World) (b : BlockAddr) (i : Fin 4) (insn : Insn) :
    ((w.presentWorld b i).sm b i).Blind insn ↔ (w.sm b i).backgroundAutopull.Blind insn := by
  have hdress : ∀ (s : Sm) (r : PinRegs) (n : ℕ),
      Sm.backgroundAutopull { s with pins := r, clkAccum := n } =
        { s.backgroundAutopull with pins := r, clkAccum := n } := by
    intro s r n
    unfold Sm.backgroundAutopull Sm.osrRefill
    dsimp only
    split
    · cases s.tx.pop <;> rfl
    · rfl
  rw [sm_presentWorld, sm_cycleWorld]
  have hsame := congrArg (Sm.Blind · insn) (hdress (w.sm b i) (w.sm b i).openWindow.pins
    (u32 ((w.sm b i).clkAccum + 256) - divUnits (w.sm b i)))
  exact iff_of_eq hsame

theorem fdebug_presentWorld (w : World) (b : BlockAddr) (i : Fin 4) :
    ((w.presentWorld b i).sm b i).fdebug = (w.sm b i).fdebug := by
  rw [sm_presentWorld, Sm.fdebug_backgroundAutopull, sm_cycleWorld]
  rfl

/-- After a tick that presents an instruction the flags and FIFOs are as that instruction left
them. -/
theorem alarms_tickSms (h : w.due b i = true) (hd : (w.sm b i).delay = 0) :
    ((w.tickSms b).sm b i).alarms =
      (((w.presentWorld b i).execOne b i (w.getInstruction b i)).world.sm b i).alarms := by
  have hsticky : ∀ s : Sm, (stickyReassert s).alarms = s.alarms := by
    intro s
    obtain ⟨r, hr⟩ := stickyReassert_eq s
    rw [hr]
    rfl
  rw [sm_tickSms_of_presents h hd rfl, hsticky]
  split
  · exact Sm.alarms_retire ..
  · rfl

theorem fdebug_tickSms_quiet (h : ¬ (w.due b i = true ∧ (w.sm b i).delay = 0)) :
    ((w.tickSms b).sm b i).fdebug = (w.sm b i).fdebug := by
  cases hdue : w.due b i with
  | false =>
    obtain ⟨n, hn⟩ := sm_tickSms_of_not_due hdue
    rw [hn]
    rfl
  | true =>
    have hpos : 0 < (w.sm b i).delay := Nat.pos_of_ne_zero fun hz => h ⟨hdue, hz⟩
    rw [sm_tickSms_of_delay hdue hpos]
    obtain ⟨r, hr⟩ := stickyReassert_eq
      { Sm.backgroundAutopull ((w.cycleWorld b i).sm b i) with delay := (w.sm b i).delay - 1 }
    rw [hr]
    show (Sm.backgroundAutopull ((w.cycleWorld b i).sm b i)).fdebug = _
    rw [Sm.fdebug_backgroundAutopull, sm_cycleWorld]
    rfl

/-- The flags of a state machine over a tick of its block. -/
theorem tickSms_flags (h : ¬ BlindOut b i w (.tickSms b)) :
    (w.sm b i).Flags ((w.tickSms b).sm b i) := by
  by_cases hrun : w.due b i = true ∧ (w.sm b i).delay = 0
  · obtain ⟨hdue, hd⟩ := hrun
    have hblind : ¬ ((w.presentWorld b i).sm b i).Blind (w.getInstruction b i) := by
      rw [blind_presentWorld]
      exact fun hb => h ⟨rfl, hdue, hd, hb⟩
    exact (execOne_flags hblind).congr (fdebug_presentWorld w b i).symm (alarms_tickSms hdue hd)
  · exact .quiet (fdebug_tickSms_quiet hrun)

theorem alarms_smExec (w : World) (b : BlockAddr) (i : Fin 4) (insn : Insn) :
    ((w.smExec b i insn).sm b i).alarms =
      (((w.modifySm b i fun s => { s with stalled := false }).execOne b i insn).world.sm b
        i).alarms := by
  unfold smExec
  dsimp only
  split
  · rw [sm_modifySm_self]
    rfl
  · rw [sm_modifySm_self]
    rfl

theorem smExec_flags {insn : Insn} (h : ¬ (w.sm b i).Blind insn) :
    (w.sm b i).Flags ((w.smExec b i insn).sm b i) := by
  have hblind : ¬ ((w.modifySm b i fun s => { s with stalled := false }).sm b i).Blind insn := by
    rw [sm_modifySm_self]
    exact h
  have hsm : (w.sm b i).fdebug =
      ((w.modifySm b i fun s => { s with stalled := false }).sm b i).fdebug := by
    rw [sm_modifySm_self]
  exact (execOne_flags hblind).congr hsm (alarms_smExec w b i insn)

/-- A call that presents an OUT blindly raises the flag over a TX that holds a word. -/
theorem BlindOut.not_truthful {c : Call} (h : BlindOut b i w c) : ¬ Truthful b i w c := by
  have hlie : (w.sm b i).fdebug &&& fdebugTxstall = 0 → (∃ s : Sm, s.tx.isEmpty = false ∧
      ((w.step c).sm b i).alarms =
        ((w.sm b i).fdebug ||| fdebugTxstall, s.tx, s.rx, s.fifoJoin)) → ¬ Truthful b i w c := by
    rintro hwas ⟨s, htx, halarms⟩ ht
    simp only [Sm.alarms, Prod.mk.injEq] at halarms
    have hup : ((w.step c).sm b i).fdebug &&& fdebugTxstall ≠ 0 := by
      rw [halarms.1]
      intro hzero
      have hbit : (((w.sm b i).fdebug ||| fdebugTxstall) &&& fdebugTxstall).getLsbD 0 = true := by
        simp [fdebugTxstall]
      rw [hzero] at hbit
      cases hbit
    have hempty := ht.txstall ⟨hwas, hup⟩
    rw [halarms.2.1, htx] at hempty
    cases hempty
  cases c with
  | smExec b' k insn =>
    obtain ⟨hself, hblind⟩ := h
    obtain ⟨rfl, rfl⟩ := Prod.mk.inj hself
    refine hlie hblind.2.2.2 ⟨w.sm b' (smIdx k), hblind.2.2.1, ?_⟩
    have hblind' : ((w.modifySm b' (smIdx k) fun s => { s with stalled := false }).sm b'
        (smIdx k)).Blind insn := by
      rw [sm_modifySm_self]
      exact hblind
    rw [step, alarms_smExec, execOne_blind hblind', sm_modifySm_self]
  | tickSms b' =>
    obtain ⟨rfl, hdue, hd, hblind⟩ := h
    have hblind' := (blind_presentWorld w b' i (w.getInstruction b' i)).mpr hblind
    refine hlie ?_ ⟨(w.presentWorld b' i).sm b' i, hblind'.2.2.1, ?_⟩
    · rw [← Sm.fdebug_backgroundAutopull]
      exact hblind.2.2.2
    · rw [step, alarms_tickSms hdue hd, execOne_blind hblind', fdebug_presentWorld]
  | _ => exact absurd h id

/-- Whoever raises the flag is the call that `hwho` finds, and nothing else about FDEBUG changes. -/
theorem Truthful.of_host {c : Call} (flag : BitVec 8)
    (h : ((w.step c).sm b i).fdebug = (w.sm b i).fdebug ||| flag)
    (htx : fdebugTxstall &&& flag = 0) (hrx : fdebugRxstall &&& flag = 0)
    (hover : flag &&& fdebugTxover ≠ 0 →
      ∃ word, HostOp b i c (.put word) ∧ ((w.sm b i).put word).2 = false)
    (hunder : flag &&& fdebugRxunder ≠ 0 → HostOp b i c .get ∧ (w.sm b i).get.2 = none) :
    Truthful b i w c := by
  have hup : ∀ f, (w.sm b i).Raises f ((w.step c).sm b i) → flag &&& f ≠ 0 := by
    rintro f ⟨hwas, hnow⟩ hzero
    rw [h, or_and_eq hzero] at hnow
    exact hnow hwas
  refine ⟨fun hr => ?_, fun hr => ?_, fun hr => hover (hup _ hr), fun hr => hunder (hup _ hr),
    fun f hwas hzero => ?_⟩
  · exact absurd (BitVec.and_comm flag _ ▸ htx) (hup _ hr)
  · exact absurd (BitVec.and_comm flag _ ▸ hrx) (hup _ hr)
  · rw [h] at hzero
    exact absurd hzero (and_ne_zero_or hwas)

/-- A rejected put raises TXOVER and nothing else. -/
theorem put_truthful {c : Call} {word : Word} (h : HostOp b i c (.put word)) :
    Truthful b i w c := by
  have hstep := step_hostOp (w := w) h
  cases hpush : (w.sm b i).tx.push word with
  | none =>
    have hfull : (w.sm b i).put word =
        ({ w.sm b i with fdebug := (w.sm b i).fdebug ||| fdebugTxover }, false) := by
      simp only [Sm.put, hpush]
    refine .of_host fdebugTxover ?_ rfl rfl (fun _ => ⟨word, h, by rw [hfull]⟩)
      fun hno => absurd rfl hno
    rw [hstep, SmOp.apply, hfull]
  | some tx =>
    have htaken : (w.sm b i).put word = ({ w.sm b i with tx := tx }, true) := by
      simp only [Sm.put, hpush]
    exact .of_flags (.quiet (by rw [hstep, SmOp.apply, htaken]))

/-- A rejected get raises RXUNDER and nothing else. -/
theorem get_truthful {c : Call} (h : HostOp b i c .get) : Truthful b i w c := by
  have hstep := step_hostOp (w := w) h
  cases hpop : (w.sm b i).rx.pop with
  | none =>
    have hempty : (w.sm b i).get =
        ({ w.sm b i with fdebug := (w.sm b i).fdebug ||| fdebugRxunder }, none) := by
      simp only [Sm.get, hpop]
    refine .of_host fdebugRxunder ?_ rfl rfl (fun hno => absurd rfl hno)
      fun _ => ⟨h, by rw [hempty]⟩
    rw [hstep, SmOp.apply, hempty]
  | some r =>
    have hgiven : (w.sm b i).get = ({ w.sm b i with rx := r.2 }, some r.1) := by
      simp only [Sm.get, hpop]
    exact .of_flags (.quiet (by rw [hstep, SmOp.apply, hgiven]))

/-- `pio_sim_sm_clear_fdebug` takes flags down and raises none. -/
theorem clearFdebug_truthful {c : Call} {mask : BitVec 8} (h : HostOp b i c (.clearFdebug mask)) :
    Truthful b i w c := by
  have hflags : ((w.step c).sm b i).fdebug = (w.sm b i).fdebug &&& ~~~ mask := by
    rw [step_hostOp h]
    rfl
  have hdown : ∀ flag, ¬ (w.sm b i).Raises flag ((w.step c).sm b i) := by
    rintro flag ⟨hwas, hup⟩
    apply hup
    rw [hflags, BitVec.and_assoc, BitVec.and_comm (~~~ mask), ← BitVec.and_assoc, hwas]
    exact BitVec.zero_and
  exact ⟨fun hr => absurd hr (hdown _), fun hr => absurd hr (hdown _),
    fun hr => absurd hr (hdown _), fun hr => absurd hr (hdown _), fun _ _ _ => .inr ⟨mask, h⟩⟩

theorem hostOp_truthful {c : Call} {op : SmOp} (h : HostOp b i c op) : Truthful b i w c := by
  cases op with
  | put word => exact put_truthful h
  | get => exact get_truthful h
  | clearFdebug mask => exact clearFdebug_truthful h
  | setConfig cfg =>
    refine .of_flags (.quiet ?_)
    rw [step_hostOp h, SmOp.apply, Sm.setConfig, Sm.applyFifoJoin]
    split <;> rfl
  | _ => exact .of_flags (.quiet (by rw [step_hostOp h]; rfl))

theorem init_truthful : Truthful b i w (.init b) := by
  have hzero : ((w.step (.init b)).sm b i).fdebug = 0 := by
    rw [step_init]
    rfl
  have hdown : ∀ flag, ¬ (w.sm b i).Raises flag ((w.step (.init b)).sm b i) := by
    rintro flag ⟨-, hup⟩
    rw [hzero] at hup
    exact hup BitVec.zero_and
  exact ⟨fun hr => absurd hr (hdown _), fun hr => absurd hr (hdown _),
    fun hr => absurd hr (hdown _), fun hr => absurd hr (hdown _), fun _ _ _ => .inl rfl⟩

/-- The step lemma: over every call but a blind OUT the flags tell the truth. -/
theorem truthful_of_not_blind {c : Call} (h : ¬ BlindOut b i w c) : Truthful b i w c := by
  by_cases hd : c.Drives b i
  · cases c with
    | tickSms b' =>
      obtain rfl : b' = b := hd
      exact .of_flags (tickSms_flags h)
    | smExec b' k insn =>
      obtain ⟨rfl, rfl⟩ := Prod.mk.inj hd
      exact .of_flags (smExec_flags fun hb => h ⟨rfl, hb⟩)
    | init b' =>
      obtain rfl : b' = b := hd
      exact init_truthful
    | sm b' k op =>
      obtain ⟨rfl, hk⟩ := Prod.mk.inj hd
      exact hostOp_truthful ⟨k, hk, rfl⟩
    | smInit b' k pc cfg =>
      obtain ⟨rfl, rfl⟩ := Prod.mk.inj hd
      refine .of_flags (.quiet ?_)
      rw [step, smInit, sm_modifySm_self, Sm.init, Sm.setConfig, Sm.applyFifoJoin]
      dsimp only
      split <;> rfl
    | loadProgram b' k offset prog =>
      refine .of_flags (.quiet ?_)
      rcases w.loadProgram_cases b' (smIdx k) offset prog with hl | ⟨words, -, hl⟩
      · rw [step, hl]
      · rw [step, hl, ← sm_load w b' offset words]
        exact keeps_modifySm Sm.fdebug (·.startProgram offset prog) (fun _ => rfl) _ b' b _ i
    | _ => exact absurd hd id
  · have hg : Steady Sm.fdebug := ⟨fun _ _ => rfl, fun _ _ => rfl, fun _ _ => rfl⟩
    exact .of_flags (.quiet (keeps_step hg hd))

theorem truthful_iff {c : Call} : Truthful b i w c ↔ ¬ BlindOut b i w c :=
  ⟨fun ht hb => hb.not_truthful ht, truthful_of_not_blind⟩

omit [Platform] in
/-- With a threshold as the mutators give it, no tick presents an OUT blindly: the background
autopull has just refilled the OSR, or found TX empty. -/
theorem not_blindOut_tick (h : (w.sm b i).pullThresh ≠ 0) (b' : BlockAddr) :
    ¬ BlindOut b i w (.tickSms b') := by
  rintro ⟨rfl, -, -, -, hstall, htx, -⟩
  unfold Sm.outStalls Sm.backgroundAutopull at hstall
  unfold Sm.backgroundAutopull at htx
  split at hstall
  · rename_i hpull
    rw [if_pos hpull] at htx
    cases hpop : (w.sm b' i).tx.pop with
    | none =>
      simp only [Sm.osrRefill, hpop, Option.getD_none] at htx
      rw [Fifo.pop_eq_none_iff] at hpop
      simp only [Fifo.isEmpty, hpop, beq_self_eq_true, Bool.true_eq_false] at htx
    | some r =>
      simp only [Sm.osrRefill, hpop, Option.getD_some, Bool.and_eq_true, decide_eq_true_eq,
        Nat.le_zero] at hstall
      exact h hstall.2
  · rename_i hpull
    exact hpull hstall

/-! ### Running until TX is drained -/

/-- The loop of `pio_sim_run_until_tx_drained`: where it ends and the ticks it took. -/
def drainLoop (b : BlockAddr) (i : Fin 4) (onTick : World → World) : ℕ → World → World × ℕ
  | 0, w => (w, 0)
  | maxTicks + 1, w =>
    if (w.sm b i).fdebug &&& fdebugTxstall = 0 then
      let r := drainLoop b i onTick maxTicks (w.pioSimTick b onTick)
      (r.1, r.2 + 1)
    else (w, 0)

/-- `pio_sim_run_until_tx_drained`; `onTick` is what the device hook does. -/
def runUntilTxDrained (w : World) (b : BlockAddr) (sm : ℕ) (onTick : World → World) (maxTicks : ℕ) :
    World × ℕ :=
  drainLoop b (smIdx sm) onTick maxTicks (w.step (.sm b sm (.clearFdebug fdebugTxstall)))

/-- The calls of the loop, when the device hook makes the calls `hook`. -/
def drainCalls (b : BlockAddr) (i : Fin 4) (hook : World → List Call) : ℕ → World → List Call
  | 0, _ => []
  | maxTicks + 1, w =>
    if (w.sm b i).fdebug &&& fdebugTxstall = 0 then
      (.tickSms b :: hook (w.tickSms b) ++ [.tickEnd b]) ++
        drainCalls b i hook maxTicks (w.pioSimTick b fun v => v.run (hook v))
    else []

/-- The loop is the run of its calls, and if it stops early the flag is up. -/
theorem drainLoop_run (b : BlockAddr) (i : Fin 4) (hook : World → List Call) (n : ℕ) (w : World) :
    let r := drainLoop b i (fun v => v.run (hook v)) n w
    r.1 = w.run (drainCalls b i hook n w) ∧
      (r.2 < n → (r.1.sm b i).fdebug &&& fdebugTxstall ≠ 0) := by
  induction n generalizing w with
  | zero => exact ⟨rfl, fun h => absurd h (Nat.not_lt_zero _)⟩
  | succ n ih =>
    unfold drainLoop drainCalls
    by_cases hdown : (w.sm b i).fdebug &&& fdebugTxstall = 0
    · obtain ⟨hrun, hup⟩ := ih (w.pioSimTick b fun v => v.run (hook v))
      have htick := run_tick w b (hook (w.tickSms b))
      simp only [if_pos hdown]
      refine ⟨?_, fun hlt => hup (by omega)⟩
      rw [run_append, htick]
      exact hrun
    · simp only [if_neg hdown]
      exact ⟨rfl, fun _ => hdown⟩

/-- Over every run of calls the FDEBUG flags of a state machine tell the truth and stay up exactly
when no call of the run presents an OUT that finds the OSR exhausted while TX holds a word. So when
`pio_sim_run_until_tx_drained` returns early, TX was empty at the call that stalled the state
machine. -/
theorem fdebug_truthful_iff (b : BlockAddr) (sm : ℕ) :
    (∀ (w : World) (cs : List Call), Run.Along step (Truthful b (smIdx sm)) w cs ↔
      Run.Along step (fun w c => ¬ BlindOut b (smIdx sm) w c) w cs) ∧
    ∀ (w : World) (hook : World → List Call) (n : ℕ),
      let start := w.step (.sm b sm (.clearFdebug fdebugTxstall))
      let cs := drainCalls b (smIdx sm) hook n start
      let r := w.runUntilTxDrained b sm (fun v => v.run (hook v)) n
      r.1 = start.run cs ∧
      (r.2 < n → Run.Along step (fun w c => ¬ BlindOut b (smIdx sm) w c) start cs →
        ∃ before c after, cs = before ++ c :: after ∧
          ((start.run before).sm b (smIdx sm)).Raises fdebugTxstall
            (((start.run before).step c).sm b (smIdx sm)) ∧
          (((start.run before).step c).sm b (smIdx sm)).tx.isEmpty = true) := by
  refine ⟨fun w cs => Run.along_congr fun _ _ => truthful_iff, fun w hook n => ?_⟩
  obtain ⟨hrun, hup⟩ := drainLoop_run b (smIdx sm) hook n
    (w.step (.sm b sm (.clearFdebug fdebugTxstall)))
  refine ⟨hrun, fun hlt hblind => ?_⟩
  have hdown : ((w.step (.sm b sm (.clearFdebug fdebugTxstall))).sm b (smIdx sm)).fdebug &&&
      fdebugTxstall = 0 := by
    rw [step_hostOp ⟨sm, rfl, rfl⟩]
    change ((w.sm b (smIdx sm)).fdebug &&& ~~~ fdebugTxstall) &&& fdebugTxstall = 0
    rw [BitVec.and_assoc]
    exact BitVec.and_zero
  have hend := hup hlt
  rw [hrun] at hend
  obtain ⟨before, c, after, hsplit, hwas, hnow⟩ := Run.exists_turn
    (P := fun v : World => (v.sm b (smIdx sm)).fdebug &&& fdebugTxstall ≠ 0)
    (fun hup => hup hdown) hend
  rw [hsplit] at hblind
  have hc := ((Run.along_append _ before (c :: after)).mp hblind).2.1
  have hraises : ((run _ before).sm b (smIdx sm)).Raises fdebugTxstall
      (((run _ before).step c).sm b (smIdx sm)) := ⟨not_not.mp hwas, hnow⟩
  exact ⟨before, c, after, hsplit, hraises, (truthful_of_not_blind hc).txstall hraises⟩

omit [Platform] in
/-- The theorem at a stream of one word: the OUT takes it, and two ticks later finds TX empty. -/
theorem fdebug_truthful_one_word :
    letI : Platform := ⟨.rp2350⟩
    let w := initial.run [.smInit 0 0 0 { defaultSmConfig with autopull := true },
      .block 0 (.load 0 [0x6020]), .sm 0 0 (.put 5), .setEnabled 0 0 true]
    let start := w.step (.sm 0 0 (.clearFdebug fdebugTxstall))
    ∃ before c after, drainCalls 0 (smIdx 0) (fun _ => []) 5 start = before ++ c :: after ∧
      ((start.run before).sm 0 (smIdx 0)).Raises fdebugTxstall
        (((start.run before).step c).sm 0 (smIdx 0)) ∧
      (((start.run before).step c).sm 0 (smIdx 0)).tx.isEmpty = true := by
  let P : Platform := ⟨.rp2350⟩
  refine ((fdebug_truthful_iff 0 0).2 (initial.run [.smInit 0 0 0
    { defaultSmConfig with autopull := true }, .block 0 (.load 0 [0x6020]), .sm 0 0 (.put 5),
    .setEnabled 0 0 true]) (fun _ => []) 5).2 ?_ ?_
  · decide +kernel
  · decide +kernel

omit [Platform] in
/-- A forced OUT with autopull on reports TXSTALL over the word waiting in TX. -/
theorem forced_out_reports_txstall :
    letI : Platform := ⟨.rp2350⟩
    ¬ Run.Along step (Truthful 0 0) initial
      [.smInit 0 0 0 { defaultSmConfig with autopull := true }, .sm 0 0 (.put 5),
      .smExec 0 0 0x6020] := by
  let P : Platform := ⟨.rp2350⟩
  rintro ⟨-, -, hforced, -⟩
  exact absurd (hforced.txstall ⟨by decide +kernel, by decide +kernel⟩) (by decide +kernel)

end World
end PioSim
