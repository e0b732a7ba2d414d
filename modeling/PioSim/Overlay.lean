import PioSim.Invariant
import PioSim.Queues

/-!
# Applying a program's directives to a live state machine

`pio_asm_apply_program_config` reads some thirty fields of a state machine into a config, lays the
directives over it and writes the config back. Written out field by field the round trip is a record
update, `Sm.overlaid`, except that the write back also drops a MOV STATUS override.
-/

namespace PioSim

variable [Platform]

/-! ### The config with the directives laid over it -/

namespace SmConfig

variable (c : SmConfig)

section
omit [Platform]

theorem overlay_clockDiv (d : Option (ℕ × ℕ)) :
    c.overlay (fun c d => c.setClkdivIntFrac d.1 d.2) d =
      { c with
        clkdivInt := d.elim c.clkdivInt Prod.fst
        clkdivFrac := d.elim c.clkdivFrac Prod.snd } := by
  cases d <;> rfl

theorem overlay_fifoJoin (d : Option FifoJoin) :
    c.overlay setFifoJoin d = { c with fifoJoin := d.elim c.fifoJoin id } := by
  cases d <;> rfl

theorem overlay_movStatus (d : Option (StatusSel × ℕ)) :
    c.overlay (fun c d => c.setMovStatus d.1 d.2) d =
      { c with
        statusSel := d.elim c.statusSel Prod.fst
        statusN := d.elim c.statusN Prod.snd } := by
  cases d <;> rfl

end

theorem overlay_inCfg (d : Option ShiftDirective) :
    c.overlay (fun c d =>
        let c := c.setInShift (d.dir == .right) d.autoshift d.threshold
        if hasInPinCount then c.setInPinCount d.count else c) d =
      { c with
        inDir := d.elim c.inDir ShiftDirective.dir
        autopush := d.elim c.autopush ShiftDirective.autoshift
        pushThresh := d.elim c.pushThresh fun d => clampThresh d.threshold
        inCount := if hasInPinCount then d.elim c.inCount fun d =>
            if d.count = 0 ∨ 32 < d.count then 32 else d.count
          else c.inCount } := by
  rcases d with _ | ⟨count, dir, autoshift, threshold⟩
  · cases hasInPinCount <;> rfl
  · cases dir <;> cases hasInPinCount <;> rfl

omit [Platform] in
theorem overlay_outCfg (d : Option ShiftDirective) :
    c.overlay (fun c d =>
        (c.setOutShift (d.dir == .right) d.autoshift d.threshold).setOutPinCount d.count) d =
      { c with
        outDir := d.elim c.outDir ShiftDirective.dir
        autopull := d.elim c.autopull ShiftDirective.autoshift
        pullThresh := d.elim c.pullThresh fun d => clampThresh d.threshold
        outCount := d.elim c.outCount fun d => clampPinCount d.count } := by
  rcases d with _ | ⟨count, dir, autoshift, threshold⟩
  · rfl
  · cases dir <;> rfl

omit [Platform] in
theorem overlay_setCfg (d : Option ℕ) :
    c.overlay setSetPinCount d = { c with setCount := d.elim c.setCount clampPinCount } := by
  cases d <;> rfl

end SmConfig

namespace Sm

/-- The join and the two capacities are as a config write leaves them. -/
structure Joined (s : Sm) : Prop where
  tx_cap : s.tx.cap = txCapOf s.fifoJoin
  rx_cap : s.rx.cap = rxCapOf s.fifoJoin
  join_eff : effectiveJoin s.fifoJoin = s.fifoJoin

theorem QueuesWf.joined {s : Sm} (hs : s.QueuesWf) : s.Joined := ⟨hs.tx_cap, hs.rx_cap, hs.join_eff⟩

/-- A FIFO under a new join: cleared, at the new capacity, when the join changes. -/
def rejoin (f : Fifo) (changed : Prop) [Decidable changed] (cap : ℕ) : Fifo :=
  if changed then Fifo.clear { f with cap := cap } else f

omit [Platform] in
theorem rejoin_cap {f : Fifo} {changed : Prop} [Decidable changed] {cap : ℕ}
    (h : ¬ changed → f.cap = cap) : (rejoin f changed cap).cap = cap := by
  unfold rejoin
  split
  · rfl
  · rename_i hkeep
    exact h hkeep

theorem applyFifoJoin_eq {s : Sm} (hs : s.Joined) (join : FifoJoin) :
    s.applyFifoJoin join = { s with
      fifoJoin := effectiveJoin join
      tx := rejoin s.tx (effectiveJoin join ≠ s.fifoJoin) (txCapOf join)
      rx := rejoin s.rx (effectiveJoin join ≠ s.fifoJoin) (rxCapOf join) } := by
  by_cases hj : effectiveJoin join = s.fifoJoin
  · have htx : txCapOf join = s.tx.cap := by rw [hs.tx_cap, ← hj, txCapOf_effectiveJoin]
    have hrx : rxCapOf join = s.rx.cap := by rw [hs.rx_cap, ← hj, rxCapOf_effectiveJoin]
    simp only [applyFifoJoin, rejoin, hj, htx, hrx, ne_eq, not_true_eq_false, if_false]
  · simp only [applyFifoJoin, rejoin, ne_eq, hj, not_false_eq_true, if_true]

/-- The state machine with the directives of `prog` laid over it and nothing else touched. -/
def overlaid (s : Sm) (prog : ProgramConfig) : Sm :=
  let join := prog.fifoJoin.elim s.fifoJoin effectiveJoin
  { s with
    clkdivInt := prog.clockDiv.elim s.clkdivInt Prod.fst
    clkdivFrac := prog.clockDiv.elim s.clkdivFrac Prod.snd
    fifoJoin := join
    tx := rejoin s.tx (join ≠ s.fifoJoin) (txCapOf join)
    rx := rejoin s.rx (join ≠ s.fifoJoin) (rxCapOf join)
    statusSel := prog.movStatus.elim s.statusSel Prod.fst
    statusN := prog.movStatus.elim s.statusN Prod.snd
    inDir := prog.inCfg.elim s.inDir ShiftDirective.dir
    autopush := prog.inCfg.elim s.autopush ShiftDirective.autoshift
    pushThresh := prog.inCfg.elim s.pushThresh fun d => clampThresh d.threshold
    inCount := if hasInPinCount then prog.inCfg.elim s.inCount fun d =>
        if d.count = 0 ∨ 32 < d.count then 32 else d.count
      else s.inCount
    outDir := prog.outCfg.elim s.outDir ShiftDirective.dir
    autopull := prog.outCfg.elim s.autopull ShiftDirective.autoshift
    pullThresh := prog.outCfg.elim s.pullThresh fun d => clampThresh d.threshold
    outCount := prog.outCfg.elim s.outCount fun d => clampPinCount d.count
    setCount := prog.setCfg.elim s.setCount clampPinCount }

/-- `pio_asm_apply_program_config`, on the state machine's record. -/
def applyProgramConfig (s : Sm) (prog : ProgramConfig) : Sm := s.setConfig (s.programConfig prog)

theorem effectiveJoin_elim {s : Sm} (hs : s.Joined) (d : Option FifoJoin) :
    effectiveJoin (d.elim s.fifoJoin id) = d.elim s.fifoJoin effectiveJoin := by
  cases d with
  | none => exact hs.join_eff
  | some join => rfl

/-- The round trip through the config touches what the directives name, and the override. -/
theorem applyProgramConfig_eq {s : Sm} (hs : s.Joined) (prog : ProgramConfig) :
    s.applyProgramConfig prog = { s.overlaid prog with statusOverride := false } := by
  have hjoin := effectiveJoin_elim hs prog.fifoJoin
  have htx := txCapOf_effectiveJoin (prog.fifoJoin.elim s.fifoJoin id)
  have hrx := rxCapOf_effectiveJoin (prog.fifoJoin.elim s.fifoJoin id)
  rw [hjoin] at htx hrx
  simp only [applyProgramConfig, programConfig, SmConfig.overlay_clockDiv,
    SmConfig.overlay_fifoJoin, SmConfig.overlay_movStatus, SmConfig.overlay_inCfg,
    SmConfig.overlay_outCfg, SmConfig.overlay_setCfg, config, setConfig]
  rw [applyFifoJoin_eq (by exact ⟨hs.tx_cap, hs.rx_cap, hs.join_eff⟩)]
  simp only [hjoin, ← htx, ← hrx, overlaid]

theorem applyProgramConfig_joined {s : Sm} (hs : s.Joined) (prog : ProgramConfig) :
    (s.applyProgramConfig prog).Joined := by
  rw [applyProgramConfig_eq hs]
  refine ⟨rejoin_cap fun hkeep => ?_, rejoin_cap fun hkeep => ?_, ?_⟩
  · rw [hs.tx_cap, of_not_not hkeep]
  · rw [hs.rx_cap, of_not_not hkeep]
  · cases hj : prog.fifoJoin with
    | none => simpa only [overlaid, hj, Option.elim_none] using hs.join_eff
    | some join => simpa only [overlaid, hj, Option.elim_some] using effectiveJoin_idem join

omit [Platform] in
theorem elim_elim {α β : Type} (d : Option α) (a : β) (f : α → β) :
    d.elim (d.elim a f) f = d.elim a f := by
  cases d <;> rfl

/-- Laying the same directives over the result changes nothing more. -/
theorem overlaid_again (s : Sm) (prog : ProgramConfig) (override : Bool) :
    Sm.overlaid { s.overlaid prog with statusOverride := override } prog =
      { s.overlaid prog with statusOverride := override } := by
  have hcount : ∀ a, (if hasInPinCount then prog.inCfg.elim
      (if hasInPinCount then prog.inCfg.elim a fun d =>
        if d.count = 0 ∨ 32 < d.count then 32 else d.count else a)
      (fun d => if d.count = 0 ∨ 32 < d.count then 32 else d.count)
      else (if hasInPinCount then prog.inCfg.elim a fun d =>
        if d.count = 0 ∨ 32 < d.count then 32 else d.count else a)) =
      if hasInPinCount then prog.inCfg.elim a fun d =>
        if d.count = 0 ∨ 32 < d.count then 32 else d.count else a := by
    intro a
    cases hasInPinCount
    · rfl
    · exact elim_elim prog.inCfg a _
  simp only [overlaid, elim_elim, hcount, rejoin, ne_eq, not_true_eq_false, if_false]

/-! ### What the directives name -/

/-- From `s` to `s'` only fields change that a directive of `prog` names, and the FIFOs with the
join. -/
structure Overlays (prog : ProgramConfig) (s s' : Sm) : Prop where
  unnamed : s' = { s with
    clkdivInt := s'.clkdivInt
    clkdivFrac := s'.clkdivFrac
    fifoJoin := s'.fifoJoin
    tx := s'.tx
    rx := s'.rx
    statusSel := s'.statusSel
    statusN := s'.statusN
    inDir := s'.inDir
    autopush := s'.autopush
    pushThresh := s'.pushThresh
    inCount := s'.inCount
    outDir := s'.outDir
    autopull := s'.autopull
    pullThresh := s'.pullThresh
    outCount := s'.outCount
    setCount := s'.setCount }
  clockDiv : prog.clockDiv = none → s'.clkdivInt = s.clkdivInt ∧ s'.clkdivFrac = s.clkdivFrac
  fifoJoin : prog.fifoJoin = none → s'.fifoJoin = s.fifoJoin
  fifos : s'.fifoJoin = s.fifoJoin → s'.tx = s.tx ∧ s'.rx = s.rx
  movStatus : prog.movStatus = none → s'.statusSel = s.statusSel ∧ s'.statusN = s.statusN
  inCfg : prog.inCfg = none → s'.inDir = s.inDir ∧ s'.autopush = s.autopush ∧
    s'.pushThresh = s.pushThresh
  inCount : prog.inCfg = none ∨ hasInPinCount = false → s'.inCount = s.inCount
  outCfg : prog.outCfg = none → s'.outDir = s.outDir ∧ s'.autopull = s.autopull ∧
    s'.pullThresh = s.pullThresh ∧ s'.outCount = s.outCount
  setCfg : prog.setCfg = none → s'.setCount = s.setCount

theorem overlays_overlaid (s : Sm) (prog : ProgramConfig) : Overlays prog s (s.overlaid prog) where
  unnamed := rfl
  clockDiv h := by simp only [overlaid, h, Option.elim_none, and_self]
  fifoJoin h := by simp only [overlaid, h, Option.elim_none]
  fifos h := by
    have hkeep : ¬ prog.fifoJoin.elim s.fifoJoin effectiveJoin ≠ s.fifoJoin := not_not.mpr h
    exact ⟨if_neg hkeep, if_neg hkeep⟩
  movStatus h := by simp only [overlaid, h, Option.elim_none, and_self]
  inCfg h := by simp only [overlaid, h, Option.elim_none, and_self]
  inCount h := by
    rcases h with h | h
    · simp only [overlaid, h, Option.elim_none, ite_self]
    · simp only [overlaid, h, Bool.false_eq_true, if_false]
  outCfg h := by simp only [overlaid, h, Option.elim_none, and_self]
  setCfg h := by simp only [overlaid, h, Option.elim_none]

end Sm

/-- A program with none of the directives. -/
def ProgramConfig.bare : ProgramConfig := ⟨none, none, none, none, none, none⟩

theorem Sm.overlaid_bare (s : Sm) : s.overlaid .bare = s := by
  simp only [overlaid, ProgramConfig.bare, Option.elim_none, rejoin, ne_eq, not_true_eq_false,
    if_false, ite_self]

namespace World

/-- Applying `prog` to a state machine changes the fields its directives name and nothing else,
changes nothing when there are none, and changes nothing the second time. -/
def AppliesOnly (w : World) (b : BlockAddr) (sm : ℕ) (prog : ProgramConfig) : Prop :=
  let apply := fun v : World => v.apiStep (.applyProgramConfig b sm prog)
  (∃ s', apply w = w.setSm b (smIdx sm) s' ∧ (w.sm b (smIdx sm)).Overlays prog s') ∧
    (prog = .bare → apply w = w) ∧ apply (apply w) = apply w

theorem apiStep_applyProgramConfig (w : World) (b : BlockAddr) (sm : ℕ) (prog : ProgramConfig) :
    w.apiStep (.applyProgramConfig b sm prog) =
      w.setSm b (smIdx sm) ((w.sm b (smIdx sm)).applyProgramConfig prog) := rfl

/-- In every reachable state the joins and capacities agree. -/
theorem Reachable.joined {w : World} (hw : w.Reachable) (b : BlockAddr) (i : Fin 4) :
    (w.sm b i).Joined := (hw.queuesWf b i).joined

theorem apply_twice {w : World} {b : BlockAddr} {sm : ℕ} (h : (w.sm b (smIdx sm)).Joined)
    (prog : ProgramConfig) :
    (w.apiStep (.applyProgramConfig b sm prog)).apiStep (.applyProgramConfig b sm prog) =
      w.apiStep (.applyProgramConfig b sm prog) := by
  have hjoined := Sm.applyProgramConfig_joined h prog
  have hagain : ((w.sm b (smIdx sm)).applyProgramConfig prog).applyProgramConfig prog =
      (w.sm b (smIdx sm)).applyProgramConfig prog := by
    rw [Sm.applyProgramConfig_eq hjoined, Sm.applyProgramConfig_eq h, Sm.overlaid_again]
  simp only [apiStep_applyProgramConfig, sm_setSm_self, setSm_setSm, hagain]

/-- A program's directives are laid over a state machine, and nothing else about it changes, exactly
when no MOV STATUS override is in force. -/
theorem appliesOnly_iff {w : World} {b : BlockAddr} {sm : ℕ} (h : (w.sm b (smIdx sm)).Joined)
    (prog : ProgramConfig) :
    w.AppliesOnly b sm prog ↔ (w.sm b (smIdx sm)).statusOverride = false := by
  have heq := Sm.applyProgramConfig_eq h prog
  constructor
  · rintro ⟨⟨s', hs', hover⟩, -, -⟩
    have hsm : s' = (w.sm b (smIdx sm)).applyProgramConfig prog := by
      have hat := congrArg (fun v : World => v.sm b (smIdx sm)) hs'
      simpa only [apiStep_applyProgramConfig, sm_setSm_self] using hat.symm
    have hkept := congrArg Sm.statusOverride hover.unnamed
    rw [hsm, heq] at hkept
    exact hkept.symm
  · intro hoff
    have hno : (w.sm b (smIdx sm)).applyProgramConfig prog = (w.sm b (smIdx sm)).overlaid prog := by
      rw [heq, ← hoff]
      rfl
    refine ⟨⟨_, apiStep_applyProgramConfig w b sm prog, ?_⟩, ?_, apply_twice h prog⟩
    · rw [hno]
      exact Sm.overlays_overlaid _ prog
    · rintro rfl
      change w.apiStep _ = w
      rw [apiStep_applyProgramConfig, hno, Sm.overlaid_bare, setSm_sm]

omit [Platform] in
/-- The theorem at a fresh state machine and a program that joins the FIFOs. -/
theorem appliesOnly_fifo_tx :
    letI : Platform := ⟨.rp2350⟩
    initial.AppliesOnly 0 0 { ProgramConfig.bare with fifoJoin := some .tx } := by
  let P : Platform := ⟨.rp2350⟩
  have hinitial : initial.Reachable := ⟨[], rfl⟩
  exact (appliesOnly_iff (hinitial.joined 0 (smIdx 0)) _).mpr rfl

omit [Platform] in
/-- An override set by the host is gone after a program without directives was applied. -/
theorem bare_program_clears_override :
    letI : Platform := ⟨.rp2350⟩
    ¬ (initial.run [.sm 0 0 (.setStatusValue 5)]).AppliesOnly 0 0 .bare := by
  let P : Platform := ⟨.rp2350⟩
  rintro ⟨-, hbare, -⟩
  have hkept := congrArg (fun v : World => (v.sm 0 0).statusOverride) (hbare rfl)
  exact absurd hkept (by decide +kernel)

end World
end PioSim
