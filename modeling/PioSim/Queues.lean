import PioSim.Calls

/-!
# The FIFOs as queues

Along a run in which nothing clears the FIFOs of a state machine, the TX ring hands the words `put`
accepted to the OSR in order, and the RX ring hands the words drained from the ISR to `get` in
order. `Sm.Ledger` is that bookkeeping between two states, and composes.
-/

namespace PioSim

open Relation

variable [Platform]

namespace Sm

/-- The part of a record the queues are read from. -/
def queues (s : Sm) : Fifo × Fifo × FifoJoin × List Word × List Word :=
  (s.tx, s.rx, s.fifoJoin, s.pulled, s.pushed)

/-- What holds of the FIFOs of every state machine at all times. In the register-file modes nothing
is ever queued in RX, so its slots may be written. -/
structure QueuesWf (s : Sm) : Prop where
  tx_wf : s.tx.Wf
  rx_wf : s.rx.Wf
  tx_cap : s.tx.cap = txCapOf s.fifoJoin
  rx_cap : s.rx.cap = rxCapOf s.fifoJoin
  join_eff : effectiveJoin s.fifoJoin = s.fifoJoin
  regfile_empty : s.rxFifoIsRegisterFile = true → s.rx.count = 0

/-- From `s` to `s'` the words `acc` were put and `ret` returned: TX passes the words put on to
`pulled`, RX those added to `pushed` on to `ret`, each in order. -/
def Ledger (s : Sm) (acc ret : List Word) (s' : Sm) : Prop :=
  ∃ popped fresh, s'.pulled = s.pulled ++ popped ∧ s'.pushed = s.pushed ++ fresh ∧
    s.tx.contents ++ acc = popped ++ s'.tx.contents ∧
    s.rx.contents ++ fresh = ret ++ s'.rx.contents

section
omit [Platform]

theorem Ledger.refl (s : Sm) : s.Ledger [] [] s := ⟨[], [], by simp⟩

theorem Ledger.trans {s t u : Sm} {acc ret acc' ret' : List Word} (h : s.Ledger acc ret t)
    (h' : t.Ledger acc' ret' u) : s.Ledger (acc ++ acc') (ret ++ ret') u := by
  obtain ⟨popped, fresh, hpl, hps, htx, hrx⟩ := h
  obtain ⟨popped', fresh', hpl', hps', htx', hrx'⟩ := h'
  refine ⟨popped ++ popped', fresh ++ fresh', ?_, ?_, ?_, ?_⟩
  · rw [hpl', hpl, List.append_assoc]
  · rw [hps', hps, List.append_assoc]
  · rw [← List.append_assoc, htx, List.append_assoc, htx', List.append_assoc]
  · rw [← List.append_assoc, hrx, List.append_assoc, hrx', List.append_assoc]

theorem Ledger.of_queues {s s' : Sm} (h : s'.queues = s.queues) : s.Ledger [] [] s' := by
  simp only [queues, Prod.mk.injEq] at h
  obtain ⟨htx, hrx, -, hpl, hps⟩ := h
  exact ⟨[], [], by simp [htx, hrx, hpl, hps]⟩

end

theorem QueuesWf.of_queues {s s' : Sm} (hs : s.QueuesWf) (h : s'.queues = s.queues) :
    s'.QueuesWf := by
  simp only [queues, Prod.mk.injEq] at h
  obtain ⟨htx, hrx, hj, -, -⟩ := h
  refine ⟨by rw [htx]; exact hs.tx_wf, by rw [hrx]; exact hs.rx_wf, by rw [htx, hj, hs.tx_cap],
    by rw [hrx, hj, hs.rx_cap], by rw [hj, hs.join_eff], fun hr => ?_⟩
  rw [hrx]
  apply hs.regfile_empty
  simpa only [rxFifoIsRegisterFile, hj] using hr

/-- An instruction's update of the record keeps the queues well formed and the ledger. -/
theorem Effect.ledger {s s' : Sm} (h : s.Effect s') (hs : s.QueuesWf) :
    s'.QueuesWf ∧ s.Ledger [] [] s' := by
  cases h with
  | regs => exact ⟨hs.of_queues rfl, .of_queues rfl⟩
  | inject => exact ⟨hs.of_queues rfl, .of_queues rfl⟩
  | refill _ h =>
    obtain ⟨v, tx, hp, rfl⟩ := osrRefill_eq_some h
    obtain ⟨hwf, hcont, hcap⟩ := hs.tx_wf.pop hp
    refine ⟨⟨hwf, hs.rx_wf, hcap.trans hs.tx_cap, hs.rx_cap, hs.join_eff, hs.regfile_empty⟩, [v],
      [], ?_⟩
    simp [hcont]
  | drain _ hb h =>
    obtain ⟨rx, hp, rfl⟩ := isrDrain_eq_some h
    obtain ⟨hwf, hcont, hcap⟩ := hs.rx_wf.push hp
    have hreg : s.rxFifoIsRegisterFile = false := (Bool.or_eq_false_iff.mp hb).1
    refine ⟨⟨hs.tx_wf, hwf, hs.tx_cap, hcap.trans hs.rx_cap, hs.join_eff, fun hr => ?_⟩, [],
      [s.isr], ?_⟩
    · rw [show s.rxFifoIsRegisterFile = true from hr] at hreg
      cases hreg
    · simp [hcont]
  | slot idx v hreg =>
    have hz := hs.regfile_empty hreg
    refine ⟨⟨hs.tx_wf, hs.rx_wf.write_slot idx v, hs.tx_cap, hs.rx_cap, hs.join_eff, fun _ => hz⟩,
      [], [], ?_⟩
    have hslot : Fifo.contents { s.rx with buf := Function.update s.rx.buf idx v } = [] :=
      Fifo.contents_eq_nil hz
    simp [hslot, Fifo.contents_eq_nil hz]

/-- One step of a state machine's record inside a tick or a forced instruction. -/
inductive Flow (s : Sm) : Sm → Prop
  | effect (s' : Sm) : s.Effect s' → Flow s s'
  | same (s' : Sm) : s'.queues = s.queues → Flow s s'

abbrev Flows : Sm → Sm → Prop := ReflTransGen Flow

theorem Flows.of_queues {s s' : Sm} (h : s'.queues = s.queues) : s.Flows s' := .single (.same s' h)

theorem Effects.flows {s s' : Sm} (h : s.Effects s') : s.Flows s' :=
  ReflTransGen.mono (fun _ _ => Flow.effect _) _ _ h

theorem Flows.ledger {s s' : Sm} (h : s.Flows s') (hs : s.QueuesWf) :
    s'.QueuesWf ∧ s.Ledger [] [] s' := by
  induction h with
  | refl => exact ⟨hs, .refl s⟩
  | tail _ hstep ih =>
    obtain ⟨hwf, hl⟩ := ih
    cases hstep with
    | effect he =>
      obtain ⟨hwf', hl'⟩ := he.ledger hwf
      exact ⟨hwf', hl.trans hl'⟩
    | same hq => exact ⟨hwf.of_queues hq, hl.trans (.of_queues hq)⟩

end Sm

/-! ### Ticks and forced instructions -/

namespace World

theorem execOne_flows (w : World) (b : BlockAddr) (i : Fin 4) (insn : Insn) :
    (w.sm b i).Flows ((w.execOne b i insn).world.sm b i) := by
  obtain ⟨s, hs, r, he⟩ := execOne_sm_self w b i insn
  rw [he]
  exact hs.flows.tail (.same _ rfl)

theorem present_flows (w : World) (b : BlockAddr) (i : Fin 4) :
    (w.sm b i).Flows ((w.present b i).sm b i) := by
  have hone := execOne_flows (w.countFetch b i) b i (w.getInstruction b i)
  rw [sm_countFetch] at hone
  unfold present
  simp only
  split
  · rw [sm_modifySm_self]
    refine hone.tail (.same _ ?_)
    unfold Sm.retire
    split <;> rfl
  · rw [sm_modifySm_self]
    exact hone.tail (.same _ rfl)

theorem backgroundAutopull_flows (s : Sm) : s.Flows s.backgroundAutopull := by
  unfold Sm.backgroundAutopull
  split
  · exact (Sm.refill_effects s).flows
  · exact .refl

theorem smCycle_flows (w : World) (b : BlockAddr) (i : Fin 4) :
    (w.sm b i).Flows ((w.smCycle b i).sm b i) := by
  have hbg : (w.sm b i).Flows ((w.modifySm b i Sm.backgroundAutopull).sm b i) := by
    rw [sm_modifySm_self]
    exact backgroundAutopull_flows _
  unfold smCycle
  simp only
  split
  · refine hbg.tail (.same _ ?_)
    rw [sm_modifySm_self]
    rfl
  · exact hbg.trans (present_flows _ b i)

theorem smTick_flows (w : World) (b : BlockAddr) (i : Fin 4) :
    (w.sm b i).Flows ((w.smTick b i).sm b i) := by
  unfold smTick
  simp only
  split_ifs
  · rw [sm_modifySm_self]
    have hcycle := smCycle_flows (w.setSm b i
      { w.sm b i with clkAccum := u32 ((w.sm b i).clkAccum + 256) - divUnits (w.sm b i) }) b i
    rw [sm_setSm_self] at hcycle
    refine (Sm.Flows.of_queues (by rfl)).trans (hcycle.tail (.same _ ?_))
    unfold stickyReassert
    split <;> rfl
  · rw [sm_setSm_self]
    exact .of_queues rfl
  · rw [sm_setSm_self]
    exact .of_queues rfl

theorem smExec_flows (w : World) (b : BlockAddr) (i : Fin 4) (insn : Insn) :
    (w.sm b i).Flows ((w.smExec b i insn).sm b i) := by
  have hone := execOne_flows (w.modifySm b i fun s => { s with stalled := false }) b i insn
  rw [sm_modifySm_self] at hone
  have hfirst : (w.sm b i).Flows { w.sm b i with stalled := false } := .of_queues rfl
  unfold smExec
  simp only
  split
  · rw [sm_modifySm_self]
    exact hfirst.trans (hone.tail (.same _ rfl))
  · rw [sm_modifySm_self]
    exact hfirst.trans (hone.tail (.same _ rfl))

/-! ### Calls -/

theorem smTick_flows_any (w : World) (b b' : BlockAddr) (i i' : Fin 4) :
    (w.sm b i).Flows ((w.smTick b' i').sm b i) := by
  by_cases h : (b, i) = (b', i')
  · obtain ⟨rfl, rfl⟩ := Prod.mk.inj h
    exact smTick_flows w b i
  · rw [(smTick_local w b' i').sm b i h]

theorem tickSms_flows (w : World) (b b' : BlockAddr) (i : Fin 4) :
    (w.sm b i).Flows ((w.tickSms b').sm b i) := by
  apply tickSms_induction (P := fun v => (w.sm b i).Flows (v.sm b i))
  · exact fun v j hv =>
      hv.tail (.same _ (keeps_modifySm Sm.queues Sm.openWindow (fun _ => rfl) v b' b j i))
  · exact fun v j hv => hv.trans (smTick_flows_any v b b' i j)
  · exact fun v hv => by rwa [sm_resolvePads]
  · exact .refl

/-- What a call does to the queues of one state machine, host operations and resets apart. -/
theorem step_flows (w : World) {c : Call} {b : BlockAddr} {i : Fin 4}
    (hop : ∀ op, ¬ HostOp b i c op)
    (hinit : c ≠ .init b) (hsm : ∀ k pc cfg, smIdx k = i → c ≠ .smInit b k pc cfg) :
    (w.sm b i).Flows ((w.step c).sm b i) := by
  by_cases hd : c.Drives b i
  · cases c with
    | tickSms b' => exact tickSms_flows w b b' i
    | smExec b' k insn =>
      obtain ⟨rfl, rfl⟩ := Prod.mk.inj hd
      exact smExec_flows w _ _ insn
    | loadProgram b' k offset prog =>
      rcases w.loadProgram_cases b' (smIdx k) offset prog with h | ⟨words, -, h⟩
      · rw [step, h]
      · rw [step, h, ← sm_load w b' offset words]
        exact .of_queues
          (keeps_modifySm Sm.queues (·.startProgram offset prog) (fun _ => rfl) _ b' b _ i)
    | sm b' k op =>
      obtain ⟨rfl, hk⟩ := Prod.mk.inj hd
      exact absurd ⟨k, hk, rfl⟩ (hop op)
    | smInit b' k pc cfg =>
      obtain ⟨rfl, hk⟩ := Prod.mk.inj hd
      exact absurd rfl (hsm k pc cfg hk)
    | init b' => exact absurd (congrArg Call.init hd) hinit
    | _ => exact absurd hd id
  · exact .of_queues (keeps_step ⟨fun _ _ => rfl, fun _ _ => rfl, fun _ _ => rfl⟩ hd)

end World

/-! ### Host operations -/

namespace Sm

theorem effectiveJoin_idem (join : FifoJoin) :
    effectiveJoin (effectiveJoin join) = effectiveJoin join := by
  cases join <;> cases h : hasRxfifoMov <;> simp [effectiveJoin, h]

theorem txCapOf_effectiveJoin (join : FifoJoin) : txCapOf (effectiveJoin join) = txCapOf join := by
  cases join <;> cases h : hasRxfifoMov <;> simp [effectiveJoin, h, txCapOf]

theorem rxCapOf_effectiveJoin (join : FifoJoin) : rxCapOf (effectiveJoin join) = rxCapOf join := by
  cases join <;> cases h : hasRxfifoMov <;> simp [effectiveJoin, h, rxCapOf]

/-- A record whose FIFOs were just cleared. -/
theorem QueuesWf.of_clear {s : Sm} {f g : Fifo} (htx : s.tx = f.clear) (hrx : s.rx = g.clear)
    (htc : f.cap = txCapOf s.fifoJoin) (hrc : g.cap = rxCapOf s.fifoJoin)
    (hj : effectiveJoin s.fifoJoin = s.fifoJoin) : s.QueuesWf where
  tx_wf := htx ▸ .clear (htc ▸ txCapOf_le _)
  rx_wf := hrx ▸ .clear (hrc ▸ rxCapOf_le _)
  tx_cap := by rw [htx, Fifo.clear_cap, htc]
  rx_cap := by rw [hrx, Fifo.clear_cap, hrc]
  join_eff := hj
  regfile_empty _ := by rw [hrx]; rfl

theorem QueuesWf.initial : Sm.initial.QueuesWf :=
  .of_clear (f := Fifo.empty 4) (g := Fifo.empty 4) rfl rfl rfl rfl rfl

theorem QueuesWf.resetExec {s : Sm} (hs : s.QueuesWf) : s.resetExec.QueuesWf :=
  .of_clear (f := s.tx) (g := s.rx) rfl rfl hs.tx_cap hs.rx_cap hs.join_eff

theorem QueuesWf.clearFifos {s : Sm} (hs : s.QueuesWf) : s.clearFifos.QueuesWf :=
  .of_clear (f := s.tx) (g := s.rx) rfl rfl hs.tx_cap hs.rx_cap hs.join_eff

/-- A config write that keeps the effective join leaves the queues as they were. -/
theorem queues_setConfig_of_eq {s : Sm} (hs : s.QueuesWf) {c : SmConfig}
    (hj : effectiveJoin c.fifoJoin = s.fifoJoin) : (s.setConfig c).queues = s.queues := by
  have htx : txCapOf c.fifoJoin = s.tx.cap := by rw [hs.tx_cap, ← hj, txCapOf_effectiveJoin]
  have hrx : rxCapOf c.fifoJoin = s.rx.cap := by rw [hs.rx_cap, ← hj, rxCapOf_effectiveJoin]
  simp only [setConfig, applyFifoJoin, hj, htx, hrx, ne_eq, not_true_eq_false, if_false, queues]

/-- A config write that changes the effective join clears both FIFOs. -/
theorem setConfig_clears {s : Sm} {c : SmConfig} (hj : effectiveJoin c.fifoJoin ≠ s.fifoJoin) :
    (s.setConfig c).tx = Fifo.clear { s.tx with cap := txCapOf c.fifoJoin } ∧
      (s.setConfig c).rx = Fifo.clear { s.rx with cap := rxCapOf c.fifoJoin } := by
  simp only [setConfig, applyFifoJoin, ne_eq, hj, not_false_eq_true, if_true, and_self]

theorem fifoJoin_setConfig (s : Sm) (c : SmConfig) :
    (s.setConfig c).fifoJoin = effectiveJoin c.fifoJoin := by
  simp only [setConfig, applyFifoJoin]
  split <;> rfl

theorem QueuesWf.setConfig {s : Sm} (hs : s.QueuesWf) (c : SmConfig) :
    (s.setConfig c).QueuesWf := by
  by_cases hj : effectiveJoin c.fifoJoin = s.fifoJoin
  · exact hs.of_queues (queues_setConfig_of_eq hs hj)
  · obtain ⟨htx, hrx⟩ := setConfig_clears hj
    have hjoin := fifoJoin_setConfig s c
    exact .of_clear htx hrx (by rw [hjoin, txCapOf_effectiveJoin])
      (by rw [hjoin, rxCapOf_effectiveJoin]) (by rw [hjoin, effectiveJoin_idem])

theorem QueuesWf.init {s : Sm} (hs : s.QueuesWf) (pc : ℕ) (c : SmConfig) : (s.init pc c).QueuesWf :=
  have h := hs.setConfig c
  .of_clear (f := (s.setConfig c).tx) (g := (s.setConfig c).rx) rfl rfl h.tx_cap h.rx_cap
    h.join_eff

/-- `pio_sim_sm_put` queues the word it accepts. -/
theorem QueuesWf.put {s : Sm} (hs : s.QueuesWf) (word : Word) :
    (s.put word).1.QueuesWf ∧
      s.Ledger (if (s.put word).2 then [word] else []) [] (s.put word).1 := by
  unfold Sm.put
  split
  · exact ⟨hs.of_queues rfl, .of_queues rfl⟩
  · rename_i tx hp
    obtain ⟨hwf, hcont, hcap⟩ := hs.tx_wf.push hp
    refine ⟨⟨hwf, hs.rx_wf, hcap.trans hs.tx_cap, hs.rx_cap, hs.join_eff, hs.regfile_empty⟩,
      [], [], ?_⟩
    simp [hcont]

/-- `pio_sim_sm_get` returns the oldest queued word. -/
theorem QueuesWf.get {s : Sm} (hs : s.QueuesWf) :
    s.get.1.QueuesWf ∧ s.Ledger [] s.get.2.toList s.get.1 := by
  unfold Sm.get
  split
  · exact ⟨hs.of_queues rfl, .of_queues rfl⟩
  · rename_i v rx hp
    obtain ⟨hwf, hcont, hcap⟩ := hs.rx_wf.pop hp
    refine ⟨⟨hs.tx_wf, hwf, hs.tx_cap, hcap.trans hs.rx_cap, hs.join_eff, fun hr => ?_⟩,
      [], [], ?_⟩
    · have hz := hs.regfile_empty hr
      rw [(Fifo.pop_eq_none_iff s.rx).mpr hz] at hp
      cases hp
    · simp [hcont]

theorem QueuesWf.apply {s : Sm} (hs : s.QueuesWf) (op : SmOp) : (op.apply s).QueuesWf := by
  cases op with
  | restart => exact hs.resetExec
  | setConfig c => exact hs.setConfig c
  | put word => exact (hs.put word).1
  | get => exact hs.get.1
  | clearFifos => exact hs.clearFifos
  | rxfifoPut index word =>
    exact ⟨hs.tx_wf, hs.rx_wf.write_slot _ word, hs.tx_cap, hs.rx_cap, hs.join_eff,
      hs.regfile_empty⟩
  | _ => exact hs.of_queues rfl

end Sm

namespace World

theorem step_queuesWf {w : World} {b : BlockAddr} {i : Fin 4} (hw : (w.sm b i).QueuesWf)
    (c : Call) : ((w.step c).sm b i).QueuesWf := by
  by_cases hop : ∃ op, HostOp b i c op
  · obtain ⟨op, hop⟩ := hop
    rw [step_hostOp hop]
    exact hw.apply op
  · by_cases hinit : c = .init b
    · rw [hinit, step_init]
      exact .initial
    · by_cases hsm : ∃ k pc cfg, smIdx k = i ∧ c = .smInit b k pc cfg
      · obtain ⟨k, pc, cfg, rfl, rfl⟩ := hsm
        rw [step, smInit, sm_modifySm_self]
        exact hw.init pc cfg
      · refine ((step_flows w (not_exists.mp hop) hinit ?_).ledger hw).1
        exact fun k pc cfg hk hc => hsm ⟨k, pc, cfg, hk, hc⟩

/-- In every reachable state every FIFO is a well-formed ring of the capacity its join gives it. -/
theorem Reachable.queuesWf {w : World} (hw : w.Reachable) (b : BlockAddr) (i : Fin 4) :
    (w.sm b i).QueuesWf := by
  obtain ⟨cs, rfl⟩ := hw
  exact Run.invariant (I := fun v : World => (v.sm b i).QueuesWf) (C := fun _ _ => True)
    (fun _ c h _ => step_queuesWf h c) Sm.QueuesWf.initial
    (Run.along_of_forall (fun _ _ => trivial) initial cs)

/-- The calls that clear a FIFO of state machine `(b, i)` or overwrite a word queued in RX. -/
def clearsFifos (b : BlockAddr) (i : Fin 4) (w : World) : Call → Prop
  | .sm b' k op => (b', smIdx k) = (b, i) ∧ match op with
      | .restart => True
      | .clearFifos => True
      | .setConfig c => Sm.effectiveJoin c.fifoJoin ≠ (w.sm b i).fifoJoin
      | .rxfifoPut _ _ => (w.sm b i).rxFifoIsRegisterFile = false
      | _ => False
  | .smInit b' k _ _ => (b', smIdx k) = (b, i)
  | .init b' => b' = b
  | _ => False

/-- What one call that clears nothing does to the ledger. -/
theorem step_ledger {w : World} {b : BlockAddr} {i : Fin 4} (hw : (w.sm b i).QueuesWf) {c : Call}
    (hc : ¬ clearsFifos b i w c) :
    (w.sm b i).Ledger (accepted b i w c) (returned b i w c) ((w.step c).sm b i) := by
  by_cases hop : ∃ op, HostOp b i c op
  · obtain ⟨op, hop⟩ := hop
    rw [step_hostOp hop]
    obtain ⟨k, hk, rfl⟩ := hop
    cases op with
    | restart => exact absurd ⟨by rw [hk], trivial⟩ hc
    | clearFifos => exact absurd ⟨by rw [hk], trivial⟩ hc
    | setConfig c =>
      have hj : Sm.effectiveJoin c.fifoJoin = (w.sm b i).fifoJoin := by
        by_contra hne
        exact hc ⟨by rw [hk], hne⟩
      exact .of_queues (Sm.queues_setConfig_of_eq hw hj)
    | rxfifoPut index word =>
      have hreg : (w.sm b i).rxFifoIsRegisterFile = true := by
        by_contra hne
        exact hc ⟨by rw [hk], by simpa using hne⟩
      exact ((Sm.Effect.slot _ word hreg).ledger hw).2
    | put word => simpa [accepted, returned, hk, SmOp.apply] using (hw.put word).2
    | get => simpa [accepted, returned, hk, SmOp.apply] using hw.get.2
    | _ => exact .of_queues rfl
  · rw [not_exists] at hop
    obtain ⟨hacc, hret⟩ := no_words_of_not_hostOp (w := w) hop
    rw [hacc, hret]
    refine ((step_flows w hop ?_ ?_).ledger hw).2
    · rintro rfl
      exact hc rfl
    · rintro k pc cfg rfl rfl
      exact hc rfl

/-- The ledger of a run that clears nothing. -/
theorem run_ledger {w : World} {b : BlockAddr} {i : Fin 4} (hw : (w.sm b i).QueuesWf)
    {cs : List Call} (hc : Run.Along step (fun w c => ¬ clearsFifos b i w c) w cs) :
    (w.sm b i).Ledger (Run.collect step (accepted b i) w cs)
      (Run.collect step (returned b i) w cs) ((w.run cs).sm b i) := by
  induction cs generalizing w with
  | nil => exact .refl _
  | cons c cs ih => exact (step_ledger hw hc.1).trans (ih (step_queuesWf hw c) hc.2)

/-- The FIFOs of any state machine, from any reachable state, along any run that clears neither:
the words put leave TX for the OSR in order, the words drained from the ISR leave RX for `get` in
order, none lost or added. Each ring is a bounded queue of the capacity its join gives it, and a
config write leaves both queues alone or, when it changes the join, empties both. -/
theorem fifos_refine_queues {w : World} (hw : w.Reachable) (b : BlockAddr) (i : Fin 4)
    (cs : List Call) (hc : Run.Along step (fun w c => ¬ clearsFifos b i w c) w cs) :
    let s := w.sm b i
    let s' := (w.run cs).sm b i
    (∃ popped fresh, s'.pulled = s.pulled ++ popped ∧ s'.pushed = s.pushed ++ fresh ∧
      s.tx.contents ++ Run.collect step (accepted b i) w cs = popped ++ s'.tx.contents ∧
      s.rx.contents ++ fresh = Run.collect step (returned b i) w cs ++ s'.rx.contents) ∧
    (∀ f, f = s'.tx ∨ f = s'.rx → f.count ≤ f.cap ∧
      (∀ v, (f.push v).map Fifo.contents = RingBuffer.enqueue f.cap f.contents v) ∧
      f.pop.map (fun r => (r.1, r.2.contents)) = RingBuffer.dequeue f.contents) ∧
    (s'.tx.cap = Sm.txCapOf s'.fifoJoin ∧ s'.rx.cap = Sm.rxCapOf s'.fifoJoin) ∧
    ∀ c, let t := s'.setConfig c
      (Sm.effectiveJoin c.fifoJoin = s'.fifoJoin →
        t.tx.contents = s'.tx.contents ∧ t.rx.contents = s'.rx.contents) ∧
      (Sm.effectiveJoin c.fifoJoin ≠ s'.fifoJoin →
        t.tx.contents = [] ∧ t.rx.contents = [] ∧
          t.tx.count ≤ t.tx.cap ∧ t.rx.count ≤ t.rx.cap) := by
  have hs' : ((w.run cs).sm b i).QueuesWf := (hw.run cs).queuesWf b i
  refine ⟨run_ledger (hw.queuesWf b i) hc, ?_, ⟨hs'.tx_cap, hs'.rx_cap⟩, fun c => ⟨?_, ?_⟩⟩
  · rintro f (rfl | rfl)
    · exact ⟨hs'.tx_wf.count_le, hs'.tx_wf.push_refines, hs'.tx_wf.pop_refines⟩
    · exact ⟨hs'.rx_wf.count_le, hs'.rx_wf.push_refines, hs'.rx_wf.pop_refines⟩
  · intro hj
    have hq := Sm.queues_setConfig_of_eq hs' hj
    simp only [Sm.queues, Prod.mk.injEq] at hq
    exact ⟨by rw [hq.1], by rw [hq.2.1]⟩
  · intro hj
    obtain ⟨htx, hrx⟩ := Sm.setConfig_clears hj
    have hwf := hs'.setConfig c
    exact ⟨by rw [htx, Fifo.contents_clear], by rw [hrx, Fifo.contents_clear],
      hwf.tx_wf.count_le, hwf.rx_wf.count_le⟩

end World
end PioSim

namespace PioSim.World

local instance passedOnPlatform : Platform := ⟨.rp2350⟩

/-- Of two words put one is pulled, moved to the ISR, pushed and got back; the other waits. -/
def passedOn : List Call :=
  [.sm 0 0 (.put 5), .sm 0 0 (.put 7), .smExec 0 0 0x80A0, .smExec 0 0 0xA0C7, .smExec 0 0 0x8020,
    .sm 0 0 .get]

/-- The theorem at a run with words on every way: in and out of either FIFO. -/
theorem fifos_refine_queues_passedOn :
    ((initial.run passedOn).sm 0 0).pulled = [5] ∧ ((initial.run passedOn).sm 0 0).pushed = [5] ∧
      Run.collect step (returned 0 0) initial passedOn = [5] ∧
      ((initial.run passedOn).sm 0 0).tx.contents = [7] ∧
        ((initial.run passedOn).sm 0 0).rx.contents = [] := by
  have hclear : Run.Along step (fun w c => ¬ clearsFifos 0 0 w c) initial passedOn := by
    simp [passedOn, Run.Along, clearsFifos]
  have hpulled : ((initial.run passedOn).sm 0 0).pulled = [5] := by decide +kernel
  have hpushed : ((initial.run passedOn).sm 0 0).pushed = [5] := by decide +kernel
  have hin : Run.collect step (accepted 0 0) initial passedOn = [5, 7] := by decide +kernel
  have hout : Run.collect step (returned 0 0) initial passedOn = [5] := by decide +kernel
  have hstart : (initial.sm 0 0).pulled = [] ∧ (initial.sm 0 0).pushed = [] ∧
      (initial.sm 0 0).tx.contents = [] ∧ (initial.sm 0 0).rx.contents = [] := ⟨rfl, rfl, rfl, rfl⟩
  obtain ⟨⟨popped, fresh, hpopped, hfresh, htx, hrx⟩, -⟩ :=
    fifos_refine_queues (w := initial) ⟨[], rfl⟩ 0 0 passedOn hclear
  rw [hstart.1, hpulled, List.nil_append] at hpopped
  rw [hstart.2.1, hpushed, List.nil_append] at hfresh
  rw [hstart.2.2.1, hin, ← hpopped] at htx
  rw [hstart.2.2.2, hout, ← hfresh] at hrx
  exact ⟨hpulled, hpushed, hout, (List.cons.inj htx).2.symm, (List.cons.inj hrx).2.symm⟩

end PioSim.World
