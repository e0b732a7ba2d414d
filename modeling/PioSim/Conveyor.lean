import PioSim.Calls

/-!
# Programs that pass words through

A state machine whose program hands every word it takes from TX on to RX, unchanged and in order, is
a queue: `put` enters a word at one end, `get` takes one out at the other, and a tick only moves
words on inside. `Conveyor` lists what a program has to satisfy, instruction by instruction; that
the state machine then refines a queue is proved here once.
-/

namespace PioSim

variable [Platform]

namespace Sm

/-- A record up to what calls that do not drive the state machine may write. -/
def core (s : Sm) : Sm := { s with pins := PinRegs.none, enabled := false, clkAccum := 0 }

/-- What the words inside a state machine depend on: its configuration, program point and
registers. -/
def datapath (s : Sm) : SmConfig × ℕ × Bool × Word × Word × Word × ℕ × ℕ :=
  (s.config, s.pc, s.execPending, s.x, s.osr, s.isr, s.osrCount, s.isrCount)

/-- The address a committed instruction goes on to. -/
def nextPc (s : Sm) : ℕ := if s.pc = s.wrapTop then s.wrapBottom else (s.pc + 1) % 32

omit [Platform] in
theorem datapath_of_core {s s' : Sm} (h : s'.core = s.core) : s'.datapath = s.datapath := by
  have hd := congrArg datapath h
  exact hd

/-- The words `l` are on their way through the state machine, oldest first: those waiting in RX,
those `H` tells to be between the FIFOs, and those waiting in TX. -/
structure Carries (H : Sm → List Word → Prop) (s : Sm) (l : List Word) : Prop where
  tx_wf : s.tx.Wf
  rx_wf : s.rx.Wf
  inside : ∃ m, H s m ∧ l = s.rx.contents ++ m ++ s.tx.contents

section Fifos
variable {H G : Sm → List Word → Prop} {s s' : Sm} {m l : List Word}

section
omit [Platform]

/-- A change of the registers that moves no word through a FIFO. -/
theorem Carries.regs (h : Carries H s l) (htx : s'.tx = s.tx) (hrx : s'.rx = s.rx)
    (hH : ∀ m, H s m → G s' m) : Carries G s' l := by
  obtain ⟨m, hm, rfl⟩ := h.inside
  exact ⟨htx ▸ h.tx_wf, hrx ▸ h.rx_wf, m, hH m hm, by rw [htx, hrx]⟩

/-- An OSR refill takes the next word in. -/
theorem Carries.refill (h : Carries H s l) (hs : s.osrRefill = some s')
    (hH : ∀ m v, s'.osr = v → H s m → G s' (m ++ [v])) : Carries G s' l := by
  obtain ⟨v, tx, hpop, rfl⟩ := osrRefill_eq_some hs
  obtain ⟨hwf, hcont, -⟩ := h.tx_wf.pop hpop
  obtain ⟨m, hm, rfl⟩ := h.inside
  exact ⟨hwf, h.rx_wf, m ++ [v], hH m v rfl hm, by simp [hcont]⟩

/-- An ISR drain hands the oldest word out. -/
theorem Carries.drain (h : Carries H s l) (hs : s.isrDrain = some s')
    (hH : ∀ m, H s m → ∃ m', m = s.isr :: m' ∧ G s' m') : Carries G s' l := by
  obtain ⟨rx, hpush, rfl⟩ := isrDrain_eq_some hs
  obtain ⟨hwf, hcont, -⟩ := h.rx_wf.push hpush
  obtain ⟨m, hm, rfl⟩ := h.inside
  obtain ⟨m', rfl, hm'⟩ := hH m hm
  exact ⟨h.tx_wf, hwf, m', hm', by simp [hcont]⟩

/-- `put` enters the word it accepts. -/
theorem Carries.put (h : Carries H s l) (hH : ∀ m t, t.datapath = s.datapath → H s m → H t m)
    (v : Word) : Carries H (s.put v).1 (l ++ if (s.put v).2 then [v] else []) := by
  unfold Sm.put
  cases hpush : s.tx.push v with
  | none =>
    have hsame : Carries H { s with fdebug := s.fdebug ||| fdebugTxover } l :=
      h.regs rfl rfl fun m hm => hH m _ (by rfl) hm
    simpa using hsame
  | some tx =>
    obtain ⟨hwf, hcont, -⟩ := h.tx_wf.push hpush
    obtain ⟨m, hm, rfl⟩ := h.inside
    exact ⟨hwf, h.rx_wf, m, hH m _ (by rfl) hm, by simp [hcont]⟩

/-- `get` takes out the oldest word. -/
theorem Carries.get (h : Carries H s l) (hH : ∀ m t, t.datapath = s.datapath → H s m → H t m) :
    ∃ l', Carries H s.get.1 l' ∧ l = s.get.2.toList ++ l' := by
  unfold Sm.get
  cases hpop : s.rx.pop with
  | none => exact ⟨l, h.regs (by rfl) (by rfl) fun m hm => hH m _ (by rfl) hm, by rfl⟩
  | some r =>
    obtain ⟨hwf, hcont, -⟩ := h.rx_wf.pop (v := r.1) (g := r.2) hpop
    obtain ⟨m, hm, rfl⟩ := h.inside
    exact ⟨_, ⟨h.tx_wf, hwf, m, hH m _ (by rfl) hm, rfl⟩, by simp [hcont]⟩

end

/-! ### A freshly initialised state machine -/

theorem cap_setConfig (s : Sm) (c : SmConfig) : (s.setConfig c).tx.cap = txCapOf c.fifoJoin ∧
    (s.setConfig c).rx.cap = rxCapOf c.fifoJoin := by
  unfold setConfig applyFifoJoin
  simp only
  split <;> exact ⟨rfl, rfl⟩

theorem config_setConfig (s : Sm) (c : SmConfig) :
    (s.setConfig c).config = { c with fifoJoin := effectiveJoin c.fifoJoin } := by
  unfold setConfig applyFifoJoin
  simp only
  split <;> rfl

/-- `pio_sim_sm_init` leaves no word anywhere. -/
theorem Carries.init {c : SmConfig} {pc : ℕ} (hH : H (s.init pc c) []) :
    Carries H (s.init pc c) [] := by
  obtain ⟨htx, hrx⟩ := cap_setConfig s c
  exact ⟨.clear (htx ▸ txCapOf_le _), .clear (hrx ▸ rxCapOf_le _), [], hH, rfl⟩

end Fifos
end Sm

/-- A program that passes words through state machine `(b, i)`. -/
structure Conveyor (b : BlockAddr) (i : Fin 4) where
  /-- The program is in the instruction memory. -/
  Loaded : (Fin 32 → Insn) → Prop
  /-- The state machine is at a point of the program, with these words between its FIFOs. -/
  Holds : Sm → List Word → Prop
  datapath : ∀ {s s' m}, s'.datapath = s.datapath → Holds s m → Holds s' m
  fetches : ∀ {s m}, Holds s m → s.execPending = false
  /-- The background autopull appends the word it takes in. -/
  autopull : ∀ {s m v}, s.autopull = true → s.pullThresh ≤ s.osrCount → Holds s m →
    Holds { s with osr := v, osrCount := 0 } (m ++ [v])
  /-- An instruction of the program only works on the record and carries the words on. -/
  exec : ∀ {w : World} {l}, Loaded (w.blocks b).insn → Sm.Carries Holds (w.sm b i) l →
    ∃ s' stalled, w.execInsn b i (w.getInstruction b i) = ⟨w.setSm b i s', stalled, none⟩ ∧
      Sm.Carries Holds (if stalled then s' else { s' with pc := s'.nextPc }) l

namespace Conveyor

variable {b : BlockAddr} {i : Fin 4} (K : Conveyor b i) {w : World} {l : List Word} {c : Call}

/-- The state machine runs the program and carries the words `l`. -/
structure Carries (w : World) (l : List Word) : Prop where
  loaded : K.Loaded (w.blocks b).insn
  carries : (w.sm b i).Carries K.Holds l

variable {K}

theorem regs {s s' : Sm} (h : s.Carries K.Holds l) (htx : s'.tx = s.tx) (hrx : s'.rx = s.rx)
    (hd : s'.datapath = s.datapath) : s'.Carries K.Holds l :=
  h.regs htx hrx fun _ => K.datapath hd

theorem backgroundAutopull {s : Sm} (h : s.Carries K.Holds l) :
    s.backgroundAutopull.Carries K.Holds l := by
  unfold Sm.backgroundAutopull
  split
  · rename_i hpull
    simp only [Bool.and_eq_true, decide_eq_true_eq] at hpull
    cases hr : s.osrRefill with
    | none => exact h
    | some s' =>
      refine h.refill hr fun m v hv hm => ?_
      obtain ⟨v', tx, -, rfl⟩ := Sm.osrRefill_eq_some hr
      subst hv
      exact K.datapath (by rfl) (K.autopull hpull.1 hpull.2 hm)
  · exact h

theorem getInstruction_presentWorld (w : World) (b : BlockAddr) (i : Fin 4) :
    (w.presentWorld b i).getInstruction b i = w.getInstruction b i := by
  have hshell : (((w.cycleWorld b i).toppedUp b i).countFetch b i).shell =
      ((w.cycleWorld b i).toppedUp b i).shell := (World.countFetch_local _ b b i i).shell
  have hmem := World.insn_of_shell hshell b
  rw [← World.getInstruction_cycleWorld w, ← World.getInstruction_toppedUp (w.cycleWorld b i)]
  rw [World.presentWorld, World.getInstruction, World.getInstruction, World.sm_countFetch, hmem]

/-- A tick of the block carries the words on. -/
theorem tickSms (h : K.Carries w l) : K.Carries (w.tickSms b) l := by
  have hinsn : ((w.tickSms b).blocks b).insn = (w.blocks b).insn :=
    World.insn_of_shell (World.shell_tickSms w b) b
  refine ⟨by rw [hinsn]; exact h.loaded, ?_⟩
  by_cases hdue : w.due b i = true
  · have htop : (Sm.backgroundAutopull ((w.cycleWorld b i).sm b i)).Carries K.Holds l := by
      apply backgroundAutopull
      rw [World.sm_cycleWorld]
      exact regs h.carries (by rfl) (by rfl) (by rfl)
    by_cases hdelay : 0 < (w.sm b i).delay
    · rw [World.sm_tickSms_of_delay hdue hdelay]
      obtain ⟨r, hr⟩ := World.stickyReassert_eq
        { Sm.backgroundAutopull ((w.cycleWorld b i).sm b i) with delay := (w.sm b i).delay - 1 }
      rw [hr]
      exact regs htop (by rfl) (by rfl) (by rfl)
    · -- the word presented is one of the program's
      have hmem : ((w.presentWorld b i).blocks b).insn = (w.blocks b).insn :=
        World.insn_of_shell (World.shell_presentWorld w b i) b
      rw [← World.sm_presentWorld] at htop
      obtain ⟨s', stalled, hexec, hcarry⟩ := K.exec (by rw [hmem]; exact h.loaded) htop
      rw [getInstruction_presentWorld] at hexec
      have hpend : (w.sm b i).execPending = false := by
        obtain ⟨m, hm, -⟩ := h.carries.inside
        exact K.fetches hm
      obtain ⟨r, n, hr⟩ := World.sm_tickSms_of_record hdue (Nat.eq_zero_of_not_pos hdelay) hexec
      rw [hr, hpend]
      cases stalled with
      | true => exact regs hcarry (by rfl) (by rfl) (by rfl)
      | false => exact regs hcarry (by rfl) (by rfl) (by rfl)
  · obtain ⟨n, hn⟩ := World.sm_tickSms_of_not_due (Bool.eq_false_iff.mpr hdue)
    rw [hn]
    exact regs h.carries (by rfl) (by rfl) (by rfl)

/-- A call that changes nothing but what the conveyor does not depend on. -/
theorem of_core {w' : World} (h : K.Carries w l) (hcore : (w'.sm b i).core = (w.sm b i).core)
    (hinsn : (w'.blocks b).insn = (w.blocks b).insn) : K.Carries w' l := by
  have htx := congrArg Sm.tx hcore
  have hrx := congrArg Sm.rx hcore
  exact ⟨by rw [hinsn]; exact h.loaded, regs h.carries htx hrx (Sm.datapath_of_core hcore)⟩

/-- `put` enters the word it accepts. -/
theorem put (h : K.Carries w l) {k : ℕ} (hk : smIdx k = i) (v : Word) :
    K.Carries (w.step (.sm b k (.put v)))
      (l ++ if ((w.sm b i).put v).2 then [v] else []) := by
  refine ⟨?_, ?_⟩
  · rw [World.insn_step (c := .sm b k (.put v)) id]
    exact h.loaded
  · rw [World.step_hostOp ⟨k, hk, rfl⟩]
    exact h.carries.put (fun _ _ hd hm => K.datapath hd hm) v

/-- `get` takes out the oldest word. -/
theorem get (h : K.Carries w l) {k : ℕ} (hk : smIdx k = i) :
    ∃ l', K.Carries (w.step (.sm b k .get)) l' ∧ l = (w.sm b i).get.2.toList ++ l' := by
  obtain ⟨l', hl', he⟩ := h.carries.get fun _ _ hd hm => K.datapath hd hm
  refine ⟨l', ⟨?_, ?_⟩, he⟩
  · rw [World.insn_step (c := .sm b k .get) id]
    exact h.loaded
  · rw [World.step_hostOp ⟨k, hk, rfl⟩]
    exact hl'

end Conveyor

/-- The call neither drives the state machine nor loads its block. -/
def Call.Spares (b : BlockAddr) (i : Fin 4) (c : Call) : Prop := ¬ c.Drives b i ∧ ¬ c.Loads b

/-- What a host that only feeds a state machine does: tick its block, put and get words, and
whatever spares the state machine. -/
def Call.Feeds (b : BlockAddr) (i : Fin 4) (c : Call) : Prop :=
  c = .tickSms b ∨ (∃ v, World.HostOp b i c (.put v)) ∨ World.HostOp b i c .get ∨ c.Spares b i

theorem World.core_step {w : World} {c : Call} {b : BlockAddr} {i : Fin 4} (hc : ¬ c.Drives b i) :
    ((w.step c).sm b i).core = (w.sm b i).core :=
  World.keeps_step ⟨fun _ _ => rfl, fun _ _ => rfl, fun _ _ => rfl⟩ hc

namespace Conveyor

variable {b : BlockAddr} {i : Fin 4} {K : Conveyor b i} {w : World} {l : List Word} {c : Call}

theorem spares (h : K.Carries w l) (hc : c.Spares b i) : K.Carries (w.step c) l :=
  of_core h (World.core_step hc.1) (World.insn_step hc.2)

/-- One call: the words it accepts enter at one end, the words it returns leave at the other. -/
theorem step (h : K.Carries w l) (hc : c.Feeds b i) :
    ∃ l', K.Carries (w.step c) l' ∧
      l ++ World.accepted b i w c = World.returned b i w c ++ l' := by
  rcases hc with rfl | ⟨v, k, hk, rfl⟩ | ⟨k, hk, rfl⟩ | hc
  · exact ⟨l, tickSms h, List.append_nil l⟩
  · refine ⟨_, put h hk v, ?_⟩
    simp [World.accepted, World.returned, hk]
  · obtain ⟨l', hl', he⟩ := get h hk
    refine ⟨l', hl', ?_⟩
    simpa [World.accepted, World.returned, hk] using he
  · have hnone : ∀ op, ¬ World.HostOp b i c op := by
      rintro op ⟨k, hk, rfl⟩
      exact hc.1 (by rw [Call.Drives, hk])
    obtain ⟨hacc, hret⟩ := World.no_words_of_not_hostOp (w := w) hnone
    exact ⟨l, spares h hc, by rw [hacc, hret, List.append_nil, List.nil_append]⟩

/-- A run that only feeds the state machine refines a queue: the words held at first and the words
accepted are the words returned and the words still held. -/
theorem run {cs : List Call} (h : K.Carries w l) (hc : ∀ c ∈ cs, c.Feeds b i) :
    ∃ l', K.Carries (w.run cs) l' ∧
      l ++ Run.collect World.step (World.accepted b i) w cs =
        Run.collect World.step (World.returned b i) w cs ++ l' := by
  induction cs generalizing w l with
  | nil => exact ⟨l, h, List.append_nil l⟩
  | cons c cs ih =>
    obtain ⟨l₁, h₁, he₁⟩ := step h (hc c List.mem_cons_self)
    obtain ⟨l₂, h₂, he₂⟩ := ih h₁ fun d hd => hc d (List.mem_cons_of_mem c hd)
    refine ⟨l₂, h₂, ?_⟩
    rw [Run.collect, Run.collect, ← List.append_assoc, he₁, List.append_assoc, he₂,
      List.append_assoc]

end Conveyor
end PioSim
