import PioSim.Share

/-!
# What a call leaves alone

A call only reaches the record of a state machine by letting it run, by an operation on it or by
resetting it. Any reading of the record outside the pin registers, the enable bit and the divider is
kept by all other calls.
-/

namespace PioSim

variable [Platform]

omit [Platform] in
theorem Sm.put_eq (s : Sm) (word : Word) :
    ∃ f t, (s.put word).1 = { s with fdebug := f, tx := t } := by
  unfold Sm.put
  split
  · exact ⟨_, s.tx, rfl⟩
  · exact ⟨s.fdebug, _, rfl⟩

omit [Platform] in
theorem Sm.get_eq (s : Sm) : ∃ f r, s.get.1 = { s with fdebug := f, rx := r } := by
  unfold Sm.get
  split
  · exact ⟨_, s.rx, rfl⟩
  · exact ⟨s.fdebug, _, rfl⟩

theorem BlockOp.sm_apply (p : Pio) (op : BlockOp) : (op.apply p).sm = p.sm := by
  cases op with
  | load offset insns =>
    refine List.foldlRecOn (motive := fun q : Pio => q.sm = p.sm) _ _ rfl ?_
    intro q hq x _
    simp only
    split <;> exact hq
  | _ => rfl

namespace World

@[simp] theorem sm_groupInit (w : World) (g : GroupAddr) (blocks : List BlockAddr) :
    (w.groupInit g blocks).sm = w.sm := by
  unfold groupInit
  simp only
  split
  · refine List.foldlRecOn (motive := fun v : World => v.sm = w.sm) _ _ rfl ?_
    intro v hv k _
    split
    · exact hv
    · exact (sm_setBlock (by rfl)).trans hv
  · rfl

@[simp] theorem sm_groupInitShared (w : World) (g : GroupAddr) (blocks : List BlockAddr) :
    (w.groupInitShared g blocks).sm = w.sm := by
  refine List.foldlRecOn (motive := fun v : World => v.sm = w.sm) _ _ (sm_groupInit w g blocks) ?_
  intro v hv c _
  exact (sm_setBlock (by rfl)).trans hv

theorem sm_load (w : World) (b : BlockAddr) (offset : ℕ) (words : List Insn) :
    (w.setBlock b ((w.blocks b).load offset words)).sm = w.sm :=
  sm_setBlock (BlockOp.sm_apply _ (.load offset words))

omit [Platform] in
/-- What `pio_asm_load_program` does is decided by the program and the offset alone. -/
theorem loadProgram_uniform (b : BlockAddr) (i : Fin 4) (offset : ℕ) (prog : PioProgram) :
    (∀ w : World, w.loadProgram b i offset prog = w) ∨
      ∃ words, prog.relocated offset = some words ∧ ∀ w : World, w.loadProgram b i offset prog =
        (w.setBlock b ((w.blocks b).load offset words)).modifySm b i
          (·.startProgram offset prog) := by
  by_cases hok : prog.ok = true
  · cases hwords : prog.relocated offset with
    | none => exact .inl fun w => by simp [loadProgram, pioAsmLoadProgram, hok, hwords]
    | some words =>
      by_cases hfits : prog.fits offset = true
      · exact .inr ⟨words, rfl,
          fun w => by simp [loadProgram, pioAsmLoadProgram, hok, hwords, hfits]⟩
      · exact .inl fun w => by simp [loadProgram, pioAsmLoadProgram, hok, hwords, hfits]
  · exact .inl fun w => by simp [loadProgram, pioAsmLoadProgram, hok]

omit [Platform] in
theorem loadProgram_cases (w : World) (b : BlockAddr) (i : Fin 4) (offset : ℕ)
    (prog : PioProgram) : w.loadProgram b i offset prog = w ∨
      ∃ words, prog.relocated offset = some words ∧ w.loadProgram b i offset prog =
        (w.setBlock b ((w.blocks b).load offset words)).modifySm b i
          (·.startProgram offset prog) := by
  rcases loadProgram_uniform b i offset prog with h | ⟨words, hwords, h⟩
  · exact .inl (h w)
  · exact .inr ⟨words, hwords, h w⟩

/-- The call is the host operation `op` on state machine `(b, i)`. -/
def HostOp (b : BlockAddr) (i : Fin 4) (c : Call) (op : SmOp) : Prop :=
  ∃ k, smIdx k = i ∧ c = .sm b k op

theorem step_hostOp {w : World} {b : BlockAddr} {i : Fin 4} {c : Call} {op : SmOp}
    (h : HostOp b i c op) : (w.step c).sm b i = op.apply (w.sm b i) := by
  obtain ⟨k, rfl, rfl⟩ := h
  rw [step, sm_modifySm_self]

omit [Platform] in
/-- Only the host operations on a state machine move words through its outer FIFO ends. -/
theorem no_words_of_not_hostOp {w : World} {b : BlockAddr} {i : Fin 4} {c : Call}
    (h : ∀ op, ¬ HostOp b i c op) : accepted b i w c = [] ∧ returned b i w c = [] := by
  cases c with
  | sm b' k op =>
    have hne : ¬ (b', smIdx k) = (b, i) := by
      intro he
      obtain ⟨rfl, hk⟩ := Prod.mk.inj he
      exact h op ⟨k, hk, rfl⟩
    cases op <;> simp [accepted, returned, hne]
  | _ => exact ⟨rfl, rfl⟩

omit [Platform] in
theorem sm_pioSimInit (w : World) (b c : BlockAddr) (i : Fin 4) :
    (w.pioSimInit b).sm c i = if c = b then Sm.initial else w.sm c i := by
  by_cases h : c = b
  · subst h
    simp [pioSimInit, setBlock, sm, Pio.initial]
  · simp [pioSimInit, setBlock, sm, h]

theorem step_init (w : World) (b : BlockAddr) (i : Fin 4) :
    (w.step (.init b)).sm b i = Sm.initial := by
  rw [step, sm_pioSimInit, if_pos rfl]

end World

/-- The calls that let state machine `(b, i)` run, operate on its record or reset it. -/
def Call.Drives (b : BlockAddr) (i : Fin 4) : Call → Prop
  | .tickSms b' => b' = b
  | .init b' => b' = b
  | .sm b' k _ => (b', smIdx k) = (b, i)
  | .smInit b' k _ _ => (b', smIdx k) = (b, i)
  | .smExec b' k _ => (b', smIdx k) = (b, i)
  | .loadProgram b' k _ _ => (b', smIdx k) = (b, i)
  | _ => False

/-- The calls that write the instruction memory of block `b`. -/
def Call.Loads (b : BlockAddr) : Call → Prop
  | .block b' (.load _ _) => b' = b
  | .init b' => b' = b
  | .loadProgram b' _ _ _ => b' = b
  | _ => False

namespace World

section Keeps
variable {α : Type} {g : Sm → α}

/-- `g` reads neither the pin registers nor the enable bit nor the divider. -/
structure Steady (g : Sm → α) : Prop where
  pins : ∀ s r, g { s with pins := r } = g s
  enabled : ∀ s e, g { s with enabled := e } = g s
  clkAccum : ∀ s n, g { s with clkAccum := n } = g s

omit [Platform] in
theorem keeps_modifySm (g : Sm → α) (f : Sm → Sm) (hf : ∀ s, g (f s) = g s) (w : World)
    (b c : BlockAddr) (i j : Fin 4) : g ((w.modifySm b i f).sm c j) = g (w.sm c j) := by
  by_cases h : (c, j) = (b, i)
  · obtain ⟨rfl, rfl⟩ := Prod.mk.inj h
    rw [sm_modifySm_self, hf]
  · rw [sm_modifySm_of_ne h]

theorem keeps_setSmMaskEnabled (hg : Steady g) (w : World) (b c : BlockAddr) (j : Fin 4)
    (mask : BitVec 8) (enabled : Bool) :
    g ((w.setSmMaskEnabled b mask enabled).sm c j) = g (w.sm c j) := by
  rw [setSmMaskEnabled, sm_resolvePads]
  refine List.foldlRecOn (motive := fun v : World => g (v.sm c j) = g (w.sm c j)) _ _ rfl ?_
  intro v hv i _
  split
  · exact (keeps_modifySm g _ (fun s => hg.enabled s enabled) v b c i j).trans hv
  · exact hv

omit [Platform] in
theorem keeps_clkdivRestartSmMask (hg : Steady g) (w : World) (b c : BlockAddr) (j : Fin 4)
    (mask : BitVec 8) : g ((w.clkdivRestartSmMask b mask).sm c j) = g (w.sm c j) := by
  refine List.foldlRecOn (motive := fun v : World => g (v.sm c j) = g (w.sm c j)) _ _ rfl ?_
  intro v hv i _
  split
  · exact (keeps_modifySm g _ (fun s => hg.clkAccum s 0) v b c i j).trans hv
  · exact hv

omit [Platform] in
theorem keeps_openWindow (hg : Steady g) (w : World) (b c : BlockAddr) (j : Fin 4) :
    g ((w.openWindow b).sm c j) = g (w.sm c j) := by
  rw [sm_openWindow]
  split
  · exact hg.pins _ _
  · rfl

/-- A call that does not drive a state machine keeps every steady reading of its record. -/
theorem keeps_step (hg : Steady g) {w : World} {c : Call} {b : BlockAddr} {i : Fin 4}
    (hc : ¬ c.Drives b i) : g ((w.step c).sm b i) = g (w.sm b i) := by
  cases c with
  | sm b' k op => rw [step, sm_modifySm_of_ne fun h => hc h.symm]
  | smInit b' k pc cfg => rw [step, smInit, sm_modifySm_of_ne fun h => hc h.symm]
  | smExec b' k insn => rw [step, (smExec_local w b' (smIdx k) insn).sm b i fun h => hc h.symm]
  | init b' => rw [step, sm_pioSimInit, if_neg fun h => hc h.symm]
  | tickSms b' => rw [step, sm_tickSms_of_ne w fun h => hc h.symm]
  | loadProgram b' k offset prog =>
    rcases w.loadProgram_cases b' (smIdx k) offset prog with h | ⟨words, -, h⟩
    · rw [step, h]
    · rw [step, h, sm_modifySm_of_ne fun h => hc h.symm, sm_load]
  | block b' op => rw [step, sm_setBlock (BlockOp.sm_apply _ op)]
  | pad b' op => rw [step, sm_modifyPads]
  | setEnabled b' k enabled =>
    rw [step, smSetEnabled, sm_resolvePads]
    exact keeps_modifySm g _ (fun s => hg.enabled s enabled) w b' b _ i
  | setSmMaskEnabled b' mask enabled => exact keeps_setSmMaskEnabled hg w b' b i mask enabled
  | clkdivRestartSmMask b' mask => exact keeps_clkdivRestartSmMask hg w b' b i mask
  | enableSmMaskInSync b' mask =>
    exact (keeps_clkdivRestartSmMask hg _ b' b i mask).trans
      (keeps_setSmMaskEnabled hg w b' b i mask true)
  | setConsecutivePindirs b' k base count isOut =>
    rw [step, smSetConsecutivePindirs, sm_resolvePads]
    exact keeps_modifySm g _ (fun s => hg.pins s _) w b' b _ i
  | gpioSetFunction b' pin f => rw [step, gpioSetFunction, sm_modifyPads]
  | groupInit gr blocks => rw [step, sm_groupInit]
  | groupInitShared gr blocks => rw [step, sm_groupInitShared]
  | tickEnd b' => rw [step, sm_tickEnd]
  | groupOpen gr =>
    refine List.foldlRecOn (motive := fun v : World => g (v.sm b i) = g (w.sm b i)) _ _ rfl ?_
    exact fun v hv b' _ => (keeps_openWindow hg v b' b i).trans hv
  | groupEnd gr =>
    rw [step, groupEnd]
    split
    · rw [sm_setPads]
    · rfl

end Keeps

/-! ### Instruction memory -/

omit [Platform] in
theorem insn_setBlock {w : World} {b c : BlockAddr} {p : Pio}
    (h : c = b → p.insn = (w.blocks c).insn) :
    ((w.setBlock b p).blocks c).insn = (w.blocks c).insn := by
  by_cases hcb : c = b
  · subst hcb
    simp only [setBlock, Function.update_self]
    exact h rfl
  · simp only [setBlock, Function.update_of_ne hcb]

omit [Platform] in
theorem insn_of_shell {w w' : World} (h : w'.shell = w.shell) (c : BlockAddr) :
    (w'.blocks c).insn = (w.blocks c).insn := congrArg Prod.fst (congrFun h c)

theorem insn_groupInit (w : World) (g : GroupAddr) (blocks : List BlockAddr) (c : BlockAddr) :
    ((w.groupInit g blocks).blocks c).insn = (w.blocks c).insn := by
  unfold groupInit
  simp only
  split
  · refine List.foldlRecOn
      (motive := fun v : World => (v.blocks c).insn = (w.blocks c).insn) _ _ rfl ?_
    intro v hv k _
    split
    · exact hv
    · exact (insn_setBlock fun he => by rw [he]; rfl).trans hv
  · rfl

theorem insn_groupInitShared (w : World) (g : GroupAddr) (blocks : List BlockAddr) (c : BlockAddr) :
    ((w.groupInitShared g blocks).blocks c).insn = (w.blocks c).insn := by
  refine List.foldlRecOn (motive := fun v : World => (v.blocks c).insn = (w.blocks c).insn) _ _
    (insn_groupInit w g blocks c) ?_
  intro v hv b _
  exact (insn_setBlock fun he => by rw [he]).trans hv

omit [Platform] in
theorem shell_foldl_modifySm (w : World) (b : BlockAddr) (p : Fin 4 → Bool) (f : Sm → Sm)
    (l : List (Fin 4)) :
    (l.foldl (fun w i => if p i then w.modifySm b i f else w) w).shell = w.shell := by
  refine List.foldlRecOn (motive := fun v : World => v.shell = w.shell) _ _ rfl ?_
  intro v hv i _
  split
  · exact (shell_modifySm b i f).trans hv
  · exact hv

theorem shell_setSmMaskEnabled (w : World) (b : BlockAddr) (mask : BitVec 8) (enabled : Bool) :
    (w.setSmMaskEnabled b mask enabled).shell = w.shell :=
  (shell_resolvePads b).trans (shell_foldl_modifySm w b _ _ _)

omit [Platform] in
theorem shell_clkdivRestartSmMask (w : World) (b : BlockAddr) (mask : BitVec 8) :
    (w.clkdivRestartSmMask b mask).shell = w.shell := shell_foldl_modifySm w b _ _ _

theorem shell_tickEnd (w : World) (b : BlockAddr) : (w.tickEnd b).shell = w.shell := by
  unfold tickEnd
  simp only
  split
  · exact (shell_setBlock (by rfl) (by rfl) (by rfl) (by rfl)).trans (shell_modifyPads b _)
  · exact shell_setBlock (by rfl) (by rfl) (by rfl) (by rfl)

/-- Only loading a program or initialising the block writes its instruction memory. -/
theorem insn_step {w : World} {c : Call} {b : BlockAddr} (hc : ¬ c.Loads b) :
    ((w.step c).blocks b).insn = (w.blocks b).insn := by
  cases c with
  | sm b' k op => rw [step, insn_modifySm]
  | block b' op =>
    refine insn_setBlock fun he => ?_
    cases op with
    | load offset words => exact absurd he.symm hc
    | _ =>
      rw [he]
      rfl
  | pad b' op => exact insn_of_shell (shell_modifyPads _ _) b
  | init b' => exact insn_setBlock fun he => absurd he.symm hc
  | setEnabled b' k enabled =>
    exact insn_of_shell ((shell_resolvePads _).trans (shell_modifySm _ _ _)) b
  | setSmMaskEnabled b' mask enabled => exact insn_of_shell (shell_setSmMaskEnabled w b' mask _) b
  | clkdivRestartSmMask b' mask => exact insn_of_shell (shell_clkdivRestartSmMask w b' mask) b
  | enableSmMaskInSync b' mask =>
    exact insn_of_shell
      ((shell_clkdivRestartSmMask _ b' mask).trans (shell_setSmMaskEnabled w b' mask true)) b
  | setConsecutivePindirs b' k base count isOut =>
    exact insn_of_shell ((shell_resolvePads _).trans (shell_modifySm _ _ _)) b
  | smInit b' k pc cfg => rw [step, smInit, insn_modifySm]
  | smExec b' k insn => exact insn_of_shell (smExec_local w b' (smIdx k) insn).shell b
  | gpioSetFunction b' pin f => exact insn_of_shell (shell_modifyPads _ _) b
  | groupInit g blocks => exact insn_groupInit w g blocks b
  | groupInitShared g blocks => exact insn_groupInitShared w g blocks b
  | loadProgram b' k offset prog =>
    rcases w.loadProgram_cases b' (smIdx k) offset prog with h | ⟨words, -, h⟩
    · rw [step, h]
    · rw [step, h, insn_modifySm]
      exact insn_setBlock fun he => absurd he.symm hc
  | tickSms b' => exact insn_of_shell (shell_tickSms w b') b
  | tickEnd b' => exact insn_of_shell (shell_tickEnd w b') b
  | groupOpen g =>
    refine insn_of_shell ?_ b
    exact List.foldlRecOn (motive := fun v : World => v.shell = w.shell) _ _ rfl
      fun v hv b' _ => (shell_openWindow v b').trans hv
  | groupEnd g =>
    rw [step, groupEnd]
    split
    · exact insn_of_shell (shell_setPads _ _) b
    · rfl

end World
end PioSim
