import PioSim.Calls

/-!
# Bystanders

A reading of the memory that no state machine record, IRQ flag, fetch count or pad set takes part in
is left alone by everything that executes and by the calls on state machines and pads. Only the
calls that write a block or form a group can move it.
-/

namespace PioSim

variable [Platform]

/-- The calls that write a block outside its state machines and pads, or a group. -/
def Call.writesBlock : Call → Bool
  | .block .. | .init _ | .groupInit .. | .groupInitShared .. | .loadProgram .. | .tickEnd _ => true
  | _ => false

namespace World

variable {α : Type*} {g : World → α} {w : World} {b : BlockAddr} {i : Fin 4}

/-- `g` reads nothing that execution writes. -/
structure Bystander (g : World → α) : Prop where
  setSm : ∀ w b i s, g (w.setSm b i s) = g w
  setIrq : ∀ w b x, g (w.setIrq b x) = g w
  countFetch : ∀ w b i, g (w.countFetch b i) = g w
  setPads : ∀ w r p, g (w.setPads r p) = g w

namespace Bystander

omit [Platform] in
theorem foldl (w : World) {β : Type*} {f : World → β → World} (hf : ∀ v a, g (f v a) = g v)
    (l : List β) :
    g (l.foldl f w) = g w :=
  List.foldlRecOn (motive := fun v : World => g v = g w) l f rfl fun v hv a _ => (hf v a).trans hv

theorem closed (hg : Bystander g) (w : World) (b : BlockAddr) (i : Fin 4) :
    Closed (fun v => g v = g w) b i where
  record v s _ _ h := (hg.setSm v b i s).trans h
  irq v blk x h := (hg.setIrq v blk x).trans h
  fetch v h := (hg.countFetch v b i).trans h
  pins _ _ h := (hg.setPads _ _ _).trans ((hg.setSm _ b i _).trans h)

omit [Platform] in
theorem openWindow (hg : Bystander g) (w : World) (b : BlockAddr) : g (w.openWindow b) = g w :=
  foldl w (fun v i => hg.setSm v b i _) _

theorem tickSms (hg : Bystander g) (w : World) (b : BlockAddr) : g (w.tickSms b) = g w :=
  tickSms_induction (P := fun v => g v = g w) (fun v i h => (hg.setSm v b i _).trans h)
    (fun v i h =>
      (smTick_closed (hg.closed v b i) (fun _ hu => (hg.setSm _ b i _).trans hu) rfl).trans h)
    (fun _ h => (hg.setPads _ _ _).trans h) rfl

theorem setSmMaskEnabled (hg : Bystander g) (w : World) (b : BlockAddr) (mask : BitVec 8)
    (enabled : Bool) :
    g (w.setSmMaskEnabled b mask enabled) = g w := by
  refine (hg.setPads _ _ _).trans (foldl w (fun v i => ?_) _)
  split
  · exact hg.setSm v b i _
  · rfl

omit [Platform] in
theorem clkdivRestartSmMask (hg : Bystander g) (w : World) (b : BlockAddr) (mask : BitVec 8) :
    g (w.clkdivRestartSmMask b mask) = g w := by
  refine foldl w (fun v i => ?_) _
  split
  · exact hg.setSm v b i _
  · rfl

/-- No other call moves the reading. -/
theorem step (hg : Bystander g) (w : World) {c : Call} (hc : c.writesBlock = false) :
    g (w.step c) = g w := by
  cases c with
  | sm b k op => exact hg.setSm w b _ _
  | pad b op => exact hg.setPads w _ _
  | setEnabled b k enabled => exact (hg.setPads _ _ _).trans (hg.setSm w b _ _)
  | setSmMaskEnabled b mask enabled => exact hg.setSmMaskEnabled w b mask enabled
  | clkdivRestartSmMask b mask => exact hg.clkdivRestartSmMask w b mask
  | enableSmMaskInSync b mask =>
      exact (hg.clkdivRestartSmMask _ b mask).trans (hg.setSmMaskEnabled w b mask true)
  | setConsecutivePindirs b k base count isOut => exact (hg.setPads _ _ _).trans (hg.setSm w b _ _)
  | smInit b k pc cfg => exact hg.setSm w b _ _
  | smExec b k insn => exact smExec_closed (hg.closed w b _) insn rfl
  | gpioSetFunction b pin f => exact hg.setPads w _ _
  | tickSms b => exact hg.tickSms w b
  | groupOpen h => exact foldl w (fun v b => hg.openWindow v b) _
  | groupEnd h =>
    rw [World.step, groupEnd]
    split
    · exact hg.setPads w _ _
    · rfl
  | block | init | groupInit | groupInitShared | loadProgram | tickEnd => cases hc

/-- The end of a tick moves a reading only by the cycle count of its block. -/
theorem tickEnd (hg : Bystander g) (w : World) (b : BlockAddr)
    (hcycle : ∀ v : World, g
      (v.setBlock b { v.blocks b with cycle := (v.blocks b).cycle + 1 }) = g v) :
    g (w.tickEnd b) = g w := by
  unfold World.tickEnd
  simp only
  split
  · exact (hcycle _).trans (hg.setPads w _ _)
  · exact hcycle w

omit [Platform] in
/-- The loader moves a reading only by what it loads. -/
theorem loadProgram (hg : Bystander g) (w : World) (b : BlockAddr) (i : Fin 4) (offset : ℕ)
    (prog : PioProgram)
    (hload : ∀ words, g (w.setBlock b ((w.blocks b).load offset words)) = g w) :
    g (w.loadProgram b i offset prog) = g w := by
  rcases w.loadProgram_cases b i offset prog with he | ⟨words, -, he⟩
  · rw [he]
  · rw [he]
    exact (hg.setSm _ b i _).trans (hload words)

/-- `pio_sim_group_init` moves a reading only by the group and the neighbours. -/
theorem groupInit {g : World → α} (w : World) (k : GroupAddr) (blocks : List BlockAddr)
    (hgroup : ∀ x, g (w.setGroup k x) = g w)
    (hring : ∀ (v : World) b prev next, g
      (v.setBlock b ((v.blocks b).setIrqNeighbors prev next)) = g v) :
    g (w.groupInit k blocks) = g w := by
  unfold World.groupInit
  simp only
  split
  · refine (foldl _ (fun v j => ?_) _).trans (hgroup _)
    split
    · rfl
    · exact hring v _ _ _
  · exact hgroup _

end Bystander
end World
end PioSim
