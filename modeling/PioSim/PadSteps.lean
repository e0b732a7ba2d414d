import PioSim.Synchroniser

/-!
# What calls do to a pad set

Whatever runs, a pad set changes by arbitration, by its own setters, by FUNCSEL writes and by
clockings, or a call initialises it afresh. What these steps keep, a run keeps.
-/

namespace PioSim

variable [Platform]

open Relation

namespace Pads

/-- One thing a call may do to a pad set, with the setters that `allows` admits. -/
inductive Step (allows : PadOp → Prop) : Pads → Pads → Prop
  | resolve (sm : BlockAddr → Fin 4 → Sm) (p : Pads) : Step allows p (p.resolve sm)
  | setter (p : Pads) (op : PadOp) : allows op → Step allows p (op.apply p)
  | gpioSetFunction (sm : BlockAddr → Fin 4 → Sm) (p : Pads) (pin f : ℕ) :
    Step allows p (p.gpioSetFunction sm pin f)
  | clockSync (p : Pads) : Step allows p p.clockSync

abbrev Steps (allows : PadOp → Prop) : Pads → Pads → Prop := ReflTransGen (Step allows)

/-- What every step keeps, a chain of them keeps. -/
theorem Steps.invariant {allows : PadOp → Prop} {I : Pads → Prop}
    (hstep : ∀ {p q}, Step allows p q → I p → I q) {p q : Pads} (h : p.Steps allows q) (hp : I p) :
    I q := by
  induction h with
  | refl => exact hp
  | tail _ hs ih => exact hstep hs ih

end Pads

namespace World

variable {allows : PadOp → Prop} {w v : World} {p : Pads} {b : BlockAddr} {i : Fin 4} {r : PadRef}

/-- The setters the call applies to pad set `r` are admitted. -/
def Admits (allows : PadOp → Prop) (r : PadRef) (w : World) (c : Call) : Prop :=
  ∀ b op, c = .pad b op → w.padRef b = r → allows op

theorem steps_setPads {r' : PadRef} {q : Pads} (h : p.Steps allows (v.padsAt r))
    (hq : r' = r → Pads.Step allows (v.padsAt r) q) :
    p.Steps allows ((v.setPads r' q).padsAt r) := by
  by_cases hr : r' = r
  · subst hr
    rw [padsAt_setPads_self]
    exact h.tail (hq rfl)
  · rw [padsAt_setPads_of_ne (Ne.symm hr)]
    exact h

theorem steps_modifyPads {f : Pads → Pads} (hf : ∀ q, Pads.Step allows q (f q))
    (h : p.Steps allows (v.padsAt r)) (b : BlockAddr) :
    p.Steps allows ((v.modifyPads b f).padsAt r) :=
  steps_setPads h fun hr => by
    have hstep := hf (v.pads b)
    rwa [pads, hr] at hstep ⊢

theorem steps_resolvePads (h : p.Steps allows (v.padsAt r)) (b : BlockAddr) :
    p.Steps allows ((v.resolvePads b).padsAt r) := steps_modifyPads (.resolve v.sm) h b

theorem steps_modifySm (h : p.Steps allows (v.padsAt r)) (b : BlockAddr) (i : Fin 4) (f : Sm → Sm) :
    p.Steps allows ((v.modifySm b i f).padsAt r) := by
  rw [padsAt_modifySm]
  exact h

theorem steps_setBlock {blk : Pio} (h : p.Steps allows (v.padsAt r))
    (hb : blk.padsEmbedded = (v.blocks b).padsEmbedded) :
    p.Steps allows ((v.setBlock b blk).padsAt r) := by
  rw [padsAt_setBlock hb]
  exact h

theorem steps_closed (allows : PadOp → Prop) (p : Pads) (r : PadRef) (b : BlockAddr) (i : Fin 4) :
    Closed (fun v => p.Steps allows (v.padsAt r)) b i where
  record v s _ _ hv := by
    rw [padsAt_setSm]
    exact hv
  irq v blk x hv := by
    rw [padsAt_setIrq]
    exact hv
  fetch v hv := by
    unfold countFetch
    split
    · exact hv
    · exact steps_setBlock hv rfl
  pins _ _ hv := steps_resolvePads (steps_modifySm hv _ _ _) b

theorem steps_foldl {α : Type} {g : World → α → World}
    (hg : ∀ v a, p.Steps allows (v.padsAt r) → p.Steps allows ((g v a).padsAt r)) (l : List α)
    (h : p.Steps allows (v.padsAt r)) : p.Steps allows ((l.foldl g v).padsAt r) :=
  List.foldlRecOn (motive := fun v : World => p.Steps allows (v.padsAt r)) _ _ h
    fun v hv a _ => hg v a hv

theorem steps_setSmMaskEnabled (h : p.Steps allows (v.padsAt r)) (b : BlockAddr) (mask : BitVec 8)
    (enabled : Bool) : p.Steps allows ((v.setSmMaskEnabled b mask enabled).padsAt r) := by
  refine steps_resolvePads (steps_foldl (fun u k hu => ?_) _ h) b
  split
  · exact steps_modifySm hu ..
  · exact hu

theorem steps_clkdivRestartSmMask (h : p.Steps allows (v.padsAt r)) (b : BlockAddr)
    (mask : BitVec 8) :
    p.Steps allows ((v.clkdivRestartSmMask b mask).padsAt r) := by
  refine steps_foldl (fun u k hu => ?_) _ h
  split
  · exact steps_modifySm hu ..
  · exact hu

theorem steps_tickSms (h : p.Steps allows (v.padsAt r)) (b : BlockAddr) :
    p.Steps allows ((v.tickSms b).padsAt r) :=
  tickSms_induction (P := fun u => p.Steps allows (u.padsAt r))
    (fun _ k hu => steps_modifySm hu b k _)
    (fun _ k hu => smTick_closed (steps_closed allows p r b k)
      (fun _ hx => steps_modifySm hx b k _) hu)
    (fun _ hu => steps_resolvePads hu b) h

theorem steps_openWindow (h : p.Steps allows (v.padsAt r)) (b : BlockAddr) :
    p.Steps allows ((v.openWindow b).padsAt r) :=
  openWindow_induction (P := fun u => p.Steps allows (u.padsAt r))
    (fun _ k hu => steps_modifySm hu b k _) h

theorem padsAt_groupInit (w : World) (g : GroupAddr) (blocks : List BlockAddr) :
    (w.groupInit g blocks).padsAt = w.padsAt := by
  have hgroup :
    (w.setGroup g { w.groups g with blk := blocks.take numPio, shared := false }).padsAt =
      w.padsAt := by
    funext r
    cases r with
    | embedded b => rfl
    | shared g' =>
      by_cases hg : g' = g
      · subst hg
        simp [padsAt, setGroup]
      · simp [padsAt, setGroup, hg]
  unfold groupInit
  dsimp only
  split
  · refine List.foldlRecOn (motive := fun v : World => v.padsAt = w.padsAt) _ _ hgroup ?_
    intro v hv k _
    split
    · exact hv
    · exact (padsAt_setBlock (by rfl)).trans hv
  · exact hgroup

theorem padsAt_groupInitShared (w : World) (g : GroupAddr) (blocks : List BlockAddr)
    (hr : r ≠ .shared g) : (w.groupInitShared g blocks).padsAt r = w.padsAt r := by
  obtain ⟨-, hpads, -⟩ := foldl_setPadRef g (blocks.take numPio)
    ((w.groupInit g blocks).setGroup g { (w.groupInit g blocks).groups g with
      shared := true, pads := Pads.initDefaults (blocks.take numPio) })
  refine (congrFun hpads r).trans ?_
  rw [← padsAt_groupInit w g blocks]
  cases r with
  | embedded c => rfl
  | shared g' =>
    have hg : g' ≠ g := fun he => hr (by rw [he])
    simp [padsAt, setGroup, Function.update_of_ne hg]

omit [Platform] in
theorem padsAt_load (w : World) (b : BlockAddr) (offset : ℕ) (insns : List Insn) :
    (w.setBlock b ((w.blocks b).load offset insns)).padsAt = w.padsAt := by
  refine padsAt_setBlock ?_
  refine List.foldlRecOn (motive := fun q : Pio => q.padsEmbedded = (w.blocks b).padsEmbedded)
    _ _ rfl ?_
  intro q hq x _
  dsimp only
  split <;> exact hq

/-- A call takes a pad set through the steps above, unless it initialises it. -/
theorem steps_step {c : Call} (hc : Admits allows r w c) (hinit : reinits r c = false) :
    (w.padsAt r).Steps allows ((w.step c).padsAt r) := by
  have hself : (w.padsAt r).Steps allows (w.padsAt r) := .refl
  cases c with
  | sm b k op =>
    rw [step]
    exact steps_modifySm hself ..
  | block b op =>
    rw [step]
    cases op with
    | load offset insns =>
      rw [BlockOp.apply, padsAt_load]
    | _ => exact steps_setBlock hself rfl
  | pad b op =>
    refine steps_setPads hself fun hr => ?_
    subst hr
    exact .setter _ op (hc b op rfl rfl)
  | init b =>
    have hr : r ≠ .embedded b := by simpa [reinits] using hinit
    cases r with
    | embedded b' =>
      have hb : b' ≠ b := fun he => hr (by rw [he])
      have hsame : (w.step (.init b)).padsAt (.embedded b') = w.padsAt (.embedded b') := by
        simp [step, pioSimInit, padsAt, setBlock, hb]
      rw [hsame]
    | shared g => exact hself
  | setEnabled b k enabled => exact steps_resolvePads (steps_modifySm hself b (smIdx k) _) b
  | setSmMaskEnabled b mask enabled => exact steps_setSmMaskEnabled hself b mask enabled
  | clkdivRestartSmMask b mask => exact steps_clkdivRestartSmMask hself b mask
  | enableSmMaskInSync b mask =>
    exact steps_clkdivRestartSmMask (steps_setSmMaskEnabled hself b mask true) b mask
  | setConsecutivePindirs b k base count isOut =>
    exact steps_resolvePads (steps_modifySm hself b (smIdx k) _) b
  | smInit b k pc cfg => exact steps_modifySm hself b (smIdx k) (·.init pc cfg)
  | smExec b k insn => exact smExec_closed (steps_closed allows _ r b (smIdx k)) insn hself
  | gpioSetFunction b pin f =>
    exact steps_modifyPads (fun q => .gpioSetFunction w.sm q pin f) hself b
  | groupInit g blocks =>
    rw [step, padsAt_groupInit]
  | groupInitShared g blocks =>
    have hr : r ≠ .shared g := by simpa [reinits] using hinit
    rw [step, padsAt_groupInitShared w g blocks hr]
  | loadProgram b k offset prog =>
    rcases w.loadProgram_cases b (smIdx k) offset prog with h | ⟨words, -, h⟩
    · rw [step, h]
    · rw [step, h, padsAt_modifySm, padsAt_load]
  | tickSms b => exact steps_tickSms hself b
  | tickEnd b =>
    refine steps_setBlock ?_ rfl
    split
    · exact steps_modifyPads .clockSync hself b
    · exact hself
  | groupOpen g => exact steps_foldl (fun v b hv => steps_openWindow hv b) _ hself
  | groupEnd g =>
    rw [step, groupEnd]
    split
    · exact steps_setPads hself fun hr => hr ▸ .clockSync _
    · exact hself

/-- A property that fresh pads have and every step keeps holds of all pad sets in reach. -/
theorem Reachable.pads_invariant {I : Pads → Prop} (hinit : ∀ owners, I (.initDefaults owners))
    (hstep : ∀ {p q}, Pads.Step (fun _ => True) p q → I p → I q) (hw : w.Reachable) (r : PadRef) :
    I (w.padsAt r) := by
  obtain ⟨cs, rfl⟩ := hw
  have hstart : ∀ r, I (initial.padsAt r) := by
    intro r
    cases r with
    | embedded b => exact hinit [b]
    | shared g => exact hinit []
  refine Run.invariant (I := fun v : World => ∀ r, I (v.padsAt r)) (C := fun _ _ => True)
    (fun v c hv _ r => ?_) hstart (Run.along_of_forall (fun _ _ => trivial) _ _) r
  cases hfresh : reinits r c with
  | false => exact (steps_step (fun _ _ _ _ => trivial) hfresh).invariant hstep (hv r)
  | true =>
    cases c with
    | init b =>
      obtain rfl : r = .embedded b := by simpa [reinits] using hfresh
      have hnew : (v.step (.init b)).padsAt (.embedded b) = .initDefaults [b] := by
        simp [step, pioSimInit, padsAt, setBlock, Pio.initial]
      rw [hnew]
      exact hinit [b]
    | groupInitShared g blocks =>
      obtain rfl : r = .shared g := by simpa [reinits] using hfresh
      obtain ⟨-, hnew, -⟩ := groupInitShared_sets v g blocks
      rw [step, hnew]
      exact hinit _
    | _ => cases hfresh

end World
end PioSim
