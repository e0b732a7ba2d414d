import PioSim.IrqWait
import PioSim.Coherence

/-!
# The input synchroniser

Each pad set has two stages behind its input view, which the end of a tick shifts: a block's own
pads at the end of its tick, shared pads at the end of the group's. In between nothing but
`pio_sim_sync_settle` and a fresh initialisation writes them, so what the state machines sample is
two ticks old.
-/

namespace PioSim

variable [Platform]

def Pads.stages (p : Pads) : Mask × Mask := (p.inSync0, p.inSync1)

/-- The setters other than `pio_sim_sync_settle` leave the stages alone. -/
theorem PadOp.stages_apply {op : PadOp} (h : op ≠ .syncSettle) (p : Pads) :
    (op.apply p).stages = p.stages := by
  cases op with
  | syncSettle => exact absurd rfl h
  | setPullLevel mask level =>
    rw [PadOp.apply, Pads.setPullLevel]
    split <;> rfl
  | padSetIso pin iso =>
    rw [PadOp.apply, Pads.padSetIso]
    split <;> rfl
  | _ => rfl

/-- A clocking shifts the view it finds, its keepers updated, into the first stage. -/
theorem Pads.stages_clockSync (p : Pads) :
    p.clockSync.stages = (p.clockSync.inputView, p.stages.1) := rfl

namespace World

variable {w : World} {b : BlockAddr} {i : Fin 4} {r : PadRef}

def stagesAt (w : World) (r : PadRef) : Mask × Mask := (w.padsAt r).stages

section
omit [Platform]

theorem stagesAt_of_padsAt {v w : World} (h : v.padsAt = w.padsAt) : v.stagesAt = w.stagesAt := by
  funext r
  rw [stagesAt, h, stagesAt]

theorem stagesAt_setPads {p : Pads} (h : p.stages = w.stagesAt r) :
    (w.setPads r p).stagesAt = w.stagesAt := by
  funext r'
  by_cases hr : r' = r
  · subst hr
    rw [stagesAt, padsAt_setPads_self, h]
  · rw [stagesAt, padsAt_setPads_of_ne hr, stagesAt]

theorem stagesAt_modifyPads {f : Pads → Pads} (h : ∀ p, (f p).stages = p.stages) (w : World)
    (b : BlockAddr) : (w.modifyPads b f).stagesAt = w.stagesAt := stagesAt_setPads (h _)

theorem stagesAt_modifySm (w : World) (b : BlockAddr) (i : Fin 4) (f : Sm → Sm) :
    (w.modifySm b i f).stagesAt = w.stagesAt := stagesAt_of_padsAt (padsAt_modifySm b i f)

end

theorem stagesAt_resolvePads (w : World) (b : BlockAddr) :
    (w.resolvePads b).stagesAt = w.stagesAt :=
  stagesAt_modifyPads (f := (·.resolve w.sm)) (fun _ => rfl) w b

omit [Platform] in
theorem stagesAt_countFetch (w : World) (b : BlockAddr) (i : Fin 4) :
    (w.countFetch b i).stagesAt = w.stagesAt := by
  unfold countFetch
  split
  · rfl
  · exact stagesAt_of_padsAt (padsAt_setBlock rfl)

theorem stagesAt_closed (u : World) (b : BlockAddr) (i : Fin 4) :
    Closed (fun v => v.stagesAt = u.stagesAt) b i where
  record _ s _ _ hv := (stagesAt_of_padsAt (padsAt_setSm b i s)).trans hv
  irq _ blk x hv := (stagesAt_of_padsAt (padsAt_setIrq blk x)).trans hv
  fetch v hv := (stagesAt_countFetch v b i).trans hv
  pins _ _ hv := ((stagesAt_resolvePads _ b).trans (stagesAt_modifySm ..)).trans hv

/-- The state machines' half of a tick leaves the stages alone, and so do its turns. -/
theorem stagesAt_smTick (w : World) (b : BlockAddr) (i : Fin 4) :
    (w.smTick b i).stagesAt = w.stagesAt :=
  smTick_closed (stagesAt_closed w b i) (fun v hv => (stagesAt_modifySm v b i _).trans hv) rfl

omit [Platform] in
theorem stagesAt_openWindow (w : World) (b : BlockAddr) : (w.openWindow b).stagesAt = w.stagesAt :=
  openWindow_induction (P := fun v => v.stagesAt = w.stagesAt)
    (fun v i hv => (stagesAt_modifySm v b i _).trans hv) rfl

theorem stagesAt_tickSms (w : World) (b : BlockAddr) : (w.tickSms b).stagesAt = w.stagesAt :=
  tickSms_induction (P := fun v => v.stagesAt = w.stagesAt)
    (fun v i hv => (stagesAt_modifySm v b i _).trans hv)
    (fun v i hv => (stagesAt_smTick v b i).trans hv)
    (fun v hv => (stagesAt_resolvePads v b).trans hv) rfl

omit [Platform] in
theorem stagesAt_foldl {α : Type} {g : World → α → World}
    (hg : ∀ v a, (g v a).stagesAt = v.stagesAt)
    (l : List α) (w : World) : (l.foldl g w).stagesAt = w.stagesAt :=
  List.foldlRecOn (motive := fun v : World => v.stagesAt = w.stagesAt) _ _ rfl
    fun v hv a _ => (hg v a).trans hv

/-! ### Which calls write the stages -/

/-- The call ends a tick of pad set `r`: its own block's, or its group's if the pads are shared. -/
def clocks (r : PadRef) (w : World) : Call → Bool
  | .tickEnd b => w.padRef b == .embedded b && r == .embedded b
  | .groupEnd g => (w.groups g).shared && r == .shared g
  | _ => false

def reinits (r : PadRef) : Call → Bool
  | .init b => r == .embedded b
  | .groupInitShared g _ => r == .shared g
  | _ => false

def SettlesSync (r : PadRef) (w : World) (c : Call) : Prop :=
  ∃ b, c = .pad b .syncSettle ∧ w.padRef b = r

theorem stagesAt_setSmMaskEnabled (w : World) (b : BlockAddr) (mask : BitVec 8) (enabled : Bool) :
    (w.setSmMaskEnabled b mask enabled).stagesAt = w.stagesAt := by
  rw [setSmMaskEnabled, stagesAt_resolvePads]
  refine stagesAt_foldl (fun v i => ?_) _ w
  split
  · exact stagesAt_modifySm ..
  · rfl

omit [Platform] in
theorem stagesAt_clkdivRestartSmMask (w : World) (b : BlockAddr) (mask : BitVec 8) :
    (w.clkdivRestartSmMask b mask).stagesAt = w.stagesAt := by
  refine stagesAt_foldl (fun v i => ?_) _ w
  split
  · exact stagesAt_modifySm ..
  · rfl

theorem stagesAt_groupInit (w : World) (g : GroupAddr) (blocks : List BlockAddr) :
    (w.groupInit g blocks).stagesAt = w.stagesAt := by
  have hgroup :
    (w.setGroup g { w.groups g with blk := blocks.take numPio, shared := false }).stagesAt =
      w.stagesAt := by
    funext r
    cases r with
    | embedded b => rfl
    | shared g' =>
      by_cases hg : g' = g
      · subst hg
        simp [stagesAt, padsAt, setGroup]
      · simp [stagesAt, padsAt, setGroup, hg]
  unfold groupInit
  dsimp only
  split
  · refine (stagesAt_foldl (fun v k => ?_) _ _).trans hgroup
    split
    · rfl
    · exact stagesAt_of_padsAt (padsAt_setBlock rfl)
  · exact hgroup

theorem stagesAt_groupInitShared (w : World) (g : GroupAddr) (blocks : List BlockAddr) {r : PadRef}
    (hr : r ≠ .shared g) : (w.groupInitShared g blocks).stagesAt r = w.stagesAt r := by
  obtain ⟨-, hpads, -⟩ := foldl_setPadRef g (blocks.take numPio)
    ((w.groupInit g blocks).setGroup g { (w.groupInit g blocks).groups g with
      shared := true, pads := Pads.initDefaults (blocks.take numPio) })
  rw [← stagesAt_groupInit w g blocks]
  refine (congrFun (stagesAt_of_padsAt hpads) r).trans ?_
  cases r with
  | embedded c => rfl
  | shared g' =>
    have hg : g' ≠ g := fun he => hr (by rw [he])
    simp [stagesAt, padsAt, setGroup, Function.update_of_ne hg]

theorem stagesAt_tickEnd (w : World) (b : BlockAddr) (r : PadRef) : (w.tickEnd b).stagesAt r =
    if clocks r w (.tickEnd b) then (((w.tickEnd b).padsAt r).inputView, (w.stagesAt r).1)
    else w.stagesAt r := by
  have hcycle : (w.tickEnd b).padsAt = (if w.padRef b = .embedded b then
      w.modifyPads b Pads.clockSync else w).padsAt := padsAt_setBlock (by rfl)
  rw [stagesAt, hcycle]
  by_cases hown : w.padRef b = .embedded b
  · rw [if_pos hown, modifyPads]
    by_cases hr : r = .embedded b
    · subst hr
      rw [hown, padsAt_setPads_self, Pads.stages_clockSync, pads, hown,
        if_pos (by simp [clocks, hown])]
      rfl
    · rw [hown, padsAt_setPads_of_ne hr, if_neg (by simp [clocks, hr])]
      rfl
  · rw [if_neg hown, if_neg (by simp [clocks, hown])]
    rfl

theorem stagesAt_groupEnd (w : World) (g : GroupAddr) (r : PadRef) : (w.groupEnd g).stagesAt r =
    if clocks r w (.groupEnd g) then (((w.groupEnd g).padsAt r).inputView, (w.stagesAt r).1)
    else w.stagesAt r := by
  unfold groupEnd
  cases hshared : (w.groups g).shared with
  | false => simp [clocks, hshared]
  | true =>
    by_cases hr : r = .shared g
    · subst hr
      rw [if_pos rfl, if_pos (by simp [clocks, hshared]), stagesAt, padsAt_setPads_self,
        Pads.stages_clockSync]
      rfl
    · rw [if_pos rfl, if_neg (by simp [clocks, hr]), stagesAt, padsAt_setPads_of_ne hr]
      rfl

omit [Platform] in
theorem stagesAt_load (w : World) (b : BlockAddr) (offset : ℕ) (insns : List Insn) :
    (w.setBlock b ((w.blocks b).load offset insns)).stagesAt = w.stagesAt := by
  refine stagesAt_of_padsAt (padsAt_setBlock ?_)
  refine List.foldlRecOn (motive := fun q : Pio => q.padsEmbedded = (w.blocks b).padsEmbedded)
    _ _ rfl ?_
  intro q hq x _
  dsimp only
  split <;> exact hq

def LetsSync : Call → Prop
  | .pad _ op => op ≠ .syncSettle
  | .init _ | .groupInitShared .. | .tickEnd _ | .groupEnd _ => False
  | _ => True

theorem stagesAt_step_of_letsSync {c : Call} (hc : LetsSync c) :
    (w.step c).stagesAt = w.stagesAt := by
  cases c with
  | sm b k op => rw [step, stagesAt_modifySm]
  | block b op =>
    rw [step]
    cases op with
    | load offset insns => exact stagesAt_load w b offset insns
    | _ => exact stagesAt_of_padsAt (padsAt_setBlock rfl)
  | pad b op => exact stagesAt_modifyPads (PadOp.stages_apply hc) w b
  | setEnabled b k enabled => exact (stagesAt_resolvePads _ b).trans (stagesAt_modifySm ..)
  | setSmMaskEnabled b mask enabled => exact stagesAt_setSmMaskEnabled ..
  | clkdivRestartSmMask b mask => exact stagesAt_clkdivRestartSmMask ..
  | enableSmMaskInSync b mask =>
    exact (stagesAt_clkdivRestartSmMask ..).trans (stagesAt_setSmMaskEnabled ..)
  | setConsecutivePindirs b k base count isOut =>
    exact (stagesAt_resolvePads _ b).trans (stagesAt_modifySm ..)
  | smInit b k pc cfg => rw [step, smInit, stagesAt_modifySm]
  | smExec b k insn => exact smExec_closed (stagesAt_closed w b (smIdx k)) insn rfl
  | gpioSetFunction b pin f =>
    exact stagesAt_modifyPads (f := (·.gpioSetFunction w.sm pin f)) (fun _ => rfl) w b
  | groupInit g blocks => exact stagesAt_groupInit ..
  | loadProgram b k offset prog =>
    rcases w.loadProgram_cases b (smIdx k) offset prog with h | ⟨words, -, h⟩
    · rw [step, h]
    · rw [step, h, stagesAt_modifySm, stagesAt_load]
  | tickSms b => exact stagesAt_tickSms w b
  | groupOpen g => exact stagesAt_foldl (fun v b => stagesAt_openWindow v b) _ w
  | init b => exact hc.elim
  | groupInitShared g blocks => exact hc.elim
  | tickEnd b => exact hc.elim
  | groupEnd g => exact hc.elim

/-- What a call does to the stages of a pad set. -/
theorem stagesAt_step {c : Call} (hc : ¬ SettlesSync r w c) : (w.step c).stagesAt r =
    if clocks r w c then (((w.step c).padsAt r).inputView, (w.stagesAt r).1)
    else if reinits r c then (0, 0) else w.stagesAt r := by
  cases c with
  | tickEnd b => exact stagesAt_tickEnd w b r
  | groupEnd g => exact stagesAt_groupEnd w g r
  | init b =>
    by_cases hr : r = .embedded b
    · subst hr
      simp [clocks, reinits, step, pioSimInit, stagesAt, padsAt, setBlock, Pio.initial, Pads.stages,
        Pads.initDefaults]
    · rw [if_neg (by simp [clocks]), if_neg (by simp [reinits, hr])]
      cases r with
      | embedded b' =>
        have hb : b' ≠ b := fun he => hr (by rw [he])
        simp [step, pioSimInit, stagesAt, padsAt, setBlock, hb]
      | shared g => rfl
  | groupInitShared g blocks =>
    by_cases hr : r = .shared g
    · subst hr
      obtain ⟨-, hnew, -⟩ := groupInitShared_sets w g blocks
      rw [if_neg (by simp [clocks]), if_pos (by simp [reinits]), stagesAt, step, hnew]
      rfl
    · rw [if_neg (by simp [clocks]), if_neg (by simp [reinits, hr])]
      exact stagesAt_groupInitShared w g blocks hr
  | pad b op =>
    by_cases hop : op = .syncSettle
    · subst hop
      have hother : r ≠ w.padRef b := fun he => hc ⟨b, rfl, he.symm⟩
      rw [if_neg (by simp [clocks]), if_neg (by simp [reinits]), step, modifyPads, stagesAt,
        padsAt_setPads_of_ne hother, stagesAt]
    · rw [if_neg (by simp [clocks]), if_neg (by simp [reinits])]
      exact congrFun (stagesAt_step_of_letsSync (by exact hop)) r
  | _ =>
    rw [if_neg (by simp [clocks]), if_neg (by simp [reinits])]
    exact congrFun (stagesAt_step_of_letsSync (by trivial)) r

/-! ### Runs -/

/-- A run together with the input views of a pad set as the ends of its ticks left them, since the
last initialisation of the pad set. -/
def recordView (r : PadRef) (s : World × List Mask) (c : Call) : World × List Mask :=
  (s.1.step c,
    if clocks r s.1 c then s.2 ++ [((s.1.step c).padsAt r).inputView]
    else if reinits r c then [] else s.2)

/-- The stages hold the last two views. -/
structure Staged (r : PadRef) (s : World × List Mask) : Prop where
  first : ∀ l v, s.2 = l ++ [v] → (s.1.stagesAt r).1 = v
  second : ∀ l v v', s.2 = l ++ [v, v'] → (s.1.stagesAt r).2 = v

omit [Platform] in
theorem Staged.start (w : World) : Staged r (w, []) :=
  ⟨fun l v hl => by simp at hl, fun l v v' hl => by simp at hl⟩

theorem Staged.step {s : World × List Mask} (h : Staged r s) {c : Call}
    (hc : ¬ SettlesSync r s.1 c) : Staged r (recordView r s c) := by
  have hstages := stagesAt_step hc
  unfold recordView
  cases hclocks : clocks r s.1 c with
  | true =>
    rw [hclocks, if_pos rfl] at hstages
    simp only [if_true]
    refine ⟨fun l v hl => ?_, fun l v v' hl => ?_⟩
    · obtain ⟨-, hv⟩ := List.append_inj' hl rfl
      rw [hstages, List.cons.inj hv |>.1]
    · rw [show l ++ [v, v'] = (l ++ [v]) ++ [v'] by simp] at hl
      obtain ⟨hbefore, -⟩ := List.append_inj' hl rfl
      rw [hstages, h.first l v hbefore]
  | false =>
    rw [hclocks, if_neg Bool.false_ne_true] at hstages
    simp only [Bool.false_eq_true, if_false]
    cases hnew : reinits r c with
    | true => exact ⟨fun l v hl => by simp at hl, fun l v v' hl => by simp at hl⟩
    | false =>
      rw [hnew, if_neg Bool.false_ne_true] at hstages
      exact ⟨fun l v hl => hstages ▸ h.first l v hl, fun l v v' hl => hstages ▸ h.second l v v' hl⟩

theorem stagesAt_presentation {c : Call} {p : Presentation} (hp : presentation b i w c = some p) :
    p.world.stagesAt = w.stagesAt := by
  cases c with
  | tickSms b' =>
    obtain ⟨-, -, -, rfl⟩ := presentation_tickSms hp
    have hbefore : (w.beforeSm b i).stagesAt = w.stagesAt :=
      (stagesAt_foldl (fun v j => stagesAt_smTick v b j) _ _).trans (stagesAt_openWindow w b)
    show (w.presentWorld b i).stagesAt = w.stagesAt
    rw [presentWorld, stagesAt_countFetch, toppedUp, stagesAt_modifySm, cycleWorld,
      stagesAt_modifySm, hbefore]
  | smExec b' k insn =>
    obtain ⟨-, rfl⟩ := presentation_smExec hp
    dsimp only
    rw [stagesAt_modifySm]
  | _ => cases hp

/-- On a pin without bypass a state machine samples the second stage. -/
theorem inputLevel_of_not_bypassed {pin : ℕ}
    (h : (w.pads b).syncBypass.getLsbD (pinIdx pin) = false) :
    w.inputLevel b pin = (w.stagesAt (w.padRef b)).2.getLsbD (pinIdx pin) := by
  have hlt : pinIdx pin < 64 :=
    Nat.lt_of_lt_of_le (Nat.mod_lt _ numPins_pos) (Nat.le_trans numPins_le (by decide))
  rw [inputLevel, Pads.inputLevel, BitVec.getLsbD_or, BitVec.getLsbD_and, BitVec.getLsbD_and,
    BitVec.getLsbD_not, h]
  simp [hlt, stagesAt, Pads.stages, pads]

/-- What the call ends of pad set `r`'s ticks, by the view it leaves. -/
def endings (r : PadRef) (w : World) (c : Call) : List Mask :=
  if clocks r w c then [((w.step c).padsAt r).inputView] else []

/-- The calls of a tick of block `b` with those of its device hook. -/
def tickCalls (hook : BlockAddr → List Call) (b : BlockAddr) : List Call :=
  .tickSms b :: hook b ++ [.tickEnd b]

theorem endings_tickCalls {hook : List Call}
    (hhook : ∀ c ∈ hook, ∀ v, clocks (.embedded b) v c = false)
    (hown : (w.run (.tickSms b :: hook)).padRef b = .embedded b) :
    (Run.collect step (endings (.embedded b)) w (.tickSms b :: hook ++ [.tickEnd b])).length =
      1 := by
  have hquiet : Run.collect step (endings (.embedded b)) w (.tickSms b :: hook) = [] := by
    refine Run.collect_eq_nil (fun v c hc => ?_) w
    rcases List.mem_cons.mp hc with rfl | hc
    · rfl
    · rw [endings, hhook c hc, if_neg Bool.false_ne_true]
  rw [Run.collect_append, hquiet, List.nil_append]
  show (endings (.embedded b) (w.run (.tickSms b :: hook)) (.tickEnd b) ++ []).length = 1
  rw [endings, if_pos (by simp [clocks, hown])]
  rfl

theorem endings_groupCalls {g : GroupAddr} {bs : List BlockAddr} {hook : BlockAddr → List Call}
    (hhook : ∀ b, ∀ c ∈ hook b, ∀ v, clocks (.shared g) v c = false)
    (hshared : ((w.run (.groupOpen g :: bs.flatMap (tickCalls hook))).groups g).shared = true) :
    (Run.collect step (endings (.shared g)) w
      (.groupOpen g :: bs.flatMap (tickCalls hook) ++ [.groupEnd g])).length = 1 := by
  have hquiet : Run.collect step (endings (.shared g)) w
      (.groupOpen g :: bs.flatMap (tickCalls hook)) = [] := by
    refine Run.collect_eq_nil (fun v c hc => ?_) w
    rcases List.mem_cons.mp hc with rfl | hc
    · rfl
    · obtain ⟨b, -, hc⟩ := List.mem_flatMap.mp hc
      simp only [tickCalls, List.mem_append, List.mem_cons, List.not_mem_nil, or_false] at hc
      rcases hc with (rfl | hc) | rfl
      · rfl
      · rw [endings, hhook b c hc, if_neg Bool.false_ne_true]
      · simp [endings, clocks]
  rw [Run.collect_append, hquiet, List.nil_append]
  show (endings (.shared g) (w.run (.groupOpen g :: bs.flatMap (tickCalls hook))) (.groupEnd g) ++
    []).length = 1
  rw [endings, if_pos (by simp [clocks, hshared])]
  rfl

theorem along_recordView {C : World → Call → Prop} (s : World × List Mask) (cs : List Call) :
    Run.Along step C s.1 cs ↔ Run.Along (recordView r) (fun s c => C s.1 c) s cs :=
  Run.along_hom (fun _ _ => rfl) s cs

/-- In every run without `pio_sim_sync_settle` on a pad set, what a state machine of any block on it
samples on a pin without bypass is the pin's input view at the end of the last tick but one. A tick
of a block on pads of its own clocks them exactly once, and a group tick the shared ones. -/
theorem samples_two_ticks_late (w : World) (r : PadRef) (cs : List Call)
    (hcs : Run.Along step (fun v c => ¬ SettlesSync r v c) w cs) :
    (∀ b i c p pin, presentation b i (w.run cs) c = some p → p.world.padRef b = r →
      (p.world.pads b).syncBypass.getLsbD (pinIdx pin) = false →
        ∀ l v v', (cs.foldl (recordView r) (w, [])).2 = l ++ [v, v'] →
          p.world.inputLevel b pin = v.getLsbD (pinIdx pin)) ∧
    (∀ (u : World) b hook, (∀ c ∈ hook, ∀ v, clocks (.embedded b) v c = false) →
      (u.run (.tickSms b :: hook)).padRef b = .embedded b →
        (Run.collect step (endings (.embedded b)) u (.tickSms b :: hook ++ [.tickEnd b])).length =
          1) ∧
    ∀ (u : World) g (hook : BlockAddr → List Call),
      (∀ b, ∀ c ∈ hook b, ∀ v, clocks (.shared g) v c = false) →
      ((u.run (.groupOpen g :: (u.groups g).blk.flatMap (tickCalls hook))).groups g).shared = true →
        (Run.collect step (endings (.shared g)) u
          (.groupOpen g :: (u.groups g).blk.flatMap (tickCalls hook) ++ [.groupEnd g])).length =
            1 := by
  refine ⟨fun b i c p pin hp hr hbypass l v v' hl => ?_, fun u b hook => endings_tickCalls,
    fun u g hook => endings_groupCalls⟩
  have hrun : (cs.foldl (recordView r) (w, [])).1 = w.run cs :=
    (List.foldl_hom Prod.fst fun _ _ => rfl).symm
  have hstaged : Staged r (cs.foldl (recordView r) (w, [])) :=
    Run.invariant (fun s c hs hc => hs.step hc) (.start w)
      ((along_recordView (w, []) cs).mp hcs)
  rw [inputLevel_of_not_bypassed hbypass, hr, stagesAt_presentation hp, ← hrun,
    hstaged.second l v v' hl]

omit [Platform] in
/-- Pin 3 driven from outside, two ticks, then a forced `mov x, pins`. -/
theorem samples_two_ticks_late_pin_three :
    letI : Platform := ⟨.rp2350⟩
    let cs : List Call := [.pad 0 (.setPin 3 true), .tickSms 0, .tickEnd 0, .tickSms 0, .tickEnd 0]
    ∃ p, presentation 0 0 (initial.run cs) (.smExec 0 0 0xA020) = some p ∧
      p.world.inputLevel 0 3 = true := by
  let P : Platform := ⟨.rp2350⟩
  intro cs
  have hcs : Run.Along step (fun v c => ¬ SettlesSync (.embedded 0) v c) initial cs := by
    refine Run.Along.mono ?_ (Run.along_of_mem (P := fun c => ∀ b, c ≠ .pad b .syncSettle) ?_ _)
    · rintro v c hc ⟨b, rfl, -⟩
      exact hc b rfl
    · simp [cs]
  have hviews : (cs.foldl (recordView (.embedded 0)) (initial, [])).2 = [] ++ [8#64, 8#64] := by
    decide +kernel
  refine ⟨_, rfl, ?_⟩
  have hlevel : (8#64).getLsbD (pinIdx 3) = true := by decide
  exact ((samples_two_ticks_late initial (.embedded 0) cs hcs).1 0 0 (.smExec 0 0 0xA020) _ 3 rfl
    (by decide +kernel) (by decide +kernel) [] _ _ hviews).trans hlevel

end World

end PioSim
