import PioSim.Separation

/-!
# Groups in lockstep

`pio_sim_run` and `pio_sim_group_run`. The blocks of a group that share neither pads nor IRQ links
run in lockstep as each of them would run alone.
-/

namespace PioSim

variable [Platform]

/-- One block, alone. -/
def Zone.only (b : BlockAddr) : Zone := ⟨fun c => c == b, fun _ => false⟩

namespace World

/-- `pio_sim_run`; `onTick n` is what the device hook does in tick `n`. -/
def pioSimRun (w : World) (b : BlockAddr) (onTick : ℕ → World → World) : ℕ → World
  | 0 => w
  | n + 1 => (w.pioSimRun b onTick n).pioSimTick b (onTick n)

/-- `pio_sim_group_run`; `onTick n b` is what block `b`'s device hook does in tick `n`. -/
def groupRun (w : World) (g : GroupAddr) (onTick : ℕ → BlockAddr → World → World) : ℕ → World
  | 0 => w
  | n + 1 => (w.groupRun g onTick n).groupTick g (onTick n)

variable {w : World} {b c : BlockAddr} {g : GroupAddr} {onTick : BlockAddr → World → World}

section
omit [Platform]

theorem only_self (b : BlockAddr) : (Zone.only b).block b = true := beq_self_eq_true b

theorem only_rest_of_ne (h : b ≠ c) : (Zone.only c).rest.block b = true := by
  simp [Zone.rest, Zone.only, h]

/-- The block has its own pads and no IRQ neighbour but itself. -/
abbrev Alone (w : World) (b : BlockAddr) : Prop := w.Enclosed (Zone.only b)

theorem Alone.of_blocks {v : World} (h : w.Alone b) (hb : v.blocks b = w.blocks b) : v.Alone b := by
  refine Enclosed.of_seen h (Prod.ext (funext fun c => ?_) (funext fun _ => rfl))
  by_cases hc : c = b
  · subst hc
    simp only [seen, hb]
  · simp [seen, Zone.only, hc]

/-- What is confined to one block leaves the other blocks and the groups as they are. -/
theorem Confined.blocks_of_ne {f : World → World} (hf : Confined (Zone.only c) f) (h : w.Alone c)
    (hne : b ≠ c) : (f w).blocks b = w.blocks b :=
  (of_seen (hf.seen_rest h)).1 b (only_rest_of_ne hne)

theorem Confined.groups_only {f : World → World} (hf : Confined (Zone.only c) f) (h : w.Alone c) :
    (f w).groups = w.groups :=
  funext fun g => (of_seen (hf.seen_rest h)).2 g rfl

theorem Confined.blocks_congr {f : World → World} (hf : Confined (Zone.only b) f)
    (h : w.Alone b) {v : World}
    (hv : v.blocks b = w.blocks b) : (f v).blocks b = (f w).blocks b := by
  have hview : seen (Zone.only b) w = seen (Zone.only b) v := by
    refine Prod.ext (funext fun c => ?_) (funext fun _ => rfl)
    by_cases hc : c = b
    · subst hc
      simp only [seen, hv]
    · simp [seen, Zone.only, hc]
  exact ((of_seen (hf.seen_congr h hview)).1 b (only_self b)).symm

/-- One turn for each block of a list, none of which reaches another. -/
theorem blocks_foldl_confined {f : BlockAddr → World → World} {l : List BlockAddr} (hl : l.Nodup)
    (hf : ∀ c ∈ l, Confined (Zone.only c) (f c)) : ∀ {w : World}, (∀ c ∈ l, w.Alone c) →
      (∀ b, (l.foldl (fun w c => f c w) w).blocks b = if b ∈ l then (f b w).blocks b
        else w.blocks b) ∧
        (l.foldl (fun w c => f c w) w).groups = w.groups := by
  induction l with
  | nil => exact fun _ => ⟨fun b => by simp, rfl⟩
  | cons c l ih =>
    intro w h
    obtain ⟨hc, hl⟩ := List.nodup_cons.mp hl
    have hhead := hf c List.mem_cons_self
    have halone := h c List.mem_cons_self
    have hkeep : ∀ d ∈ l, (f c w).blocks d = w.blocks d := fun d hd =>
      hhead.blocks_of_ne halone fun he => hc (he ▸ hd)
    obtain ⟨hblocks, hgroups⟩ := ih hl (fun d hd => hf d (List.mem_cons_of_mem _ hd)) (w := f c w)
      fun d hd => (h d (List.mem_cons_of_mem _ hd)).of_blocks (hkeep d hd)
    refine ⟨fun b => ?_, hgroups.trans (hhead.groups_only halone)⟩
    rw [List.foldl_cons, hblocks]
    by_cases hb : b ∈ l
    · rw [if_pos hb, if_pos (List.mem_cons_of_mem _ hb)]
      exact (hf b (List.mem_cons_of_mem _ hb)).blocks_congr
        (h b (List.mem_cons_of_mem _ hb)) (hkeep b hb)
    · rw [if_neg hb]
      by_cases hbc : b = c
      · subst hbc
        rw [if_pos List.mem_cons_self]
      · rw [if_neg fun hm => (List.mem_cons.mp hm).elim hbc hb, hhead.blocks_of_ne halone hbc]

theorem confined_openWindow : Confined (Zone.only b) (·.openWindow b) :=
  confined_of_wiring (fun _ => wiring_openWindow) fun _ _ _ => blend_openWindow (only_self b)

end

theorem confined_pioSimTick {f : World → World} (hf : Confined (Zone.only b) f) :
    Confined (Zone.only b) (·.pioSimTick b f) :=
  (confined_step (c := .tickEnd b) (only_self b)).comp
    (hf.comp (confined_step (c := .tickSms b) (only_self b)))

omit [Platform] in
theorem openWindow_eq (w : World) (b : BlockAddr) : w.openWindow b =
    w.setBlock b { w.blocks b with sm := fun i => ((w.blocks b).sm i).openWindow } := by
  have hsm := sm_openWindow w b
  have hrest : ∀ v : World, (∃ f, v = w.setBlock b { w.blocks b with sm := f }) →
      ∀ j, ∃ f, v.modifySm b j Sm.openWindow = w.setBlock b { w.blocks b with sm := f } := by
    rintro v ⟨f, rfl⟩ j
    refine ⟨Function.update f j (f j).openWindow, ?_⟩
    simp [modifySm, setSm, setBlock, sm]
  obtain ⟨f, hf⟩ : ∃ f, w.openWindow b = w.setBlock b { w.blocks b with sm := f } :=
    openWindow_induction (P := fun v => ∃ f, v = w.setBlock b { w.blocks b with sm := f })
      (fun v j hv => hrest v hv j) ⟨(w.blocks b).sm, by simp [setBlock]⟩
  rw [hf] at hsm ⊢
  have hself : f = fun i => ((w.blocks b).sm i).openWindow := by
    funext i
    have hi := hsm b i
    rw [if_pos rfl] at hi
    simpa [sm, setBlock] using hi
  rw [hself]

omit [Platform] in
/-- A tick opens the write window, open or not. -/
theorem openWindow_openWindow (w : World) (b : BlockAddr) :
    (w.openWindow b).openWindow b = w.openWindow b := by
  rw [openWindow_eq, openWindow_eq]
  simp [setBlock, Sm.openWindow]

theorem pioSimTick_openWindow (w : World) (b : BlockAddr) (f : World → World) :
    (w.openWindow b).pioSimTick b f = w.pioSimTick b f := by
  unfold pioSimTick tickSms
  rw [openWindow_openWindow]

/-- One group tick gives each block of the group the tick it would make alone. -/
theorem blocks_groupTick (hshared : (w.groups g).shared = false) (hblk : (w.groups g).blk.Nodup)
    (halone : ∀ b ∈ (w.groups g).blk, w.Alone b)
    (hhook : ∀ b ∈ (w.groups g).blk, Confined (Zone.only b) (onTick b)) :
    (∀ b ∈ (w.groups g).blk, (w.groupTick g onTick).blocks b =
      (w.pioSimTick b (onTick b)).blocks b) ∧
      (w.groupTick g onTick).groups = w.groups := by
  obtain ⟨hopen, hopenGroups⟩ := blocks_foldl_confined hblk
    (f := fun b w => w.openWindow b) (fun c _ => confined_openWindow) halone
  have hopened : ∀ b ∈ (w.groups g).blk, (w.groupOpen g).blocks b = (w.openWindow b).blocks b := by
    intro b hb
    refine (hopen b).trans ?_
    rw [if_pos hb]
  have hstill : ∀ b ∈ (w.groups g).blk, (w.groupOpen g).Alone b := fun b hb =>
    Alone.of_blocks ((halone b hb).of_wiring wiring_openWindow) (hopened b hb)
  obtain ⟨htick, htickGroups⟩ := blocks_foldl_confined hblk
    (f := fun b w => w.pioSimTick b (onTick b))
      (fun c hc => confined_pioSimTick (hhook c hc)) hstill
  have hgroups := htickGroups.trans hopenGroups
  have hend : w.groupTick g onTick =
      (w.groups g).blk.foldl (fun w b => w.pioSimTick b (onTick b)) (w.groupOpen g) := by
    unfold groupTick groupEnd
    rw [congrFun hgroups g, if_neg (by rw [hshared]; exact Bool.false_ne_true)]
  refine ⟨fun b hb => ?_, by rw [hend, hgroups]⟩
  have halone' := (halone b hb).of_wiring (wiring_openWindow (b := b))
  rw [hend, htick, if_pos hb, ← pioSimTick_openWindow w]
  exact (confined_pioSimTick (hhook b hb)).blocks_congr halone' (hopened b hb)

theorem confined_pioSimRun {f : ℕ → World → World}
    (hf : ∀ k, Confined (Zone.only b) (f k)) (n : ℕ) :
    Confined (Zone.only b) (·.pioSimRun b f n) := by
  induction n with
  | zero => exact fun _ _ h => ⟨rfl, h⟩
  | succ n ih => exact (confined_pioSimTick (hf n)).comp ih

/-- The blocks of a group tick on as they would alone, and it keeps its members. -/
theorem blocks_groupRun {w : World} {onTick : ℕ → BlockAddr → World → World}
    (hshared : (w.groups g).shared = false) (hblk : (w.groups g).blk.Nodup)
    (halone : ∀ b ∈ (w.groups g).blk, w.Alone b)
    (hhook : ∀ k, ∀ b ∈ (w.groups g).blk, Confined (Zone.only b) (onTick k b)) (n : ℕ) :
    (∀ b ∈ (w.groups g).blk,
      (w.groupRun g onTick n).blocks b = (w.pioSimRun b (fun k => onTick k b) n).blocks b) ∧
      (w.groupRun g onTick n).groups = w.groups := by
  induction n with
  | zero => exact ⟨fun _ _ => rfl, rfl⟩
  | succ n ih =>
    obtain ⟨hblocks, hgroups⟩ := ih
    have hgroup : (w.groupRun g onTick n).groups g = w.groups g := congrFun hgroups g
    have hrun : ∀ c ∈ (w.groups g).blk, (w.pioSimRun c (fun k => onTick k c) n).Alone c :=
        fun c hc =>
      (confined_pioSimRun (fun k => hhook k c hc) n w w (halone c hc)).2
    obtain ⟨htick, hkept⟩ := blocks_groupTick (w := w.groupRun g onTick n) (g := g)
      (by rw [hgroup]; exact hshared) (by rw [hgroup]; exact hblk)
      (fun c hc => by
        rw [hgroup] at hc
        exact (hrun c hc).of_blocks (hblocks c hc))
      (fun c hc => hhook n c (by rwa [hgroup] at hc))
    refine ⟨fun b hb => ?_, hkept.trans hgroups⟩
    refine (htick b (by rwa [hgroup])).trans ?_
    exact (confined_pioSimTick (hhook n b hb)).blocks_congr (hrun b hb) (hblocks b hb)

/-- A group whose blocks share nothing runs in lockstep what its blocks run alone: after any number
of ticks each block is exactly as if it had been run by itself with its own device. -/
theorem lockstep_is_standalone {w : World} (onTick : ℕ → BlockAddr → World → World)
    (hshared : (w.groups g).shared = false) (hblk : (w.groups g).blk.Nodup)
    (halone : ∀ b ∈ (w.groups g).blk, w.Alone b)
    (hhook : ∀ k, ∀ b ∈ (w.groups g).blk, Confined (Zone.only b) (onTick k b)) (n : ℕ) :
    ∀ b ∈ (w.groups g).blk,
      (w.groupRun g onTick n).blocks b = (w.pioSimRun b (fun k => onTick k b) n).blocks b :=
  (blocks_groupRun hshared hblk halone hhook n).1

omit [Platform] in
/-- Two blocks of an RP2040 whose devices feed their own state machine 0 with a count of the ticks,
for 100 ticks. -/
theorem lockstep_is_standalone_two :
    let _ : Platform := ⟨.rp2040⟩
    let w := initial.groupInit 0 [0, 1]
    let onTick := fun (k : ℕ) (b : BlockAddr) (w : World) =>
      w.step (.sm b 0 (.put (BitVec.ofNat 32 k)))
    ∀ b ∈ (w.groups 0).blk,
      (w.groupRun 0 onTick 100).blocks b = (w.pioSimRun b (fun k => onTick k b) 100).blocks b := by
  intro _ w onTick
  have hblocks : ∀ b, w.blocks b = initial.blocks b := fun _ => rfl
  have hhook : ∀ k, ∀ b ∈ (w.groups 0).blk, Confined (Zone.only b) (onTick k b) := fun k b _ =>
    confined_step (c := .sm b 0 (.put (BitVec.ofNat 32 k))) (only_self b)
  exact lockstep_is_standalone (w := w) onTick rfl (by decide)
    (fun b _ => Alone.of_blocks (enclosed_initial (Zone.only b)) (hblocks b)) hhook 100

end World
end PioSim
