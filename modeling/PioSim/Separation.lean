import PioSim.Zones

/-!
# Separated zones

Calls that stay in a zone and calls that stay outside do not interfere: at any interleaving the zone
is as it would be after its own calls alone.
-/

namespace PioSim

variable [Platform]

/-- All addresses of the call belong to the zone. -/
def Call.inside (z : Zone) : Call → Bool
  | .block b (.setIrqNeighbors prev next) => z.block b && prev.all z.block && next.all z.block
  | .groupInit g blocks | .groupInitShared g blocks => z.group g && blocks.all z.block
  | .groupOpen g | .groupEnd g => z.group g
  | .sm b _ _ | .block b _ | .pad b _ | .init b | .setEnabled b _ _ | .setSmMaskEnabled b _ _
  | .clkdivRestartSmMask b _ | .enableSmMaskInSync b _ | .setConsecutivePindirs b _ _ _ _
    | .smInit b _ _ _
  | .smExec b _ _ | .gpioSetFunction b _ _ | .loadProgram b _ _ _ | .tickSms b
    | .tickEnd b => z.block b

/-- A call on the zone or on its surroundings, but not on both. -/
def Call.Sided (z : Zone) (c : Call) : Prop := c.inside z = true ∨ c.inside z.rest = true

namespace World

variable {z : Zone} {w u v : World} {b : BlockAddr} {i : Fin 4}

/-! ### Pointers that stay in the zone -/

omit [Platform] in
theorem Enclosed.setBlock (h : w.Enclosed z) {q : Pio} (hp : ∀ c ∈ q.irqPrev, z.block c = true)
    (hn : ∀ c ∈ q.irqNext, z.block c = true) (hr : z.pads q.pads = true)
    (ho : ∀ c ∈ q.padsEmbedded.owners, z.block c = true) : (w.setBlock b q).Enclosed z := by
  have hblocks : ∀ c, (w.setBlock b q).blocks c = q ∨ (w.setBlock b q).blocks c = w.blocks c := by
    intro c
    by_cases hc : c = b
    · subst hc
      exact .inl (by simp [World.setBlock])
    · exact .inr (by simp [World.setBlock, Function.update_of_ne hc])
  refine ⟨fun c hc => ?_, fun c hc => ?_, fun c hc => ?_, fun r hr => ?_, h.members⟩
  · rcases hblocks c with he | he <;> rw [he]
    · exact hp
    · exact h.prev c hc
  · rcases hblocks c with he | he <;> rw [he]
    · exact hn
    · exact h.next c hc
  · unfold padRef
    rcases hblocks c with he | he <;> rw [he]
    · exact hr
    · exact h.pads c hc
  · cases r with
    | embedded c =>
      unfold padsAt
      dsimp only
      rcases hblocks c with he | he <;> rw [he]
      · exact ho
      · exact h.owners (.embedded c) hr
    | shared g => exact h.owners (.shared g) hr

omit [Platform] in
theorem Enclosed.setGroup (h : w.Enclosed z) {g : GroupAddr} {grp : Group}
    (hm : ∀ c ∈ grp.blk, z.block c = true) (ho : ∀ c ∈ grp.pads.owners, z.block c = true) :
    (w.setGroup g grp).Enclosed z := by
  have hgroups : ∀ k, (w.setGroup g grp).groups k = grp ∨
      (w.setGroup g grp).groups k = w.groups k := by
    intro k
    by_cases hk : k = g
    · subst hk
      exact .inl (by simp [World.setGroup])
    · exact .inr (by simp [World.setGroup, Function.update_of_ne hk])
  refine ⟨h.prev, h.next, h.pads, fun r hr => ?_, fun k hk => ?_⟩
  · cases r with
    | embedded c => exact h.owners (.embedded c) hr
    | shared k =>
      unfold padsAt
      dsimp only
      rcases hgroups k with he | he <;> rw [he]
      · exact ho
      · exact h.owners (.shared k) hr
  · rcases hgroups k with he | he <;> rw [he]
    · exact hm
    · exact h.members k hk

/-! ### Calls -/

/-- A call that only reaches into the zone: blind to the surroundings, and no pointer leaves. -/
def Confined (z : Zone) (f : World → World) : Prop :=
  ∀ w u : World, w.Enclosed z → f (w.blend z u) = (f w).blend z u ∧ (f w).Enclosed z

section
omit [Platform]

theorem Confined.comp {f g : World → World} (hg : Confined z g) (hf : Confined z f) :
    Confined z fun w => g (f w) := by
  intro w u h
  obtain ⟨hfb, hfe⟩ := hf w u h
  obtain ⟨hgb, hge⟩ := hg _ u hfe
  exact ⟨(congrArg g hfb).trans hgb, hge⟩

theorem Confined.ite {f : World → World} {p : Prop} [Decidable p] (hf : Confined z f) :
    Confined z fun w => if p then f w else w := by
  intro w u h
  by_cases hp : p
  · simp only [if_pos hp]
    exact hf w u h
  · simp only [if_neg hp]
    exact ⟨trivial, h⟩

theorem Confined.foldl {α : Type} {l : List α} {f : World → α → World}
    (hf : ∀ a ∈ l, Confined z fun w => f w a) : Confined z fun w => l.foldl f w := by
  induction l with
  | nil => exact fun w u h => ⟨rfl, h⟩
  | cons a l ih =>
    have hhead := hf a List.mem_cons_self
    have htail := ih fun c hc => hf c (List.mem_cons_of_mem _ hc)
    exact htail.comp hhead

/-- What rewires nothing is confined as soon as it is blind. -/
theorem confined_of_wiring {f : World → World} (hwiring : ∀ w, (f w).wiring = w.wiring)
    (hblend : ∀ w u : World, w.Enclosed z → f (w.blend z u) = (f w).blend z u) : Confined z f :=
  fun w u h => ⟨hblend w u h, h.of_wiring (hwiring w)⟩

theorem confined_modifySm (hb : z.block b = true) (f : Sm → Sm) : Confined z (·.modifySm b i f) :=
  confined_of_wiring (fun _ => wiring_modifySm _) fun _ _ _ => blend_modifySm hb f

end

theorem confined_resolvePads (hb : z.block b = true) : Confined z (·.resolvePads b) :=
  confined_of_wiring (fun _ => wiring_resolvePads) fun _ _ h => blend_resolvePads h hb

section
omit [Platform]

theorem confined_modifyPads (hb : z.block b = true) {f : Pads → Pads}
    (hf : ∀ p, (f p).owners = p.owners) :
    Confined z (·.modifyPads b f) :=
  confined_of_wiring (fun _ => wiring_modifyPads hf) fun _ _ h => blend_modifyPads h hb f

theorem confined_setBlock (hb : z.block b = true) {f : Pio → Pio}
    (hp : ∀ q : Pio, ∀ c ∈ (f q).irqPrev, c ∈ q.irqPrev ∨ z.block c = true)
    (hn : ∀ q : Pio, ∀ c ∈ (f q).irqNext, c ∈ q.irqNext ∨ z.block c = true)
    (hr : ∀ q : Pio, (f q).pads = q.pads ∨ z.pads (f q).pads = true)
    (ho : ∀ q : Pio, ∀ c ∈ (f q).padsEmbedded.owners, c ∈ q.padsEmbedded.owners ∨
      z.block c = true) :
    Confined z fun w => w.setBlock b (f (w.blocks b)) := by
  intro w u h
  refine ⟨by dsimp only; rw [blocks_blend hb, blend_setBlock hb],
    h.setBlock (fun c hc => ?_) (fun c hc => ?_) ?_
    fun c hc => ?_⟩
  · exact (hp _ c hc).elim (h.prev b hb c) id
  · exact (hn _ c hc).elim (h.next b hb c) id
  · rcases hr (w.blocks b) with he | he
    · rw [he]
      exact h.pads b hb
    · exact he
  · exact (ho _ c hc).elim (h.owners (.embedded b) hb c) id

/-- A write of a block that does not rewire it. -/
theorem confined_setBlock_same (hb : z.block b = true) {f : Pio → Pio}
    (hf : ∀ q : Pio, (f q).irqPrev = q.irqPrev ∧ (f q).irqNext = q.irqNext ∧ (f q).pads = q.pads ∧
      (f q).padsEmbedded = q.padsEmbedded) : Confined z fun w => w.setBlock b (f (w.blocks b)) := by
  refine confined_setBlock hb (fun q c hc => .inl ?_) (fun q c hc => .inl ?_)
    (fun q => .inl (hf q).2.2.1)
    fun q c hc => .inl ?_
  · rwa [(hf q).1] at hc
  · rwa [(hf q).2.1] at hc
  · rwa [(hf q).2.2.2] at hc

theorem load_links (q : Pio) (offset : ℕ) (words : List Insn) :
    (q.load offset words).irqPrev = q.irqPrev ∧ (q.load offset words).irqNext = q.irqNext ∧
      (q.load offset words).pads = q.pads ∧
        (q.load offset words).padsEmbedded = q.padsEmbedded := by
  refine List.foldlRecOn (motive := fun p : Pio => p.irqPrev = q.irqPrev ∧ p.irqNext = q.irqNext ∧
    p.pads = q.pads ∧ p.padsEmbedded = q.padsEmbedded) _ _ ⟨rfl, rfl, rfl, rfl⟩ fun p hp x _ => ?_
  dsimp only
  split
  · exact hp
  · exact hp

end

theorem confined_blockOp {op : BlockOp} (h : (Call.block b op).inside z = true) :
    Confined z fun w => w.setBlock b (op.apply (w.blocks b)) := by
  cases op with
  | load offset words => exact confined_setBlock_same h fun q => load_links q offset words
  | setIrqNeighbors prev next =>
    simp only [Call.inside, Bool.and_eq_true] at h
    obtain ⟨⟨hb, hprev⟩, hnext⟩ := h
    refine confined_setBlock (f := fun q => q.setIrqNeighbors prev next) hb (fun q c hc => .inr ?_)
      (fun q c hc => .inr ?_) (fun q => .inl rfl) fun q c hc => .inl hc
    · have hlink : prev = some c := hc
      subst hlink
      exact hprev
    · have hlink : next = some c := hc
      subst hlink
      exact hnext
  | irqClear irq =>
    exact confined_setBlock_same (f := (·.irqClear irq)) h fun q => ⟨rfl, rfl, rfl, rfl⟩
  | irqForce irq on =>
    exact confined_setBlock_same (f := (·.irqForce irq on)) h fun q => ⟨rfl, rfl, rfl, rfl⟩
  | setIrqnSourceMaskEnabled line mask enabled =>
    exact confined_setBlock_same (f := (·.setIrqnSourceMaskEnabled line mask enabled)) h
      fun q => ⟨rfl, rfl, rfl, rfl⟩
  | setIntf line mask on =>
    exact confined_setBlock_same (f := (·.setIntf line mask on)) h fun q => ⟨rfl, rfl, rfl, rfl⟩
  | setGpioBase base =>
    exact confined_setBlock_same (f := (·.setGpioBase base)) h fun q => ⟨rfl, rfl, rfl, rfl⟩

theorem owners_padOp (p : Pads) (op : PadOp) : (op.apply p).owners = p.owners := by
  cases op with
  | setPullLevel mask level => cases level <;> rfl
  | padSetIso pin iso =>
    simp only [PadOp.apply, Pads.padSetIso]
    split <;> rfl
  | _ => rfl

theorem confined_gpioSetFunction (hb : z.block b = true) (pin f : ℕ) :
    Confined z (·.gpioSetFunction b pin f) := by
  refine confined_of_wiring (fun w => wiring_setPads rfl) fun w u h => ?_
  have howners := h.owners (w.padRef b) (h.pads b hb)
  have hsame : (w.pads b).gpioSetFunction (w.blend z u).sm pin f =
      (w.pads b).gpioSetFunction w.sm pin f :=
    resolve_owners fun c hc => sm_blend (howners c hc)
  refine Eq.trans ?_ (blend_modifyPads h hb (·.gpioSetFunction w.sm pin f))
  unfold gpioSetFunction modifyPads
  dsimp only
  rw [pads_blend h hb, hsame]

theorem confined_setSmMaskEnabled (hb : z.block b = true) (mask : BitVec 8) (enabled : Bool) :
    Confined z (·.setSmMaskEnabled b mask enabled) :=
  (confined_resolvePads hb).comp (.foldl fun _ _ => (confined_modifySm hb _).ite)

omit [Platform] in
theorem confined_clkdivRestartSmMask (hb : z.block b = true) (mask : BitVec 8) :
    Confined z (·.clkdivRestartSmMask b mask) :=
  .foldl fun _ _ => (confined_modifySm hb _).ite

omit [Platform] in
theorem confined_loadProgram (hb : z.block b = true) (offset : ℕ) (prog : PioProgram) :
    Confined z (·.loadProgram b i offset prog) := by
  rcases loadProgram_uniform b i offset prog with h | ⟨words, -, h⟩
  · simp only [h]
    exact fun w u he => ⟨rfl, he⟩
  · simp only [h]
    exact (confined_modifySm hb _).comp
      (confined_setBlock_same hb fun q => load_links q offset words)

/-- The ring of IRQ links, block by block. -/
theorem groupInit_eq (w : World) (g : GroupAddr) (blocks : List BlockAddr) : w.groupInit g blocks =
    if hasIrqPrevnext then
      (List.range (blocks.take numPio).length).foldl
        (fun w k => ((blocks.take numPio)[k]?).elim w fun b =>
        w.setBlock b ((w.blocks b).setIrqNeighbors
          (blocks.take numPio)[(k + (blocks.take numPio).length - 1) % (blocks.take numPio).length]?
          (blocks.take numPio)[(k + 1) % (blocks.take numPio).length]?))
        (w.setGroup g { w.groups g with blk := blocks.take numPio, shared := false })
    else w.setGroup g { w.groups g with blk := blocks.take numPio, shared := false } := by
  unfold groupInit
  dsimp only
  refine if_congr Iff.rfl (congrArg (fun f => List.foldl f _ _) ?_) rfl
  funext w k
  cases (blocks.take numPio)[k]? <;> rfl

theorem confined_groupInit {g : GroupAddr} {blocks : List BlockAddr} (hg : z.group g = true)
    (hblocks : ∀ c ∈ blocks, z.block c = true) : Confined z (·.groupInit g blocks) := by
  have htake : ∀ c ∈ blocks.take numPio, z.block c = true :=
    fun c hc => hblocks c (List.mem_of_mem_take hc)
  have hform : Confined z fun w =>
      w.setGroup g { w.groups g with blk := blocks.take numPio, shared := false } := by
    intro w u h
    have hgroup : (w.blend z u).groups g = w.groups g := if_pos hg
    exact ⟨by dsimp only; rw [hgroup, blend_setGroup hg],
      h.setGroup htake (h.owners (.shared g) hg)⟩
  have hlink : ∀ k, Confined z fun w => ((blocks.take numPio)[k]?).elim w fun b =>
      w.setBlock b ((w.blocks b).setIrqNeighbors
        (blocks.take numPio)[(k + (blocks.take numPio).length - 1) % (blocks.take numPio).length]?
        (blocks.take numPio)[(k + 1) % (blocks.take numPio).length]?) := by
    intro k
    cases hk : (blocks.take numPio)[k]? with
    | none => exact fun w u h => ⟨rfl, h⟩
    | some b =>
      exact confined_setBlock (f := fun q => q.setIrqNeighbors
          (blocks.take numPio)[(k + (blocks.take numPio).length - 1) % (blocks.take numPio).length]?
          (blocks.take numPio)[(k + 1) % (blocks.take numPio).length]?)
            (htake b (List.mem_of_getElem? hk))
        (fun _ c hc => .inr (htake c (List.mem_of_getElem? hc)))
        (fun _ c hc => .inr (htake c (List.mem_of_getElem? hc))) (fun _ => .inl rfl) fun _ _ hc =>
          .inl hc
  simp only [groupInit_eq]
  split
  · exact (Confined.foldl (l := List.range (blocks.take numPio).length) fun k _ => hlink k).comp
      hform
  · exact hform

theorem confined_groupInitShared {g : GroupAddr} {blocks : List BlockAddr} (hg : z.group g = true)
    (hblocks : ∀ c ∈ blocks, z.block c = true) : Confined z (·.groupInitShared g blocks) := by
  have htake : ∀ c ∈ blocks.take numPio, z.block c = true := fun c hc =>
    hblocks c (List.mem_of_mem_take hc)
  have hform : Confined z fun w =>
      w.setGroup g { w.groups g with shared := true, pads := Pads.initDefaults (blocks.take numPio) } := by
    intro w u h
    have hgroup : (w.blend z u).groups g = w.groups g := if_pos hg
    exact ⟨by dsimp only; rw [hgroup, blend_setGroup hg], h.setGroup (h.members g hg) htake⟩
  have hshare : ∀ b ∈ blocks.take numPio, Confined z fun w =>
      w.setBlock b { w.blocks b with pads := .shared g } := fun b hb =>
    confined_setBlock (f := fun q => { q with pads := .shared g }) (htake b hb)
      (fun _ _ hc => .inl hc)
      (fun _ _ hc => .inl hc) (fun _ => .inr hg) fun _ _ hc => .inl hc
  exact (Confined.foldl hshare).comp (hform.comp (confined_groupInit hg hblocks))

omit [Platform] in
theorem confined_groupOpen {g : GroupAddr} (hg : z.group g = true) :
    Confined z (·.groupOpen g) := by
  intro w u h
  have hopen : Confined z fun v => (w.groups g).blk.foldl (fun w b => w.openWindow b) v :=
    .foldl fun c hc => confined_of_wiring (fun _ => wiring_openWindow) fun _ _ _ =>
      blend_openWindow (h.members g hg c hc)
  have hgroup : (w.blend z u).groups g = w.groups g := if_pos hg
  unfold groupOpen
  dsimp only
  rw [hgroup]
  exact hopen w u h

theorem confined_groupEnd {g : GroupAddr} (hg : z.group g = true) : Confined z (·.groupEnd g) := by
  intro w u h
  have hgroup : (w.blend z u).groups g = w.groups g := if_pos hg
  unfold groupEnd
  dsimp only
  rw [hgroup, padsAt_blend (r := .shared g) hg]
  split
  · exact ⟨blend_setPads (r := .shared g) hg _, h.of_wiring (wiring_setPads rfl)⟩
  · exact ⟨rfl, h⟩

/-- A call on the zone reaches no further. -/
theorem confined_step {c : Call} (hc : c.inside z = true) : Confined z (·.step c) := by
  cases c with
  | sm b k op => exact confined_modifySm hc fun s => op.apply s
  | block b op => exact confined_blockOp hc
  | pad b op => exact confined_modifyPads hc fun p => owners_padOp p op
  | init b =>
    exact confined_setBlock (f := fun _ => Pio.initial b) hc (fun _ _ h => nomatch h)
      (fun _ _ h => nomatch h)
      (fun _ => .inr hc) fun _ c h => .inr (by rwa [List.mem_singleton.mp h])
  | setEnabled b k enabled => exact (confined_resolvePads hc).comp (confined_modifySm hc _)
  | setSmMaskEnabled b mask enabled => exact confined_setSmMaskEnabled hc mask enabled
  | clkdivRestartSmMask b mask => exact confined_clkdivRestartSmMask hc mask
  | enableSmMaskInSync b mask =>
    exact (confined_clkdivRestartSmMask hc mask).comp (confined_setSmMaskEnabled hc mask true)
  | setConsecutivePindirs b k base count isOut =>
    refine (confined_resolvePads hc).comp
      (confined_of_wiring (fun _ => wiring_modifySm _) fun w u _ => ?_)
    rw [physPin_blend hc, blend_modifySm hc]
  | smInit b k pc cfg => exact confined_modifySm hc (·.init pc cfg)
  | smExec b k insn =>
    exact confined_of_wiring (fun _ => wiring_smExec insn) fun _ _ h => blend_smExec h hc insn
  | gpioSetFunction b pin f => exact confined_gpioSetFunction hc pin f
  | groupInit g blocks =>
    simp only [Call.inside, Bool.and_eq_true, List.all_eq_true] at hc
    exact confined_groupInit hc.1 hc.2
  | groupInitShared g blocks =>
    simp only [Call.inside, Bool.and_eq_true, List.all_eq_true] at hc
    exact confined_groupInitShared hc.1 hc.2
  | loadProgram b k offset prog => exact confined_loadProgram hc offset prog
  | tickSms b => exact confined_of_wiring (fun _ => wiring_tickSms) fun _ _ h => blend_tickSms h hc
  | tickEnd b => exact confined_of_wiring (fun _ => wiring_tickEnd) fun _ _ h => blend_tickEnd h hc
  | groupOpen g => exact confined_groupOpen hc
  | groupEnd g => exact confined_groupEnd hc

/-! ### Runs -/

def seen (z : Zone) (w : World) : (BlockAddr → Option Pio) × (GroupAddr → Option Group) :=
  (fun b => if z.block b then some (w.blocks b) else none,
    fun g => if z.group g then some (w.groups g) else none)

section
omit [Platform]

theorem seen_blend : seen z (w.blend z u) = seen z w := by
  refine Prod.ext (funext fun b => ?_) (funext fun g => ?_)
  · simp only [seen, blend]
    split <;> rfl
  · simp only [seen, blend]
    split <;> rfl

/-- A world that looks the same in the zone is this one in other surroundings. -/
theorem eq_blend_of_seen (h : seen z w = seen z v) : v = w.blend z v := by
  obtain ⟨hblocks, hgroups⟩ := Prod.mk.inj h
  have hworld : ∀ s t : World, s.blocks = t.blocks → s.groups = t.groups → s = t := by
    rintro ⟨_, _⟩ ⟨_, _⟩ rfl rfl
    rfl
  refine hworld _ _ (funext fun b => ?_) (funext fun g => ?_)
  · have hb := congrFun hblocks b
    simp only [blend]
    split
    · rename_i hin
      simp only [if_pos hin, Option.some.injEq] at hb
      exact hb.symm
    · rfl
  · have hg := congrFun hgroups g
    simp only [blend]
    split
    · rename_i hin
      simp only [if_pos hin, Option.some.injEq] at hg
      exact hg.symm
    · rfl

/-- The rest of a world is not touched by replacing the zone. -/
theorem seen_rest_blend : seen z.rest (w.blend z u) = seen z.rest u := by
  refine Prod.ext (funext fun b => ?_) (funext fun g => ?_)
  · cases hb : z.block b <;> simp [seen, blend, Zone.rest, hb]
  · cases hg : z.group g <;> simp [seen, blend, Zone.rest, hg]

/-- Whether the pointers of the zone stay inside can be seen in the zone. -/
theorem Enclosed.of_seen (h : w.Enclosed z) (hs : seen z w = seen z v) : v.Enclosed z := by
  have hv := eq_blend_of_seen hs
  have hblock : ∀ b, z.block b = true → v.blocks b = w.blocks b := fun b hb => by
    rw [hv, blocks_blend hb]
  have hpads : ∀ r, z.pads r = true → v.padsAt r = w.padsAt r := fun r hr => by
    rw [hv, padsAt_blend hr]
  have hgroup : ∀ g, z.group g = true → v.groups g = w.groups g := fun g hg => by
    rw [hv]
    exact if_pos hg
  refine ⟨fun b hb => ?_, fun b hb => ?_, fun b hb => ?_, fun r hr => ?_, fun g hg => ?_⟩
  · rw [hblock b hb]
    exact h.prev b hb
  · rw [hblock b hb]
    exact h.next b hb
  · unfold padRef
    rw [hblock b hb]
    exact h.pads b hb
  · rw [hpads r hr]
    exact h.owners r hr
  · rw [hgroup g hg]
    exact h.members g hg

/-- What is confined to the zone cannot be seen outside. -/
theorem Confined.seen_rest {f : World → World} (hf : Confined z f) (h : w.Enclosed z) :
    seen z.rest (f w) = seen z.rest w := by
  have hblend := (hf w w h).1
  rw [← eq_blend_of_seen rfl] at hblend
  rw [hblend, seen_rest_blend]

/-- What is confined to the zone does the same to worlds that look the same there. -/
theorem Confined.seen_congr {f : World → World} (hf : Confined z f) (h : w.Enclosed z)
    (hview : seen z w = seen z v) : seen z (f w) = seen z (f v) := by
  rw [eq_blend_of_seen hview, (hf w v h).1, seen_blend]

structure Separated (z : Zone) (w : World) : Prop where
  zone : w.Enclosed z
  rest : w.Enclosed z.rest

theorem Separated.symm (h : Separated z w) : Separated z.rest w :=
  ⟨h.rest, by rw [Zone.rest_rest]; exact h.zone⟩

theorem Confined.separated {f : World → World} (hf : Confined z f) (h : Separated z w) :
    Separated z (f w) :=
  ⟨(hf w w h.zone).2, h.rest.of_seen (hf.seen_rest h.zone).symm⟩

end

/-- Calls on the zone and calls on its surroundings do not interfere. -/
theorem unwinding_step (z : Zone) :
    Noninterference.Unwinding step (seen z) (Call.inside z) (Separated z) (Call.Sided z) where
  keeps := by
    intro w c h hc
    rcases hc with hc | hc
    · exact (confined_step hc).separated h
    · have hrest := (confined_step hc).separated h.symm
      rw [← Zone.rest_rest z]
      exact hrest.symm
  respects := by
    intro w c h hc hin
    have hrest := hc.resolve_left (by rw [hin]; exact Bool.false_ne_true)
    have hseen := (confined_step hrest).seen_rest h.rest
    rwa [Zone.rest_rest] at hseen
  consistent := fun h _ _ hin hview => (confined_step hin).seen_congr h.zone hview

section
omit [Platform]

theorem enclosed_initial (z : Zone) : Enclosed z initial where
  prev _ _ _ h := nomatch h
  next _ _ _ h := nomatch h
  pads _ hb := hb
  owners r hr c hc := by
    cases r with
    | embedded b => rwa [List.mem_singleton.mp hc]
    | shared g => cases hc
  members _ _ _ h := nomatch h

theorem separated_initial (z : Zone) : Separated z initial :=
  ⟨enclosed_initial z, enclosed_initial z.rest⟩

theorem of_seen (h : seen z w = seen z v) : (∀ b, z.block b = true → w.blocks b = v.blocks b) ∧
    ∀ g, z.group g = true → w.groups g = v.groups g := by
  rw [eq_blend_of_seen h]
  exact ⟨fun b hb => (blocks_blend hb).symm, fun g hg => (if_pos hg).symm⟩

end

/-- Blocks and groups that no pointer connects do not interfere: at every interleaving of calls on a
zone with calls on the rest of the memory, the blocks and groups of the zone are as after its own
calls alone, and no pointer leads out of it. -/
theorem zones_do_not_interfere {z : Zone} {w : World} (h : Separated z w) {cs : List Call}
    (hcs : ∀ c ∈ cs, c.Sided z) :
    (∀ b, z.block b = true → (w.run cs).blocks b = (w.run (cs.filter (Call.inside z))).blocks b) ∧
      (∀ g, z.group g = true → (w.run cs).groups g = (w.run (cs.filter (Call.inside z))).groups g) ∧
      Separated z (w.run cs) := by
  obtain ⟨hblocks, hgroups⟩ := of_seen ((unwinding_step z).purge hcs h h rfl)
  exact ⟨hblocks, hgroups, (unwinding_step z).run_inv hcs h⟩

omit [Platform] in
/-- Two blocks on shared pads, and a third that is driven meanwhile. -/
theorem zones_do_not_interfere_three :
    let _ : Platform := ⟨.rp2350⟩
    let z : Zone := ⟨fun b => b == 0 || b == 1, fun g => g == 0⟩
    let cs : List Call :=
      [.groupInitShared 0 [0, 1], .setEnabled 2 0 true, .setEnabled 1 3 true, .tickSms 0,
      .smExec 2 0 0xE081, .tickSms 2, .tickSms 1, .tickEnd 2, .groupEnd 0]
    ((initial.run cs).groups 0).pads.inSync0 =
      ((initial.run (cs.filter (Call.inside z))).groups 0).pads.inSync0 := by
  intro _ z cs
  have hcs : ∀ c ∈ cs, c.Sided z := by
    simp only [cs, List.forall_mem_cons]
    exact ⟨.inl rfl, .inr rfl, .inl rfl, .inl rfl, .inr rfl, .inr rfl, .inl rfl, .inr rfl, .inl rfl,
      List.forall_mem_nil _⟩
  have h := (zones_do_not_interfere (separated_initial z) hcs).2.1 0 rfl
  exact congrArg (fun grp : Group => grp.pads.inSync0) h

end World
end PioSim
