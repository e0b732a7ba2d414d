import PioSim.ClockTree
import PioSim.DmaClient
import PioSim.Fixtures

/-!
# The whole chip

`pio_chip_t` puts every PIO block of the device around one set of pads, attaches the DMA controller
to all of them and adds the clock tree. A chip tick is a tick of the group and then one cycle of the
bus. Whatever the host, the devices and the hooks do short of rewiring the chip, its blocks stay
wired as `pio_chip_init` left them and count the same ticks, and the bus moves at most one element
in each.
-/

namespace PioSim

variable [Platform]

/-- `pio_chip_t`: where its blocks and its group lie, what its pointers reach, and its clock
tree. -/
structure PioChip where
  blocks : Fin numPio → BlockAddr
  apart : Function.Injective blocks
  grp : GroupAddr
  chip : Chip
  clk : ClkTree

theorem numPio_pos : 0 < numPio := by
  unfold numPio
  split <;> decide

namespace PioChip

variable (c : PioChip)

def ptrs : List BlockAddr := List.ofFn c.blocks

def init : PioChip :=
  { c with
    chip :=
      { c.chip with
        world := (c.ptrs.foldl World.pioSimInit c.chip.world).groupInitShared c.grp c.ptrs
        dma := .init (c.ptrs.map some) }
    clk := .initDefault }

/-- `pio_chip_tick`; `onTick b` is what block `b`'s device hook does. -/
def tick (cb : Callback) (onTick : BlockAddr → World → World) : PioChip :=
  { c with chip := ({ c.chip with world := c.chip.world.groupTick c.grp onTick }.dmaTick cb).1 }

/-- `pio_chip_run`; `onTick n b` is what block `b`'s device hook does in tick `n`. -/
def run (cb : Callback) (onTick : ℕ → BlockAddr → World → World) : ℕ → PioChip
  | 0 => c
  | n + 1 => (run cb onTick n).tick cb (onTick n)

def pio (index : ℕ) : BlockAddr := c.blocks ⟨index % numPio, Nat.mod_lt _ numPio_pos⟩

/-- `pio_chip_ticks_to_ns`, `pio_chip_ticks_to_us`, `pio_chip_ns_to_ticks` and
`pio_chip_us_to_ticks`. -/
def ticksToNs (ticks : ℕ) : ℕ := c.clk.ticksToNs ticks
def ticksToUs (ticks : ℕ) : ℕ := c.clk.ticksToUs ticks
def nsToTicks (ns : ℕ) : ℕ := c.clk.nsToTicks ns
def usToTicks (us : ℕ) : ℕ := c.clk.usToTicks us

theorem length_ptrs : c.ptrs.length = numPio := List.length_ofFn

theorem nodup_ptrs : c.ptrs.Nodup := List.nodup_ofFn.mpr c.apart

end PioChip

/-! ### The wiring -/

/-- The neighbours of block `i` in the ring of a group; on the RP2040 there is no ring. -/
def ringNeighbours (ptrs : List BlockAddr) (i : ℕ) : Option BlockAddr × Option BlockAddr :=
  if hasIrqPrevnext then (ptrs[(i + ptrs.length - 1) % ptrs.length]?, ptrs[(i + 1) % ptrs.length]?)
    else (none, none)

/-- The blocks `ptrs` are wired as `pio_chip_init` leaves them. -/
structure World.Wired (ptrs : List BlockAddr) (g : GroupAddr) (w : World) : Prop where
  members : (w.groups g).blk = ptrs
  shared : (w.groups g).shared = true
  pads : ∀ b ∈ ptrs, w.padRef b = .shared g
  owners : (w.padsAt (.shared g)).owners = ptrs
  ring : ∀ i b, ptrs[i]? = some b → ((w.blocks b).irqPrev, (w.blocks b).irqNext) =
    ringNeighbours ptrs i

/-- The calls that neither initialise, rewire nor tick a block of the chip. -/
def Call.SparesChip (ptrs : List BlockAddr) (g : GroupAddr) : Call → Prop
  | .init b | .block b (.setIrqNeighbors ..) | .tickEnd b => b ∉ ptrs
  | .groupInit k blocks | .groupInitShared k blocks => k ≠ g ∧ ∀ b ∈ blocks, b ∉ ptrs
  | _ => True

namespace World

variable {w v : World} {b : BlockAddr} {g k : GroupAddr} {ptrs : List BlockAddr} {c : Call}

omit [Platform] in
theorem blocks_foldl_of_not_mem {α : Type*} {f : World → α → World} {l : List α} (w : World)
    (hf : ∀ v, ∀ a ∈ l, (f v a).blocks b = v.blocks b) : (l.foldl f w).blocks b = w.blocks b :=
  List.foldlRecOn (motive := fun v : World => v.blocks b = w.blocks b) l f rfl fun v hv a ha =>
    (hf v a ha).trans hv

omit [Platform] in
theorem groups_foldl {α : Type*} {f : World → α → World}
    (hf : ∀ v a, (f v a).groups = v.groups) (w : World)
    (l : List α) : (l.foldl f w).groups = w.groups :=
  List.foldlRecOn (motive := fun v : World => v.groups = w.groups) l f rfl fun v hv a _ =>
    (hf v a).trans hv

/-- Forming a group only reaches its members. -/
theorem blocks_groupInit (w : World) (g : GroupAddr) {blocks : List BlockAddr} (hb : b ∉ blocks) :
    (w.groupInit g blocks).blocks b = w.blocks b := by
  unfold groupInit
  simp only
  split
  · refine blocks_foldl_of_not_mem _ fun v i _ => ?_
    split
    · rfl
    · rename_i a ha
      have hne : b ≠ a := by
        rintro rfl
        exact hb (List.mem_of_mem_take (List.mem_of_getElem? ha))
      exact Function.update_of_ne hne _ _
  · rfl

theorem groups_groupInit (w : World) (g : GroupAddr) (blocks : List BlockAddr) :
    (w.groupInit g blocks).groups =
    Function.update w.groups g { w.groups g with blk := blocks.take numPio, shared := false } := by
  unfold groupInit
  simp only
  split
  · rw [groups_foldl fun v i => by split <;> rfl]
    rfl
  · rfl

theorem blocks_groupInitShared (w : World) (g : GroupAddr) {blocks : List BlockAddr}
    (hb : b ∉ blocks) :
    (w.groupInitShared g blocks).blocks b = w.blocks b := by
  refine (blocks_foldl_of_not_mem _ fun v a ha => ?_).trans (blocks_groupInit w g hb)
  have hne : b ≠ a := by
    rintro rfl
    exact hb (List.mem_of_mem_take ha)
  exact Function.update_of_ne hne _ _

theorem groups_groupInitShared (w : World) (g : GroupAddr) (blocks : List BlockAddr) :
    (w.groupInitShared g blocks).groups = Function.update w.groups g
      ⟨blocks.take numPio, true, Pads.initDefaults (blocks.take numPio)⟩ := by
  refine List.foldlRecOn (motive := fun v : World => v.groups = Function.update w.groups g
    ⟨blocks.take numPio, true, Pads.initDefaults (blocks.take numPio)⟩) _ _ ?_ fun _ hv _ _ => hv
  simp [setGroup, groups_groupInit]

/-- A call that spares the chip leaves its blocks' wiring and cycle counts, and its group, as they
are. -/
theorem fixtures_of_spares (hc : c.SparesChip ptrs g) (w : World) :
    (∀ b ∈ ptrs, (w.step c).fixtures.1 b = w.fixtures.1 b) ∧
      (w.step c).fixtures.2 g = w.fixtures.2 g := by
  cases hwrites : c.writesFixtures with
  | false =>
    rw [fixtures_step w hwrites]
    exact ⟨fun _ _ => rfl, rfl⟩
  | true =>
    have hblock : ∀ {a : BlockAddr} (p : Pio), a ∉ ptrs →
        (∀ b ∈ ptrs, (w.setBlock a p).fixtures.1 b = w.fixtures.1 b) ∧
          (w.setBlock a p).fixtures.2 g = w.fixtures.2 g := by
      intro a p ha
      refine ⟨fun b hb => ?_, rfl⟩
      have hne : b ≠ a := by
        rintro rfl
        exact ha hb
      simp [fixtures, setBlock, Function.update_of_ne hne]
    cases c with
    | init a => exact hblock _ hc
    | block a op =>
      cases op with
      | setIrqNeighbors prev next => exact hblock _ hc
      | _ => cases hwrites
    | tickEnd a =>
      obtain ⟨hring, hgroups, hcycle⟩ := fixtures_tickEnd w a
      refine ⟨fun b hb => Prod.ext ?_ (hring b), congrFun hgroups g⟩
      have hne : b ≠ a := by
        rintro rfl
        exact hc hb
      refine (hcycle b).trans ?_
      simp [hne, fixtures]
    | groupInit k blocks =>
      refine ⟨fun b hb => ?_, ?_⟩
      · exact congrArg (fun p : Pio => (p.cycle, p.irqPrev, p.irqNext))
          (blocks_groupInit w k fun hmem => hc.2 b hmem hb)
      · refine congrArg (fun p : Group => (p.blk, p.shared)) ?_
        rw [step, groups_groupInit, Function.update_of_ne (Ne.symm hc.1)]
    | groupInitShared k blocks =>
      refine ⟨fun b hb => ?_, ?_⟩
      · exact congrArg (fun p : Pio => (p.cycle, p.irqPrev, p.irqNext))
          (blocks_groupInitShared w k fun hmem => hc.2 b hmem hb)
      · refine congrArg (fun p : Group => (p.blk, p.shared)) ?_
        rw [step, groups_groupInitShared, Function.update_of_ne (Ne.symm hc.1)]
    | _ => cases hwrites

/-- The fixtures of the chip, its pads and their owners are all there is to the wiring. -/
theorem Wired.congr (h : w.Wired ptrs g)
    (hring : ∀ b ∈ ptrs, (v.fixtures.1 b).2 = (w.fixtures.1 b).2)
    (hgroup : v.fixtures.2 g = w.fixtures.2 g) (hpads : ∀ b ∈ ptrs, v.padRef b = w.padRef b)
    (howners : (v.padsAt (.shared g)).owners = (w.padsAt (.shared g)).owners) : v.Wired ptrs g where
  members := (congrArg Prod.fst hgroup).trans h.members
  shared := (congrArg Prod.snd hgroup).trans h.shared
  pads b hb := (hpads b hb).trans (h.pads b hb)
  owners := howners.trans h.owners
  ring i b hi := (hring b (List.mem_of_getElem? hi)).trans (h.ring i b hi)

theorem Wired.step (h : w.Wired ptrs g) (hc : c.SparesChip ptrs g) :
    (w.step c).Wired ptrs g ∧ ∀ b ∈ ptrs, ((w.step c).blocks b).cycle = (w.blocks b).cycle := by
  obtain ⟨hblocks, hgroup⟩ := fixtures_of_spares hc w
  refine ⟨h.congr (fun b hb => congrArg Prod.snd (hblocks b hb)) hgroup (fun b hb => ?_) ?_,
    fun b hb => congrArg Prod.fst (hblocks b hb)⟩
  · rw [padRef_step]
    cases c with
    | init a =>
      refine if_neg ?_
      rintro rfl
      exact hc hb
    | groupInitShared k blocks => exact if_neg fun hmem => hc.2 b (List.mem_of_mem_take hmem) hb
    | _ => rfl
  · refine owners_step w (fun b hr => by cases hr) fun k blocks hr he => ?_
    cases hr
    rw [he] at hc
    exact hc.1 rfl

theorem Wired.run (h : w.Wired ptrs g) {cs : List Call} (hcs : ∀ c ∈ cs, c.SparesChip ptrs g) :
    (w.run cs).Wired ptrs g ∧ ∀ b ∈ ptrs, ((w.run cs).blocks b).cycle = (w.blocks b).cycle :=
  List.foldlRecOn
    (motive := fun v : World => v.Wired ptrs g ∧
    ∀ b ∈ ptrs, (v.blocks b).cycle = (w.blocks b).cycle)
    cs _ ⟨h, fun _ _ => rfl⟩ fun _ hv c hc =>
      have hstep := hv.1.step (hcs c hc)
      ⟨hstep.1, fun b hb => (hstep.2 b hb).trans (hv.2 b hb)⟩

/-! ### The ring -/

omit [Platform] in
/-- The loop of `pio_sim_group_init` over the first `n` blocks. -/
theorem ring_loop (w : World) (hnodup : ptrs.Nodup) {i : ℕ} (hi : ptrs[i]? = some b) (n : ℕ) :
    let v := (List.range n).foldl (fun (w : World) j =>
      match ptrs[j]? with
      | none => w
      | some a => w.setBlock a ((w.blocks a).setIrqNeighbors
          ptrs[(j + ptrs.length - 1) % ptrs.length]? ptrs[(j + 1) % ptrs.length]?)) w
    ((v.blocks b).irqPrev, (v.blocks b).irqNext) = if i < n
      then (ptrs[(i + ptrs.length - 1) % ptrs.length]?, ptrs[(i + 1) % ptrs.length]?)
      else ((w.blocks b).irqPrev, (w.blocks b).irqNext) := by
  induction n with
  | zero => rfl
  | succ n ih =>
    simp only [List.range_succ, List.foldl_append, List.foldl_cons, List.foldl_nil] at ih ⊢
    generalize (List.range n).foldl _ w = v at ih ⊢
    split
    · rename_i hnone
      have hne : i ≠ n := by
        rintro rfl
        rw [hi] at hnone
        cases hnone
      simp only [ih, show i < n + 1 ↔ i < n by omega]
    · rename_i a ha
      by_cases he : i = n
      · subst he
        obtain rfl : b = a := Option.some.inj (hi.symm.trans ha)
        simp [setBlock, Pio.setIrqNeighbors]
      · have hne : b ≠ a := by
          rintro rfl
          obtain ⟨hlt, hget⟩ := List.getElem?_eq_some_iff.mp hi
          obtain ⟨hlt', hget'⟩ := List.getElem?_eq_some_iff.mp ha
          exact he ((List.Nodup.getElem_inj_iff hnodup).mp (hget.trans hget'.symm))
        simp only [setBlock, Function.update_of_ne hne, ih, show i < n + 1 ↔ i < n by omega]

/-- `pio_sim_group_init` links each of its blocks to the one before and the one after it. -/
theorem ring_groupInit (w : World) (g : GroupAddr) (hnodup : ptrs.Nodup)
    (hlen : ptrs.length ≤ numPio) {i : ℕ}
    (hi : ptrs[i]? = some b) (halone : (w.blocks b).irqPrev = none ∧ (w.blocks b).irqNext = none) :
    (((w.groupInit g ptrs).blocks b).irqPrev, ((w.groupInit g ptrs).blocks b).irqNext) =
      ringNeighbours ptrs i := by
  have htake : ptrs.take numPio = ptrs := List.take_of_length_le hlen
  unfold groupInit ringNeighbours
  simp only [htake]
  split
  · refine (ring_loop _ hnodup hi ptrs.length).trans (if_pos ?_)
    exact (List.getElem?_eq_some_iff.mp hi).1
  · exact Prod.ext halone.1 halone.2

omit [Platform] in
/-- `pio_sim_init` of each block leaves it alone with its own state. -/
theorem blocks_inits (w : World) (l : List BlockAddr) (b : BlockAddr) :
    (l.foldl pioSimInit w).blocks b = if b ∈ l then Pio.initial b else w.blocks b := by
  induction l generalizing w with
  | nil => rfl
  | cons a l ih =>
    rw [List.foldl_cons, ih]
    by_cases hl : b ∈ l
    · rw [if_pos hl, if_pos (List.mem_cons_of_mem a hl)]
    · rw [if_neg hl]
      by_cases ha : b = a
      · subst ha
        rw [if_pos List.mem_cons_self]
        exact Function.update_self _ _ _
      · rw [if_neg (by simp [ha, hl])]
        exact Function.update_of_ne ha _ _

theorem cycle_groupInit (w : World) (g : GroupAddr) (blocks : List BlockAddr) (b : BlockAddr) :
    ((w.groupInit g blocks).blocks b).cycle = (w.blocks b).cycle := by
  refine Bystander.groupInit (g := fun v : World => (v.blocks b).cycle) w g blocks (fun _ => rfl)
    fun v a _ _ => ?_
  by_cases ha : b = a
  · subst ha
    simp [setBlock, Pio.setIrqNeighbors]
  · simp [setBlock, Function.update_of_ne ha]

/-- What `pio_chip_init` makes of the blocks. -/
theorem wired_init (w : World) (g : GroupAddr) (hnodup : ptrs.Nodup) (hlen : ptrs.length ≤ numPio) :
    let v := (ptrs.foldl pioSimInit w).groupInitShared g ptrs
    v.Wired ptrs g ∧ ∀ b ∈ ptrs, (v.blocks b).cycle = 0 := by
  have htake : ptrs.take numPio = ptrs := List.take_of_length_le hlen
  obtain ⟨hpads, hset, -, -⟩ := groupInitShared_sets (ptrs.foldl pioSimInit w) g ptrs
  have hgroup := congrFun (groups_groupInitShared (ptrs.foldl pioSimInit w) g ptrs) g
  rw [Function.update_self, htake] at hgroup
  -- pointing a block at the shared pads leaves the rest of it alone
  have hshare : ∀ b, let v := (ptrs.foldl pioSimInit w).groupInitShared g ptrs
      let u := (ptrs.foldl pioSimInit w).groupInit g ptrs
      (v.blocks b).cycle = (u.blocks b).cycle ∧ (v.blocks b).irqPrev = (u.blocks b).irqPrev ∧
        (v.blocks b).irqNext = (u.blocks b).irqNext := by
    intro b v u
    refine List.foldlRecOn (motive := fun x : World => (x.blocks b).cycle = (u.blocks b).cycle ∧
      (x.blocks b).irqPrev = (u.blocks b).irqPrev ∧ (x.blocks b).irqNext = (u.blocks b).irqNext) _ _
      ⟨rfl, rfl, rfl⟩ fun x hx a _ => ?_
    by_cases ha : b = a
    · subst ha
      simpa [setBlock] using hx
    · simpa [setBlock, Function.update_of_ne ha] using hx
  refine ⟨⟨?_, ?_, fun b hb => ?_, ?_, fun i b hi => ?_⟩, fun b hb => ?_⟩
  · rw [hgroup]
  · rw [hgroup]
  · rw [hpads, htake, if_pos hb]
  · rw [hset, htake]
    rfl
  · have hb : b ∈ ptrs := List.mem_of_getElem? hi
    have hring := ring_groupInit (ptrs.foldl pioSimInit w) g hnodup hlen hi
      (by rw [blocks_inits, if_pos hb]; exact ⟨rfl, rfl⟩)
    rw [← hring]
    exact Prod.ext (hshare b).2.1 (hshare b).2.2
  · rw [(hshare b).1, cycle_groupInit, blocks_inits, if_pos hb]
    rfl

/-! ### Ticks of the group -/

/-- A tick of one block counts for that block alone. -/
theorem Wired.pioSimTick (h : w.Wired ptrs g) {onTick : World → World}
    (hhook : ∀ v, v.Wired ptrs g → (onTick v).Wired ptrs g ∧
      ∀ b ∈ ptrs, ((onTick v).blocks b).cycle = (v.blocks b).cycle)
    (a : BlockAddr) : (w.pioSimTick a onTick).Wired ptrs g ∧ ∀ b ∈ ptrs,
      ((w.pioSimTick a onTick).blocks b).cycle = (w.blocks b).cycle + if b = a then 1 else 0 := by
  obtain ⟨hsms, hcycle⟩ := h.step (c := .tickSms a) trivial
  obtain ⟨hhooked, hcycle'⟩ := hhook _ hsms
  obtain ⟨hring, hgroups, hcount⟩ := fixtures_tickEnd (onTick (w.tickSms a)) a
  refine ⟨hhooked.congr (fun b _ => hring b) (congrFun hgroups g)
    (fun b _ => padRef_step _ (.tickEnd a) b) ?_, fun b hb => ?_⟩
  · exact owners_step _ (c := .tickEnd a) (fun _ _ => by simp) fun _ _ _ => by simp
  · exact (hcount b).trans
      (congrArg (· + if b = a then 1 else 0) ((hcycle' b hb).trans (hcycle b hb)))

/-- A tick of the group counts once for each of its blocks. -/
theorem Wired.groupTick (h : w.Wired ptrs g) (hnodup : ptrs.Nodup)
    {onTick : BlockAddr → World → World}
    (hhook : ∀ a v, v.Wired ptrs g →
      (onTick a v).Wired ptrs g ∧ ∀ b ∈ ptrs, ((onTick a v).blocks b).cycle = (v.blocks b).cycle) :
    (w.groupTick g onTick).Wired ptrs g ∧
      ∀ b ∈ ptrs, ((w.groupTick g onTick).blocks b).cycle = (w.blocks b).cycle + 1 := by
  obtain ⟨hopen, hcycle⟩ := h.step (c := .groupOpen g) trivial
  have hloop : ∀ (l : List BlockAddr) (v : World), l.Nodup → v.Wired ptrs g →
      (l.foldl (fun v a => v.pioSimTick a (onTick a)) v).Wired ptrs g ∧ ∀ b ∈ ptrs,
        ((l.foldl (fun v a => v.pioSimTick a (onTick a)) v).blocks b).cycle =
          (v.blocks b).cycle + if b ∈ l then 1 else 0 := by
    intro l
    induction l with
    | nil => exact fun v _ hv => ⟨hv, fun b _ => by simp⟩
    | cons a l ih =>
      intro v hl hv
      obtain ⟨ha, hl⟩ := List.nodup_cons.mp hl
      obtain ⟨htick, hcount⟩ := hv.pioSimTick (hhook a) a
      obtain ⟨hrest, hcounts⟩ := ih _ hl htick
      refine ⟨hrest, fun b hb => ?_⟩
      rw [List.foldl_cons, hcounts b hb, hcount b hb]
      by_cases he : b = a
      · subst he
        simp [ha]
      · simp [he]
  obtain ⟨hticked, hcounts⟩ := hloop ptrs (w.groupOpen g) hnodup hopen
  obtain ⟨hend, hlast⟩ := hticked.step (c := .groupEnd g) trivial
  have heq : w.groupTick g onTick =
      (ptrs.foldl (fun v a => v.pioSimTick a (onTick a)) (w.groupOpen g)).groupEnd g := by
    rw [World.groupTick, h.members]
  rw [heq]
  refine ⟨hend, fun b hb => (hlast b hb).trans ((hcounts b hb).trans ?_)⟩
  rw [if_pos hb]
  exact congrArg (· + 1) (hcycle b hb)

end World

/-! ### The bus -/

namespace Chip

variable {Q : ChipCall → Prop} {cb : Callback} {s t : Chip}

/-- Everything but a tick of the bus moves nothing. -/
theorem actions_still : Actions (· ≠ .dmaTick) fun s t => t.dma.moves = s.dma.moves where
  refl _ := rfl
  trans h h' := h'.trans h
  pio _ _ _ := rfl
  mem _ _ := rfl
  op s o _ := congrArg (List.filter DmaEvent.isMove) (Dma.op_kept s.dma o).2
  configured _ _ _ _ _ _ _ _ := rfl
  clocked _ h := absurd rfl h
  seat _ _ h := absurd rfl h
  armed _ _ _ _ := by
    simp [Dma.moves, armed, modifyDma, Dma.record, DmaEvent.isMove, Dma.modifyCh, Dma.setCh]
  null _ _ _ := by simp [Dma.moves, modifyDma, Dma.record, DmaEvent.isMove]
  nullRaised _ _ _ := by simp [Dma.moves, flagged, modifyDma, Dma.record, DmaEvent.isMove]
  moved _ _ h := absurd rfl h
  finished _ _ h := absurd rfl h
  chained _ _ _ _ := by simp [Dma.moves, modifyDma, Dma.record, DmaEvent.isMove]

/-- A tick of the bus moves at most one element, if its hooks do not tick it themselves. -/
theorem moves_dmaTick (hcb : ∀ fn ch s, (cb fn ch s).dma.moves = s.dma.moves) (s : Chip) :
    (s.step cb .dmaTick).dma.moves.length ≤ s.dma.moves.length + 1 := by
  have hclocked : s.clocked.dma.moves = s.dma.moves := by
    obtain ⟨tm, htm⟩ := timersTick_eq s.dma
    unfold clocked modifyDma
    rw [htm]
    rfl
  cases hserved : s.clocked.served with
  | none =>
    rw [step_dmaTick_of_idle hserved, hclocked]
    exact Nat.le_succ _
  | some c =>
    have hlt := (ready_of_served hserved).1
    rw [step_dmaTick_of_served hserved]
    have hmoved : (s.clocked.moved c).dma.moves.length = s.dma.moves.length + 1 := by
      rw [← hclocked, Dma.moves, log_moved, List.filter_append, List.length_append]
      rfl
    have hflag : ((s.clocked.moved c).flagged c).dma.moves = (s.clocked.moved c).dma.moves := by
      simp [Dma.moves, flagged, modifyDma, Dma.record, DmaEvent.isMove]
    have hcomplete : ((s.clocked.moved c).complete cb c).dma.moves =
        (s.clocked.moved c).dma.moves := by
      refine actions_still.complete (s := s.clocked.moved c) hcb hlt ?_
      split
      · rfl
      · exact actions_still.raiseIrq hcb hflag
    change ((s.clocked.transferOne cb c).dma.moves).length ≤ _
    rw [transferOne_eq]
    split
    · rw [hcomplete, hmoved]
    · rw [hmoved]

end Chip

/-! ### Runs -/

namespace PioChip

/-- One thing that happens to the chip: a tick, in which block `b`'s device makes the calls `hook
b`, or a call. -/
inductive Event
  | tick (hook : BlockAddr → World → List Call)
  | call (x : ChipCall)

def Event.isTick : Event → Bool
  | .tick _ => true
  | .call _ => false

/-- A call on the chip that neither initialises, rewires nor ticks a part of it. -/
def CallSpares (ptrs : List BlockAddr) (g : GroupAddr) (x : ChipCall) : Prop :=
  x ≠ .dmaTick ∧ ∀ call, x = .pio call → call.SparesChip ptrs g

def Event.Spares (ptrs : List BlockAddr) (g : GroupAddr) : Event → Prop
  | .tick hook => ∀ b w, ∀ call ∈ hook b w, call.SparesChip ptrs g
  | .call x => CallSpares ptrs g x

variable (cb : Callback) (c : PioChip)

def step (c : PioChip) : Event → PioChip
  | .tick hook => c.tick cb fun b w => w.run (hook b w)
  | .call x => { c with chip := c.chip.step cb x }

def play (es : List Event) : PioChip := es.foldl (step cb) c

variable {ptrs : List BlockAddr} {g : GroupAddr} {cb : Callback} {s t : Chip}

/-- What a client does with calls that spare the chip. -/
theorem wired_client (h : Chip.Client (Call.SparesChip ptrs g) s t) (hs : s.world.Wired ptrs g) :
    t.world.Wired ptrs g ∧ ∀ b ∈ ptrs, (t.world.blocks b).cycle = (s.world.blocks b).cycle := by
  obtain ⟨es, acts, -, hworld, -, hcalls⟩ := h.acts
  rw [hworld]
  refine hs.run fun call hcall => ?_
  obtain ⟨act, hact, hcall⟩ := List.mem_flatMap.mp hcall
  cases act with
  | inl x =>
    cases List.mem_singleton.mp hcall
    exact hcalls _ hact
  | inr e =>
    cases e with
    | moved ch src dst v =>
      rcases List.mem_append.mp hcall with hget | hput
      · cases src with
        | rxf k sm =>
          obtain ⟨b, -, rfl⟩ := List.mem_map.mp hget
          trivial
        | _ => cases hget
      · cases dst with
        | txf k sm =>
          obtain ⟨b, -, rfl⟩ := List.mem_map.mp hput
          trivial
        | _ => cases hput
    | _ => cases hcall

/-- What holds after `n` ticks of the chip. -/
structure KeepsTime (ptrs : List BlockAddr) (g : GroupAddr) (n : ℕ) (c : PioChip) : Prop where
  grp : c.grp = g
  wired : c.chip.world.Wired ptrs g
  cycle : ∀ b ∈ ptrs, (c.chip.world.blocks b).cycle = BitVec.ofNat 64 n
  pio : c.chip.dma.pio = ptrs.map some
  moves : c.chip.dma.moves.length ≤ n

theorem KeepsTime.step {n : ℕ} {calls : ℕ → ℕ → Chip → List ChipCall} {m : ℕ}
    {c : PioChip} {e : Event}
    (h : KeepsTime ptrs g n c) (hnodup : ptrs.Nodup)
    (hcalls : ∀ fn ch s, ∀ x ∈ calls fn ch s, CallSpares ptrs g x)
    (he : e.Spares ptrs g) :
    KeepsTime ptrs g (n + e.isTick.toNat) (c.step (.nested calls m) e) := by
  have hclient := Chip.actions_client (Call.SparesChip ptrs g)
  have hnested := hclient.nested (fun fn ch s x hx => (hcalls fn ch s x hx).2) m
  have hstill := Chip.actions_still.nested (fun fn ch s x hx => (hcalls fn ch s x hx).1) m
  cases e with
  | tick hook =>
    have hhook : ∀ a (v : World), v.Wired ptrs g → (v.run (hook a v)).Wired ptrs g ∧
        ∀ b ∈ ptrs, ((v.run (hook a v)).blocks b).cycle = (v.blocks b).cycle :=
      fun a v hv => hv.run (he a v)
    obtain ⟨hwired, hcycle⟩ := h.wired.groupTick hnodup hhook
    have htick := hclient.dmaTick hnested (fun call he => by cases he)
      { c.chip with world := c.chip.world.groupTick g fun b w => w.run (hook b w) }
    obtain ⟨hwired', hcycle'⟩ := wired_client htick hwired
    have hmoves := Chip.moves_dmaTick hstill
      { c.chip with world := c.chip.world.groupTick g fun b w => w.run (hook b w) }
    obtain rfl := h.grp
    refine ⟨rfl, hwired', fun b hb => ?_, htick.pio.trans h.pio,
      hmoves.trans (Nat.succ_le_succ h.moves)⟩
    refine (hcycle' b hb).trans ((hcycle b hb).trans ?_)
    rw [h.cycle b hb]
    exact (BitVec.ofNat_add n 1).symm
  | call x =>
    have hcall := hclient.step hnested c.chip he.2
    obtain ⟨hwired, hcycle⟩ := wired_client hcall h.wired
    refine ⟨h.grp, hwired, fun b hb => (hcycle b hb).trans (h.cycle b hb),
      hcall.pio.trans h.pio, ?_⟩
    exact (Nat.le_of_eq (congrArg List.length (Chip.actions_still.step hstill c.chip he.1))).trans
      h.moves

/-- From `pio_chip_init` on, whatever the host, the devices and the hooks call short of
initialising, rewiring or ticking a part of the chip by itself, all blocks stay wired as the
initialisation left them and have counted the ticks of the chip, and the bus has moved at most one
element for each. -/
theorem chip_keeps_time (c : PioChip) (calls : ℕ → ℕ → Chip → List ChipCall) (m : ℕ)
    (es : List Event)
    (hcalls : ∀ fn ch s, ∀ x ∈ calls fn ch s, CallSpares c.ptrs c.grp x)
    (hes : ∀ e ∈ es, e.Spares c.ptrs c.grp) :
    let d := (c.init.play (.nested calls m) es).chip
    d.world.Wired c.ptrs c.grp ∧
      (∀ k, (d.world.blocks (c.pio k)).cycle = BitVec.ofNat 64 (es.countP Event.isTick)) ∧
      d.dma.pio = c.ptrs.map some ∧ d.dma.moves.length ≤ es.countP Event.isTick := by
  intro d
  have hinit : KeepsTime c.ptrs c.grp 0 c.init := by
    obtain ⟨hwired, hcycle⟩ :=
      World.wired_init c.chip.world c.grp c.nodup_ptrs (Nat.le_of_eq c.length_ptrs)
    refine ⟨rfl, hwired, hcycle, List.take_of_length_le ?_, Nat.zero_le _⟩
    rw [List.length_map, c.length_ptrs]
  have hrun : ∀ (l : List Event) (k : ℕ) (u : PioChip), (∀ e ∈ l, e.Spares c.ptrs c.grp) →
      KeepsTime c.ptrs c.grp k u → KeepsTime c.ptrs c.grp (k + l.countP Event.isTick)
          (u.play (.nested calls m) l) := by
    intro l
    induction l with
    | nil => exact fun k u _ hu => hu
    | cons e l ih =>
      intro k u hl hu
      have hrest := ih _ _ (fun e' he' => hl e' (List.mem_cons_of_mem e he'))
        (hu.step (m := m) c.nodup_ptrs hcalls (hl e List.mem_cons_self))
      have hcount : k + (e :: l).countP Event.isTick =
          k + e.isTick.toNat + l.countP Event.isTick := by
        rw [List.countP_cons]
        cases e.isTick with
        | true => exact (Nat.add_right_comm k 1 _).symm
        | false => rfl
      rw [hcount]
      exact hrest
  have hend := hrun es 0 c.init hes hinit
  rw [Nat.zero_add] at hend
  exact ⟨hend.wired, fun k => hend.cycle _ (List.mem_ofFn.mpr ⟨_, rfl⟩), hend.pio, hend.moves⟩

end PioChip
end PioSim

namespace PioSim.PioChip

local instance boardPlatform : Platform := ⟨.rp2350⟩

def board : PioChip :=
  ⟨Fin.val, Fin.val_injective, 0, ⟨World.initial, .init [], fun _ => 0⟩, .initDefault⟩

/-- Two ticks in which every device drives pin 3, and a transfer set up between them. -/
def session : List Event :=
  [.tick fun b _ => [.pad b (.setPin 3 true)],
    .call (.channelConfigure 0 (.default 0) (.txf 1 0) (.mem 16) 2 true),
    .tick fun b _ => [.pad b (.setPin 3 false)]]

theorem chip_keeps_time_session :
    let d := (board.init.play (.nested Chip.again 1) session).chip
    d.world.Wired board.ptrs board.grp ∧
      (∀ k, (d.world.blocks (board.pio k)).cycle = BitVec.ofNat 64 (session.countP Event.isTick)) ∧
      d.dma.pio = board.ptrs.map some ∧ d.dma.moves.length ≤ session.countP Event.isTick := by
  refine chip_keeps_time board Chip.again 1 session (fun _ ch _ x hx => ?_) fun e he => ?_
  · obtain rfl : x = .startChannelMask (1#32 <<< ch) := by simpa [Chip.again] using hx
    exact ⟨by simp, fun call he => by cases he⟩
  · have he : e = session[0] ∨ e = session[1] ∨ e = session[2] := by simpa [session] using he
    rcases he with rfl | rfl | rfl
    · intro b w call hcall
      cases List.mem_singleton.mp hcall
      trivial
    · exact ⟨by simp, fun call he => by cases he⟩
    · intro b w call hcall
      cases List.mem_singleton.mp hcall
      trivial

end PioSim.PioChip
