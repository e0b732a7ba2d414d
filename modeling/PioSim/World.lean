import PioSim.Pads

/-!
# Blocks, groups and the world they live in

`pio_sim_t` and `pio_sim_group_t` hold pointers: a block points at the pad set it drives and at its
IRQ neighbours, a pad set points back at its owners. `World` is the memory these pointers refer
to, and the accessors below read and write the record behind a pointer.
-/

namespace PioSim

/-- Where a block's `pads` pointer can point: a block's embedded pad set or a group's shared one. -/
inductive PadRef
  | embedded (b : BlockAddr)
  | shared (g : GroupAddr)
  deriving DecidableEq

/-- `pio_sim_t`. The device and trace hooks are not fields: a tick takes the device's work as an
argument and the trace hook only reads. -/
structure Pio where
  insn : Fin 32 → Insn
  insnUsed : Fin 32 → Bool
  sm : Fin 4 → Sm
  irq : BitVec 8
  irqInte : Fin 2 → BitVec 32
  irqIntf : Fin 2 → BitVec 32
  padsEmbedded : Pads
  pads : PadRef
  gpioBase : ℕ
  cycle : BitVec 64
  unwrittenFetches : BitVec 64
  irqPrev : Option BlockAddr
  irqNext : Option BlockAddr

/-- `pio_sim_group_t`; the length of `blk` is `count`. -/
structure Group where
  blk : List BlockAddr
  shared : Bool
  pads : Pads

structure World where
  blocks : BlockAddr → Pio
  groups : GroupAddr → Group

namespace World

variable (w : World)

def sm (b : BlockAddr) (i : Fin 4) : Sm := (w.blocks b).sm i

def setBlock (b : BlockAddr) (p : Pio) : World :=
  { w with blocks := Function.update w.blocks b p }

def setGroup (g : GroupAddr) (grp : Group) : World :=
  { w with groups := Function.update w.groups g grp }

def setSm (b : BlockAddr) (i : Fin 4) (s : Sm) : World :=
  w.setBlock b { w.blocks b with sm := Function.update (w.blocks b).sm i s }

def modifySm (b : BlockAddr) (i : Fin 4) (f : Sm → Sm) : World := w.setSm b i (f (w.sm b i))

def padRef (b : BlockAddr) : PadRef := (w.blocks b).pads

def padsAt : PadRef → Pads
  | .embedded b => (w.blocks b).padsEmbedded
  | .shared g => (w.groups g).pads

def setPads (r : PadRef) (p : Pads) : World :=
  match r with
  | .embedded b => w.setBlock b { w.blocks b with padsEmbedded := p }
  | .shared g => w.setGroup g { w.groups g with pads := p }

def pads (b : BlockAddr) : Pads := w.padsAt (w.padRef b)

def modifyPads (b : BlockAddr) (f : Pads → Pads) : World := w.setPads (w.padRef b) (f (w.pads b))

def resolvePads [Platform] (b : BlockAddr) : World := w.modifyPads b (·.resolve w.sm)

def setIrq (b : BlockAddr) (v : BitVec 8) : World := w.setBlock b { w.blocks b with irq := v }

/-! ### Reading back what was written -/

section Frame
variable {w}

@[simp] theorem sm_setSm_self (b : BlockAddr) (i : Fin 4) (s : Sm) :
    (w.setSm b i s).sm b i = s := by
  simp [sm, setSm, setBlock]

theorem sm_setSm_of_ne {b b' : BlockAddr} {i i' : Fin 4} (h : (b', i') ≠ (b, i)) (s : Sm) :
    (w.setSm b i s).sm b' i' = w.sm b' i' := by
  by_cases hb : b' = b
  · subst hb
    have hi : i' ≠ i := fun he => h (by rw [he])
    simp [sm, setSm, setBlock, Function.update_of_ne hi]
  · simp [sm, setSm, setBlock, Function.update_of_ne hb]

theorem sm_setSm (b b' : BlockAddr) (i i' : Fin 4) (s : Sm) :
    (w.setSm b i s).sm b' i' = if (b', i') = (b, i) then s else w.sm b' i' := by
  split
  · rename_i h
    obtain ⟨rfl, rfl⟩ := Prod.mk.inj h
    exact sm_setSm_self _ _ _
  · rename_i h
    exact sm_setSm_of_ne h s

@[simp] theorem sm_modifySm_self (b : BlockAddr) (i : Fin 4) (f : Sm → Sm) :
    (w.modifySm b i f).sm b i = f (w.sm b i) := sm_setSm_self _ _ _

theorem sm_modifySm_of_ne {b b' : BlockAddr} {i i' : Fin 4} (h : (b', i') ≠ (b, i)) (f : Sm → Sm) :
    (w.modifySm b i f).sm b' i' = w.sm b' i' := sm_setSm_of_ne h _

@[simp] theorem sm_setPads (r : PadRef) (p : Pads) : (w.setPads r p).sm = w.sm := by
  funext b i
  cases r with
  | embedded b' =>
    by_cases hb : b = b'
    · subst hb
      simp [sm, setPads, setBlock]
    · simp [sm, setPads, setBlock, Function.update_of_ne hb]
  | shared g => rfl

@[simp] theorem sm_modifyPads (b : BlockAddr) (f : Pads → Pads) : (w.modifyPads b f).sm = w.sm :=
  sm_setPads _ _

@[simp] theorem sm_resolvePads [Platform] (b : BlockAddr) : (w.resolvePads b).sm = w.sm :=
  sm_setPads _ _

theorem sm_setBlock {b : BlockAddr} {p : Pio} (h : p.sm = (w.blocks b).sm) :
    (w.setBlock b p).sm = w.sm := by
  funext b' i
  by_cases hb : b' = b
  · subst hb
    simp [sm, setBlock, h]
  · simp [sm, setBlock, Function.update_of_ne hb]

@[simp] theorem sm_setIrq (b : BlockAddr) (v : BitVec 8) : (w.setIrq b v).sm = w.sm :=
  sm_setBlock rfl

def irqs (w : World) (b : BlockAddr) : BitVec 8 := (w.blocks b).irq

theorem irqs_setBlock {b : BlockAddr} {p : Pio} (h : p.irq = (w.blocks b).irq) :
    (w.setBlock b p).irqs = w.irqs := by
  funext b'
  by_cases hb : b' = b
  · subst hb
    simp [irqs, setBlock, h]
  · simp [irqs, setBlock, Function.update_of_ne hb]

@[simp] theorem irqs_setSm (b : BlockAddr) (i : Fin 4) (s : Sm) : (w.setSm b i s).irqs = w.irqs :=
  irqs_setBlock rfl

@[simp] theorem irqs_modifySm (b : BlockAddr) (i : Fin 4) (f : Sm → Sm) :
    (w.modifySm b i f).irqs = w.irqs := irqs_setSm _ _ _

@[simp] theorem irqs_setPads (r : PadRef) (p : Pads) : (w.setPads r p).irqs = w.irqs := by
  cases r with
  | embedded b => exact irqs_setBlock rfl
  | shared g => rfl

@[simp] theorem irqs_resolvePads [Platform] (b : BlockAddr) : (w.resolvePads b).irqs = w.irqs :=
  irqs_setPads _ _

@[simp] theorem irqs_setIrq (b : BlockAddr) (v : BitVec 8) :
    (w.setIrq b v).irqs = Function.update w.irqs b v := by
  funext b'
  by_cases hb : b' = b
  · subst hb
    simp [irqs, setIrq, setBlock]
  · simp [irqs, setIrq, setBlock, Function.update_of_ne hb]

theorem padsAt_setBlock {b : BlockAddr} {p : Pio} (h : p.padsEmbedded = (w.blocks b).padsEmbedded) :
    (w.setBlock b p).padsAt = w.padsAt := by
  funext r
  cases r with
  | embedded b' =>
    by_cases hb : b' = b
    · subst hb
      simp [padsAt, setBlock, h]
    · simp [padsAt, setBlock, Function.update_of_ne hb]
  | shared g => rfl

theorem padRef_setBlock {b : BlockAddr} {p : Pio} (h : p.pads = (w.blocks b).pads) :
    (w.setBlock b p).padRef = w.padRef := by
  funext b'
  by_cases hb : b' = b
  · subst hb
    simp [padRef, setBlock, h]
  · simp [padRef, setBlock, Function.update_of_ne hb]

@[simp] theorem padsAt_setSm (b : BlockAddr) (i : Fin 4) (s : Sm) :
    (w.setSm b i s).padsAt = w.padsAt := padsAt_setBlock rfl

@[simp] theorem padRef_setSm (b : BlockAddr) (i : Fin 4) (s : Sm) :
    (w.setSm b i s).padRef = w.padRef := padRef_setBlock rfl

@[simp] theorem padsAt_modifySm (b : BlockAddr) (i : Fin 4) (f : Sm → Sm) :
    (w.modifySm b i f).padsAt = w.padsAt := padsAt_setSm _ _ _

@[simp] theorem padRef_modifySm (b : BlockAddr) (i : Fin 4) (f : Sm → Sm) :
    (w.modifySm b i f).padRef = w.padRef := padRef_setSm _ _ _

@[simp] theorem padsAt_setIrq (b : BlockAddr) (v : BitVec 8) : (w.setIrq b v).padsAt = w.padsAt :=
  padsAt_setBlock rfl

@[simp] theorem padRef_setIrq (b : BlockAddr) (v : BitVec 8) : (w.setIrq b v).padRef = w.padRef :=
  padRef_setBlock rfl

@[simp] theorem padRef_setPads (r : PadRef) (p : Pads) :
    (w.setPads r p).padRef = w.padRef := by
  cases r with
  | embedded b => exact padRef_setBlock rfl
  | shared g => rfl

@[simp] theorem padsAt_setPads_self (r : PadRef) (p : Pads) :
    (w.setPads r p).padsAt r = p := by
  cases r <;> simp [padsAt, setPads, setBlock, setGroup]

theorem padsAt_setPads_of_ne {r r' : PadRef} (h : r' ≠ r) (p : Pads) :
    (w.setPads r p).padsAt r' = w.padsAt r' := by
  cases r with
  | embedded b =>
    cases r' with
    | embedded b' =>
      have hb : b' ≠ b := fun he => h (by rw [he])
      simp [padsAt, setPads, setBlock, Function.update_of_ne hb]
    | shared g => rfl
  | shared g =>
    cases r' with
    | embedded b => rfl
    | shared g' =>
      have hg : g' ≠ g := fun he => h (by rw [he])
      simp [padsAt, setPads, setGroup, Function.update_of_ne hg]

@[simp] theorem padRef_modifyPads (b : BlockAddr) (f : Pads → Pads) :
    (w.modifyPads b f).padRef = w.padRef := padRef_setPads _ _

@[simp] theorem padRef_resolvePads [Platform] (b : BlockAddr) :
    (w.resolvePads b).padRef = w.padRef := padRef_setPads _ _

/-- What the state machines read besides their own records and the pads: instruction memory,
GPIOBASE and the IRQ links. -/
def shell (w : World) (b : BlockAddr) : (Fin 32 → Insn) × ℕ × Option BlockAddr × Option BlockAddr :=
  ((w.blocks b).insn, (w.blocks b).gpioBase, (w.blocks b).irqPrev, (w.blocks b).irqNext)

theorem shell_setBlock {b : BlockAddr} {p : Pio} (hi : p.insn = (w.blocks b).insn)
    (hg : p.gpioBase = (w.blocks b).gpioBase) (hp : p.irqPrev = (w.blocks b).irqPrev)
    (hn : p.irqNext = (w.blocks b).irqNext) : (w.setBlock b p).shell = w.shell := by
  funext b'
  by_cases hb : b' = b
  · subst hb
    simp [shell, setBlock, hi, hg, hp, hn]
  · simp [shell, setBlock, Function.update_of_ne hb]

@[simp] theorem shell_setSm (b : BlockAddr) (i : Fin 4) (s : Sm) :
    (w.setSm b i s).shell = w.shell :=
  shell_setBlock rfl rfl rfl rfl

@[simp] theorem shell_modifySm (b : BlockAddr) (i : Fin 4) (f : Sm → Sm) :
    (w.modifySm b i f).shell = w.shell := shell_setSm _ _ _

theorem insn_modifySm (b c : BlockAddr) (i : Fin 4) (f : Sm → Sm) :
    ((w.modifySm b i f).blocks c).insn = (w.blocks c).insn :=
  congrArg Prod.fst (congrFun (shell_modifySm b i f) c)

@[simp] theorem shell_setIrq (b : BlockAddr) (v : BitVec 8) : (w.setIrq b v).shell = w.shell :=
  shell_setBlock rfl rfl rfl rfl

@[simp] theorem shell_setPads (r : PadRef) (p : Pads) : (w.setPads r p).shell = w.shell := by
  cases r with
  | embedded b => exact shell_setBlock rfl rfl rfl rfl
  | shared g => rfl

@[simp] theorem shell_modifyPads (b : BlockAddr) (f : Pads → Pads) :
    (w.modifyPads b f).shell = w.shell := shell_setPads _ _

@[simp] theorem shell_resolvePads [Platform] (b : BlockAddr) : (w.resolvePads b).shell = w.shell :=
  shell_setPads _ _

end Frame
end World
end PioSim
