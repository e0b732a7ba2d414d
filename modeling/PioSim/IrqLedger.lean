import PioSim.Turn
import PioSim.IrqWait

/-!
# The ledger of an IRQ flag

A flag is shared by the state machines of its own block and of the linked ones. Whoever addresses it
and however, a committed `wait 1 irq` takes down a flag that an earlier event put up, so no flag is
waited for more often than it is raised.
-/

namespace PioSim

variable [Platform]

def isWaitIrq (pol : Bool) (insn : Insn) : Bool :=
  opcode insn == 1 && operandOf insn / 32 % 4 == 2 && (operandOf insn).testBit 7 == pol

def isIrqRaise (insn : Insn) : Bool := opcode insn == 6 && !(operandOf insn).testBit 6

def isIrqClear (insn : Insn) : Bool := opcode insn == 6 && (operandOf insn).testBit 6

namespace World

variable {w : World} {b : BlockAddr} {i : Fin 4}

/-- The flag an IRQ operand of state machine `i` resolves to, unless the neighbour is not linked. -/
def irqTarget (w : World) (b : BlockAddr) (i : Fin 4) (insn : Insn) : Option (BlockAddr × ℕ) :=
  (w.irqTargetBlock b (resolveIrqTarget i (operandOf insn % 32)).block).map fun blk =>
    (blk, (resolveIrqTarget i (operandOf insn % 32)).index)

/-! ### What one instruction does to the flags -/

section
omit [Platform]

theorem getLsbD_flagBit (f k : ℕ) :
    (1#8 <<< (k % 8)).getLsbD (f % 8) = decide (f % 8 = k % 8) := by
  have hlt : f % 8 < 8 := Nat.mod_lt _ (by omega)
  by_cases h : f % 8 = k % 8
  · simpa [h] using h ▸ hlt
  · simp only [BitVec.getLsbD_shiftLeft, BitVec.getLsbD_one, hlt, h, decide_true, decide_false]
    simp
    omega

theorem irqGet_irqClear (w : World) (b c : BlockAddr) (f k : ℕ) :
    (w.irqClear c k).irqGet b f = (w.irqGet b f && !decide (b = c ∧ f % 8 = k % 8)) := by
  have hlt : f % 8 < 8 := Nat.mod_lt _ (by omega)
  rw [irqGet_eq, irqGet_eq, irqClear, irqs_setIrq]
  by_cases hb : b = c
  · subst hb
    rw [Function.update_self, BitVec.getLsbD_and, BitVec.getLsbD_not, getLsbD_flagBit]
    simp [hlt, irqs]
  · simp [hb]

theorem irqGet_irqRaise_other (w : World) (b c : BlockAddr) (f k : ℕ) :
    (w.irqRaise c k).irqGet b f = (w.irqGet b f || decide (b = c ∧ f % 8 = k % 8)) := by
  rw [irqGet_eq, irqGet_eq, irqRaise, irqs_setIrq]
  by_cases hb : b = c
  · subst hb
    rw [Function.update_self, BitVec.getLsbD_or, getLsbD_flagBit]
    simp [irqs]
  · simp [hb]

end

/-- An instruction takes down the flag it resolves to, if it is a `wait 1 irq` or an IRQ clear. -/
def TakesDown (w : World) (b : BlockAddr) (i : Fin 4) (insn : Insn) (w' : World) : Prop :=
  ∃ c k, w.irqTarget b i insn = some (c, k) ∧
    (isWaitIrq true insn = true ∨ isIrqClear insn = true) ∧
    w'.irqs = (w.irqClear c k).irqs

/-- An instruction puts up the flag it resolves to, if it is an IRQ set or an `irq wait`. -/
def PutsUp (w : World) (b : BlockAddr) (i : Fin 4) (insn : Insn) (w' : World) : Prop :=
  ∃ c k, w.irqTarget b i insn = some (c, k) ∧ isIrqRaise insn = true ∧
    w'.irqs = (w.irqRaise c k).irqs

theorem irqs_execWait (w : World) (b : BlockAddr) (i : Fin 4) {insn : Insn}
    (hop : opcode insn = 1) :
    (w.execWait b i (operandOf insn)).world.irqs = w.irqs ∨
      w.TakesDown b i insn (w.execWait b i (operandOf insn)).world := by
  unfold execWait
  dsimp only
  split
  · exact Or.inl rfl
  split
  · exact Or.inl rfl
  split
  · rename_i hsource
    split
    · exact Or.inl rfl
    · rename_i blk hblk
      split
      · split
        · rename_i hpol
          have hword : isWaitIrq true insn = true := by simp [isWaitIrq, hop, hsource, hpol]
          exact Or.inr ⟨_, _, by rw [irqTarget, hblk]; rfl, Or.inl hword, rfl⟩
        · exact Or.inl rfl
      · exact Or.inl rfl
  · split <;> exact Or.inl rfl

theorem irqs_execIrq (w : World) (b : BlockAddr) (i : Fin 4) {insn : Insn} (hop : opcode insn = 6) :
    (w.execIrq b i (operandOf insn)).world.irqs = w.irqs ∨
      w.TakesDown b i insn (w.execIrq b i (operandOf insn)).world ∨
      w.PutsUp b i insn (w.execIrq b i (operandOf insn)).world := by
  unfold execIrq
  dsimp only
  split
  · exact Or.inl rfl
  · rename_i blk hblk
    have htarget : w.irqTarget b i insn =
        some (blk, (resolveIrqTarget i (operandOf insn % 32)).index) := by
      rw [irqTarget, hblk]
      rfl
    split
    · rename_i hclr
      exact Or.inr (Or.inl ⟨_, _, htarget, Or.inr (by simp [isIrqClear, hop, hclr]), rfl⟩)
    · rename_i hclr
      have hword : isIrqRaise insn = true := by simp [isIrqRaise, hop, hclr]
      split
      · split
        · exact Or.inl rfl
        · exact Or.inr (Or.inr ⟨_, _, htarget, hword, rfl⟩)
      · exact Or.inr (Or.inr ⟨_, _, htarget, hword, rfl⟩)

theorem irqs_drivePins (w : World) (b : BlockAddr) (i : Fin 4) (base count : ℕ) (v : Word) :
    (w.drivePins b i base count v).irqs = w.irqs := by
  rw [drivePins, irqs_resolvePads, irqs_modifySm]

theorem irqs_drivePindirs (w : World) (b : BlockAddr) (i : Fin 4) (base count : ℕ) (v : Word) :
    (w.drivePindirs b i base count v).irqs = w.irqs := by
  rw [drivePindirs, irqs_resolvePads, irqs_modifySm]

theorem irqs_outStore (w : World) (b : BlockAddr) (i : Fin 4) (dest : ℕ) (val : Word) (count : ℕ) :
    (w.outStore b i dest val count).1.irqs = w.irqs := by
  unfold outStore
  dsimp only
  split
  · split
    · exact irqs_drivePins ..
    · split
      · rw [releaseOutPins, irqs_resolvePads, irqs_modifySm]
      · rfl
  · exact irqs_setSm ..
  · exact irqs_setSm ..
  · exact irqs_drivePindirs ..
  · rfl
  · exact irqs_setSm ..
  · exact irqs_setSm ..
  · rfl

theorem irqs_execMov (w : World) (b : BlockAddr) (i : Fin 4) (operand : ℕ) :
    (w.execMov b i operand).world.irqs = w.irqs := by
  unfold execMov
  dsimp only
  split
  · exact irqs_drivePins ..
  · exact irqs_setSm ..
  · exact irqs_setSm ..
  · split
    · exact irqs_drivePindirs ..
    · rfl
  · exact irqs_setSm ..
  · rfl
  · exact irqs_setSm ..
  · exact irqs_setSm ..

theorem irqs_execSet (w : World) (b : BlockAddr) (i : Fin 4) (operand : ℕ) :
    (w.execSet b i operand).irqs = w.irqs := by
  unfold execSet
  dsimp only
  split
  · exact irqs_drivePins ..
  · exact irqs_setSm ..
  · exact irqs_setSm ..
  · exact irqs_drivePindirs ..
  · rfl

/-- What any instruction word does to the flags. -/
theorem irqs_execInsn (w : World) (b : BlockAddr) (i : Fin 4) (insn : Insn) :
    (w.execInsn b i insn).world.irqs = w.irqs ∨ w.TakesDown b i insn (w.execInsn b i insn).world ∨
      w.PutsUp b i insn (w.execInsn b i insn).world := by
  unfold execInsn
  dsimp only
  split
  · exact Or.inl (irqs_setSm ..)
  · rename_i hop
    exact (w.irqs_execWait b i hop).imp_right Or.inl
  · exact Or.inl (irqs_setSm ..)
  · left
    unfold execOut
    dsimp only
    split
    · exact irqs_setSm ..
    · rw [irqs_outStore, irqs_setSm]
  · left
    split <;> exact irqs_setSm ..
  · exact Or.inl (irqs_execMov ..)
  · rename_i hop
    exact w.irqs_execIrq b i hop
  · exact Or.inl (irqs_execSet ..)

theorem irqs_execOne (w : World) (b : BlockAddr) (i : Fin 4) (insn : Insn) :
    (w.execOne b i insn).world.irqs = (w.execInsn b i insn).world.irqs := irqs_applySideset _ _ _ _

theorem irqTarget_lt {insn : Insn} {c : BlockAddr} {k : ℕ}
    (h : w.irqTarget b i insn = some (c, k)) :
    k < 8 := by
  obtain ⟨blk, -, he⟩ := Option.map_eq_some_iff.mp h
  rw [← (Prod.mk.inj he).2]
  exact resolveIrqTarget_lt _ _

omit [Platform] in
theorem irqGet_congr {w w' : World} (h : w'.irqs = w.irqs) (b : BlockAddr) (f : ℕ) :
    w'.irqGet b f = w.irqGet b f := by
  rw [irqGet_eq, irqGet_eq, h]

/-- A flag that an instruction leaves up was up before, unless the instruction put it up. -/
theorem irqGet_execOne {insn : Insn} {c : BlockAddr} {f : Fin 8}
    (h : (w.execOne b i insn).world.irqGet c f = true) :
    w.irqGet c f = true ∨ isIrqRaise insn = true ∧ w.irqTarget b i insn = some (c, f.val) := by
  rw [irqGet_congr (w.irqs_execOne b i insn)] at h
  rcases w.irqs_execInsn b i insn with he | ⟨c', k, -, -, he⟩ | ⟨c', k, ht, hraise, he⟩
  · exact Or.inl (by rwa [irqGet_congr he] at h)
  · rw [irqGet_congr he, irqGet_irqClear, Bool.and_eq_true] at h
    exact Or.inl h.1
  · rw [irqGet_congr he, irqGet_irqRaise_other, Bool.or_eq_true, decide_eq_true_eq] at h
    refine h.imp_right fun hsame => ⟨hraise, ?_⟩
    obtain ⟨rfl, hk⟩ := hsame
    rw [Nat.mod_eq_of_lt f.isLt, Nat.mod_eq_of_lt (irqTarget_lt ht)] at hk
    rw [ht, hk]

/-- A committed `wait 1 irq` found its flag up and leaves it down. -/
theorem irqGet_waited {insn : Insn} {c : BlockAddr} {f : ℕ} (hword : isWaitIrq true insn = true)
    (ht : w.irqTarget b i insn = some (c, f)) (hc : (w.execOne b i insn).committed = true) :
    w.irqGet c f = true ∧ (w.execOne b i insn).world.irqGet c f = false := by
  simp only [isWaitIrq, Bool.and_eq_true, beq_iff_eq] at hword
  obtain ⟨⟨hop, hsource⟩, hpol⟩ := hword
  obtain ⟨blk, hblk, he⟩ := Option.map_eq_some_iff.mp ht
  obtain ⟨rfl, rfl⟩ := Prod.mk.inj he
  have hinsn : w.execInsn b i insn = w.execWait b i (operandOf insn) := by
    simp only [execInsn, hop]
  have hdone : (w.execWait b i (operandOf insn)).stalled = false := by
    rw [← hinsn]
    simpa [execOne] using hc
  have hwait : w.execWait b i (operandOf insn) =
      if w.irqGet blk (resolveIrqTarget i (operandOf insn % 32)).index = true then
        ⟨w.irqClear blk (resolveIrqTarget i (operandOf insn % 32)).index, false, none⟩
      else ⟨w, true, none⟩ := by
    simp only [execWait, hsource, hblk, hpol, if_true]
    rfl
  rw [irqGet_congr (w.irqs_execOne b i insn), hinsn]
  rw [hwait] at hdone ⊢
  split
  · rename_i hset
    rw [irqGet_irqClear]
    simp [hset]
  · rename_i hclear
    rw [if_neg hclear] at hdone
    cases hdone

/-- A `wait 0 irq` leaves every flag as it is. -/
theorem irqs_waitClear {insn : Insn} (hword : isWaitIrq false insn = true) :
    (w.execOne b i insn).world.irqs = w.irqs := by
  simp only [isWaitIrq, Bool.and_eq_true, beq_iff_eq] at hword
  obtain ⟨⟨hop, -⟩, hpol⟩ := hword
  rw [irqs_execOne]
  rcases w.irqs_execInsn b i insn with he | ⟨-, -, -, htake, -⟩ | ⟨-, -, -, hput, -⟩
  · exact he
  · simp [isWaitIrq, isIrqClear, hop, hpol] at htake
  · simp [isIrqRaise, hop] at hput

end World

/-! ### The ledger -/

/-- What the ledger of a flag records: an event that turns it from 0 to 1, or a `wait 1 irq` that
commits on it. -/
inductive FlagEvent
  | raised
  | consumed
  deriving DecidableEq

/-- The events of a stretch pay for the change of the flag over it. -/
def Balanced (events : List FlagEvent) (before after : Bool) : Prop :=
  events.count .consumed + after.toNat ≤ events.count .raised + before.toNat

section
omit [Platform]

theorem Balanced.append {l m : List FlagEvent} {x y z : Bool} (h : Balanced l x y)
    (h' : Balanced m y z) : Balanced (l ++ m) x z := by
  unfold Balanced at *
  rw [List.count_append, List.count_append]
  omega

theorem Balanced.of_imp {x y : Bool} (h : y = true → x = true) : Balanced [] x y := by
  cases y with
  | false => exact Nat.zero_le _
  | true =>
    rw [h rfl]
    exact Nat.le_refl _

theorem Balanced.of_eq {x y : Bool} (h : y = x) : Balanced [] x y := .of_imp fun hy => h ▸ hy

theorem Balanced.consumed : Balanced [.consumed] true false := Nat.le_refl _

theorem Balanced.raised (x y : Bool) : Balanced [.raised] x y := by
  cases x <;> cases y <;> simp [Balanced]

end

namespace World

variable {w : World} {b : BlockAddr} {i : Fin 4} {c : BlockAddr} {f : Fin 8}

/-- What a presentation of state machine `(b, i)` enters in the ledger of flag `(c, f)`. -/
def turnEvents (c : BlockAddr) (f : Fin 8) (b : BlockAddr) (i : Fin 4) (p : Presentation) :
    List FlagEvent :=
  if p.world.irqTarget b i p.word = some (c, f.val) then
    if isWaitIrq true p.word ∧ p.result.committed then [.consumed]
    else if isIrqRaise p.word ∧ p.world.irqGet c f = false ∧ p.result.world.irqGet c f = true then
      [.raised]
    else []
  else []

/-- What a call enters in the ledger of flag `(c, f)`: the presentations of its state machines in
their order, and the host's own write. -/
def flagEvents (c : BlockAddr) (f : Fin 8) (w : World) : Call → List FlagEvent
  | .tickSms b => (List.finRange 4).flatMap fun i =>
      (presentation b i w (.tickSms b)).elim [] (turnEvents c f b i)
  | .smExec b k insn =>
    (presentation b (smIdx k) w (.smExec b k insn)).elim [] (turnEvents c f b (smIdx k))
  | .block b (.irqForce irq on) =>
    if w.irqGet c f = false ∧ (w.step (.block b (.irqForce irq on))).irqGet c f =
      true then [.raised]
    else []
  | _ => []

theorem balanced_turn {insn : Insn} :
    Balanced (turnEvents c f b i ⟨insn, w, w.execOne b i insn⟩) (w.irqGet c f)
      ((w.execOne b i insn).world.irqGet c f) := by
  unfold turnEvents
  dsimp only
  split
  · rename_i ht
    split
    · rename_i hwait
      obtain ⟨hbefore, hafter⟩ := irqGet_waited hwait.1 ht hwait.2
      rw [hbefore, hafter]
      exact .consumed
    · split
      · exact .raised _ _
      · rename_i hraise
        refine .of_imp fun h => ?_
        by_contra hbefore
        rcases irqGet_execOne h with hup | ⟨hword, -⟩
        · exact hbefore hup
        · exact hraise ⟨hword, by simpa using hbefore, h⟩
  · rename_i ht
    exact .of_imp fun h => (irqGet_execOne h).resolve_right fun hput => ht hput.2

omit [Platform] in
theorem irqs_countFetch (w : World) (b : BlockAddr) (i : Fin 4) :
    (w.countFetch b i).irqs = w.irqs := by
  unfold countFetch
  split
  · rfl
  · exact irqs_setBlock rfl

omit [Platform] in
theorem irqs_turnWorld (w : World) (b : BlockAddr) (i : Fin 4) :
    (w.turnWorld b i).irqs = w.irqs := by
  rw [turnWorld, irqs_countFetch, toppedUp, irqs_modifySm, irqs_modifySm]

/-- One turn of a tick. -/
theorem balanced_smTick (w : World) (b : BlockAddr) (i : Fin 4) :
    Balanced ((presentation b i w (.tickSms b)).elim [] (turnEvents c f b i))
      ((w.beforeSm b i).irqGet c f) (((w.beforeSm b i).smTick b i).irqGet c f) := by
  have hsm := w.sm_beforeSm b i
  have hdue : (w.beforeSm b i).due b i = w.due b i := by
    unfold due
    rw [hsm]
    rfl
  have hdelay : ((w.beforeSm b i).sm b i).delay = (w.sm b i).delay := by
    rw [hsm]
    rfl
  have hword : (w.beforeSm b i).getInstruction b i = w.getInstruction b i := by
    have hmem : ((w.beforeSm b i).blocks b).insn = (w.blocks b).insn :=
      congrArg Prod.fst (congrFun (w.shell_beforeSm b i) b)
    rw [getInstruction, getInstruction, hsm, hmem]
    rfl
  rw [presentation]
  by_cases h : b = b ∧ w.due b i = true ∧ (w.sm b i).delay = 0
  · rw [if_pos h, Option.elim_some, smTick_of_presents (hdue.trans h.2.1)
      (hdelay.trans h.2.2), hword, irqGet_congr (irqs_modifySm ..),
      ← irqGet_congr (irqs_turnWorld (w.beforeSm b i) b i), ← presentWorld_eq]
    exact balanced_turn
  · rw [if_neg h, Option.elim_none]
    refine .of_eq (irqGet_congr ?_ c f)
    cases hd : w.due b i with
    | false => rw [smTick_of_not_due (hdue.trans hd), irqs_modifySm]
    | true =>
      have hwait : (w.sm b i).delay ≠ 0 := fun h0 => h ⟨rfl, hd, h0⟩
      rw [smTick_of_delay (hdue.trans hd) (by omega), irqs_modifySm]

omit [Platform] in
theorem irqs_openWindow (w : World) (b : BlockAddr) : (w.openWindow b).irqs = w.irqs :=
  openWindow_induction (P := fun v => v.irqs = w.irqs)
    (fun _ _ hv => (irqs_modifySm ..).trans hv) rfl

/-- The turns of a tick in their order. -/
theorem balanced_turns (w : World) (b : BlockAddr) {n : ℕ} (hn : n ≤ 4) :
    Balanced (((List.finRange 4).take n).flatMap fun i =>
        (presentation b i w (.tickSms b)).elim [] (turnEvents c f b i)) (w.irqGet c f)
      ((((List.finRange 4).take n).foldl (fun v i => v.smTick b i) (w.openWindow b)).irqGet c
        f) := by
  induction n with
  | zero => exact .of_eq (irqGet_congr (irqs_openWindow w b) c f)
  | succ n ih =>
    have hlt : n < (List.finRange 4).length := by
      rw [List.length_finRange]
      exact hn
    have hturn := balanced_smTick (c := c) (f := f) w b ⟨n, hn⟩
    rw [List.take_succ_eq_append_getElem hlt, List.flatMap_append, List.foldl_append]
    refine (ih (by omega)).append ?_
    simpa [beforeSm] using hturn

theorem balanced_tickSms (w : World) (b : BlockAddr) :
    Balanced (flagEvents c f w (.tickSms b)) (w.irqGet c f) ((w.tickSms b).irqGet c f) := by
  have h := balanced_turns (c := c) (f := f) w b (Nat.le_refl 4)
  rw [List.take_of_length_le (by simp)] at h
  rwa [tickSms, irqGet_congr (irqs_resolvePads ..)]

theorem irqs_smExec (w : World) (b : BlockAddr) (i : Fin 4) (insn : Insn) :
    (w.smExec b i insn).irqs =
    ((w.modifySm b i fun s => { s with stalled := false }).execOne b i insn).world.irqs := by
  unfold smExec
  dsimp only
  split <;> exact irqs_modifySm ..

theorem balanced_smExec (w : World) (b : BlockAddr) (k : ℕ) (insn : Insn) :
    Balanced (flagEvents c f w (.smExec b k insn)) (w.irqGet c f)
      ((w.step (.smExec b k insn)).irqGet c f) := by
  have hstart : (w.modifySm b (smIdx k) fun s => { s with stalled := false }).irqGet c f =
      w.irqGet c f := irqGet_congr (irqs_modifySm ..) c f
  rw [step, irqGet_congr (irqs_smExec ..), ← hstart, flagEvents, presentation, if_pos rfl]
  exact balanced_turn

/-! ### Runs -/

omit [Platform] in
theorem irqs_foldl {α : Type} {g : World → α → World} (hg : ∀ v a, (g v a).irqs = v.irqs)
    (l : List α) (w : World) : (l.foldl g w).irqs = w.irqs :=
  List.foldlRecOn (motive := fun v : World => v.irqs = w.irqs) _ _ rfl
    fun v hv a _ => (hg v a).trans hv

theorem irqs_setSmMaskEnabled (w : World) (b : BlockAddr) (mask : BitVec 8) (enabled : Bool) :
    (w.setSmMaskEnabled b mask enabled).irqs = w.irqs := by
  rw [setSmMaskEnabled, irqs_resolvePads]
  refine irqs_foldl (fun v i => ?_) _ w
  split
  · exact irqs_modifySm ..
  · rfl

omit [Platform] in
theorem irqs_clkdivRestartSmMask (w : World) (b : BlockAddr) (mask : BitVec 8) :
    (w.clkdivRestartSmMask b mask).irqs = w.irqs := by
  refine irqs_foldl (fun v i => ?_) _ w
  split
  · exact irqs_modifySm ..
  · rfl

theorem irqs_groupInit (w : World) (g : GroupAddr) (blocks : List BlockAddr) :
    (w.groupInit g blocks).irqs = w.irqs := by
  unfold groupInit
  dsimp only
  split
  · refine irqs_foldl (fun v k => ?_) _ _
    split
    · rfl
    · exact irqs_setBlock rfl
  · rfl

omit [Platform] in
theorem irqs_load (p : Pio) (offset : ℕ) (insns : List Insn) :
    (p.load offset insns).irq = p.irq := by
  refine List.foldlRecOn (motive := fun q : Pio => q.irq = p.irq) _ _ rfl ?_
  intro q hq x _
  dsimp only
  split <;> exact hq

theorem irqs_tickEnd (w : World) (b : BlockAddr) : (w.tickEnd b).irqs = w.irqs := by
  unfold tickEnd
  dsimp only
  refine (irqs_setBlock (by rfl)).trans ?_
  split
  · exact irqs_setPads ..
  · rfl

/-- Of the calls that let no state machine run, a host force alone can put a flag up. -/
theorem irqGet_step {e : Call} (hforce : ∀ b irq on, e ≠ .block b (.irqForce irq on))
    (htick : ∀ b, e ≠ .tickSms b) (hexec : ∀ b k insn, e ≠ .smExec b k insn)
    (h : (w.step e).irqGet c f = true) : w.irqGet c f = true := by
  have hsame : (w.step e).irqs = w.irqs → w.irqGet c f = true :=
    fun he => by rwa [irqGet_congr he] at h
  cases e with
  | tickSms b => exact absurd rfl (htick b)
  | smExec b k insn => exact absurd rfl (hexec b k insn)
  | sm b k op => exact hsame (by rw [step, irqs_modifySm])
  | block b op =>
    rw [step] at hsame
    cases op with
    | irqForce irq on => exact absurd rfl (hforce b irq on)
    | irqClear irq =>
      have hclear := irqGet_irqClear w c b f irq
      rw [show (w.step (.block b (.irqClear irq))).irqGet c f = _ from hclear,
        Bool.and_eq_true] at h
      exact h.1
    | load offset insns => exact hsame (irqs_setBlock (irqs_load _ _ _))
    | setIrqnSourceMaskEnabled line mask enabled => exact hsame (irqs_setBlock rfl)
    | setIntf line mask on => exact hsame (irqs_setBlock rfl)
    | setIrqNeighbors prev next => exact hsame (irqs_setBlock rfl)
    | setGpioBase base => exact hsame (irqs_setBlock rfl)
  | pad b op => exact hsame (by rw [step, modifyPads, irqs_setPads])
  | init b =>
    rw [step, pioSimInit, irqGet_eq] at h
    by_cases hb : c = b
    · subst hb
      simp [irqs, setBlock, Pio.initial] at h
    · simpa [irqs, setBlock, hb, irqGet_eq] using h
  | setEnabled b k enabled =>
      exact hsame (by rw [step, smSetEnabled, irqs_resolvePads, irqs_modifySm])
  | setSmMaskEnabled b mask enabled => exact hsame (by rw [step, irqs_setSmMaskEnabled])
  | clkdivRestartSmMask b mask => exact hsame (by rw [step, irqs_clkdivRestartSmMask])
  | enableSmMaskInSync b mask =>
    exact hsame (by rw [step, enableSmMaskInSync, irqs_clkdivRestartSmMask, irqs_setSmMaskEnabled])
  | setConsecutivePindirs b k base count isOut =>
    exact hsame (by rw [step, smSetConsecutivePindirs, irqs_resolvePads, irqs_modifySm])
  | smInit b k pc cfg => exact hsame (by rw [step, smInit, irqs_modifySm])
  | gpioSetFunction b pin fn =>
      exact hsame (by rw [step, gpioSetFunction, modifyPads, irqs_setPads])
  | groupInit g blocks => exact hsame (by rw [step, irqs_groupInit])
  | groupInitShared g blocks =>
    refine hsame ?_
    rw [step, groupInitShared]
    have hjoin : ∀ (v : World) (d : BlockAddr),
        (v.setBlock d { v.blocks d with pads := .shared g }).irqs = v.irqs :=
      fun _ _ => irqs_setBlock rfl
    exact (irqs_foldl hjoin _ _).trans (irqs_groupInit ..)
  | loadProgram b k offset prog =>
    refine hsame ?_
    rcases w.loadProgram_cases b (smIdx k) offset prog with he | ⟨words, -, he⟩
    · rw [step, he]
    · rw [step, he, irqs_modifySm, irqs_setBlock (irqs_load _ _ _)]
  | tickEnd b => exact hsame (by rw [step, irqs_tickEnd])
  | groupOpen g => exact hsame (irqs_foldl (fun _ _ => irqs_openWindow ..) _ _)
  | groupEnd g =>
    refine hsame ?_
    rw [step, groupEnd]
    split
    · exact irqs_setPads ..
    · rfl

theorem balanced_irqForce (w : World) (b : BlockAddr) (irq : ℕ) (on : Bool) :
    Balanced (flagEvents c f w (.block b (.irqForce irq on))) (w.irqGet c f)
      ((w.step (.block b (.irqForce irq on))).irqGet c f) := by
  rw [flagEvents]
  split
  · exact .raised _ _
  · rename_i h
    refine .of_imp fun hup => ?_
    by_contra hdown
    exact h ⟨by simpa using hdown, hup⟩

/-- Every call balances the ledger of every flag. -/
theorem balanced_step (w : World) (e : Call) :
    Balanced (flagEvents c f w e) (w.irqGet c f) ((w.step e).irqGet c f) := by
  by_cases hforce : ∃ b irq on, e = .block b (.irqForce irq on)
  · obtain ⟨b, irq, on, rfl⟩ := hforce
    exact balanced_irqForce w b irq on
  by_cases htick : ∃ b, e = .tickSms b
  · obtain ⟨b, rfl⟩ := htick
    exact balanced_tickSms w b
  by_cases hexec : ∃ b k insn, e = .smExec b k insn
  · obtain ⟨b, k, insn, rfl⟩ := hexec
    exact balanced_smExec w b k insn
  have hforce : ∀ b irq on, e ≠ .block b (.irqForce irq on) :=
    fun b irq on he => hforce ⟨b, irq, on, he⟩
  have htick : ∀ b, e ≠ .tickSms b := fun b he => htick ⟨b, he⟩
  have hexec : ∀ b k insn, e ≠ .smExec b k insn := fun b k insn he => hexec ⟨b, k, insn, he⟩
  have hnone : flagEvents c f w e = [] := by
    cases e with
    | tickSms b => exact absurd rfl (htick b)
    | smExec b k insn => exact absurd rfl (hexec b k insn)
    | block b op =>
      cases op with
      | irqForce irq on => exact absurd rfl (hforce b irq on)
      | _ => rfl
    | _ => rfl
  rw [hnone]
  exact .of_imp (irqGet_step hforce htick hexec)

/-- Over every run of calls, whatever state it starts from, a flag of a block is consumed at most
once per event that raises it, and once more if it was up at the start; a `wait 0 irq` changes no
flag. -/
theorem irq_consumed_once_per_raise (w : World) (c : BlockAddr) (f : Fin 8) (es : List Call) :
    (Run.collect step (flagEvents c f) w es).count .consumed ≤
      (Run.collect step (flagEvents c f) w es).count .raised + (w.irqGet c f).toNat ∧
    ∀ (v : World) (b : BlockAddr) (i : Fin 4) (insn : Insn), isWaitIrq false insn = true →
      (v.execOne b i insn).world.irqs = v.irqs := by
  refine ⟨?_, fun v b i insn hword => irqs_waitClear hword⟩
  have hrun := Run.invariant_collect (J := fun v l => Balanced l (w.irqGet c f) (v.irqGet c f))
    (fun v e l hl _ => hl.append (balanced_step v e)) (.of_eq rfl)
    (Run.along_of_forall (C := fun _ _ => True) (fun _ _ => trivial) w es)
  exact Nat.le_trans (Nat.le_add_right _ _) hrun

end World

end PioSim
