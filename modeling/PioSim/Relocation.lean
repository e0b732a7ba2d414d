import PioSim.Placement
import PioSim.Invariant
import PioSim.Injection

/-!
# Relocation preserves behaviour

A program runs the same wherever `pio_asm_load_program` puts it. The state machine's program counter
stays inside the window of the program, every word in it does at its new place what it did at the
old one, and jump targets and wraps move along.
-/

namespace PioSim

variable [Platform]

/-- The word writes PC other than by jumping: an `out pc` or a `mov pc`. -/
def writesPc (insn : Insn) : Bool :=
  (opcode insn == 3 && operandOf insn / 32 % 8 == 5) ||
    (opcode insn == 5 && operandOf insn / 32 % 8 == 5)

/-- The word neither jumps nor writes PC or EXEC. -/
def Straight (insn : Insn) : Prop :=
  opcode insn ≠ 0 ∧ writesPc insn = false ∧ writesExec insn = false

instance decidableStraight (insn : Insn) : Decidable (Straight insn) :=
  inferInstanceAs (Decidable (_ ∧ _ ∧ _))

/-! ### What a word does to the fetch -/

namespace Sm

def fetchState (s : Sm) : ℕ × ℕ × ℕ × Bool × Insn :=
  (s.pc, s.wrapBottom, s.wrapTop, s.execPending, s.execInsn)

variable {s : Sm}

section
omit [Platform]

theorem fetchState_refill : (s.osrRefill.getD s).fetchState = s.fetchState := by
  cases h : s.osrRefill with
  | none => rfl
  | some t =>
    obtain ⟨v, tx, -, rfl⟩ := Sm.osrRefill_eq_some h
    rfl

theorem fetchState_drain : (s.isrDrain.getD s).fetchState = s.fetchState := by
  cases h : s.isrDrain with
  | none => rfl
  | some t =>
    obtain ⟨rx, -, rfl⟩ := Sm.isrDrain_eq_some h
    rfl

theorem fetchState_ite {c : Prop} [Decidable c] {t : Sm} :
    (if c then s else t).fetchState = if c then s.fetchState else t.fetchState :=
  apply_ite fetchState c s t

end

theorem fetchState_execIn (src : Word) (count : ℕ) :
    (s.execIn src count).1.fetchState = s.fetchState := by
  unfold execIn
  simp only
  split
  · rfl
  · simp only [fetchState_ite, fetchState_drain]
    exact ite_self _

theorem fetchState_execPushpull (operand : ℕ) :
    (s.execPushpull operand).1.fetchState = s.fetchState := by
  unfold execPushpull
  simp only
  split_ifs
  any_goals rfl
  · exact fetchState_drain
  · exact fetchState_refill

omit [Platform] in
theorem fetchState_execMovRxfifo (operand : ℕ) :
    (s.execMovRxfifo operand).fetchState = s.fetchState := by
  unfold execMovRxfifo
  simp only
  split_ifs <;> rfl

omit [Platform] in
theorem fetchState_backgroundAutopull : s.backgroundAutopull.fetchState = s.fetchState := by
  rcases s.backgroundAutopull_eq with h | ⟨v, tx, h⟩ <;> rw [h]
  rfl

end Sm

namespace World

variable {w : World} {b : BlockAddr} {i : Fin 4}

theorem fetchState_setPins (r : PinRegs) :
    ((w.setPins b i r).sm b i).fetchState = (w.sm b i).fetchState := by
  rw [sm_setPins_self]
  rfl

/-- A straight word leaves the fetch of its state machine alone. -/
theorem execInsn_straight {insn : Insn} (h : Straight insn) :
    (w.execInsn b i insn).setPc = none ∧
      ((w.execInsn b i insn).world.sm b i).fetchState = (w.sm b i).fetchState := by
  obtain ⟨hjmp, hpc, hexec⟩ := h
  simp only [writesPc, writesExec, Bool.or_eq_false_iff, Bool.and_eq_false_imp, beq_iff_eq,
    beq_eq_false_iff_ne] at hpc hexec
  unfold execInsn
  simp only
  split
  · exact absurd (by assumption) hjmp
  · obtain ⟨hsm, hset⟩ := w.execWait_frame b i (operandOf insn)
    exact ⟨hset, by rw [hsm]⟩
  · exact ⟨rfl, by rw [sm_setSm_self, Sm.fetchState_execIn]⟩
  · rename_i hop
    unfold execOut
    simp only
    split
    · exact ⟨rfl, by rw [sm_setSm_self]; rfl⟩
    · unfold outStore
      simp only
      split
      · split_ifs
        · exact ⟨rfl, by rw [drivePins_eq, fetchState_setPins, sm_setSm_self]; rfl⟩
        · exact ⟨rfl, by rw [releaseOutPins_eq, fetchState_setPins, sm_setSm_self]; rfl⟩
        · exact ⟨rfl, by rw [sm_setSm_self]; rfl⟩
      · exact ⟨rfl, by rw [sm_setSm_self, sm_setSm_self]; rfl⟩
      · exact ⟨rfl, by rw [sm_setSm_self, sm_setSm_self]; rfl⟩
      · exact ⟨rfl, by rw [drivePindirs_eq, fetchState_setPins, sm_setSm_self]; rfl⟩
      · exact absurd (by assumption) (hpc.1 hop)
      · exact ⟨rfl, by rw [sm_setSm_self, sm_setSm_self]; rfl⟩
      · exact absurd (by assumption) (hexec.1 hop)
      · exact ⟨rfl, by rw [sm_setSm_self]; rfl⟩
  · split
    · exact ⟨rfl, by rw [sm_setSm_self, Sm.fetchState_execMovRxfifo]⟩
    · exact ⟨rfl, by rw [sm_setSm_self, Sm.fetchState_execPushpull]⟩
  · rename_i hop
    unfold execMov
    simp only
    split
    · exact ⟨rfl, by rw [drivePins_eq, fetchState_setPins]⟩
    · exact ⟨rfl, by rw [sm_setSm_self]; rfl⟩
    · exact ⟨rfl, by rw [sm_setSm_self]; rfl⟩
    · split
      · exact ⟨rfl, by rw [drivePindirs_eq, fetchState_setPins]⟩
      · exact ⟨rfl, rfl⟩
    · exact absurd (by assumption) (hexec.2 hop)
    · exact absurd (by assumption) (hpc.2 hop)
    · exact ⟨rfl, by rw [sm_setSm_self]; rfl⟩
    · exact ⟨rfl, by rw [sm_setSm_self]; rfl⟩
  · obtain ⟨hsm, hset⟩ := w.execIrq_frame b i (operandOf insn)
    exact ⟨hset, by rw [hsm]⟩
  · refine ⟨rfl, ?_⟩
    unfold execSet
    simp only
    split
    · rw [drivePins_eq, fetchState_setPins]
    · rw [sm_setSm_self]; rfl
    · rw [sm_setSm_self]; rfl
    · rw [drivePindirs_eq, fetchState_setPins]
    · rfl

theorem fetchState_applySideset (ds : DelaySideset) :
    ((w.applySideset b i ds).sm b i).fetchState = (w.sm b i).fetchState := by
  obtain ⟨r, hr⟩ := sm_applySideset w b i ds
  rw [hr]
  rfl

theorem execOne_straight {insn : Insn} (h : Straight insn) :
    (w.execOne b i insn).setPc = none ∧
      ((w.execOne b i insn).world.sm b i).fetchState = (w.sm b i).fetchState := by
  obtain ⟨hset, hfetch⟩ := execInsn_straight (w := w) (b := b) (i := i) h
  exact ⟨hset, (fetchState_applySideset _).trans hfetch⟩

/-- A jump sets its target or nothing, and leaves the rest of the fetch alone. -/
theorem execOne_jmp {insn : Insn} (h : opcode insn = 0) :
    ∃ taken : Bool, (w.execOne b i insn).setPc = (if taken then some (insn.toNat % 32) else none) ∧
      ((w.execOne b i insn).world.sm b i).fetchState = (w.sm b i).fetchState ∧
      (operandOf insn / 32 % 8 = 0 → taken = true) := by
  obtain ⟨x, y, taken, he⟩ := (w.sm b i).execJmp_eq
    (w.inputLevel b (w.physPin b (w.sm b i).jmpPin)) (operandOf insn)
  have hinsn : w.execInsn b i insn = ⟨w.setSm b i { w.sm b i with x := x, y := y }, false,
      if taken then some (operandOf insn % 32) else none⟩ := by
    simp only [execInsn, h, he]
  have htarget : operandOf insn % 32 = insn.toNat % 32 := by
    unfold operandOf
    omega
  refine ⟨taken, ?_, ?_, fun hcond => ?_⟩
  · rw [execOne, hinsn, htarget]
  · refine (fetchState_applySideset _).trans ?_
    rw [hinsn, sm_setSm_self]
    rfl
  · have hjmp : (w.sm b i).execJmp (w.inputLevel b (w.physPin b (w.sm b i).jmpPin))
      (operandOf insn) =
        (w.sm b i, some (operandOf insn % 32)) := by
      unfold Sm.execJmp
      rw [hcond]
      rfl
    rw [hjmp] at he
    cases taken with
    | true => rfl
    | false => cases (Prod.mk.inj he).2

end World

/-! ### The relocated word -/

namespace PioProgram

section
omit [Platform]

theorem and_not_mask (x : Insn) : x &&& ~~~ 0x1F#16 = (x >>> 5) <<< 5 := by
  have hmask : ∀ j : Fin 16, (~~~ 0x1F#16).getLsbD j = decide (5 ≤ j.val) := by decide
  refine BitVec.eq_of_getLsbD_eq fun j hj => ?_
  have hj5 := hmask ⟨j, hj⟩
  simp only at hj5
  rw [BitVec.getLsbD_and, hj5, BitVec.getLsbD_shiftLeft, BitVec.getLsbD_ushiftRight]
  by_cases h5 : 5 ≤ j
  · have hback : 5 + (j - 5) = j := by omega
    simp [h5, hj, hback, Nat.not_lt.mpr h5]
  · simp [h5, Nat.lt_of_not_le h5]

/-- Relocating a jump only replaces its target. -/
theorem toNat_relocate {k : ℕ} {x : Insn} (hop : opcode x = 0) (hk : x.toNat % 32 + k < 32) :
    (relocate k x).toNat = x.toNat / 32 * 32 + (x.toNat % 32 + k) := by
  have hx := x.isLt
  have hm : u8 (x.toNat % 32 + k) % 32 = x.toNat % 32 + k := by
    unfold u8
    omega
  by_cases h0 : k = 0
  · subst h0
    rw [relocate, if_neg fun h => h.2 rfl]
    omega
  · rw [relocate, if_pos ⟨hop, h0⟩, hm, and_not_mask, BitVec.toNat_or, BitVec.toNat_ofNat,
      BitVec.toNat_shiftLeft, BitVec.toNat_ushiftRight, Nat.shiftRight_eq_div_pow, Nat.shiftLeft_eq]
    have hsmall : (x.toNat % 32 + k) % 2 ^ 16 = x.toNat % 32 + k := Nat.mod_eq_of_lt (by omega)
    have hhigh : x.toNat / 2 ^ 5 * 2 ^ 5 % 2 ^ 16 = 2 ^ 5 * (x.toNat / 32) := by omega
    rw [hsmall, hhigh, ← Nat.two_pow_add_eq_or_of_lt (by omega : x.toNat % 32 + k < 2 ^ 5)]
    omega

theorem relocate_of_ne {k : ℕ} {x : Insn} (h : opcode x ≠ 0) : relocate k x = x :=
  if_neg fun hc => h hc.1

end

end PioProgram

omit [Platform] in
theorem Sm.execJmp_relocated {s : Sm} {pin : Bool} {operand operand' k : ℕ}
    (hcond : operand' / 32 % 8 = operand / 32 % 8) (htarget : operand' % 32 = operand % 32 + k) :
    s.execJmp pin operand' =
      ((s.execJmp pin operand).1, (s.execJmp pin operand).2.map (· + k)) := by
  unfold execJmp
  rw [hcond, htarget]
  generalize operand / 32 % 8 = cond
  have htake : ∀ taken : Bool, (if taken = true then some (operand % 32 + k) else none) =
      (if taken = true then some (operand % 32) else none).map (· + k) := fun taken => by
    cases taken <;> rfl
  match cond with
  | 0 => rfl
  | 1 => exact Prod.ext rfl (htake _)
  | 2 => exact Prod.ext rfl (htake _)
  | 3 => exact Prod.ext rfl (htake _)
  | 4 => exact Prod.ext rfl (htake _)
  | 5 => exact Prod.ext rfl (htake _)
  | 6 => exact Prod.ext rfl (htake _)
  | _ + 7 => exact Prod.ext rfl (htake _)

namespace World

variable {w : World} {b : BlockAddr} {i : Fin 4}

/-- A relocated jump does what it did, but for its target. -/
theorem execOne_relocate {k : ℕ} {x : Insn} (hop : opcode x = 0) (hk : x.toNat % 32 + k < 32) :
    w.execOne b i (PioProgram.relocate k x) =
      { w.execOne b i x with setPc := (w.execOne b i x).setPc.map (· + k) } := by
  have hx := PioProgram.toNat_relocate hop hk
  have hop' : opcode (PioProgram.relocate k x) = 0 := by
    unfold opcode at hop ⊢
    omega
  have hdelay : delayField (PioProgram.relocate k x) = delayField x := by
    unfold delayField
    omega
  have hcond : operandOf (PioProgram.relocate k x) / 32 % 8 = operandOf x / 32 % 8 := by
    unfold operandOf
    omega
  have htarget : operandOf (PioProgram.relocate k x) % 32 = operandOf x % 32 + k := by
    unfold operandOf
    omega
  simp only [execOne, execInsn, hop, hop', hdelay, Sm.execJmp_relocated hcond htarget]

end World

/-! ### The window of the program -/

/-- The programs the property is about: the wrap is inside, jumps stay inside, the last word is at
the top of the wrap or jumps away, and nothing else writes PC or EXEC. -/
structure PioProgram.Relocatable (prog : PioProgram) : Prop where
  bottom : prog.wrapBottom < prog.count
  top : prog.wrapTop < prog.count
  jump : ∀ a < prog.count, opcode (prog.insns (Fin.ofNat 32 a)) = 0 →
    (prog.insns (Fin.ofNat 32 a)).toNat % 32 < prog.count
  straight : ∀ a < prog.count, opcode (prog.insns (Fin.ofNat 32 a)) ≠ 0 →
    Straight (prog.insns (Fin.ofNat 32 a))
  last : prog.wrapTop + 1 = prog.count ∨ opcode (prog.insns (Fin.ofNat 32 (prog.count - 1))) = 0 ∧
    operandOf (prog.insns (Fin.ofNat 32 (prog.count - 1))) / 32 % 8 = 0

/-- The instruction memory of a block, which of it is loaded, and the count of fetches from the
rest. -/
def World.ledger (w : World) (b : BlockAddr) : (Fin 32 → Insn) × (Fin 32 → Bool) × BitVec 64 :=
  ((w.blocks b).insn, (w.blocks b).insnUsed, (w.blocks b).unwrittenFetches)

/-- Both memories hold the program, the one that `p` moves to at offset `k`. -/
structure Placement.Carries (p : Placement) (prog : PioProgram) (k : ℕ) (b : BlockAddr) (i : Fin 4)
    (mem : (Fin 32 → Insn) × (Fin 32 → Bool) × BitVec 64) : Prop where
  idle : ∀ c, c ≠ b → p.Idle c
  amount : ∀ j, p.amount b j = if j = i then k else 0
  insn : ∀ a < prog.count, mem.1 (Fin.ofNat 32 a) = prog.insns (Fin.ofNat 32 a)
  used : ∀ a < prog.count, mem.2.1 (Fin.ofNat 32 a) = true
  insn_placed : ∀ a < prog.count,
    p.insn b mem.1 (Fin.ofNat 32 (a + k)) = PioProgram.relocate k (prog.insns (Fin.ofNat 32 a))
  used_placed : ∀ a < prog.count, p.used b mem.2.1 (Fin.ofNat 32 (a + k)) = true

namespace World

/-- State machine `(b, i)` runs the program in its window, and it alone runs in block `b`. -/
structure Window (prog : PioProgram) (b : BlockAddr) (i : Fin 4)
    (mem : (Fin 32 → Insn) × (Fin 32 → Bool) × BitVec 64) (w : World) : Prop where
  ledger : w.ledger b = mem
  pc : (w.sm b i).pc < prog.count
  wrapBottom : (w.sm b i).wrapBottom = prog.wrapBottom
  wrapTop : (w.sm b i).wrapTop = prog.wrapTop
  pending : (w.sm b i).execPending = true → Straight (w.sm b i).execInsn
  parked : ∀ j, j ≠ i → (w.sm b j).enabled = false

variable {prog : PioProgram} {k : ℕ} {b : BlockAddr} {i : Fin 4} {w w' : World}
  {mem : (Fin 32 → Insn) × (Fin 32 → Bool) × BitVec 64} {p : Placement}

omit [Platform] in
theorem Window.of_fetch (h : w.Window prog b i mem) (hl : w'.ledger b = w.ledger b)
    (hf : (w'.sm b i).fetchState = (w.sm b i).fetchState)
    (hp : ∀ j, j ≠ i → (w'.sm b j).enabled = (w.sm b j).enabled) : w'.Window prog b i mem := by
  simp only [Sm.fetchState, Prod.mk.injEq] at hf
  obtain ⟨hpc, hbottom, htop, hpend, hinsn⟩ := hf
  exact ⟨hl.trans h.ledger, hpc ▸ h.pc, hbottom.trans h.wrapBottom, htop.trans h.wrapTop,
    fun he => hinsn ▸ h.pending (hpend ▸ he), fun j hj => (hp j hj).trans (h.parked j hj)⟩

/-! ### The ledger -/

section
omit [Platform]

theorem ledger_setBlock {c : BlockAddr} {q : Pio} (hi : q.insn = (w.blocks c).insn)
    (hu : q.insnUsed = (w.blocks c).insnUsed)
    (hf : q.unwrittenFetches = (w.blocks c).unwrittenFetches) :
    (w.setBlock c q).ledger = w.ledger := by
  funext d
  by_cases hd : d = c
  · subst hd
    simp [ledger, setBlock, hi, hu, hf]
  · simp [ledger, setBlock, Function.update_of_ne hd]

theorem ledger_setBlock_of_ne {c d : BlockAddr} (h : d ≠ c) (q : Pio) :
    (w.setBlock c q).ledger d = w.ledger d := by
  simp [ledger, setBlock, Function.update_of_ne h]

@[simp] theorem ledger_setSm {c : BlockAddr} {j : Fin 4} (s : Sm) :
    (w.setSm c j s).ledger = w.ledger := ledger_setBlock rfl rfl rfl

@[simp] theorem ledger_modifySm {c : BlockAddr} {j : Fin 4} (f : Sm → Sm) :
    (w.modifySm c j f).ledger = w.ledger := ledger_setSm _

@[simp] theorem ledger_setPads (r : PadRef) (q : Pads) : (w.setPads r q).ledger = w.ledger := by
  cases r with
  | embedded c => exact ledger_setBlock rfl rfl rfl
  | shared g => rfl

end

@[simp] theorem ledger_resolvePads {c : BlockAddr} : (w.resolvePads c).ledger = w.ledger :=
  ledger_setPads _ _

omit [Platform] in
theorem ledger_setIrq (c : BlockAddr) (v : BitVec 8) : (w.setIrq c v).ledger = w.ledger :=
  ledger_setBlock rfl rfl rfl

theorem ledger_setPins {c : BlockAddr} {j : Fin 4} (r : PinRegs) :
    (w.setPins c j r).ledger = w.ledger := (ledger_resolvePads).trans (ledger_modifySm _)

theorem ledger_of_regSteps {c : BlockAddr} {j : Fin 4} (h : RegSteps c j w w') :
    w'.ledger = w.ledger := by
  induction h with
  | refl => rfl
  | tail _ hs ih =>
    cases hs with
    | sm s _ => exact (ledger_setSm s).trans ih
    | irq blk v => exact (ledger_setIrq blk v).trans ih

/-- An execution neither writes the instruction memory nor counts a fetch. -/
theorem ledger_execOne (c : BlockAddr) (j : Fin 4) (insn : Insn) :
    (w.execOne c j insn).world.ledger = w.ledger := by
  have hinsn : (w.execInsn c j insn).world.ledger = w.ledger := by
    obtain ⟨v, hv, he | ⟨r, he⟩⟩ := execInsn_shape w c j insn
    · rw [he, ledger_of_regSteps hv]
    · rw [he, ledger_setPins, ledger_of_regSteps hv]
  rcases (w.execInsn c j insn).world.applySideset_cases c j
    ((w.sm c j).decodeDelaySideset (delayField insn)) with h | ⟨r, h⟩
  · rw [execOne, h, hinsn]
  · rw [execOne, h, ledger_setPins, hinsn]

theorem ledger_smExec (c : BlockAddr) (j : Fin 4) (insn : Insn) :
    (w.smExec c j insn).ledger = w.ledger := by
  have hone := (ledger_execOne (w := w.modifySm c j fun s => { s with stalled := false }) c j
    insn).trans (ledger_modifySm _)
  unfold smExec
  simp only
  split
  · exact (ledger_modifySm _).trans hone
  · exact (ledger_modifySm _).trans hone

section
omit [Platform]

/-- A write of the record that keeps the wrap, the PC in the window and a straight pending word. -/
theorem Window.modifySm (h : w.Window prog b i mem) {f : Sm → Sm}
    (hwrap : (f (w.sm b i)).wrapBottom = (w.sm b i).wrapBottom ∧
      (f (w.sm b i)).wrapTop = (w.sm b i).wrapTop)
    (hpc : (f (w.sm b i)).pc < prog.count)
    (hpend : (f (w.sm b i)).execPending = true → Straight (f (w.sm b i)).execInsn) :
    (w.modifySm b i f).Window prog b i mem := by
  refine ⟨?_, ?_, ?_, ?_, ?_, fun j hj => ?_⟩
  · rw [ledger_modifySm]
    exact h.ledger
  · rw [sm_modifySm_self]
    exact hpc
  · rw [sm_modifySm_self, hwrap.1]
    exact h.wrapBottom
  · rw [sm_modifySm_self, hwrap.2]
    exact h.wrapTop
  · rw [sm_modifySm_self]
    exact hpend
  · rw [sm_modifySm_of_ne fun he => hj (congrArg Prod.snd he)]
    exact h.parked j hj

/-- A write of another record matters only when it enables a state machine of the block. -/
theorem Window.modifySm_of_ne (h : w.Window prog b i mem) {c : BlockAddr} {j : Fin 4}
    (hne : (c, j) ≠ (b, i)) {f : Sm → Sm}
    (hen : c = b → (f (w.sm c j)).enabled = false) : (w.modifySm c j f).Window prog b i mem := by
  have hself : (w.modifySm c j f).sm b i = w.sm b i := sm_modifySm_of_ne (Ne.symm hne) f
  refine ⟨?_, hself ▸ h.pc, hself ▸ h.wrapBottom, hself ▸ h.wrapTop, hself ▸ h.pending,
    fun l hl => ?_⟩
  · rw [ledger_modifySm]
    exact h.ledger
  · by_cases he : (b, l) = (c, j)
    · obtain ⟨rfl, rfl⟩ := Prod.mk.inj he
      rw [sm_modifySm_self]
      exact hen rfl
    · rw [sm_modifySm_of_ne he]
      exact h.parked l hl

theorem Window.congr (h : w.Window prog b i mem) (hl : w'.ledger b = w.ledger b)
    (hsm : w'.sm = w.sm) : w'.Window prog b i mem :=
  h.of_fetch hl (by rw [hsm]) fun _ _ => by rw [hsm]

theorem Window.setPads (h : w.Window prog b i mem) (r : PadRef) (q : Pads) :
    (w.setPads r q).Window prog b i mem := h.congr (by rw [ledger_setPads]) (sm_setPads r q)

end

theorem Window.resolvePads (h : w.Window prog b i mem) (c : BlockAddr) :
    (w.resolvePads c).Window prog b i mem := h.setPads _ _

/-! ### One presentation -/

section Carried

variable (hc : p.Carries prog k b i mem) (hr : prog.Relocatable) (hk : k + prog.count ≤ 32)

omit [Platform] in
/-- What state machine `(b, i)` presents, in both places. -/
theorem Window.getInstruction (hc : p.Carries prog k b i mem) (h : w.Window prog b i mem) :
    ((w.sm b i).execPending = true ∧ w.getInstruction b i = (w.sm b i).execInsn ∧
      (w.placed p).getInstruction b i = (w.sm b i).execInsn) ∨
    ((w.sm b i).execPending = false ∧
      w.getInstruction b i = prog.insns (Fin.ofNat 32 (w.sm b i).pc) ∧
      (w.placed p).getInstruction b i =
        PioProgram.relocate k (prog.insns (Fin.ofNat 32 (w.sm b i).pc))) := by
  have hmem : (w.blocks b).insn = mem.1 := congrArg Prod.fst h.ledger
  have hpc' : ((w.placed p).sm b i).pc = (w.sm b i).pc + k := by
    have hamount := hc.amount i
    rw [if_pos rfl] at hamount
    change (w.sm b i).pc + p.amount b i = _
    rw [hamount]
  have hinsn' : ((w.placed p).blocks b).insn = p.insn b mem.1 := by rw [← hmem]; rfl
  have hpend' : ((w.placed p).sm b i).execPending = (w.sm b i).execPending := rfl
  unfold World.getInstruction
  rw [hpend', hpc', hinsn', hmem, hc.insn _ h.pc, hc.insn_placed _ h.pc]
  cases hp : (w.sm b i).execPending with
  | true => exact .inl ⟨rfl, rfl, rfl⟩
  | false => exact .inr ⟨rfl, rfl, rfl⟩

omit [Platform] in
theorem Window.countFetch (hc : p.Carries prog k b i mem) (h : w.Window prog b i mem) :
    w.countFetch b i = w ∧ (w.placed p).countFetch b i = w.placed p := by
  have hused : (w.blocks b).insnUsed = mem.2.1 := congrArg (·.2.1) h.ledger
  have hu : (w.blocks b).insnUsed (Fin.ofNat 32 (w.sm b i).pc) = true := by
    rw [hused, hc.used _ h.pc]
  have hu' : ((w.placed p).blocks b).insnUsed (Fin.ofNat 32 ((w.placed p).sm b i).pc) = true := by
    change p.used b (w.blocks b).insnUsed (Fin.ofNat 32 ((w.sm b i).pc + p.amount b i)) = true
    rw [hused, hc.amount, if_pos rfl, hc.used_placed _ h.pc]
  unfold World.countFetch
  rw [hu, hu', Bool.or_true, Bool.or_true]
  exact ⟨rfl, rfl⟩

/-- One execution in the window: the two places agree but for the PC set, the fetch is left alone,
and the PC can only leave to inside the window. -/
theorem Window.execOne (hc : p.Carries prog k b i mem) (hr : prog.Relocatable)
    (hk : k + prog.count ≤ 32) (h : w.Window prog b i mem) :
    let r := w.execOne b i (w.getInstruction b i)
    (w.placed p).execOne b i ((w.placed p).getInstruction b i) =
        { r with world := r.world.placed p, setPc := r.setPc.map (· + p.amount b i) } ∧
      (r.world.sm b i).fetchState = (w.sm b i).fetchState ∧
      (∀ t, r.setPc = some t → t < prog.count) ∧
      ((w.sm b i).execPending = true ∧ r.setPc = none ∨ (w.sm b i).execPending = false ∧
        (r.setPc.isSome = true ∨ (w.sm b i).pc = (w.sm b i).wrapTop ∨
          (w.sm b i).pc + 1 < prog.count)) := by
  have hamount : p.amount b i = k := by rw [hc.amount, if_pos rfl]
  have hstraight : ∀ x : Insn, Straight x →
      (w.placed p).execOne b i x = { w.execOne b i x with
        world := (w.execOne b i x).world.placed p
        setPc := (w.execOne b i x).setPc.map (· + p.amount b i) } := by
    intro x hx
    have hset := (execOne_straight (w := w) (b := b) (i := i) hx).1
    simp only [placed_execOne, hset, Option.map_none]
  intro r
  rcases h.getInstruction hc with ⟨hp, hx, hx'⟩ | ⟨hp, hx, hx'⟩
  · have hs := h.pending hp
    obtain ⟨hset, hfetch⟩ := execOne_straight (w := w) (b := b) (i := i) hs
    simp only [r, hx, hx']
    exact ⟨hstraight _ hs, hfetch, fun t ht => (nomatch hset.symm.trans ht), .inl ⟨hp, hset⟩⟩
  · by_cases hop : opcode (prog.insns (Fin.ofNat 32 (w.sm b i).pc)) = 0
    · have htarget := hr.jump _ h.pc hop
      obtain ⟨taken, hset, hfetch, hcond⟩ := execOne_jmp (w := w) (b := b) (i := i) hop
      simp only [r, hx, hx']
      refine ⟨?_, hfetch, fun t ht => ?_, .inr ⟨hp, ?_⟩⟩
      · rw [placed_execOne, execOne_relocate hop (by omega), hamount]
      · rw [hset] at ht
        split at ht
        · exact Option.some.inj ht ▸ htarget
        · cases ht
      · cases taken with
        | true => exact .inl (by rw [hset]; rfl)
        | false =>
          -- an untaken jump in the last word has the wrap there
          have hpc := h.pc
          rw [h.wrapTop]
          rcases hr.last with htop | ⟨hlast, halways⟩
          · omega
          · by_cases hend : (w.sm b i).pc = prog.count - 1
            · rw [hend] at hcond
              cases hcond halways
            · omega
    · have hs := hr.straight _ h.pc hop
      obtain ⟨hset, hfetch⟩ := execOne_straight (w := w) (b := b) (i := i) hs
      rw [PioProgram.relocate_of_ne hop] at hx'
      simp only [r, hx, hx']
      refine ⟨hstraight _ hs, hfetch, fun t ht => (nomatch hset.symm.trans ht), .inr ⟨hp, ?_⟩⟩
      have hpc := h.pc
      rw [h.wrapTop]
      rcases hr.last with htop | ⟨hlast, -⟩
      · omega
      · by_cases hend : (w.sm b i).pc = prog.count - 1
        · rw [hend] at hop
          exact absurd hlast hop
        · omega

theorem Window.present (hc : p.Carries prog k b i mem) (hr : prog.Relocatable)
    (hk : k + prog.count ≤ 32) (h : w.Window prog b i mem) :
    (w.placed p).present b i = (w.present b i).placed p ∧
      (w.present b i).Window prog b i mem := by
  obtain ⟨hcount, hcount'⟩ := h.countFetch hc
  obtain ⟨hone, hfetch, hset, hleave⟩ := h.execOne hc hr hk
  have hamount : p.amount b i = k := by rw [hc.amount, if_pos rfl]
  have hpc := h.pc
  have hbottom := hr.bottom
  have hledger := ledger_execOne (w := w) b i (w.getInstruction b i)
  have hothers : ∀ j, j ≠ i → ((w.execOne b i (w.getInstruction b i)).world.sm b j).enabled =
      (w.sm b j).enabled := fun j hj => by
    rw [(execOne_local w b i _).sm b j fun he => hj (congrArg Prod.snd he)]
  have hafter : (w.execOne b i (w.getInstruction b i)).world.Window prog b i mem :=
    h.of_fetch (congrFun hledger b) hfetch hothers
  simp only [Sm.fetchState, Prod.mk.injEq] at hfetch
  obtain ⟨hpc', hbottom', htop', hpend', hinsn'⟩ := hfetch
  constructor
  · refine placed_present (by rw [hcount, hcount']) (by rw [hcount]; exact hone) ?_
    simp only [hcount, hpc', htop', hamount]
    rcases hleave with ⟨hp, -⟩ | ⟨-, hs | ht | hn⟩
    · exact .inl hp
    · exact .inr (.inl hs)
    · exact .inr (.inr (.inl ht))
    · exact .inr (.inr (.inr (by omega)))
  · unfold World.present
    simp only [hcount]
    split
    · refine hafter.modifySm ?_ ?_ fun hp => ?_
      · unfold Sm.retire
        split <;> exact ⟨rfl, rfl⟩
      · rcases hleave with ⟨hp, hnone⟩ | ⟨hp, hgo⟩
        · rw [hp, hnone]
          exact hafter.pc
        · simp only [Sm.retire, hp, Bool.false_eq_true, if_false]
          cases hs : (w.execOne b i (w.getInstruction b i)).setPc with
          | some t => exact hset t hs
          | none =>
            rw [hs] at hgo
            simp only [Option.isSome_none, Bool.false_eq_true, false_or] at hgo
            rw [Option.getD_none, hpc', htop', hafter.wrapBottom]
            split <;> omega
      · rcases hleave with ⟨hq, -⟩ | ⟨hq, -⟩
        · rw [hq] at hp
          cases hp
        · rw [hq] at hp
          simp only [Sm.retire, Bool.false_eq_true, if_false, hpend', hq] at hp
    · exact hafter.modifySm ⟨rfl, rfl⟩ hafter.pc hafter.pending

omit [Platform] in
theorem Window.modifySm_fetch (h : w.Window prog b i mem) {f : Sm → Sm}
    (hf : (f (w.sm b i)).fetchState = (w.sm b i).fetchState) :
    (w.modifySm b i f).Window prog b i mem := by
  simp only [Sm.fetchState, Prod.mk.injEq] at hf
  obtain ⟨hpc, hbottom, htop, hpend, hinsn⟩ := hf
  refine h.modifySm ⟨hbottom, htop⟩ ?_ ?_
  · rw [hpc]
    exact h.pc
  · rw [hpend, hinsn]
    exact h.pending

theorem Window.smCycle (hc : p.Carries prog k b i mem) (hr : prog.Relocatable)
    (hk : k + prog.count ≤ 32) (h : w.Window prog b i mem) :
    (w.placed p).smCycle b i = (w.smCycle b i).placed p ∧ (w.smCycle b i).Window prog b i mem := by
  have hpull : (w.modifySm b i Sm.backgroundAutopull).Window prog b i mem :=
    h.modifySm_fetch Sm.fetchState_backgroundAutopull
  obtain ⟨hmove, hkeep⟩ := hpull.present hc hr hk
  refine ⟨placed_smCycle hmove, ?_⟩
  unfold World.smCycle
  simp only
  split
  · exact hpull.modifySm_fetch rfl
  · exact hkeep

theorem ledger_smTick_of_ne {c : BlockAddr} (h : b ≠ c) (j : Fin 4) :
    (w.smTick c j).ledger b = w.ledger b := by
  have hpresent : ∀ v : World, (v.present c j).ledger b = v.ledger b := by
    intro v
    have hfetch : (v.countFetch c j).ledger b = v.ledger b := by
      unfold World.countFetch
      split
      · rfl
      · exact ledger_setBlock_of_ne h _
    have hone := (congrFun (ledger_execOne (w := v.countFetch c j) c j (v.getInstruction c j))
      b).trans hfetch
    unfold World.present
    simp only
    split
    · rw [ledger_modifySm, hone]
    · rw [ledger_modifySm, hone]
  unfold World.smTick World.smCycle
  simp only
  split_ifs <;> simp only [ledger_modifySm, ledger_setSm, hpresent]

/-- Any state machine's share of a tick moves along and keeps the window. -/
theorem Window.smTick (hc : p.Carries prog k b i mem) (hr : prog.Relocatable)
    (hk : k + prog.count ≤ 32) (h : w.Window prog b i mem) (c : BlockAddr) (j : Fin 4) :
    (w.placed p).smTick c j = (w.smTick c j).placed p ∧ (w.smTick c j).Window prog b i mem := by
  by_cases hcb : c = b
  · subst hcb
    by_cases hji : j = i
    · subst hji
      have haccum : ∀ accum, (w.setSm c j { w.sm c j with clkAccum := accum }).Window
          prog c j mem :=
        fun accum => h.modifySm_fetch (f := fun s => { s with clkAccum := accum }) rfl
      refine ⟨placed_smTick fun _ accum => ((haccum accum).smCycle hc hr hk).1, ?_⟩
      unfold World.smTick
      simp only
      split_ifs
      · have hcycle := ((haccum (u32 ((w.sm c j).clkAccum + 256) - divUnits (w.sm c j))).smCycle
          hc hr hk).2
        obtain ⟨r, hsticky⟩ := stickyReassert_eq (((w.setSm c j { w.sm c j with
          clkAccum := u32 ((w.sm c j).clkAccum + 256) - divUnits (w.sm c j) }).smCycle c j).sm c j)
        refine hcycle.modifySm_fetch ?_
        rw [hsticky]
        rfl
      · exact haccum _
      · exact haccum _
    · have hoff := h.parked j hji
      refine ⟨placed_smTick fun he => absurd he (by rw [hoff]; exact Bool.false_ne_true), ?_⟩
      have hne : (c, j) ≠ (c, i) := fun he => hji (congrArg Prod.snd he)
      have haccum : ∀ accum, (w.setSm c j { w.sm c j with clkAccum := accum }).Window
          prog c i mem :=
        fun accum => h.modifySm_of_ne (f := fun s => { s with clkAccum := accum }) hne fun _ => hoff
      unfold World.smTick
      simp only
      split_ifs
      · rename_i hon
        rw [hoff] at hon
        cases hon
      · exact haccum _
      · exact haccum _
  · have hne : ∀ l : Fin 4, (b, l) ≠ (c, j) := fun l he => hcb (congrArg Prod.fst he).symm
    have hlocal := smTick_local w c j
    refine ⟨placed_smTick fun _ accum => placed_smCycle (placed_present_idle (hc.idle c hcb)), ?_⟩
    refine h.of_fetch (ledger_smTick_of_ne (Ne.symm hcb) j) ?_ fun l _ => ?_
    · rw [hlocal.sm b i (hne i)]
    · rw [hlocal.sm b l (hne l)]

omit [Platform] in
theorem Window.openWindow (h : w.Window prog b i mem) (c : BlockAddr) :
    (w.openWindow c).Window prog b i mem := by
  refine List.foldlRecOn (motive := fun v : World => v.Window prog b i mem) _ _ h fun v hv j _ => ?_
  by_cases he : (c, j) = (b, i)
  · obtain ⟨rfl, rfl⟩ := Prod.mk.inj he
    exact hv.modifySm_fetch rfl
  · refine hv.modifySm_of_ne he fun hcb => ?_
    subst hcb
    exact hv.parked j fun hji => he (by rw [hji])

theorem Window.tickSms (hc : p.Carries prog k b i mem) (hr : prog.Relocatable)
    (hk : k + prog.count ≤ 32) (h : w.Window prog b i mem) (c : BlockAddr) :
    (w.placed p).tickSms c = (w.tickSms c).placed p ∧ (w.tickSms c).Window prog b i mem := by
  have hfold : ∀ (l : List (Fin 4)) (v : World), v.Window prog b i mem →
      l.foldl (fun w j => w.smTick c j) (v.placed p) =
          (l.foldl (fun w j => w.smTick c j) v).placed p ∧
        (l.foldl (fun w j => w.smTick c j) v).Window prog b i mem := by
    intro l
    induction l with
    | nil => exact fun v hv => ⟨rfl, hv⟩
    | cons j l ih =>
      intro v hv
      obtain ⟨hmove, hkeep⟩ := hv.smTick hc hr hk c j
      rw [List.foldl_cons, List.foldl_cons, hmove]
      exact ih _ hkeep
  obtain ⟨hmove, hkeep⟩ := hfold (List.finRange 4) _ (h.openWindow c)
  refine ⟨?_, hkeep.resolvePads c⟩
  unfold World.tickSms
  rw [placed_openWindow, hmove, placed_resolvePads]

/-! ### Calls -/

omit [Platform] in
theorem amount_of_ne (hc : p.Carries prog k b i mem) {c : BlockAddr} {j : Fin 4}
    (h : (c, j) ≠ (b, i)) : p.amount c j = 0 := by
  by_cases hcb : c = b
  · subst hcb
    rw [hc.amount, if_neg fun hji => h (by rw [hji])]
  · exact (hc.idle c hcb).amount j

theorem placed_blockOp {c : BlockAddr} {op : BlockOp}
    (h : p.Idle c ∨ ∀ offset insns, op ≠ .load offset insns) :
    (w.placed p).setBlock c (op.apply ((w.placed p).blocks c)) =
      (w.setBlock c (op.apply (w.blocks c))).placed p := by
  rcases h with h | h
  · rw [w.blocks_placed h, placed_setBlock_idle h]
  · refine Eq.trans ?_ (placed_setBlock (op.apply (w.blocks c)))
    cases op with
    | load offset insns => exact absurd rfl (h offset insns)
    | _ => rfl

omit [Platform] in
theorem placed_loadProgram {c : BlockAddr} (h : p.Idle c) (j : Fin 4) (offset : ℕ)
    (prog' : PioProgram) :
    (w.placed p).loadProgram c j offset prog' = (w.loadProgram c j offset prog').placed p := by
  have hwrite :
    ∀ words, ((w.placed p).setBlock c (((w.placed p).blocks c).load offset words)).modifySm
      c j (·.startProgram offset prog') =
        ((w.setBlock c ((w.blocks c).load offset words)).modifySm c j
        (·.startProgram offset prog')).placed p := by
    intro words
    rw [w.blocks_placed h, placed_setBlock_idle h, placed_modifySm_zero (h.amount j)]
  unfold World.loadProgram pioAsmLoadProgram
  simp only [hwrite]
  split
  · rfl
  · split
    · rfl
    · split <;> rfl

theorem ledger_tickEnd (c : BlockAddr) : (w.tickEnd c).ledger = w.ledger := by
  unfold World.tickEnd
  simp only
  refine (ledger_setBlock (by rfl) (by rfl) (by rfl)).trans ?_
  split
  · exact ledger_setPads _ _
  · rfl

theorem ledger_groupInit (g : GroupAddr) (blocks : List BlockAddr) :
    (w.groupInit g blocks).ledger = w.ledger := by
  unfold World.groupInit
  simp only
  split
  · refine List.foldlRecOn (motive := fun v : World => v.ledger = w.ledger) _ _ rfl ?_
    intro v hv l _
    split
    · exact hv
    · exact (ledger_setBlock (by rfl) (by rfl) (by rfl)).trans hv
  · rfl

theorem ledger_groupInitShared (g : GroupAddr) (blocks : List BlockAddr) :
    (w.groupInitShared g blocks).ledger = w.ledger := by
  refine List.foldlRecOn (motive := fun v : World => v.ledger = w.ledger) _ _
    (ledger_groupInit g blocks) ?_
  intro v hv c _
  exact (ledger_setBlock (by rfl) (by rfl) (by rfl)).trans hv

end Carried
end World

theorem SmOp.enabled_apply (s : Sm) (op : SmOp) : (op.apply s).enabled = s.enabled := by
  cases op with
  | setConfig c =>
    simp only [SmOp.apply, Sm.setConfig, Sm.applyFifoJoin]
    split <;> rfl
  | put word =>
    obtain ⟨f, t, he⟩ := s.put_eq word
    rw [SmOp.apply, he]
  | get =>
    obtain ⟨f, r, he⟩ := s.get_eq
    rw [SmOp.apply, he]
  | _ => rfl

/-- The host sets the PC or the wrap to an address of its own. -/
def SmOp.Addresses : SmOp → Prop
  | .setPc _ => True
  | .setConfig _ => True
  | _ => False

theorem SmOp.shift_apply {s : Sm} {n : ℕ} {op : SmOp} (h : ¬ op.Addresses) :
    op.apply (s.shift n) = (op.apply s).shift n := by
  cases op with
  | setPc pc => exact absurd trivial h
  | setConfig c => exact absurd trivial h
  | put word => exact congrArg Prod.fst (Sm.shift_put word)
  | get => exact congrArg Prod.fst Sm.shift_get
  | _ => rfl

/-- The inputs of a run of state machine `(b, i)`: the host neither rewrites the instruction memory
of its block nor sets addresses by hand, lets no other state machine of the block run, and injects
no word that jumps or writes PC or EXEC. -/
def Call.Undisturbing (b : BlockAddr) (i : Fin 4) : Call → Prop
  | .sm c k op => (c, smIdx k) = (b, i) → ¬ op.Addresses
  | .block c op => c = b → ∀ offset insns, op ≠ .load offset insns
  | .init c => c ≠ b
  | .setEnabled c k enabled => c = b → enabled = true → smIdx k = i
  | .setSmMaskEnabled c mask enabled => c = b → enabled = true → ∀ j, j ≠ i → mask.getLsbD j = false
  | .enableSmMaskInSync c mask => c = b → ∀ j, j ≠ i → mask.getLsbD j = false
  | .smInit c k _ _ => (c, smIdx k) ≠ (b, i)
  | .smExec c k insn => (c, smIdx k) = (b, i) → Straight insn
  | .loadProgram c _ _ _ => c ≠ b
  | _ => True

namespace World

variable {prog : PioProgram} {k : ℕ} {b : BlockAddr} {i : Fin 4} {w : World}
  {mem : (Fin 32 → Insn) × (Fin 32 → Bool) × BitVec 64} {p : Placement}

omit [Platform] in
/-- A write of one record that leaves every fetch and enables nothing outside `(b, i)`. -/
theorem Window.modify_any (h : w.Window prog b i mem) {c : BlockAddr} {j : Fin 4} {f : Sm → Sm}
    (hf : ∀ s, (f s).fetchState = s.fetchState)
    (hen : (c, j) ≠ (b, i) → c = b → (w.sm c j).enabled = false → (f (w.sm c j)).enabled = false) :
    (w.modifySm c j f).Window prog b i mem := by
  by_cases he : (c, j) = (b, i)
  · obtain ⟨rfl, rfl⟩ := Prod.mk.inj he
    exact h.modifySm_fetch (hf _)
  · refine h.modifySm_of_ne he fun hcb => hen he hcb ?_
    subst hcb
    exact h.parked j fun hji => he (by rw [hji])

theorem Window.setSmMaskEnabled (h : w.Window prog b i mem) {c : BlockAddr} {mask : BitVec 8}
    {enabled : Bool}
    (hm : c = b → enabled = true → ∀ j, j ≠ i → mask.getLsbD j = false) :
    (w.setSmMaskEnabled c mask enabled).Window prog b i mem := by
  refine Window.resolvePads ?_ c
  refine List.foldlRecOn (motive := fun v : World => v.Window prog b i mem) _ _ h fun v hv j _ => ?_
  split
  · rename_i hbit
    refine hv.modify_any (fun s => rfl) fun hne hcb _ => ?_
    cases henabled : enabled with
    | false => rfl
    | true =>
      have hj := hm hcb henabled j fun hji => hne (by rw [hcb, hji])
      rw [hj] at hbit
      cases hbit
  · exact hv

omit [Platform] in
theorem Window.clkdivRestartSmMask (h : w.Window prog b i mem) (c : BlockAddr) (mask : BitVec 8) :
    (w.clkdivRestartSmMask c mask).Window prog b i mem := by
  refine List.foldlRecOn (motive := fun v : World => v.Window prog b i mem) _ _ h fun v hv j _ => ?_
  split
  · exact hv.modify_any (fun s => rfl) fun _ _ hoff => hoff
  · exact hv

theorem enabled_smExec (w : World) (c : BlockAddr) (j l : Fin 4) (b : BlockAddr) (insn : Insn) :
    ((w.smExec c j insn).sm b l).enabled = (w.sm b l).enabled := by
  by_cases he : (b, l) = (c, j)
  · obtain ⟨rfl, rfl⟩ := Prod.mk.inj he
    have hone : (((w.modifySm b l fun s => { s with stalled := false }).execOne b l
        insn).world.sm b l).enabled = (w.sm b l).enabled := by
      have hcontrol := congrArg (·.2.1) (execOne_control
        (w.modifySm b l fun s => { s with stalled := false }) b l insn)
      rw [sm_modifySm_self] at hcontrol
      exact hcontrol
    unfold World.smExec
    simp only
    split
    · rw [sm_modifySm_self]
      exact hone
    · rw [sm_modifySm_self]
      exact hone
  · rw [(smExec_local w c j insn).sm b l he]

/-- An injected word keeps the window when it is straight. -/
theorem Window.smExec (hc : p.Carries prog k b i mem) (h : w.Window prog b i mem) {c : BlockAddr}
    {j : Fin 4} {insn : Insn} (hs : (c, j) = (b, i) → Straight insn) :
    (w.placed p).smExec c j insn = (w.smExec c j insn).placed p ∧
      (w.smExec c j insn).Window prog b i mem := by
  by_cases he : (c, j) = (b, i)
  · have hstraight := hs he
    obtain ⟨rfl, rfl⟩ := Prod.mk.inj he
    have hopen : (w.modifySm c j fun s => { s with stalled := false }).Window prog c j mem :=
      h.modifySm_fetch rfl
    obtain ⟨hset, hfetch⟩ := execOne_straight (b := c) (i := j)
      (w := w.modifySm c j fun s => { s with stalled := false }) hstraight
    have hone : ((w.modifySm c j fun s => { s with stalled := false }).execOne c j
        insn).world.Window prog c j mem := by
      refine hopen.of_fetch (by rw [ledger_execOne]) hfetch fun l hl => ?_
      rw [(execOne_local _ c j insn).sm c l fun he => hl (congrArg Prod.snd he)]
    refine ⟨placed_smExec (.inr hset), ?_⟩
    unfold World.smExec
    simp only [hset, Option.getD_none]
    split
    · exact hone.modifySm_fetch rfl
    · exact hone.modifySm ⟨rfl, rfl⟩ hone.pc fun _ => hstraight
  · refine ⟨placed_smExec (.inl (amount_of_ne hc he)), ?_⟩
    refine h.of_fetch (by rw [ledger_smExec]) ?_ fun l _ => enabled_smExec w c j l b insn
    rw [(smExec_local w c j insn).sm b i fun hb => he hb.symm]

theorem Window.loadProgram (h : w.Window prog b i mem) {c : BlockAddr} (hcb : c ≠ b) (j : Fin 4)
    (offset : ℕ) (prog' : PioProgram) : (w.loadProgram c j offset prog').Window prog b i mem := by
  rcases w.loadProgram_cases c j offset prog' with he | ⟨words, -, he⟩
  · rw [he]
    exact h
  · rw [he]
    refine Window.modifySm_of_ne (h.congr ?_ (sm_load w c offset words)) ?_ fun he => absurd he hcb
    · exact ledger_setBlock_of_ne (Ne.symm hcb) _
    · exact fun he => hcb (congrArg Prod.fst he)

/-- Every input moves along and keeps the window. -/
theorem Window.step (hc : p.Carries prog k b i mem) (hr : prog.Relocatable)
    (hk : k + prog.count ≤ 32) (h : w.Window prog b i mem) {e : Call} (he : e.Undisturbing b i) :
    (w.placed p).step e = (w.step e).placed p ∧ (w.step e).Window prog b i mem := by
  cases e with
  | sm c l op =>
    by_cases hself : (c, smIdx l) = (b, i)
    · have hop : ¬ op.Addresses := he hself
      have hmove : (w.placed p).modifySm c (smIdx l) (fun s => op.apply s) =
          (w.modifySm c (smIdx l) fun s => op.apply s).placed p :=
        placed_modifySm (SmOp.shift_apply hop)
      refine ⟨hmove, ?_⟩
      obtain ⟨rfl, rfl⟩ := Prod.mk.inj hself
      by_cases hrestart : op = .restart
      · subst hrestart
        refine h.modifySm (f := Sm.resetExec) ⟨rfl, rfl⟩ ?_ (fun hp => ?_)
        · have hbottom := hr.bottom
          change (w.sm c (smIdx l)).wrapBottom < _
          rw [h.wrapBottom]
          exact hbottom
        · cases hp
      · refine h.modifySm_fetch (f := fun s => op.apply s) ?_
        cases op with
        | restart => exact absurd rfl hrestart
        | setPc pc => exact absurd trivial hop
        | setConfig cfg => exact absurd trivial hop
        | put word =>
          obtain ⟨f, t, heq⟩ := (w.sm c (smIdx l)).put_eq word
          simp only [SmOp.apply, heq, Sm.fetchState]
        | get =>
          obtain ⟨f, r, heq⟩ := (w.sm c (smIdx l)).get_eq
          simp only [SmOp.apply, heq, Sm.fetchState]
        | _ => rfl
    · refine ⟨placed_modifySm_zero (amount_of_ne hc hself) fun s => op.apply s,
        h.modifySm_of_ne (f := fun s => op.apply s) hself fun hcb => ?_⟩
      subst hcb
      rw [SmOp.enabled_apply]
      exact h.parked _ fun hji => hself (by rw [hji])
  | block c op =>
    have hop : p.Idle c ∨ ∀ offset insns, op ≠ .load offset insns := by
      by_cases hcb : c = b
      · exact .inr (he hcb)
      · exact .inl (hc.idle c hcb)
    refine ⟨placed_blockOp hop, h.congr ?_ (sm_setBlock (BlockOp.sm_apply _ op))⟩
    by_cases hcb : c = b
    · have hload := he hcb
      refine congrFun (ledger_setBlock ?_ ?_ ?_) b
      all_goals
        cases op with
        | load offset insns => exact absurd rfl (hload offset insns)
        | _ => rfl
    · exact ledger_setBlock_of_ne (Ne.symm hcb) _
  | pad c op => exact ⟨placed_setPads _ _, h.setPads _ _⟩
  | init c =>
    have hcb : c ≠ b := he
    refine ⟨placed_setBlock_idle (hc.idle c hcb) _, h.of_fetch ?_ ?_ fun l _ => ?_⟩
    · exact ledger_setBlock_of_ne (Ne.symm hcb) _
    · rw [World.step, sm_pioSimInit, if_neg (Ne.symm hcb)]
    · rw [World.step, sm_pioSimInit, if_neg (Ne.symm hcb)]
  | setEnabled c l enabled =>
    refine ⟨?_, Window.resolvePads (h.modify_any (f := fun s => { s with enabled := enabled })
      (fun _ => rfl) fun hne hcb _ => ?_) c⟩
    · simp only [World.step, World.smSetEnabled]
      rw [← placed_resolvePads]
      exact congrArg (World.resolvePads · c) (placed_modifySm rfl)
    · have hen : c = b → enabled = true → smIdx l = i := he
      cases henabled : enabled with
      | false => rfl
      | true => exact absurd (by rw [hcb, hen hcb henabled]) hne
  | setSmMaskEnabled c mask enabled =>
    exact ⟨placed_setSmMaskEnabled mask enabled, h.setSmMaskEnabled he⟩
  | clkdivRestartSmMask c mask =>
    exact ⟨placed_clkdivRestartSmMask mask, h.clkdivRestartSmMask c mask⟩
  | enableSmMaskInSync c mask =>
    have hm : c = b → true = true → ∀ j, j ≠ i → mask.getLsbD j = false := fun hcb _ => he hcb
    refine ⟨?_, (h.setSmMaskEnabled hm).clkdivRestartSmMask c mask⟩
    simp only [World.step, World.enableSmMaskInSync]
    rw [placed_setSmMaskEnabled, placed_clkdivRestartSmMask]
  | setConsecutivePindirs c l base count isOut =>
    have hkeep : (w.modifySm c (smIdx l) fun s => { s with
        pins := (List.range (clampPinCount count)).foldl
          (fun r n => r.drivePindir (w.physPin c (u8 (base + n))) isOut) s.pins }).Window
              prog b i mem :=
      h.modify_any (fun _ => rfl) fun _ _ hoff => hoff
    refine ⟨?_, hkeep.resolvePads c⟩
    simp only [World.step, World.smSetConsecutivePindirs]
    rw [← placed_resolvePads]
    exact congrArg (World.resolvePads · c) (placed_modifySm rfl)
  | smInit c l pc cfg =>
    exact ⟨placed_modifySm_zero (amount_of_ne hc he) (·.init pc cfg),
      h.modifySm_of_ne (f := (·.init pc cfg)) he fun _ => rfl⟩
  | smExec c l insn => exact h.smExec hc he
  | gpioSetFunction c pin f => exact ⟨placed_setPads _ _, h.setPads _ _⟩
  | groupInit g blocks =>
    exact ⟨placed_groupInit g blocks, h.congr (by rw [World.step, ledger_groupInit])
      (sm_groupInit w g blocks)⟩
  | groupInitShared g blocks =>
    exact ⟨placed_groupInitShared g blocks,
      h.congr (by rw [World.step, ledger_groupInitShared]) (sm_groupInitShared w g blocks)⟩
  | loadProgram c l offset prog' =>
    exact ⟨placed_loadProgram (hc.idle c he) _ offset prog', h.loadProgram he _ offset prog'⟩
  | tickSms c => exact h.tickSms hc hr hk c
  | tickEnd c =>
    exact ⟨placed_tickEnd, h.congr (by rw [World.step, ledger_tickEnd]) (sm_tickEnd w c)⟩
  | groupOpen g =>
    refine ⟨List.foldl_hom (placed p) fun _ _ => placed_openWindow, ?_⟩
    exact List.foldlRecOn (motive := fun v : World => v.Window prog b i mem) _ _ h
      fun v hv c _ => hv.openWindow c
  | groupEnd g =>
    simp only [World.step, World.groupEnd]
    rw [placed_ite]
    refine ⟨if_congr Iff.rfl (placed_setPads _ _) rfl, ?_⟩
    split
    · exact h.setPads _ _
    · exact h

end World

/-! ### Directives applied to the running program -/

/-- A config whose wrap lies `n` words further up. -/
def SmConfig.shift (n : ℕ) (c : SmConfig) : SmConfig :=
  { c with wrapBottom := c.wrapBottom + n, wrapTop := c.wrapTop + n }

omit [Platform] in
theorem SmConfig.shift_overlay {α : Type} {n : ℕ} {c : SmConfig} {f : SmConfig → α → SmConfig}
    (hf : ∀ c d, f (SmConfig.shift n c) d = (f c d).shift n) (d : Option α) :
    (c.shift n).overlay f d = (c.overlay f d).shift n := by
  cases d with
  | none => rfl
  | some a => exact hf c a

omit [Platform] in
theorem SmConfig.shift_ite {q : Prop} [Decidable q] {n : ℕ} {c d : SmConfig} :
    (if q then c else d).shift n = if q then c.shift n else d.shift n :=
  apply_ite (SmConfig.shift n) q c d

/-- Directives lie over everything but the wrap. -/
theorem Sm.shift_programConfig {s : Sm} {n : ℕ} (d : ProgramConfig) :
    (s.shift n).programConfig d = (s.programConfig d).shift n := by
  unfold Sm.programConfig
  have hconfig : (s.shift n).config = s.config.shift n := rfl
  dsimp only
  rw [hconfig, SmConfig.shift_overlay, SmConfig.shift_overlay, SmConfig.shift_overlay,
    SmConfig.shift_overlay, SmConfig.shift_overlay, SmConfig.shift_overlay]
  · exact fun _ _ => rfl
  · exact fun _ _ => rfl
  · intro c e
    simp only [SmConfig.shift_ite]
    exact if_congr Iff.rfl rfl rfl
  · exact fun _ _ => rfl
  · exact fun _ _ => rfl
  · exact fun _ _ => rfl

theorem Sm.shift_setConfig {s : Sm} {n : ℕ} (c : SmConfig) :
    (s.shift n).setConfig (c.shift n) = (s.setConfig c).shift n := by
  unfold Sm.setConfig
  rw [← Sm.shift_applyFifoJoin]
  rfl

omit [Platform] in
theorem SmConfig.wrap_overlay {α : Type} {c : SmConfig} {f : SmConfig → α → SmConfig}
    (hf : ∀ c d, (f c d).wrapBottom = c.wrapBottom ∧ (f c d).wrapTop = c.wrapTop) (d : Option α) :
    (c.overlay f d).wrapBottom = c.wrapBottom ∧ (c.overlay f d).wrapTop = c.wrapTop := by
  cases d with
  | none => exact ⟨rfl, rfl⟩
  | some a => exact hf c a

theorem Sm.wrap_programConfig (s : Sm) (d : ProgramConfig) :
    (s.programConfig d).wrapBottom = s.wrapBottom ∧ (s.programConfig d).wrapTop = s.wrapTop := by
  have hthen : ∀ {α : Type} {c : SmConfig} {f : SmConfig → α → SmConfig}
      (_ : ∀ c d, (f c d).wrapBottom = c.wrapBottom ∧ (f c d).wrapTop = c.wrapTop) (d : Option α),
      c.wrapBottom = s.wrapBottom ∧ c.wrapTop = s.wrapTop →
      (c.overlay f d).wrapBottom = s.wrapBottom ∧ (c.overlay f d).wrapTop = s.wrapTop := by
    intro α c f hf d hc
    obtain ⟨hb, ht⟩ := SmConfig.wrap_overlay (c := c) hf d
    exact ⟨hb.trans hc.1, ht.trans hc.2⟩
  unfold Sm.programConfig
  refine hthen ?_ _ (hthen ?_ _ (hthen ?_ _ (hthen ?_ _ (hthen ?_ _ (hthen ?_ _ ?_)))))
  · exact fun _ _ => ⟨rfl, rfl⟩
  · exact fun _ _ => ⟨rfl, rfl⟩
  · intro c e
    dsimp only
    split <;> exact ⟨rfl, rfl⟩
  · exact fun _ _ => ⟨rfl, rfl⟩
  · exact fun _ _ => ⟨rfl, rfl⟩
  · exact fun _ _ => ⟨rfl, rfl⟩
  · exact ⟨rfl, rfl⟩

theorem Sm.fetchState_setConfig (s : Sm) {c : SmConfig}
    (h : c.wrapBottom = s.wrapBottom ∧ c.wrapTop = s.wrapTop) :
    (s.setConfig c).fetchState = s.fetchState := by
  unfold Sm.setConfig Sm.applyFifoJoin
  simp only [h.1, h.2]
  split <;> rfl

/-- The inputs of a run, the directives of the program among them. -/
def ApiCall.Undisturbing (b : BlockAddr) (i : Fin 4) : ApiCall → Prop
  | .call c => c.Undisturbing b i
  | .applyProgramConfig _ _ _ => True

namespace World

variable {prog : PioProgram} {k : ℕ} {b : BlockAddr} {i : Fin 4} {w : World}
  {mem : (Fin 32 → Insn) × (Fin 32 → Bool) × BitVec 64} {p : Placement}

theorem Window.apiStep (hc : p.Carries prog k b i mem) (hr : prog.Relocatable)
    (hk : k + prog.count ≤ 32) (h : w.Window prog b i mem) {e : ApiCall} (he : e.Undisturbing b i) :
    (w.placed p).apiStep e = (w.apiStep e).placed p ∧ (w.apiStep e).Window prog b i mem := by
  cases e with
  | call c => exact h.step hc hr hk he
  | applyProgramConfig c l d =>
    have hmove : (w.placed p).modifySm c (smIdx l)
          (fun s => s.setConfig (((w.placed p).sm c (smIdx l)).programConfig d)) =
        (w.modifySm c (smIdx l) fun s => s.setConfig ((w.sm c (smIdx l)).programConfig d)).placed
            p := by
      refine placed_modifySm ?_
      have hconfig : ((w.placed p).sm c (smIdx l)).programConfig d = _ :=
        Sm.shift_programConfig (n := p.amount c (smIdx l)) (s := w.sm c (smIdx l)) d
      rw [hconfig, Sm.shift_setConfig]
    refine ⟨hmove, ?_⟩
    by_cases hself : (c, smIdx l) = (b, i)
    · obtain ⟨rfl, rfl⟩ := Prod.mk.inj hself
      exact h.modifySm_fetch (f := fun s => s.setConfig ((w.sm c (smIdx l)).programConfig d))
        (Sm.fetchState_setConfig _ (Sm.wrap_programConfig _ d))
    · refine h.modifySm_of_ne (f := fun s => s.setConfig ((w.sm c (smIdx l)).programConfig d)) hself
        fun hcb => ?_
      subst hcb
      have hen := SmOp.enabled_apply (w.sm c (smIdx l))
        (.setConfig ((w.sm c (smIdx l)).programConfig d))
      exact hen.trans (h.parked _ fun hji => hself (by rw [hji]))

theorem Window.run (hc : p.Carries prog k b i mem) (hr : prog.Relocatable)
    (hk : k + prog.count ≤ 32) (es : List ApiCall) (hes : ∀ e ∈ es, e.Undisturbing b i) :
    ∀ w : World, w.Window prog b i mem →
      es.foldl World.apiStep (w.placed p) = (es.foldl World.apiStep w).placed p ∧
        (es.foldl World.apiStep w).Window prog b i mem := by
  induction es with
  | nil => exact fun w h => ⟨rfl, h⟩
  | cons e es ih =>
    intro w h
    obtain ⟨hmove, hkeep⟩ := h.apiStep hc hr hk (hes e List.mem_cons_self)
    rw [List.foldl_cons, List.foldl_cons, hmove]
    exact ih (fun e he => hes e (List.mem_cons_of_mem _ he)) _ hkeep

/-! ### The two starts -/

/-- From the program loaded at 0 to the program loaded at `k`. -/
def relocation (w : World) (b : BlockAddr) (i : Fin 4) (k : ℕ) (prog : PioProgram) : Placement where
  insn c m := if c = b then ((w.loadProgram b i k prog).blocks b).insn else m
  used c u := if c = b then ((w.loadProgram b i k prog).blocks b).insnUsed else u
  amount c j := if (c, j) = (b, i) then k else 0

section
omit [Platform]

/-- What an accepted load leaves in memory. -/
theorem loadProgram_fits (w : World) (b : BlockAddr) (i : Fin 4) (hok : prog.ok = true)
    (hr : prog.Relocatable) (hk : k + prog.count ≤ 32) :
    ∃ m u, w.loadProgram b i k prog =
      (w.setBlock b { w.blocks b with insn := m, insnUsed := u }).setSm
        b i ((w.sm b i).startProgram k prog) ∧
      ∀ a < prog.count, m (Fin.ofNat 32 (a + k)) =
        PioProgram.relocate k (prog.insns (Fin.ofNat 32 a)) ∧
        u (Fin.ofNat 32 (a + k)) = true := by
  obtain ⟨m, u, hload, hmem⟩ := prog.load_image (w.blocks b) hk
  refine ⟨m, u, ?_, hmem⟩
  have hfits : prog.fits k = true := (prog.fits_iff k).mpr ⟨hk, hr.bottom, hr.top⟩
  have hsm : (w.setBlock b { w.blocks b with insn := m, insnUsed := u }).sm b i = w.sm b i :=
    congrFun (congrFun (sm_setBlock (by rfl)) b) i
  rw [World.loadProgram, w.load_of_fits b i hok hfits, hload, Option.elim_some]
  dsimp only
  rw [World.modifySm, hsm]

theorem relocation_carries (w : World) (hok : prog.ok = true) (hr : prog.Relocatable)
    (hk : k + prog.count ≤ 32) :
    (w.relocation b i k prog).Carries prog k b i ((w.loadProgram b i 0 prog).ledger b) := by
  obtain ⟨m, u, hload, hmem⟩ := w.loadProgram_fits b i hok hr (k := 0) (by omega)
  obtain ⟨mk, uk, hloadk, hmemk⟩ := w.loadProgram_fits b i hok hr hk
  have hledger : ∀ (m : Fin 32 → Insn) (u : Fin 32 → Bool) (s : Sm),
      ((w.setBlock b { w.blocks b with insn := m, insnUsed := u }).setSm b i s).ledger b =
        (m, u, (w.blocks b).unwrittenFetches) := by
    intro m u s
    rw [ledger_setSm]
    simp [World.ledger, World.setBlock]
  rw [hload, hledger]
  have hk' : (w.loadProgram b i k prog).ledger b = (mk, uk, (w.blocks b).unwrittenFetches) := by
    rw [hloadk, hledger]
  have hinsn : ((w.loadProgram b i k prog).blocks b).insn = mk := congrArg Prod.fst hk'
  have hused : ((w.loadProgram b i k prog).blocks b).insnUsed = uk := congrArg (·.2.1) hk'
  refine ⟨fun c hc => ⟨?_, ?_, fun j => ?_⟩, fun j => ?_, fun a ha => ?_, fun a ha => ?_,
    fun a ha => ?_, fun a ha => ?_⟩
  · funext mc
    exact if_neg hc
  · funext uc
    exact if_neg hc
  · exact if_neg fun he => hc (congrArg Prod.fst he)
  · by_cases hj : j = i
    · subst hj
      rw [if_pos rfl]
      exact if_pos rfl
    · rw [if_neg hj]
      exact if_neg fun he => hj (congrArg Prod.snd he)
  · have hzero : ∀ x : Insn, PioProgram.relocate 0 x = x := fun x => if_neg fun he => he.2 rfl
    have hslot := (hmem a ha).1
    rw [hzero] at hslot
    exact hslot
  · exact (hmem a ha).2
  · simp only [World.relocation, if_true, hinsn]
    exact (hmemk a ha).1
  · simp only [World.relocation, if_true, hused]
    exact (hmemk a ha).2

/-- The two loads differ by the placement. -/
theorem placed_relocation (w : World) (hok : prog.ok = true) (hr : prog.Relocatable)
    (hk : k + prog.count ≤ 32) :
    (w.loadProgram b i 0 prog).placed (w.relocation b i k prog) = w.loadProgram b i k prog := by
  obtain ⟨m, u, hload, -⟩ := w.loadProgram_fits b i hok hr (k := 0) (by omega)
  obtain ⟨mk, uk, hloadk, -⟩ := w.loadProgram_fits b i hok hr hk
  have hcarries := relocation_carries (b := b) (i := i) w hok hr hk
  obtain ⟨p, hp⟩ : ∃ p, w.relocation b i k prog = p := ⟨_, rfl⟩
  have hinsn : ∀ m, p.insn b m = mk := by
    intro m
    simp only [← hp, World.relocation, if_true, hloadk]
    simp [World.setSm, World.setBlock]
  have hused : ∀ u, p.used b u = uk := by
    intro u
    simp only [← hp, World.relocation, if_true, hloadk]
    simp [World.setSm, World.setBlock]
  rw [hp] at hcarries ⊢
  have hstart : ((w.sm b i).startProgram 0 prog).shift k = (w.sm b i).startProgram k prog := by
    have hbottom : u8 prog.wrapBottom + k = u8 (k + prog.wrapBottom) := by
      have := hr.bottom
      unfold u8
      omega
    have htop : u8 prog.wrapTop + k = u8 (k + prog.wrapTop) := by
      have := hr.top
      unfold u8
      omega
    simp only [Sm.shift, Sm.startProgram, Nat.zero_add, hbottom, htop]
  have hworld : ∀ u v : World, u.blocks = v.blocks → u.groups = v.groups → u = v := by
    rintro ⟨_, _⟩ ⟨_, _⟩ rfl rfl
    rfl
  rw [hload, hloadk]
  refine hworld _ _ (funext fun c => ?_) rfl
  by_cases hcb : c = b
  · subst hcb
    simp only [World.placed, World.setSm, World.setBlock, Function.update_self, Pio.placed,
      hinsn, hused, Pio.mk.injEq, true_and, and_true]
    funext j
    rw [hcarries.amount]
    by_cases hj : j = i
    · subst hj
      rw [if_pos rfl, Function.update_self, Function.update_self, hstart]
    · rw [if_neg hj, Function.update_of_ne hj, Function.update_of_ne hj, Sm.shift_zero]
  · rw [World.blocks_placed _ (hcarries.idle c hcb)]
    simp only [World.setSm, World.setBlock, Function.update_of_ne hcb]

/-- The program just loaded at 0 is in its window. -/
theorem window_loadProgram (w : World) (hok : prog.ok = true) (hr : prog.Relocatable)
    (hcount : prog.count ≤ 32) (hparked : ∀ j, j ≠ i → (w.sm b j).enabled = false)
    (hpend : (w.sm b i).execPending = false) :
    (w.loadProgram b i 0 prog).Window prog b i ((w.loadProgram b i 0 prog).ledger b) := by
  obtain ⟨m, u, hload, -⟩ := w.loadProgram_fits b i hok hr (k := 0) (by omega)
  have hbottom := hr.bottom
  have htop := hr.top
  have hself : (w.loadProgram b i 0 prog).sm b i = (w.sm b i).startProgram 0 prog := by
    rw [hload, sm_setSm_self]
  refine ⟨rfl, ?_, ?_, ?_, ?_, fun j hj => ?_⟩
  · rw [hself]
    exact Nat.lt_of_le_of_lt (Nat.zero_le _) hbottom
  · rw [hself]
    change u8 (0 + prog.wrapBottom) = _
    unfold u8
    omega
  · rw [hself]
    change u8 (0 + prog.wrapTop) = _
    unfold u8
    omega
  · rw [hself]
    intro h
    rw [show ((w.sm b i).startProgram 0 prog).execPending =
      (w.sm b i).execPending from rfl, hpend] at h
    cases h
  · rw [hload, sm_setSm_of_ne fun he => hj (congrArg Prod.snd he), sm_setBlock (by rfl)]
    exact hparked j hj

end

/-- Loading a program at `k` instead of 0 gives runs in lockstep: after the same inputs everything
is equal but the addresses of its state machine, which lie `k` further up. The PC stays in the
window of the program and no fetch misses what was loaded. -/
theorem relocation_preserves_behaviour (w : World) (hok : prog.ok = true) (hr : prog.Relocatable)
    (hk : k + prog.count ≤ 32) (hparked : ∀ j, j ≠ i → (w.sm b j).enabled = false)
    (hpend : (w.sm b i).execPending = false) {es : List ApiCall}
    (hes : ∀ e ∈ es, e.Undisturbing b i) :
    let u := es.foldl World.apiStep (w.loadProgram b i 0 prog)
    let v := es.foldl World.apiStep (w.loadProgram b i k prog)
    v.sm b i = (u.sm b i).shift k ∧ (∀ c j, (c, j) ≠ (b, i) → v.sm c j = u.sm c j) ∧
      v.irqs = u.irqs ∧ v.padsAt = u.padsAt ∧ v.padRef = u.padRef ∧
      (u.sm b i).pc < prog.count ∧ (k ≤ (v.sm b i).pc ∧ (v.sm b i).pc < k + prog.count) ∧
      (u.blocks b).unwrittenFetches = (w.blocks b).unwrittenFetches ∧
      (v.blocks b).unwrittenFetches = (w.blocks b).unwrittenFetches := by
  intro u v
  obtain ⟨p, hp⟩ : ∃ p, w.relocation b i k prog = p := ⟨_, rfl⟩
  have hcarries := relocation_carries (b := b) (i := i) w hok hr hk
  have hplaced := placed_relocation (b := b) (i := i) w hok hr hk
  rw [hp] at hcarries hplaced
  have hstart := window_loadProgram w hok hr (by omega) hparked hpend
  obtain ⟨hmove, hwindow⟩ := Window.run hcarries hr hk es hes _ hstart
  have hv : v = u.placed p := by
    rw [← hmove, hplaced]
  have hself : v.sm b i = (u.sm b i).shift k := by
    have hamount : p.amount b i = k := by rw [hcarries.amount, if_pos rfl]
    rw [hv, ← hamount]
    rfl
  have hpc : (u.sm b i).pc < prog.count := hwindow.pc
  have hpc' : (v.sm b i).pc = (u.sm b i).pc + k := by rw [hself]; rfl
  have hfetches : (u.blocks b).unwrittenFetches = (w.blocks b).unwrittenFetches := by
    obtain ⟨m, used, hload, -⟩ := w.loadProgram_fits b i hok hr (k := 0) (by omega)
    have hledger := congrArg (·.2.2) hwindow.ledger
    refine Eq.trans hledger ?_
    rw [hload, ledger_setSm]
    simp [World.ledger, World.setBlock]
  refine ⟨hself, fun c j hne => ?_, ?_, ?_, ?_, hpc, ⟨by omega, by omega⟩, hfetches, ?_⟩
  · have hzero := amount_of_ne hcarries hne
    rw [hv, ← Sm.shift_zero (u.sm c j), ← hzero]
    rfl
  · rw [hv]
    rfl
  · rw [hv]
    funext r
    cases r <;> rfl
  · rw [hv]
    rfl
  · rw [hv]
    exact hfetches

end World
end PioSim

namespace PioSim

local instance : Platform := ⟨.rp2350⟩

/-- `set x, 3`, a counting loop and a jump back, at 0 and at 5. -/
theorem relocation_preserves_countdown :
    let prog : PioProgram :=
      { insns := fun a => if a = 0 then 0xE023 else if a = 1 then 0x0041 else 0x0000
        count := 3, sidesetBits := 0, sidesetOpt := false, sidesetPindirs := false
        wrapBottom := 0, wrapTop := 2, ok := true }
    let es := [.call (.setEnabled 0 0 true), .call (.tickSms 0), .call (.tickEnd 0),
      .call (.tickSms 0)]
    let u := es.foldl World.apiStep (World.initial.loadProgram 0 0 0 prog)
    let v := es.foldl World.apiStep (World.initial.loadProgram 0 0 5 prog)
    v.sm 0 0 = (u.sm 0 0).shift 5 ∧ (5 ≤ (v.sm 0 0).pc ∧ (v.sm 0 0).pc < 5 + 3) := by
  intro prog es u v
  have hr : prog.Relocatable :=
    ⟨by decide, by decide, by decide, by decide, .inl rfl⟩
  have hes : ∀ e ∈ es, e.Undisturbing 0 0 := by
    simp only [es, List.forall_mem_cons]
    exact ⟨fun _ _ => rfl, trivial, trivial, trivial, fun _ h => nomatch h⟩
  have h := World.relocation_preserves_behaviour World.initial (b := 0) (i := 0) (k := 5) rfl hr
    (by decide) (fun _ _ => rfl) rfl hes
  exact ⟨h.1, h.2.2.2.2.2.2.1⟩

end PioSim
