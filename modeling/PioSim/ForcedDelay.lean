import PioSim.Stalls

/-!
# Forced words that differ in their delay

`pio_sim_sm_exec` ignores the delay of the word it executes. A word that stalls it leaves in the
pending slot, though, and the state machine's own cycle takes it from there as it takes an EXEC
word, delay and all. Two runs that force words with the same operation are followed side by side:
they differ in the pending slot only, for as long as the two words are not found to differ when the
slot is taken.
-/

namespace PioSim

variable [Platform]

/-! ### What a word waits for -/

/-- What `decode_delay_sideset` makes of the side-set bits is the same. -/
def SameSideset (ds ds' : DelaySideset) : Prop :=
  ds'.sideEn = ds.sideEn ∧ ds'.sideVal = ds.sideVal ∧ ds'.ssDataBits = ds.ssDataBits

instance (ds ds' : DelaySideset) : Decidable (SameSideset ds ds') :=
  inferInstanceAs (Decidable (_ ∧ _ ∧ _))

/-- The two words have one opcode and one operand. -/
def SameOperation (insn insn' : Insn) : Prop :=
  opcode insn' = opcode insn ∧ operandOf insn' = operandOf insn

instance (insn insn' : Insn) : Decidable (SameOperation insn insn') :=
  inferInstanceAs (Decidable (_ ∧ _))

/-- The FIFO a `push block` or `pull block` works on is not ready for it. -/
def Sm.blocked (s : Sm) (operand : ℕ) : Bool :=
  operand.testBit 5 &&
    if operand.testBit 7 then
      !(operand.testBit 6 && s.osrCount < s.pullThresh) && !(s.autopull && s.osrCount == 0) &&
        s.tx.isEmpty
    else !(operand.testBit 6 && s.isrCount < s.pushThresh) && s.pushBlocked

namespace World

variable (w : World) (b : BlockAddr) (i : Fin 4)

/-- The level or flag a `wait` compares with its polarity, if there is one to compare. -/
def waitLevel (operand : ℕ) : Option Bool :=
  let index := operand % 32
  match operand / 32 % 4 with
  | 0 => some (w.inputLevel b (w.physPin b index))
  | 1 => some (decide (index < (w.sm b i).inCount) &&
      w.inputLevel b (w.physPin b (u8 ((w.sm b i).inBase + index))))
  | 2 =>
    (w.irqTargetBlock b (resolveIrqTarget i index).block).map
      fun blk => w.irqGet blk (resolveIrqTarget i index).index
  | _ =>
    if hasWaitJmppin then some (w.inputLevel b (w.physPin b (u8 ((w.sm b i).jmpPin + index))))
    else none

/-- An `irq wait` that has raised its flag, or is about to, finds it up. -/
def irqHeld (operand : ℕ) : Bool :=
  (w.irqTargetBlock b (resolveIrqTarget i (operand % 32)).block).all
    fun blk => !(w.sm b i).stalled || w.irqGet blk (resolveIrqTarget i (operand % 32)).index

/-- The condition the word has to wait for is not met. -/
def waits (insn : Insn) : Bool :=
  let s := w.sm b i
  let operand := operandOf insn
  match opcode insn with
  | 1 => (w.waitLevel b i operand).elim true (· != operand.testBit 7)
  | 2 => s.autopush && s.pushThresh ≤ s.isrCount + shiftCount operand && s.pushBlocked
  | 3 => s.outStalls
  | 4 => !(hasRxfifoMov && operand.testBit 4) && s.blocked operand
  | 6 => !operand.testBit 6 && operand.testBit 5 && w.irqHeld b i operand
  | _ => false

variable {w b i}

theorem execWait_stalled (operand : ℕ) : (w.execWait b i operand).stalled =
    (w.waitLevel b i operand).elim true (· != operand.testBit 7) := by
  unfold execWait waitLevel
  dsimp only
  have hlt : operand / 32 % 4 < 4 := Nat.mod_lt _ (by decide)
  generalize operand / 32 % 4 = source at hlt ⊢
  match source with
  | 0 => rfl
  | 1 => rfl
  | 2 =>
    cases w.irqTargetBlock b (resolveIrqTarget i (operand % 32)).block with
    | none => rfl
    | some blk =>
      change (if w.irqGet blk (resolveIrqTarget i (operand % 32)).index = operand.testBit 7 then
        (⟨_, false, none⟩ : ExecOut) else ⟨w, true, none⟩).stalled =
          (w.irqGet blk (resolveIrqTarget i (operand % 32)).index != operand.testBit 7)
      split
      · rename_i h
        rw [h, bne_self_eq_false]
      · rename_i h
        exact (bne_iff_ne.mpr h).symm
  | 3 => cases hasWaitJmppin <;> rfl
  | n + 4 => omega

theorem execPushpull_stalled (s : Sm) (operand : ℕ) :
    (s.execPushpull operand).2 = s.blocked operand := by
  unfold Sm.execPushpull Sm.blocked
  cases operand.testBit 7 <;> cases operand.testBit 6 <;> cases operand.testBit 5 <;>
    cases s.autopull <;> simp <;> split_ifs <;> simp_all

theorem execIrq_stalled (operand : ℕ) : (w.execIrq b i operand).stalled =
    (!operand.testBit 6 && operand.testBit 5 && w.irqHeld b i operand) := by
  unfold execIrq irqHeld
  dsimp only
  cases w.irqTargetBlock b (resolveIrqTarget i (operand % 32)).block with
  | none => cases operand.testBit 6 <;> cases operand.testBit 5 <;> rfl
  | some blk =>
    cases operand.testBit 6 with
    | true => rfl
    | false =>
      cases operand.testBit 5 with
      | false => rfl
      | true =>
        cases (w.sm b i).stalled with
        | true => rfl
        | false =>
          have hraise := irqGet_irqRaise_other w blk blk (resolveIrqTarget i (operand % 32)).index
            (resolveIrqTarget i (operand % 32)).index
          rw [decide_eq_true ⟨rfl, rfl⟩, Bool.or_true] at hraise
          exact hraise

theorem execIn_stalled (s : Sm) (src : Word) (count : ℕ) : (s.execIn src count).2 =
    (s.autopush && s.pushThresh ≤ s.isrCount + count && s.pushBlocked) := by
  unfold Sm.execIn
  dsimp only
  split
  · rename_i h
    exact h.symm
  · rename_i h
    exact (Bool.eq_false_of_not_eq_true h).symm

theorem execOut_stalled (operand : ℕ) : (w.execOut b i operand).stalled = (w.sm b i).outStalls := by
  unfold execOut
  dsimp only
  split
  · rename_i h
    exact h.symm
  · rename_i h
    exact (Bool.eq_false_of_not_eq_true h).symm

/-- An instruction stalls exactly when the condition it waits for is not met. -/
theorem execInsn_stalled (insn : Insn) : (w.execInsn b i insn).stalled = w.waits b i insn := by
  unfold execInsn waits
  dsimp only
  generalize opcode insn = op
  match op with
  | 0 => rfl
  | 1 => exact execWait_stalled _
  | 2 => exact execIn_stalled _ _ _
  | 3 => exact execOut_stalled _
  | 4 =>
    cases hmov : hasRxfifoMov && (operandOf insn).testBit 4 with
    | true => rfl
    | false => exact execPushpull_stalled _ _
  | 5 => exact execMov_runs ..
  | 6 => exact execIrq_stalled _
  | 7 => rfl
  | n + 8 => rfl

/-- Words with one operation run alike until their side-set and delay are decoded. -/
theorem execInsn_sameOperation {insn insn' : Insn} (h : SameOperation insn insn') :
    w.execInsn b i insn' = w.execInsn b i insn := by
  unfold execInsn
  rw [h.1, h.2]

theorem applySideset_congr {ds ds' : DelaySideset} (h : SameSideset ds ds') :
    w.applySideset b i ds' = w.applySideset b i ds := by
  obtain ⟨hen, hval, hbits⟩ := h
  unfold applySideset
  rw [hen, hval, hbits]

/-- Words with one operation and one side-set differ only in the delay they hand back. -/
theorem execOne_sameOperation {insn insn' : Insn} (h : SameOperation insn insn')
    (hside : SameSideset ((w.sm b i).decodeDelaySideset (delayField insn))
      ((w.sm b i).decodeDelaySideset (delayField insn'))) :
    w.execOne b i insn' = { w.execOne b i insn with
      delay := ((w.sm b i).decodeDelaySideset (delayField insn')).delay } := by
  unfold execOne
  dsimp only
  rw [execInsn_sameOperation h, applySideset_congr hside]

end World

/-! ### Records and worlds that differ in a pending word -/

/-- The pending words may differ where `P` holds, but not in their operation. -/
def Garb.SlotApart (P : Prop) (e e' : Garb) : Prop :=
  ∃ x, e' = { e with execInsn := x } ∧ SameOperation e.execInsn x ∧ (¬ P → x = e.execInsn)

omit [Platform] in
theorem coupled_slotApart (P : Prop) : Coupled (Garb.SlotApart P) where
  pins f h := by
    obtain ⟨x, rfl, hx⟩ := h
    exact ⟨x, rfl, hx⟩
  word y h := by
    obtain ⟨x, rfl, -⟩ := h
    exact ⟨y, rfl, ⟨rfl, rfl⟩, fun _ => rfl⟩
  fdebug d h := by
    obtain ⟨x, rfl, hx⟩ := h
    exact ⟨x, rfl, hx⟩

namespace Sm

variable {P : Prop} {s s' : Sm}

/-- The records differ at most in their pending words, as `Garb.SlotApart` allows. -/
def SlotApart (P : Prop) (s s' : Sm) : Prop :=
  ∃ x, s' = { s with execInsn := x } ∧ SameOperation s.execInsn x ∧ (¬ P → x = s.execInsn)

section
omit [Platform]

theorem SlotApart.refl (P : Prop) (s : Sm) : SlotApart P s s :=
  ⟨s.execInsn, rfl, ⟨rfl, rfl⟩, fun _ => rfl⟩

theorem alike_slotApart : Alike (Garb.SlotApart P) s s' ↔ SlotApart P s s' := by
  constructor
  · rintro ⟨e, rfl, x, rfl, hx⟩
    exact ⟨x, rfl, hx⟩
  · rintro ⟨x, rfl, hx⟩
    exact ⟨{ s.garb with execInsn := x }, rfl, x, rfl, hx⟩

/-- An operation on the record that carries the pending word along. -/
theorem SlotApart.keep {f : Sm → Sm}
    (hf : ∀ (s : Sm) x, f { s with execInsn := x } = { f s with execInsn := x })
    (hword : ∀ s, (f s).execInsn = s.execInsn) (h : SlotApart P s s') :
        SlotApart P (f s) (f s') := by
  obtain ⟨x, rfl, hx⟩ := h
  exact ⟨x, hf s x, by rwa [hword]⟩

end

theorem SlotApart.setConfig (h : SlotApart P s s') (c : SmConfig) :
    SlotApart P (s.setConfig c) (s'.setConfig c) := by
  obtain ⟨x, rfl, hx⟩ := h
  exact rel_ite Iff.rfl ⟨x, rfl, hx⟩ ⟨x, rfl, hx⟩

theorem SlotApart.apply (h : SlotApart P s s') (op : SmOp) :
    SlotApart P (op.apply s) (op.apply s') := by
  have hconfig := h.setConfig
  obtain ⟨x, rfl, hx⟩ := h
  cases op with
  | restart => exact .refl P _
  | setConfig c => exact hconfig c
  | put word =>
    simp only [SmOp.apply, put]
    cases s.tx.push word <;> exact ⟨x, rfl, hx⟩
  | get =>
    simp only [SmOp.apply, get]
    cases s.rx.pop <;> exact ⟨x, rfl, hx⟩
  | _ => exact ⟨x, rfl, hx⟩

theorem SlotApart.init (h : SlotApart P s s') (pc : ℕ) (c : SmConfig) :
    SlotApart P (s.init pc c) (s'.init pc c) := by
  obtain ⟨x, he, -⟩ := h.setConfig c
  unfold Sm.init
  rw [he]
  exact .refl P _

section
omit [Platform]

theorem SlotApart.backgroundAutopull (h : SlotApart P s s') :
    SlotApart P s.backgroundAutopull s'.backgroundAutopull :=
  alike_slotApart.mp (alike_slotApart.mpr h).backgroundAutopull

theorem SlotApart.retire (h : SlotApart P s s') (fromExec : Bool) (setPc : Option ℕ) (delay : ℕ) :
    SlotApart P (s.retire fromExec setPc delay) (s'.retire fromExec setPc delay) := by
  refine alike_slotApart.mp ((alike_slotApart.mpr h).retire (fun he => ?_) fromExec setPc delay)
  obtain ⟨x, rfl, hx⟩ := he
  exact ⟨x, rfl, hx⟩

/-- The pending word, decoded under the record's own configuration. -/
def slotDecode (s : Sm) : DelaySideset := s.decodeDelaySideset (delayField s.execInsn)

theorem SlotApart.stickyReassert (h : SlotApart P s s') :
    SlotApart P (World.stickyReassert s) (World.stickyReassert s') := by
  obtain ⟨x, rfl, hx⟩ := h
  exact rel_ite Iff.rfl ⟨x, rfl, hx⟩ ⟨x, rfl, hx⟩

theorem SlotApart.elapse (h : SlotApart P s s') : SlotApart P s.elapse s'.elapse := by
  obtain ⟨x, rfl, hx⟩ := h
  exact ⟨x, rfl, hx⟩

theorem SlotApart.delayCycle (h : SlotApart P s s') : SlotApart P s.delayCycle s'.delayCycle := by
  obtain ⟨x, he, hx⟩ := h.backgroundAutopull
  unfold Sm.delayCycle
  rw [he]
  exact SlotApart.stickyReassert ⟨x, rfl, hx⟩

end

end Sm

namespace World

variable {v v' w : World} {b c : BlockAddr} {i j : Fin 4}

/-- The world with other records. -/
def withSm (w : World) (f : BlockAddr → Fin 4 → Sm) : World :=
  { w with blocks := fun c => { w.blocks c with sm := f c } }

/-- The worlds differ at most in the pending word of state machine `(b, i)`. -/
def SlotApart (b : BlockAddr) (i : Fin 4) (v v' : World) : Prop :=
  ∃ f, v' = v.withSm f ∧ ∀ c j, Sm.SlotApart ((c, j) = (b, i)) (v.sm c j) (f c j)

section
omit [Platform]

theorem SlotApart.refl (b : BlockAddr) (i : Fin 4) (v : World) : SlotApart b i v v :=
  ⟨v.sm, rfl, fun _ _ => .refl _ _⟩

theorem SlotApart.sm (h : SlotApart b i v v') (c : BlockAddr) (j : Fin 4) :
    Sm.SlotApart ((c, j) = (b, i)) (v.sm c j) (v'.sm c j) := by
  obtain ⟨f, rfl, hf⟩ := h
  exact hf c j

/-- Writes of corresponding blocks with corresponding records. -/
theorem SlotApart.setBlock (h : SlotApart b i v v') (c : BlockAddr) {p p' : Pio}
    (hp : p' = { p with sm := p'.sm })
    (hsm : ∀ j, Sm.SlotApart ((c, j) = (b, i)) (p.sm j) (p'.sm j)) :
    SlotApart b i (v.setBlock c p) (v'.setBlock c p') := by
  obtain ⟨f, rfl, hf⟩ := h
  refine ⟨Function.update f c p'.sm, ?_, fun d j => ?_⟩
  · unfold World.setBlock withSm
    congr 1
    funext d
    by_cases hd : d = c
    · subst hd
      simpa only [Function.update_self] using hp
    · simp only [Function.update_of_ne hd]
  · by_cases hd : d = c
    · subst hd
      simpa only [World.sm, World.setBlock, Function.update_self] using hsm j
    · simpa only [World.sm, World.setBlock, Function.update_of_ne hd] using hf d j

theorem SlotApart.setSm (h : SlotApart b i v v') (c : BlockAddr) (j : Fin 4) {s s' : Sm}
    (hs : Sm.SlotApart ((c, j) = (b, i)) s s') :
    SlotApart b i (v.setSm c j s) (v'.setSm c j s') := by
  have hsm := h.sm
  obtain ⟨f, rfl, -⟩ := h
  refine SlotApart.setBlock ⟨f, rfl, hsm⟩ c rfl fun k => ?_
  by_cases hk : k = j
  · subst hk
    simpa only [Function.update_self] using hs
  · simp only [Function.update_of_ne hk]
    exact hsm c k

theorem SlotApart.modifySm (h : SlotApart b i v v') (c : BlockAddr) (j : Fin 4) {g : Sm → Sm}
    (hg : ∀ {P s s'}, Sm.SlotApart P s s' → Sm.SlotApart P (g s) (g s')) :
    SlotApart b i (v.modifySm c j g) (v'.modifySm c j g) := h.setSm c j (hg (h.sm c j))

/-- Writes that carry the pending word along. -/
theorem SlotApart.keepSm (h : SlotApart b i v v') (c : BlockAddr) (j : Fin 4) {g : Sm → Sm}
    (hg : ∀ (s : Sm) x, g { s with execInsn := x } = { g s with execInsn := x })
    (hword : ∀ s, (g s).execInsn = s.execInsn) :
    SlotApart b i (v.modifySm c j g) (v'.modifySm c j g) := h.modifySm c j (.keep hg hword)

theorem SlotApart.setPads (h : SlotApart b i v v') (r : PadRef) (p : Pads) :
    SlotApart b i (v.setPads r p) (v'.setPads r p) := by
  have hsm := h.sm
  obtain ⟨f, rfl, hf⟩ := h
  cases r with
  | embedded c => exact SlotApart.setBlock ⟨f, rfl, hf⟩ c rfl (hsm c)
  | shared g => exact ⟨f, rfl, hf⟩

/-- Outside the records nothing differs. -/
theorem SlotApart.rest (h : SlotApart b i v v') : v'.padsAt = v.padsAt ∧ v'.padRef = v.padRef ∧
    v'.irqs = v.irqs ∧ v'.shell = v.shell ∧ v'.groups = v.groups := by
  obtain ⟨f, rfl, -⟩ := h
  refine ⟨?_, rfl, rfl, rfl, rfl⟩
  funext r
  cases r <;> rfl

theorem SlotApart.modifyPads (h : SlotApart b i v v') (c : BlockAddr) (g : Pads → Pads) :
    SlotApart b i (v.modifyPads c g) (v'.modifyPads c g) := by
  obtain ⟨hat, href, -⟩ := h.rest
  have hset := h.setPads (v.padRef c) (g (v.pads c))
  unfold World.modifyPads pads
  rw [href, hat]
  exact hset

/-- The resolution reads pin registers and enable bits only. -/
theorem resolve_congr {f f' : BlockAddr → Fin 4 → Sm} (p : Pads)
    (hen : ∀ c j, (f' c j).enabled = (f c j).enabled)
    (hpins : ∀ c j, (f' c j).pins = (f c j).pins) :
    p.resolve f' = p.resolve f := by
  have hwritten : p.writtenBy f' = p.writtenBy f := by
    funext d
    rw [Pads.writtenBy, hpins, Pads.writtenBy]
  have hdriven : p.drivenBy f' = p.drivenBy f := by
    funext d
    rw [Pads.drivenBy, hpins, Pads.drivenBy]
  unfold Pads.resolve Pads.resolvedDirs Pads.resolvedLevels
  simp only [hwritten, hdriven, hen, hpins]

end

theorem SlotApart.resolvePads (h : SlotApart b i v v') (c : BlockAddr) :
    SlotApart b i (v.resolvePads c) (v'.resolvePads c) := by
  have hsame : v'.resolvePads c = v'.modifyPads c (·.resolve v.sm) := by
    refine congrArg (v'.setPads (v'.padRef c)) (resolve_congr _ (fun d j => ?_) fun d j => ?_)
    all_goals
      obtain ⟨x, he, -⟩ := h.sm d j
      rw [he]
  rw [hsame]
  exact h.modifyPads c _

omit [Platform] in
theorem SlotApart.setIrq (h : SlotApart b i v v') (c : BlockAddr) (x : BitVec 8) :
    SlotApart b i (v.setIrq c x) (v'.setIrq c x) := by
  have hsm := h.sm
  obtain ⟨f, rfl, hf⟩ := h
  exact SlotApart.setBlock ⟨f, rfl, hf⟩ c rfl (hsm c)

theorem SlotApart.sameView (h : SlotApart b i v v') (c : BlockAddr) : SameView c v v' := by
  obtain ⟨hat, href, hirqs, hshell, -⟩ := h.rest
  refine ⟨?_, hirqs, hshell⟩
  funext pin
  rw [inputLevel, pads, hat, href, inputLevel, pads]

/-- Such a difference is kept by the writes of every state machine. -/
theorem parallel_slotApart (b c : BlockAddr) (i j : Fin 4) :
    Parallel (Garb.SlotApart ((c, j) = (b, i))) c j (SlotApart b i) where
  sm h := Sm.alike_slotApart.mpr (h.sm c j)
  record h hs := h.setSm c j (Sm.alike_slotApart.mp hs)
  irq d x h := h.setIrq d x
  pins h hs := (h.setSm c j (Sm.alike_slotApart.mp hs)).resolvePads c

theorem SlotApart.execOne (h : SlotApart b i v v') (c : BlockAddr) (j : Fin 4) (insn : Insn) :
    ExecutedAlike (SlotApart b i) (v.execOne c j insn) (v'.execOne c j insn) := by
  refine (parallel_slotApart b c i j).execOne (coupled_slotApart _) h (h.sameView c) fun _ _ _ => ?_
  obtain ⟨x, he, -⟩ := h.sm c j
  rw [he]

theorem SlotApart.smExec (h : SlotApart b i v v') (c : BlockAddr) (j : Fin 4) (insn : Insn) :
    SlotApart b i (v.smExec c j insn) (v'.smExec c j insn) := by
  have hclear := h.keepSm c j (g := fun s => { s with stalled := false })
    (fun _ _ => rfl) fun _ => rfl
  have hone := hclear.execOne c j insn
  unfold World.smExec
  dsimp only
  refine rel_ite (by rw [hone.committed]) ?_ ?_
  · rw [hone.setPc]
    exact hone.world.keepSm c j (fun _ _ => rfl) fun _ => rfl
  · exact hone.world.modifySm c j fun ⟨x, he, hx⟩ => by
      rw [he]
      exact .refl _ _

omit [Platform] in
theorem SlotApart.countFetch (h : SlotApart b i v v') (c : BlockAddr) (j : Fin 4) :
    SlotApart b i (v.countFetch c j) (v'.countFetch c j) := by
  obtain ⟨x, he, -⟩ := h.sm c j
  have hsm := h.sm
  unfold World.countFetch
  rw [he]
  obtain ⟨f, rfl, hf⟩ := h
  exact rel_ite Iff.rfl ⟨f, rfl, hf⟩ (SlotApart.setBlock ⟨f, rfl, hf⟩ c rfl (hsm c))

omit [Platform] in
theorem SlotApart.openWindow (h : SlotApart b i v v') (c : BlockAddr) :
    SlotApart b i (v.openWindow c) (v'.openWindow c) := by
  refine List.foldl_rel h fun j _ u u' hu => ?_
  exact hu.keepSm c j (fun _ _ => rfl) fun _ => rfl

/-! ### Turns and ticks -/

/-- Taking the pending words of the records `s` and `s'` in world `t` does the same: they decode to
one side-set, and to one delay unless the word has to wait on. -/
def Spared (b : BlockAddr) (i : Fin 4) (t : World) (s s' : Sm) : Prop :=
  SameSideset s.slotDecode s'.slotDecode ∧
    (s'.slotDecode.delay = s.slotDecode.delay ∨ t.waits b i s.execInsn = true)

/-- The state machine takes a word from its pending slot in its next turn. -/
def takesSlot (w : World) (b : BlockAddr) (i : Fin 4) : Bool :=
  w.due b i && (w.sm b i).delay == 0 && (w.sm b i).execPending

section
omit [Platform]

theorem slotApart_file {P : Prop} {r r' : Executed} {s s' : Sm} (hs : Sm.SlotApart P s s')
    (hc : r'.committed = r.committed) (hpc : r'.setPc = r.setPc)
    (hd : r.committed = true → r'.delay = r.delay) (fromExec : Bool) :
    Sm.SlotApart P (r.file fromExec s) (r'.file fromExec s') := by
  unfold Executed.file
  rw [hc, hpc]
  split
  · rename_i hcommit
    rw [hd hcommit]
    exact (hs.retire fromExec _ _).stickyReassert
  · obtain ⟨x, rfl, hx⟩ := hs
    exact Sm.SlotApart.stickyReassert ⟨x, rfl, hx⟩

theorem SlotApart.turnWorld (h : SlotApart b i v v') (c : BlockAddr) (j : Fin 4) :
    SlotApart b i (v.turnWorld c j) (v'.turnWorld c j) := by
  exact ((h.modifySm c j Sm.SlotApart.elapse).modifySm c j
    Sm.SlotApart.backgroundAutopull).countFetch c j

/-- The word of a turn, in both worlds: it is one word, or the pending ones. -/
theorem SlotApart.getInstruction (h : SlotApart b i v v') (c : BlockAddr) (j : Fin 4) :
    v'.getInstruction c j = v.getInstruction c j ∨ (c, j) = (b, i) ∧ (v.sm b i).execPending = true ∧
      v.getInstruction c j = (v.sm b i).execInsn ∧
        v'.getInstruction c j = (v'.sm b i).execInsn := by
  obtain ⟨x, he, -, hother⟩ := h.sm c j
  obtain ⟨-, -, -, hshell, -⟩ := h.rest
  have hinsn := insn_of_shell hshell c
  unfold World.getInstruction
  by_cases hp : (v.sm c j).execPending = true
  · have hp' : (v'.sm c j).execPending = true := by rw [he]; exact hp
    rw [if_pos hp, if_pos hp']
    by_cases hself : (c, j) = (b, i)
    · obtain ⟨rfl, rfl⟩ := Prod.mk.inj hself
      exact .inr ⟨rfl, hp, rfl, rfl⟩
    · refine .inl ?_
      rw [he]
      exact hother hself
  · have hp' : ¬ (v'.sm c j).execPending = true := by rw [he]; exact hp
    rw [if_neg hp, if_neg hp', hinsn, he]
    exact .inl rfl

end

/-- The pending words run alike but for the delay they hand back, and that differs only on a
stall. -/
theorem SlotApart.execSlot (h : SlotApart b i v v')
    (hs : Spared b i (v.turnWorld b i) (v.sm b i) (v'.sm b i)) :
    let r := (v.turnWorld b i).execOne b i (v.sm b i).execInsn
    let r' := (v'.turnWorld b i).execOne b i (v'.sm b i).execInsn
    SlotApart b i r.world r'.world ∧ r'.committed = r.committed ∧ r'.setPc = r.setPc ∧
      (r.committed = true → r'.delay = r.delay) := by
  have hone := (h.turnWorld b i).execOne b i (v.sm b i).execInsn
  obtain ⟨x, he, hop, -⟩ := h.sm b i
  have hword : (v'.sm b i).execInsn = x := by rw [he]
  have hdecode : ∀ u : World, ((u.turnWorld b i).sm b i).decodeDelaySideset =
      (u.sm b i).decodeDelaySideset := by
    intro u
    rw [sm_turnWorld, (Sm.backgroundAutopull_fields _).2.2.2.2]
    rfl
  have hdecode' : (v'.sm b i).decodeDelaySideset = (v.sm b i).decodeDelaySideset := by
    rw [he]
    rfl
  obtain ⟨hside, hdelay⟩ := hs
  unfold Sm.slotDecode at hside hdelay
  rw [hword, hdecode'] at hside hdelay
  have hsame := execOne_sameOperation (w := v'.turnWorld b i) hop (by rwa [hdecode, hdecode'])
  intro r r'
  have hr' : r' = { (v'.turnWorld b i).execOne b i (v.sm b i).execInsn with
      delay := ((v.sm b i).decodeDelaySideset (delayField x)).delay } := by
    rw [← hdecode', ← hdecode, ← hsame, ← hword]
  rw [hr']
  refine ⟨hone.world, hone.committed, hone.setPc, fun hc => ?_⟩
  rcases hdelay with hdelay | hdelay
  · rw [hdelay]
    exact congrArg DelaySideset.delay (congrFun (hdecode v).symm _)
  · have hstall : r.committed = !(v.turnWorld b i).waits b i (v.sm b i).execInsn :=
      congrArg (!·) (execInsn_stalled _)
    rw [hstall, hdelay] at hc
    cases hc

theorem SlotApart.smTick (h : SlotApart b i v v') (c : BlockAddr) (j : Fin 4)
    (hs : (c, j) = (b, i) → v.takesSlot b i = true →
      Spared b i (v.turnWorld b i) (v.sm b i) (v'.sm b i)) :
    SlotApart b i (v.smTick c j) (v'.smTick c j) := by
  obtain ⟨x, he, -⟩ := h.sm c j
  have hdue' : v'.due c j = v.due c j := by
    unfold due
    rw [he]
    rfl
  have hdelay' : (v'.sm c j).delay = (v.sm c j).delay := by rw [he]
  have hpend' : (v'.sm c j).execPending = (v.sm c j).execPending := by rw [he]
  cases hdue : v.due c j with
  | false =>
    rw [smTick_of_not_due hdue, smTick_of_not_due (hdue'.trans hdue)]
    exact h.keepSm c j (fun _ _ => rfl) fun _ => rfl
  | true =>
    by_cases hd : (v.sm c j).delay = 0
    · rw [smTick_of_presents hdue hd, smTick_of_presents (hdue'.trans hdue)
        (hdelay'.trans hd), hpend']
      rcases h.getInstruction c j with hword | ⟨hself, hpend, hword, hword'⟩
      · have hone := (h.turnWorld c j).execOne c j (v.getInstruction c j)
        rw [hword]
        exact hone.world.setSm c j
          (slotApart_file (hone.world.sm c j) hone.committed hone.setPc (fun _ => hone.delay) _)
      · obtain ⟨rfl, rfl⟩ := Prod.mk.inj hself
        have htake : v.takesSlot c j = true := by simp [takesSlot, hdue, hd, hpend]
        obtain ⟨hworld, hcommit, hpc, hdel⟩ := h.execSlot (hs rfl htake)
        rw [hword, hword']
        exact hworld.setSm c j (slotApart_file (hworld.sm c j) hcommit hpc hdel _)
    · have hpos := Nat.pos_of_ne_zero hd
      rw [smTick_of_delay hdue hpos, smTick_of_delay (hdue'.trans hdue) (hdelay' ▸ hpos)]
      exact h.modifySm c j fun ht => ht.elapse.delayCycle

theorem foldl_smTick_slotApart {l : List (Fin 4)} (hl : b ≠ c ∨ i ∉ l) (h : SlotApart b i v v') :
    SlotApart b i (l.foldl (fun w j => w.smTick c j) v) (l.foldl (fun w j => w.smTick c j) v') := by
  refine List.foldl_rel h fun j hj u u' hu => hu.smTick c j fun hself => ?_
  obtain ⟨rfl, rfl⟩ := Prod.mk.inj hself
  exact hl.elim (fun hb => absurd rfl hb) fun hi => absurd hj hi

theorem takesSlot_beforeSm (w : World) (b : BlockAddr) (i : Fin 4) :
    (w.beforeSm b i).takesSlot b i = w.takesSlot b i := by
  unfold takesSlot due
  rw [sm_beforeSm]
  rfl

/-- A tick keeps the difference in the pending slot when the slot is not read, or to no effect. -/
theorem SlotApart.tickSms (h : SlotApart b i v v') (c : BlockAddr)
    (hs : c = b → v.takesSlot b i = true →
      Spared b i (v.presentWorld b i) (v.sm b i) (v'.sm b i)) :
    SlotApart b i (v.tickSms c) (v'.tickSms c) := by
  have hopen := h.openWindow c
  refine SlotApart.resolvePads ?_ c
  by_cases hc : c = b
  · subst hc
    have hbefore : SlotApart c i (v.beforeSm c i) (v'.beforeSm c i) :=
      foldl_smTick_slotApart (.inr (notMem_take_finRange i)) hopen
    rw [finRange_split i, List.foldl_append, List.foldl_append, List.foldl_cons, List.foldl_cons]
    refine foldl_smTick_slotApart (.inr (notMem_drop_finRange i))
      (hbefore.smTick c i fun _ htake => ?_)
    rw [takesSlot_beforeSm] at htake
    have hspared := hs rfl htake
    rw [presentWorld_eq] at hspared
    rw [sm_beforeSm, sm_beforeSm]
    exact hspared
  · exact foldl_smTick_slotApart (.inl fun h => hc h.symm) hopen

/-! ### Calls -/

theorem blockOp_withSm (p : Pio) (f : Fin 4 → Sm) (op : BlockOp) :
    op.apply { p with sm := f } = { op.apply p with sm := f } := by
  cases op with
  | load offset insns =>
    show Pio.load _ offset insns = { Pio.load p offset insns with sm := f }
    unfold Pio.load
    refine List.foldl_hom (fun q : Pio => { q with sm := f }) fun q x => ?_
    dsimp only
    split <;> rfl
  | _ => rfl

theorem SlotApart.block (h : SlotApart b i v v') (c : BlockAddr) (op : BlockOp) :
    SlotApart b i (v.setBlock c (op.apply (v.blocks c)))
    (v'.setBlock c (op.apply (v'.blocks c))) := by
  have hsm := h.sm c
  refine h.setBlock c ?_ fun j => ?_
  · obtain ⟨f, rfl, -⟩ := h
    show op.apply { v.blocks c with sm := f c } = _
    rw [blockOp_withSm, BlockOp.sm_apply]
    rfl
  · rw [BlockOp.sm_apply, BlockOp.sm_apply]
    exact hsm j

theorem SlotApart.setSmMaskEnabled (h : SlotApart b i v v') (c : BlockAddr) (mask : BitVec 8)
    (enabled : Bool) :
    SlotApart b i (v.setSmMaskEnabled c mask enabled) (v'.setSmMaskEnabled c mask enabled) := by
  refine SlotApart.resolvePads (List.foldl_rel h fun j _ u u' hu => ?_) c
  exact rel_ite Iff.rfl (hu.keepSm c j (fun _ _ => rfl) fun _ => rfl) hu

theorem SlotApart.clkdivRestartSmMask (h : SlotApart b i v v') (c : BlockAddr) (mask : BitVec 8) :
    SlotApart b i (v.clkdivRestartSmMask c mask) (v'.clkdivRestartSmMask c mask) := by
  refine List.foldl_rel h fun j _ u u' hu => ?_
  exact rel_ite Iff.rfl (hu.modifySm c j fun ht => ht.apply .clkdivRestart) hu

omit [Platform] in
theorem SlotApart.setGroup (h : SlotApart b i v v') (g : GroupAddr) (grp : Group) :
    SlotApart b i (v.setGroup g grp) (v'.setGroup g grp) := by
  obtain ⟨f, rfl, hf⟩ := h
  exact ⟨f, rfl, hf⟩

theorem SlotApart.groupInit (h : SlotApart b i v v') (g : GroupAddr) (blocks : List BlockAddr) :
    SlotApart b i (v.groupInit g blocks) (v'.groupInit g blocks) := by
  have hgroups := h.rest.2.2.2.2
  unfold World.groupInit
  rw [hgroups]
  have hset := h.setGroup g { v.groups g with blk := blocks.take numPio, shared := false }
  refine rel_ite Iff.rfl (List.foldl_rel hset fun k _ u u' hu => ?_) hset
  cases (blocks.take numPio)[k]? with
  | none => exact hu
  | some c => exact hu.block c (.setIrqNeighbors _ _)

theorem SlotApart.groupInitShared (h : SlotApart b i v v') (g : GroupAddr)
    (blocks : List BlockAddr) :
    SlotApart b i (v.groupInitShared g blocks) (v'.groupInitShared g blocks) := by
  have hinit := h.groupInit g blocks
  have hgroups := hinit.rest.2.2.2.2
  unfold World.groupInitShared
  dsimp only
  rw [hgroups]
  refine List.foldl_rel (hinit.setGroup g _) fun c _ u u' hu => ?_
  have hsm := hu.sm c
  obtain ⟨f, rfl, hf⟩ := hu
  exact SlotApart.setBlock ⟨f, rfl, hf⟩ c rfl hsm

theorem SlotApart.tickEnd (h : SlotApart b i v v') (c : BlockAddr) :
    SlotApart b i (v.tickEnd c) (v'.tickEnd c) := by
  have href := h.rest.2.1
  have hclock :
    SlotApart b i (if v.padRef c = .embedded c then v.modifyPads c Pads.clockSync else v)
      (if v'.padRef c = .embedded c then v'.modifyPads c Pads.clockSync else v') :=
    rel_ite (by rw [href]) (h.modifyPads c _) h
  have hsm := hclock.sm c
  unfold World.tickEnd
  obtain ⟨f, he, hf⟩ := hclock
  rw [he] at hsm ⊢
  exact SlotApart.setBlock ⟨f, rfl, hf⟩ c rfl hsm

/-- The condition of a call on the states of the two runs before it. -/
def SparedBy (b : BlockAddr) (i : Fin 4) (s : World × World) (c : Call) : Prop :=
  c = .tickSms b → s.1.takesSlot b i = true →
    Spared b i (s.1.presentWorld b i) (s.1.sm b i) (s.2.sm b i)

theorem SlotApart.step (h : SlotApart b i v v') (c : Call) (hs : SparedBy b i (v, v') c) :
    SlotApart b i (v.step c) (v'.step c) := by
  cases c with
  | sm c k op => exact h.modifySm c (smIdx k) fun ht => ht.apply op
  | block c op => exact h.block c op
  | pad c op => exact h.modifyPads c fun p => op.apply p
  | init c => exact h.setBlock c rfl fun _ => .refl _ _
  | setEnabled c k enabled =>
    refine SlotApart.resolvePads ?_ c
    exact h.keepSm c (smIdx k) (fun _ _ => rfl) fun _ => rfl
  | setSmMaskEnabled c mask enabled => exact h.setSmMaskEnabled c mask enabled
  | clkdivRestartSmMask c mask => exact h.clkdivRestartSmMask c mask
  | enableSmMaskInSync c mask => exact (h.setSmMaskEnabled c mask true).clkdivRestartSmMask c mask
  | setConsecutivePindirs c k base count isOut =>
    have hphys : v'.physPin c = v.physPin c := (h.sameView c).physPin
    simp only [World.step, smSetConsecutivePindirs, hphys]
    refine SlotApart.resolvePads ?_ c
    exact h.keepSm c (smIdx k) (fun _ _ => rfl) fun _ => rfl
  | smInit c k pc cfg => exact h.modifySm c (smIdx k) fun ht => ht.init pc cfg
  | smExec c k insn => exact h.smExec c (smIdx k) insn
  | gpioSetFunction c pin f =>
    have hset := h.modifyPads c (·.gpioSetFunction v.sm pin f)
    have hsame : v'.gpioSetFunction c pin f = v'.modifyPads c (·.gpioSetFunction v.sm pin f) := by
      refine congrArg (v'.setPads (v'.padRef c)) (resolve_congr _ (fun d j => ?_) fun d j => ?_)
      all_goals
        obtain ⟨x, he, -⟩ := h.sm d j
        rw [he]
    rw [World.step, World.step, hsame]
    exact hset
  | groupInit g blocks => exact h.groupInit g blocks
  | groupInitShared g blocks => exact h.groupInitShared g blocks
  | loadProgram c k offset prog =>
    rcases loadProgram_uniform c (smIdx k) offset prog with hload | ⟨words, -, hload⟩
    · rw [World.step, World.step, hload, hload]
      exact h
    · rw [World.step, World.step, hload, hload]
      exact (h.block c (.load offset words)).keepSm c (smIdx k)
        (fun _ _ => rfl) fun _ => rfl
  | tickSms c => exact h.tickSms c fun hc => hs (by rw [hc])
  | tickEnd c => exact h.tickEnd c
  | groupOpen g =>
    rw [World.step, World.step, World.groupOpen, World.groupOpen, h.rest.2.2.2.2]
    exact List.foldl_rel h fun c _ u u' hu => hu.openWindow c
  | groupEnd g =>
    obtain ⟨hat, -, -, -, hgroups⟩ := h.rest
    rw [World.step, World.step, World.groupEnd, World.groupEnd, hgroups, hat]
    exact rel_ite Iff.rfl (h.setPads _ _) h

/-! ### The two runs -/

/-- The two runs are at one state, but for the stored copy of the word pending at `(b, i)`. -/
def AgreeButSlot (b : BlockAddr) (i : Fin 4) (v v' : World) : Prop :=
  ∃ x, v' = v.modifySm b i fun s => { s with execInsn := x }

omit [Platform] in
theorem SlotApart.agree (h : SlotApart b i v v') : AgreeButSlot b i v v' := by
  obtain ⟨f, rfl, hf⟩ := h
  obtain ⟨x, hx, -⟩ := hf b i
  refine ⟨x, ?_⟩
  unfold World.modifySm World.setSm World.setBlock withSm
  congr 1
  funext c
  have hrecords : ∀ j, (c, j) ≠ (b, i) → f c j = v.sm c j := by
    intro j hne
    obtain ⟨y, hy, -, hother⟩ := hf c j
    rw [hy, hother hne]
  by_cases hc : c = b
  · subst hc
    simp only [Function.update_self]
    congr 1
    funext j
    by_cases hj : j = i
    · subst hj
      rw [Function.update_self, hx]
    · rw [Function.update_of_ne hj, hrecords j fun he => hj (Prod.mk.inj he).2]
      rfl
  · have hsm : f c = (v.blocks c).sm := funext fun j => hrecords j fun he => hc (Prod.mk.inj he).1
    simp only [Function.update_of_ne hc, hsm]

/-- Forcing words with one operation and one side-set leaves the runs apart in the pending slot at
most, and there only when the word stalled. -/
theorem slotApart_smExec (w : World) (b : BlockAddr) (i : Fin 4) {insn insn' : Insn}
    (hop : SameOperation insn insn')
    (hside : SameSideset ((w.sm b i).decodeDelaySideset (delayField insn))
      ((w.sm b i).decodeDelaySideset (delayField insn'))) :
    SlotApart b i (w.smExec b i insn) (w.smExec b i insn') := by
  have hclear : ((w.modifySm b i fun s => { s with stalled := false }).sm b i).decodeDelaySideset =
      (w.sm b i).decodeDelaySideset := by
    rw [sm_modifySm_self]
    rfl
  have hsame := execOne_sameOperation (w := w.modifySm b i fun s => { s with stalled := false }) hop
    (by rwa [hclear])
  -- a word that commits leaves one world, a word that stalls is latched
  unfold World.smExec
  rw [hsame]
  refine rel_ite Iff.rfl (.refl b i _) ((SlotApart.refl b i _).setSm b i ?_)
  exact ⟨insn', rfl, hop, fun h => absurd rfl h⟩

/-- Two runs of one list of calls, side by side. -/
def stepBoth (s : World × World) (c : Call) : World × World := (s.1.step c, s.2.step c)

theorem foldl_stepBoth (s : World × World) (cs : List Call) :
    cs.foldl stepBoth s = (s.1.run cs, s.2.run cs) := by
  induction cs generalizing s with
  | nil => rfl
  | cons c cs ih => exact ih (stepBoth s c)

theorem SlotApart.presentWorld (h : SlotApart b i v v') :
    SlotApart b i (v.presentWorld b i) (v'.presentWorld b i) := by
  rw [presentWorld_eq, presentWorld_eq]
  exact SlotApart.turnWorld
    (foldl_smTick_slotApart (.inr (notMem_take_finRange i)) (h.openWindow b)) b i

/-- The pending words wait for the same. -/
theorem SlotApart.waits (h : SlotApart b i v v') :
    v'.waits b i (v'.sm b i).execInsn = v.waits b i (v.sm b i).execInsn := by
  have hone := h.execOne b i (v.sm b i).execInsn
  have hsame := execInsn_sameOperation (w := v') (b := b) (i := i) (h.sm b i).choose_spec.2.1
  obtain ⟨x, he, hop, -⟩ := h.sm b i
  have hword : (v'.sm b i).execInsn = x := by rw [he]
  have hstall : (v'.execInsn b i (v.sm b i).execInsn).stalled =
      (v.execInsn b i (v.sm b i).execInsn).stalled := by
    have hc := hone.committed
    exact Bool.not_inj hc
  rw [hword, ← execInsn_stalled, ← execInsn_stalled, execInsn_sameOperation hop, hstall]

/-- A pending word that has not to wait is executed with its delay. -/
theorem delay_tickSms_of_takesSlot (htake : v.takesSlot b i = true)
    (hruns : (v.presentWorld b i).waits b i (v.sm b i).execInsn = false) :
    ((v.tickSms b).sm b i).delay = (v.sm b i).slotDecode.delay := by
  simp only [takesSlot, Bool.and_eq_true, beq_iff_eq] at htake
  obtain ⟨⟨hdue, hd⟩, hpend⟩ := htake
  have hword : v.getInstruction b i = (v.sm b i).execInsn := if_pos hpend
  have hcommit : ((v.presentWorld b i).execOne b i (v.sm b i).execInsn).committed = true := by
    show (!((v.presentWorld b i).execInsn b i (v.sm b i).execInsn).stalled) = true
    rw [execInsn_stalled, hruns]
    rfl
  have hdecode : ((v.presentWorld b i).sm b i).decodeDelaySideset =
      (v.sm b i).decodeDelaySideset := by
    rw [sm_presentWorld, (Sm.backgroundAutopull_fields _).2.2.2.2, sm_cycleWorld]
    rfl
  obtain ⟨r, hr⟩ := stickyReassert_eq
    ((((v.presentWorld b i).execOne b i (v.sm b i).execInsn).world.sm b i).retire
      (v.sm b i).execPending ((v.presentWorld b i).execOne b i (v.sm b i).execInsn).setPc
      ((v.presentWorld b i).execOne b i (v.sm b i).execInsn).delay)
  rw [sm_tickSms_of_commit hdue hd (by rw [hword]) hcommit, hr, hpend]
  exact congrArg DelaySideset.delay (congrFun hdecode _)

/-- The delay of a forced word is ignored for as long as the word is not taken from the pending slot
to be executed: words with one operation and one side-set give runs that agree on everything but the
stored copy of the pending word, in every state, when each tick that takes the pending words finds
them to decode to one side-set, and to one delay unless the word still waits. Where it finds two
delays and the word does not wait, the runs are apart after it: the delay is executed. -/
theorem forced_delay_ignored_until_taken (w : World) (b : BlockAddr) (i : Fin 4) (insn insn' : Insn)
    (hop : SameOperation insn insn')
    (hside : SameSideset ((w.sm b i).decodeDelaySideset (delayField insn))
      ((w.sm b i).decodeDelaySideset (delayField insn')))
    (cs : List Call)
    (hcs : Run.Along stepBoth (SparedBy b i) (w.smExec b i insn, w.smExec b i insn') cs) :
    (∀ ds, ds <+: cs →
      AgreeButSlot b i ((w.smExec b i insn).run ds) ((w.smExec b i insn').run ds)) ∧
    ∀ v v', (w.smExec b i insn).run cs = v → (w.smExec b i insn').run cs = v' →
      v.takesSlot b i = true → (v'.sm b i).slotDecode.delay ≠ (v.sm b i).slotDecode.delay →
        (v.presentWorld b i).waits b i (v.sm b i).execInsn = false →
          ¬ AgreeButSlot b i (v.step (.tickSms b)) (v'.step (.tickSms b)) := by
  have hstart := slotApart_smExec w b i hop hside
  have hapart : ∀ ds, ds <+: cs →
      SlotApart b i ((w.smExec b i insn).run ds) ((w.smExec b i insn').run ds) := by
    intro ds hds
    have hinv := Run.invariant_prefix (I := fun s : World × World => SlotApart b i s.1 s.2)
      (fun s c hs hc => hs.step c hc) hstart hcs hds
    rwa [foldl_stepBoth] at hinv
  refine ⟨fun ds hds => (hapart ds hds).agree, ?_⟩
  rintro v v' rfl rfl htake hdelay hruns ⟨x, hx⟩
  have hend := hapart cs (List.prefix_refl cs)
  generalize (w.smExec b i insn).run cs = v at *
  generalize (w.smExec b i insn').run cs = v' at *
  obtain ⟨y, he, -⟩ := hend.sm b i
  have htake' : v'.takesSlot b i = true := by
    unfold takesSlot due at htake ⊢
    rw [he]
    exact htake
  have hslot : ∀ u : World, ((u.presentWorld b i).sm b i).execInsn = (u.sm b i).execInsn := by
    intro u
    rw [sm_presentWorld, (Sm.backgroundAutopull_fields _).2.1, sm_cycleWorld]
    rfl
  have hwait := hend.presentWorld.waits
  rw [hslot, hslot, hruns] at hwait
  have hd := delay_tickSms_of_takesSlot htake hruns
  have hd' := delay_tickSms_of_takesSlot htake' hwait
  simp only [step] at hx
  rw [hx, sm_modifySm_self] at hd'
  exact hdelay (hd'.symm.trans hd)

omit [Platform] in
/-- A forced `pull block` and its twin with a delay cycle, while the TX FIFO is empty. -/
theorem forced_delay_ignored_until_taken_pull :
    letI : Platform := ⟨.rp2350⟩
    let w := initial.run [.setEnabled 0 0 true]
    AgreeButSlot 0 0 ((w.smExec 0 0 0x80A0).run [.tickSms 0, .tickEnd 0])
      ((w.smExec 0 0 0x81A0).run [.tickSms 0, .tickEnd 0]) := by
  let P : Platform := ⟨.rp2350⟩
  intro w
  refine (forced_delay_ignored_until_taken w 0 0 0x80A0 0x81A0 (by decide) (by decide +kernel)
    [.tickSms 0, .tickEnd 0] ?_).1 _ (List.prefix_refl _)
  refine ⟨fun _ _ => ⟨by decide +kernel, .inr (by decide +kernel)⟩, fun h => ?_, trivial⟩
  cases h

omit [Platform] in
/-- Once the host has put a word, the two runs are a delay cycle apart. -/
theorem latched_delay_executed :
    letI : Platform := ⟨.rp2350⟩
    ¬ ∀ (w : World) (b : BlockAddr) (i : Fin 4) (insn insn' : Insn), SameOperation insn insn' →
      SameSideset ((w.sm b i).decodeDelaySideset (delayField insn))
        ((w.sm b i).decodeDelaySideset (delayField insn')) →
      ∀ cs, AgreeButSlot b i ((w.smExec b i insn).run cs) ((w.smExec b i insn').run cs) := by
  let P : Platform := ⟨.rp2350⟩
  intro h
  obtain ⟨x, hx⟩ := h (initial.run [.setEnabled 0 0 true]) 0 0 0x80A0 0x81A0 (by decide)
    (by decide +kernel) [.sm 0 0 (.put 7), .tickSms 0]
  have hdelay := congrArg (fun v : World => (v.sm 0 0).delay) hx
  simp only [sm_modifySm_self] at hdelay
  revert hdelay
  decide +kernel

end World
end PioSim
