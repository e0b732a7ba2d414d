import PioSim.Relocation

/-!
# Programs keep to their windows

A state machine that runs a closed program stays in the part of the instruction memory the program
was loaded to, whatever runs beside it: the other state machines of the block may run programs of
their own.
-/

namespace PioSim

variable [Platform]

namespace Sm

/-- What decides the next word of a state machine and how its delay and side-set are read. -/
def fetching (s : Sm) : (ℕ × ℕ × ℕ × Bool × Insn) × ℕ × Bool × Bool :=
  (s.fetchState, s.sidesetTotalBits, s.sidesetOpt, s.sidesetPindirs)

omit [Platform] in
theorem steady_fetching : World.Steady Sm.fetching :=
  ⟨fun _ _ => rfl, fun _ _ => rfl, fun _ _ => rfl⟩

omit [Platform] in
/-- The part of it that is configuration. -/
theorem fetching_of_control {s s' : Sm} (hc : s'.control = s.control)
    (hf : s'.fetchState = s.fetchState) :
    s'.fetching = s.fetching := by
  have hconfig : s'.config = s.config := congrArg Prod.fst hc
  have hbits : s'.sidesetTotalBits = s.sidesetTotalBits :=
    congrArg SmConfig.sidesetTotalBits hconfig
  have hopt : s'.sidesetOpt = s.sidesetOpt := congrArg SmConfig.sidesetOpt hconfig
  have hdirs : s'.sidesetPindirs = s.sidesetPindirs := congrArg SmConfig.sidesetPindirs hconfig
  unfold fetching
  rw [hf, hbits, hopt, hdirs]

end Sm

namespace World

/-- The instruction memory of a block, and which of it is loaded. -/
def image (w : World) (b : BlockAddr) : (Fin 32 → Insn) × (Fin 32 → Bool) :=
  ((w.blocks b).insn, (w.blocks b).insnUsed)

/-- State machine `(b, i)` runs the program that block `b` holds at `k`. -/
structure Resident (prog : PioProgram) (k : ℕ) (b : BlockAddr) (i : Fin 4) (w : World) : Prop where
  insn : ∀ a < prog.count, (w.image b).1 (Fin.ofNat 32 (a + k)) =
    PioProgram.relocate k (prog.insns (Fin.ofNat 32 a))
  used : ∀ a < prog.count, (w.image b).2 (Fin.ofNat 32 (a + k)) = true
  low : k ≤ (w.sm b i).pc
  high : (w.sm b i).pc < k + prog.count
  wrapBottom : (w.sm b i).wrapBottom = k + prog.wrapBottom
  wrapTop : (w.sm b i).wrapTop = k + prog.wrapTop
  pending : (w.sm b i).execPending = true → Straight (w.sm b i).execInsn
  sideset : (w.sm b i).sidesetTotalBits = prog.sidesetBits ∧
    (w.sm b i).sidesetOpt = prog.sidesetOpt ∧
    (w.sm b i).sidesetPindirs = prog.sidesetPindirs

variable {prog : PioProgram} {k : ℕ} {b c : BlockAddr} {i j : Fin 4} {w v : World}

omit [Platform] in
theorem Resident.congr (h : w.Resident prog k b i) (himage : v.image b = w.image b)
    (hsm : (v.sm b i).fetching = (w.sm b i).fetching) : v.Resident prog k b i := by
  simp only [Sm.fetching, Sm.fetchState, Prod.mk.injEq] at hsm
  obtain ⟨⟨hpc, hbottom, htop, hpend, hinsn⟩, hbits, hopt, hdirs⟩ := hsm
  refine ⟨himage ▸ h.insn, himage ▸ h.used, hpc ▸ h.low, hpc ▸ h.high, hbottom.trans h.wrapBottom,
    htop.trans h.wrapTop, fun hp => hinsn ▸ h.pending (hpend ▸ hp), hbits.trans h.sideset.1,
    hopt.trans h.sideset.2.1, hdirs.trans h.sideset.2.2⟩

omit [Platform] in
/-- A write of the record that keeps the wrap and the side-set, the PC in the window and a straight
pending word. -/
theorem Resident.setSm (h : w.Resident prog k b i) {s : Sm} (hlow : k ≤ s.pc)
    (hhigh : s.pc < k + prog.count)
    (hpend : s.execPending = true → Straight s.execInsn)
    (hkeep : (s.wrapBottom, s.wrapTop, s.sidesetTotalBits, s.sidesetOpt, s.sidesetPindirs) =
      ((w.sm b i).wrapBottom, (w.sm b i).wrapTop, (w.sm b i).sidesetTotalBits,
        (w.sm b i).sidesetOpt, (w.sm b i).sidesetPindirs)) :
        (w.setSm b i s).Resident prog k b i := by
  have himage : (w.setSm b i s).image b = w.image b := by simp [image, World.setSm, World.setBlock]
  simp only [Prod.mk.injEq] at hkeep
  obtain ⟨hbottom, htop, hbits, hopt, hdirs⟩ := hkeep
  refine ⟨himage ▸ h.insn, himage ▸ h.used, ?_, ?_, ?_, ?_, ?_, ?_⟩ <;> rw [sm_setSm_self]
  · exact hlow
  · exact hhigh
  · exact hbottom.trans h.wrapBottom
  · exact htop.trans h.wrapTop
  · exact hpend
  · exact ⟨hbits.trans h.sideset.1, hopt.trans h.sideset.2.1, hdirs.trans h.sideset.2.2⟩

/-! ### The image -/

section
omit [Platform]

theorem image_setBlock {q : Pio} (hi : q.insn = (w.blocks c).insn)
    (hu : q.insnUsed = (w.blocks c).insnUsed) :
    (w.setBlock c q).image = w.image := by
  funext d
  by_cases hd : d = c
  · subst hd
    simp [image, setBlock, hi, hu]
  · simp [image, setBlock, Function.update_of_ne hd]

theorem image_setBlock_of_ne (h : b ≠ c) (q : Pio) : (w.setBlock c q).image b = w.image b := by
  simp [image, setBlock, Function.update_of_ne h]

@[simp] theorem image_setSm (s : Sm) : (w.setSm c j s).image = w.image := image_setBlock rfl rfl

@[simp] theorem image_modifySm (f : Sm → Sm) : (w.modifySm c j f).image = w.image := image_setSm _

@[simp] theorem image_setPads (r : PadRef) (q : Pads) : (w.setPads r q).image = w.image := by
  cases r with
  | embedded d => exact image_setBlock rfl rfl
  | shared g => rfl

end

@[simp] theorem image_resolvePads : (w.resolvePads c).image = w.image := image_setPads _ _

omit [Platform] in
@[simp] theorem image_countFetch : (w.countFetch c j).image = w.image := by
  unfold countFetch
  split
  · rfl
  · exact image_setBlock rfl rfl

omit [Platform] in
@[simp] theorem image_setIrq (v : BitVec 8) : (w.setIrq c v).image = w.image :=
  image_setBlock (by rfl) (by rfl)

/-- No execution writes the instruction memory. -/
theorem closed_image (m) : Closed (fun v : World => v.image = m) c j where
  record _ s _ _ h := (image_setSm s).trans h
  irq _ _ _ h := (image_setIrq _).trans h
  fetch _ h := (image_countFetch).trans h
  pins _ _ h := ((image_resolvePads).trans (image_modifySm _)).trans h

theorem image_execOne (insn : Insn) : (w.execOne c j insn).world.image = w.image :=
  execOne_closed (closed_image _) insn rfl

theorem image_smExec (insn : Insn) : (w.smExec c j insn).image = w.image :=
  smExec_closed (closed_image _) insn rfl

theorem image_smTick : (w.smTick c j).image = w.image :=
  smTick_closed (closed_image _) (fun _ h => (image_modifySm _).trans h) rfl

theorem image_tickEnd : (w.tickEnd c).image = w.image := by
  have hclock : (if w.padRef c = .embedded c then w.modifyPads c Pads.clockSync else w).image =
      w.image := by
    split
    · exact image_setPads _ _
    · rfl
  unfold tickEnd
  exact (image_setBlock (by rfl) (by rfl)).trans hclock

/-! ### One presentation -/

section
omit [Platform]

theorem opcode_relocate (k : ℕ) {x : Insn} (hx : x.toNat % 32 + k < 32 ∨ opcode x ≠ 0) :
    opcode (PioProgram.relocate k x) = opcode x := by
  by_cases hop : opcode x = 0
  · have hroom : x.toNat % 32 + k < 32 := hx.resolve_right fun hne => hne hop
    have hto := PioProgram.toNat_relocate hop hroom
    unfold opcode at hop ⊢
    omega
  · rw [PioProgram.relocate_of_ne hop]

/-- What the state machine presents: an injected straight word, or a word of its program. -/
theorem Resident.getInstruction (h : w.Resident prog k b i) :
    ((w.sm b i).execPending = true ∧ w.getInstruction b i = (w.sm b i).execInsn) ∨
    ((w.sm b i).execPending = false ∧ ∃ a < prog.count, (w.sm b i).pc = k + a ∧
      w.getInstruction b i = PioProgram.relocate k (prog.insns (Fin.ofNat 32 a))) := by
  obtain ⟨a, ha⟩ := Nat.exists_eq_add_of_le h.low
  have hcount : a < prog.count := by
    have hhigh := h.high
    omega
  have hword := h.insn a hcount
  unfold World.getInstruction
  cases (w.sm b i).execPending with
  | true => exact .inl ⟨rfl, rfl⟩
  | false =>
    refine .inr ⟨rfl, a, hcount, ha, ?_⟩
    rw [ha, Nat.add_comm k a]
    exact hword

theorem Resident.countFetch (h : w.Resident prog k b i) : w.countFetch b i = w := by
  obtain ⟨a, ha⟩ := Nat.exists_eq_add_of_le h.low
  have hused : (w.blocks b).insnUsed (Fin.ofNat 32 (w.sm b i).pc) = true := by
    have hhigh := h.high
    rw [ha, Nat.add_comm k a]
    exact h.used a (by omega)
  unfold World.countFetch
  rw [hused, Bool.or_true]
  rfl

end

/-- One execution: the fetch is left alone, and the PC can only leave to inside the window. -/
theorem Resident.execOne (hr : prog.Relocatable) (hk : k + prog.count ≤ 32)
    (h : w.Resident prog k b i) :
    let r := w.execOne b i (w.getInstruction b i)
    (r.world.sm b i).fetchState = (w.sm b i).fetchState ∧
      (∀ t, r.setPc = some t → k ≤ t ∧ t < k + prog.count) ∧
      ((w.sm b i).execPending = true ∧ r.setPc = none ∨ (w.sm b i).execPending = false ∧
        (r.setPc.isSome = true ∨ (w.sm b i).pc = (w.sm b i).wrapTop ∨
          (w.sm b i).pc + 1 < k + prog.count)) := by
  intro r
  have hlast : ∀ a, (w.sm b i).pc = k + a → ∀ x : Insn, x = prog.insns (Fin.ofNat 32 a) →
      (opcode x = 0 → operandOf x / 32 % 8 ≠ 0) →
      (w.sm b i).pc = (w.sm b i).wrapTop ∨ (w.sm b i).pc + 1 < k + prog.count := by
    intro a ha x hx hstays
    have hhigh := h.high
    rw [h.wrapTop]
    rcases hr.last with htop | ⟨hop, halways⟩
    · omega
    · by_cases hend : a = prog.count - 1
      · rw [← hend, ← hx] at hop halways
        exact absurd halways (hstays hop)
      · omega
  rcases h.getInstruction with ⟨hp, hx⟩ | ⟨hp, a, hcount, ha, hx⟩
  · obtain ⟨hset, hfetch⟩ := execOne_straight (w := w) (b := b) (i := i) (h.pending hp)
    simp only [r, hx]
    exact ⟨hfetch, fun t ht => (nomatch hset.symm.trans ht), .inl ⟨hp, hset⟩⟩
  · by_cases hop : opcode (prog.insns (Fin.ofNat 32 a)) = 0
    · have htarget := hr.jump a hcount hop
      have hto := PioProgram.toNat_relocate hop (by omega : _ + k < 32)
      have hop' : opcode (PioProgram.relocate k (prog.insns (Fin.ofNat 32 a))) = 0 := by
        rw [opcode_relocate k (.inl (by omega)), hop]
      obtain ⟨taken, hset, hfetch, hcond⟩ := execOne_jmp (w := w) (b := b) (i := i) hop'
      simp only [r, hx]
      refine ⟨hfetch, fun t ht => ?_, .inr ⟨hp, ?_⟩⟩
      · rw [hset] at ht
        split at ht
        · have hinto := Option.some.inj ht
          omega
        · cases ht
      · cases taken with
        | true => exact .inl (by rw [hset]; rfl)
        | false =>
          -- an untaken jump in the last word has the wrap there
          refine .inr (hlast a ha _ rfl fun _ halways => ?_)
          have hsame : operandOf (PioProgram.relocate k (prog.insns (Fin.ofNat 32 a))) / 32 % 8 =
              operandOf (prog.insns (Fin.ofNat 32 a)) / 32 % 8 := by
            unfold operandOf
            omega
          cases hcond (hsame.trans halways)
    · have hs := hr.straight a hcount hop
      rw [PioProgram.relocate_of_ne hop] at hx
      obtain ⟨hset, hfetch⟩ := execOne_straight (w := w) (b := b) (i := i) hs
      simp only [r, hx]
      exact ⟨hfetch, fun t ht => (nomatch hset.symm.trans ht),
        .inr ⟨hp, .inr (hlast a ha _ rfl fun he => absurd he hop)⟩⟩

theorem Resident.present (hr : prog.Relocatable) (hk : k + prog.count ≤ 32)
    (h : w.Resident prog k b i) :
    (w.present b i).Resident prog k b i := by
  obtain ⟨hfetch, hset, hleave⟩ := h.execOne hr hk
  have hcontrol := execOne_control w b i (w.getInstruction b i)
  have hafter : (w.execOne b i (w.getInstruction b i)).world.Resident prog k b i :=
    h.congr (by rw [image_execOne]) (Sm.fetching_of_control hcontrol hfetch)
  have hbottom := hr.bottom
  simp only [Sm.fetchState, Prod.mk.injEq] at hfetch
  obtain ⟨hpc, -, htop, hpend, -⟩ := hfetch
  unfold World.present
  simp only [h.countFetch]
  split
  · unfold modifySm
    rcases hleave with ⟨hp, hnone⟩ | ⟨hp, hgo⟩
    · rw [hp, hnone]
      exact hafter.setSm hafter.low hafter.high (fun he => absurd he Bool.false_ne_true) rfl
    · rw [hp]
      simp only [Sm.retire, Bool.false_eq_true, if_false]
      have hinside : k ≤ (w.execOne b i (w.getInstruction b i)).setPc.getD
            (if ((w.execOne b i (w.getInstruction b i)).world.sm b i).pc =
                ((w.execOne b i (w.getInstruction b i)).world.sm b i).wrapTop then
              ((w.execOne b i (w.getInstruction b i)).world.sm b i).wrapBottom
            else (((w.execOne b i (w.getInstruction b i)).world.sm b i).pc + 1) % 32) ∧
          (w.execOne b i (w.getInstruction b i)).setPc.getD
            (if ((w.execOne b i (w.getInstruction b i)).world.sm b i).pc =
                ((w.execOne b i (w.getInstruction b i)).world.sm b i).wrapTop then
              ((w.execOne b i (w.getInstruction b i)).world.sm b i).wrapBottom
            else (((w.execOne b i (w.getInstruction b i)).world.sm b i).pc + 1) % 32) <
                k + prog.count := by
        cases hs : (w.execOne b i (w.getInstruction b i)).setPc with
        | some t => exact hset t hs
        | none =>
          rw [hs] at hgo
          simp only [Option.isSome_none, Bool.false_eq_true, false_or] at hgo
          have hlow := h.low
          rw [Option.getD_none, hpc, htop, hafter.wrapBottom]
          split <;> omega
      refine hafter.setSm hinside.1 hinside.2 (fun he => ?_) rfl
      exact absurd (hpend.symm.trans he) (by rw [hp]; exact Bool.false_ne_true)
  · exact hafter.setSm hafter.low hafter.high hafter.pending rfl

/-! ### One tick -/

section
omit [Platform]

/-- A write of the record that leaves its fetch alone. -/
theorem Resident.modifySm (h : w.Resident prog k b i) {f : Sm → Sm}
    (hf : (c, j) = (b, i) → (f (w.sm b i)).fetching = (w.sm b i).fetching) :
    (w.modifySm c j f).Resident prog k b i := by
  refine h.congr (by rw [image_modifySm]) ?_
  by_cases he : (b, i) = (c, j)
  · obtain ⟨rfl, rfl⟩ := Prod.mk.inj he
    rw [sm_modifySm_self]
    exact hf rfl
  · rw [sm_modifySm_of_ne he]

theorem fetching_backgroundAutopull (s : Sm) : s.backgroundAutopull.fetching = s.fetching := by
  rcases s.backgroundAutopull_eq with h | ⟨v, tx, h⟩ <;> rw [h]
  rfl

theorem fetching_stickyReassert (s : Sm) : (stickyReassert s).fetching = s.fetching := by
  unfold stickyReassert
  split <;> rfl

end

theorem Resident.smCycle (hr : prog.Relocatable) (hk : k + prog.count ≤ 32)
    (h : w.Resident prog k b i) :
    (w.smCycle b i).Resident prog k b i := by
  have hpull : (w.modifySm b i Sm.backgroundAutopull).Resident prog k b i :=
    h.modifySm fun _ => fetching_backgroundAutopull _
  unfold World.smCycle
  simp only
  split
  · exact hpull.modifySm fun _ => rfl
  · exact hpull.present hr hk

/-- Whatever state machine has its share of a tick. -/
theorem Resident.smTick (hr : prog.Relocatable) (hk : k + prog.count ≤ 32)
    (h : w.Resident prog k b i)
    (c : BlockAddr) (j : Fin 4) : (w.smTick c j).Resident prog k b i := by
  by_cases he : (b, i) = (c, j)
  · obtain ⟨rfl, rfl⟩ := Prod.mk.inj he
    have haccum : ∀ accum, (w.setSm b i { w.sm b i with clkAccum := accum }).Resident prog k b i :=
      fun accum => h.modifySm (f := fun s => { s with clkAccum := accum }) fun _ => rfl
    unfold World.smTick
    simp only
    split_ifs
    · exact ((haccum _).smCycle hr hk).modifySm fun _ => fetching_stickyReassert _
    · exact haccum _
    · exact haccum _
  · exact h.congr (by rw [image_smTick]) (by rw [(smTick_local w c j).sm b i he])

omit [Platform] in
theorem Resident.openWindow (h : w.Resident prog k b i) (c : BlockAddr) :
    (w.openWindow c).Resident prog k b i :=
  openWindow_induction (fun _ _ hv => hv.modifySm fun _ => rfl) h

theorem Resident.tickSms (hr : prog.Relocatable) (hk : k + prog.count ≤ 32)
    (h : w.Resident prog k b i)
    (c : BlockAddr) : (w.tickSms c).Resident prog k b i := by
  refine tickSms_induction (fun v j hv => ?_) (fun v j hv => ?_) (fun v hv => ?_) h
  · exact hv.modifySm fun _ => rfl
  · exact hv.smTick hr hk c j
  · exact hv.congr (by rw [image_resolvePads]) (by rw [sm_resolvePads])

end World

/-! ### Calls -/

/-- The addresses of a load miss the window of `n` words at `k`. -/
def Misses (offset len k n : ℕ) : Prop := offset + len ≤ k ∨ k + n ≤ offset

instance decidableMisses (offset len k n : ℕ) : Decidable (Misses offset len k n) :=
  inferInstanceAs (Decidable (_ ∨ _))

/-- The calls that leave the program of state machine `(b, i)` at `k` to itself: its block is not
initialised, no word of it is overwritten, the host sets no address of its own and injects no word
that jumps or writes PC or EXEC. The other state machines of the block may do as they like. -/
def Call.Respects (prog : PioProgram) (k : ℕ) (b : BlockAddr) (i : Fin 4) : Call → Prop
  | .sm c j op => (c, smIdx j) = (b, i) → ¬ op.Addresses
  | .block c (.load offset insns) => c = b → Misses offset insns.length k prog.count
  | .init c => c ≠ b
  | .smInit c j _ _ => (c, smIdx j) ≠ (b, i)
  | .smExec c j insn => (c, smIdx j) = (b, i) → Straight insn
  | .loadProgram c j offset prog' => c = b → smIdx j ≠ i ∧ Misses offset prog'.count k prog.count
  | _ => True

def ApiCall.Respects (prog : PioProgram) (k : ℕ) (b : BlockAddr) (i : Fin 4) : ApiCall → Prop
  | .call c => c.Respects prog k b i
  | .applyProgramConfig _ _ _ => True

omit [Platform] in
/-- A load writes nothing outside its addresses. -/
theorem Pio.load_misses (p : Pio) {offset : ℕ} {l : List Insn} {x : Fin 32}
    (h : x < offset ∨ offset + l.length ≤ x) :
    (p.load offset l).insn x = p.insn x ∧ (p.load offset l).insnUsed x = p.insnUsed x := by
  refine List.foldlRecOn
    (motive := fun q : Pio => q.insn x = p.insn x ∧ q.insnUsed x = p.insnUsed x) _ _
    ⟨rfl, rfl⟩ ?_
  intro q hq e he
  have hlt : e.2 < l.length := by
    have hmem := List.snd_lt_of_mem_zipIdx he
    omega
  simp only
  split
  · rename_i hfit
    have hne : x ≠ ⟨offset + e.2, hfit⟩ := by
      rintro rfl
      simp only at h
      omega
    exact ⟨(Function.update_of_ne hne _ _).trans hq.1, (Function.update_of_ne hne _ _).trans hq.2⟩
  · exact hq

omit [Platform] in
theorem PioProgram.length_relocated {prog : PioProgram} {offset : ℕ} {words : List Insn}
    (h : prog.relocated offset = some words) : words.length = prog.count := by
  by_cases hc : prog.count ≤ 32
  · rw [relocated_eq_some hc] at h
    rw [← Option.some.inj h, length_image]
  · rw [relocated_eq_none (by omega)] at h
    cases h

namespace World

variable {prog : PioProgram} {k : ℕ} {b c : BlockAddr} {i j : Fin 4} {w v : World}

/-- A write of the instruction memory that misses the window. -/
theorem Resident.load (hk : k + prog.count ≤ 32) (h : w.Resident prog k b i) {offset : ℕ}
    {l : List Insn}
    (hm : c = b → Misses offset l.length k prog.count) :
    (w.setBlock c ((w.blocks c).load offset l)).Resident prog k b i := by
  have hsm : (w.setBlock c ((w.blocks c).load offset l)).sm = w.sm := sm_load w c offset l
  by_cases hcb : c = b
  · subst hcb
    have hslot : ∀ a < prog.count,
        ((w.blocks c).load offset l).insn (Fin.ofNat 32 (a + k)) =
          (w.blocks c).insn (Fin.ofNat 32 (a + k)) ∧
        ((w.blocks c).load offset l).insnUsed (Fin.ofNat 32 (a + k)) =
          (w.blocks c).insnUsed (Fin.ofNat 32 (a + k)) := by
      intro a ha
      have hval : (Fin.ofNat 32 (a + k)).val = a + k := Nat.mod_eq_of_lt (by omega)
      refine Pio.load_misses _ ?_
      have hmiss := hm rfl
      unfold Misses at hmiss
      omega
    refine ⟨fun a ha => ?_, fun a ha => ?_, hsm ▸ h.low, hsm ▸ h.high, hsm ▸ h.wrapBottom,
      hsm ▸ h.wrapTop, hsm ▸ h.pending, hsm ▸ h.sideset⟩
    · simp only [image, World.setBlock, Function.update_self]
      exact (hslot a ha).1.trans (h.insn a ha)
    · simp only [image, World.setBlock, Function.update_self]
      exact (hslot a ha).2.trans (h.used a ha)
  · exact h.congr (image_setBlock_of_ne (Ne.symm hcb) _) (by rw [hsm])

omit [Platform] in
theorem fetching_put (s : Sm) (word : Word) : (s.put word).1.fetching = s.fetching := by
  obtain ⟨f, t, he⟩ := s.put_eq word
  rw [he]
  rfl

omit [Platform] in
theorem fetching_get (s : Sm) : s.get.1.fetching = s.fetching := by
  obtain ⟨f, r, he⟩ := s.get_eq
  rw [he]
  rfl

/-- An operation of the host that sets no address: a restart goes to the bottom of the wrap. -/
theorem Resident.smOp (hr : prog.Relocatable) (h : w.Resident prog k b i) {op : SmOp}
    (ho : ¬ op.Addresses) : (w.modifySm b i fun s => op.apply s).Resident prog k b i := by
  cases op with
  | restart =>
    have hbottom := hr.bottom
    refine h.setSm (s := (w.sm b i).resetExec) ?_ ?_ (fun hp => absurd hp Bool.false_ne_true) rfl
    · change k ≤ (w.sm b i).wrapBottom
      rw [h.wrapBottom]
      omega
    · change (w.sm b i).wrapBottom < _
      rw [h.wrapBottom]
      omega
  | setPc pc => exact absurd trivial ho
  | setConfig cfg => exact absurd trivial ho
  | put word => exact h.modifySm fun _ => fetching_put _ word
  | get => exact h.modifySm fun _ => fetching_get _
  | _ => exact h.modifySm fun _ => rfl

theorem Resident.smExec (h : w.Resident prog k b i) {insn : Insn}
    (hs : (c, j) = (b, i) → Straight insn) : (w.smExec c j insn).Resident prog k b i := by
  by_cases he : (b, i) = (c, j)
  · have hstraight := hs he.symm
    obtain ⟨rfl, rfl⟩ := Prod.mk.inj he
    have hopen : (w.modifySm b i fun s => { s with stalled := false }).Resident prog k b i :=
      h.modifySm fun _ => rfl
    obtain ⟨hset, hfetch⟩ := execOne_straight (b := b) (i := i)
      (w := w.modifySm b i fun s => { s with stalled := false }) hstraight
    have hone : ((w.modifySm b i fun s => { s with stalled := false }).execOne b i
        insn).world.Resident prog k b i :=
      hopen.congr (by rw [image_execOne])
        (Sm.fetching_of_control (execOne_control _ b i insn) hfetch)
    unfold World.smExec
    simp only [hset, Option.getD_none]
    split
    · exact hone.modifySm fun _ => rfl
    · exact hone.setSm hone.low hone.high (fun _ => hstraight) rfl
  · exact h.congr (by rw [image_smExec]) (by rw [(smExec_local w c j insn).sm b i he])

omit [Platform] in
theorem image_foldl_modifySm (c : BlockAddr) (p : Fin 4 → Bool) (f : Sm → Sm) (l : List (Fin 4)) :
    (l.foldl (fun w i => if p i then w.modifySm c i f else w) w).image = w.image := by
  refine List.foldlRecOn (motive := fun v : World => v.image = w.image) _ _ rfl ?_
  intro v hv j _
  split
  · exact (image_modifySm f).trans hv
  · exact hv

/-- Only loading a program or initialising the block writes its image. -/
theorem image_step {e : Call} (hd : ¬ e.Loads b) : (w.step e).image b = w.image b := by
  have hledger : ∀ u v : World, u.ledger b = v.ledger b → u.image b = v.image b := by
    intro u v he
    have hinsn : (u.blocks b).insn = (v.blocks b).insn := congrArg Prod.fst he
    have hused : (u.blocks b).insnUsed = (v.blocks b).insnUsed := congrArg (·.2.1) he
    unfold image
    rw [hinsn, hused]
  cases e with
  | sm c j op => rw [World.step, image_modifySm]
  | block c op =>
    by_cases hcb : b = c
    · subst hcb
      refine congrFun (image_setBlock ?_ ?_) b
      all_goals
        cases op with
        | load offset insns => exact absurd rfl hd
        | _ => rfl
    · exact image_setBlock_of_ne hcb _
  | pad c op => exact congrFun (image_setPads _ _) b
  | init c => exact image_setBlock_of_ne (fun he => hd he.symm) _
  | setEnabled c j enabled => exact congrFun ((image_resolvePads).trans (image_modifySm _)) b
  | setSmMaskEnabled c mask enabled =>
    exact congrFun ((image_resolvePads).trans (image_foldl_modifySm c _ _ _)) b
  | clkdivRestartSmMask c mask => exact congrFun (image_foldl_modifySm c _ _ _) b
  | enableSmMaskInSync c mask =>
    refine congrFun (Eq.trans (image_foldl_modifySm c _ _ _) ?_) b
    exact (image_resolvePads).trans (image_foldl_modifySm c _ _ _)
  | setConsecutivePindirs c j base count isOut =>
    exact congrFun ((image_resolvePads).trans (image_modifySm _)) b
  | smInit c j pc cfg => rw [World.step, World.smInit, image_modifySm]
  | smExec c j insn => rw [World.step, image_smExec]
  | gpioSetFunction c pin f => exact congrFun (image_setPads _ _) b
  | groupInit g blocks => exact hledger _ _ (congrFun (ledger_groupInit g blocks) b)
  | groupInitShared g blocks => exact hledger _ _ (congrFun (ledger_groupInitShared g blocks) b)
  | loadProgram c j offset prog' =>
    rcases w.loadProgram_cases c (smIdx j) offset prog' with he | ⟨words, -, he⟩
    · rw [World.step, he]
    · rw [World.step, he, image_modifySm, image_setBlock_of_ne fun hcb => hd hcb.symm]
  | tickSms c =>
    exact congrFun (tickSms_induction (P := fun v : World => v.image = w.image)
      (fun _ _ h => (image_modifySm _).trans h) (fun _ _ h => (image_smTick).trans h)
      (fun _ h => (image_resolvePads).trans h) rfl) b
  | tickEnd c => rw [World.step, image_tickEnd]
  | groupOpen g =>
    refine congrFun (List.foldlRecOn (motive := fun v : World => v.image = w.image) _ _ rfl ?_) b
    exact fun v hv c _ => openWindow_induction (P := fun v : World => v.image = w.image)
      (fun _ _ h => (image_modifySm _).trans h) hv
  | groupEnd g =>
    simp only [World.step, World.groupEnd]
    split
    · exact congrFun (image_setPads _ _) b
    · rfl

/-- Every call that respects the program keeps its state machine in it. -/
theorem Resident.step (hr : prog.Relocatable) (hk : k + prog.count ≤ 32) (h : w.Resident prog k b i)
    {e : Call} (he : e.Respects prog k b i) : (w.step e).Resident prog k b i := by
  have hother : ¬ e.Drives b i → ¬ e.Loads b → (w.step e).Resident prog k b i := fun hd hl =>
    h.congr (image_step hl) (keeps_step Sm.steady_fetching hd)
  cases e with
  | sm c j op =>
    by_cases hself : (c, smIdx j) = (b, i)
    · have hop := he hself
      obtain ⟨rfl, rfl⟩ := Prod.mk.inj hself
      exact h.smOp hr hop
    · exact hother hself id
  | block c op =>
    by_cases hload : (Call.block c op).Loads b
    · cases op with
      | load offset insns => exact h.load hk he
      | _ => exact absurd hload id
    · exact hother id hload
  | init c => exact hother he he
  | smInit c j pc cfg => exact hother he id
  | smExec c j insn => exact h.smExec he
  | loadProgram c j offset prog' =>
    rcases w.loadProgram_cases c (smIdx j) offset prog' with hnone | ⟨words, hwords, hload⟩
    · rw [World.step, hnone]
      exact h
    · rw [World.step, hload]
      refine Resident.modifySm (h.load hk fun hcb => ?_) fun hself => ?_
      · rw [PioProgram.length_relocated hwords]
        exact (he hcb).2
      · exact absurd (congrArg Prod.snd hself) (he (congrArg Prod.fst hself)).1
  | tickSms c => exact h.tickSms hr hk c
  | _ => exact hother id id

end World

/-! ### Directives -/

/-- How the delay field is read and where side-set goes. -/
def SmConfig.sideset (c : SmConfig) : ℕ × Bool × Bool :=
  (c.sidesetTotalBits, c.sidesetOpt, c.sidesetPindirs)

omit [Platform] in
theorem SmConfig.sideset_overlay {α : Type} {c d : SmConfig} {f : SmConfig → α → SmConfig}
    (hf : ∀ c a, (f c a).sideset = c.sideset) (a : Option α) (h : c.sideset = d.sideset) :
    (c.overlay f a).sideset = d.sideset := by
  cases a with
  | none => exact h
  | some a => exact (hf c a).trans h

/-- The directives of a program say nothing about the side-set of the running one. -/
theorem Sm.sideset_programConfig (s : Sm) (d : ProgramConfig) :
    (s.programConfig d).sideset = s.config.sideset := by
  unfold programConfig
  refine SmConfig.sideset_overlay ?_ _ (SmConfig.sideset_overlay ?_ _ (SmConfig.sideset_overlay ?_ _
    (SmConfig.sideset_overlay ?_ _
      (SmConfig.sideset_overlay ?_ _ (SmConfig.sideset_overlay ?_ _ rfl)))))
  · exact fun _ _ => rfl
  · exact fun _ _ => rfl
  · intro c e
    dsimp only
    split <;> rfl
  · exact fun _ _ => rfl
  · exact fun _ _ => rfl
  · exact fun _ _ => rfl

theorem Sm.fetching_programConfig (s : Sm) (d : ProgramConfig) :
    (s.setConfig (s.programConfig d)).fetching = s.fetching := by
  have hsideset := s.sideset_programConfig d
  simp only [SmConfig.sideset, Prod.mk.injEq] at hsideset
  obtain ⟨hbits, hopt, hdirs⟩ := hsideset
  unfold fetching
  rw [s.fetchState_setConfig (s.wrap_programConfig d)]
  unfold Sm.setConfig Sm.applyFifoJoin
  simp only
  split <;> exact Prod.ext rfl (Prod.ext hbits (Prod.ext hopt hdirs))

namespace World

variable {prog : PioProgram} {k : ℕ} {b : BlockAddr} {i : Fin 4} {w : World}

theorem Resident.apiStep (hr : prog.Relocatable) (hk : k + prog.count ≤ 32)
    (h : w.Resident prog k b i)
    {e : ApiCall} (he : e.Respects prog k b i) : (w.apiStep e).Resident prog k b i := by
  cases e with
  | call c => exact h.step hr hk he
  | applyProgramConfig c j d =>
    refine h.modifySm (f := fun s => s.setConfig ((w.sm c (smIdx j)).programConfig d))
      fun hself => ?_
    obtain ⟨rfl, rfl⟩ := Prod.mk.inj hself
    exact Sm.fetching_programConfig _ d

theorem Resident.run (hr : prog.Relocatable) (hk : k + prog.count ≤ 32) {es : List ApiCall}
    (hes : ∀ e ∈ es, e.Respects prog k b i) (h : w.Resident prog k b i) :
    (es.foldl World.apiStep w).Resident prog k b i :=
  List.foldlRecOn (motive := fun v : World => v.Resident prog k b i) _ _ h
    fun _ hv _ he => hv.apiStep hr hk (hes _ he)

omit [Platform] in
/-- The program just loaded. -/
theorem resident_loadProgram (w : World) (hok : prog.ok = true) (hr : prog.Relocatable)
    (hk : k + prog.count ≤ 32) (hpend : (w.sm b i).execPending = false) :
    (w.loadProgram b i k prog).Resident prog k b i := by
  obtain ⟨m, u, hload, hmem⟩ := w.loadProgram_fits b i hok hr hk
  have hbottom := hr.bottom
  have htop := hr.top
  have himage : (w.loadProgram b i k prog).image b = (m, u) := by
    rw [hload, image_setSm]
    simp [World.image, World.setBlock]
  have hself : (w.loadProgram b i k prog).sm b i = (w.sm b i).startProgram k prog := by
    rw [hload, sm_setSm_self]
  refine ⟨fun a ha => ?_, fun a ha => ?_, ?_, ?_, ?_, ?_, fun hp => ?_, ?_⟩ <;>
    simp only [himage, hself, Sm.startProgram] at *
  · exact (hmem a ha).1
  · exact (hmem a ha).2
  · exact Nat.le_refl k
  · omega
  · unfold u8
    omega
  · unfold u8
    omega
  · exact absurd hp (by rw [hpend]; exact Bool.false_ne_true)
  · exact ⟨trivial, trivial, trivial⟩

/-- A loaded program keeps to its window whatever else runs: its state machine presents only words
of the program or injected straight ones, no fetch of it misses what was loaded, and the program
stays as it was loaded. -/
theorem programs_keep_to_their_windows (w : World) (hok : prog.ok = true) (hr : prog.Relocatable)
    (hk : k + prog.count ≤ 32) (hpend : (w.sm b i).execPending = false) {es : List ApiCall}
    (hes : ∀ e ∈ es, e.Respects prog k b i) :
    let v := es.foldl World.apiStep (w.loadProgram b i k prog)
    (k ≤ (v.sm b i).pc ∧ (v.sm b i).pc < k + prog.count) ∧
      ((v.sm b i).execPending = true → Straight (v.getInstruction b i)) ∧
      ((v.sm b i).execPending = false → v.getInstruction b i =
        PioProgram.relocate k (prog.insns (Fin.ofNat 32 ((v.sm b i).pc - k)))) ∧
      v.countFetch b i = v ∧
      ∀ a < prog.count, (v.blocks b).insn (Fin.ofNat 32 (k + a)) =
        PioProgram.relocate k (prog.insns (Fin.ofNat 32 a)) := by
  intro v
  have h : v.Resident prog k b i := (w.resident_loadProgram hok hr hk hpend).run hr hk hes
  refine ⟨⟨h.low, h.high⟩, fun hp => ?_, fun hp => ?_, h.countFetch, fun a ha => ?_⟩
  · rcases h.getInstruction with ⟨-, hx⟩ | ⟨hp', -⟩
    · exact hx ▸ h.pending hp
    · cases hp.symm.trans hp'
  · rcases h.getInstruction with ⟨hp', -⟩ | ⟨-, a, -, ha, hx⟩
    · cases hp.symm.trans hp'
    · rw [hx, ha, Nat.add_sub_cancel_left]
  · rw [Nat.add_comm k a]
    exact h.insn a ha

end World
end PioSim

namespace PioSim

local instance : Platform := ⟨.rp2350⟩

/-- A counting loop at 5 beside a state machine that is sent into its words and writes its own
PC. -/
theorem programs_keep_to_their_windows_two :
    let prog : PioProgram :=
      { insns := fun a => if a = 0 then 0xE023 else if a = 1 then 0x0041 else 0x0000
        count := 3, sidesetBits := 0, sidesetOpt := false, sidesetPindirs := false
        wrapBottom := 0, wrapTop := 2, ok := true }
    let es : List ApiCall := [.call (.block 0 (.load 8 [0xA0A1])), .call (.sm 0 1 (.setPc 8)),
      .call (.setSmMaskEnabled 0 3 true), .call (.tickSms 0), .call (.tickEnd 0),
        .call (.sm 0 1 (.setPc 6)),
      .call (.tickSms 0)]
    let v := es.foldl World.apiStep (World.initial.loadProgram 0 0 5 prog)
    5 ≤ (v.sm 0 0).pc ∧ (v.sm 0 0).pc < 5 + 3 := by
  intro prog es v
  have hr : prog.Relocatable := ⟨by decide, by decide, by decide, by decide, .inl rfl⟩
  have hes : ∀ e ∈ es, e.Respects prog 5 0 0 := by
    simp only [es, List.forall_mem_cons]
    refine ⟨fun _ => .inr (by decide), fun h => absurd h (by decide), trivial, trivial, trivial,
      fun h => absurd h (by decide), trivial, fun _ h => nomatch h⟩
  exact (World.programs_keep_to_their_windows World.initial (b := 0) (i := 0) rfl hr
    (by decide) rfl hes).1

end PioSim
