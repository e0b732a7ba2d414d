import PioSim.Congruence

/-!
# Which pins an instruction writes

An instruction writes the pin registers of its state machine at most twice: by its own operation,
and by its side-set. `Sm.pinWrite` and `Sm.sideWrite` read off the record and the word which span of
pins these two writes cover and what they do to it; the values do not matter here. Every statement
about who drives a pin before the instruction has run is made of them.
-/

namespace PioSim

variable [Platform]

/-- The loop over a span of pins passes this one. -/
def spans (phys : ℕ → ℕ) (base count pin : ℕ) : Bool :=
  (List.range count).any fun k => phys (u8 (base + k)) == pin

omit [Platform] in
theorem spans_of_mem {phys : ℕ → ℕ} {base count k : ℕ} (h : k ∈ List.range count) :
    spans phys base count (phys (u8 (base + k))) = true :=
  List.any_eq_true.mpr ⟨k, h, beq_self_eq_true _⟩

omit [Platform] in
/-- A pin of a released span is given up by the time the loop passes it, and no later step claims
it. -/
theorem PinRegs.oe_foldl_releasePin {f : ℕ → ℕ} {l : List ℕ} {r : PinRegs} {pin : ℕ}
    (h : (l.foldl (fun q k => q.releasePin (f k)) r).outPinOe.getLsbD pin = true) :
    r.outPinOe.getLsbD pin = true ∧ ∀ k ∈ l, (f k == pin) = false := by
  induction l generalizing r with
  | nil => exact ⟨h, fun k hk => (List.not_mem_nil hk).elim⟩
  | cons k l ih =>
    obtain ⟨hfirst, hrest⟩ := ih h
    simp only [PinRegs.releasePin, BitVec.getLsbD_and, BitVec.getLsbD_not, getLsbD_pinBit,
      Bool.and_eq_true, Bool.not_eq_true', Bool.and_eq_false_iff, decide_eq_true_eq,
      decide_eq_false_iff_not] at hfirst
    obtain ⟨hold, hlt, hne⟩ := hfirst
    refine ⟨hold, fun j hj => ?_⟩
    rcases List.mem_cons.mp hj with rfl | hj
    · exact beq_eq_false_iff_ne.mpr fun he => hne.elim (fun h => h hlt) fun h => h he.symm
    · exact hrest j hj

/-- What an instruction does to a span of its state machine's pins. -/
inductive PinWrite
  | levels (base count : ℕ)
  | dirs (base count : ℕ)
  | release (base count : ℕ)
  deriving DecidableEq

namespace PinWrite

/-- The loops of `drive_pins`, `drive_pindirs` and `release_out_pins`. -/
def apply (phys : ℕ → ℕ) (value : Word) (r : PinRegs) : PinWrite → PinRegs
  | .levels base count => r.drivePins phys base count value
  | .dirs base count => r.drivePindirs phys base count value
  | .release base count => r.releaseOutPins phys base count

def drives (phys : ℕ → ℕ) (pin : ℕ) : PinWrite → Bool
  | .levels base count => spans phys base (clampPinCount count) pin
  | _ => false

def directs (phys : ℕ → ℕ) (pin : ℕ) : PinWrite → Bool
  | .dirs base count => spans phys base (clampPinCount count) pin
  | _ => false

def releases (phys : ℕ → ℕ) (pin : ℕ) : PinWrite → Bool
  | .release base count => spans phys base count pin
  | _ => false

variable {phys : ℕ → ℕ} {value : Word} {r : PinRegs} {t : PinWrite} {pin : ℕ}

section
omit [Platform]

theorem wrote_apply (h : (t.apply phys value r).wroteThisCycle.getLsbD pin = true) :
    r.wroteThisCycle.getLsbD pin = true ∨ t.drives phys pin = true := by
  cases t with
  | levels base count =>
    refine List.foldlRecOn (motive := fun q : PinRegs => q.wroteThisCycle.getLsbD pin = true →
      r.wroteThisCycle.getLsbD pin = true ∨ (levels base count).drives phys pin = true)
        _ _ .inl ?_ h
    intro q hq k hk hset
    simp only [PinRegs.drivePin, BitVec.getLsbD_or, getLsbD_pinBit, Bool.or_eq_true,
      Bool.and_eq_true, decide_eq_true_eq] at hset
    rcases hset with hset | ⟨-, rfl⟩
    · exact hq hset
    · exact .inr (spans_of_mem hk)
  | dirs base count =>
    refine .inl ?_
    refine List.foldlRecOn (motive := fun q : PinRegs => q.wroteThisCycle.getLsbD pin = true →
      r.wroteThisCycle.getLsbD pin = true) _ _ id ?_ h
    exact fun q hq k _ => hq
  | release base count =>
    refine .inl ?_
    refine List.foldlRecOn (motive := fun q : PinRegs => q.wroteThisCycle.getLsbD pin = true →
      r.wroteThisCycle.getLsbD pin = true) _ _ id ?_ h
    intro q hq k _ hset
    simp only [PinRegs.releasePin, BitVec.getLsbD_and, Bool.and_eq_true] at hset
    exact hq hset.1

theorem oe_apply (h : (t.apply phys value r).outPinOe.getLsbD pin = true) :
    (r.outPinOe.getLsbD pin = true ∧ t.releases phys pin = false) ∨ t.directs phys pin = true := by
  cases t with
  | levels base count =>
    refine .inl ⟨?_, rfl⟩
    refine List.foldlRecOn (motive := fun q : PinRegs => q.outPinOe.getLsbD pin = true →
      r.outPinOe.getLsbD pin = true) _ _ id ?_ h
    exact fun q hq k _ => hq
  | dirs base count =>
    refine List.foldlRecOn (motive := fun q : PinRegs => q.outPinOe.getLsbD pin = true →
      (r.outPinOe.getLsbD pin = true ∧ (dirs base count).releases phys pin = false) ∨
        (dirs base count).directs phys pin = true) _ _ (fun hset => .inl ⟨hset, rfl⟩) ?_ h
    intro q hq k hk hset
    simp only [PinRegs.drivePindir] at hset
    split at hset
    · simp only [BitVec.getLsbD_or, getLsbD_pinBit, Bool.or_eq_true, Bool.and_eq_true,
        decide_eq_true_eq] at hset
      rcases hset with hset | ⟨-, rfl⟩
      · exact hq hset
      · exact .inr (spans_of_mem hk)
    · simp only [BitVec.getLsbD_and, Bool.and_eq_true] at hset
      exact hq hset.1
  | release base count =>
    obtain ⟨hold, hspan⟩ := PinRegs.oe_foldl_releasePin (l := List.range count) h
    exact .inl ⟨hold, List.any_eq_false.mpr
      fun k hk => by rw [hspan k hk]; exact Bool.false_ne_true⟩

/-- A level changes only where it is written. -/
theorem val_apply (h : (t.apply phys value r).wroteThisCycle.getLsbD pin = false) :
    (t.apply phys value r).outPinVal.getLsbD pin = r.outPinVal.getLsbD pin := by
  cases t with
  | levels base count =>
    refine List.foldlRecOn (motive := fun q : PinRegs => q.wroteThisCycle.getLsbD pin = false →
      q.outPinVal.getLsbD pin = r.outPinVal.getLsbD pin) _ _ (fun _ => rfl) ?_ h
    intro q hq k _ hset
    simp only [PinRegs.drivePin, BitVec.getLsbD_or, Bool.or_eq_false_iff] at hset ⊢
    rw [← hq hset.1]
    split
    · rw [BitVec.getLsbD_or, hset.2, Bool.or_false]
    · rw [BitVec.getLsbD_and, BitVec.getLsbD_not, hset.2]
      by_cases hlt : pin < 64
      · simp [hlt]
      · simp [hlt, BitVec.getLsbD_of_ge q.outPinVal pin (by omega)]
  | dirs base count =>
    exact List.foldlRecOn (motive := fun q : PinRegs => q.outPinVal.getLsbD pin =
      r.outPinVal.getLsbD pin) _ _ rfl fun q hq k _ => hq
  | release base count =>
    exact List.foldlRecOn (motive := fun q : PinRegs => q.outPinVal.getLsbD pin =
      r.outPinVal.getLsbD pin) _ _ rfl fun q hq k _ => hq

/-- What was written stays written, but for a release of the pin. -/
theorem wrote_apply_of_wrote (h : r.wroteThisCycle.getLsbD pin = true)
    (ht : t.releases phys pin = false) :
    (t.apply phys value r).wroteThisCycle.getLsbD pin = true := by
  cases t with
  | levels base count =>
    refine List.foldlRecOn
      (motive := fun q : PinRegs => q.wroteThisCycle.getLsbD pin = true) _ _ h ?_
    intro q hq k _
    simp [PinRegs.drivePin, hq]
  | dirs base count =>
    exact List.foldlRecOn (motive := fun q : PinRegs => q.wroteThisCycle.getLsbD pin = true) _ _ h
      fun q hq k _ => hq
  | release base count =>
    refine List.foldlRecOn
      (motive := fun q : PinRegs => q.wroteThisCycle.getLsbD pin = true) _ _ h ?_
    intro q hq k hk
    have hne : (phys (u8 (base + k)) == pin) = false :=
      (Bool.not_eq_true _).mp (List.any_eq_false.mp ht k hk)
    have hlt : pin < 64 := by
      by_contra hge
      rw [BitVec.getLsbD_of_ge _ _ (by omega)] at hq
      cases hq
    simp only [PinRegs.releasePin, BitVec.getLsbD_and, BitVec.getLsbD_not, getLsbD_pinBit, hq, hlt,
      decide_true, Bool.true_and, Bool.not_eq_true', decide_eq_false_iff_not]
    exact fun he => beq_eq_false_iff_ne.mp hne he.symm

end

end PinWrite

namespace Sm

def outWrite (s : Sm) (val : Word) : ℕ → Option PinWrite
  | 0 =>
    if !s.outInlineEn || val.getLsbD s.outEnSel then some (.levels s.outBase s.outCount)
    else if s.outSticky then some (.release s.outBase s.outCount)
    else none
  | 4 => some (.dirs s.outBase s.outCount)
  | _ => none

/-- The write of the instruction's own operation, if it makes one. -/
def pinWrite (s : Sm) (insn : Insn) : Option PinWrite :=
  let dest := operandOf insn / 32 % 8
  match opcode insn with
  | 3 => if s.outStalls then none else s.outWrite (s.outValue (shiftCount (operandOf insn))) dest
  | 5 =>
    match dest with
    | 0 => some (.levels s.outBase s.outCount)
    | 3 => if hasMovPindirs then some (.dirs s.outBase s.outCount) else none
    | _ => none
  | 0 | 1 | 2 | 4 | 6 => none
  | _ =>
    match dest with
    | 0 => some (.levels s.setBase s.setCount)
    | 4 => some (.dirs s.setBase s.setCount)
    | _ => none

def sideWrite (s : Sm) (insn : Insn) : Option PinWrite :=
  let ds := s.decodeDelaySideset (delayField insn)
  if ds.sideEn && 0 < ds.ssDataBits then
    some (if s.sidesetPindirs then .dirs s.sidesetBase ds.ssDataBits
      else .levels s.sidesetBase ds.ssDataBits)
  else none

omit [Platform] in
theorem sideWrite_releases {s : Sm} {insn : Insn} {t : PinWrite} (h : s.sideWrite insn = some t)
    (phys : ℕ → ℕ) (pin : ℕ) : t.releases phys pin = false := by
  unfold sideWrite at h
  dsimp only at h
  split at h
  · rw [← Option.some.inj h]
    split <;> rfl
  · cases h

end Sm

namespace World

variable {v w : World} {b : BlockAddr} {i : Fin 4}

/-- A write of the pin registers with the resolve that follows it, if there is one. -/
def putPins (v : World) (b : BlockAddr) (i : Fin 4) (phys : ℕ → ℕ) (value : Word)
    (t : Option PinWrite) : World :=
  t.elim v fun t => v.setPins b i (t.apply phys value (v.sm b i).pins)

/-- `w'` is `w` after register steps and perhaps one write of the pin registers, the one given. -/
def WritesPins (b : BlockAddr) (i : Fin 4) (w : World) (t : Option PinWrite) (w' : World) : Prop :=
  ∃ v value, RegSteps b i w v ∧ w' = v.putPins b i (w.physPin b) value t

theorem WritesPins.refl (b : BlockAddr) (i : Fin 4) (w : World) : WritesPins b i w none w :=
  ⟨w, 0, .refl, rfl⟩

theorem WritesPins.of_effect {s : Sm} (h : (w.sm b i).Effect s) :
    WritesPins b i w none (w.setSm b i s) :=
  ⟨_, 0, .single (.sm w s h), rfl⟩

theorem WritesPins.of_effects {s : Sm} (h : (w.sm b i).Effects s) :
    WritesPins b i w none (w.setSm b i s) := ⟨_, 0, regSteps_of_effects h, rfl⟩

theorem WritesPins.of_irq (c : BlockAddr) (x : BitVec 8) : WritesPins b i w none (w.setIrq c x) :=
  ⟨_, 0, .single (.irq w c x), rfl⟩

theorem WritesPins.of_write (value : Word) (t : PinWrite) :
    WritesPins b i w (some t) (w.setPins b i (t.apply (w.physPin b) value (w.sm b i).pins)) :=
  ⟨w, value, .refl, rfl⟩

theorem WritesPins.after {s : Sm} {t : Option PinWrite} {w' : World} (h : (w.sm b i).Effect s)
    (ht : WritesPins b i (w.setSm b i s) t w') : WritesPins b i w t w' := by
  obtain ⟨v, value, hv, he⟩ := ht
  have hphys : (w.setSm b i s).physPin b = w.physPin b := physPin_of_shell (shell_setSm b i s) b
  exact ⟨v, value, .trans (.single (.sm w s h)) hv, by rw [he, hphys]⟩

theorem outStore_writes (w : World) (b : BlockAddr) (i : Fin 4) (dest : ℕ) (val : Word)
    (count : ℕ) :
    WritesPins b i w ((w.sm b i).outWrite val dest) (w.outStore b i dest val count).1 := by
  unfold outStore Sm.outWrite
  dsimp only
  match dest with
  | 0 =>
    split_ifs
    · exact .of_write val (.levels _ _)
    · exact .of_write val (.release _ _)
    · exact .refl b i w
  | 1 => exact .of_effect (.regs _ _ _ _ _ _ _)
  | 2 => exact .of_effect (.regs _ _ _ _ _ _ _)
  | 3 => exact .refl b i w
  | 4 => exact .of_write val (.dirs _ _)
  | 5 => exact .refl b i w
  | 6 => exact .of_effect (.regs _ _ _ _ _ _ _)
  | 7 => exact .of_effect (.inject _)
  | _ + 8 => exact .refl b i w

theorem execOut_writes (w : World) (b : BlockAddr) (i : Fin 4) (operand : ℕ) :
    WritesPins b i w (if (w.sm b i).outStalls then none
      else (w.sm b i).outWrite ((w.sm b i).outValue (shiftCount operand)) (operand / 32 % 8))
      (w.execOut b i operand).world := by
  unfold execOut
  dsimp only
  split
  · exact .of_effect (.regs _ _ _ _ _ _ _)
  · refine .after (Sm.outShift_effect _ (shiftCount operand)) ?_
    have hstore := outStore_writes (w.setSm b i ((w.sm b i).outShift (shiftCount operand))) b i
      (operand / 32 % 8) ((w.sm b i).outValue (shiftCount operand)) (shiftCount operand)
    rw [sm_setSm_self] at hstore
    exact hstore

theorem execMov_writes (w : World) (b : BlockAddr) (i : Fin 4) (operand : ℕ) :
    WritesPins b i w (match operand / 32 % 8 with
      | 0 => some (.levels (w.sm b i).outBase (w.sm b i).outCount)
      | 3 => if hasMovPindirs then some (.dirs (w.sm b i).outBase (w.sm b i).outCount) else none
      | _ => none) (w.execMov b i operand).world := by
  unfold execMov
  dsimp only
  generalize operand / 32 % 8 = dest
  match dest with
  | 0 => exact .of_write _ (.levels _ _)
  | 1 => exact .of_effect (.regs _ _ _ _ _ _ _)
  | 2 => exact .of_effect (.regs _ _ _ _ _ _ _)
  | 3 =>
    split_ifs
    · exact .of_write _ (.dirs _ _)
    · exact .refl b i w
  | 4 => exact .of_effect (.inject _)
  | 5 => exact .refl b i w
  | 6 => exact .of_effect (.regs _ _ _ _ _ _ _)
  | _ + 7 => exact .of_effect (.regs _ _ _ _ _ _ _)

theorem execSet_writes (w : World) (b : BlockAddr) (i : Fin 4) (operand : ℕ) :
    WritesPins b i w (match operand / 32 % 8 with
      | 0 => some (.levels (w.sm b i).setBase (w.sm b i).setCount)
      | 4 => some (.dirs (w.sm b i).setBase (w.sm b i).setCount)
      | _ => none) (w.execSet b i operand) := by
  unfold execSet
  dsimp only
  generalize operand / 32 % 8 = dest
  match dest with
  | 0 => exact .of_write _ (.levels _ _)
  | 1 => exact .of_effect (.regs _ _ _ _ _ _ _)
  | 2 => exact .of_effect (.regs _ _ _ _ _ _ _)
  | 3 => exact .refl b i w
  | 4 => exact .of_write _ (.dirs _ _)
  | _ + 5 => exact .refl b i w

theorem execWait_writes (w : World) (b : BlockAddr) (i : Fin 4) (operand : ℕ) :
    WritesPins b i w none (w.execWait b i operand).world := by
  have hrefl : WritesPins b i w none w := .refl b i w
  unfold execWait
  dsimp only
  split
  · exact hrefl
  split
  · exact hrefl
  split
  · split
    · exact hrefl
    · split_ifs
      · exact .of_irq _ _
      · exact hrefl
      · exact hrefl
  · split <;> exact hrefl

theorem execIrq_writes (w : World) (b : BlockAddr) (i : Fin 4) (operand : ℕ) :
    WritesPins b i w none (w.execIrq b i operand).world := by
  unfold execIrq
  dsimp only
  split
  · exact .refl b i w
  · split_ifs
    · exact .of_irq _ _
    · exact .refl b i w
    · exact .of_irq _ _
    · exact .of_irq _ _

/-- What an instruction word does before its side-set, its write of pins named. -/
theorem execInsn_writes (w : World) (b : BlockAddr) (i : Fin 4) (insn : Insn) :
    WritesPins b i w ((w.sm b i).pinWrite insn) (w.execInsn b i insn).world := by
  unfold execInsn Sm.pinWrite
  dsimp only
  generalize opcode insn = op
  match op with
  | 0 => exact .of_effect (Sm.execJmp_effect _ _ _)
  | 1 => exact execWait_writes w b i _
  | 2 => exact .of_effects (Sm.execIn_effects _ _ _)
  | 3 => exact execOut_writes w b i _
  | 4 =>
    by_cases h : (hasRxfifoMov && (operandOf insn).testBit 4) = true
    · rw [if_pos h]
      exact .of_effects (Sm.execMovRxfifo_effects _ _ (Bool.and_eq_true _ _ ▸ h).1)
    · rw [if_neg h]
      exact .of_effects (Sm.execPushpull_effects _ _)
  | 5 => exact execMov_writes w b i _
  | 6 => exact execIrq_writes w b i _
  | _ + 7 => exact execSet_writes w b i _

/-- The side-set writes its own value, which the record from before the operation decodes. -/
theorem applySideset_eq {u : World} (insn : Insn)
    (hcontrol : (u.sm b i).control = (w.sm b i).control) :
    u.applySideset b i ((w.sm b i).decodeDelaySideset (delayField insn)) =
      u.putPins b i (u.physPin b) ((w.sm b i).decodeDelaySideset (delayField insn)).sideVal
        ((w.sm b i).sideWrite insn) := by
  have hbase : (u.sm b i).sidesetBase = (w.sm b i).sidesetBase :=
    congrArg (fun c : SmConfig × _ => c.1.sidesetBase) hcontrol
  have hdirs : (u.sm b i).sidesetPindirs = (w.sm b i).sidesetPindirs :=
    congrArg (fun c : SmConfig × _ => c.1.sidesetPindirs) hcontrol
  unfold applySideset Sm.sideWrite
  dsimp only
  rw [hbase, hdirs]
  split
  · split <;> rfl
  · rfl

theorem applySideset_writes {u : World} (insn : Insn)
    (hcontrol : (u.sm b i).control = (w.sm b i).control) :
    ∃ value, u.applySideset b i ((w.sm b i).decodeDelaySideset (delayField insn)) =
      u.putPins b i (u.physPin b) value ((w.sm b i).sideWrite insn) :=
        ⟨_, applySideset_eq insn hcontrol⟩

/-- What an instruction does: register steps, the write of its operation, then that of its
side-set. -/
theorem execOne_writes (w : World) (b : BlockAddr) (i : Fin 4) (insn : Insn) :
    ∃ v value side, RegSteps b i w v ∧ (w.execOne b i insn).world =
      (v.putPins b i (w.physPin b) value ((w.sm b i).pinWrite insn)).putPins b i (w.physPin b) side
        ((w.sm b i).sideWrite insn) := by
  obtain ⟨v, value, hv, he⟩ := execInsn_writes w b i insn
  have hshape := execInsn_shape w b i insn
  obtain ⟨side, hside⟩ := applySideset_writes (u := (w.execInsn b i insn).world) insn hshape.control
  have hphys : (w.execInsn b i insn).world.physPin b = w.physPin b :=
    physPin_of_shell hshape.local.shell b
  refine ⟨v, value, side, hv, ?_⟩
  rw [← he, ← hphys, ← hside]
  rfl

end World
end PioSim
