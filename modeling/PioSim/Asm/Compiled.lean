import PioSim.Asm.Code
import PioSim.Residence

/-!
# Assembled programs run their source

A state machine over its source: in place of fetching a word and decoding it, it takes the line that
its PC stands at and does what the line says. A program that is assembled, loaded and run does the
same.
-/

namespace PioSim

variable [Platform]

/-! ### Running lines -/

/-- The operation of a program that lies `k` words up. -/
def Operation.moved (k : ℕ) : Operation ℕ → Operation ℕ
  | .jmp cond target => .jmp cond (target + k)
  | op => op

/-- How many pins side-set has values for. -/
def Sm.sideBits (s : Sm) : ℕ := s.sidesetTotal - s.sidesetOpt.toNat

namespace World

/-- Side-set as a line spells it. -/
def sideTo (w : World) (b : BlockAddr) (i : Fin 4) (bits : ℕ) : Option ℕ → World
  | none => w
  | some v =>
    if 0 < bits then
      if (w.sm b i).sidesetPindirs then
        w.drivePindirs b i (w.sm b i).sidesetBase bits (BitVec.ofNat 32 v)
      else w.drivePins b i (w.sm b i).sidesetBase bits (BitVec.ofNat 32 v)
    else w

/-- What a line does in a program at `k`; data is run as the word it is. -/
def runLine (w : World) (k : ℕ) (b : BlockAddr) (i : Fin 4) : Asm.CodeLine → Executed
  | .line n =>
    let r := w.runOperation b i (n.operation.moved k)
    { world := r.world.sideTo b i (w.sm b i).sideBits n.side
      committed := !r.stalled
      setPc := r.setPc
      delay := n.delay }
  | .data x => w.execOne b i (PioProgram.relocate k x)

variable (code : Asm.Code) (k : ℕ) (b : BlockAddr) (i : Fin 4)

/-- State machine `(b, i)` does the line that its PC stands at; an injected word goes first. -/
def presentLine (w : World) : World :=
  if (w.sm b i).execPending then w.present b i
  else
    match code.lines[(w.sm b i).pc - k]? with
    | none => w
    | some l =>
      let r := w.runLine k b i l
      if r.committed then r.world.modifySm b i fun s => { s with
        stalled := false
        pc := r.setPc.getD (if s.pc = k + code.wrapTop then k + code.wrapBottom else s.pc + 1)
        delay := r.delay }
      else r.world.modifySm b i fun s => { s with stalled := true }

def smCycleLine (w : World) : World :=
  let w := w.modifySm b i Sm.backgroundAutopull
  if 0 < (w.sm b i).delay then w.modifySm b i fun s => { s with delay := s.delay - 1 }
  else w.presentLine code k b i

def smTickLine (w : World) : World :=
  let sm := w.sm b i
  let accum := u32 (sm.clkAccum + 256)
  if divUnits sm ≤ accum then
    let w := w.setSm b i { sm with clkAccum := accum - divUnits sm }
    if sm.enabled then (w.smCycleLine code k b i).modifySm b i stickyReassert else w
  else w.setSm b i { sm with clkAccum := accum }

/-- The first half of a tick of block `c`: state machine `(b, i)` runs its source, the others their
words. -/
def tickSmsLine (w : World) (c : BlockAddr) : World :=
  ((List.finRange 4).foldl
    (fun w j => if (c, j) = (b, i) then w.smTickLine code k b i else w.smTick c j)
    (w.openWindow c)).resolvePads c

def stepLine (w : World) : Call → World
  | .tickSms c => w.tickSmsLine code k b i c
  | e => w.step e

def apiStepLine (w : World) (e : ApiCall) : World := w.stepLine code k b i (e.resolve w)

end World

/-! ### Code that keeps to itself -/

/-- The operation neither jumps out of `n` words nor writes PC or EXEC. -/
def Operation.stays (n : ℕ) : Operation ℕ → Bool
  | .jmp _ target => decide (target < n)
  | .out dest _ | .mov dest _ _ => decide (dest ≠ .pc ∧ dest ≠ .exec)
  | _ => true

/-- The operation goes elsewhere in any case. -/
def Operation.leaves : Operation ℕ → Bool
  | .jmp cond _ => decide (cond = .always)
  | _ => false

def Asm.CodeLine.operation : Asm.CodeLine → Operation ℕ
  | .line n => n.operation
  | .data x => decode x

/-- No line leads out of the code, and the last one does not run off its end. -/
structure Asm.Code.Closed (code : Asm.Code) : Prop where
  stays : ∀ l ∈ code.lines, l.operation.stays code.lines.length = true
  last : code.wrapTop + 1 = code.lines.length ∨ ∃ l, code.lines.getLast? = some l ∧
    l.operation.leaves = true

/-! ### Words that are relocated -/

theorem decode_of_jmp {x : Insn} (h : opcode x = 0) :
    decode x = .jmp (JmpCond.ofField (operandOf x / 32 % 8)) (x.toNat % 32) := by
  have htarget : operandOf x % 32 = x.toNat % 32 := by
    unfold operandOf
    omega
  unfold decode
  dsimp only
  rw [h, htarget]
  rfl

/-- Any other word decodes to an operation without a target. -/
theorem decode_of_ne {x : Insn} (h : opcode x ≠ 0) (cond : JmpCond) (target : ℕ) :
    decode x ≠ .jmp cond target := by
  have hlt : opcode x < 8 := by
    unfold opcode
    omega
  intro hjmp
  unfold decode at hjmp
  dsimp only at hjmp
  generalize opcode x = op at h hlt hjmp
  interval_cases op
  case «0» => exact absurd rfl h
  case «1» =>
    change (if _ then _ else _) = _ at hjmp
    split at hjmp <;> cases hjmp
  case «4» =>
    change (if _ then (if _ then _ else _) else if _ then _ else _) = _ at hjmp
    split_ifs at hjmp
  all_goals cases hjmp

theorem moved_of_ne {x : Insn} (h : opcode x ≠ 0) (k : ℕ) : (decode x).moved k = decode x := by
  have hne := decode_of_ne h
  generalize decode x = op at hne
  cases op with
  | jmp cond target => exact absurd rfl (hne cond target)
  | _ => rfl

/-- A jump of a relocated program decodes to the jump moved along. -/
theorem decode_relocate {k : ℕ} {x : Insn} (hroom : opcode x = 0 → x.toNat % 32 + k < 32) :
    decode (PioProgram.relocate k x) = (decode x).moved k ∧
      delayField (PioProgram.relocate k x) = delayField x := by
  by_cases hop : opcode x = 0
  · have hto := PioProgram.toNat_relocate hop (hroom hop)
    have hop' : opcode (PioProgram.relocate k x) = 0 := by
      rw [World.opcode_relocate k (.inl (hroom hop)), hop]
    have hcond : operandOf (PioProgram.relocate k x) / 32 % 8 = operandOf x / 32 % 8 := by
      unfold operandOf
      omega
    have htarget : (PioProgram.relocate k x).toNat % 32 = x.toNat % 32 + k := by
      have hroom := hroom hop
      omega
    constructor
    · rw [decode_of_jmp hop, decode_of_jmp hop', hcond, htarget]
      rfl
    · unfold delayField
      omega
  · rw [PioProgram.relocate_of_ne hop, moved_of_ne hop]
    exact ⟨rfl, rfl⟩

theorem jump_of_stays {x : Insn} {n : ℕ} (h : (decode x).stays n = true) (hop : opcode x = 0) :
    x.toNat % 32 < n := by
  rw [decode_of_jmp hop] at h
  exact of_decide_eq_true h

theorem straight_of_stays {x : Insn} {n : ℕ} (h : (decode x).stays n = true) (hop : opcode x ≠ 0) :
    Straight x := by
  have hlt : opcode x < 8 := by
    unfold opcode
    omega
  have hdest : operandOf x / 32 % 8 < 8 := Nat.mod_lt _ (by omega)
  have hout : opcode x = 3 →
      Place.ofOutDest (operandOf x / 32 % 8) ≠ .pc ∧
          Place.ofOutDest (operandOf x / 32 % 8) ≠ .exec := by
    intro hop
    unfold decode at h
    rw [hop] at h
    exact of_decide_eq_true h
  have hmov : opcode x = 5 →
      Place.ofMovDest (operandOf x / 32 % 8) ≠ .pc ∧
          Place.ofMovDest (operandOf x / 32 % 8) ≠ .exec := by
    intro hop
    unfold decode at h
    rw [hop] at h
    exact of_decide_eq_true h
  clear h
  unfold Straight writesPc writesExec
  generalize opcode x = op at hlt hout hmov hop ⊢
  generalize operandOf x / 32 % 8 = dest at hdest hout hmov ⊢
  interval_cases op
  case «0» => exact absurd rfl hop
  case «3» =>
    have hneither := hout rfl
    clear hout hmov
    revert hneither
    interval_cases dest <;> decide
  case «5» =>
    have hneither := hmov rfl
    clear hout hmov
    revert hneither
    interval_cases dest <;> decide
  all_goals exact ⟨hop, rfl, rfl⟩

theorem always_of_leaves {x : Insn} (h : (decode x).leaves = true) :
    opcode x = 0 ∧ operandOf x / 32 % 8 = 0 := by
  by_cases hop : opcode x = 0
  · have hcond : operandOf x / 32 % 8 < 8 := Nat.mod_lt _ (by omega)
    rw [decode_of_jmp hop] at h
    have halways : JmpCond.ofField (operandOf x / 32 % 8) = .always := of_decide_eq_true h
    refine ⟨hop, ?_⟩
    clear h
    generalize operandOf x / 32 % 8 = cond at hcond halways
    revert halways
    interval_cases cond <;> decide
  · have hne := decode_of_ne hop
    generalize decode x = op at hne h
    cases op with
    | jmp cond target => exact absurd rfl (hne cond target)
    | _ => cases h

/-! ### What an assembled program is for the loader -/

namespace Asm

/-- The part of an assembled program that loading uses. -/
def Program.toPio (p : Program) : PioProgram where
  insns := p.insns
  count := p.count
  sidesetBits := p.sidesetBits
  sidesetOpt := p.sidesetOpt
  sidesetPindirs := p.sidesetPindirs
  wrapBottom := p.wrapBottom
  wrapTop := p.wrapTop
  ok := p.ok

variable {code : Code} {p : Program}

theorem CodeLine.Agrees.operation_eq {l : CodeLine} {x : Insn} (h : l.Agrees p x) :
    decode x = l.operation := by
  cases l with
  | line n => exact h.1
  | data v => rw [show x = v from h]; rfl

/-- Code that keeps to itself makes a program that does. -/
theorem Code.Compiles.relocatable (h : code.Compiles p) (hc : code.Closed) (hp : p.InBounds) :
    p.toPio.Relocatable := by
  have hline : ∀ a < p.count, ∃ l, code.lines[a]? = some l ∧ l ∈ code.lines := by
    intro a ha
    have hlt : a < code.lines.length := by
      rw [h.count]
      exact ha
    exact ⟨_, List.getElem?_eq_getElem hlt, List.getElem_mem hlt⟩
  have hstays : ∀ a < p.count, (decode (p.insns (Fin.ofNat 32 a))).stays p.count = true := by
    intro a ha
    obtain ⟨l, hl, hmem⟩ := hline a ha
    rw [(h.agrees a l hl).operation_eq, ← h.count]
    exact hc.stays l hmem
  refine ⟨hp.wrapBottom, hp.wrapTop, fun a ha hop => jump_of_stays (hstays a ha) hop,
    fun a ha hop => straight_of_stays (hstays a ha) hop, ?_⟩
  rcases hc.last with htop | ⟨l, hl, hleaves⟩
  · refine .inl ?_
    change p.wrapTop + 1 = p.count
    rw [h.wrapTop, htop, h.count]
  · rw [List.getLast?_eq_getElem?, h.count] at hl
    rw [← (h.agrees _ l hl).operation_eq] at hleaves
    exact .inr (always_of_leaves hleaves)

end Asm

/-! ### One line -/

namespace World

variable {code : Asm.Code} {p : Asm.Program} {k : ℕ} {b c : BlockAddr} {i j : Fin 4} {w : World}

theorem applySideset_of_recovers {ds : DelaySideset} {delay bits : ℕ} {side : Option ℕ}
    (h : Asm.Recovers ds delay side) (hbits : ds.ssDataBits = bits) :
    w.applySideset b i ds = w.sideTo b i bits side := by
  unfold applySideset sideTo
  cases side with
  | none =>
    dsimp only
    rw [h.unset rfl, if_neg Bool.false_ne_true]
  | some v =>
    obtain ⟨hen, hval⟩ := h.set v rfl
    have hword : ds.sideVal = BitVec.ofNat 32 v := by
      rw [← hval, BitVec.ofNat_toNat, BitVec.setWidth_eq]
    simp only [hen, hbits, hword, Bool.true_and, decide_eq_true_eq]

omit [Platform] in
theorem ssDataBits_eq (s : Sm) (field : ℕ) :
    (s.decodeDelaySideset field).ssDataBits = s.sideBits := by
  unfold Sm.decodeDelaySideset Sm.sideBits
  dsimp only
  split
  · cases s.sidesetOpt <;> rfl
  · dsimp only
    omega

/-- A word does what the line it was made of says. -/
theorem execOne_eq_runLine {l : Asm.CodeLine} {x : Insn} (h : l.Agrees p x)
    (hs : Asm.Sidesets p (w.sm b i))
    (hroom : opcode x = 0 → x.toNat % 32 + k < 32) :
    w.execOne b i (PioProgram.relocate k x) = w.runLine k b i l := by
  cases l with
  | data v =>
    obtain rfl : x = v := h
    rfl
  | line n =>
    obtain ⟨hdecode, hrecovers⟩ := h
    obtain ⟨hmoved, hfield⟩ := decode_relocate hroom
    have hside := hrecovers _ hs
    unfold execOne runLine
    dsimp only
    rw [execInsn_eq, hmoved, hdecode, hfield,
      applySideset_of_recovers hside (ssDataBits_eq _ _), hside.delay]

/-- The program of an assembled source, resident at `k`. -/
structure Runs (code : Asm.Code) (p : Asm.Program) (k : ℕ) (b : BlockAddr) (i : Fin 4)
    (w : World) : Prop where
  compiles : code.Compiles p
  relocatable : p.toPio.Relocatable
  room : k + p.count ≤ 32
  resident : w.Resident p.toPio k b i

/-- One presentation does what the line says. -/
theorem Runs.present (h : w.Runs code p k b i) : w.present b i = w.presentLine code k b i := by
  obtain ⟨hfetch, -, hleave⟩ := h.resident.execOne h.relocatable h.room
  unfold presentLine
  rcases h.resident.getInstruction with ⟨hp, -⟩ | ⟨hp, a, ha, hpc, hx⟩
  · rw [if_pos hp]
  · have hlt : a < code.lines.length := by
      rw [h.compiles.count]
      exact ha
    have hl : code.lines[a]? = some code.lines[a] := List.getElem?_eq_getElem hlt
    have hroom : opcode (p.insns (Fin.ofNat 32 a)) = 0 →
        (p.insns (Fin.ofNat 32 a)).toNat % 32 + k < 32 := by
      intro hop
      have hjump : (p.insns (Fin.ofNat 32 a)).toNat % 32 < p.count := h.relocatable.jump a ha hop
      have hroom := h.room
      omega
    have hline : w.execOne b i (w.getInstruction b i) = w.runLine k b i code.lines[a] := by
      have hsides := h.resident.sideset
      rw [hx]
      exact execOne_eq_runLine (h.compiles.agrees a _ hl) ⟨hsides.1, hsides.2.1⟩ hroom
    rw [hline] at hfetch hleave
    rw [hp, if_neg Bool.false_ne_true, hpc, Nat.add_sub_cancel_left, hl]
    unfold World.present
    simp only [h.resident.countFetch, hline, hp]
    split
    · refine congrArg (World.setSm _ b i) ?_
      simp only [Sm.fetchState, Prod.mk.injEq] at hfetch
      obtain ⟨hpc', hbottom', htop', hpend', -⟩ := hfetch
      have hnext : ((w.runLine k b i code.lines[a]).setPc.getD
            (if ((w.runLine k b i code.lines[a]).world.sm b i).pc =
                ((w.runLine k b i code.lines[a]).world.sm b i).wrapTop then
              ((w.runLine k b i code.lines[a]).world.sm b i).wrapBottom
            else (((w.runLine k b i code.lines[a]).world.sm b i).pc + 1) % 32)) =
          (w.runLine k b i code.lines[a]).setPc.getD
            (if ((w.runLine k b i code.lines[a]).world.sm b i).pc = k + code.wrapTop then
              k + code.wrapBottom
            else ((w.runLine k b i code.lines[a]).world.sm b i).pc + 1) := by
        have htop : (w.sm b i).wrapTop = k + code.wrapTop := by
          rw [h.resident.wrapTop, ← h.compiles.wrapTop]
          rfl
        have hbottom : (w.sm b i).wrapBottom = k + code.wrapBottom := by
          rw [h.resident.wrapBottom, ← h.compiles.wrapBottom]
          rfl
        cases hset : (w.runLine k b i code.lines[a]).setPc with
        | some t => rfl
        | none =>
          rw [hset] at hleave
          rcases hleave with ⟨hpend, -⟩ | ⟨-, hgo⟩
          · cases hp.symm.trans hpend
          · simp only [Option.isSome_none, Bool.false_eq_true, false_or] at hgo
            have hroom : k + p.toPio.count ≤ 32 := h.room
            rw [Option.getD_none, Option.getD_none, hpc', htop', hbottom', ← htop, ← hbottom]
            split
            · rfl
            · exact Nat.mod_eq_of_lt (by omega)
      simp only [Sm.retire, Bool.false_eq_true, if_false, hnext, hpend', hp]
    · rfl

theorem Runs.modifySm (h : w.Runs code p k b i) {f : Sm → Sm}
    (hf : (c, j) = (b, i) → (f (w.sm b i)).fetching = (w.sm b i).fetching) :
    (w.modifySm c j f).Runs code p k b i := { h with resident := h.resident.modifySm hf }

theorem Runs.smTickLine (h : w.Runs code p k b i) : w.smTick b i = w.smTickLine code k b i := by
  have hcycle : ∀ accum, (w.setSm b i { w.sm b i with clkAccum := accum }).smCycle b i =
      (w.setSm b i { w.sm b i with clkAccum := accum }).smCycleLine code k b i := by
    intro accum
    have haccum : (w.setSm b i { w.sm b i with clkAccum := accum }).Runs code p k b i :=
      h.modifySm (f := fun s => { s with clkAccum := accum }) fun _ => rfl
    have hpull := haccum.modifySm (c := b) (j := i) fun _ => fetching_backgroundAutopull _
    unfold World.smCycle World.smCycleLine
    dsimp only
    rw [hpull.present]
  unfold World.smTick World.smTickLine
  simp only [hcycle]

theorem Runs.smTick (h : w.Runs code p k b i) (c : BlockAddr) (j : Fin 4) :
    (w.smTick c j).Runs code p k b i :=
  { h with resident := h.resident.smTick h.relocatable h.room c j }

/-- One half-tick over the source is the half-tick over the words. -/
theorem Runs.tickSmsLine (h : w.Runs code p k b i) (c : BlockAddr) :
    w.tickSms c = w.tickSmsLine code k b i c := by
  have hfold : ∀ (l : List (Fin 4)) (v : World), v.Runs code p k b i →
      l.foldl (fun w j => w.smTick c j) v =
        l.foldl (fun w j => if (c, j) = (b, i) then w.smTickLine code k b i else w.smTick c j)
            v := by
    intro l
    induction l with
    | nil => exact fun v _ => rfl
    | cons j l ih =>
      intro v hv
      have hone : v.smTick c j = if (c, j) = (b, i) then v.smTickLine code k b i
          else v.smTick c j := by
        split
        · rename_i he
          obtain ⟨rfl, rfl⟩ := Prod.mk.inj he
          exact hv.smTickLine
        · rfl
      rw [List.foldl_cons, List.foldl_cons, ← hone]
      exact ih _ (hv.smTick c j)
  have hopen : (w.openWindow c).Runs code p k b i := { h with resident := h.resident.openWindow c }
  unfold World.tickSms World.tickSmsLine
  rw [hfold _ _ hopen]

theorem Runs.apiStepLine (h : w.Runs code p k b i) (e : ApiCall) :
    w.apiStep e = w.apiStepLine code k b i e := by
  unfold World.apiStep World.apiStepLine
  cases e.resolve w with
  | tickSms c => exact h.tickSmsLine c
  | _ => rfl

theorem Runs.run {es : List ApiCall} (hes : ∀ e ∈ es, e.Respects p.toPio k b i) : ∀ w : World,
    w.Runs code p k b i →
      es.foldl World.apiStep w = es.foldl (fun w e => w.apiStepLine code k b i e) w := by
  induction es with
  | nil => exact fun _ _ => rfl
  | cons e es ih =>
    intro w h
    have hkeep : (w.apiStep e).Runs code p k b i :=
      { h with resident := h.resident.apiStep h.relocatable h.room (hes e List.mem_cons_self) }
    rw [List.foldl_cons, List.foldl_cons, ← h.apiStepLine e]
    exact ih (fun e he => hes e (List.mem_cons_of_mem _ he)) _ hkeep

/-- Whatever source is accepted: if its code keeps to itself, the program that
`pio_asm_load_program` puts at `k` runs as the source says, line by line, beside whatever else
runs. -/
theorem assembled_program_runs_its_source {src : Asm.Text} {name : Option Asm.Text}
    (h : (Asm.pioAsmAssemble src name).1 = true) : ∃ code, Asm.sourceCode src name = some code ∧
      (code.Closed → ∀ (w v : World) (b : BlockAddr) (i : Fin 4) (k : ℕ),
        w.pioAsmLoadProgram b i k (Asm.pioAsmAssemble src name).2.toPio = some (true, v) →
        (w.sm b i).execPending = false →
        ∀ es : List ApiCall, (∀ e ∈ es, e.Respects (Asm.pioAsmAssemble src name).2.toPio k b i) →
          es.foldl World.apiStep v = es.foldl (fun w e => w.apiStepLine code k b i e) v) := by
  obtain ⟨code, hcode, hcompiles⟩ := Asm.compiles h
  refine ⟨code, hcode, fun hclosed w v b i k hload hpend es hes => ?_⟩
  have hdone : (Asm.pioAsmAssemble src name).2.ok = true ∧
      (Asm.pioAsmAssemble src name).2.InBounds := by
    obtain ⟨ps, hout, hends⟩ := Asm.pioAsmAssemble_ends src name
    obtain ⟨hfailure, hbounds⟩ := hends.done h
    rw [hout]
    exact ⟨Asm.Program.failure_eq_none_iff.mp hfailure, hbounds⟩
  obtain ⟨hok, hbounds⟩ := hdone
  have hr := hcompiles.relocatable hclosed hbounds
  have hroom : k + (Asm.pioAsmAssemble src name).2.count ≤ 32 := by
    by_contra hover
    have hnot : (Asm.pioAsmAssemble src name).2.toPio.fits k = false := by
      rw [← Bool.not_eq_true]
      exact fun hfits => hover ((PioProgram.fits_iff _ k).mp hfits).1
    rw [w.load_of_not_fits b i hbounds.count.2 hnot] at hload
    cases hload
  have hv : v = w.loadProgram b i k (Asm.pioAsmAssemble src name).2.toPio := by
    rw [World.loadProgram, hload, Option.elim_some]
  rw [hv]
  exact Runs.run hes _ ⟨hcompiles, hr, hroom, w.resident_loadProgram hok hr hroom hpend⟩

omit [Platform] in
/-- A loop with side-set and a data word, loaded at 7 beside a state machine that writes its own
PC. -/
theorem assembled_program_runs_its_source_loop : let _ : Platform := ⟨.rp2350⟩
    let src := ".program p\n.side_set 1 opt\nset x, 3 side 1 [2]\nback: jmp x-- back\n.word 0xa042\n.wrap".toList
    let prog := (Asm.pioAsmAssemble src none).2.toPio
    let v := World.initial.loadProgram 0 0 7 prog
    let es : List ApiCall := [.call (.block 0 (.load 1 [0xA0A1])), .call (.sm 0 1 (.setPc 1)),
      .call (.setSmMaskEnabled 0 3 true), .call (.tickSms 0), .call (.tickEnd 0),
        .call (.tickSms 0)]
    ∃ code, Asm.sourceCode src none = some code ∧
      es.foldl World.apiStep v = es.foldl (fun w e => w.apiStepLine code 7 0 0 e) v := by
  intro _ src prog v es
  have hok : (Asm.pioAsmAssemble src none).1 = true := by decide +kernel
  obtain ⟨code, hcode, hruns⟩ := assembled_program_runs_its_source hok
  refine ⟨code, hcode, ?_⟩
  have hexplicit : Asm.sourceCode src none = some
      { lines := [.line ⟨.set .x 3, 2, some 1⟩, .line ⟨.jmp .xDec 1, 0, none⟩, .data 0xA042]
        wrapBottom := 0, wrapTop := 2 } := by decide +kernel
  obtain rfl := Option.some.inj (hcode.symm.trans hexplicit)
  have hclosed : Asm.Code.Closed
      { lines := [.line ⟨.set .x 3, 2, some 1⟩, .line ⟨.jmp .xDec 1, 0, none⟩, .data 0xA042]
        wrapBottom := 0, wrapTop := 2 } := ⟨by decide, .inl rfl⟩
  have hfits : prog.fits 7 = true := by decide +kernel
  have hload := World.initial.load_of_fits 0 0 (show prog.ok = true by decide +kernel) hfits
  have hv : World.initial.pioAsmLoadProgram 0 0 7 prog = some (true, v) := by
    unfold v World.loadProgram
    rw [hload, Option.elim_some]
  refine hruns hclosed World.initial v 0 0 7 hv rfl es ?_
  simp only [es, List.forall_mem_cons]
  exact ⟨fun _ => .inl (by decide), fun h => absurd h (by decide), trivial, trivial,
    trivial, trivial, fun _ h => nomatch h⟩

end World

end PioSim
