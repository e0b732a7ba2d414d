import PioSim.Asm.Reordering

/-!
# The words of the instruction lines

The emit pass takes the instruction lines of the selected program one by one, each at the next
index, and a word that is written stays. So each instruction line of a source that assembles is
behind a word of the output, the one its tokens assemble to over the source's symbols and the
configuration of the program.
-/

namespace PioSim.Asm

variable [Platform]

/-- Over the symbols and the configuration of the program, the tokens of an instruction line
assemble to the word. -/
def Assembles (t : Table) (p : Program) (tok : List Text) (w : Insn) : Prop :=
  ∃ ctx q, ctx.Over t q ∧ { q with insns := p.insns, publicLabels := p.publicLabels } = p ∧
    (assembleInsn tok ctx).1 = some w

theorem Assembles.of_insns {t : Table} {p : Program} {tok : List Text} {w : Insn}
    (h : Assembles t p tok w)
    (insns : Fin 32 → Insn) (labels : List (Text × ℕ)) :
    Assembles t { p with insns := insns, publicLabels := labels } tok w := by
  obtain ⟨ctx, q, hover, hconfig, hw⟩ := h
  refine ⟨ctx, q, hover, ?_, hw⟩
  rw [← hconfig]

namespace ParseState

/-- The tokens of the instruction on a line of code, if it has one. -/
def insnTokens (ps : ParseState) (line : Text) : Option (List Text) :=
  if line.head? = some '.' then none
  else if !ps.inProgram then none
  else (ps.handleLabel line).1.map fun rest => (tokenize rest maxTokens).1

/-- The instruction lines a pass reads: the index of each and its tokens. -/
def insnLines : ℕ → ParseState → List Line → List (ℕ × List Text)
  | _, _, [] => []
  | n, ps, .verbatim :: rest => insnLines (n + 1) (ps.atLine n) rest
  | n, ps, .code line :: rest =>
    if line = [] ∨ line.head? = some '%' then insnLines (n + 1) (ps.atLine n) rest
    else (((ps.atLine n).insnTokens line).map fun tok => (ps.idx, tok)).toList ++
      match (ps.atLine n).handleCode line with
      | (.ok, ps) => insnLines (n + 1) ps rest
      | _ => []

/-- A state of the emit pass over the symbols and the configuration it started with: instructions
are counted only inside the program it has selected. -/
structure Emitting (t : Table) (p : Program) (ps : ParseState) : Prop where
  pass_eq : ps.pass = .emit
  started : ps.inProgram = true → ps.seenAnyProgram = true
  selected : ps.idx ≠ 0 → ps.inProgram = true
  context : ps.ctx.Over t { p with insns := ps.ctx.out.insns }

/-- The pass goes on, and what stood in front of the present index stays. -/
structure GoesOn (t : Table) (p : Program) (ps ps' : ParseState) : Prop where
  emitting : Emitting t p ps'
  idx_le : ps.idx ≤ ps'.idx
  keeps : ∀ j : Fin 32, j.val < ps.idx → ps'.ctx.out.insns j = ps.ctx.out.insns j

variable {t : Table} {p : Program} {ps ps' ps'' : ParseState}

section
omit [Platform]

theorem Emitting.goesOn (h : Emitting t p ps) : GoesOn t p ps ps :=
  ⟨h, Nat.le_refl _, fun _ _ => rfl⟩

theorem GoesOn.trans (h : GoesOn t p ps ps') (h' : GoesOn t p ps' ps'') : GoesOn t p ps ps'' where
  emitting := h'.emitting
  idx_le := h.idx_le.trans h'.idx_le
  keeps j hj := (h'.keeps j (hj.trans_le h.idx_le)).trans (h.keeps j hj)

theorem Emitting.atLine (h : Emitting t p ps) (n : ℕ) : GoesOn t p ps (ps.atLine n) :=
  ⟨⟨h.pass_eq, h.started, h.selected, h.context.settled.write _ _, h.context.table, h.context.out⟩,
    Nat.le_refl _, fun _ _ => rfl⟩

theorem Emitting.programDirective (h : Emitting t p ps) (args : List Text) :
    GoesOn t p ps (ps.programDirective args).2 := by
  unfold ParseState.programDirective
  split
  · exact h.goesOn
  rename_i hnew
  have hidx : ps.idx = 0 := by
    by_contra hne
    have hin := h.selected hne
    exact hnew (by rw [h.started hin, hin]; rfl)
  have hctx : ∀ named : Bool, (named && decide (ps.pass = .config)) = false := fun named => by
    rw [h.pass_eq]
    exact Bool.and_false _
  dsimp only
  cases args with
  | nil =>
    exact ⟨⟨h.pass_eq, fun _ => rfl, fun hne => absurd rfl hne, h.context⟩, hidx.le, fun _ _ => rfl⟩
  | cons s rest =>
    dsimp only
    rw [hctx]
    exact ⟨⟨h.pass_eq, fun _ => rfl, fun hne => absurd rfl hne, h.context⟩, hidx.le, fun _ _ => rfl⟩

/-- A word at the present index of a program being read. -/
theorem Emitting.word (h : Emitting t p ps) (hin : ps.inProgram = true) (hidx : ps.idx < 32)
    {x : Step Insn}
    (hx : x.Steady)
    (hok : (ps.run x fun w ps => (.ok, { ps.emit w with idx := ps.idx + 1 })).1 ≠ .error) :
    let ps' := (ps.run x fun w ps => (.ok, { ps.emit w with idx := ps.idx + 1 })).2
    GoesOn t p ps ps' ∧ ps'.idx = ps.idx + 1 ∧
      (x ps.ctx).1 = some (ps'.ctx.out.insns ⟨ps.idx, hidx⟩) := by
  have hover := fun hsome => hx.over h.context hsome
  unfold ParseState.run at hok ⊢
  generalize x ps.ctx = r at hover hok ⊢
  obtain ⟨_ | w, ctx⟩ := r
  · exact absurd rfl hok
  have hafter := hover rfl
  dsimp only at hafter ⊢
  refine ⟨⟨⟨h.pass_eq, h.started, fun _ => hin, hafter.settled.write _ _, hafter.table, ?_⟩,
    Nat.le_succ _, fun j hj => ?_⟩, rfl, ?_⟩
  · exact congrArg (fun out : Program => { out with
      insns := fun j => if j.val = ps.idx then w else ctx.out.insns j }) hafter.out
  · refine (if_neg hj.ne).trans ?_
    rw [hafter.out]
  · exact congrArg some (if_pos rfl).symm

/-- A line that does not fail. -/
def LineGoesOn (t : Table) (p : Program) (ps : ParseState) (r : LineResult × ParseState) : Prop :=
  r.1 ≠ .error → GoesOn t p ps r.2

theorem Emitting.wordDirective (h : Emitting t p ps) (hin : ps.inProgram = true)
    (args : List Text) :
    LineGoesOn t p ps (ps.wordDirective args) := by
  unfold ParseState.wordDirective
  split
  · exact fun hne => absurd rfl hne
  rename_i hidx
  rw [if_pos h.pass_eq]
  exact fun hok => (h.word hin (Nat.lt_of_not_le hidx) (built_wordValue args).steady hok).1

end

theorem Emitting.handleDirective (h : Emitting t p ps) (line : Text) :
    LineGoesOn t p ps (ps.handleDirective line) := by
  have hsame : LineGoesOn t p ps (.ok, ps) := fun _ => h.goesOn
  unfold ParseState.handleDirective
  generalize tokenize line maxTokens = r
  obtain ⟨tok, truncated⟩ := r
  rw [h.pass_eq]
  dsimp only
  split
  · exact fun hne => absurd rfl hne
  cases tok with
  | nil => exact hsame
  | cons s args =>
    dsimp only
    split
    · exact fun _ => h.programDirective args
    split
    · exact hsame
    split
    · exact hsame
    rename_i hin
    rw [Bool.not_eq_true', Bool.not_eq_false] at hin
    split
    · exact hsame
    split
    · exact hsame
    split
    · exact h.wordDirective hin args
    · exact hsame

theorem Emitting.handleInstruction (h : Emitting t p ps) (hin : ps.inProgram = true) (line : Text)
    (hok : (ps.handleInstruction line).1 ≠ .error) :
    GoesOn t p ps (ps.handleInstruction line).2 ∧ ∃ hidx : ps.idx < 32,
      (ps.handleInstruction line).2.idx = ps.idx + 1 ∧ Assembles t p (tokenize line maxTokens).1
        ((ps.handleInstruction line).2.ctx.out.insns ⟨ps.idx, hidx⟩) := by
  unfold ParseState.handleInstruction at hok ⊢
  by_cases hidx : 32 ≤ ps.idx
  · rw [if_pos hidx] at hok
    exact absurd rfl hok
  have hlt : ps.idx < 32 := Nat.lt_of_not_le hidx
  rw [if_neg hidx, if_pos h.pass_eq] at hok ⊢
  generalize tokenize line maxTokens = r at hok ⊢
  obtain ⟨tok, truncated⟩ := r
  dsimp only at hok ⊢
  by_cases htruncated : truncated = true
  · rw [if_pos htruncated] at hok
    exact absurd rfl hok
  rw [if_neg htruncated] at hok ⊢
  by_cases hempty : tok = []
  · rw [if_pos hempty] at hok
    exact absurd rfl hok
  rw [if_neg hempty] at hok ⊢
  obtain ⟨hgoes, hnext, hword⟩ := h.word hin hlt (built_assembleInsn tok).steady hok
  exact ⟨hgoes, hlt, hnext, ps.ctx, _, h.context, rfl, hword⟩

/-- A line of code that does not fail, and its instruction if it has one. -/
def CodeGoesOn (t : Table) (p : Program) (ps : ParseState) (insn : Option (List Text))
    (r : LineResult × ParseState) : Prop :=
  r.1 ≠ .error → GoesOn t p ps r.2 ∧ ∀ tok, insn = some tok → ∃ hidx : ps.idx < 32,
    ps.idx < r.2.idx ∧ Assembles t p tok (r.2.ctx.out.insns ⟨ps.idx, hidx⟩)

theorem LineGoesOn.noInsn {r : LineResult × ParseState} (h : LineGoesOn t p ps r) :
    CodeGoesOn t p ps none r :=
  fun hok => ⟨h hok, fun _ htok => by cases htok⟩

theorem Emitting.handleCode (h : Emitting t p ps) (line : Text) :
    CodeGoesOn t p ps (ps.insnTokens line) (ps.handleCode line) := by
  have hsame : LineGoesOn t p ps (.ok, ps) := fun _ => h.goesOn
  have hscan : ps.pass ≠ .scan := by
    rw [h.pass_eq]
    decide
  obtain ⟨rest, hlabel⟩ := handleLabel_skips line
  unfold insnTokens ParseState.handleCode
  rw [hlabel ps hscan]
  by_cases hdirective : line.head? = some '.'
  · rw [if_pos hdirective, if_pos hdirective]
    exact (h.handleDirective line).noInsn
  rw [if_neg hdirective, if_neg hdirective]
  cases hin : ps.inProgram with
  | false => exact hsame.noInsn
  | true =>
    rw [Bool.not_true, if_neg Bool.false_ne_true, if_neg Bool.false_ne_true]
    dsimp only
    split
    · exact fun hne => absurd rfl hne
    cases rest with
    | none => exact hsame.noInsn
    | some rest =>
      intro hok
      obtain ⟨hgoes, hidx, hnext, hword⟩ := h.handleInstruction hin rest hok
      refine ⟨hgoes, fun tok htok => ⟨hidx, ?_, ?_⟩⟩
      · exact (Nat.lt_succ_self _).trans_eq hnext.symm
      · rw [← Option.some.inj htok]
        exact hword

/-- The lines that a pass has read from a state on are behind the words of another. -/
def Backs (t : Table) (p : Program) (ps ps' : ParseState) (lines : List (ℕ × List Text)) : Prop :=
  ∀ e ∈ lines, ps.idx ≤ e.1 ∧ ∃ hidx : e.1 < 32, Assembles t p e.2 (ps'.ctx.out.insns ⟨e.1, hidx⟩)

theorem GoesOn.backs {lines : List (ℕ × List Text)} (h : GoesOn t p ps ps')
    (h' : Backs t p ps' ps'' lines) :
    Backs t p ps ps'' lines := fun e he => ⟨h.idx_le.trans (h' e he).1, (h' e he).2⟩

/-- The instruction lines a pass has read are behind the words it leaves. -/
theorem Emitting.runListing : ∀ (lines : List Line) (n : ℕ) (ps : ParseState), Emitting t p ps →
    (runListing n ps lines).1 = true → GoesOn t p ps (ParseState.runListing n ps lines).2 ∧
      Backs t p ps (ParseState.runListing n ps lines).2 (insnLines n ps lines) := by
  intro lines
  induction lines with
  | nil => exact fun n ps h _ => ⟨h.goesOn, fun e he => absurd he List.not_mem_nil⟩
  | cons l rest ih =>
    intro n ps h hdone
    have hat := h.atLine n
    have hskip : (ParseState.runListing (n + 1) (ps.atLine n) rest).1 = true →
        GoesOn t p ps (ParseState.runListing (n + 1) (ps.atLine n) rest).2 ∧
          Backs t p ps (ParseState.runListing (n + 1) (ps.atLine n) rest).2
            (insnLines (n + 1) (ps.atLine n) rest) := by
      intro hdone
      obtain ⟨hgoes, hback⟩ := ih (n + 1) (ps.atLine n) hat.emitting hdone
      exact ⟨hat.trans hgoes, hat.backs hback⟩
    cases l with
    | verbatim => exact hskip hdone
    | code line =>
      rw [ParseState.runListing] at hdone ⊢
      rw [insnLines]
      by_cases hblank : line = [] ∨ line.head? = some '%'
      · rw [if_pos hblank] at hdone
        rw [if_pos hblank, if_pos hblank]
        exact hskip hdone
      rw [if_neg hblank] at hdone
      rw [if_neg hblank, if_neg hblank]
      have hcode := hat.emitting.handleCode line
      generalize (ps.atLine n).handleCode line = r at hcode hdone ⊢
      obtain ⟨result, q⟩ := r
      cases result with
      | error => exact absurd hdone Bool.false_ne_true
      | done =>
        obtain ⟨hgoes, hword⟩ := hcode LineResult.noConfusion
        refine ⟨hat.trans hgoes, fun e he => ?_⟩
        rw [List.append_nil, Option.mem_toList, Option.map_eq_some_iff] at he
        obtain ⟨tok, htok, rfl⟩ := he
        obtain ⟨hidx, -, hassembles⟩ := hword tok htok
        exact ⟨Nat.le_refl _, hidx, hassembles⟩
      | ok =>
        obtain ⟨hgoes, hword⟩ := hcode LineResult.noConfusion
        obtain ⟨hrest, hback⟩ := ih (n + 1) q hgoes.emitting hdone
        refine ⟨(hat.trans hgoes).trans hrest, fun e he => ?_⟩
        rw [List.mem_append, Option.mem_toList, Option.map_eq_some_iff] at he
        rcases he with ⟨tok, htok, rfl⟩ | he
        · obtain ⟨hidx, hlt, hassembles⟩ := hword tok htok
          refine ⟨Nat.le_refl _, hidx, ?_⟩
          dsimp only
          rw [hrest.keeps ⟨ps.idx, hidx⟩ hlt]
          exact hassembles
        · exact (hat.trans hgoes).backs hback e he

end ParseState

/-! ### The lines of a source -/

open ParseState

def symbols (src : Text) (name : Option Text) : Table := (scanned src name).2.ctx.table

def configured (src : Text) (name : Option Text) : Bool × ParseState :=
  ((scanned src name).2.runOver .config (listing src)).2.finishConfig

def instructionLines (src : Text) (name : Option Text) : List (ℕ × List Text) :=
  insnLines 1 { (configured src name).2.plain with
    pass := .emit, inProgram := false, seenAnyProgram := false, idx := 0 } (listing src)

section
omit [Platform]

theorem carried_settled (t : Table) {pass : Pass} (hpass : pass ≠ .scan) :
    Carried pass (fun ctx => ctx.Settled ∧ ctx.table = t) fun _ => True where
  left _ _ := trivial
  line _ _ h := ⟨h.1.write _ _, h.2⟩
  error _ _ _ h := ⟨h.1.write _ _, h.2⟩
  error_left _ _ _ _ := trivial
  write _ _ _ h := ⟨h.1.write _ _, h.2⟩
  resolveUint _ _ s h :=
    have hafter := h.1.after_resolveUint s
    ⟨trivial, fun _ => ⟨hafter.2, hafter.1.trans h.2⟩⟩
  define hscan := absurd hscan hpass
  label hscan := absurd hscan hpass

theorem stages_done {ps : ParseState} {f : ParseState → Bool × ParseState}
    {fs : List (ParseState → Bool × ParseState)} (h : (ps.stages (f :: fs)).1 = true) :
    (f ps).1 = true ∧ ps.stages (f :: fs) = (f ps).2.stages fs := by
  rw [stages] at h ⊢
  generalize f ps = r at h ⊢
  obtain ⟨_ | _, ps'⟩ := r
  · exact absurd h Bool.false_ne_true
  · exact ⟨rfl, rfl⟩

theorem exportLabels_done {ps : ParseState} (h : ps.exportLabels.1 = true) :
    ps.exportLabels.2.ctx.out =
      { ps.ctx.out with
        publicLabels := (ps.ctx.labels.filter (·.isPublic)).map fun l => (l.name, l.index) } := by
  unfold exportLabels at h ⊢
  dsimp only at h ⊢
  by_cases hmany : 8 < ((ps.ctx.labels.filter (·.isPublic)).map fun l => (l.name, l.index)).length
  · rw [if_pos hmany] at h
    cases h
  · rw [if_neg hmany, List.take_of_length_le (Nat.le_of_not_lt hmany)]

theorem exportLabels_out {ps : ParseState} (h : ps.exportLabels.1 = true) :
    ps.exportLabels.2.ctx.out =
    { ps.ctx.out with publicLabels := ps.exportLabels.2.ctx.out.publicLabels } := by
  rw [exportLabels_done h]

end

/-- A source that assembles is configured to a state over its symbols, and the emit pass goes on
from there. -/
theorem configured_over {src : Text} {name : Option Text} (h : (pioAsmAssemble src name).1 = true) :
    let ps := (configured src name).2
    let r := ps.runOver .emit (listing src)
    ps.ctx.Over (symbols src name) ps.ctx.out ∧ r.1 = true ∧
      (pioAsmAssemble src name).2 = { r.2.ctx.out with
        publicLabels := (pioAsmAssemble src name).2.publicLabels } := by
  rw [pioAsmAssemble_eq] at h ⊢
  unfold assembleListing at h ⊢
  obtain ⟨-, hscan⟩ := stages_done h
  rw [hscan] at h ⊢
  obtain ⟨hconfig, hstage⟩ := stages_done h
  rw [hstage] at h ⊢
  obtain ⟨-, hstage⟩ := stages_done h
  rw [hstage] at h ⊢
  obtain ⟨hemit, hstage⟩ := stages_done h
  rw [hstage] at h ⊢
  obtain ⟨hexport, hstage⟩ := stages_done h
  rw [hstage]
  refine ⟨?_, hemit, ?_⟩
  · have hcarried : Carried .config (fun ctx => ctx.Settled ∧ ctx.table = symbols src name)
        fun _ => True :=
      carried_settled (symbols src name) (by decide)
    obtain ⟨hfst, hsnd⟩ := agree_runPass .config src (scanned src name).2
    have hover := (scanned_over src name).1
    have hstart : (scanned src name).2.ctx.Settled ∧
        (scanned src name).2.ctx.table = symbols src name :=
      ⟨hover.settled, rfl⟩
    have hrun := (hcarried.runPass hstart src).2 (hfst.trans hconfig)
    have hctx := congrArg ParseState.ctx hsnd
    have hpass := hcarried.finishConfig (by decide) (hctx ▸ hrun)
    exact ⟨hpass.1, hpass.2, rfl⟩
  · exact exportLabels_out hexport

/-- Each instruction line of a source that assembles is behind its word of the program. -/
theorem assembles_instructionLines {src : Text} {name : Option Text}
    (h : (pioAsmAssemble src name).1 = true)
    {e : ℕ × List Text} (he : e ∈ instructionLines src name) : ∃ hidx : e.1 < 32,
      Assembles (symbols src name) (pioAsmAssemble src name).2 e.2
        ((pioAsmAssemble src name).2.insns ⟨e.1, hidx⟩) := by
  obtain ⟨hover, hemit, hout⟩ := configured_over h
  have hstart : Emitting (symbols src name) (configured src name).2.ctx.out
      { (configured src name).2.plain with
        pass := .emit, inProgram := false, seenAnyProgram := false, idx := 0 } :=
    ⟨rfl, fun hin => absurd hin Bool.false_ne_true, fun hne => absurd rfl hne, hover⟩
  obtain ⟨hgoes, hback⟩ := hstart.runListing (listing src) 1 _ hemit
  obtain ⟨-, hidx, hassembles⟩ := hback e he
  have hconfig := hgoes.emitting.context.out
  have hinsns := congrArg Program.insns hout
  have hprogram := hout.trans (congrArg (fun q : Program => { q with
    publicLabels := (pioAsmAssemble src name).2.publicLabels }) hconfig)
  refine ⟨hidx, ?_⟩
  rw [hinsns, hprogram]
  exact hassembles.of_insns _ _

end PioSim.Asm
