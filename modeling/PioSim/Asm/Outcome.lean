import PioSim.Asm.Answers
import PioSim.Lib.Course

/-!
# How an assembly ends

The result of a pass and the output of the assembler agree on whether it failed, the first error
stays, and a program that assembles is within the bounds of its fields. What one line does to the
output is stated once, and the loop over the lines and the stages keep it.
-/

namespace PioSim.Asm

/-! ### Lines -/

/-- Where the wrap stands in a pass: it is set behind an instruction in the configuration pass, and
both ends are instructions of the program when words are emitted. -/
def Program.WrapIn (out : Program) (idx : ℕ) : Pass → Prop
  | .scan => out.wrapTop = 255
  | .config => out.wrapTop = 255 ∨ out.wrapTop < idx
  | .emit => out.count ≤ 32 ∧ out.wrapTop < out.count ∧ out.wrapBottom < out.count

namespace ParseState

/-- A part of a pass keeps an error there is, a success sets none and leaves what is told, and a
failure is in the output. -/
structure Ends (p : Program) (Q : ParseState → Prop) (success : Prop) (ps : ParseState) : Prop where
  reports : p.Reports ps.ctx.out
  done : success → ps.ctx.out.failure = p.failure ∧ Q ps
  failed : ¬ success → ps.ctx.out.ok = false

section
variable {p : Program} {Q : ParseState → Prop} {ps : ParseState} {msg : String}

theorem Ends.fail (hmsg : msg ≠ "") :
    Ends ps.ctx.out Q ((ps.fail msg).1 ≠ .error) (ps.fail msg).2 where
  reports := ps.ctx.setError_reports hmsg
  done h := absurd rfl h
  failed _ := ps.ctx.setError_ok msg

theorem Ends.success {success : Prop} (h : success) (hsame : ps.ctx.out.failure = p.failure)
    (hQ : Q ps) :
    Ends p Q success ps where
  reports := .inl hsame
  done _ := ⟨hsame, hQ⟩
  failed hnot := absurd h hnot

theorem Ends.mono {Q' : ParseState → Prop} {success : Prop} (h : Ends p Q success ps)
    (himp : ∀ ps, Q ps → Q' ps) : Ends p Q' success ps :=
  ⟨h.reports, fun hs => (h.done hs).imp_right (himp ps), h.failed⟩

theorem Ends.andThen {Q' : ParseState → Prop} {success success' : Prop} {ps' : ParseState}
    (h : Ends p Q success ps) (hs : success) (h' : Q ps → Ends ps.ctx.out Q' success' ps') :
    Ends p Q' success' ps' := by
  obtain ⟨hsame, hQ⟩ := h.done hs
  have hends := h' hQ
  exact ⟨h.reports.trans hends.reports, fun h => (hends.done h).imp_left (·.trans hsame),
    hends.failed⟩

theorem Ends.run {α : Type} {x : Step α} {R : α → Program → Prop} (hx : x.Answers true ps.ctx.out R)
    {k : α → ParseState → LineResult × ParseState}
    (hk : ∀ a ctx, R a ctx.out → Ends ctx.out Q ((k a { ps with ctx := ctx }).1 ≠ .error)
      (k a { ps with ctx := ctx }).2) :
    Ends ps.ctx.out Q ((ps.run x k).1 ≠ .error) (ps.run x k).2 := by
  have hreports := hx.reports ps.ctx rfl
  have hdone := hx.done ps.ctx
  have hfailed := hx.failed rfl ps.ctx rfl
  unfold ParseState.run
  generalize x ps.ctx = y at hreports hdone hfailed ⊢
  rcases y with ⟨_ | a, ctx⟩
  · exact ⟨hreports, fun h => absurd rfl h, fun _ => hfailed rfl⟩
  · obtain ⟨hsame, ha⟩ := hdone a rfl rfl
    have hends := hk a ctx ha
    exact ⟨hreports.trans hends.reports, fun h => (hends.done h).imp_left (·.trans hsame),
      hends.failed⟩

end

theorem ok_ne_error : LineResult.ok ≠ .error := by decide

theorem done_ne_error : LineResult.done ≠ .error := by decide

variable {pass : Pass} {ps : ParseState}

theorem setError_ends {Q : ParseState → Prop} {msg : String} (hmsg : msg ≠ "") :
    Ends ps.ctx.out Q ((ps.ctx.setError msg).out.ok = true)
    { ps with ctx := ps.ctx.setError msg } where
  reports := ps.ctx.setError_reports hmsg
  done hok := by
    rw [ps.ctx.setError_ok msg] at hok
    cases hok
  failed _ := ps.ctx.setError_ok msg

variable [Platform]

/-- A state of a pass over a program in its bounds: it counts instructions only inside the program
it has selected. -/
structure Sound (pass : Pass) (ps : ParseState) : Prop where
  pass_eq : ps.pass = pass
  idx_le : ps.idx ≤ 32
  started : ps.inProgram = true → ps.seenAnyProgram = true
  selected : ps.idx ≠ 0 → ps.inProgram = true
  sane : ps.ctx.out.Sane
  wrap : ps.ctx.out.WrapIn ps.idx pass

theorem Sound.withOut (h : ps.Sound pass) {ctx : AsmCtx} (hsane : ctx.out.Sane)
    (hwrap : ctx.out.WrapIn ps.idx pass) : Sound pass { ps with ctx := ctx } :=
  ⟨h.pass_eq, h.idx_le, h.started, h.selected, hsane, hwrap⟩

theorem Sound.sameOut (h : ps.Sound pass) {ctx : AsmCtx} (hout : ctx.out = ps.ctx.out) :
    Sound pass { ps with ctx := ctx } := by
  refine h.withOut ?_ ?_
  · rw [hout]
    exact h.sane
  · rw [hout]
    exact h.wrap

theorem Sound.marked (h : ps.Sound pass) (inVerbatim inBlockComment : Bool) :
    Sound pass { ps with inVerbatim := inVerbatim, inBlockComment := inBlockComment } :=
  ⟨h.pass_eq, h.idx_le, h.started, h.selected, h.sane, h.wrap⟩

theorem Sound.emit (h : ps.Sound pass) (w : Insn) : Sound pass (ps.emit w) :=
  h.withOut ⟨h.sane.sideset, h.sane.origin, h.sane.version⟩ (by
    have hwrap := h.wrap
    cases pass <;> exact hwrap)

/-- One instruction more, where there is room for it. -/
theorem Sound.next (h : ps.Sound pass) (hidx : ps.idx < 32) (hin : ps.inProgram = true) :
    Sound pass { ps with idx := ps.idx + 1 } where
  pass_eq := h.pass_eq
  idx_le := hidx
  started := h.started
  selected _ := hin
  sane := h.sane
  wrap := by
    have hwrap := h.wrap
    cases pass with
    | scan => exact hwrap
    | config => exact hwrap.imp_right (Nat.lt_succ_of_lt ·)
    | emit => exact hwrap

/-- A line keeps the state sound. -/
abbrev LineEnds (pass : Pass) (ps : ParseState) (r : LineResult × ParseState) : Prop :=
  Ends ps.ctx.out (fun ps' => ps.Sound pass → ps'.Sound pass) (r.1 ≠ .error) r.2

theorem same_ends : LineEnds pass ps (.ok, ps) := .success ok_ne_error rfl id

/-- A program is selected only where no instruction has been counted. -/
theorem programDirective_ends (args : List Text) : LineEnds pass ps (ps.programDirective args) := by
  unfold programDirective
  split
  · exact .success done_ne_error rfl id
  rename_i hnew
  have hzero : ps.Sound pass → ps.idx = 0 := by
    intro h
    by_contra hidx
    have hin := h.selected hidx
    exact hnew (by rw [h.started hin, hin]; rfl)
  have hwrap : ps.Sound pass → ps.ctx.out.WrapIn 0 pass := fun h => hzero h ▸ h.wrap
  cases args with
  | nil =>
    exact .success ok_ne_error rfl fun h =>
      ⟨h.pass_eq, Nat.zero_le _, fun _ => rfl, fun hidx => absurd rfl hidx, h.sane, hwrap h⟩
  | cons t rest =>
    dsimp only
    generalize (_ && decide (ps.pass = .config)) = named
    refine .success ok_ne_error ?_ fun h =>
      ⟨h.pass_eq, Nat.zero_le _, fun _ => rfl, fun hidx => absurd rfl hidx, ?_, ?_⟩
    · cases named <;> rfl
    · cases named with
      | false => exact h.sane
      | true => exact ⟨h.sane.sideset, h.sane.origin, h.sane.version⟩
    · have hwrap := hwrap h
      cases named with
      | false => exact hwrap
      | true => cases pass <;> exact hwrap

theorem defineDirective_ends (args : List Text) : LineEnds pass ps (ps.defineDirective args) := by
  unfold defineDirective
  dsimp only
  generalize (!_ && ps.seenAnyProgram && !ps.inProgram) = skipped
  generalize @ite _ _ (instDecidableEqBool _ true) (args.drop 1) args = rest
  split
  · exact same_ends
  cases rest with
  | nil => exact .fail (by decide)
  | cons name value =>
    dsimp only
    cases joinTokens value with
    | none => exact .fail (by decide)
    | some expr =>
      dsimp only
      split
      · exact .fail (by decide)
      split
      · exact .fail (by decide)
      split
      · exact .fail (by decide)
      cases hctx : ps.ctx.declareDefine name expr with
      | none => exact .fail (by decide)
      | some ctx =>
        have hout : ctx.out = ps.ctx.out := by
          unfold AsmCtx.declareDefine at hctx
          split_ifs at hctx
          rw [← Option.some.inj hctx]
        exact .success ok_ne_error (congrArg Program.failure hout) fun h => h.sameOut hout

theorem wrapDirective_ends (hconfig : ps.pass = .config) : LineEnds pass ps ps.wrapDirective := by
  unfold wrapDirective
  split
  · exact .fail (by decide)
  rename_i hidx
  split
  · exact .fail (by decide)
  · refine .success ok_ne_error rfl fun h => ?_
    obtain rfl := h.pass_eq.symm.trans hconfig
    exact h.withOut ⟨h.sane.sideset, h.sane.origin, h.sane.version⟩
      (.inr (Nat.sub_lt (Nat.pos_of_ne_zero hidx) Nat.one_pos))

/-- A word of a step that leaves the program as it is. -/
theorem word_ends (hidx : ps.idx < 32) (hin : ps.inProgram = true) {x : Step Insn} (hx : x.Built) :
    LineEnds pass ps (ps.run x fun w ps => (.ok, { ps.emit w with idx := ps.idx + 1 })) := by
  refine Ends.run (hx.clean _) fun w ctx hctx => .success ok_ne_error rfl fun h => ?_
  exact ((h.sameOut hctx).emit w).next hidx hin

theorem wordDirective_ends (hin : ps.inProgram = true) (args : List Text) :
    LineEnds pass ps (ps.wordDirective args) := by
  unfold wordDirective
  split
  · exact .fail (by decide)
  rename_i hidx
  split
  · exact word_ends (Nat.lt_of_not_le hidx) hin (built_wordValue args)
  · exact .success ok_ne_error rfl fun h => h.next (Nat.lt_of_not_le hidx) hin

theorem handleDirective_ends (line : Text) : LineEnds pass ps (ps.handleDirective line) := by
  unfold handleDirective
  generalize tokenize line maxTokens = r
  obtain ⟨tok, truncated⟩ := r
  dsimp only
  split
  · exact .fail (by decide)
  cases tok with
  | nil => exact same_ends
  | cons t args =>
    dsimp only
    split
    · exact programDirective_ends args
    split
    · split
      · exact defineDirective_ends args
      · exact same_ends
    split
    · exact same_ends
    rename_i hin
    have hin : ps.inProgram = true := by
      rwa [Bool.not_eq_true', Bool.not_eq_false] at hin
    split
    · split
      · rename_i hconfig
        refine .success ok_ne_error rfl fun h => ?_
        obtain rfl := h.pass_eq.symm.trans hconfig
        exact h.withOut ⟨h.sane.sideset, h.sane.origin, h.sane.version⟩ h.wrap
      · exact same_ends
    split
    · split
      · rename_i hconfig
        exact wrapDirective_ends hconfig
      · exact same_ends
    split
    · exact wordDirective_ends hin args
    split
    · exact same_ends
    rename_i hconfig
    cases configKind t with
    | none => exact same_ends
    | some kind =>
      refine Ends.run (configures_configDirective kind args _) fun _ ctx hctx => ?_
      refine .success ok_ne_error rfl fun h => h.withOut (hctx.sane h.sane) ?_
      obtain rfl := h.pass_eq.symm.trans (not_not.mp hconfig)
      have hwrap := h.wrap
      unfold Program.WrapIn at hwrap ⊢
      rwa [hctx.wrapTop]

/-- What a label leaves: its error is in the output only. -/
abbrev LabelEnds (pass : Pass) (ps ps' : ParseState) : Prop :=
  Ends ps.ctx.out (fun ps' => (ps.Sound pass → ps'.Sound pass) ∧ ps'.inProgram = ps.inProgram)
    (ps'.ctx.out.ok = true) ps'

theorem labels_ends (labels : List Label) :
    LabelEnds pass ps { ps with ctx := { ps.ctx with labels := labels } } where
  reports := .refl _
  done _ := ⟨rfl, fun h => h.sameOut rfl, rfl⟩
  failed hnot := (Bool.not_eq_true _).mp hnot

theorem declareLabel_ends (name : Text) (isPublic : Bool) :
    LabelEnds pass ps (ps.declareLabel name isPublic) := by
  unfold declareLabel
  dsimp only
  split
  · exact setError_ends (by decide)
  split
  · exact setError_ends (by decide)
  split
  · exact setError_ends (by decide)
  split
  · exact setError_ends (by decide)
  split
  · exact setError_ends (by decide)
  · exact labels_ends _

theorem handleLabel_ends (pass : Pass) (ps : ParseState) (line : Text) :
    LabelEnds pass ps (ps.handleLabel line).2 := by
  unfold handleLabel
  generalize stripPublic line = r
  obtain ⟨line, isPublic⟩ := r
  dsimp only
  split
  · dsimp only
    split
    · exact declareLabel_ends _ _
    · exact labels_ends ps.ctx.labels
  · exact labels_ends ps.ctx.labels

theorem handleInstruction_ends (hin : ps.inProgram = true) (line : Text) :
    LineEnds pass ps (ps.handleInstruction line) := by
  unfold handleInstruction
  split
  · exact .fail (by decide)
  rename_i hidx
  split
  · generalize tokenize line maxTokens = r
    obtain ⟨tok, truncated⟩ := r
    dsimp only
    split
    · exact .fail (by decide)
    split
    · exact .fail (by decide)
    · exact word_ends (Nat.lt_of_not_le hidx) hin (built_assembleInsn tok)
  · exact .success ok_ne_error rfl fun h => h.next (Nat.lt_of_not_le hidx) hin

theorem processLine_ends (pass : Pass) (ps : ParseState) (line : Text) :
    LineEnds pass ps (ps.processLine line) := by
  unfold processLine
  split
  · split
    · exact .success ok_ne_error rfl fun h => h.marked false _
    · exact same_ends
  split
  · exact .success ok_ne_error rfl fun h => h.marked true _
  split
  · exact handleDirective_ends line
  split
  · exact same_ends
  rename_i hin
  have hin : ps.inProgram = true := by
    rwa [Bool.not_eq_true', Bool.not_eq_false] at hin
  have hlabel := handleLabel_ends pass ps line
  generalize ps.handleLabel line = r at hlabel ⊢
  obtain ⟨rest, ps'⟩ := r
  dsimp only at hlabel ⊢
  by_cases hok : ps'.ctx.out.ok = true
  · rw [hok]
    refine hlabel.andThen hok fun hsound => ?_
    cases rest with
    | none => exact same_ends.mono fun _ h => h ∘ hsound.1
    | some rest => exact (handleInstruction_ends (hsound.2.trans hin) rest).mono fun _ h =>
        h ∘ hsound.1
  · rw [(Bool.not_eq_true _).mp hok]
    exact ⟨hlabel.reports, fun hne => absurd rfl hne, fun _ => hlabel.failed hok⟩

/-! ### Passes -/

/-- A pass that starts sound ends sound, or with an error in the output. -/
abbrev PassEnds (pass : Pass) (ps : ParseState) (r : Bool × ParseState) : Prop :=
  Ends ps.ctx.out (fun ps' => ps.Sound pass → ps'.Sound pass) (r.1 = true) r.2

theorem nextLine_ends (pass : Pass) (ps : ParseState) (n : ℕ) (physical : Text) :
    (ps.nextLine n physical).2.ctx.out = ps.ctx.out ∧
      (ps.Sound pass → (ps.nextLine n physical).2.Sound pass) := by
  unfold nextLine
  dsimp only
  split
  · exact ⟨rfl, fun h => h.sameOut rfl⟩
  · refine ⟨rfl, fun h => ?_⟩
    have hat : Sound pass { ps with ctx := { ps.ctx with lineNo := n } } := h.sameOut rfl
    exact hat.marked _ _

theorem runLines_ends (pass : Pass) : ∀ (lines : List Text) (n : ℕ) (ps : ParseState),
    PassEnds pass ps (runLines n ps lines) := by
  intro lines
  induction lines with
  | nil => exact fun n ps => .success rfl rfl id
  | cons physical rest ih =>
    intro n ps
    unfold runLines
    obtain ⟨hout, hsound⟩ := nextLine_ends pass ps n physical
    generalize ps.nextLine n physical = r at hsound hout ⊢
    obtain ⟨line, ps'⟩ := r
    dsimp only at hsound hout ⊢
    unfold PassEnds
    rw [← hout]
    split
    · exact (ih (n + 1) ps').mono fun _ h => h ∘ hsound
    have hline := processLine_ends pass ps' line
    generalize ps'.processLine line = r at hline ⊢
    obtain ⟨result, ps''⟩ := r
    cases result with
    | error =>
      exact ⟨hline.reports, fun h => absurd h Bool.false_ne_true,
        fun _ => hline.failed (absurd rfl ·)⟩
    | done =>
      exact ⟨hline.reports, fun _ => (hline.done done_ne_error).imp_right (· ∘ hsound),
        fun h => absurd rfl h⟩
    | ok => exact hline.andThen ok_ne_error fun h => (ih (n + 1) ps'').mono fun _ h' =>
        h' ∘ h ∘ hsound

/-- A pass starts sound over a program that is. -/
theorem runPass_ends (ps : ParseState) (pass : Pass) (src : Text) :
    Ends ps.ctx.out
      (fun ps' => ps.ctx.out.Sane → ps.ctx.out.WrapIn 0 pass → ps'.Sound pass)
      ((ps.runPass pass src).1 = true) (ps.runPass pass src).2 := by
  have hlines := runLines_ends pass (physicalLines src) 1 { ps with
    pass := pass, inProgram := false, inVerbatim := false, inBlockComment := false
    seenAnyProgram := false, idx := 0 }
  exact hlines.mono fun _ h hsane hwrap => h ⟨rfl, Nat.zero_le _,
    fun hin => absurd hin Bool.false_ne_true, fun hidx => absurd rfl hidx, hsane, hwrap⟩

omit [Platform] in
/-- A failure between the passes. -/
theorem refused_ends {p : Program} {Q : ParseState → Prop} {msg : String}
    (hsame : ps.ctx.out.failure = p.failure) (hmsg : msg ≠ "") :
    Ends p Q (false = true) (ps.fail msg).2 where
  reports := Program.Reports.trans (.inl hsame) (ps.ctx.setError_reports hmsg)
  done h := absurd h Bool.false_ne_true
  failed _ := ps.ctx.setError_ok msg

theorem finishConfig_ends (ps : ParseState) :
    Ends ps.ctx.out
      (fun ps' => ps.Sound .config → ps'.ctx.out.Sane ∧ ps'.ctx.out.WrapIn 0 .emit)
      (ps.finishConfig.1 = true) ps.finishConfig.2 := by
  unfold finishConfig
  dsimp only
  split
  · exact refused_ends rfl (by decide)
  rename_i hidx
  split
  · exact refused_ends rfl (by decide)
  rename_i hbottom
  refine .success rfl rfl fun h =>
    ⟨⟨h.sane.sideset, h.sane.origin, h.sane.version⟩, h.idx_le, ?_, ?_⟩
  · dsimp only
    split
    · exact Nat.sub_lt (Nat.pos_of_ne_zero hidx) Nat.one_pos
    · rename_i hset
      exact h.wrap.resolve_left hset
  · exact Nat.lt_of_not_le hbottom

theorem exportLabels_ends (ps : ParseState) :
    Ends ps.ctx.out
      (fun ps' => ps.ctx.out.Sane ∧ ps.ctx.out.WrapIn 0 .emit →
        ps'.ctx.out.Sane ∧ ps'.ctx.out.WrapIn 0 .emit ∧ ps'.ctx.out.publicLabels.length ≤ 8)
      (ps.exportLabels.1 = true) ps.exportLabels.2 := by
  unfold exportLabels
  dsimp only
  split
  · exact refused_ends rfl (by decide)
  · refine ⟨.refl _, fun _ => ⟨rfl, fun ⟨hsane, hwrap⟩ => ⟨?_, hwrap, List.length_take_le _ _⟩⟩, ?_⟩
    · exact ⟨hsane.sideset, hsane.origin, hsane.version⟩
    · exact (Bool.not_eq_true _).mp

omit [Platform] in
/-- One stage and the stages behind it. -/
theorem stages_ends {p : Program} {Q Q' : ParseState → Prop} {f : ParseState → Bool × ParseState}
    {fs : List (ParseState → Bool × ParseState)} (hf : Ends p Q ((f ps).1 = true) (f ps).2)
    (hfs : ∀ ps', Q ps' → Ends ps'.ctx.out Q' ((ps'.stages fs).1 = true) (ps'.stages fs).2) :
    Ends p Q' ((ps.stages (f :: fs)).1 = true) (ps.stages (f :: fs)).2 := by
  rw [stages]
  generalize f ps = r at hf ⊢
  obtain ⟨success, ps'⟩ := r
  cases success with
  | true => exact hf.andThen rfl (hfs ps')
  | false => exact ⟨hf.reports, fun h => absurd h Bool.false_ne_true,
      fun _ => hf.failed Bool.false_ne_true⟩

end ParseState

/-! ### The assembly -/

section Assembly
variable [Platform]

/-- A program as `pio_program_t` promises it. -/
structure Program.InBounds (p : Program) : Prop where
  count : 1 ≤ p.count ∧ p.count ≤ 32
  wrapBottom : p.wrapBottom < p.count
  wrapTop : p.wrapTop < p.count
  labels : p.publicLabels.length ≤ 8
  sideset : p.sidesetBits ≤ 5
  origin : p.hasOrigin = true → p.origin < 32
  version : ∀ v, p.pioVersion = some v → v ≤ 1 ∧ v ≤ buildVersion

open ParseState

/-- The output at the end, and the result. -/
theorem pioAsmAssemble_ends (src : Text) (name : Option Text) :
    ∃ ps : ParseState, (pioAsmAssemble src name).2 = ps.ctx.out ∧
      ParseState.Ends Program.start (fun ps => ps.ctx.out.InBounds)
      ((pioAsmAssemble src name).1 = true) ps := by
  refine ⟨_, rfl, ?_⟩
  refine stages_ends (runPass_ends (ParseState.start name) .scan src) fun ps hscan => ?_
  have hscan :=
    hscan ⟨Nat.zero_le 5, fun h => absurd h Bool.false_ne_true, fun v h => by cases h⟩ rfl
  refine stages_ends (runPass_ends ps .config src) fun ps hconfig => ?_
  have hconfig := hconfig hscan.sane (.inl hscan.wrap)
  refine stages_ends (finishConfig_ends ps) fun ps hfinish => ?_
  obtain ⟨hsane, hwrap⟩ := hfinish hconfig
  refine stages_ends (runPass_ends ps .emit src) fun ps hemit => ?_
  have hemit := hemit hsane hwrap
  refine stages_ends (exportLabels_ends ps) fun ps hexport => ?_
  obtain ⟨hsane, ⟨hcount, htop, hbottom⟩, hlabels⟩ := hexport ⟨hemit.sane, hemit.wrap⟩
  exact .success rfl rfl ⟨⟨Nat.lt_of_le_of_lt (Nat.zero_le _) htop, hcount⟩, hbottom, htop, hlabels,
    hsane.sideset, hsane.origin, hsane.version⟩

/-- An error after some lines of a pass is the error at its end. -/
theorem ParseState.runLines_keeps {e : ℕ × String} :
    ∀ (pre post : List Text) (n : ℕ) (ps : ParseState),
    (runLines n ps pre).2.ctx.out.failure = some e →
      (runLines n ps (pre ++ post)).2.ctx.out.failure = some e := by
  intro pre post
  induction pre with
  | nil => exact fun n ps he => (runLines_ends .scan post n ps).reports.stays he
  | cons physical rest ih =>
    intro n ps he
    rw [List.cons_append]
    unfold runLines at he ⊢
    generalize ps.nextLine n physical = r at he ⊢
    obtain ⟨line, ps'⟩ := r
    dsimp only at he ⊢
    split
    · rename_i hline
      rw [if_pos hline] at he
      exact ih (n + 1) ps' he
    · rename_i hline
      rw [if_neg hline] at he
      generalize ps'.processLine line = r at he ⊢
      obtain ⟨_ | _ | _, ps''⟩ := r
      · exact ih (n + 1) ps'' he
      · exact he
      · exact he

/-! ### The course of an assembly -/

/-- The states behind the lines that a pass reads. -/
def ParseState.linesCourse : ℕ → ParseState → List Text → List ParseState
  | _, _, [] => []
  | n, ps, physical :: rest =>
    let (line, ps) := ps.nextLine n physical
    if line = [] then ps :: linesCourse (n + 1) ps rest
    else match ps.processLine line with
      | (.ok, ps) => ps :: linesCourse (n + 1) ps rest
      | (_, ps) => [ps]

/-- The states of a pass: the one it begins with, and those behind its lines. -/
def ParseState.passCourse (pass : Pass) (src : Text) (ps : ParseState) : List ParseState :=
  let ps := { ps with
    pass := pass, inProgram := false, inVerbatim := false, inBlockComment := false
    seenAnyProgram := false, idx := 0 }
  ps :: linesCourse 1 ps (physicalLines src)

omit [Platform] in
/-- The states of stages that follow each other as long as they succeed, each given with its own
states. -/
def ParseState.course (ps : ParseState) :
    List ((ParseState → Bool × ParseState) × (ParseState → List ParseState)) → List ParseState
  | [] => []
  | (f, states) :: fs => states ps ++
    match f ps with
    | (true, ps) => ps.course fs
    | (false, _) => []

/-- The states that `pio_asm_assemble` passes through: those behind each line of each pass, and
behind what it does between the passes. -/
def assemblyCourse (src : Text) (name : Option Text) : List ParseState :=
  (ParseState.start name).course
    [(fun ps => ps.runPass .scan src, ParseState.passCourse .scan src),
      (fun ps => ps.runPass .config src, ParseState.passCourse .config src),
      (ParseState.finishConfig, fun ps => [ps.finishConfig.2]),
      (fun ps => ps.runPass .emit src, ParseState.passCourse .emit src),
      (ParseState.exportLabels, fun ps => [ps.exportLabels.2])]

/-- From one state to another by way of states that keep an error that there is. -/
abbrev ParseState.Leads : ParseState → List ParseState → ParseState → Prop :=
  Course.Path fun ps => ps.ctx.out.failure

theorem ParseState.linesCourse_leads : ∀ (lines : List Text) (n : ℕ) (ps : ParseState),
    Leads ps (linesCourse n ps lines) (runLines n ps lines).2 := by
  intro lines
  induction lines with
  | nil => exact fun n ps => .nil ps
  | cons physical rest ih =>
    intro n ps
    have hout := (nextLine_ends .scan ps n physical).1
    unfold linesCourse runLines
    generalize ps.nextLine n physical = r at hout ⊢
    obtain ⟨line, ps'⟩ := r
    dsimp only at hout ⊢
    split
    · exact .cons (fun e he => by rwa [hout]) (ih (n + 1) ps')
    have hline : ∀ e, ps.ctx.out.failure = some e → (ps'.processLine line).2.ctx.out.failure =
        some e := fun e he =>
      (processLine_ends .scan ps' line).reports.stays (by rwa [hout])
    generalize ps'.processLine line = r at hline ⊢
    obtain ⟨_ | _ | _, ps''⟩ := r
    · exact .cons hline (ih (n + 1) ps'')
    · exact .cons hline (.nil _)
    · exact .cons hline (.nil _)

theorem ParseState.passCourse_leads (pass : Pass) (src : Text) (ps : ParseState) :
    Leads ps (passCourse pass src ps) (ps.runPass pass src).2 :=
  .cons (fun _ he => he) (linesCourse_leads _ _ _)

omit [Platform] in
theorem ParseState.course_leads
    {fs : List ((ParseState → Bool × ParseState) × (ParseState → List ParseState))}
    (h : ∀ f ∈ fs, ∀ ps, Leads ps (f.2 ps) (f.1 ps).2) (ps : ParseState) :
    Leads ps (ps.course fs) (ps.stages (fs.map Prod.fst)).2 := by
  induction fs generalizing ps with
  | nil => exact .nil ps
  | cons f fs ih =>
    obtain ⟨f, states⟩ := f
    have hstates := h (f, states) List.mem_cons_self ps
    rw [List.map_cons, course, stages]
    dsimp only at hstates ⊢
    generalize f ps = r at hstates ⊢
    obtain ⟨result, ps'⟩ := r
    cases result with
    | true => exact hstates.append (ih (fun f hf => h f (List.mem_cons_of_mem _ hf)) ps')
    | false => exact hstates.append (.nil _)

/-- The course of an assembly ends with its output. -/
theorem assemblyCourse_leads (src : Text) (name : Option Text) : ∃ ps : ParseState,
    ParseState.Leads (ParseState.start name) (assemblyCourse src name) ps ∧
      (pioAsmAssemble src name).2 = ps.ctx.out := by
  refine ⟨_, ParseState.course_leads (fun f hf ps => ?_) _, rfl⟩
  simp only [List.mem_cons, List.not_mem_nil, or_false] at hf
  rcases hf with rfl | rfl | rfl | rfl | rfl
  · exact ParseState.passCourse_leads .scan src ps
  · exact ParseState.passCourse_leads .config src ps
  · exact .cons (fun e he => (finishConfig_ends ps).reports.stays he) (.nil _)
  · exact ParseState.passCourse_leads .emit src ps
  · exact .cons (fun e he => (exportLabels_ends ps).reports.stays he) (.nil _)

/-- The result says whether there is an error; the error is the first one that was set, that of the
first line or stage of the assembly behind which there is one, whatever fails behind it; and a
program that assembles is within its bounds. -/
theorem assembly_ends_as_reported (src : Text) (name : Option Text) :
    let r := pioAsmAssemble src name
    (r.1 = false ↔ r.2.ok = false) ∧
    (r.1 = false → r.2.error ≠ "") ∧
    (((assemblyCourse src name).getLastD (.start name)).ctx.out = r.2 ∧
      r.2.failure = ((assemblyCourse src name).find? fun ps => !ps.ctx.out.ok).bind fun ps =>
        ps.ctx.out.failure) ∧
    (∀ (ctx : AsmCtx) (msg : String), ctx.out.ok = true →
      (ctx.setError msg).out.failure = some (ctx.lineNo, msg)) ∧
    (∀ (α : Type) (x : Step α) (ctx : AsmCtx) (msg : String) (e : ℕ × String),
      (x ctx).2.out.failure = some e → (x.orError msg ctx).2.out.failure = some e) ∧
    (∀ (ctx : AsmCtx) (e : ℕ × String), ctx.out.failure = some e →
      (∀ msg, (ctx.setError msg).out.failure = some e) ∧
      (∀ s, (ctx.resolveUint s).2.out.failure = some e) ∧
      (∀ tok, (assembleInsn tok ctx).2.out.failure = some e) ∧
      (∀ args, (wordValue args ctx).2.out.failure = some e) ∧
      ∀ kind args, (configDirective kind args ctx).2.out.failure = some e) ∧
    (∀ (ps : ParseState) (e : ℕ × String), ps.ctx.out.failure = some e →
      (∀ line, (ps.processLine line).2.ctx.out.failure = some e) ∧
      (∀ pass, (ps.runPass pass src).2.ctx.out.failure = some e) ∧
      ps.finishConfig.2.ctx.out.failure = some e ∧
      ps.exportLabels.2.ctx.out.failure = some e) ∧
    (∀ (ps : ParseState) (e : ℕ × String) (n : ℕ) (pre post : List Text),
      (runLines n ps pre).2.ctx.out.failure = some e →
        (runLines n ps (pre ++ post)).2.ctx.out.failure = some e) ∧
    (r.1 = true → r.2.InBounds) := by
  obtain ⟨ps, hout, hends⟩ := pioAsmAssemble_ends src name
  dsimp only
  rw [hout]
  have hok : (pioAsmAssemble src name).1 = true → ps.ctx.out.ok = true :=
    fun h => Program.failure_eq_none_iff.mp (hends.done h).1
  refine ⟨⟨?_, ?_⟩, ?_, ?_, ?_, ?_, ?_, ?_, ?_, fun h => (hends.done h).2⟩
  · intro hfalse
    exact hends.failed fun htrue => by rw [hfalse] at htrue; cases htrue
  · intro hfalse
    rw [← Bool.not_eq_true]
    intro htrue
    rw [hok htrue] at hfalse
    cases hfalse
  · intro hfalse
    have hnot := hends.failed fun htrue => by rw [hfalse] at htrue; cases htrue
    rcases hends.reports with hsame | ⟨-, l, m, hnew, hm⟩
    · rw [Program.failure_eq_none_iff.mp (hsame.trans rfl)] at hnot
      cases hnot
    · unfold Program.failure at hnew
      rw [hnot] at hnew
      obtain ⟨-, rfl⟩ := Prod.mk.inj (Option.some.inj hnew)
      exact hm
  · obtain ⟨ps', hleads, hout'⟩ := assemblyCourse_leads src name
    have hfailing : (fun ps : ParseState => !ps.ctx.out.ok) = fun ps =>
        ps.ctx.out.failure.isSome := by
      funext ps
      unfold Program.failure
      cases ps.ctx.out.ok <;> rfl
    rw [← hout, hout', hleads.last, hfailing]
    exact ⟨rfl, hleads.first rfl⟩
  · intro ctx msg hctx
    rw [AsmCtx.setError, if_pos hctx]
    rfl
  · intro α x ctx msg e he
    exact Step.orError_keeps he
  · intro ctx e he
    refine ⟨?_, ?_, ?_, ?_, ?_⟩
    · intro msg
      rwa [AsmCtx.setError_of_failed he]
    · exact fun s => (ctx.resolveUint_reports s).stays he
    · exact fun tok => ((built_assembleInsn tok).clean _ |>.reports ctx rfl).stays he
    · exact fun args => ((built_wordValue args).clean _ |>.reports ctx rfl).stays he
    · exact fun kind args => ((configures_configDirective kind args _).reports ctx rfl).stays he
  · intro ps e he
    refine ⟨?_, ?_, ?_, ?_⟩
    · exact fun line => (processLine_ends .scan ps line).reports.stays he
    · exact fun pass => (runPass_ends ps pass src).reports.stays he
    · exact (finishConfig_ends ps).reports.stays he
    · exact (exportLabels_ends ps).reports.stays he
  · exact fun ps e n pre post he => runLines_keeps pre post n ps he

end Assembly

end PioSim.Asm

namespace PioSim.Asm

local instance circularPlatform : Platform := ⟨.rp2350⟩

def circular : Text := ['.', 'p', 'r', 'o', 'g', 'r', 'a', 'm', '\n',
  '.', 'd', 'e', 'f', 'i', 'n', 'e', ' ', 'A', ' ', 'A', '\n', 's', 'e', 't', ' ', 'x', ',', 'A']

/-- It is found out inside the operand that uses it, and the error that this line sets is that of
the assembly. -/
theorem assembly_ends_as_reported_circular :
    (pioAsmAssemble circular none).2.error ≠ "" ∧
      (((assemblyCourse circular none).find? fun ps => !ps.ctx.out.ok).bind
        fun ps => ps.ctx.out.failure) =
        some (2, "circular .define reference: 'A'") := by
  have hends := assembly_ends_as_reported circular none
  have hfailed : (pioAsmAssemble circular none).1 = false := by decide +kernel
  have hfailure : (pioAsmAssemble circular none).2.failure =
      some (2, "circular .define reference: 'A'") := by
    decide +kernel
  exact ⟨hends.2.1 hfailed, hends.2.2.1.2.symm.trans hfailure⟩

end PioSim.Asm
