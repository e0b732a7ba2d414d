import PioSim.Asm.Arrangement

/-!
# The emit pass does not see what has been evaluated

Two states over the same table and the same program may differ in the values their defines remember.
The emit pass gives the same words from both: what a step returns depends on the table and the
program only.
-/

namespace PioSim.Asm
namespace ParseState

/-- Two states over the same table and the same program. -/
structure Twin (t : Table) (p : Program) (ps ps' : ParseState) : Prop where
  left : ps.ctx.Over t p
  right : ps'.ctx.Over t p
  rest : ps' = { ps with ctx := ps'.ctx }

/-- Two results alike, and states of two that went well. -/
def TwinResults (r r' : LineResult × ParseState) : Prop :=
  r.1 = r'.1 ∧ (r.1 ≠ .error → ∃ t p, Twin t p r.2 r'.2)

/-- Two passes alike, and states of two that went well. -/
def TwinPasses (r r' : Bool × ParseState) : Prop :=
  r.1 = r'.1 ∧ (r.1 = true → ∃ t p, Twin t p r.2 r'.2)

variable {t : Table} {p : Program} {ps ps' : ParseState}

theorem Twin.pass (h : Twin t p ps ps') : ps'.pass = ps.pass := by rw [h.rest]

theorem Twin.results (h : Twin t p ps ps') (r : LineResult) : TwinResults (r, ps) (r, ps') :=
  ⟨rfl, fun _ => ⟨t, p, h⟩⟩

theorem Twin.fail (msg : String) : TwinResults (ps.fail msg) (ps'.fail msg) :=
  ⟨rfl, fun h => absurd rfl h⟩

theorem Twin.write (h : Twin t p ps ps') (g : Program → Program) (n : ℕ) :
    Twin t (g p) { ps with ctx := { ps.ctx with out := g ps.ctx.out, lineNo := n } }
      { ps' with ctx := { ps'.ctx with out := g ps'.ctx.out, lineNo := n } } where
  left := ⟨h.left.settled.write _ _, h.left.table, congrArg g h.left.out⟩
  right := ⟨h.right.settled.write _ _, h.right.table, congrArg g h.right.out⟩
  rest := by rw [h.rest]

theorem Twin.atLine (h : Twin t p ps ps') (n : ℕ) : Twin t p (ps.atLine n) (ps'.atLine n) :=
  h.write id n

theorem Twin.run (h : Twin t p ps ps') {α : Type} {x : Step α} (hx : x.Steady)
    {k : α → ParseState → LineResult × ParseState}
    (hk : ∀ a ps ps', Twin t p ps ps' → TwinResults (k a ps) (k a ps')) :
    TwinResults (ps.run x k) (ps'.run x k) := by
  have hfst := hx.congr h.left h.right
  have hleft := fun hsome => hx.over h.left hsome
  have hright := fun hsome => hx.over h.right hsome
  unfold ParseState.run
  generalize x ps.ctx = r at hfst hleft ⊢
  generalize x ps'.ctx = r' at hfst hright ⊢
  obtain ⟨o, ctx⟩ := r
  obtain ⟨o', ctx'⟩ := r'
  obtain rfl : o = o' := hfst
  cases o with
  | none => exact ⟨rfl, fun h => absurd rfl h⟩
  | some a =>
    refine hk a _ _ ⟨hleft rfl, hright rfl, ?_⟩
    rw [h.rest]

/-- A word emitted at the present index. -/
theorem Twin.word (h : Twin t p ps ps') {x : Step Insn} (hx : x.Steady) :
    TwinResults (ps.run x fun w ps => (.ok, { ps.emit w with idx := ps.idx + 1 }))
      (ps'.run x fun w ps => (.ok, { ps.emit w with idx := ps.idx + 1 })) := by
  refine h.run hx fun w ps ps' h => ?_
  have hidx : ps'.idx = ps.idx := by
    rw [h.rest]
  have hemit := h.write (fun out => { out with
    insns := fun i => if i.val = ps.idx then w else out.insns i }) ps.ctx.lineNo
  refine ⟨rfl, fun _ => ⟨t, _, hemit.left, ?_, ?_⟩⟩
  · unfold emit
    rw [hidx]
    exact ⟨h.right.settled.write _ _, h.right.table, by rw [h.right.out]⟩
  · unfold emit
    rw [h.rest]

theorem Twin.programDirective (h : Twin t p ps ps') (hemit : ps.pass = .emit) (args : List Text) :
    TwinResults (ps.programDirective args) (ps'.programDirective args) := by
  obtain ⟨hleft, hright, hrest⟩ := h
  unfold ParseState.programDirective
  rw [hrest]
  dsimp only
  split
  · exact ⟨rfl, fun _ => ⟨t, p, hleft, hright, rfl⟩⟩
  · cases args with
    | nil => exact ⟨rfl, fun _ => ⟨t, p, hleft, hright, rfl⟩⟩
    | cons s rest =>
      simp only [hemit, reduceCtorEq, decide_false, Bool.and_false, Bool.false_eq_true, if_false]
      exact ⟨rfl, fun _ => ⟨t, p, hleft, hright, rfl⟩⟩

theorem Twin.wordDirective (h : Twin t p ps ps') (hemit : ps.pass = .emit) (args : List Text) :
    TwinResults (ps.wordDirective args) (ps'.wordDirective args) := by
  have hword := h.word (built_wordValue args).steady
  obtain ⟨hleft, hright, hrest⟩ := h
  unfold ParseState.wordDirective
  rw [hrest] at hword ⊢
  dsimp only
  rw [if_pos hemit, if_pos hemit]
  split
  · exact ⟨rfl, fun h => absurd rfl h⟩
  · exact hword

section Version
variable [Platform]

theorem Twin.handleDirective (h : Twin t p ps ps') (hemit : ps.pass = .emit) (line : Text) :
    TwinResults (ps.handleDirective line) (ps'.handleDirective line) := by
  have hemit' : ps'.pass = .emit := h.pass.trans hemit
  have hin : ps'.inProgram = ps.inProgram := by
    rw [h.rest]
  unfold ParseState.handleDirective
  generalize tokenize line maxTokens = r
  obtain ⟨tok, truncated⟩ := r
  rw [hemit, hemit', hin]
  dsimp only
  split
  · exact Twin.fail _
  cases tok with
  | nil => exact h.results .ok
  | cons s args =>
    dsimp only
    split
    · exact h.programDirective hemit args
    split
    · exact h.results .ok
    split
    · exact h.results .ok
    split
    · exact h.results .ok
    split
    · exact h.results .ok
    split
    · exact h.wordDirective hemit args
    · exact h.results .ok

omit [Platform] in
/-- After the scan a label is only taken off its line. -/
theorem handleLabel_skips (line : Text) :
    ∃ rest, ∀ ps : ParseState, ps.pass ≠ .scan → ps.handleLabel line = (rest, ps) := by
  unfold handleLabel
  generalize stripPublic line = r
  obtain ⟨line, isPublic⟩ := r
  dsimp only
  split
  · exact ⟨_, fun ps hpass => by rw [if_neg hpass]⟩
  · exact ⟨_, fun _ _ => rfl⟩

theorem Twin.handleInstruction (h : Twin t p ps ps') (hemit : ps.pass = .emit) (line : Text) :
    TwinResults (ps.handleInstruction line) (ps'.handleInstruction line) := by
  have hidx : ps'.idx = ps.idx := by
    rw [h.rest]
  unfold ParseState.handleInstruction
  rw [if_pos hemit, if_pos (h.pass.trans hemit), hidx]
  split
  · exact Twin.fail _
  generalize tokenize line maxTokens = r
  obtain ⟨tok, truncated⟩ := r
  dsimp only
  split
  · exact Twin.fail _
  split
  · exact Twin.fail _
  · exact h.word (built_assembleInsn tok).steady

theorem Twin.handleCode (h : Twin t p ps ps') (hemit : ps.pass = .emit) (line : Text) :
    TwinResults (ps.handleCode line) (ps'.handleCode line) := by
  have hin : ps'.inProgram = ps.inProgram := by
    rw [h.rest]
  have hscan : ps.pass ≠ .scan := by
    rw [hemit]
    decide
  obtain ⟨rest, hlabel⟩ := handleLabel_skips line
  unfold ParseState.handleCode
  rw [hlabel ps hscan, hlabel ps' (by rwa [h.pass]), hin]
  split
  · exact h.handleDirective hemit line
  split
  · exact h.results .ok
  dsimp only
  rw [h.left.out, h.right.out]
  split
  · exact h.results .error
  cases rest with
  | none => exact h.results .ok
  | some rest => exact h.handleInstruction hemit rest

/-- The emit pass over a listing, from two states that differ in what has been evaluated. -/
theorem twin_runListing : ∀ (lines : List Line) (n : ℕ) (t : Table) (p : Program)
    (ps ps' : ParseState), Twin t p ps ps' → ps.pass = .emit →
    TwinPasses (runListing n ps lines) (runListing n ps' lines) := by
  intro lines
  induction lines with
  | nil => exact fun n t p ps ps' h _ => ⟨rfl, fun _ => ⟨t, p, h⟩⟩
  | cons l rest ih =>
    intro n t p ps ps' h hemit
    have hnext := h.atLine n
    cases l with
    | verbatim => exact ih (n + 1) t p _ _ hnext hemit
    | code line =>
      rw [runListing, runListing]
      split
      · exact ih (n + 1) t p _ _ hnext hemit
      have hcode := hnext.handleCode hemit line
      have hpass := pass_handleCode (ps.atLine n) line
      generalize (ps.atLine n).handleCode line = r at hcode hpass ⊢
      generalize (ps'.atLine n).handleCode line = r' at hcode ⊢
      obtain ⟨result, q⟩ := r
      obtain ⟨result', q'⟩ := r'
      obtain ⟨rfl, htwin⟩ := hcode
      cases result with
      | error => exact ⟨rfl, fun h => absurd h Bool.false_ne_true⟩
      | done => exact ⟨rfl, fun _ => htwin fun h => LineResult.noConfusion h⟩
      | ok =>
        obtain ⟨t', p', h'⟩ := htwin fun h => LineResult.noConfusion h
        exact ih (n + 1) t' p' q q' h' (Eq.trans hpass hemit)

theorem twin_runOver (h : Twin t p ps ps') (lines : List Line) :
    TwinPasses (ps.runOver .emit lines) (ps'.runOver .emit lines) := by
  refine twin_runListing lines 1 t p _ _ ⟨h.left, h.right, ?_⟩ rfl
  rw [h.rest]
  rfl

omit [Platform] in
theorem twin_finishConfig (h : Twin t p ps ps') : TwinPasses ps.finishConfig ps'.finishConfig := by
  have hidx : ps'.idx = ps.idx := by
    rw [h.rest]
  have hwritten := h.write (fun out => { out with
    count := ps.idx, wrapTop := if out.wrapTop = 255 then ps.idx - 1 else out.wrapTop })
      ps.ctx.lineNo
  unfold finishConfig
  rw [hidx, h.right.out, h.left.out]
  dsimp only
  split
  · exact ⟨rfl, fun h => absurd h Bool.false_ne_true⟩
  split
  · exact ⟨rfl, fun h => absurd h Bool.false_ne_true⟩
  · refine ⟨rfl, fun _ => ⟨t, _, ?_, ⟨h.right.settled.write _ _, h.right.table, rfl⟩, ?_⟩⟩
    · exact ⟨h.left.settled.write _ _, h.left.table, rfl⟩
    · rw [h.rest]

omit [Platform] in
theorem twin_exportLabels (h : Twin t p ps ps') : TwinPasses ps.exportLabels ps'.exportLabels := by
  have hlabels : ps'.ctx.labels = ps.ctx.labels :=
    congrArg Table.labels (h.right.table.trans h.left.table.symm)
  unfold exportLabels
  rw [hlabels, h.right.out, h.left.out]
  dsimp only
  split
  · exact ⟨rfl, fun h => absurd h Bool.false_ne_true⟩
  · refine ⟨rfl, fun _ => ⟨t, _, ?_, ⟨h.right.settled.write _ _, h.right.table, rfl⟩, ?_⟩⟩
    · exact ⟨h.left.settled.write _ _, h.left.table, rfl⟩
    · rw [h.rest]

end Version
end ParseState

end PioSim.Asm
