import PioSim.Asm.Built

/-!
# What the passes carry along

The first pass reaches the context through declarations only, the others through evaluations and
through the output; the first failure ends a pass. So what survives a success of those, and what is
left of it at a failure, is what a pass leaves.
-/

namespace PioSim.Asm

/-- A property `I` of contexts that nothing a pass does loses as long as it succeeds, and what is
left of it with a failure. -/
structure Carried (pass : Pass) (I J : AsmCtx → Prop) : Prop where
  left : ∀ ctx, I ctx → J ctx
  line : ∀ ctx n, I ctx → I { ctx with lineNo := n }
  error : ∀ ctx n msg, I ctx →
    I { ctx with out := { ctx.out with ok := false, errorLine := n, error := msg } }
  error_left : ∀ ctx n msg, J ctx →
    J { ctx with out := { ctx.out with ok := false, errorLine := n, error := msg } }
  write : pass ≠ .scan → ∀ ctx out, I ctx → I { ctx with out := out }
  resolveUint : pass ≠ .scan → ∀ ctx s, I ctx →
    J (ctx.resolveUint s).2 ∧ ((ctx.resolveUint s).1.isSome = true → I (ctx.resolveUint s).2)
  define : pass = .scan → ∀ ctx name expr ctx', ctx.declareDefine name expr = some ctx' →
    I ctx → I ctx'
  label : pass = .scan → ∀ ctx l, I ctx → I { ctx with labels := ctx.labels ++ [l] }

/-- The step keeps the property where it succeeds, and leaves what is left of it where it fails. -/
def Step.Carries {α : Type} (I J : AsmCtx → Prop) (x : Step α) : Prop :=
  ∀ ctx, I ctx → J (x ctx).2 ∧ ((x ctx).1.isSome = true → I (x ctx).2)

namespace Carried

variable {I J : AsmCtx → Prop} {pass : Pass} (h : Carried pass I J)

theorem trivially (pass : Pass) : Carried pass (fun _ => True) fun _ => True where
  left _ h := h
  line _ _ h := h
  error _ _ _ h := h
  error_left _ _ _ h := h
  write _ _ _ h := h
  resolveUint _ _ _ _ := ⟨trivial, fun _ => trivial⟩
  define _ _ _ _ _ _ _ := trivial
  label _ _ _ _ := trivial

include h in
theorem setError {ctx : AsmCtx} (hctx : I ctx) (msg : String) : I (ctx.setError msg) := by
  unfold AsmCtx.setError
  split
  · exact h.error ctx _ _ hctx
  · exact hctx

include h in
theorem setError_left {ctx : AsmCtx} (hctx : J ctx) (msg : String) : J (ctx.setError msg) := by
  unfold AsmCtx.setError
  split
  · exact h.error_left ctx _ _ hctx
  · exact hctx

/-! ### Steps -/

section Steps
variable {α β : Type} {x : Step α} {f : α → Step β} {msg : String}

open Step

theorem bind (hx : Carries I J x) (hf : ∀ a, Carries I J (f a)) : Carries I J (x >>= f) := by
  intro ctx hctx
  obtain ⟨hleft, hafter⟩ := hx ctx hctx
  cases hres : (x ctx).1 with
  | none =>
    rw [bind_none_snd hres, bind_none hres]
    exact ⟨hleft, fun hsome => by cases hsome⟩
  | some a =>
    rw [bind_some hres]
    exact hf a _ (hafter (by rw [hres]; rfl))

include h

theorem pure (a : α) : Carries I J (pure a) := fun ctx hctx => ⟨h.left ctx hctx, fun _ => hctx⟩

theorem out : Carries I J out := fun ctx hctx => ⟨h.left ctx hctx, fun _ => hctx⟩

theorem fail : Carries I J (fail : Step α) := fun ctx hctx => ⟨h.left ctx hctx, fun _ => hctx⟩

theorem errorStep : Carries I J (Step.error msg : Step α) :=
  fun _ hctx => ⟨h.left _ (h.setError hctx msg), fun _ => h.setError hctx msg⟩

theorem modifyOut (hpass : pass ≠ .scan) (g : Program → Program) : Carries I J (modifyOut g) :=
  fun ctx hctx =>
  have hafter := h.write hpass ctx (g ctx.out) hctx
  ⟨h.left _ hafter, fun _ => hafter⟩

theorem orError (hx : Carries I J x) : Carries I J (x.orError msg) := by
  intro ctx hctx
  obtain ⟨hleft, hafter⟩ := hx ctx hctx
  cases hres : (x ctx).1 with
  | none =>
    rw [orError_none hres, orError_fst, hres]
    exact ⟨h.setError_left hleft msg, fun hsome => by cases hsome⟩
  | some a =>
    rw [orError_some hres]
    exact ⟨hleft, hafter⟩

theorem resolve (hpass : pass ≠ .scan) (s : Text) : Carries I J (Step.resolveUint s) :=
  fun ctx hctx => h.resolveUint hpass ctx s hctx

theorem resolveJoin (hpass : pass ≠ .scan) (tok : List Text) :
    Carries I J (resolveUintJoin tok) := by
  unfold Step.resolveUintJoin AsmCtx.resolveUintJoin
  cases joinTokens tok with
  | none => exact h.fail
  | some s => exact h.resolve hpass s

theorem made (hpass : pass ≠ .scan) (hx : Made x) : Carries I J x := by
  induction hx with
  | pure a => exact h.pure a
  | error => exact h.errorStep
  | fail => exact h.fail
  | out => exact h.out
  | modifyOut g => exact h.modifyOut hpass g
  | resolveUint s => exact h.resolve hpass s
  | resolveUintJoin tok => exact h.resolveJoin hpass tok
  | orError _ ih => exact h.orError ih
  | bind _ _ ihx ihf => exact bind ihx ihf

end Steps

/-! ### Lines -/

/-- In the pass, for the program of the name, with the property. -/
structure On (pass : Pass) (name : Option Text) (I : AsmCtx → Prop) (ps : ParseState) : Prop where
  pass_eq : ps.pass = pass
  name_eq : ps.name = name
  ctx : I ps.ctx

/-- A part of a pass ends in the pass, with the property if it succeeds and with what is left of it
if not. -/
structure Ends (pass : Pass) (name : Option Text) (I J : AsmCtx → Prop) (success : Prop)
    (ps : ParseState) : Prop where
  left : On pass name J ps
  done : success → I ps.ctx

section Lines
variable {ps : ParseState} {name : Option Text} {success : Prop}
include h

theorem ends (hon : On pass name I ps) : Ends pass name I J success ps :=
  ⟨⟨hon.pass_eq, hon.name_eq, h.left _ hon.ctx⟩, fun _ => hon.ctx⟩

theorem refused (hon : On pass name I ps) (msg : String) : On pass name I (ps.fail msg).2 :=
  ⟨hon.pass_eq, hon.name_eq, h.setError hon.ctx msg⟩

theorem written (hconfig : ps.pass = .config) (hon : On pass name I ps) (out : Program) :
    On pass name I { ps with ctx := { ps.ctx with out := out } } := by
  refine ⟨hon.pass_eq, hon.name_eq, h.write ?_ ps.ctx out hon.ctx⟩
  rw [← hon.pass_eq, hconfig]
  decide

omit h in
theorem run {α : Type} {x : Step α} (hx : Step.Carries I J x) (hon : On pass name I ps)
    {k : α → ParseState → LineResult × ParseState}
    (hk : ∀ a ps', On pass name I ps' → Ends pass name I J ((k a ps').1 ≠ .error) (k a ps').2) :
    Ends pass name I J ((ps.run x k).1 ≠ .error) (ps.run x k).2 := by
  obtain ⟨hleft, hafter⟩ := hx ps.ctx hon.ctx
  unfold ParseState.run
  generalize x ps.ctx = r at hleft hafter ⊢
  obtain ⟨_ | a, ctx⟩ := r
  · exact ⟨⟨hon.pass_eq, hon.name_eq, hleft⟩, fun hne => absurd rfl hne⟩
  · exact hk a _ ⟨hon.pass_eq, hon.name_eq, hafter rfl⟩

theorem programDirective (hon : On pass name I ps) (args : List Text) :
    On pass name I (ps.programDirective args).2 := by
  unfold ParseState.programDirective
  split
  · exact hon
  cases args with
  | nil => exact ⟨hon.pass_eq, hon.name_eq, hon.ctx⟩
  | cons t ts =>
    dsimp only
    generalize hnamed : (_ && decide (ps.pass = .config)) = named
    cases named with
    | false => exact ⟨hon.pass_eq, hon.name_eq, hon.ctx⟩
    | true =>
      have hconfig : ps.pass = .config := of_decide_eq_true (Bool.and_eq_true_iff.mp hnamed).2
      exact ⟨hon.pass_eq, hon.name_eq,
        (h.written hconfig hon { ps.ctx.out with name := t.take 31 }).ctx⟩

theorem defineDirective (hscan : pass = .scan) (hon : On pass name I ps) (args : List Text) :
    On pass name I (ps.defineDirective args).2 := by
  unfold ParseState.defineDirective
  dsimp only
  generalize (!_ && ps.seenAnyProgram && !ps.inProgram) = skipped
  generalize @ite _ _ (instDecidableEqBool _ true) (args.drop 1) args = rest
  split
  · exact hon
  cases rest with
  | nil => exact h.refused hon _
  | cons name value =>
    dsimp only
    cases joinTokens value with
    | none => exact h.refused hon _
    | some expr =>
      dsimp only
      split
      · exact h.refused hon _
      split
      · exact h.refused hon _
      split
      · exact h.refused hon _
      cases hctx : ps.ctx.declareDefine name expr with
      | none => exact h.refused hon _
      | some ctx => exact ⟨hon.pass_eq, hon.name_eq, h.define hscan _ _ _ _ hctx hon.ctx⟩

theorem wrapDirective (hconfig : ps.pass = .config) (hon : On pass name I ps) :
    On pass name I ps.wrapDirective.2 := by
  unfold ParseState.wrapDirective
  split_ifs
  · exact h.refused hon _
  · exact h.refused hon _
  · exact h.written hconfig hon _

/-- A word that a step gives. -/
theorem word {x : Step Insn} (hx : Step.Built x) (hemit : ps.pass = .emit)
    (hon : On pass name I ps) :
    let r := ps.run x fun w ps => (.ok, { ps.emit w with idx := ps.idx + 1 })
    Ends pass name I J (r.1 ≠ .error) r.2 := by
  have hpass : pass ≠ .scan := by
    rw [← hon.pass_eq, hemit]
    decide
  refine run (h.made hpass hx.made) hon fun w ps' hon' => h.ends ?_
  exact ⟨hon'.pass_eq, hon'.name_eq, h.write hpass ps'.ctx _ hon'.ctx⟩

theorem wordDirective (hon : On pass name I ps) (args : List Text) :
    Ends pass name I J ((ps.wordDirective args).1 ≠ .error) (ps.wordDirective args).2 := by
  unfold ParseState.wordDirective
  split
  · exact h.ends (h.refused hon _)
  split
  · rename_i hemit
    exact h.word (built_wordValue args) hemit hon
  · exact h.ends ⟨hon.pass_eq, hon.name_eq, hon.ctx⟩

theorem declareLabel (hscan : pass = .scan) (hon : On pass name I ps) (label : Text)
    (isPublic : Bool) :
    On pass name I (ps.declareLabel label isPublic) := by
  unfold ParseState.declareLabel
  dsimp only
  split
  · exact h.refused hon _
  split
  · exact h.refused hon _
  split
  · exact h.refused hon _
  split
  · exact h.refused hon _
  split
  · exact h.refused hon _
  · exact ⟨hon.pass_eq, hon.name_eq, h.label hscan _ _ hon.ctx⟩

theorem handleLabel (hon : On pass name I ps) (line : Text) :
    On pass name I (ps.handleLabel line).2 := by
  unfold ParseState.handleLabel
  generalize ParseState.stripPublic line = r
  obtain ⟨line, isPublic⟩ := r
  dsimp only
  split
  · dsimp only
    split
    · rename_i hscan
      exact h.declareLabel (hon.pass_eq.symm.trans hscan) hon _ _
    · exact hon
  · exact hon

variable [Platform]

theorem handleDirective (hon : On pass name I ps) (line : Text) :
    Ends pass name I J ((ps.handleDirective line).1 ≠ .error) (ps.handleDirective line).2 := by
  unfold ParseState.handleDirective
  generalize tokenize line maxTokens = r
  obtain ⟨tok, truncated⟩ := r
  dsimp only
  split
  · exact h.ends (h.refused hon _)
  cases tok with
  | nil => exact h.ends hon
  | cons t args =>
    dsimp only
    split
    · exact h.ends (h.programDirective hon args)
    split
    · split
      · rename_i hscan
        exact h.ends (h.defineDirective (hon.pass_eq.symm.trans hscan) hon args)
      · exact h.ends hon
    split
    · exact h.ends hon
    split
    · split
      · rename_i hconfig
        exact h.ends (h.written hconfig hon _)
      · exact h.ends hon
    split
    · split
      · rename_i hconfig
        exact h.ends (h.wrapDirective hconfig hon)
      · exact h.ends hon
    split
    · exact h.wordDirective hon args
    split
    · exact h.ends hon
    rename_i hconfig
    have hpass : pass ≠ .scan := by
      rw [← hon.pass_eq, not_not.mp hconfig]
      decide
    cases configKind t with
    | none => exact h.ends hon
    | some kind => exact run (h.made hpass (made_configDirective kind args)) hon fun _ _
        hon' => h.ends hon'

theorem handleInstruction (hon : On pass name I ps) (line : Text) :
    Ends pass name I J ((ps.handleInstruction line).1 ≠ .error) (ps.handleInstruction line).2 := by
  unfold ParseState.handleInstruction
  split
  · exact h.ends (h.refused hon _)
  split
  · rename_i hemit
    generalize tokenize line maxTokens = r
    obtain ⟨tok, truncated⟩ := r
    dsimp only
    split
    · exact h.ends (h.refused hon _)
    split
    · exact h.ends (h.refused hon _)
    · exact h.word (built_assembleInsn tok) hemit hon
  · exact h.ends ⟨hon.pass_eq, hon.name_eq, hon.ctx⟩

theorem processLine (hon : On pass name I ps) (line : Text) :
    Ends pass name I J ((ps.processLine line).1 ≠ .error) (ps.processLine line).2 := by
  unfold ParseState.processLine
  split
  · split
    · exact h.ends ⟨hon.pass_eq, hon.name_eq, hon.ctx⟩
    · exact h.ends hon
  split
  · exact h.ends ⟨hon.pass_eq, hon.name_eq, hon.ctx⟩
  split
  · exact h.handleDirective hon line
  split
  · exact h.ends hon
  have hlabel := h.handleLabel hon line
  generalize ps.handleLabel line = r at hlabel ⊢
  obtain ⟨rest, ps'⟩ := r
  dsimp only
  split
  · exact h.ends hlabel
  cases rest with
  | none => exact h.ends hlabel
  | some rest => exact h.handleInstruction hlabel rest

/-! ### Passes -/

omit [Platform] in
theorem nextLine (hon : On pass name I ps) (n : ℕ) (physical : Text) :
    On pass name I (ps.nextLine n physical).2 := by
  unfold ParseState.nextLine
  dsimp only
  split
  · exact ⟨hon.pass_eq, hon.name_eq, h.line ps.ctx n hon.ctx⟩
  · exact ⟨hon.pass_eq, hon.name_eq, h.line ps.ctx n hon.ctx⟩

theorem runLines : ∀ (lines : List Text) (n : ℕ) (ps : ParseState), On pass name I ps →
    Ends pass name I J ((ParseState.runLines n ps lines).1 = true)
    (ParseState.runLines n ps lines).2 := by
  intro lines
  induction lines with
  | nil => exact fun n ps hon => h.ends hon
  | cons physical rest ih =>
    intro n ps hon
    unfold ParseState.runLines
    have hnext := h.nextLine hon n physical
    generalize ps.nextLine n physical = r at hnext ⊢
    obtain ⟨line, ps'⟩ := r
    dsimp only
    split
    · exact ih _ _ hnext
    have hline := h.processLine hnext line
    generalize ps'.processLine line = r at hline ⊢
    obtain ⟨_ | _ | _, ps''⟩ := r
    · exact ih _ _ ⟨hline.left.pass_eq, hline.left.name_eq,
        hline.done fun hne => LineResult.noConfusion hne⟩
    · exact ⟨hline.left, fun _ => hline.done fun hne => LineResult.noConfusion hne⟩
    · exact ⟨hline.left, fun hfalse => absurd hfalse Bool.false_ne_true⟩

/-- What survives each step of a pass survives the pass. -/
theorem runPass (hctx : I ps.ctx) (src : Text) :
    J (ps.runPass pass src).2.ctx ∧
      ((ps.runPass pass src).1 = true → I (ps.runPass pass src).2.ctx) := by
  have hends := h.runLines (physicalLines src) 1 { ps with
    pass := pass, inProgram := false, inVerbatim := false, inBlockComment := false
    seenAnyProgram := false, idx := 0 } ⟨rfl, rfl, hctx⟩
  exact ⟨hends.left.ctx, hends.done⟩

omit h in
theorem name_runPass (ps : ParseState) (pass : Pass) (src : Text) :
    (ps.runPass pass src).2.name = ps.name := by
  have hends := (trivially pass).runLines (physicalLines src) 1 { ps with
    pass := pass, inProgram := false, inVerbatim := false, inBlockComment := false
    seenAnyProgram := false, idx := 0 } ⟨rfl, rfl, trivial⟩
  exact hends.left.name_eq

omit [Platform] in
theorem finishConfig (hpass : pass ≠ .scan) (hctx : I ps.ctx) : I ps.finishConfig.2.ctx := by
  unfold ParseState.finishConfig
  dsimp only
  have hwritten := h.write hpass ps.ctx { ps.ctx.out with
    count := ps.idx, wrapTop := if ps.ctx.out.wrapTop = 255 then ps.idx - 1
      else ps.ctx.out.wrapTop } hctx
  split
  · exact h.setError hwritten _
  split
  · exact h.setError hwritten _
  · exact hwritten

omit [Platform] in
theorem exportLabels (hpass : pass ≠ .scan) (hctx : I ps.ctx) : I ps.exportLabels.2.ctx := by
  have hwritten :=
    fun labels => h.write hpass ps.ctx { ps.ctx.out with publicLabels := labels } hctx
  unfold ParseState.exportLabels
  dsimp only
  split
  · exact h.setError (hwritten _) _
  · exact hwritten _

end Lines

/-! ### The stages -/

/-- Of the stages behind the scan, those done keep the property, and the one that fails leaves what
is left of it. -/
theorem throughStages {fs : List (ParseState → Bool × ParseState)}
    (hfs : ∀ f ∈ fs, ∀ ps : ParseState, I ps.ctx →
      J (f ps).2.ctx ∧ ((f ps).1 = true → I (f ps).2.ctx)) :
    ∀ ps : ParseState, I ps.ctx → J ps.ctx → J (ps.stages fs).2.ctx := by
  induction fs with
  | nil => exact fun ps _ hleft => hleft
  | cons f fs ih =>
    intro ps hctx hleft
    obtain ⟨hleft', hdone⟩ := hfs f List.mem_cons_self ps hctx
    rw [ParseState.stages]
    generalize f ps = r at hleft' hdone ⊢
    obtain ⟨success, ps'⟩ := r
    cases success with
    | true => exact ih (fun g hg => hfs g (List.mem_cons_of_mem _ hg)) ps' (hdone rfl) hleft'
    | false => exact hleft'

end Carried

end PioSim.Asm
