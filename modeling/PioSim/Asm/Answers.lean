import PioSim.Asm.Built

/-!
# What a step answers

A failure is a result, and it is in the output: `ok` is cleared with the first error and nothing
changes the error after that. `Reports` says what a part of the assembler may do to the error and
`Answers` that the failure of a step is in the output, with one rule for each way of building a
step. The encoders leave the program as it is, the configuration directives keep what they declare
in its range.
-/

namespace PioSim.Asm

/-! ### The error -/

namespace Program

/-- The line and the text of the error, if there is one. -/
def failure (p : Program) : Option (ℕ × String) :=
  if p.ok then none else some (p.errorLine, p.error)

theorem failure_eq_none_iff {p : Program} : p.failure = none ↔ p.ok = true := by
  unfold failure
  split <;> simp [*]

/-- From the one program to the other an error stays, and a new one has a text. -/
def Reports (p q : Program) : Prop :=
  q.failure = p.failure ∨ (p.ok = true ∧ ∃ l m, q.failure = some (l, m) ∧ m ≠ "")

theorem Reports.refl (p : Program) : Reports p p := .inl rfl

theorem Reports.trans {p q r : Program} (h : Reports p q) (h' : Reports q r) : Reports p r := by
  rcases h' with he | ⟨hok, hnew⟩
  · rcases h with he' | ⟨hok, l, m, hnew, hm⟩
    · exact .inl (he.trans he')
    · exact .inr ⟨hok, l, m, he.trans hnew, hm⟩
  · rcases h with he' | ⟨-, l, m, hfail, -⟩
    · exact .inr ⟨failure_eq_none_iff.mp (he'.symm.trans (failure_eq_none_iff.mpr hok)), hnew⟩
    · rw [failure_eq_none_iff.mpr hok] at hfail
      cases hfail

/-- An error stays the same. -/
theorem Reports.stays {p q : Program} (h : Reports p q) {e : ℕ × String} (he : p.failure = some e) :
    q.failure = some e := by
  rcases h with hsame | ⟨hok, -⟩
  · rw [hsame, he]
  · rw [failure_eq_none_iff.mpr hok] at he
    cases he

theorem Reports.of_eq {p q : Program} (h : q.failure = p.failure) : Reports p q := .inl h

end Program

namespace AsmCtx

variable {ctx : AsmCtx} {msg : String}

theorem setError_ok (ctx : AsmCtx) (msg : String) : (ctx.setError msg).out.ok = false := by
  unfold setError
  split
  · rfl
  · rename_i h
    exact (Bool.not_eq_true _).mp h

theorem setError_reports (ctx : AsmCtx) (hmsg : msg ≠ "") :
    ctx.out.Reports (ctx.setError msg).out := by
  unfold setError
  split
  · rename_i h
    exact .inr ⟨h, ctx.lineNo, msg, rfl, hmsg⟩
  · exact .refl _

/-- A later error changes nothing. -/
theorem setError_of_failed {e : ℕ × String} (he : ctx.out.failure = some e) (msg : String) :
    ctx.setError msg = ctx := by
  unfold setError
  split
  · rename_i hok
    rw [Program.failure_eq_none_iff.mpr hok] at he
    cases he
  · rfl

/-! ### Resolving a symbol -/

/-- An expression reports as much as its symbols do. -/
theorem resolveUintWith_reports {look : AsmCtx → Text → Option Word × AsmCtx} {p : Program}
    (h : ∀ (c : AsmCtx) (id : Text), p.Reports c.out → p.Reports (look c id).2.out) (ctx : AsmCtx)
    (hctx : p.Reports ctx.out) (s : Text) : p.Reports (resolveUintWith look ctx s).2.out :=
  exprValue_keeps (I := fun c : AsmCtx => p.Reports c.out) h hctx exprMaxDepth s

theorem lookSymbol_reports : ∀ (fuel : ℕ) (ctx : AsmCtx) (id : Text),
    ctx.out.Reports (lookSymbol fuel ctx id).2.out := by
  intro fuel
  induction fuel with
  | zero => exact fun ctx _ => .refl ctx.out
  | succ fuel ih =>
    intro ctx id
    rw [lookSymbol]
    cases ctx.findDefine id with
    | none => exact .refl ctx.out
    | some d =>
      dsimp only
      split
      · exact .refl ctx.out
      split
      · refine setError_reports { ctx with lineNo := d.line } ?_
        refine Step.append_ne (Step.append_ne ?_)
        decide
      have hvalue :=
        resolveUintWith_reports (fun c id' (hc : ctx.out.Reports c.out) => hc.trans (ih c id'))
        ((ctx.modifyDefine id fun d => { d with visiting := true }).noteDefine id)
          (.refl ctx.out) d.expr
      split
      · refine hvalue.trans (setError_reports _ (Step.append_ne (Step.append_ne ?_)))
        decide
      · exact hvalue

theorem resolveUint_reports (ctx : AsmCtx) (s : Text) : ctx.out.Reports (ctx.resolveUint s).2.out :=
  resolveUintWith_reports (fun c id hc => hc.trans (lookSymbol_reports _ c id)) ctx (.refl _) s

end AsmCtx

/-! ### Steps -/

namespace Step
variable {α β : Type} {told : Bool} {p : Program} {x : Step α} {f : α → Step β}
  {Q : α → Program → Prop} {Q' : β → Program → Prop} {msg : String}

/-- From the program the step keeps an error there is, a return of it sets none and leaves what is
told, and where `told` its failure is in the output. -/
structure Answers (told : Bool) (p : Program) (x : Step α) (Q : α → Program → Prop) : Prop where
  reports : ∀ ctx, ctx.out = p → p.Reports (x ctx).2.out
  done : ∀ ctx a, ctx.out = p → (x ctx).1 = some a →
    (x ctx).2.out.failure = p.failure ∧ Q a (x ctx).2.out
  failed : told = true → ∀ ctx, ctx.out = p → (x ctx).1 = none → (x ctx).2.out.ok = false

theorem Answers.pure {a : α} (h : Q a p) : Answers told p (pure a) Q where
  reports := by
    rintro ctx rfl
    exact .refl _
  done := by
    rintro ctx b rfl hb
    obtain rfl := Option.some.inj hb
    exact ⟨rfl, h⟩
  failed := by
    intro _ ctx _ hnone
    cases hnone

theorem Answers.error (hmsg : msg ≠ "") : Answers told p (error msg) Q where
  reports := by
    rintro ctx rfl
    exact ctx.setError_reports hmsg
  done := by
    intro ctx a _ ha
    cases ha
  failed := fun _ ctx _ _ => ctx.setError_ok msg

theorem Answers.fail : Answers false p (fail : Step α) Q where
  reports := by
    rintro ctx rfl
    exact .refl _
  done := by
    intro ctx a _ ha
    cases ha
  failed := by
    intro hfalse
    cases hfalse

theorem Answers.require {q : Prop} [Decidable q] {Q : Unit → Program → Prop} (hmsg : msg ≠ "")
    (h : q → Q () p) : Answers told p (require q msg) Q := by
  unfold Step.require
  split
  · rename_i hq
    exact .pure (h hq)
  · exact .error hmsg

theorem Answers.out {Q : Program → Program → Prop} (h : Q p p) : Answers told p out Q where
  reports := by
    rintro ctx rfl
    exact .refl _
  done := by
    rintro ctx a rfl ha
    obtain rfl := Option.some.inj ha
    exact ⟨rfl, h⟩
  failed := by
    intro _ ctx _ hnone
    cases hnone

theorem Answers.modifyOut {g : Program → Program} {Q : Unit → Program → Prop}
    (hg : (g p).failure = p.failure) (h : Q () (g p)) : Answers told p (modifyOut g) Q where
  reports := by
    rintro ctx rfl
    exact .inl hg
  done := by
    rintro ctx a rfl _
    exact ⟨hg, h⟩
  failed := by
    intro _ ctx _ hnone
    cases hnone

theorem Answers.bind (h : Answers told p x Q) (hf : ∀ a q, Q a q → Answers told q (f a) Q') :
    Answers told p (x >>= f) Q' where
  reports := by
    intro ctx hctx
    cases hx : (x ctx).1 with
    | none =>
      rw [bind_none_snd hx]
      exact h.reports ctx hctx
    | some a =>
      obtain ⟨hsame, ha⟩ := h.done ctx a hctx hx
      rw [bind_some hx]
      exact (h.reports ctx hctx).trans ((hf a _ ha).reports _ rfl)
  done := by
    intro ctx b hctx hb
    cases hx : (x ctx).1 with
    | none =>
      rw [bind_none hx] at hb
      cases hb
    | some a =>
      obtain ⟨hsame, ha⟩ := h.done ctx a hctx hx
      rw [bind_some hx] at hb ⊢
      obtain ⟨hsame', hb⟩ := (hf a _ ha).done _ b rfl hb
      exact ⟨hsame'.trans hsame, hb⟩
  failed := by
    intro htold ctx hctx hnone
    cases hx : (x ctx).1 with
    | none =>
      rw [bind_none_snd hx]
      exact h.failed htold ctx hctx hx
    | some a =>
      obtain ⟨-, ha⟩ := h.done ctx a hctx hx
      rw [bind_some hx] at hnone ⊢
      exact (hf a _ ha).failed htold _ rfl hnone

theorem Answers.orError (h : Answers told p x Q) (hmsg : msg ≠ "") :
    Answers true p (x.orError msg) Q where
  reports := by
    intro ctx hctx
    cases hx : (x ctx).1 with
    | none =>
      rw [orError_none hx]
      exact (h.reports ctx hctx).trans (AsmCtx.setError_reports _ hmsg)
    | some a =>
      rw [orError_some hx]
      exact h.reports ctx hctx
  done := by
    intro ctx a hctx ha
    rw [orError_fst] at ha
    rw [orError_some ha]
    exact h.done ctx a hctx ha
  failed := by
    intro _ ctx _ hnone
    rw [orError_fst] at hnone
    rw [orError_none hnone]
    exact AsmCtx.setError_ok _ msg

/-- The error of the step is the one that is reported. -/
theorem orError_keeps {ctx : AsmCtx} {e : ℕ × String} (he : (x ctx).2.out.failure = some e) :
    (x.orError msg ctx).2.out.failure = some e := by
  cases hx : (x ctx).1 with
  | none => rwa [orError_none hx, AsmCtx.setError_of_failed he]
  | some a => rwa [orError_some hx]

theorem Answers.mono {Q₁ : α → Program → Prop} (h : Answers told p x Q)
    (himp : ∀ a q, Q a q → Q₁ a q) :
    Answers told p x Q₁ where
  reports := h.reports
  done ctx a hctx ha := (h.done ctx a hctx ha).imp_right (himp a _)
  failed := h.failed

theorem Answers.resolveUint {s : Text} {Q : Word → Program → Prop} (h : ∀ v, Q v p) :
    Answers false p (resolveUint s) Q where
  reports := by
    rintro ctx rfl
    exact ctx.resolveUint_reports s
  done := by
    rintro ctx v rfl hv
    have hout : (Step.resolveUint s ctx).2.out = ctx.out := AsmCtx.resolveUint_out hv
    rw [hout]
    exact ⟨rfl, h v⟩
  failed := by
    intro hfalse
    cases hfalse

theorem Answers.resolveUintJoin {tok : List Text} {Q : Word → Program → Prop} (h : ∀ v, Q v p) :
    Answers false p (resolveUintJoin tok) Q := by
  unfold Step.resolveUintJoin AsmCtx.resolveUintJoin
  cases joinTokens tok with
  | none => exact .fail
  | some s => exact .resolveUint h

theorem Answers.requireProgVersion [Platform] {need : ℕ} {what : String} {Q : Unit → Program → Prop}
    (h : need ≤ p.effectiveVersion → Q () p) : Answers told p (requireProgVersion need what) Q := by
  refine .bind (Q := fun out q => out = p ∧ q = p) (.out ⟨rfl, rfl⟩) ?_
  rintro out q ⟨rfl, rfl⟩
  exact .require (append_ne (by simp)) h

/-- A step that leaves the program as it is, or tells why it fails. -/
def Clean (x : Step α) : Prop := ∀ p, Answers true p x fun _ q => q = p

theorem Built.clean (h : Built x) : Clean x := by
  induction h with
  | pure a => exact fun _ => .pure rfl
  | error hmsg => exact fun _ => .error hmsg
  | out => exact fun _ => .out rfl
  | resolveUint s hmsg =>
    exact fun p => (Answers.resolveUint (Q := fun _ q => q = p) fun _ => rfl).orError hmsg
  | resolveUintJoin tok hmsg =>
    exact fun p => (Answers.resolveUintJoin (Q := fun _ q => q = p) fun _ => rfl).orError hmsg
  | bind hx hf ihx ihf =>
    intro p
    refine (ihx p).bind ?_
    rintro a q rfl
    exact ihf a q

end Step

/-! ### Directives -/

namespace Program
variable [Platform]

/-- What the directives declare is in its range. -/
structure Sane (p : Program) : Prop where
  sideset : p.sidesetBits ≤ 5
  origin : p.hasOrigin = true → p.origin < 32
  version : ∀ v, p.pioVersion = some v → v ≤ 1 ∧ v ≤ buildVersion

/-- From the one program to the other declarations stay in range and the wrap stays where it is. -/
structure Configures (p q : Program) : Prop where
  sane : p.Sane → q.Sane
  wrapTop : q.wrapTop = p.wrapTop
  wrapBottom : q.wrapBottom = p.wrapBottom

theorem Configures.refl (p : Program) : Configures p p := ⟨id, rfl, rfl⟩

theorem Configures.trans {p q r : Program} (h : Configures p q) (h' : Configures q r) :
    Configures p r :=
  ⟨h'.sane ∘ h.sane, h'.wrapTop.trans h.wrapTop, h'.wrapBottom.trans h.wrapBottom⟩

end Program

namespace Step
variable {α β : Type} [Platform] {told : Bool} {x : Step α} {f : α → Step β} {msg : String}

/-- A step of a configuration directive. -/
def Configures (told : Bool) (x : Step α) : Prop := ∀ p, Answers told p x fun _ q => p.Configures q

theorem Configures.error (hmsg : msg ≠ "") : Configures told (error msg : Step α) :=
  fun _ => .error hmsg

theorem Configures.fail : Configures false (fail : Step α) := fun _ => .fail

theorem Configures.pure (a : α) : Configures told (pure a) := fun p => .pure (.refl p)

theorem Configures.require {q : Prop} [Decidable q] (hmsg : msg ≠ "") :
    Configures told (require q msg) := fun p => .require hmsg fun _ => .refl p

theorem Configures.out : Configures told out := fun p => .out (.refl p)

theorem Configures.resolveUint (s : Text) : Configures false (resolveUint s) :=
  fun p => .resolveUint fun _ => .refl p

theorem Configures.modifyOut {g : Program → Program} (hg : ∀ p, (g p).failure = p.failure)
    (h : ∀ p : Program, p.Configures (g p)) : Configures told (modifyOut g) :=
      fun p => .modifyOut (hg p) (h p)

theorem Configures.bind (h : Configures told x) (hf : ∀ a, Configures told (f a)) :
    Configures told (x >>= f) :=
  fun p => (h p).bind fun a q hq => (hf a q).mono fun _ _ hr => hq.trans hr

theorem Configures.orError (h : Configures told x) (hmsg : msg ≠ "") :
    Configures true (x.orError msg) :=
  fun p => (h p).orError hmsg

theorem Configures.requireProgVersion (need : ℕ) (what : String) :
    Configures told (requireProgVersion need what) := fun p => .requireProgVersion fun _ => .refl p

end Step

section Directives
variable [Platform]

open Step

theorem configures_sideSet (args : List Text) : Configures true (sideSetDirective args) := by
  cases args with
  | nil => exact .error (by decide)
  | cons t modifiers =>
    refine .bind (.orError (.resolveUint t) (by decide)) fun bits p => ?_
    refine .bind (Q := fun _ q => q = p ∧ _) (.require (by decide) fun hbits => ⟨rfl, hbits⟩) ?_
    rintro _ _ ⟨rfl, hbits⟩
    exact .modifyOut rfl ⟨fun h => ⟨hbits.2, h.origin, h.version⟩, rfl, rfl⟩

theorem configures_origin (args : List Text) : Configures true (originDirective args) := by
  cases args with
  | nil => exact .error (by decide)
  | cons t rest =>
    refine .bind (.orError (.resolveUint t) (by decide)) fun v p => ?_
    refine .bind (Q := fun _ q => q = p ∧ v.toNat < 32)
      (.require (by decide) fun hv => ⟨rfl, hv⟩) ?_
    rintro _ _ ⟨rfl, hv⟩
    exact .modifyOut rfl ⟨fun h => ⟨h.sideset, fun _ => hv, h.version⟩, rfl, rfl⟩

omit [Platform] in
theorem answers_versionValue (p : Program) (t : Text) :
    Answers true p (versionValue t) fun v q => q = p ∧ v ≤ 1 := by
  unfold versionValue
  split_ifs
  · exact .pure ⟨rfl, by decide⟩
  · exact .pure ⟨rfl, by decide⟩
  · refine .bind (Q := fun _ q => q = p) (.orError (.resolveUint fun _ => rfl) (by decide)) ?_
    rintro v _ rfl
    refine .bind (Q := fun _ q => q = _ ∧ v.toNat ≤ 1) (.require (by decide) fun hv => ⟨rfl, hv⟩) ?_
    rintro _ _ ⟨rfl, hv⟩
    exact .pure ⟨rfl, hv⟩

/-- The version is stored before it is checked against the build. -/
theorem configures_pioVersion (args : List Text) : Configures true (pioVersionDirective args) := by
  cases args with
  | nil => exact .error (by decide)
  | cons t rest =>
    intro p
    refine .bind (answers_versionValue p t) ?_
    rintro v p ⟨rfl, hone⟩
    refine .bind (Q := fun _ q => q = { p with pioVersion := some v }) (.modifyOut rfl rfl) ?_
    rintro _ _ rfl
    refine .require (by decide) fun hbuild => ⟨fun h => ⟨h.sideset, h.origin, ?_⟩, rfl, rfl⟩
    rintro _ ⟨⟩
    exact ⟨hone, hbuild⟩

theorem configures_clockDiv (args : List Text) : Configures true (clockDivDirective args) := by
  cases args with
  | nil => exact .error (by decide)
  | cons t rest =>
    unfold clockDivDirective
    dsimp only
    cases parseDouble t with
    | none => exact .error (by decide)
    | some d =>
      exact .modifyOut (fun _ => rfl) fun _ => ⟨fun h => ⟨h.sideset, h.origin, h.version⟩, rfl, rfl⟩

theorem configures_fifo (args : List Text) : Configures true (fifoDirective args) := by
  cases args with
  | nil => exact .error (by decide)
  | cons t rest =>
    unfold fifoDirective
    dsimp only
    cases parseFifoConfig t with
    | none => exact .error (by decide)
    | some join =>
      have hset : Configures true
          (Step.modifyOut fun out : Program => { out with hasFifoJoin := true }) :=
        .modifyOut (fun _ => rfl) fun _ => ⟨fun h => ⟨h.sideset, h.origin, h.version⟩, rfl, rfl⟩
      refine .bind (.modifyOut (fun _ => rfl) fun _ =>
        ⟨fun h => ⟨h.sideset, h.origin, h.version⟩, rfl, rfl⟩) fun _ => ?_
      split
      · exact .bind (.requireProgVersion _ _) fun _ => hset
      · exact hset

theorem configures_movStatus (args : List Text) : Configures false (parseMovStatus args) := by
  cases args with
  | nil => exact .fail
  | cons s rest =>
    unfold parseMovStatus
    dsimp only
    cases movStatusSel s rest with
    | none => exact .fail
    | some sel =>
      have hrest : Configures false (
          if rest.any (ieq
              · (if sel = .txLevel ∨ sel = .rxLevel then "<".toList else "set".toList)) then do
            let n ← Step.resolveUint ((s :: rest).getLastD [])
            if 31 < n.toNat then Step.fail
            else Step.modifyOut fun out => { out with movStatusN := n.toNat, hasMovStatus := true }
          else Step.fail) := by
        generalize (if sel = .txLevel ∨ sel = .rxLevel then "<".toList else "set".toList) = marker
        split
        · refine .bind (.resolveUint _) fun n => ?_
          split
          · exact .fail
          · exact .modifyOut (fun _ => rfl) fun _ =>
              ⟨fun h => ⟨h.sideset, h.origin, h.version⟩, rfl, rfl⟩
        · exact .fail
      refine .bind (.modifyOut (fun _ => rfl) fun _ =>
        ⟨fun h => ⟨h.sideset, h.origin, h.version⟩, rfl, rfl⟩) fun _ => ?_
      split
      · exact .bind (.requireProgVersion _ _) fun _ => hrest
      · exact hrest

theorem configures_shiftModifiers : ∀ (modifiers : List Text) (cfg : ShiftCfg),
    Configures false (shiftModifiers cfg modifiers) := by
  intro modifiers
  induction modifiers with
  | nil => exact fun cfg => .pure cfg
  | cons t ts ih =>
    intro cfg
    unfold shiftModifiers
    split_ifs
    · exact ih _
    · exact ih _
    · exact ih _
    · exact ih _
    · refine .bind (.resolveUint t) fun threshold => ?_
      split
      · exact .fail
      · exact ih _

theorem configures_shift (isIn : Bool) (args : List Text) :
    Configures false (parseShiftDirCfg isIn args) := by
  cases args with
  | nil => exact .fail
  | cons t modifiers =>
    refine .bind (.resolveUint t) fun count => .bind .out fun out => ?_
    split
    · exact .fail
    generalize (isIn && if out.effectiveVersion = 0 then _ else _) = refused
    split
    · exact .fail
    refine .bind (configures_shiftModifiers modifiers _) fun cfg => ?_
    cases isIn <;>
    exact .modifyOut (fun _ => rfl) fun _ => ⟨fun h => ⟨h.sideset, h.origin, h.version⟩, rfl, rfl⟩

theorem configures_set (args : List Text) : Configures true (setDirective args) := by
  cases args with
  | nil => exact .error (by decide)
  | cons t rest =>
    exact .bind (.orError (.resolveUint t) (by decide)) fun v =>
        .bind (.require (by decide)) fun _ =>
      .modifyOut (fun _ => rfl) fun _ => ⟨fun h => ⟨h.sideset, h.origin, h.version⟩, rfl, rfl⟩

theorem configures_configDirective (k : ConfigKind) (args : List Text) :
    Configures true (configDirective k args) := by
  cases k with
  | sideSet => exact configures_sideSet args
  | origin => exact configures_origin args
  | pioVersion => exact configures_pioVersion args
  | clockDiv => exact configures_clockDiv args
  | fifo => exact configures_fifo args
  | movStatus => exact .orError (configures_movStatus args) (by decide)
  | «in» => exact .orError (configures_shift true args) (by decide)
  | out => exact .orError (configures_shift false args) (by decide)
  | set => exact configures_set args

end Directives

end PioSim.Asm
