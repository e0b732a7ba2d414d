import PioSim.Asm.Passes

/-!
# Defines that nothing uses

A define is looked at where an expression mentions it and nowhere else. So lines with defines that
no expression mentions can be added, taken away or moved: the labels stay where they are, and so
does all the rest of the program.
-/

namespace PioSim.Asm

def Avoids (names : List Text) (s : Text) : Prop := ∀ id ∈ symbolsOf s, id ∉ names

instance (names : List Text) (s : Text) : Decidable (Avoids names s) :=
  inferInstanceAs (Decidable (∀ id ∈ symbolsOf s, id ∉ names))

/-! ### Tables -/

namespace Table
variable {names : List Text} {t t' : Table}

def others (names : List Text) (t : Table) : List (Text × Text) :=
  t.defines.filter fun d => decide (d.1 ∉ names)

/-- The tables differ in the defines of the names only, and no other define mentions one. -/
structure Beside (names : List Text) (t t' : Table) : Prop where
  labels : t'.labels = t.labels
  others : t'.others names = t.others names
  avoids : ∀ d ∈ t.others names, Avoids names d.2

theorem Beside.symm (h : Beside names t t') : Beside names t' t :=
  ⟨h.labels.symm, h.others.symm, h.others ▸ h.avoids⟩

theorem find_others (t : Table) {id : Text} (hid : id ∉ names) :
    (t.others names).find? (·.1 = id) = t.defines.find? (·.1 = id) := by
  unfold others
  rw [List.find?_filter]
  refine congrArg (fun p => t.defines.find? p) (funext fun d => ?_)
  by_cases hd : d.1 = id
  · simp [hd, hid]
  · simp [hd]

theorem Beside.text (h : Beside names t t') {id : Text} (hid : id ∉ names) :
    t'.text id = t.text id := by
  unfold Table.text
  rw [← find_others t' hid, ← find_others t hid, h.others]

/-- A symbol with another name stands for the same in both. -/
theorem Beside.symbolAt (h : Beside names t t') : ∀ (n : ℕ) (id : Text), id ∉ names →
    t'.symbolAt n id = t.symbolAt n id := by
  intro n
  have hlabel : ∀ id, t'.label id = t.label id := fun id => by rw [label, label, h.labels]
  induction n with
  | zero =>
    intro id hid
    rw [Table.symbolAt, Table.symbolAt, h.text hid, hlabel]
  | succ n ih =>
    intro id hid
    cases htext : t.text id with
    | none => rw [symbolAt_label htext, symbolAt_label ((h.text hid).trans htext), hlabel]
    | some s =>
      have hmem : (id, s) ∈ t.others names := by
        obtain ⟨d, hd, rfl⟩ := Option.map_eq_some_iff.mp htext
        have hname : d.1 = id := by simpa using List.find?_some hd
        rw [← hname]
        refine List.mem_filter.mpr ⟨List.mem_of_find?_eq_some hd, ?_⟩
        rw [hname]
        exact decide_eq_true hid
      rw [symbolAt_succ htext, symbolAt_succ ((h.text hid).trans htext)]
      exact congrArg _ (exprValue_congr fun id' hid' => ih id' (h.avoids _ hmem id' hid'))

theorem Beside.symbol (h : Beside names t t') {id : Text} (hid : id ∉ names) :
    t'.symbol id = t.symbol id := by
  rw [← symbolAt_stable (Nat.le_max_left t'.defines.length t.defines.length),
    ← symbolAt_stable (Nat.le_max_right t'.defines.length t.defines.length)]
  exact h.symbolAt _ id hid

theorem Beside.word (h : Beside names t t') {s : Text} (hs : Avoids names s) :
    t'.word s = t.word s := by
  unfold Table.word
  exact congrArg _ (exprValue_congr fun id hid => h.symbol (hs id hid))

end Table

/-! ### Operands -/

namespace AsmCtx

theorem operands_setError (ctx : AsmCtx) (msg : String) :
    (ctx.setError msg).operands = ctx.operands := by
  unfold setError
  split <;> rfl

/-- Looking a symbol up notes no operand. -/
theorem operands_lookSymbol : ∀ (fuel : ℕ) (ctx : AsmCtx) (id : Text),
    (lookSymbol fuel ctx id).2.operands = ctx.operands := by
  intro fuel
  induction fuel with
  | zero => exact fun _ _ => rfl
  | succ fuel ih =>
    intro ctx id
    have hvalue : ∀ (c : AsmCtx) (s : Text), (resolveUintWith (lookSymbol fuel) c s).2.operands =
        c.operands :=
      fun c s => exprValue_keeps (I := fun c' => c'.operands = c.operands)
        (fun c' id hc' => (ih c' id).trans hc') rfl exprMaxDepth s
    rw [lookSymbol]
    cases ctx.findDefine id with
    | none => rfl
    | some d =>
      dsimp only
      split_ifs
      · rfl
      · exact operands_setError _ _
      · have hinner :=
          hvalue ((ctx.modifyDefine id fun d => { d with visiting := true }).noteDefine id) d.expr
        generalize resolveUintWith (lookSymbol fuel)
          ((ctx.modifyDefine id fun d => { d with visiting := true }).noteDefine id) d.expr =
            r at hinner ⊢
        obtain ⟨_ | v, after⟩ := r
        · exact (operands_setError _ _).trans hinner
        · exact hinner

theorem operands_resolveUint (ctx : AsmCtx) (s : Text) :
    (ctx.resolveUint s).2.operands = ctx.operands ++ [s] := by
  have hlook : (resolveUintWith (lookSymbol (ctx.defines.length + 1)) ctx s).2.operands =
      ctx.operands :=
    exprValue_keeps (I := fun c => c.operands = ctx.operands)
      (fun c id hc => (operands_lookSymbol _ c id).trans hc) rfl exprMaxDepth s
  exact congrArg (· ++ [s]) hlook

/-- Operands so far stay noted. -/
theorem carried_operands (pass : Pass) (l : List Text) :
    Carried pass (fun ctx => l ⊆ ctx.operands) fun ctx => l ⊆ ctx.operands where
  left _ h := h
  line _ _ h := h
  error _ _ _ h := h
  error_left _ _ _ h := h
  write _ _ _ h := h
  resolveUint _ ctx s h := by
    have hgrows : l ⊆ (ctx.resolveUint s).2.operands := by
      rw [operands_resolveUint]
      exact List.Subset.trans h (List.subset_append_left _ _)
    exact ⟨hgrows, fun _ => hgrows⟩
  define _ ctx name expr ctx' hctx h := by
    unfold declareDefine at hctx
    split_ifs at hctx
    rw [← Option.some.inj hctx]
    exact h
  label _ _ _ h := h

/-- The contexts are over their tables and the same program, and the same operands have been
evaluated. -/
structure Parallel (t t' : Table) (p : Program) (ctx ctx' : AsmCtx) : Prop where
  left : ctx.Over t p
  right : ctx'.Over t' p
  operands : ctx'.operands = ctx.operands

theorem Parallel.line {t t' : Table} {p : Program} {ctx ctx' : AsmCtx}
    (h : Parallel t t' p ctx ctx') (n n' : ℕ) :
    Parallel t t' p { ctx with lineNo := n } { ctx' with lineNo := n' } :=
  ⟨⟨h.left.settled.write _ _, h.left.table, h.left.out⟩,
    ⟨h.right.settled.write _ _, h.right.table, h.right.out⟩, h.operands⟩

theorem Parallel.write {t t' : Table} {p : Program} {ctx ctx' : AsmCtx}
    (h : Parallel t t' p ctx ctx')
    (g : Program → Program) (n n' : ℕ) :
    Parallel t t' (g p) { ctx with out := g ctx.out, lineNo := n }
      { ctx' with out := g ctx'.out, lineNo := n' } :=
  ⟨⟨h.left.settled.write _ _, h.left.table, congrArg g h.left.out⟩,
    ⟨h.right.settled.write _ _, h.right.table, congrArg g h.right.out⟩, h.operands⟩

end AsmCtx

/-! ### Steps -/

namespace Step
variable {names : List Text} {t t' : Table} {α β : Type} {x : Step α} {f : α → Step β}

open AsmCtx

theorem bind_eq_some {ctx ctx₂ : AsmCtx} {b : β} (h : (x >>= f) ctx = (some b, ctx₂)) :
    ∃ a ctx₁, x ctx = (some a, ctx₁) ∧ f a ctx₁ = (some b, ctx₂) := by
  cases hx : (x ctx).1 with
  | none =>
    have hnone := bind_none (f := f) hx
    rw [h] at hnone
    cases hnone
  | some a =>
    rw [bind_some hx] at h
    exact ⟨a, _, Prod.ext hx rfl, h⟩

/-- A step that returns a value, and evaluates no operand that mentions one of the names, returns
the same over the other table. -/
def Spares (names : List Text) (t t' : Table) (x : Step α) : Prop :=
  ∀ p ctx ctx' a ctx₁, Parallel t t' p ctx ctx' → x ctx = (some a, ctx₁) →
    (∀ s ∈ ctx₁.operands, Avoids names s) → ∃ p₁ ctx₁', x ctx' = (some a, ctx₁') ∧
      Parallel t t' p₁ ctx₁ ctx₁'

theorem spares_resolveUint (h : t.Beside names t') (s : Text) :
    Spares names t t' (Step.resolveUint s) := by
  intro p ctx ctx' v ctx₁ hctx hv havoids
  have hfst : (ctx.resolveUint s).1 = some v := congrArg Prod.fst hv
  have hsnd : (ctx.resolveUint s).2 = ctx₁ := congrArg Prod.snd hv
  obtain ⟨hword, hover⟩ := hctx.left.resolveUint hfst
  have hoperands := operands_resolveUint ctx s
  rw [hsnd] at hover hoperands
  have hs : Avoids names s :=
    havoids s (by rw [hoperands]; exact List.mem_append_right _ List.mem_cons_self)
  have hfst' : (ctx'.resolveUint s).1 = some v := by
    rw [hctx.right.resolveUint_eq, h.word hs, hword]
  refine ⟨p, (ctx'.resolveUint s).2, Prod.ext hfst' rfl, hover,
    (hctx.right.resolveUint hfst').2, ?_⟩
  rw [operands_resolveUint, hoperands, hctx.operands]

theorem Made.spares (h : t.Beside names t') (hx : Made x) : Spares names t t' x := by
  induction hx with
  | pure a =>
    intro p ctx ctx' b ctx₁ hctx hb _
    obtain ⟨ha, rfl⟩ := Prod.mk.inj hb
    exact ⟨p, ctx', congrArg (·, ctx') ha, hctx⟩
  | error | fail =>
    intro p ctx ctx' b ctx₁ _ hb _
    cases (Prod.mk.inj hb).1
  | out =>
    intro p ctx ctx' b ctx₁ hctx hb _
    obtain ⟨ha, rfl⟩ := Prod.mk.inj hb
    refine ⟨p, ctx', ?_, hctx⟩
    rw [← ha, hctx.left.out, ← hctx.right.out]
    rfl
  | modifyOut g =>
    intro p ctx ctx' b ctx₁ hctx hb _
    obtain ⟨-, rfl⟩ := Prod.mk.inj hb
    exact ⟨g p, _, rfl, hctx.write g ctx.lineNo ctx'.lineNo⟩
  | resolveUint s => exact spares_resolveUint h s
  | resolveUintJoin tok =>
    intro p ctx ctx' v ctx₁ hctx hv havoids
    rw [Step.resolveUintJoin_apply] at hv ⊢
    cases hjoin : joinTokens tok with
    | none =>
      rw [hjoin] at hv
      cases (Prod.mk.inj hv).1
    | some s =>
      rw [hjoin] at hv
      exact spares_resolveUint h s p ctx ctx' v ctx₁ hctx hv havoids
  | orError hx ih =>
    rename_i y msg
    intro p ctx ctx' a ctx₁ hctx ha havoids
    have hy : (y ctx).1 = some a := by
      rw [← orError_fst y msg, ha]
    rw [orError_some hy] at ha
    obtain ⟨p₁, ctx₁', hrun, hafter⟩ := ih p ctx ctx' a ctx₁ hctx ha havoids
    exact ⟨p₁, ctx₁', (orError_some (congrArg Prod.fst hrun)).trans hrun, hafter⟩
  | bind hx hf ihx ihf =>
    intro p ctx ctx' b ctx₂ hctx hb havoids
    obtain ⟨a, ctx₁, ha, hb⟩ := bind_eq_some hb
    have hgrows :=
      ((carried_operands .emit ctx₁.operands).made (by decide) (hf a) ctx₁ (List.Subset.refl _)).1
    rw [hb] at hgrows
    obtain ⟨p₁, ctx₁', ha', hctx₁⟩ := ihx p ctx ctx' a ctx₁ hctx ha fun s hs =>
      havoids s (hgrows hs)
    obtain ⟨p₂, ctx₂', hb', hctx₂⟩ := ihf a p₁ ctx₁ ctx₁' b ctx₂ hctx₁ hb havoids
    refine ⟨p₂, ctx₂', ?_, hctx₂⟩
    rw [bind_some (congrArg Prod.fst ha'), ha']
    exact hb'

end Step

/-! ### Lines -/

namespace ParseState
variable [Platform] {names : List Text} {t t' : Table} {p : Program} {ps : ParseState}
    {ctx' : AsmCtx}

open AsmCtx Step

def withCtx (ps : ParseState) (ctx : AsmCtx) : ParseState := { ps with ctx := ctx }

/-- A result that is no failure, with operands that mention none of the names, and the result over
the other table: the same but for the context. -/
def Spared (names : List Text) (t t' : Table) (r r' : LineResult × ParseState) : Prop :=
  r.1 ≠ .error → (∀ s ∈ r.2.ctx.operands, Avoids names s) →
    ∃ p₁ ctx₁', r' = (r.1, r.2.withCtx ctx₁') ∧ Parallel t t' p₁ r.2.ctx ctx₁'

section
omit [Platform]

theorem spared_ok (h : Parallel t t' p ps.ctx ctx') (r : LineResult) :
    Spared names t t' (r, ps) (r, ps.withCtx ctx') := fun _ _ => ⟨p, ctx', rfl, h⟩

theorem spared_fail (msg : String) (r : LineResult × ParseState) :
    Spared names t t' (ps.fail msg) r :=
  fun hok => absurd rfl hok

theorem spared_run {α : Type} {x : Step α} (hbeside : t.Beside names t') (hx : x.Made)
    (h : Parallel t t' p ps.ctx ctx') {k : α → ParseState → LineResult × ParseState}
    (hsame : ∀ a q, (k a q).2.ctx.operands = q.ctx.operands)
    (hk : ∀ a q p₁ ctx₁', Parallel t t' p₁ q.ctx ctx₁' →
      Spared names t t' (k a q) (k a (q.withCtx ctx₁'))) :
    Spared names t t' (ps.run x k) ((ps.withCtx ctx').run x k) := by
  have hspares := hx.spares hbeside p ps.ctx ctx'
  intro hok havoids
  unfold run at hok havoids ⊢
  generalize x ps.ctx = r at hspares hok havoids ⊢
  obtain ⟨_ | a, ctx₁⟩ := r
  · exact absurd rfl hok
  dsimp only at hok havoids ⊢
  rw [hsame] at havoids
  obtain ⟨p₁, ctx₁', hrun, hafter⟩ := hspares a ctx₁ h rfl havoids
  rw [show (ps.withCtx ctx').ctx = ctx' from rfl, hrun]
  refine hk a _ p₁ ctx₁' hafter hok ?_
  rw [hsame]
  exact havoids

/-- A word that a step gives. -/
theorem spared_word {x : Step Insn} (hbeside : t.Beside names t') (hx : x.Made)
    (h : Parallel t t' p ps.ctx ctx') :
    Spared names t t' (ps.run x fun w ps => (.ok, { ps.emit w with idx := ps.idx + 1 }))
      ((ps.withCtx ctx').run x fun w ps => (.ok, { ps.emit w with idx := ps.idx + 1 })) := by
  refine spared_run hbeside hx h (fun _ _ => rfl) fun w q p₁ ctx₁' hq _ _ => ?_
  exact ⟨_, _, rfl, hq.write (fun out => { out with
    insns := fun i => if i.val = q.idx then w else out.insns i }) q.ctx.lineNo ctx₁'.lineNo⟩

theorem spared_programDirective (h : Parallel t t' p ps.ctx ctx') (args : List Text) :
    Spared names t t' (ps.programDirective args) ((ps.withCtx ctx').programDirective args) := by
  unfold programDirective
  rw [show (ps.withCtx ctx').seenAnyProgram = ps.seenAnyProgram from rfl,
    show (ps.withCtx ctx').inProgram = ps.inProgram from rfl]
  split
  · exact spared_ok h .done
  cases args with
  | nil => exact fun _ _ => ⟨p, ctx', rfl, h⟩
  | cons s rest =>
    dsimp only
    intro _ _
    rw [show (ps.withCtx ctx').name = ps.name from rfl,
      show (ps.withCtx ctx').pass = ps.pass from rfl]
    generalize (_ && decide (ps.pass = .config)) = named
    cases named with
    | false => exact ⟨p, ctx', rfl, h⟩
    | true => exact ⟨_, _, rfl, h.write (fun out => { out with name := s.take 31 })
        ps.ctx.lineNo ctx'.lineNo⟩

theorem spared_wordDirective (hbeside : t.Beside names t') (h : Parallel t t' p ps.ctx ctx')
    (args : List Text) :
    Spared names t t' (ps.wordDirective args) ((ps.withCtx ctx').wordDirective args) := by
  unfold wordDirective
  rw [show (ps.withCtx ctx').idx = ps.idx from rfl, show (ps.withCtx ctx').pass = ps.pass from rfl]
  split
  · exact spared_fail _ _
  split
  · exact spared_word hbeside (built_wordValue args).made h
  · exact fun _ _ => ⟨p, ctx', rfl, h⟩

theorem spared_wrapDirective (h : Parallel t t' p ps.ctx ctx') :
    Spared names t t' ps.wrapDirective (ps.withCtx ctx').wrapDirective := by
  have hout : ctx'.out = ps.ctx.out := h.right.out.trans h.left.out.symm
  unfold wrapDirective
  rw [show (ps.withCtx ctx').idx = ps.idx from rfl,
    show (ps.withCtx ctx').ctx = ctx' from rfl, hout]
  split
  · exact spared_fail _ _
  split
  · exact spared_fail _ _
  · have hwritten := h.write (fun out => { out with wrapTop := ps.idx - 1 })
      ps.ctx.lineNo ctx'.lineNo
    rw [hout] at hwritten
    exact fun _ _ => ⟨_, _, rfl, hwritten⟩

end

theorem spared_handleInstruction (hbeside : t.Beside names t') (h : Parallel t t' p ps.ctx ctx')
    (line : Text) :
    Spared names t t' (ps.handleInstruction line) ((ps.withCtx ctx').handleInstruction line) := by
  unfold handleInstruction
  rw [show (ps.withCtx ctx').idx = ps.idx from rfl, show (ps.withCtx ctx').pass = ps.pass from rfl]
  split
  · exact spared_fail _ _
  split
  · generalize tokenize line maxTokens = r
    obtain ⟨tok, truncated⟩ := r
    dsimp only
    split
    · exact spared_fail _ _
    split
    · exact spared_fail _ _
    · exact spared_word hbeside (built_assembleInsn tok).made h
  · exact fun _ _ => ⟨p, ctx', rfl, h⟩

/-- Behind the scan a line does the same over both tables. -/
theorem spared_obey (hbeside : t.Beside names t') (hpass : ps.pass ≠ .scan)
    (h : Parallel t t' p ps.ctx ctx')
    (s : Statement) : Spared names t t' (ps.obey s) ((ps.withCtx ctx').obey s) := by
  have hout : ctx'.out = ps.ctx.out := h.right.out.trans h.left.out.symm
  have hite : ∀ {c : Prop} [Decidable c]
    {r r' : LineResult × ParseState}, (c → Spared names t t' r r') →
      Spared names t t' (if c then r else (.ok, ps))
          (if c then r' else (.ok, ps.withCtx ctx')) := by
    intro c _ r r' hr
    split
    · rename_i hc
      exact hr hc
    · exact spared_ok h .ok
  cases s with
  | nothing => exact spared_ok h .ok
  | refused => exact spared_fail _ _
  | program args => exact spared_programDirective h args
  | define args => exact hite fun hscan => absurd hscan hpass
  | wrapTarget =>
    have hwritten := h.write (fun out => { out with wrapBottom := ps.idx })
      ps.ctx.lineNo ctx'.lineNo
    exact hite fun _ _ _ => ⟨_, _, rfl, hwritten⟩
  | wrap => exact hite fun _ => spared_wrapDirective h
  | data args => exact hite fun _ => spared_wordDirective hbeside h args
  | configure kind args =>
    exact hite fun _ => spared_run hbeside (made_configDirective kind args) h (fun _ _ => rfl)
      fun _ q p₁ ctx₁' hq => spared_ok hq .ok
  | code label rest =>
    refine hite fun _ => ?_
    have hlabel : ps.labelled label = ps ∧ (ps.withCtx ctx').labelled label = ps.withCtx ctx' := by
      cases label with
      | none => exact ⟨rfl, rfl⟩
      | some l => exact ⟨if_neg hpass, if_neg hpass⟩
    unfold obeyCode
    rw [hlabel.1, hlabel.2]
    dsimp only
    rw [show (ps.withCtx ctx').ctx.out = ps.ctx.out from hout]
    split
    · exact fun hok => absurd rfl hok
    cases rest with
    | none => exact spared_ok h .ok
    | some line => exact spared_handleInstruction hbeside h line

end ParseState

/-! ### Lines with such defines -/

/-- The name of a `.define` that declares one of the names. -/
def Statement.defines (names : List Text) : Statement → Option Text
  | .define args => (ParseState.defineParts args).bind fun d =>
      if d.1 ∈ names ∧ d.1.length < 32 then some d.1 else none
  | _ => none

/-- The lines are the same but for defines of the names. -/
inductive Padded (names : List Text) : List Line → List Line → Prop
  | nil : Padded names [] []
  | same {l : Line} {lines lines' : List Line} (hl : l.statement.defines names = none)
    (h : Padded names lines lines') : Padded names (l :: lines) (l :: lines')
  | left {l : Line} {lines lines' : List Line} (hl : (l.statement.defines names).isSome = true)
    (h : Padded names lines lines') : Padded names (l :: lines) lines'
  | right {l : Line} {lines lines' : List Line} (hl : (l.statement.defines names).isSome = true)
    (h : Padded names lines lines') : Padded names lines (l :: lines')

def otherLines (names : List Text) (lines : List Line) : List Line :=
  lines.filter fun l => (l.statement.defines names).isNone

theorem padded_of_otherLines {names : List Text} : ∀ (lines lines' : List Line),
    otherLines names lines' = otherLines names lines → Padded names lines lines' := by
  intro lines
  induction lines with
  | nil =>
    intro lines' h
    induction lines' with
    | nil => exact .nil
    | cons l' lines' ih =>
      have hl' : (l'.statement.defines names).isSome = true := by
        by_contra hnone
        rw [Option.not_isSome_iff_eq_none] at hnone
        rw [otherLines, List.filter_cons, hnone] at h
        cases h
      refine .right hl' (ih ?_)
      rwa [otherLines, List.filter_cons, Option.isNone_eq_false_iff.mpr hl'] at h
  | cons l lines ih =>
    intro lines' h
    cases hl : l.statement.defines names with
    | some name =>
      refine .left (by rw [hl]; rfl) (ih lines' ?_)
      rwa [otherLines.eq_def names (l :: lines), List.filter_cons, hl] at h
    | none =>
      have hcons : otherLines names (l :: lines) = l :: otherLines names lines := by
        rw [otherLines, List.filter_cons, hl]
        rfl
      rw [hcons] at h
      induction lines' with
      | nil => cases h
      | cons l' lines' ih' =>
        cases hl' : l'.statement.defines names with
        | some name =>
          refine .right (by rw [hl']; rfl) (ih' ?_)
          rwa [otherLines.eq_def names (l' :: lines'), List.filter_cons, hl'] at h
        | none =>
          rw [otherLines.eq_def names (l' :: lines'), List.filter_cons, hl'] at h
          obtain ⟨rfl, hrest⟩ := List.cons.inj h
          exact .same hl (ih lines' hrest)

namespace ParseState
variable [Platform] {names : List Text} {t t' : Table}

open AsmCtx

theorem obey_defines {ps : ParseState} {s : Statement} (hs : (s.defines names).isSome = true)
    (hpass : ps.pass ≠ .scan) : ps.obey s = (.ok, ps) := by
  cases s with
  | define args => exact if_neg hpass
  | _ => cases hs

/-- Behind the scan a pass does the same over both tables, and passes the defines over. -/
theorem spared_runListing (hbeside : t.Beside names t') {lines lines' : List Line}
    (hlines : Padded names lines lines') :
    ∀ (n n' : ℕ) (p : Program) (ps : ParseState) (ctx' : AsmCtx), ps.pass ≠ .scan →
      Parallel t t' p ps.ctx ctx' →
      (runListing n ps lines).1 = true →
        (∀ s ∈ (runListing n ps lines).2.ctx.operands, Avoids names s) →
      ∃ p₁ ctx₁', runListing n' (ps.withCtx ctx') lines' =
        (true, (runListing n ps lines).2.withCtx ctx₁') ∧
        Parallel t t' p₁ (runListing n ps lines).2.ctx ctx₁' := by
  induction hlines with
  | nil => exact fun n n' p ps ctx' _ h _ _ => ⟨p, ctx', rfl, h⟩
  | @same l lines lines' hl _ ih =>
    intro n n' p ps ctx' hpass h hdone havoids
    have hpassed : (ps.atLine n).pass ≠ .scan := hpass
    have hnext : Parallel t t' p (ps.atLine n).ctx { ctx' with lineNo := n' } := h.line n n'
    have hline : Spared names t t' ((ps.atLine n).obey l.statement)
        (((ps.withCtx ctx').atLine n').obey l.statement) :=
          spared_obey hbeside hpassed hnext l.statement
    have hon : Carried.On ps.pass ps.name (fun _ => True) (ps.atLine n) := ⟨rfl, rfl, trivial⟩
    have hpass' := ((Carried.trivially ps.pass).obey hon l.statement).left.pass_eq
    rw [runListing_cons] at hdone havoids ⊢
    rw [runListing_cons]
    generalize (ps.atLine n).obey l.statement = r at hline hpass' hdone havoids ⊢
    generalize ((ps.withCtx ctx').atLine n').obey l.statement = r' at hline ⊢
    obtain ⟨_ | _ | _, q⟩ := r
    · -- the operands so far are among those of the whole pass
      have hgrows := ((carried_operands q.pass q.ctx.operands).runListing lines (n + 1) q
        ⟨rfl, rfl, List.Subset.refl _⟩).left.ctx
      obtain ⟨p₁, ctx₁', rfl, hafter⟩ :=
        hline LineResult.noConfusion fun s hs => havoids s (hgrows hs)
      refine ih (n + 1) (n' + 1) p₁ q ctx₁' ?_ hafter hdone havoids
      rw [show q.pass = ps.pass from hpass']
      exact hpass
    · obtain ⟨p₁, ctx₁', rfl, hafter⟩ := hline LineResult.noConfusion havoids
      exact ⟨p₁, ctx₁', rfl, hafter⟩
    · exact absurd hdone Bool.false_ne_true
  | @left l lines lines' hl _ ih =>
    intro n n' p ps ctx' hpass h hdone havoids
    have hpassed : (ps.atLine n).pass ≠ .scan := hpass
    have hskip : runListing n ps (l :: lines) = runListing (n + 1) (ps.atLine n) lines := by
      rw [runListing_cons, obey_defines hl hpassed]
    rw [hskip] at hdone havoids ⊢
    exact ih (n + 1) n' p (ps.atLine n) ctx' hpass (h.line n ctx'.lineNo) hdone havoids
  | @right l lines lines' hl _ ih =>
    intro n n' p ps ctx' hpass h hdone havoids
    have hpassed : ((ps.withCtx ctx').atLine n').pass ≠ .scan := hpass
    have hskip : runListing n' (ps.withCtx ctx') (l :: lines') =
        runListing (n' + 1) ((ps.withCtx ctx').atLine n') lines' := by
      rw [runListing_cons, obey_defines hl hpassed]
    rw [hskip]
    exact ih n (n' + 1) p ps { ctx' with lineNo := n' } hpass (h.line ps.ctx.lineNo n')
      hdone havoids

end ParseState

end PioSim.Asm
