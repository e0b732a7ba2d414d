import PioSim.Asm.Arrangement

/-!
# What a line says

A line says the same to every pass, and it can be read off the line alone. What a pass does about it
is a function of the state and of what the line says: it declares, it counts, or it does nothing.
-/

namespace PioSim.Asm

/-! ### What a line says -/

/-- What a line asks of a pass. -/
inductive Statement
  | nothing
  | refused
  | program (args : List Text)
  | define (args : List Text)
  | wrapTarget
  | wrap
  | data (args : List Text)
  | configure (kind : ConfigKind) (args : List Text)
  | code (label : Option (Text × Bool)) (rest : Option Text)

def directiveStatement (line : Text) : Statement :=
  match tokenize line maxTokens with
  | (_, true) => .refused
  | ([], false) => .nothing
  | (t :: args, false) =>
    if ieq t ".program".toList then .program args
    else if ieq t ".define".toList then .define args
    else if ieq t ".wrap_target".toList then .wrapTarget
    else if ieq t ".wrap".toList then .wrap
    else if ieq t ".word".toList then .data args
    else match configKind t with
      | some kind => .configure kind args
      | none => .nothing

/-- The label on a line, and what stands behind it. -/
def splitLabel (line : Text) : Option (Text × Bool) × Option Text :=
  let (line, isPublic) := ParseState.stripPublic line
  match line.dropWhile isIdentChar with
  | ':' :: rest =>
    let rest := rest.dropWhile isBlank
    (some (line.takeWhile isIdentChar, isPublic), if rest = [] then none else some rest)
  | _ => (none, some line)

def Line.statement : Line → Statement
  | .verbatim => .nothing
  | .code line =>
    if line = [] ∨ line.head? = some '%' then .nothing
    else if line.head? = some '.' then directiveStatement line
    else .code (splitLabel line).1 (splitLabel line).2

namespace ParseState
variable [Platform]

def labelled (ps : ParseState) : Option (Text × Bool) → ParseState
  | some (name, isPublic) => if ps.pass = .scan then ps.declareLabel name isPublic else ps
  | none => ps

/-- A label and what stands behind it, inside a program. -/
def obeyCode (ps : ParseState) (label : Option (Text × Bool)) (rest : Option Text) :
    LineResult × ParseState :=
  let ps := ps.labelled label
  if !ps.ctx.out.ok then (.error, ps)
  else match rest with
    | none => (.ok, ps)
    | some rest => ps.handleInstruction rest

/-- What a pass does about a statement. -/
def obey (ps : ParseState) : Statement → LineResult × ParseState
  | .nothing => (.ok, ps)
  | .refused => ps.fail "directive has too many tokens"
  | .program args => ps.programDirective args
  | .define args => if ps.pass = .scan then ps.defineDirective args else (.ok, ps)
  | .wrapTarget =>
    if ps.inProgram = true ∧ ps.pass = .config then
      (.ok, { ps with ctx := { ps.ctx with out := { ps.ctx.out with wrapBottom := ps.idx } } })
    else (.ok, ps)
  | .wrap => if ps.inProgram = true ∧ ps.pass = .config then ps.wrapDirective else (.ok, ps)
  | .data args => if ps.inProgram = true then ps.wordDirective args else (.ok, ps)
  | .configure kind args =>
    if ps.inProgram = true ∧ ps.pass = .config then
      ps.run (configDirective kind args) fun _ ps => (.ok, ps)
    else (.ok, ps)
  | .code label rest => if ps.inProgram = true then ps.obeyCode label rest else (.ok, ps)

theorem handleDirective_eq (ps : ParseState) (line : Text) :
    ps.handleDirective line = ps.obey (directiveStatement line) := by
  unfold handleDirective directiveStatement
  generalize tokenize line maxTokens = r
  obtain ⟨_ | ⟨t, args⟩, _ | _⟩ := r
  · rfl
  · rfl
  · dsimp only
    rw [if_neg Bool.false_ne_true]
    by_cases hprogram : ieq t ".program".toList = true
    · rw [if_pos hprogram, if_pos hprogram]
      rfl
    rw [if_neg hprogram, if_neg hprogram]
    by_cases hdefine : ieq t ".define".toList = true
    · rw [if_pos hdefine, if_pos hdefine]
      rfl
    rw [if_neg hdefine, if_neg hdefine]
    cases hin : ps.inProgram with
    | false =>
      rw [Bool.not_false, if_pos rfl]
      cases configKind t <;> split_ifs <;>
        simp only [obey, hin, Bool.false_eq_true, false_and, if_false]
    | true =>
      rw [Bool.not_true, if_neg Bool.false_ne_true]
      by_cases hconfig : ps.pass = .config <;> cases configKind t <;> split_ifs <;>
        simp_all only [obey, true_and, if_true, if_false, ne_eq, not_true_eq_false,
          not_false_eq_true]
  · rfl

omit [Platform] in
theorem handleLabel_eq (ps : ParseState) (line : Text) :
    ps.handleLabel line = ((splitLabel line).2, ps.labelled (splitLabel line).1) := by
  unfold handleLabel splitLabel
  generalize stripPublic line = r
  obtain ⟨line, isPublic⟩ := r
  dsimp only
  cases line.dropWhile isIdentChar with
  | nil => rfl
  | cons c rest =>
    by_cases hc : c = ':'
    · subst hc
      rfl
    · simp [hc, labelled]

theorem handleCode_eq (ps : ParseState) {line : Text} (h : ¬ (line = [] ∨ line.head? = some '%')) :
    ps.handleCode line = ps.obey (Line.code line).statement := by
  unfold handleCode Line.statement
  dsimp only
  rw [if_neg h, handleLabel_eq]
  by_cases hdot : line.head? = some '.'
  · rw [if_pos hdot, if_pos hdot]
    exact ps.handleDirective_eq line
  rw [if_neg hdot, if_neg hdot]
  cases hin : ps.inProgram with
  | false =>
    simp only [obey, hin]
    rfl
  | true =>
    simp only [obey, hin]
    rfl

/-- A pass takes a line by what it says. -/
theorem runListing_cons (n : ℕ) (ps : ParseState) (l : Line) (rest : List Line) :
    runListing n ps (l :: rest) = match (ps.atLine n).obey l.statement with
      | (.error, ps) => (false, ps)
      | (.done, ps) => (true, ps)
      | (.ok, ps) => runListing (n + 1) ps rest := by
  cases l with
  | verbatim => rfl
  | code line =>
    rw [runListing]
    by_cases hblank : line = [] ∨ line.head? = some '%'
    · rw [if_pos hblank, Line.statement, if_pos hblank] <;> rfl
    · rw [if_neg hblank, handleCode_eq _ hblank] <;> rfl

/-! ### Declarations -/

variable {ps : ParseState}

def defineParts (args : List Text) : Option (Text × Text) :=
  match if isPublicDefine args then args.drop 1 else args with
  | name :: value => (joinTokens value).map fun expr => (name, expr)
  | [] => none
where
  isPublicDefine : List Text → Bool
  | t :: _ => ieq t "public".toList
  | [] => false

/-- A `.define` of another program, if it is not public. -/
def skipsDefine (ps : ParseState) (args : List Text) : Bool :=
  !defineParts.isPublicDefine args && ps.seenAnyProgram && !ps.inProgram

/-- A define of this name and text is accepted. -/
structure Declarable (ctx : AsmCtx) (name expr : Text) : Prop where
  short : name.length < 32
  line : expr.length < maxLine
  define : ctx.defineDeclared name = false
  label : ctx.findLabel name = none
  room : ctx.defines.length < maxDefines

def defined (ctx : AsmCtx) (name expr : Text) : AsmCtx :=
  { ctx with defines := ctx.defines ++
      [{ name := name, expr := expr, value := 0, line := ctx.lineNo, resolved := false, visiting := false }] }

/-- The declaration of a name and a text. -/
def define (ps : ParseState) (name expr : Text) : LineResult × ParseState :=
  if 32 ≤ name.length then ps.fail "define name too long"
  else if ps.ctx.defineDeclared name then ps.fail "duplicate define"
  else if (ps.ctx.findLabel name).isSome then ps.fail "symbol already defined as a label"
  else match ps.ctx.declareDefine name expr with
    | none => ps.fail "too many .define symbols"
    | some ctx => (.ok, { ps with ctx := ctx })

section
omit [Platform]

theorem defineDirective_eq (ps : ParseState) (args : List Text) :
    ps.defineDirective args = if ps.skipsDefine args then (.ok, ps)
      else match defineParts args with
        | none => ps.fail "bad .define"
        | some (name, expr) => ps.define name expr := by
  have hparts : ∀ rest : List Text, (match rest with
      | name :: value =>
        match joinTokens value with
        | none => ps.fail "bad .define"
        | some expr => ps.define name expr
      | [] => ps.fail "bad .define") =
      match (match rest with
        | name :: value => (joinTokens value).map fun expr => (name, expr)
        | [] => none) with
      | none => ps.fail "bad .define"
      | some (name, expr) => ps.define name expr := by
    rintro (_ | ⟨name, value⟩)
    · rfl
    · dsimp only
      cases joinTokens value <;> rfl
  unfold defineDirective
  exact congrArg (fun r => if ps.skipsDefine args = true then (.ok, ps) else r) (hparts _)

theorem define_eq {name expr : Text} (h : Declarable ps.ctx name expr) :
    ps.define name expr = (.ok, { ps with ctx := defined ps.ctx name expr }) := by
  unfold define AsmCtx.declareDefine
  rw [if_neg (Nat.not_le.mpr h.short), h.define, if_neg Bool.false_ne_true, h.label,
    if_neg (not_or.mpr ⟨Nat.not_le.mpr h.short, Nat.not_le.mpr h.line⟩), if_neg Bool.false_ne_true,
    if_neg (Nat.not_le.mpr h.room)]
  rfl

theorem declarable_of_define {name expr : Text} (h : (ps.define name expr).1 ≠ .error) :
    Declarable ps.ctx name expr := by
  unfold define AsmCtx.declareDefine at h
  split_ifs at h with hlong hdefine hlabel hline hroom <;> first | exact absurd rfl h | skip
  rw [not_or] at hline
  exact ⟨Nat.lt_of_not_le hlong, Nat.lt_of_not_le hline.2, Bool.eq_false_iff.mpr hdefine,
    Option.not_isSome_iff_eq_none.mp hlabel, Nat.lt_of_not_le hroom⟩

/-- A `.define` that does not fail is skipped or declares. -/
theorem defineDirective_cases {args : List Text} (h : (ps.defineDirective args).1 ≠ .error) :
    ps.defineDirective args = (.ok, ps) ∨ ∃ name expr, defineParts args = some (name, expr) ∧
      Declarable ps.ctx name expr ∧
      ps.defineDirective args = (.ok, { ps with ctx := defined ps.ctx name expr }) := by
  rw [defineDirective_eq] at h ⊢
  split
  · exact .inl rfl
  rename_i hskips
  rw [if_neg hskips] at h
  cases hparts : defineParts args with
  | none =>
    rw [hparts] at h
    exact absurd rfl h
  | some parts =>
    obtain ⟨name, expr⟩ := parts
    rw [hparts] at h
    have hdeclarable := declarable_of_define h
    exact .inr ⟨name, expr, rfl, hdeclarable, define_eq hdeclarable⟩

/-- The label is accepted at the present index. -/
structure Free (ctx : AsmCtx) (name : Text) : Prop where
  room : ctx.labels.length < maxLabels
  short : name.length < 32
  letter : (name.head?.map isDigit).getD false = false
  label : ctx.findLabel name = none
  define : ctx.defineDeclared name = false

theorem declareLabel_free {name : Text} {isPublic : Bool} (h : Free ps.ctx name) :
    ps.declareLabel name isPublic = { ps with ctx := { ps.ctx with
      labels := ps.ctx.labels ++ [{ name := name, index := ps.idx, isPublic := isPublic }] } } := by
  unfold declareLabel
  dsimp only
  rw [if_neg (Nat.not_le.mpr h.room), if_neg (Nat.not_le.mpr h.short), h.letter,
    if_neg Bool.false_ne_true, h.label, h.define, if_neg Bool.false_ne_true]
  rfl

/-- A label that is declared without an error. -/
theorem declareLabel_ok {name : Text} {isPublic : Bool}
    (h : (ps.declareLabel name isPublic).ctx.out.ok = true) :
    Free ps.ctx name ∧ ps.declareLabel name isPublic = { ps with ctx := { ps.ctx with
      labels := ps.ctx.labels ++ [{ name := name, index := ps.idx, isPublic := isPublic }] } } := by
  have hfail : ∀ msg, (ps.ctx.setError msg).out.ok = false := by
    intro msg
    unfold AsmCtx.setError
    cases hok : ps.ctx.out.ok with
    | false => exact hok
    | true => rfl
  unfold declareLabel at h ⊢
  dsimp only at h ⊢
  split_ifs at h ⊢ with hroom hlong hdigit hlabel hdefine
  · rw [hfail] at h
    cases h
  · rw [hfail] at h
    cases h
  · rw [hfail] at h
    cases h
  · rw [hfail] at h
    cases h
  · rw [hfail] at h
    cases h
  · exact ⟨⟨Nat.lt_of_not_le hroom, Nat.lt_of_not_le hlong, Bool.eq_false_iff.mpr hdigit,
      Option.not_isSome_iff_eq_none.mp hlabel, Bool.eq_false_iff.mpr hdefine⟩, rfl⟩

theorem findLabel_eq_none {ctx : AsmCtx} {name : Text} :
    ctx.findLabel name = none ↔ ∀ l ∈ ctx.labels, l.name ≠ name := by
  simp [AsmCtx.findLabel]

theorem defineDeclared_eq_false {ctx : AsmCtx} {name : Text} :
    ctx.defineDeclared name = false ↔ ∀ d ∈ ctx.defines, d.name ≠ name := by
  simp [AsmCtx.defineDeclared, AsmCtx.findDefine]

end

/-! ### Counting -/

/-- A result that is no failure leaves the state where it was, but for the context and so many
words. -/
structure Counts (ps : ParseState) (words : ℕ) (r : LineResult × ParseState) : Prop where
  ok : r.1 = .ok
  rest : r.2 = { ps with ctx := r.2.ctx, idx := ps.idx + words }

section
omit [Platform]

theorem counts_same (ps : ParseState) : Counts ps 0 (.ok, ps) := ⟨rfl, rfl⟩

theorem counts_run {α : Type} {x : Step α} {words : ℕ}
    {k : α → ParseState → LineResult × ParseState}
    (hk : ∀ a ps, Counts ps words (k a ps)) (h : (ps.run x k).1 ≠ .error) :
    Counts ps words (ps.run x k) := by
  unfold run at h ⊢
  generalize x ps.ctx = r at h ⊢
  obtain ⟨_ | a, ctx⟩ := r
  · exact absurd rfl h
  · obtain ⟨hok, hrest⟩ := hk a { ps with ctx := ctx }
    exact ⟨hok, hrest⟩

theorem counts_emit (w : Insn) (ps : ParseState) :
    Counts ps 1 (.ok, { ps.emit w with idx := ps.idx + 1 }) := ⟨rfl, rfl⟩

theorem counts_word {args : List Text} (h : (ps.wordDirective args).1 ≠ .error) :
    ps.idx < 32 ∧ Counts ps 1 (ps.wordDirective args) := by
  unfold wordDirective at h ⊢
  by_cases hidx : 32 ≤ ps.idx
  · rw [if_pos hidx] at h
    exact absurd rfl h
  rw [if_neg hidx] at h ⊢
  refine ⟨Nat.lt_of_not_le hidx, ?_⟩
  split
  · rename_i hemit
    rw [if_pos hemit] at h
    exact counts_run counts_emit h
  · exact ⟨rfl, rfl⟩

end

theorem counts_instruction {line : Text} (h : (ps.handleInstruction line).1 ≠ .error) :
    ps.idx < 32 ∧ Counts ps 1 (ps.handleInstruction line) := by
  unfold handleInstruction at h ⊢
  by_cases hidx : 32 ≤ ps.idx
  · rw [if_pos hidx] at h
    exact absurd rfl h
  rw [if_neg hidx] at h ⊢
  refine ⟨Nat.lt_of_not_le hidx, ?_⟩
  split
  · rename_i hemit
    rw [if_pos hemit] at h
    generalize tokenize line maxTokens = r at h ⊢
    obtain ⟨tok, truncated⟩ := r
    dsimp only at h ⊢
    split_ifs at h ⊢
    · exact absurd rfl h
    · exact absurd rfl h
    · exact counts_run counts_emit h
  · exact ⟨rfl, rfl⟩

omit [Platform] in
theorem counts_wrap (h : ps.wrapDirective.1 ≠ .error) : Counts ps 0 ps.wrapDirective := by
  unfold wrapDirective at h ⊢
  split_ifs at h ⊢
  · exact absurd rfl h
  · exact absurd rfl h
  · exact ⟨rfl, rfl⟩

omit [Platform] in
theorem labelled_ctx (ps : ParseState) (label : Option (Text × Bool)) :
    ps.labelled label = { ps with ctx := (ps.labelled label).ctx } := by
  cases label with
  | none => rfl
  | some l =>
    unfold labelled
    dsimp only
    split
    · unfold declareLabel
      dsimp only
      split_ifs <;> rfl
    · rfl

/-! ### What stays -/

section
omit [Platform]

theorem programDirective_ctx (hpass : ps.pass ≠ .config) (args : List Text) :
    (ps.programDirective args).2.ctx = ps.ctx := by
  unfold programDirective
  split
  · rfl
  cases args with
  | nil => rfl
  | cons t rest =>
    dsimp only
    rw [decide_eq_false hpass, Bool.and_false, if_neg Bool.false_ne_true]

/-- A `.program` that does not end the pass. -/
theorem programDirective_opens (h : (ps.seenAnyProgram && ps.inProgram) = false)
    (args : List Text) :
    ps.programDirective args = (.ok, { ps with
      ctx := (ps.programDirective args).2.ctx, inProgram := selects ps.name args
      seenAnyProgram := true, idx := 0 }) := by
  unfold programDirective selects
  rw [h, if_neg Bool.false_ne_true] <;> cases ps.name <;> rfl

theorem wordDirective_counts (hpass : ps.pass ≠ .emit) (hidx : ps.idx < 32) (args : List Text) :
    ps.wordDirective args = (.ok, { ps with idx := ps.idx + 1 }) := by
  unfold wordDirective
  rw [if_neg (Nat.not_le.mpr hidx), if_neg hpass]

end

theorem handleInstruction_counts (hpass : ps.pass ≠ .emit) (hidx : ps.idx < 32) (line : Text) :
    ps.handleInstruction line = (.ok, { ps with idx := ps.idx + 1 }) := by
  unfold handleInstruction
  rw [if_neg (Nat.not_le.mpr hidx), if_neg hpass]

omit [Platform] in
theorem wordDirective_ctx (hpass : ps.pass ≠ .emit) {args : List Text}
    (h : (ps.wordDirective args).1 ≠ .error) :
    (ps.wordDirective args).2.ctx = ps.ctx := by
  rw [wordDirective_counts hpass (counts_word h).1]

theorem handleInstruction_ctx (hpass : ps.pass ≠ .emit) {line : Text}
    (h : (ps.handleInstruction line).1 ≠ .error) : (ps.handleInstruction line).2.ctx = ps.ctx := by
  rw [handleInstruction_counts hpass (counts_instruction h).1]

end ParseState

/-! ### What is carried -/

namespace Carried
variable [Platform] {I J : AsmCtx → Prop} {pass : Pass} (h : Carried pass I J) {ps : ParseState}
    {name : Option Text}
include h

open ParseState

omit [Platform] in
theorem labelled (hon : On pass name I ps) (label : Option (Text × Bool)) :
    On pass name I (ps.labelled label) := by
  cases label with
  | none => exact hon
  | some l =>
    unfold ParseState.labelled
    dsimp only
    split
    · rename_i hscan
      exact h.declareLabel (hon.pass_eq.symm.trans hscan) hon _ _
    · exact hon

theorem obey (hon : On pass name I ps) (s : Statement) :
    Ends pass name I J ((ps.obey s).1 ≠ .error) (ps.obey s).2 := by
  have hsame : ∀ {c : Prop} [Decidable c]
    {r : LineResult × ParseState}, (c → Ends pass name I J (r.1 ≠ .error) r.2) →
      Ends pass name I J ((if c then r else (.ok, ps)).1 ≠ .error) (if c then r else (.ok, ps)).2 := by
    intro c _ r hr
    split
    · rename_i hc
      exact hr hc
    · exact h.ends hon
  cases s with
  | nothing => exact h.ends hon
  | refused => exact h.ends (h.refused hon _)
  | program args => exact h.ends (h.programDirective hon args)
  | define args =>
    exact hsame fun hscan => h.ends (h.defineDirective (hon.pass_eq.symm.trans hscan) hon args)
  | wrapTarget => exact hsame fun hconfig => h.ends (h.written hconfig.2 hon _)
  | wrap => exact hsame fun hconfig => h.ends (h.wrapDirective hconfig.2 hon)
  | data args => exact hsame fun _ => h.wordDirective hon args
  | configure kind args =>
    refine hsame fun hconfig => ?_
    have hpass : pass ≠ .scan := by
      rw [← hon.pass_eq, hconfig.2]
      decide
    exact run (h.made hpass (made_configDirective kind args)) hon fun _ _ hon' => h.ends hon'
  | code label rest =>
    refine hsame fun _ => ?_
    have hlabel := h.labelled hon label
    unfold obeyCode
    dsimp only
    split
    · exact h.ends hlabel
    cases rest with
    | none => exact h.ends hlabel
    | some line => exact h.handleInstruction hlabel line

theorem runListing : ∀ (lines : List Line) (n : ℕ) (ps : ParseState), On pass name I ps →
    Ends pass name I J ((ParseState.runListing n ps lines).1 = true)
    (ParseState.runListing n ps lines).2 := by
  intro lines
  induction lines with
  | nil => exact fun n ps hon => h.ends hon
  | cons l rest ih =>
    intro n ps hon
    have hnext : On pass name I (ps.atLine n) := ⟨hon.pass_eq, hon.name_eq, h.line ps.ctx n hon.ctx⟩
    have hline := h.obey hnext l.statement
    rw [runListing_cons]
    generalize (ps.atLine n).obey l.statement = r at hline ⊢
    obtain ⟨_ | _ | _, q⟩ := r
    · exact ih _ _ ⟨hline.left.pass_eq, hline.left.name_eq, hline.done LineResult.noConfusion⟩
    · exact ⟨hline.left, fun _ => hline.done LineResult.noConfusion⟩
    · exact ⟨hline.left, fun hfalse => absurd hfalse Bool.false_ne_true⟩

end Carried

theorem ParseState.name_runOver [Platform] (ps : ParseState) (pass : Pass) (lines : List Line) :
    (ps.runOver pass lines).2.name = ps.name := by
  have hends := (Carried.trivially pass).runListing lines 1 { ps.plain with
    pass := pass, inProgram := false, seenAnyProgram := false, idx := 0 } ⟨rfl, rfl, trivial⟩
  exact hends.left.name_eq

end PioSim.Asm
