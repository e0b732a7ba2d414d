import PioSim.Asm.Unused

/-!
# Defines added, taken away or moved

The scan is the pass that declares. Over sources that differ in the defines of some new names only,
it leaves the same labels and the same other defines. Where nothing mentions the names, the passes
behind it come to the same program.
-/

namespace PioSim.Asm

/-! ### The scan -/

namespace AsmCtx
variable {names : List Text} {ctx ctx' : AsmCtx}

def mine (names : List Text) (ctx : AsmCtx) : List Text :=
  (ctx.defines.map (·.name)).filter fun name => decide (name ∈ names)

/-- The contexts differ in what has been declared of the names only. -/
structure Companion (names : List Text) (ctx ctx' : AsmCtx) : Prop where
  out : ctx'.out = ctx.out
  labels : ctx'.labels = ctx.labels
  others : ctx'.table.others names = ctx.table.others names
  operands : ctx'.operands = ctx.operands

theorem length_defines (names : List Text) (ctx : AsmCtx) :
    ctx.defines.length = (ctx.table.others names).length + (ctx.mine names).length := by
  have hothers : (ctx.table.others names).length = ctx.defines.countP fun d =>
      decide (d.name ∉ names) := by
    rw [Table.others, ← List.countP_eq_length_filter, table, List.countP_map]
    rfl
  have hmine : (ctx.mine names).length = ctx.defines.countP fun d => decide (d.name ∈ names) := by
    rw [mine, ← List.countP_eq_length_filter, List.countP_map]
    rfl
  rw [hothers, hmine, Nat.add_comm, List.length_eq_countP_add_countP fun d : Define => decide
    (d.name ∈ names)]
  simp

theorem Companion.defineDeclared (h : ctx.Companion names ctx') {name : Text}
    (hname : name ∉ names) :
    ctx'.defineDeclared name = ctx.defineDeclared name := by
  have htext : ∀ c : AsmCtx, c.defineDeclared name =
      ((c.table.others names).find? (·.1 = name)).isSome := by
    intro c
    rw [Table.find_others _ hname, AsmCtx.defineDeclared, findDefine, table, List.find?_map,
      Option.isSome_map]
    rfl
  rw [htext, htext, h.others]

theorem Companion.findLabel (h : ctx.Companion names ctx') (name : Text) :
    ctx'.findLabel name = ctx.findLabel name := by
  rw [AsmCtx.findLabel, AsmCtx.findLabel, h.labels]

theorem others_defined (names : List Text) (ctx : AsmCtx) (name expr : Text) :
    (ParseState.defined ctx name expr).table.others names =
      ctx.table.others names ++ if name ∈ names then [] else [(name, expr)] := by
  rw [Table.others, table, ParseState.defined, List.map_append, List.filter_append]
  by_cases hname : name ∈ names <;> simp [hname, Table.others, table]

theorem mine_defined (names : List Text) (ctx : AsmCtx) (name expr : Text) :
    (ParseState.defined ctx name expr).mine names = ctx.mine names ++ if name ∈ names then [name]
      else [] := by
  rw [mine, ParseState.defined, List.map_append, List.filter_append]
  by_cases hname : name ∈ names <;> simp [hname, mine]

end AsmCtx

def declaredNames (names : List Text) (name : Option Text) : Bool → Bool → List Line → List Text
  | _, _, [] => []
  | seen, inside, l :: rest =>
    match l.statement with
    | .program args =>
      if seen && inside then [] else declaredNames names name true (selects name args) rest
    | .define args =>
      (if !ParseState.defineParts.isPublicDefine args && seen && !inside then []
        else ((Statement.define args).defines names).toList) ++
          declaredNames names name seen inside rest
    | _ => declaredNames names name seen inside rest

/-- The names are new to the labels, each is declared once, and there is room for them. -/
structure Table.Fresh (names : List Text) (t : Table) (new : List Text) : Prop where
  labels : ∀ l ∈ t.labels, l.name ∉ names
  once : new.Nodup
  room : (t.others names).length + new.length ≤ maxDefines

theorem Table.Fresh.left {names : List Text} {t : Table} {new more : List Text}
    (h : t.Fresh names (new ++ more)) :
    t.Fresh names new where
  labels := h.labels
  once := h.once.of_append_left
  room := by
    have hroom := h.room
    rw [List.length_append] at hroom
    omega

theorem joinTokens_lt {tok : List Text} {s : Text} (h : joinTokens tok = some s) :
    s.length < maxLine := by
  have hfold : ∀ (tok : List Text) (buf s : Text), buf.length < maxLine →
      tok.foldlM (fun (buf tok : Text) => if maxLine ≤ buf.length + tok.length + 2 then none
        else some (if buf = [] then tok else buf ++ ' ' :: tok)) buf = some s →
            s.length < maxLine := by
    intro tok
    induction tok with
    | nil =>
      rintro buf s hbuf hs
      rw [← Option.some.inj hs]
      exact hbuf
    | cons a tok ih =>
      intro buf s hbuf hs
      rw [List.foldlM_cons] at hs
      by_cases hlong : maxLine ≤ buf.length + a.length + 2
      · rw [if_pos hlong] at hs
        cases hs
      · rw [if_neg hlong] at hs
        refine ih _ s ?_ hs
        split
        · omega
        · rw [List.length_append, List.length_cons]
          omega
  unfold joinTokens at h
  split at h
  · cases h
  · exact hfold tok [] s (by decide) h

namespace ParseState
variable [Platform] {names : List Text} {ps : ParseState} {ctx' : AsmCtx}

open AsmCtx

section
omit [Platform]

theorem defineParts_lt {args : List Text} {name expr : Text}
    (h : defineParts args = some (name, expr)) :
    expr.length < maxLine := by
  unfold defineParts at h
  split at h
  · obtain ⟨expr', hjoin, hpair⟩ := Option.map_eq_some_iff.mp h
    rw [← (Prod.mk.inj hpair).2]
    exact joinTokens_lt hjoin
  · cases h

theorem defines_eq_some {args : List Text} {name : Text}
    (h : (Statement.define args).defines names = some name) :
    name ∈ names ∧ name.length < 32 ∧ ∃ expr, defineParts args = some (name, expr) := by
  obtain ⟨⟨name', expr⟩, hparts, hsome⟩ := Option.bind_eq_some_iff.mp h
  dsimp only at hsome
  split_ifs at hsome with hname
  obtain rfl := Option.some.inj hsome
  exact ⟨hname.1, hname.2, expr, hparts⟩

theorem not_mem_of_defines {args : List Text} {name expr : Text}
    (h : (Statement.define args).defines names = none)
    (hparts : defineParts args = some (name, expr)) (hshort : name.length < 32) : name ∉ names := by
  intro hmem
  rw [Statement.defines, hparts, Option.bind_some, if_pos ⟨hmem, hshort⟩] at h
  cases h

/-- What the scan does about a line that is no `.program`, over a companion of the context. -/
def Accompanied (names : List Text) (ps : ParseState) (ctx' : AsmCtx)
    (r r' : LineResult × ParseState) : Prop :=
  r.1 = .ok ∧ ∃ ctx₁', r'.1 = .ok ∧ r'.2 = r.2.withCtx ctx₁' ∧ r.2.ctx.Companion names ctx₁' ∧
    ctx₁'.mine names = ctx'.mine names ∧
    r.2 = { ps with ctx := r.2.ctx, idx := r.2.idx }

theorem accompanied_same (h : ps.ctx.Companion names ctx') :
    Accompanied names ps ctx' (.ok, ps) (.ok, ps.withCtx ctx') :=
  ⟨rfl, ctx', rfl, rfl, h, rfl, rfl⟩

end

/-- A define of another name is declared over a companion too. -/
theorem accompanied_define (hscan : ps.pass = .scan) (h : ps.ctx.Companion names ctx')
    {args : List Text}
    (hother : (Statement.define args).defines names = none)
    (hok : (ps.obey (.define args)).1 ≠ .error)
    (hroom : ((ps.obey (.define args)).2.ctx.table.others names).length +
      (ctx'.mine names).length ≤ maxDefines) :
    Accompanied names ps ctx' (ps.obey (.define args)) ((ps.withCtx ctx').obey (.define args)) := by
  have hobey : ps.obey (.define args) = ps.defineDirective args := if_pos hscan
  have hobey' : (ps.withCtx ctx').obey (.define args) =
    (ps.withCtx ctx').defineDirective args := if_pos hscan
  rw [hobey] at hok hroom ⊢
  rw [hobey']
  have heq' := (ps.withCtx ctx').defineDirective_eq args
  rw [show (ps.withCtx ctx').skipsDefine args = ps.skipsDefine args from rfl] at heq'
  have heq := ps.defineDirective_eq args
  cases hskips : ps.skipsDefine args with
  | true =>
    rw [hskips, if_pos rfl] at heq heq'
    rw [heq, heq']
    exact accompanied_same h
  | false =>
    rw [hskips, if_neg Bool.false_ne_true] at heq heq'
    rw [heq] at hok hroom ⊢
    rw [heq']
    cases hparts : defineParts args with
    | none =>
      rw [hparts] at hok
      exact absurd rfl hok
    | some d =>
      obtain ⟨name, expr⟩ := d
      rw [hparts] at hok hroom
      dsimp only at hok hroom ⊢
      have hdeclarable := declarable_of_define hok
      have hname := not_mem_of_defines hother hparts hdeclarable.short
      rw [define_eq hdeclarable] at hroom ⊢
      have hothers := others_defined names ps.ctx name expr
      rw [if_neg hname] at hothers
      have hroom' : ctx'.defines.length < maxDefines := by
        rw [length_defines names ctx', h.others]
        rw [hothers, List.length_append, List.length_singleton] at hroom
        omega
      have hdeclarable' : Declarable (ps.withCtx ctx').ctx name expr :=
        ⟨hdeclarable.short, hdeclarable.line, (h.defineDeclared hname).trans hdeclarable.define,
          (h.findLabel name).trans hdeclarable.label, hroom'⟩
      rw [define_eq hdeclarable']
      refine ⟨rfl, defined ctx' name expr, rfl, rfl, ⟨h.out, h.labels, ?_, h.operands⟩, ?_, rfl⟩
      · rw [others_defined, others_defined, h.others]
      · rw [mine_defined, if_neg hname, List.append_nil]

omit [Platform] in
/-- A label with another name is declared over a companion too. -/
theorem accompanied_labelled (hscan : ps.pass = .scan) (h : ps.ctx.Companion names ctx')
    (label : Option (Text × Bool)) (hok : (ps.labelled label).ctx.out.ok = true)
    (hlabels : ∀ l ∈ (ps.labelled label).ctx.labels, l.name ∉ names) :
    ∃ ctx₁', (ps.withCtx ctx').labelled label = (ps.labelled label).withCtx ctx₁' ∧
      (ps.labelled label).ctx.Companion names ctx₁' ∧ ctx₁'.mine names = ctx'.mine names := by
  cases label with
  | none => exact ⟨ctx', rfl, h, rfl⟩
  | some l =>
    obtain ⟨name, isPublic⟩ := l
    have hlabelled : ps.labelled (some (name, isPublic)) =
      ps.declareLabel name isPublic := if_pos hscan
    have hlabelled' : (ps.withCtx ctx').labelled (some (name, isPublic)) =
        (ps.withCtx ctx').declareLabel name isPublic := if_pos hscan
    rw [hlabelled] at hok hlabels ⊢
    rw [hlabelled']
    obtain ⟨hfree, hdeclares⟩ := declareLabel_ok hok
    rw [hdeclares] at hlabels ⊢
    have hname : name ∉ names := hlabels _ (List.mem_append_right _ List.mem_cons_self)
    have hfree' : Free ctx' name :=
      ⟨by rw [h.labels]; exact hfree.room, hfree.short, hfree.letter,
        (h.findLabel name).trans hfree.label, (h.defineDeclared hname).trans hfree.define⟩
    have hdeclares' : (ps.withCtx ctx').declareLabel name isPublic = _ := declareLabel_free hfree'
    refine ⟨{ ctx' with labels := ctx'.labels ++
      [{ name := name, index := ps.idx, isPublic := isPublic }] }, hdeclares',
      ⟨h.out, ?_, h.others, h.operands⟩, rfl⟩
    exact congrArg
      (· ++ [({ name := name, index := ps.idx, isPublic := isPublic } : Label)]) h.labels

omit [Platform] in
theorem accompanied_index (h : ps.ctx.Companion names ctx') (k : ℕ) :
    Accompanied names ps
    ctx' (.ok, { ps with idx := k }) (.ok, { ps.withCtx ctx' with idx := k }) :=
  ⟨rfl, ctx', rfl, rfl, h, rfl, rfl⟩

theorem accompanied_instruction (hscan : ps.pass = .scan) (h : ps.ctx.Companion names ctx')
    {line : Text}
    (hok : (ps.handleInstruction line).1 ≠ .error) :
    Accompanied names ps ctx' (ps.handleInstruction line)
    ((ps.withCtx ctx').handleInstruction line) := by
  have hcounts : ∀ q : ParseState, q.pass = .scan → q.idx < 32 →
      q.handleInstruction line = (.ok, { q with idx := q.idx + 1 }) :=
    fun q hq hidx => handleInstruction_counts (by rw [hq]; decide) hidx line
  obtain ⟨hidx, -⟩ := counts_instruction hok
  rw [hcounts ps hscan hidx, hcounts (ps.withCtx ctx') hscan hidx]
  exact accompanied_index h (ps.idx + 1)

theorem accompanied_code (hscan : ps.pass = .scan) (h : ps.ctx.Companion names ctx')
    (label : Option (Text × Bool)) (rest : Option Text) (hok : (ps.obeyCode label rest).1 ≠ .error)
    (hlabels : ∀ l ∈ (ps.obeyCode label rest).2.ctx.labels, l.name ∉ names) :
    Accompanied names ps ctx' (ps.obeyCode label rest) ((ps.withCtx ctx').obeyCode label rest) := by
  have hlabelled := accompanied_labelled hscan h label
  have hctx := ps.labelled_ctx label
  unfold obeyCode at hok hlabels ⊢
  dsimp only at hok hlabels ⊢
  generalize ps.labelled label = q at hlabelled hctx hok hlabels ⊢
  cases hout : q.ctx.out.ok with
  | false =>
    rw [hout] at hok
    exact absurd rfl hok
  | true =>
    rw [hout] at hok hlabels
    have hscan' : q.pass = .scan := by
      rw [hctx]
      exact hscan
    have hout' : ∀ ctx₁' : AsmCtx, q.ctx.Companion names ctx₁' →
        (q.withCtx ctx₁').ctx.out.ok = true :=
      fun _ hcompanion => (congrArg Program.ok hcompanion.out).trans hout
    cases rest with
    | none =>
      obtain ⟨ctx₁', hq', hcompanion, hmine⟩ := hlabelled hout hlabels
      rw [hq', hout' ctx₁' hcompanion]
      refine ⟨rfl, ctx₁', rfl, rfl, hcompanion, hmine, ?_⟩
      change q = { ps with ctx := q.ctx, idx := q.idx }
      rw [hctx]
    | some line =>
      have hok : (q.handleInstruction line).1 ≠ .error := hok
      have hlabels : ∀ l ∈ (q.handleInstruction line).2.ctx.labels, l.name ∉ names := hlabels
      rw [handleInstruction_ctx (by rw [hscan']; decide) hok] at hlabels
      obtain ⟨ctx₁', hq', hcompanion, hmine⟩ := hlabelled hout hlabels
      rw [hq', hout' ctx₁' hcompanion]
      obtain ⟨hdone, ctx₂', hdone', hstate, hcompanion', hmine', hsame⟩ :=
        accompanied_instruction hscan' hcompanion hok
      refine ⟨hdone, ctx₂', hdone', hstate, hcompanion', hmine'.trans hmine, ?_⟩
      refine Eq.trans hsame ?_
      rw [hctx]
      rfl

/-- The scan does the same over a companion, with other names. -/
theorem accompanied_obey (hscan : ps.pass = .scan) (h : ps.ctx.Companion names ctx') {s : Statement}
    (hprogram : s.programArgs = none) (hother : s.defines names = none)
    (hok : (ps.obey s).1 ≠ .error) (hlabels : ∀ l ∈ (ps.obey s).2.ctx.labels, l.name ∉ names)
    (hroom : ((ps.obey s).2.ctx.table.others names).length +
      (ctx'.mine names).length ≤ maxDefines) :
    Accompanied names ps ctx' (ps.obey s) ((ps.withCtx ctx').obey s) := by
  have hconfig : ¬ (ps.inProgram = true ∧ ps.pass = .config) := by
    rw [hscan]
    exact fun hc => Pass.noConfusion hc.2
  have hskip : ∀ {r r' : LineResult × ParseState},
      Accompanied names ps ctx' (if ps.inProgram = true ∧ ps.pass = .config then r else (.ok, ps))
        (if ps.inProgram = true ∧ ps.pass = .config then r' else (.ok, ps.withCtx ctx')) := by
    intro r r'
    rw [if_neg hconfig, if_neg hconfig]
    exact accompanied_same h
  cases s with
  | nothing => exact accompanied_same h
  | refused => exact absurd rfl hok
  | program args => cases hprogram
  | define args => exact accompanied_define hscan h hother hok hroom
  | wrapTarget => exact hskip
  | wrap => exact hskip
  | configure kind args => exact hskip
  | data args =>
    cases hin : ps.inProgram with
    | false =>
      have hobey : ∀ q : ParseState, q.inProgram = false → q.obey (.data args) = (.ok, q) :=
        fun q hq => if_neg (Bool.eq_false_iff.mp hq)
      rw [hobey ps hin, hobey (ps.withCtx ctx') hin]
      exact accompanied_same h
    | true =>
      have hobey : ∀ q : ParseState, q.inProgram = true →
          q.obey (.data args) = q.wordDirective args :=
        fun q hq => if_pos hq
      have hcounts : ∀ q : ParseState, q.pass = .scan → q.idx < 32 →
          q.wordDirective args = (.ok, { q with idx := q.idx + 1 }) :=
        fun q hq hidx => wordDirective_counts (by rw [hq]; decide) hidx args
      rw [hobey ps hin] at hok ⊢
      obtain ⟨hidx, -⟩ := counts_word hok
      rw [hobey (ps.withCtx ctx') hin, hcounts ps hscan hidx, hcounts (ps.withCtx ctx') hscan hidx]
      exact accompanied_index h (ps.idx + 1)
  | code label rest =>
    cases hin : ps.inProgram with
    | false =>
      have hobey : ∀ q : ParseState, q.inProgram = false → q.obey (.code label rest) = (.ok, q) :=
        fun q hq => if_neg (Bool.eq_false_iff.mp hq)
      rw [hobey ps hin, hobey (ps.withCtx ctx') hin]
      exact accompanied_same h
    | true =>
      have hobey : ∀ q : ParseState, q.inProgram = true →
          q.obey (.code label rest) = q.obeyCode label rest :=
        fun q hq => if_pos hq
      rw [hobey ps hin] at hok hlabels ⊢
      rw [hobey (ps.withCtx ctx') hin]
      exact accompanied_code hscan h label rest hok hlabels

omit [Platform] in
/-- What has been declared stays. -/
theorem carried_declared (names : List Text) (ctx₀ : AsmCtx) :
    let I := fun ctx : AsmCtx => ctx₀.labels ⊆ ctx.labels ∧
      (ctx₀.table.others names).length ≤ (ctx.table.others names).length
    Carried .scan I I where
  left _ h := h
  line _ _ h := h
  error _ _ _ h := h
  error_left _ _ _ h := h
  write _ _ _ h := h
  resolveUint hscan := absurd rfl hscan
  define _ ctx name expr ctx' hctx h := by
    have hdefined : ctx' = defined ctx name expr := by
      unfold declareDefine at hctx
      split_ifs at hctx
      exact (Option.some.inj hctx).symm
    rw [hdefined, others_defined, List.length_append]
    exact ⟨h.1, h.2.trans (Nat.le_add_right _ _)⟩
  label _ ctx l h := ⟨List.Subset.trans h.1 (List.subset_append_left _ _), h.2⟩

/-- A define of the names leaves a companion one. -/
theorem companion_defines (hscan : ps.pass = .scan) (h : ps.ctx.Companion names ctx')
    {s : Statement} {name : Text}
    (hs : s.defines names = some name) (hok : (ps.obey s).1 ≠ .error) :
    ∃ ctx₁, ps.obey s = (.ok, ps.withCtx ctx₁) ∧ ctx₁.Companion names ctx' := by
  cases s with
  | define args =>
    obtain ⟨hname, -, expr, hparts⟩ := defines_eq_some hs
    have hobey : ps.obey (.define args) = ps.defineDirective args := if_pos hscan
    rw [hobey] at hok ⊢
    rcases defineDirective_cases hok with hskips | ⟨name', expr', hparts', -, hdeclares⟩
    · exact ⟨ps.ctx, hskips, h⟩
    · rw [hparts] at hparts'
      obtain ⟨rfl, rfl⟩ := Prod.mk.inj (Option.some.inj hparts')
      refine ⟨defined ps.ctx name expr, hdeclares, h.out, h.labels, ?_, h.operands⟩
      rw [others_defined, if_pos hname, List.append_nil, h.others]
  | _ => cases hs

/-- A define of a new name is declared. -/
theorem obey_fresh (hscan : ps.pass = .scan) {args : List Text} {name : Text}
    (hs : (Statement.define args).defines names = some name) (hskips : ps.skipsDefine args = false)
    (hlabels : ∀ l ∈ ps.ctx.labels, l.name ∉ names) (hnew : name ∉ ps.ctx.mine names)
    (hroom : ps.ctx.defines.length < maxDefines) :
    ∃ expr, ps.obey (.define args) = (.ok, ps.withCtx (defined ps.ctx name expr)) := by
  obtain ⟨hname, hshort, expr, hparts⟩ := defines_eq_some hs
  have hdefine : ∀ d ∈ ps.ctx.defines, d.name ≠ name := by
    rintro d hd rfl
    exact hnew (List.mem_filter.mpr ⟨List.mem_map_of_mem hd, decide_eq_true hname⟩)
  have hdeclarable : Declarable ps.ctx name expr :=
    ⟨hshort, defineParts_lt hparts, defineDeclared_eq_false.mpr hdefine,
      findLabel_eq_none.mpr fun l hl heq => hlabels l hl (heq ▸ hname), hroom⟩
  have hobey : ps.obey (.define args) = ps.defineDirective args := if_pos hscan
  refine ⟨expr, ?_⟩
  rw [hobey, defineDirective_eq, hskips, if_neg Bool.false_ne_true, hparts]
  exact define_eq hdeclarable

section
omit [Platform]

theorem declaredNames_define (names : List Text) (ps : ParseState) {l : Line} {args : List Text}
    (hl : l.statement = .define args) (rest : List Line) :
    declaredNames names ps.name ps.seenAnyProgram ps.inProgram (l :: rest) =
      (if ps.skipsDefine args then [] else ((Statement.define args).defines names).toList) ++
        declaredNames names ps.name ps.seenAnyProgram ps.inProgram rest := by
  rw [declaredNames, hl]
  rfl

theorem declaredNames_program {name : Option Text} {seen inside : Bool} {l : Line}
    {args : List Text}
    (hl : l.statement.programArgs = some args) (rest : List Line) :
    declaredNames names name seen inside (l :: rest) =
      if seen && inside then [] else declaredNames names name true (selects name args) rest := by
  rw [declaredNames, Statement.eq_program hl]

theorem declaredNames_other {name : Option Text} {seen inside : Bool} {l : Line}
    (hprogram : l.statement.programArgs = none) (hother : l.statement.defines names = none)
    (rest : List Line) :
    declaredNames names name seen inside (l :: rest) =
      declaredNames names name seen inside rest := by
  rw [declaredNames]
  cases hl : l.statement with
  | program args =>
    rw [hl] at hprogram
    cases hprogram
  | define args =>
    rw [hl] at hother
    dsimp only
    rw [hother]
    split <;> rfl
  | _ => rfl

end

theorem obey_of_runListing {n : ℕ} {l : Line} {rest : List Line}
    (h : (runListing n ps (l :: rest)).1 = true) :
    ((ps.atLine n).obey l.statement).1 ≠ .error := by
  intro herror
  rw [runListing_cons] at h
  generalize (ps.atLine n).obey l.statement = r at herror h
  obtain ⟨result, q⟩ := r
  obtain rfl : result = .error := herror
  exact absurd h Bool.false_ne_true

omit [Platform] in
/-- A `.program` off the config pass. -/
theorem programDirective_counts (hpass : ps.pass ≠ .config) (args : List Text) :
    ps.programDirective args =
    if ps.seenAnyProgram && ps.inProgram then (.done, ps)
    else (.ok, { ps with inProgram := selects ps.name args, seenAnyProgram := true, idx := 0 }) := by
  cases hin : ps.seenAnyProgram && ps.inProgram with
  | true =>
    unfold programDirective
    rw [hin]
    rfl
  | false =>
    rw [programDirective_opens hin, programDirective_ctx hpass]
    rfl

/-- What a listing still declares is fresh over what the scan has declared. -/
theorem fresh_now (hscan : ps.pass = .scan) {n : ℕ} {lines : List Line} {new : List Text}
    (h : (runListing n ps lines).2.ctx.table.Fresh names new) : ps.ctx.table.Fresh names new := by
  have hends := ((carried_declared names ps.ctx).runListing lines n ps
    ⟨hscan, rfl, List.Subset.refl _, Nat.le_refl _⟩).left.ctx
  exact ⟨fun l hl => h.labels l (hends.1 hl), h.once, (Nat.add_le_add_right hends.2 _).trans h.room⟩

/-- The scan does the same over a companion, and declares the names that are new. -/
theorem accompanied_runListing {lines lines' : List Line} (hlines : Padded names lines lines') :
    ∀ (n n' : ℕ) (ps : ParseState) (ctx' : AsmCtx), ps.pass = .scan → ps.ctx.Companion names ctx' →
      (runListing n ps lines).1 = true →
      (runListing n ps lines).2.ctx.table.Fresh names
        (ctx'.mine names ++ declaredNames names ps.name ps.seenAnyProgram ps.inProgram lines') →
      ∃ ctx₁', runListing n' (ps.withCtx ctx') lines' = (true, (runListing n ps lines).2.withCtx ctx₁') ∧
        (runListing n ps lines).2.ctx.Companion names ctx₁' := by
  induction hlines with
  | nil => exact fun n n' ps ctx' _ h _ _ => ⟨ctx', rfl, h⟩
  | @same l lines lines' hl _ ih =>
    intro n n' ps ctx' hscan h hdone hfresh
    have hatLine : Companion names (ps.atLine n).ctx { ctx' with lineNo := n' } :=
      ⟨h.out, h.labels, h.others, h.operands⟩
    have hok := obey_of_runListing hdone
    have hnow : (ps.atLine n).pass = .scan := hscan
    rw [runListing_cons n ps] at hdone hfresh ⊢
    rw [runListing_cons n' (ps.withCtx ctx')]
    cases hprogram : l.statement.programArgs with
    | some args =>
      have hconfig : ∀ q : ParseState, q.pass = .scan → q.pass ≠ .config := fun q hq => by
        rw [hq]
        decide
      have hobey : ∀ q : ParseState, q.pass = .scan → q.obey l.statement =
          if q.seenAnyProgram && q.inProgram then (.done, q)
          else (.ok, { q with inProgram := selects q.name args, seenAnyProgram := true, idx := 0 }) := by
        intro q hq
        rw [Statement.eq_program hprogram]
        exact programDirective_counts (hconfig q hq) args
      rw [declaredNames_program hprogram] at hfresh
      by_cases hin : (ps.seenAnyProgram && ps.inProgram) = true
      · rw [(hobey (ps.atLine n) hscan).trans (if_pos hin),
          (hobey ((ps.withCtx ctx').atLine n') hscan).trans (if_pos hin)]
        exact ⟨{ ctx' with lineNo := n' }, rfl, hatLine⟩
      · rw [(hobey (ps.atLine n) hscan).trans (if_neg hin)] at hdone hfresh ⊢
        rw [(hobey ((ps.withCtx ctx').atLine n') hscan).trans (if_neg hin)]
        rw [if_neg hin] at hfresh
        exact ih (n + 1) (n' + 1) { ps.atLine n with
          inProgram := selects ps.name args, seenAnyProgram := true, idx := 0 }
            { ctx' with lineNo := n' }
          hscan hatLine hdone hfresh
    | none =>
      rw [declaredNames_other hprogram hl] at hfresh
      have hstays : ∀ q : ParseState, (ps.atLine n).obey l.statement = (.ok, q) →
          q.pass = .scan := by
        intro q hq
        have hon : Carried.On .scan ps.name (fun _ => True) (ps.atLine n) := ⟨hscan, rfl, trivial⟩
        have hends := ((Carried.trivially .scan).obey hon l.statement).left.pass_eq
        rw [hq] at hends
        exact hends
      have hline := accompanied_obey hnow hatLine hprogram hl hok
      generalize (ps.atLine n).obey l.statement = r at hline hok hstays hdone hfresh ⊢
      obtain ⟨result, q⟩ := r
      cases result with
      | error => exact absurd rfl hok
      | done =>
        have hnow : q.ctx.table.Fresh names _ := hfresh
        obtain ⟨hfalse, -⟩ := hline hnow.labels hnow.left.room
        cases hfalse
      | ok =>
        have hscan' := hstays q rfl
        have hnow : q.ctx.table.Fresh names _ := fresh_now hscan' hfresh
        obtain ⟨-, ctx₁', hok', hstate, hcompanion, hmine, hsame⟩ :=
          hline hnow.labels hnow.left.room
        have hobey : ((ps.withCtx ctx').atLine n').obey l.statement = (.ok, q.withCtx ctx₁') :=
          Prod.ext hok' hstate
        have hflags : declaredNames names q.name q.seenAnyProgram q.inProgram lines' =
            declaredNames names ps.name ps.seenAnyProgram ps.inProgram lines' := by
          have hsame : q = { ps.atLine n with ctx := q.ctx, idx := q.idx } := hsame
          rw [hsame]
          rfl
        have hmine : ctx₁'.mine names = ctx'.mine names := hmine
        rw [← hmine, ← hflags] at hfresh
        rw [hobey]
        exact ih (n + 1) (n' + 1) q ctx₁' hscan' hcompanion hdone hfresh
  | @left l lines lines' hl _ ih =>
    intro n n' ps ctx' hscan h hdone hfresh
    have hatLine : (ps.atLine n).ctx.Companion names ctx' := ⟨h.out, h.labels, h.others, h.operands⟩
    obtain ⟨name, hname⟩ := Option.isSome_iff_exists.mp hl
    have hnow : (ps.atLine n).pass = .scan := hscan
    obtain ⟨ctx₁, hobey, hcompanion⟩ :=
      companion_defines hnow hatLine hname (obey_of_runListing hdone)
    rw [runListing_cons, hobey] at hdone hfresh ⊢
    exact ih (n + 1) n' ((ps.atLine n).withCtx ctx₁) ctx' hscan hcompanion hdone hfresh
  | @right l lines lines' hl _ ih =>
    intro n n' ps ctx' hscan h hdone hfresh
    obtain ⟨name, hname⟩ := Option.isSome_iff_exists.mp hl
    have hatLine : Companion names ps.ctx { ctx' with lineNo := n' } :=
      ⟨h.out, h.labels, h.others, h.operands⟩
    rw [runListing_cons]
    cases hstatement : l.statement with
    | define args =>
      rw [hstatement] at hname
      rw [declaredNames_define names ps hstatement, hname] at hfresh
      cases hskips : ps.skipsDefine args with
      | true =>
        rw [hskips] at hfresh
        have hobey : ((ps.withCtx ctx').atLine n').obey (.define args) =
            (.ok, (ps.withCtx ctx').atLine n') := by
          have hscans : ((ps.withCtx ctx').atLine n').obey (.define args) =
              ((ps.withCtx ctx').atLine n').defineDirective args := if_pos hscan
          rw [hscans, defineDirective_eq]
          exact if_pos hskips
        rw [hobey]
        exact ih n (n' + 1) ps { ctx' with lineNo := n' } hscan hatLine hdone hfresh
      | false =>
        rw [hskips] at hfresh
        have hnow : ps.ctx.table.Fresh names _ := fresh_now hscan hfresh
        have hnew : name ∉ ctx'.mine names := by
          intro hmem
          exact List.disjoint_of_nodup_append hnow.once hmem
            (List.mem_append_left _ List.mem_cons_self)
        have hroom : ctx'.defines.length < maxDefines := by
          have hroom := hnow.room
          rw [List.length_append, List.length_append] at hroom
          rw [length_defines names ctx', h.others]
          exact (Nat.add_le_add_left (Nat.add_le_add_left (Nat.le_add_right 1 _) _) _).trans hroom
        have hscan' : ((ps.withCtx ctx').atLine n').pass = .scan := hscan
        have hlabels : ((ps.withCtx ctx').atLine n').ctx.labels = ps.ctx.labels := h.labels
        obtain ⟨expr, hobey⟩ := obey_fresh hscan' hname hskips (hlabels ▸ hnow.labels) hnew hroom
        rw [hobey]
        refine ih n (n' + 1) ps (defined { ctx' with lineNo := n' } name expr) hscan ?_ hdone ?_
        · refine ⟨h.out, h.labels, ?_, h.operands⟩
          rw [others_defined, if_pos (defines_eq_some hname).1, List.append_nil]
          exact h.others
        · rw [mine_defined, if_pos (defines_eq_some hname).1, List.append_assoc]
          exact hfresh
    | _ =>
      rw [hstatement] at hname
      cases hname

end ParseState

/-! ### The stages -/

namespace ParseState
variable [Platform] {t t' : Table} {p : Program} {ps : ParseState} {ctx' : AsmCtx}

open AsmCtx

omit [Platform] in
theorem parallel_finishConfig (h : Parallel t t' p ps.ctx ctx') (hdone : ps.finishConfig.1 = true) :
    ∃ p₁ ctx₁', (ps.withCtx ctx').finishConfig = (true, ps.finishConfig.2.withCtx ctx₁') ∧
      Parallel t t' p₁ ps.finishConfig.2.ctx ctx₁' := by
  have hout : ctx'.out = ps.ctx.out := h.right.out.trans h.left.out.symm
  have hwritten := h.write (fun out => { out with
    count := ps.idx, wrapTop := if out.wrapTop = 255 then ps.idx - 1 else out.wrapTop })
      ps.ctx.lineNo ctx'.lineNo
  unfold finishConfig at hdone ⊢
  rw [show (ps.withCtx ctx').ctx.out = ps.ctx.out from hout,
    show (ps.withCtx ctx').idx = ps.idx from rfl]
  dsimp only at hdone ⊢
  by_cases hzero : ps.idx = 0
  · rw [if_pos hzero] at hdone
    cases hdone
  by_cases hbottom : ps.idx ≤ ps.ctx.out.wrapBottom
  · rw [if_neg hzero, if_pos hbottom] at hdone
    cases hdone
  · rw [if_neg hzero, if_neg hbottom, if_neg hzero, if_neg hbottom]
    rw [hout] at hwritten
    exact ⟨_, _, rfl, hwritten⟩

omit [Platform] in
theorem parallel_exportLabels (h : Parallel t t' p ps.ctx ctx') (hlabels : t'.labels = t.labels)
    (hdone : ps.exportLabels.1 = true) :
    (ps.withCtx ctx').exportLabels.1 = true ∧
      (ps.withCtx ctx').exportLabels.2.ctx.out = ps.exportLabels.2.ctx.out := by
  have hout : ctx'.out = ps.ctx.out := h.right.out.trans h.left.out.symm
  have hsame : ctx'.labels = ps.ctx.labels :=
    (congrArg Table.labels h.right.table).trans
      (hlabels.trans (congrArg Table.labels h.left.table).symm)
  unfold exportLabels at hdone ⊢
  rw [show (ps.withCtx ctx').ctx.out = ps.ctx.out from hout,
    show (ps.withCtx ctx').ctx.labels = ps.ctx.labels from hsame]
  dsimp only at hdone ⊢
  split_ifs at hdone ⊢
  exact ⟨hdone, rfl⟩

end ParseState

/-! ### The assembly -/

section Assembly
variable [Platform] {names : List Text} {src src' : Text} {name : Option Text}

open ParseState AsmCtx

/-- The second source differs from the first in defines of the names, which are new and which
nothing the assembly looks at mentions. -/
structure UnusedDefines (names : List Text) (src src' : Text) (name : Option Text) : Prop where
  lines : otherLines names (listing src') = otherLines names (listing src)
  operands : ∀ s ∈ (emitted src name).2.ctx.operands, Avoids names s
  texts : ∀ d ∈ (symbols src name).others names, Avoids names d.2
  fresh : (symbols src name).Fresh names (declaredNames names name false false (listing src'))

theorem UnusedDefines.scans (h : UnusedDefines names src src' name)
    (hscan : (scanned src name).1 = true) :
    ∃ ctx', scanned src' name = (true, (scanned src name).2.withCtx ctx') ∧
      (scanned src name).2.ctx.Companion names ctx' :=
  accompanied_runListing (padded_of_otherLines _ _ h.lines) 1 1 { (ParseState.start name).plain with
    pass := .scan, inProgram := false, seenAnyProgram := false, idx := 0 }
      (ParseState.start name).ctx rfl
    ⟨rfl, rfl, rfl, rfl⟩ hscan h.fresh

/-- The stages of an assembly, one after the other. -/
theorem assembleListing_of_stages {lines : List Line} {ps₁ ps₂ ps₃ ps₄ : ParseState}
    (hscan : (ParseState.start name).runOver .scan lines = (true, ps₁))
    (hconfig : ps₁.runOver .config lines = (true, ps₂)) (hfinish : ps₂.finishConfig = (true, ps₃))
    (hemit : ps₃.runOver .emit lines = (true, ps₄)) :
    assembleListing lines name = (ps₄.exportLabels.1, ps₄.exportLabels.2.ctx.out) := by
  unfold assembleListing
  rw [stages, hscan]
  dsimp only
  rw [stages, hconfig]
  dsimp only
  rw [stages, hfinish]
  dsimp only
  rw [stages, hemit]
  dsimp only
  rw [stages]
  generalize ps₄.exportLabels = r
  obtain ⟨_ | _, ps₅⟩ := r <;> rfl

theorem operands_runOver (pass : Pass) (ps : ParseState) (lines : List Line) :
    ps.ctx.operands ⊆ (ps.runOver pass lines).2.ctx.operands :=
  ((carried_operands pass ps.ctx.operands).runListing lines 1 { ps.plain with
    pass := pass, inProgram := false, seenAnyProgram := false, idx := 0 }
    ⟨rfl, rfl, List.Subset.refl _⟩).left.ctx

/-- Behind the scan a stage over the one source does the same over the other. -/
theorem UnusedDefines.runOver (h : UnusedDefines names src src' name) {t t' : Table}
    (hbeside : t.Beside names t')
    {pass : Pass} (hpass : pass ≠ .scan) {p : Program} {ps : ParseState} {ctx' : AsmCtx}
    (hparallel : Parallel t t' p ps.ctx ctx') (hdone : (ps.runOver pass (listing src)).1 = true)
    (havoids : ∀ s ∈ (ps.runOver pass (listing src)).2.ctx.operands, Avoids names s) :
    ∃ p₁ ctx₁', (ps.withCtx ctx').runOver pass (listing src') =
        (true, (ps.runOver pass (listing src)).2.withCtx ctx₁') ∧
      Parallel t t' p₁ (ps.runOver pass (listing src)).2.ctx ctx₁' :=
  spared_runListing hbeside (padded_of_otherLines _ _ h.lines) 1 1 p { ps.plain with
    pass := pass, inProgram := false, seenAnyProgram := false, idx := 0 } ctx' hpass hparallel
      hdone havoids

/-- Defines that nothing mentions change neither the labels nor the program. -/
theorem UnusedDefines.assembles (h : UnusedDefines names src src' name)
    (hok : (pioAsmAssemble src name).1 = true) :
    pioAsmAssemble src' name = pioAsmAssemble src name ∧
      (symbols src' name).labels = (symbols src name).labels := by
  obtain ⟨hscan, hconfig, hfinish, hemit, hexport, hresult⟩ := assembled hok
  obtain ⟨ctx₁, hscan', hcompanion⟩ := h.scans hscan
  have hsymbols : symbols src' name = ctx₁.table :=
    congrArg (fun r : Bool × ParseState => r.2.ctx.table) hscan'
  have hbeside : (symbols src name).Beside names (symbols src' name) := by
    rw [hsymbols]
    exact ⟨hcompanion.labels, hcompanion.others, h.texts⟩
  have hover' := (scanned_over src' name).1
  rw [hscan'] at hover'
  have hstart : Parallel (symbols src name) (symbols src' name) (scanned src name).2.ctx.out
      (scanned src name).2.ctx ctx₁ := by
    refine ⟨(scanned_over src name).1, ⟨hover'.settled, hsymbols.symm, hcompanion.out⟩,
      hcompanion.operands⟩
  -- the operands of each stage are among those of the last one
  have hconfigured := operands_runOver .emit (configured src name).2 (listing src)
  have hoperands : (configured src name).2.ctx.operands =
      ((scanned src name).2.runOver .config (listing src)).2.ctx.operands := by
    have hfinished : (configured src name).2 = _ := (finishConfig_done hfinish).2
    rw [hfinished]
  obtain ⟨p₂, ctx₂, hconfig', h₂⟩ := h.runOver hbeside (by decide) hstart hconfig
    fun s hs => h.operands s (hconfigured (hoperands ▸ hs))
  obtain ⟨p₃, ctx₃, hfinish', h₃⟩ := parallel_finishConfig h₂ hfinish
  obtain ⟨p₄, ctx₄, hemit', h₄⟩ := h.runOver hbeside (by decide) h₃ hemit h.operands
  obtain ⟨hexport', hout⟩ := parallel_exportLabels h₄ hbeside.labels hexport
  refine ⟨?_, hbeside.labels⟩
  rw [pioAsmAssemble_eq src', assembleListing_of_stages hscan' hconfig' hfinish' hemit', hexport']
  exact Prod.ext hok.symm (hout.trans hresult.symm)

/-- The passes of a source that assembles agree: the program is laid out as the items of the
selected program stand, and defines that nothing mentions change neither it nor the labels. -/
theorem passes_agree (hok : (pioAsmAssemble src name).1 = true) :
    LaidOut (symbols src name) (pioAsmAssemble src name).2 (programItems src name) ∧
      ∀ names src', UnusedDefines names src src' name →
        pioAsmAssemble src' name = pioAsmAssemble src name ∧
          (symbols src' name).labels = (symbols src name).labels :=
  ⟨laidOut hok, fun _ _ h => h.assembles hok⟩

omit [Platform] in
/-- A define that is moved behind a forward jump, and mentions its label. -/
theorem passes_agree_moved :
    letI : Platform := ⟨.rp2350⟩
    let src := ".program p\n.define q 9\n.wrap_target\njmp b\npublic b: set x, 1\n.wrap\n".toList
    let src' := ".program p\n.wrap_target\njmp b\n.define q b+1\npublic b: set x, 1\n.wrap\n".toList
    LaidOut (symbols src none) (pioAsmAssemble src none).2 (programItems src none) ∧
      pioAsmAssemble src' none = pioAsmAssemble src none ∧
      (symbols src' none).labels = [⟨['b'], 1, true⟩] := by
  let P : Platform := ⟨.rp2350⟩
  intro src src'
  have hok : (pioAsmAssemble src none).1 = true := by decide +kernel
  obtain ⟨hlaid, hunused⟩ := passes_agree hok
  obtain ⟨hprogram, hlabels⟩ :=
    hunused [['q']] src' ⟨by decide +kernel, by decide +kernel, by decide +kernel,
    by decide +kernel, by decide +kernel, by decide +kernel⟩
  refine ⟨hlaid, hprogram, hlabels.trans ?_⟩
  decide +kernel

end Assembly

end PioSim.Asm
