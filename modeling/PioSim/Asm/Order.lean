import PioSim.Asm.Directives
import PioSim.Asm.Twins

/-!
# The configuration pass over a rearranged program

Within a class of versions a configuration directive is an error wherever it stands, or it always
changes the fields of its kind in the same way. The other lines of a program neither see nor touch
those fields, so a rearrangement ends with the same program.
-/

namespace PioSim.Asm

section Version
variable [Platform] {V : ℕ → Prop} {t : Table} {d : ConfigKind × List Text}

/-! ### One directive -/

/-- Over the table and in the class of versions, the directive is an error. -/
def Refused (V : ℕ → Prop) (t : Table) (d : ConfigKind × List Text) : Prop :=
  ∀ (ctx : AsmCtx) (p : Program), ctx.Over t p → V p.effectiveVersion →
    (configDirective d.1 d.2 ctx).1 = none

/-- Over the table and in the class of versions, the directive always changes the fields of its kind
in this way, and the version stays in the class. -/
structure Applies (V : ℕ → Prop) (t : Table) (d : ConfigKind × List Text)
    (φ : Part d.1 → Part d.1) : Prop where
  run : ∀ (ctx : AsmCtx) (p : Program), ctx.Over t p → V p.effectiveVersion →
    (configDirective d.1 d.2 ctx).1 = some () ∧
      (configDirective d.1 d.2 ctx).2.Over t (p.modifyPart d.1 φ)
  version : ∀ p : Program, V p.effectiveVersion → V (p.modifyPart d.1 φ).effectiveVersion

/-- Where the directive is accepted, the version stays in the class. -/
def KeepsVersion (V : ℕ → Prop) (t : Table) (d : ConfigKind × List Text) : Prop :=
  ∀ (ctx : AsmCtx) (p : Program), ctx.Over t p → V p.effectiveVersion →
    (configDirective d.1 d.2 ctx).1 = some () →
    ∃ p', (configDirective d.1 d.2 ctx).2.Over t p' ∧ V p'.effectiveVersion

theorem Applies.keeps {φ : Part d.1 → Part d.1} (h : Applies V t d φ) : KeepsVersion V t d :=
  fun ctx p hctx hp _ => ⟨_, (h.run ctx p hctx hp).2, h.version p hp⟩

theorem refused_or_applies (hk : d.1 ≠ .pioVersion)
    (hV : (∀ v, V v → v = 0) ∨ (∀ v, V v → v ≠ 0) ∨ ¬ Sensitive t d.1 d.2) :
    Refused V t d ∨ ∃ φ, Applies V t d φ := by
  rcases configDirective_confined hk hV with hnone | ⟨_, φ, hsome⟩
  · exact .inl hnone
  · refine .inr ⟨φ, hsome, fun p hp => ?_⟩
    rwa [Program.effectiveVersion_modifyPart hk]

theorem refused_or_applies_version {args : List Text}
    (hV : ∀ v, declaredVersion t args = some v → v ≤ buildVersion → V v) :
    Refused V t (.pioVersion, args) ∨ ∃ φ, Applies V t (.pioVersion, args) φ := by
  rcases pioVersion_cases t args with hnone | ⟨v, hv, hbuild, hsome⟩
  · exact .inl fun ctx p hctx _ => hnone ctx p hctx
  · exact .inr ⟨fun _ => some v, fun ctx p hctx _ => hsome ctx p hctx, fun _ _ => hV v hv hbuild⟩

/-- A directive that is no `.pio_version` leaves every version as it is. -/
theorem keeps_of_ne (hk : d.1 ≠ .pioVersion) : KeepsVersion V t d := by
  intro ctx p hctx hp hsome
  have hclass : (∀ v, v = p.effectiveVersion → v = 0) ∨ (∀ v, v = p.effectiveVersion → v ≠ 0) ∨
      ¬ Sensitive t d.1 d.2 := by
    by_cases hzero : p.effectiveVersion = 0
    · exact .inl fun v hv => hv.trans hzero
    · exact .inr (.inl fun v hv hv0 => hzero (hv.symm.trans hv0))
  rcases refused_or_applies hk hclass with hnone | ⟨φ, happlies⟩
  · rw [hnone ctx p hctx rfl] at hsome
    cases hsome
  · refine ⟨_, (happlies.run ctx p hctx rfl).2, ?_⟩
    rw [happlies.version p rfl]
    exact hp

/-! ### Programs that differ in their declarations -/

/-- A change of a program that the lines other than configuration directives do not see. -/
structure Neutral (G : Program → Program) : Prop where
  ok : ∀ p, (G p).ok = p.ok
  wrapTop : ∀ p, (G p).wrapTop = p.wrapTop
  setTop : ∀ p n, G { p with wrapTop := n } = { G p with wrapTop := n }
  setBottom : ∀ p n, G { p with wrapBottom := n } = { G p with wrapBottom := n }

omit [Platform] in
theorem neutral_id : Neutral id := ⟨fun _ => rfl, fun _ => rfl, fun _ _ => rfl, fun _ _ => rfl⟩

omit [Platform] in
theorem Neutral.modifyPart {G : Program → Program} (h : Neutral G) (k : ConfigKind)
    (φ : Part k → Part k) :
    Neutral fun p => (G p).modifyPart k φ where
  ok p := by
    rw [← h.ok p]
    cases k <;> rfl
  wrapTop p := by
    rw [← h.wrapTop p]
    cases k <;> rfl
  setTop p n := by
    rw [h.setTop]
    cases k <;> rfl
  setBottom p n := by
    rw [h.setBottom]
    cases k <;> rfl

/-- The first state is inside the selected program in the configuration pass, and the second one
differs in what has been declared, and in what has been evaluated; its version is in the class. -/
structure Level (V : ℕ → Prop) (t : Table) (G : Program → Program)
    (ps ps' : ParseState) : Prop where
  pass : ps.pass = .config
  inProgram : ps.inProgram = true
  seen : ps.seenAnyProgram = true
  layers : ∃ p, ps.ctx.Over t p ∧ ps'.ctx.Over t (G p) ∧ V (G p).effectiveVersion
  rest : ps' = { ps with ctx := ps'.ctx }

/-- Two results alike, and levels of those that went well. -/
def LevelResults (V : ℕ → Prop) (t : Table) (G : Program → Program)
    (r r' : LineResult × ParseState) : Prop :=
  (r.1 = .error ∧ r'.1 = .error) ∨ (r.1 = .ok ∧ r'.1 = .ok ∧ Level V t G r.2 r'.2)

namespace Level
variable {G : Program → Program} {ps ps' : ParseState}

theorem atLine (h : Level V t G ps ps') (n : ℕ) : Level V t G (ps.atLine n) (ps'.atLine n) where
  pass := h.pass
  inProgram := h.inProgram
  seen := h.seen
  layers := by
    obtain ⟨p, hleft, hright, hV⟩ := h.layers
    exact ⟨p, ⟨hleft.settled.write _ _, hleft.table, hleft.out⟩,
      ⟨hright.settled.write _ _, hright.table, hright.out⟩, hV⟩
  rest := by
    rw [h.rest]
    rfl

/-- A write that the difference does not see. -/
theorem write (h : Level V t G ps ps') {g : Program → Program} (hg : ∀ p, G (g p) = g (G p))
    (hversion : ∀ p, (g p).effectiveVersion = p.effectiveVersion) :
    Level V t G { ps with ctx := { ps.ctx with out := g ps.ctx.out } }
      { ps' with ctx := { ps'.ctx with out := g ps'.ctx.out } } where
  pass := h.pass
  inProgram := h.inProgram
  seen := h.seen
  layers := by
    obtain ⟨p, hleft, hright, hV⟩ := h.layers
    refine ⟨g p, ⟨hleft.settled.write _ _, hleft.table, by rw [← hleft.out]⟩,
      ⟨hright.settled.write _ _, hright.table, by rw [hg, ← hright.out]⟩, ?_⟩
    rwa [hg, hversion]
  rest := by rw [h.rest]

theorem counted (h : Level V t G ps ps') :
    Level V t G { ps with idx := ps.idx + 1 } { ps' with idx := ps'.idx + 1 } :=
  ⟨h.pass, h.inProgram, h.seen, h.layers, by rw [h.rest]⟩

theorem ok (h : Level V t G ps ps') : LevelResults V t G (.ok, ps) (.ok, ps') := .inr ⟨rfl, rfl, h⟩

theorem fail (msg : String) : LevelResults V t G (ps.fail msg) (ps'.fail msg) := .inl ⟨rfl, rfl⟩

theorem wrapDirective (h : Level V t G ps ps') (hG : Neutral G) :
    LevelResults V t G ps.wrapDirective ps'.wrapDirective := by
  have hidx : ps'.idx = ps.idx := by
    rw [h.rest]
  obtain ⟨p, hleft, hright, -⟩ := h.layers
  have htop : ps'.ctx.out.wrapTop = ps.ctx.out.wrapTop := by
    rw [hleft.out, hright.out, hG.wrapTop]
  unfold ParseState.wrapDirective
  rw [hidx, htop]
  split
  · exact fail _
  split
  · exact fail _
  · have hwritten := h.write (g := fun out => { out with wrapTop := ps.idx - 1 })
      (fun p => hG.setTop p _) fun _ => rfl
    rw [hidx] at hwritten
    exact hwritten.ok

/-- A line with no configuration directive and no `.program` does the same to both. -/
theorem handleCode (h : Level V t G ps ps') (hG : Neutral G) {line : Text}
    (hprogram : programArgs (.code line) = none) (hdirective : directiveOf (.code line) = none) :
    LevelResults V t G (ps.handleCode line) (ps'.handleCode line) := by
  obtain ⟨ctx, _, pass₀, inProgram₀, _, _, _, _⟩ := ps
  obtain rfl : pass₀ = .config := h.pass
  obtain rfl : inProgram₀ = true := h.inProgram
  obtain ⟨ctx', name, _, _, inVerbatim, inBlockComment, seen, idx⟩ := ps'
  have hrest := h.rest
  rw [ParseState.mk.injEq] at hrest
  obtain ⟨-, rfl, rfl, rfl, rfl, rfl, rfl, hidx⟩ := hrest
  dsimp only at hidx
  subst hidx
  obtain ⟨p, hleft, hright, -⟩ := h.layers
  have hok : ctx'.out.ok = ctx.out.ok := by
    rw [show ctx.out = p from hleft.out, show ctx'.out = G p from hright.out, hG.ok]
  unfold ParseState.handleCode
  split
  · rename_i hdot
    unfold ParseState.handleDirective
    cases htok : tokenize line maxTokens with
    | mk tok truncated =>
    dsimp only
    split
    · exact fail _
    rename_i htruncated
    obtain rfl := (Bool.not_eq_true _).mp htruncated
    cases tok with
    | nil => exact h.ok
    | cons s args =>
      have hwords := directiveWords_code hdot htok
      rw [programArgs, hwords, Option.bind_some] at hprogram
      rw [directiveOf, hwords, Option.bind_some, Option.map_eq_none_iff] at hdirective
      dsimp only at hprogram hdirective ⊢
      have hnot : ¬ ieq s ".program".toList = true := by
        intro hyes
        rw [if_pos hyes] at hprogram
        cases hprogram
      rw [if_neg hnot, if_neg hnot]
      split
      · exact h.ok
      split
      · exact h.ok
      split
      · exact (h.write (g := fun out => { out with wrapBottom := idx }) (fun p => hG.setBottom p _)
          fun _ => rfl).ok
      split
      · exact h.wrapDirective hG
      split
      · unfold ParseState.wordDirective
        dsimp only
        split
        · exact fail _
        · exact h.counted.ok
      rw [hdirective]
      exact h.ok
  · obtain ⟨rest, hlabel⟩ := ParseState.handleLabel_skips line
    rw [hlabel _ Pass.noConfusion, hlabel _ Pass.noConfusion]
    dsimp only
    rw [hok]
    split
    · exact h.ok
    split
    · exact .inl ⟨rfl, rfl⟩
    cases rest with
    | none => exact h.ok
    | some rest =>
      dsimp only
      unfold ParseState.handleInstruction
      dsimp only
      split
      · exact fail _
      · exact h.counted.ok

end Level

/-! ### The lines of the program -/

omit [Platform] in
theorem not_blank {line : Text} (hdot : line.head? = some '.') :
    ¬ (line = [] ∨ line.head? = some '%') := by
  rintro (rfl | hopen)
  · cases hdot
  · rw [hdot] at hopen
    cases hopen

namespace ParseState
variable {ps : ParseState}

/-- A configuration directive inside the program that is an error. -/
theorem runListing_refuses {l : Line} (hd : directiveOf l = some d) (hpass : ps.pass = .config)
    (hin : ps.inProgram = true) (n : ℕ) (rest : List Line)
    (hnone : (configDirective d.1 d.2 (ps.atLine n).ctx).1 = none) :
    (runListing n ps (l :: rest)).1 = false := by
  obtain ⟨line, s, rfl, hdot, htok, hk⟩ := directiveOf_eq_some hd
  rw [runListing, if_neg (not_blank hdot), handleCode_directive (ps.atLine n) hdot htok hk,
    if_pos (by rw [Bool.and_eq_true, decide_eq_true_iff]; exact ⟨hin, hpass⟩)]
  unfold ParseState.run
  generalize configDirective d.1 d.2 (ps.atLine n).ctx = r at hnone ⊢
  obtain ⟨_ | _, ctx⟩ := r
  · rfl
  · cases hnone

/-- A configuration directive inside the program that is accepted. -/
theorem runListing_configures {l : Line} (hd : directiveOf l = some d) (hpass : ps.pass = .config)
    (hin : ps.inProgram = true) (n : ℕ) (rest : List Line)
    (hsome : (configDirective d.1 d.2 (ps.atLine n).ctx).1 = some ()) :
    runListing n ps (l :: rest) =
      runListing (n + 1)
      { ps.atLine n with ctx := (configDirective d.1 d.2 (ps.atLine n).ctx).2 } rest := by
  obtain ⟨line, s, rfl, hdot, htok, hk⟩ := directiveOf_eq_some hd
  rw [runListing, if_neg (not_blank hdot), handleCode_directive (ps.atLine n) hdot htok hk,
    if_pos (by rw [Bool.and_eq_true, decide_eq_true_iff]; exact ⟨hin, hpass⟩)]
  unfold ParseState.run
  generalize configDirective d.1 d.2 (ps.atLine n).ctx = r at hsome ⊢
  obtain ⟨_ | _, ctx⟩ := r
  · cases hsome
  · rfl

end ParseState

open ParseState

/-- The line with a configuration directive taken away. -/
def skeleton (l : Line) : Line := if (directiveOf l).isSome then .code [] else l

def declare (φs : (d : ConfigKind × List Text) → Part d.1 → Part d.1) (p : Program)
    (d : ConfigKind × List Text) : Program := p.modifyPart d.1 (φs d)

section Body
variable {φs : (d : ConfigKind × List Text) → Part d.1 → Part d.1}

omit [Platform] in
theorem directives_cons (l : Line) (rest : List Line) :
    directives (l :: rest) = (directiveOf l).toList ++ directives rest := by
  unfold directives
  rw [List.filterMap_cons]
  cases directiveOf l <;> rfl

omit [Platform] in
theorem mem_directives_cons {l : Line} {rest : List Line} (h : d ∈ directives rest) :
    d ∈ directives (l :: rest) := by
  rw [directives_cons]
  exact List.mem_append_right _ h

/-- A step inside the program with a directive: the difference grows by its change. -/
theorem Level.declares {G : Program → Program} {ps ps' : ParseState} (h : Level V t G ps ps')
    (hd : Applies V t d (φs d)) :
    (configDirective d.1 d.2 ps'.ctx).1 = some () ∧
      Level V t (fun p => declare φs (G p) d) ps
        { ps' with ctx := (configDirective d.1 d.2 ps'.ctx).2 } := by
  obtain ⟨p, hleft, hright, hV⟩ := h.layers
  obtain ⟨hsome, hafter⟩ := hd.run _ _ hright hV
  refine ⟨hsome, h.pass, h.inProgram, h.seen, ⟨p, hleft, hafter, hd.version _ hV⟩, ?_⟩
  rw [h.rest]

/-- The lines of a program whose directives are all accepted, beside the lines without them. -/
theorem runListing_layers : ∀ (body : List Line) (n : ℕ) (G : Program → Program)
    (ps ps' : ParseState), Neutral G → Level V t G ps ps' → (∀ l ∈ body, programArgs l = none) →
      (∀ d ∈ directives body, Applies V t d (φs d)) →
      (∀ post, (runListing n ps (body.map skeleton ++ post)).1 = false ∧
        (runListing n ps' (body ++ post)).1 = false) ∨
      ∃ q q', Level V t (fun p => (directives body).foldl (declare φs) (G p)) q q' ∧
        ∀ post, runListing n ps (body.map skeleton ++ post) = runListing (n + body.length) q post ∧
          runListing n ps' (body ++ post) = runListing (n + body.length) q' post := by
  intro body
  induction body with
  | nil => exact fun n G ps ps' _ h _ _ => .inr ⟨ps, ps', h, fun _ => ⟨rfl, rfl⟩⟩
  | cons l rest ih =>
    intro n G ps ps' hG h hprogram happlies
    have hnext := h.atLine n
    have hrest : ∀ l' ∈ rest, programArgs l' = none :=
      fun l' hl' => hprogram l' (List.mem_cons_of_mem _ hl')
    have happlies' : ∀ d ∈ directives rest, Applies V t d (φs d) :=
      fun d hd => happlies d (mem_directives_cons hd)
    have hlength : n + (l :: rest).length = n + 1 + rest.length := by
      rw [List.length_cons]
      omega
    rw [hlength, List.map_cons]
    cases hd : directiveOf l with
    | some d =>
      have hskeleton : skeleton l = .code [] := by
        rw [skeleton, hd]
        rfl
      have hmem : d ∈ directives (l :: rest) := by
        rw [directives_cons, hd]
        exact List.mem_cons_self
      have hblank : ∀ post, runListing n ps (skeleton l :: rest.map skeleton ++ post) =
          runListing (n + 1) (ps.atLine n) (rest.map skeleton ++ post) := by
        intro post
        rw [hskeleton, List.cons_append, runListing, if_pos (.inl rfl)]
      obtain ⟨hsome, hdeclared⟩ := hnext.declares (happlies d hmem)
      have hpass' : ps'.pass = .config := by
        rw [h.rest]
        exact h.pass
      have hin' : ps'.inProgram = true := by
        rw [h.rest]
        exact h.inProgram
      have hstep := fun post => runListing_configures hd hpass' hin' n (rest ++ post) hsome
      rcases ih (n + 1) _ _ _ (hG.modifyPart d.1 (φs d)) hdeclared hrest happlies' with hfail
        | ⟨q, q', hq, hrun⟩
      · left
        intro post
        rw [hblank, List.cons_append, hstep]
        exact hfail post
      · right
        refine ⟨q, q', ?_, fun post => ?_⟩
        · rw [directives_cons, hd]
          exact hq
        · rw [hblank, List.cons_append, hstep]
          exact hrun post
    | none =>
      have hskeleton : skeleton l = l := by
        rw [skeleton, hd]
        rfl
      rw [hskeleton, directives_cons, hd]
      simp only [List.cons_append, Option.toList_none, List.nil_append]
      cases l with
      | verbatim =>
        simp only [runListing]
        exact ih (n + 1) G _ _ hG hnext hrest happlies'
      | code line =>
        simp only [runListing]
        by_cases hblank : line = [] ∨ line.head? = some '%'
        · simp only [if_pos hblank]
          exact ih (n + 1) G _ _ hG hnext hrest happlies'
        · simp only [if_neg hblank]
          have hline := hnext.handleCode hG (hprogram _ List.mem_cons_self) hd
          generalize (ps.atLine n).handleCode line = r at hline ⊢
          generalize (ps'.atLine n).handleCode line = r' at hline ⊢
          obtain ⟨result, q⟩ := r
          obtain ⟨result', q'⟩ := r'
          rcases hline with ⟨rfl, rfl⟩ | ⟨rfl, rfl, hlevel⟩
          · exact .inl fun _ => ⟨rfl, rfl⟩
          · exact ih (n + 1) G q q' hG hlevel hrest happlies'

/-- Inside the selected program, over the table, with a version of the class. -/
abbrev Inside (V : ℕ → Prop) (t : Table) (ps : ParseState) : Prop := Level V t id ps ps

/-- The lines of a program up to a point: an error, or the point is reached. -/
theorem runListing_reaches : ∀ (body : List Line) (n : ℕ) (ps : ParseState), Inside V t ps →
    (∀ l ∈ body, programArgs l = none) → (∀ d ∈ directives body, KeepsVersion V t d) →
      (∀ post, (runListing n ps (body ++ post)).1 = false) ∨
      ∃ q, Inside V t q ∧ ∀ post, runListing n ps (body ++ post) =
        runListing (n + body.length) q post := by
  intro body
  induction body with
  | nil => exact fun n ps h _ _ => .inr ⟨ps, h, fun _ => rfl⟩
  | cons l rest ih =>
    intro n ps h hprogram hkeeps
    have hnext := h.atLine n
    have hrest : ∀ l' ∈ rest, programArgs l' = none :=
      fun l' hl' => hprogram l' (List.mem_cons_of_mem _ hl')
    have hkeeps' : ∀ d ∈ directives rest, KeepsVersion V t d := fun d hd =>
      hkeeps d (mem_directives_cons hd)
    have hlength : n + (l :: rest).length = n + 1 + rest.length := by
      rw [List.length_cons]
      omega
    rw [hlength]
    simp only [List.cons_append]
    cases hd : directiveOf l with
    | some d =>
      have hmem : d ∈ directives (l :: rest) := by
        rw [directives_cons, hd]
        exact List.mem_cons_self
      obtain ⟨p, hover, -, hV⟩ := hnext.layers
      cases hres : (configDirective d.1 d.2 (ps.atLine n).ctx).1 with
      | none =>
        exact .inl fun post => runListing_refuses hd h.pass h.inProgram n (rest ++ post) hres
      | some u =>
        obtain ⟨p', hover', hV'⟩ := hkeeps d hmem _ p hover hV hres
        have hstep := fun post => runListing_configures hd h.pass h.inProgram n (rest ++ post) hres
        simp only [hstep]
        exact ih (n + 1) _ ⟨h.pass, h.inProgram, h.seen, ⟨p', hover', hover', hV'⟩, rfl⟩
          hrest hkeeps'
    | none =>
      cases l with
      | verbatim =>
        simp only [runListing]
        exact ih (n + 1) _ hnext hrest hkeeps'
      | code line =>
        simp only [runListing]
        by_cases hblank : line = [] ∨ line.head? = some '%'
        · simp only [if_pos hblank]
          exact ih (n + 1) _ hnext hrest hkeeps'
        · simp only [if_neg hblank]
          have hline := hnext.handleCode neutral_id (hprogram _ List.mem_cons_self) hd
          generalize (ps.atLine n).handleCode line = r at hline ⊢
          obtain ⟨result, q⟩ := r
          rcases hline with ⟨rfl, -⟩ | ⟨rfl, -, hlevel⟩
          · exact .inl fun _ => rfl
          · exact ih (n + 1) q hlevel hrest hkeeps'

end Body

end Version

end PioSim.Asm
