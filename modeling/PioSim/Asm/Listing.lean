import PioSim.Asm.Assemble

/-!
# Listings

What the passes see of a source: its lines cleaned, with comments blanked and verbatim blocks marked
off. Both depend on the source alone, so that the three passes of `pio_asm_assemble` run over one
listing.
-/

namespace PioSim.Asm

/-- A physical line after `run_pass` has cleaned it. -/
inductive Line
  | code (text : Text)
  | verbatim
  deriving DecidableEq

/-- A line that ends a verbatim block. -/
def closesVerbatim (line : Text) : Bool := decide (line.head? = some '%' ∧ '}' ∈ line)

/-- The listing of physical lines, inside or outside a verbatim block and a block comment. -/
def listingFrom : Bool → Bool → List Text → List Line
  | _, _, [] => []
  | true, inBlock, physical :: rest =>
    .verbatim :: listingFrom
      (!closesVerbatim (cleanLine (physical.take (maxLine - 1)))) inBlock rest
  | false, inBlock, physical :: rest =>
    let r := stripBlockComments inBlock (physical.take (maxLine - 1))
    .code (cleanLine r.1) :: listingFrom (decide ((cleanLine r.1).head? = some '%')) r.2 rest

def listing (src : Text) : List Line := listingFrom false false (physicalLines src)

namespace ParseState

/-- The state with other marks of what the listing resolves. -/
def mark (ps : ParseState) (inVerbatim inBlockComment : Bool) : ParseState :=
  { ps with inVerbatim := inVerbatim, inBlockComment := inBlockComment }

/-- The state without those marks. -/
def plain (ps : ParseState) : ParseState := ps.mark false false

theorem mark_self (ps : ParseState) : ps.mark ps.inVerbatim ps.inBlockComment = ps := rfl

def atLine (ps : ParseState) (n : ℕ) : ParseState := { ps with ctx := { ps.ctx with lineNo := n } }

/-- A handler that neither reads nor changes the marks. -/
def Blind {α : Type} (f : ParseState → α × ParseState) : Prop :=
  ∀ ps v b, f (ps.mark v b) = ((f ps).1, (f ps).2.mark v b)

theorem Blind.ite {α : Type} {c : ParseState → Prop} [∀ ps, Decidable (c ps)]
    {f g : ParseState → α × ParseState}
    (hc : ∀ ps v b, c (ParseState.mark ps v b) ↔ c ps) (hf : Blind f) (hg : Blind g) :
    Blind fun ps => if c ps then f ps else g ps := by
  intro ps v b
  dsimp only
  by_cases h : c ps
  · rw [if_pos h, if_pos ((hc ps v b).mpr h), hf]
  · rw [if_neg h, if_neg (fun h' => h ((hc ps v b).mp h')), hg]

theorem Blind.andThen {α β : Type} {f : ParseState → α × ParseState}
    {g : α → ParseState → β × ParseState}
    (hf : Blind f) (hg : ∀ a, Blind (g a)) : Blind fun ps => g (f ps).1 (f ps).2 := by
  intro ps v b
  dsimp only
  rw [hf ps v b]
  exact hg _ _ v b

theorem blind_run {α : Type} (x : Step α) {k : α → ParseState → LineResult × ParseState}
    (hk : ∀ a, Blind (k a)) : Blind fun ps => ps.run x k := by
  intro ps v b
  unfold run
  dsimp only [mark]
  cases x ps.ctx with
  | mk r ctx =>
    cases r with
    | none => rfl
    | some a => exact hk a { ps with ctx := ctx } v b

theorem blind_programDirective (args : List Text) : Blind fun ps => ps.programDirective args :=
  Blind.ite (fun _ _ _ => Iff.rfl) (fun _ _ _ => rfl) fun _ _ _ => rfl

theorem blind_defineDirective (args : List Text) : Blind fun ps => ps.defineDirective args := by
  unfold defineDirective
  refine Blind.ite (fun _ _ _ => Iff.rfl) (fun _ _ _ => rfl) ?_
  split
  · rename_i name value _
    cases joinTokens value with
    | none => exact fun _ _ _ => rfl
    | some expr =>
      refine Blind.ite (fun _ _ _ => Iff.rfl) (fun _ _ _ => rfl) ?_
      refine Blind.ite (fun _ _ _ => Iff.rfl) (fun _ _ _ => rfl) ?_
      refine Blind.ite (fun _ _ _ => Iff.rfl) (fun _ _ _ => rfl) ?_
      intro ps v b
      have hctx : (ps.mark v b).ctx = ps.ctx := rfl
      dsimp only
      rw [hctx]
      cases ps.ctx.declareDefine name expr <;> rfl
  · exact fun _ _ _ => rfl

theorem blind_wrapDirective : Blind wrapDirective :=
  Blind.ite (fun _ _ _ => Iff.rfl) (fun _ _ _ => rfl) <|
    Blind.ite (fun _ _ _ => Iff.rfl) (fun _ _ _ => rfl) fun _ _ _ => rfl

theorem blind_emitted (w : Insn) :
    Blind fun ps => (LineResult.ok, { ps.emit w with idx := ps.idx + 1 }) := fun _ _ _ => rfl

theorem blind_wordDirective (args : List Text) : Blind fun ps => ps.wordDirective args :=
  Blind.ite (fun _ _ _ => Iff.rfl) (fun _ _ _ => rfl) <|
    Blind.ite (fun _ _ _ => Iff.rfl) (blind_run (wordValue args) blind_emitted) fun _ _ _ => rfl

section Version
variable [Platform]

theorem blind_handleDirective (line : Text) : Blind fun ps => ps.handleDirective line := by
  unfold handleDirective
  cases tokenize line maxTokens with
  | mk tok truncated =>
    refine Blind.ite (fun _ _ _ => Iff.rfl) (fun _ _ _ => rfl) ?_
    cases tok with
    | nil => exact fun _ _ _ => rfl
    | cons t args =>
      refine Blind.ite (fun _ _ _ => Iff.rfl) (blind_programDirective args) ?_
      refine Blind.ite (fun _ _ _ => Iff.rfl) ?_ ?_
      · exact Blind.ite (fun _ _ _ => Iff.rfl) (blind_defineDirective args) fun _ _ _ => rfl
      refine Blind.ite (fun _ _ _ => Iff.rfl) (fun _ _ _ => rfl) ?_
      refine Blind.ite (fun _ _ _ => Iff.rfl) ?_ ?_
      · exact Blind.ite (fun _ _ _ => Iff.rfl) (fun _ _ _ => rfl) fun _ _ _ => rfl
      refine Blind.ite (fun _ _ _ => Iff.rfl) ?_ ?_
      · exact Blind.ite (fun _ _ _ => Iff.rfl) blind_wrapDirective fun _ _ _ => rfl
      refine Blind.ite (fun _ _ _ => Iff.rfl) (blind_wordDirective args) ?_
      refine Blind.ite (fun _ _ _ => Iff.rfl) (fun _ _ _ => rfl) ?_
      cases configKind t with
      | none => exact fun _ _ _ => rfl
      | some kind => exact blind_run (configDirective kind args) fun _ _ _ _ => rfl

theorem blind_declareLabel (name : Text) (isPublic : Bool) :
    Blind fun ps => ((), ps.declareLabel name isPublic) := by
  intro ps v b
  unfold declareLabel
  dsimp only [mark]
  split_ifs <;> rfl

theorem blind_handleLabel (line : Text) : Blind fun ps => ps.handleLabel line := by
  unfold handleLabel
  cases stripPublic line with
  | mk line isPublic =>
    dsimp only
    cases line.dropWhile isIdentChar with
    | nil => exact fun _ _ _ => rfl
    | cons c rest =>
      by_cases hc : c = ':'
      · subst hc
        intro ps v b
        have hlabel :=
          congrArg Prod.snd (blind_declareLabel (line.takeWhile isIdentChar) isPublic ps v b)
        dsimp only [mark] at hlabel ⊢
        by_cases hpass : ps.pass = .scan
        · rw [if_pos hpass, if_pos hpass, hlabel]
          rfl
        · rw [if_neg hpass, if_neg hpass]
          rfl
      · intro ps v b
        split
        · rename_i heq
          exact absurd (List.cons.inj heq).1 hc
        · rfl

theorem blind_handleInstruction (line : Text) : Blind fun ps => ps.handleInstruction line := by
  unfold handleInstruction
  refine Blind.ite (fun _ _ _ => Iff.rfl) (fun _ _ _ => rfl) ?_
  refine Blind.ite (fun _ _ _ => Iff.rfl) ?_ fun _ _ _ => rfl
  cases tokenize line maxTokens with
  | mk tok truncated =>
    refine Blind.ite (fun _ _ _ => Iff.rfl) (fun _ _ _ => rfl) ?_
    refine Blind.ite (fun _ _ _ => Iff.rfl) (fun _ _ _ => rfl) ?_
    exact blind_run (assembleInsn tok) blind_emitted

/-- A line outside a verbatim block that does not open one. -/
def handleCode (ps : ParseState) (line : Text) : LineResult × ParseState :=
  if line.head? = some '.' then ps.handleDirective line
  else if !ps.inProgram then (.ok, ps)
  else
    let r := ps.handleLabel line
    if !r.2.ctx.out.ok then (.error, r.2)
    else match r.1 with
      | none => (.ok, r.2)
      | some rest => r.2.handleInstruction rest

theorem blind_handleCode (line : Text) : Blind fun ps => ps.handleCode line := by
  unfold handleCode
  refine Blind.ite (fun _ _ _ => Iff.rfl) (blind_handleDirective line) ?_
  refine Blind.ite (fun _ _ _ => Iff.rfl) (fun _ _ _ => rfl) ?_
  refine Blind.andThen (g := fun rest ps => if !ps.ctx.out.ok then (.error, ps)
    else match rest with
      | none => (.ok, ps)
      | some rest => ps.handleInstruction rest) (blind_handleLabel line) fun rest => ?_
  refine Blind.ite (fun _ _ _ => Iff.rfl) (fun _ _ _ => rfl) ?_
  cases rest with
  | none => exact fun _ _ _ => rfl
  | some rest => exact blind_handleInstruction rest

/-- The marks a handler finds are those it leaves. -/
theorem Blind.marks {α : Type} {f : ParseState → α × ParseState} (hf : Blind f) (ps : ParseState) :
    (f ps).2.inVerbatim = ps.inVerbatim ∧ (f ps).2.inBlockComment = ps.inBlockComment := by
  have hmark : (f ps).2 = (f ps).2.mark ps.inVerbatim ps.inBlockComment :=
    congrArg Prod.snd (hf ps ps.inVerbatim ps.inBlockComment)
  constructor
  · rw [hmark]
    rfl
  · rw [hmark]
    rfl

/-! ### Passes over a listing -/

def runListing : ℕ → ParseState → List Line → Bool × ParseState
  | _, ps, [] => (true, ps)
  | n, ps, .verbatim :: rest => runListing (n + 1) (ps.atLine n) rest
  | n, ps, .code line :: rest =>
    -- a line that is blank, and one that opens a verbatim block
    if line = [] ∨ line.head? = some '%' then runListing (n + 1) (ps.atLine n) rest
    else match (ps.atLine n).handleCode line with
      | (.error, ps) => (false, ps)
      | (.done, ps) => (true, ps)
      | (.ok, ps) => runListing (n + 1) ps rest

theorem processLine_code (ps : ParseState) (hv : ps.inVerbatim = false) (line : Text) :
    ps.processLine line =
      if line.head? = some '%' then (.ok, ps.mark true ps.inBlockComment)
        else ps.handleCode line := by
  unfold processLine
  rw [if_neg (by rw [hv]; exact Bool.false_ne_true)]
  rfl

theorem processLine_verbatim {ps : ParseState} (hv : ps.inVerbatim = true) (line : Text) :
    ps.processLine line = (.ok, ps.mark (!closesVerbatim line) ps.inBlockComment) := by
  unfold processLine closesVerbatim
  rw [if_pos hv]
  by_cases h : line.head? = some '%' ∧ '}' ∈ line
  · rw [if_pos h, decide_eq_true h]
    rfl
  · rw [if_neg h, decide_eq_false h, Bool.not_false, ← hv]
    rfl

/-- A pass over the lines is the pass over their listing. -/
theorem runLines_eq : ∀ (ls : List Text) (n : ℕ) (ps : ParseState),
    (ps.runLines n ls).1 =
      (runListing n ps.plain (listingFrom ps.inVerbatim ps.inBlockComment ls)).1 ∧
      (ps.runLines n ls).2.plain =
        (runListing n ps.plain (listingFrom ps.inVerbatim ps.inBlockComment ls)).2 := by
  intro ls
  induction ls with
  | nil =>
    intro n ps
    cases hv : ps.inVerbatim <;> exact ⟨rfl, rfl⟩
  | cons physical rest ih =>
    intro n ps
    cases hv : ps.inVerbatim with
    | true =>
      have hline : ps.nextLine n physical =
          (cleanLine (physical.take (maxLine - 1)), ps.atLine n) := by
        unfold nextLine
        exact if_pos hv
      have hv' : (ps.atLine n).inVerbatim = true := hv
      rw [runLines, hline, listingFrom, runListing]
      dsimp only
      by_cases hempty : cleanLine (physical.take (maxLine - 1)) = []
      · rw [if_pos hempty, hempty]
        have hnext := ih (n + 1) (ps.atLine n)
        rw [hv'] at hnext
        exact hnext
      · rw [if_neg hempty, processLine_verbatim hv']
        exact ih (n + 1) _
    | false =>
      have hline : ps.nextLine n physical =
          (cleanLine (stripBlockComments ps.inBlockComment (physical.take (maxLine - 1))).1,
            (ps.atLine n).mark false
              (stripBlockComments ps.inBlockComment (physical.take (maxLine - 1))).2) := by
        unfold nextLine
        dsimp only
        rw [if_neg (by rw [hv]; exact Bool.false_ne_true), ← hv]
        rfl
      rw [runLines, hline, listingFrom, runListing]
      dsimp only
      generalize stripBlockComments ps.inBlockComment (physical.take (maxLine - 1)) = r
      by_cases hempty : cleanLine r.1 = []
      · rw [if_pos hempty, if_pos (Or.inl hempty), hempty]
        exact ih (n + 1) ((ps.atLine n).mark false r.2)
      rw [if_neg hempty, processLine_code ((ps.atLine n).mark false r.2) rfl]
      by_cases hopen : (cleanLine r.1).head? = some '%'
      · rw [if_pos hopen, if_pos (Or.inr hopen), decide_eq_true hopen]
        exact ih (n + 1) ((ps.atLine n).mark true r.2)
      rw [if_neg hopen, if_neg (not_or.mpr ⟨hempty, hopen⟩), decide_eq_false hopen]
      have hmark := blind_handleCode (cleanLine r.1) (ps.plain.atLine n) false r.2
      change ((ps.atLine n).mark false r.2).handleCode (cleanLine r.1) = _ at hmark
      rw [hmark]
      have hmarks := (blind_handleCode (cleanLine r.1)).marks (ps.plain.atLine n)
      dsimp only at hmarks ⊢
      cases hcode : (ps.plain.atLine n).handleCode (cleanLine r.1) with
      | mk result q =>
        rw [hcode] at hmarks
        have hq : q.plain = q := by
          have hself := q.mark_self
          rw [hmarks.1, hmarks.2] at hself
          exact hself
        cases result with
        | ok =>
          have hnext := ih (n + 1) (q.mark false r.2)
          have hplain : (q.mark false r.2).plain = q := hq
          rw [hplain] at hnext
          exact hnext
        | done => exact ⟨rfl, hq⟩
        | error => exact ⟨rfl, hq⟩

def runOver (ps : ParseState) (pass : Pass) (lines : List Line) : Bool × ParseState :=
  runListing 1 { ps.plain with pass := pass, inProgram := false, seenAnyProgram := false, idx := 0 }
    lines

/-- Two stages that agree but for the marks. -/
def Agree (f g : ParseState → Bool × ParseState) : Prop :=
  ∀ ps, (f ps).1 = (g (ParseState.plain ps)).1 ∧ (f ps).2.plain = (g (ParseState.plain ps)).2

theorem agree_runPass (pass : Pass) (src : Text) :
    Agree (fun ps => ps.runPass pass src) (fun ps => ps.runOver pass (listing src)) := fun ps =>
  runLines_eq (physicalLines src) 1 { ps with
    pass := pass, inProgram := false, inVerbatim := false, inBlockComment := false
    seenAnyProgram := false, idx := 0 }

theorem agree_finishConfig : Agree finishConfig finishConfig := by
  intro ps
  have hblind : Blind finishConfig :=
    Blind.ite (fun _ _ _ => Iff.rfl) (fun _ _ _ => rfl) <|
      Blind.ite (fun _ _ _ => Iff.rfl) (fun _ _ _ => rfl) fun _ _ _ => rfl
  rw [plain, hblind ps false false]
  exact ⟨rfl, rfl⟩

theorem agree_exportLabels : Agree exportLabels exportLabels := by
  intro ps
  have hblind : Blind exportLabels :=
    Blind.ite (fun _ _ _ => Iff.rfl) (fun _ _ _ => rfl) fun _ _ _ => rfl
  rw [plain, hblind ps false false]
  exact ⟨rfl, rfl⟩

theorem agree_stages : ∀ {fs gs : List (ParseState → Bool × ParseState)}, List.Forall₂ Agree fs gs →
    Agree (fun ps => ps.stages fs) (fun ps => ps.stages gs) := by
  intro fs gs h
  induction h with
  | nil => exact fun _ => ⟨rfl, rfl⟩
  | @cons f g fs gs hfg _ ih =>
    intro ps
    obtain ⟨hfst, hsnd⟩ := hfg ps
    dsimp only [stages]
    cases hf : f ps with
    | mk ok q =>
      cases hg : g ps.plain with
      | mk ok' q' =>
        rw [hf, hg] at hfst hsnd
        dsimp only at hfst hsnd
        subst hfst hsnd
        cases ok with
        | true => exact ih q
        | false => exact ⟨rfl, rfl⟩

end Version
end ParseState

def assembleListing [Platform] (lines : List Line) (name : Option Text) : Bool × Program :=
  let r := (ParseState.start name).stages
    [fun ps => ps.runOver .scan lines, fun ps => ps.runOver .config lines, ParseState.finishConfig,
      fun ps => ps.runOver .emit lines, ParseState.exportLabels]
  (r.1, r.2.ctx.out)

/-- The listing is all of a source that its assembly depends on. -/
theorem pioAsmAssemble_eq [Platform] (src : Text) (name : Option Text) :
    pioAsmAssemble src name = assembleListing (listing src) name := by
  have hagree := ParseState.agree_stages
    (.cons (ParseState.agree_runPass .scan src) <| .cons (ParseState.agree_runPass .config src) <|
      .cons ParseState.agree_finishConfig <| .cons (ParseState.agree_runPass .emit src) <|
      .cons ParseState.agree_exportLabels .nil) (ParseState.start name)
  have hout := congrArg (fun ps : ParseState => ps.ctx.out) hagree.2
  exact Prod.ext hagree.1 hout

end PioSim.Asm
