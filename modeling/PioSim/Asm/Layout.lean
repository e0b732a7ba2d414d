import PioSim.Asm.Emitted
import PioSim.Asm.Statement

/-!
# The layout of a program

Where the words of a program stand can be read off its lines: behind the words in front of them.
Each pass counts on its own. A pass that keeps something in step with the items it comes to keeps it
to the end of the program, and it has counted the words of the layout.
-/

namespace PioSim.Asm

/-! ### The items of a program -/

/-- What a word is made of. -/
inductive Source
  | insn (tok : List Text)
  | data (args : List Text)

inductive Item
  | label (name : Text) (isPublic : Bool)
  | word (source : Source)
  | wrapTarget
  | wrap

def Item.size : Item → ℕ
  | .word _ => 1
  | _ => 0

def Statement.items : Statement → List Item
  | .wrapTarget => [.wrapTarget]
  | .wrap => [.wrap]
  | .data args => [.word (.data args)]
  | .code label rest => (label.map fun l => Item.label l.1 l.2).toList ++
      (rest.map fun s => Item.word (.insn (tokenize s maxTokens).1)).toList
  | _ => []

def Statement.programArgs : Statement → Option (List Text)
  | .program args => some args
  | _ => none

def Line.isProgram (l : Line) : Bool := l.statement.programArgs.isSome

/-- The line is a `.program` that is selected. -/
def Line.opens (name : Option Text) (l : Line) : Bool := l.statement.programArgs.any (selects name)

/-- The lines behind the `.program` that is selected, up to the next one. -/
def selectedLines (name : Option Text) (lines : List Line) : List Line :=
  ((lines.dropWhile fun l => !l.opens name).drop 1).takeWhile fun l => !l.isProgram

def itemsOf (lines : List Line) : List Item := lines.flatMap fun l => l.statement.items

def programItems (src : Text) (name : Option Text) : List Item :=
  itemsOf (selectedLines name (listing src))

def wordCount (items : List Item) : ℕ := (items.map Item.size).sum

/-- Each item with the number of words in front of it. -/
def placed : ℕ → List Item → List (ℕ × Item)
  | _, [] => []
  | k, i :: items => (k, i) :: placed (k + i.size) items

theorem Statement.eq_program {s : Statement} {args : List Text} (h : s.programArgs = some args) :
    s = .program args := by
  cases s with
  | program args' => rw [Option.some.inj h]
  | _ => cases h

@[simp] theorem wordCount_nil : wordCount [] = 0 := rfl

@[simp] theorem wordCount_append (a b : List Item) :
    wordCount (a ++ b) = wordCount a + wordCount b := by
  rw [wordCount, List.map_append, List.sum_append]
  rfl

theorem placed_append : ∀ (a b : List Item)
    (k : ℕ), placed k (a ++ b) = placed k a ++ placed (k + wordCount a) b := by
  intro a
  induction a with
  | nil => exact fun _ _ => rfl
  | cons i a ih =>
    intro b k
    have hcount : k + wordCount (i :: a) = k + i.size + wordCount a := (Nat.add_assoc _ _ _).symm
    rw [List.cons_append, placed, placed, ih, hcount, List.cons_append]

namespace ParseState
variable [Platform] {pass : Pass} {name : Option Text} {ps : ParseState}

/-! ### Passes in step -/

/-- In front of the selected program. -/
structure Before (pass : Pass) (name : Option Text) (ps : ParseState) : Prop where
  pass_eq : ps.pass = pass
  name_eq : ps.name = name
  inProgram : ps.inProgram = false
  idx : ps.idx = 0

/-- Inside the selected program. -/
structure Within (pass : Pass) (ps : ParseState) : Prop where
  pass_eq : ps.pass = pass
  inProgram : ps.inProgram = true
  seen : ps.seenAnyProgram = true
  idx : ps.idx ≤ 32

omit [Platform] in
theorem programDirective_selects (h : Before pass name ps) (args : List Text) :
    (ps.programDirective args).1 = .ok ∧ (ps.programDirective args).2 =
      { (ps.programDirective args).2 with pass := pass, name := name, inProgram := selects name args
                                          seenAnyProgram := true, idx := 0 } := by
  unfold programDirective selects
  rw [h.inProgram, Bool.and_false, if_neg Bool.false_ne_true]
  refine ⟨rfl, ?_⟩
  obtain rfl := h.pass_eq
  obtain rfl := h.name_eq
  cases ps.name <;> rfl

omit [Platform] in
theorem Counts.within {words : ℕ} {r : LineResult × ParseState} (h : Counts ps words r)
    (hps : Within pass ps)
    (hle : ps.idx + words ≤ 32) : Within pass r.2 ∧ r.2.idx = ps.idx + words := by
  rw [h.rest]
  exact ⟨⟨hps.pass_eq, hps.inProgram, hps.seen, hle⟩, rfl⟩

/-- What a pass keeps in step with the items it has come to. -/
structure InStep (pass : Pass) (name : Option Text)
    (Q : List (ℕ × Item) → ParseState → Prop) : Prop where
  atLine : ∀ seen ps n, Q seen ps → Q seen (ps.atLine n)
  program : ∀ ps args, Before pass name ps → Q [] ps → Q [] (ps.programDirective args).2
  define : pass = .scan → ∀ seen ps name expr, Declarable ps.ctx name expr → Q seen ps →
    Q seen { ps with ctx := defined ps.ctx name expr }
  label : ∀ seen ps name isPublic, Within pass ps → Q seen ps →
    (ps.labelled (some (name, isPublic))).ctx.out.ok = true →
    Q (seen ++ [(ps.idx, .label name isPublic)]) (ps.labelled (some (name, isPublic)))
  wrapTarget : ∀ seen ps, Within pass ps → Q seen ps →
    Q (seen ++ [(ps.idx, .wrapTarget)]) (ps.obey .wrapTarget).2
  wrap : ∀ seen ps, Within pass ps → Q seen ps → (ps.obey .wrap).1 ≠ .error →
    Q (seen ++ [(ps.idx, .wrap)]) (ps.obey .wrap).2
  configure : ∀ seen ps kind args, Within pass ps → Q seen ps →
    (ps.obey (.configure kind args)).1 ≠ .error →
    Q seen (ps.obey (.configure kind args)).2
  data : ∀ seen ps args, Within pass ps → Q seen ps → (ps.wordDirective args).1 ≠ .error →
    Q (seen ++ [(ps.idx, .word (.data args))]) (ps.wordDirective args).2
  insn : ∀ seen ps line, Within pass ps → Q seen ps → (ps.handleInstruction line).1 ≠ .error →
    Q (seen ++ [(ps.idx, .word (.insn (tokenize line maxTokens).1))]) (ps.handleInstruction line).2

variable {Q : List (ℕ × Item) → ParseState → Prop} {seen : List (ℕ × Item)}

/-- Inside the program, with the items so far. -/
structure Reached (pass : Pass) (Q : List (ℕ × Item) → ParseState → Prop)
    (seen : List (ℕ × Item)) (k : ℕ)
    (ps : ParseState) : Prop where
  within : Within pass ps
  idx : ps.idx = k
  keeps : Q seen ps

theorem InStep.labelled (h : InStep pass name Q) (hps : Within pass ps) (hQ : Q seen ps)
    (label : Option (Text × Bool)) (hok : (ps.labelled label).ctx.out.ok = true) :
    let items := (label.map fun l => Item.label l.1 l.2).toList
    Reached pass Q (seen ++ placed ps.idx items) (ps.idx + wordCount items)
        (ps.labelled label) := by
  cases label with
  | none =>
    refine ⟨hps, rfl, ?_⟩
    change Q (seen ++ []) ps
    rw [List.append_nil]
    exact hQ
  | some l =>
    have hctx := ps.labelled_ctx (some l)
    refine ⟨?_, ?_, h.label seen ps l.1 l.2 hps hQ hok⟩
    · rw [hctx]
      exact ⟨hps.pass_eq, hps.inProgram, hps.seen, hps.idx⟩
    · rw [hctx]
      rfl

theorem InStep.obeyCode (h : InStep pass name Q) (hps : Within pass ps) (hQ : Q seen ps)
    (label : Option (Text × Bool)) (rest : Option Text)
    (hok : (ps.obeyCode label rest).1 ≠ .error) :
    let items := (Statement.code label rest).items
    (ps.obeyCode label rest).1 = .ok ∧
      Reached pass Q (seen ++ placed ps.idx items) (ps.idx + wordCount items)
          (ps.obeyCode label rest).2 := by
  have hlabelled := h.labelled hps hQ label
  unfold ParseState.obeyCode at hok ⊢
  dsimp only [Statement.items] at hok hlabelled ⊢
  rw [placed_append, wordCount_append, ← Nat.add_assoc, ← List.append_assoc]
  generalize (label.map fun l => Item.label l.1 l.2).toList = items at hlabelled ⊢
  generalize ps.labelled label = q at hok hlabelled ⊢
  cases hout : q.ctx.out.ok with
  | false =>
    rw [hout] at hok
    exact absurd rfl hok
  | true =>
    rw [hout] at hok
    obtain ⟨hwithin, hidx, hkeeps⟩ := hlabelled hout
    cases rest with
    | none =>
      refine ⟨rfl, hwithin, hidx, ?_⟩
      change Q (seen ++ placed ps.idx items ++ []) q
      rw [List.append_nil]
      exact hkeeps
    | some line =>
      obtain ⟨hlt, hcounts⟩ := counts_instruction hok
      obtain ⟨hwithin', hidx'⟩ := hcounts.within hwithin hlt
      have hkeeps' := h.insn _ q line hwithin hkeeps hok
      refine ⟨hcounts.ok, hwithin', hidx'.trans (congrArg (· + 1) hidx), ?_⟩
      rw [hidx] at hkeeps'
      exact hkeeps'

/-- Inside the program a line that is no `.program` and does not fail takes the pass on by its
items. -/
theorem InStep.obey (h : InStep pass name Q) (hps : Within pass ps) (hQ : Q seen ps) (s : Statement)
    (hprogram : s.programArgs = none) (hok : (ps.obey s).1 ≠ .error) :
    (ps.obey s).1 = .ok ∧
      Reached pass Q (seen ++ placed ps.idx s.items) (ps.idx + wordCount s.items)
      (ps.obey s).2 := by
  have hin := hps.inProgram
  have hnone : ∀ q, Q seen q → Q (seen ++ []) q := fun q hq => by rwa [List.append_nil]
  cases s with
  | nothing => exact ⟨rfl, hps, rfl, hnone ps hQ⟩
  | refused => exact absurd rfl hok
  | program args => cases hprogram
  | define args =>
    by_cases hscan : ps.pass = .scan
    · have hobey : ps.obey (.define args) = ps.defineDirective args := if_pos hscan
      rw [hobey] at hok ⊢
      rcases defineDirective_cases hok with hskips | ⟨name, expr, -, hdeclarable, hdeclares⟩
      · rw [hskips]
        exact ⟨rfl, hps, rfl, hnone ps hQ⟩
      · rw [hdeclares]
        exact ⟨rfl, ⟨hps.pass_eq, hps.inProgram, hps.seen, hps.idx⟩, rfl,
          hnone _ (h.define (hps.pass_eq.symm.trans hscan) seen ps name expr hdeclarable hQ)⟩
    · have hobey : ps.obey (.define args) = (.ok, ps) := if_neg hscan
      rw [hobey]
      exact ⟨rfl, hps, rfl, hnone ps hQ⟩
  | wrapTarget =>
    have hkeeps := h.wrapTarget seen ps hps hQ
    by_cases hconfig : ps.inProgram = true ∧ ps.pass = .config
    · have hobey : ps.obey .wrapTarget = _ := if_pos hconfig
      rw [hobey] at hkeeps ⊢
      exact ⟨rfl, ⟨hps.pass_eq, hps.inProgram, hps.seen, hps.idx⟩, rfl, hkeeps⟩
    · have hobey : ps.obey .wrapTarget = (.ok, ps) := if_neg hconfig
      rw [hobey] at hkeeps ⊢
      exact ⟨rfl, hps, rfl, hkeeps⟩
  | wrap =>
    have hkeeps := h.wrap seen ps hps hQ hok
    by_cases hconfig : ps.inProgram = true ∧ ps.pass = .config
    · have hobey : ps.obey .wrap = ps.wrapDirective := if_pos hconfig
      rw [hobey] at hok hkeeps ⊢
      have hcounts := counts_wrap hok
      obtain ⟨hwithin, hidx⟩ := hcounts.within hps hps.idx
      exact ⟨hcounts.ok, hwithin, hidx, hkeeps⟩
    · have hobey : ps.obey .wrap = (.ok, ps) := if_neg hconfig
      rw [hobey] at hkeeps ⊢
      exact ⟨rfl, hps, rfl, hkeeps⟩
  | data args =>
    have hobey : ps.obey (.data args) = ps.wordDirective args := if_pos hin
    rw [hobey] at hok ⊢
    obtain ⟨hlt, hcounts⟩ := counts_word hok
    obtain ⟨hwithin, hidx⟩ := hcounts.within hps hlt
    exact ⟨hcounts.ok, hwithin, hidx, h.data seen ps args hps hQ hok⟩
  | configure kind args =>
    have hkeeps := h.configure seen ps kind args hps hQ hok
    by_cases hconfig : ps.inProgram = true ∧ ps.pass = .config
    · have hobey : ps.obey (.configure kind args) = _ := if_pos hconfig
      rw [hobey] at hok hkeeps ⊢
      have hcounts := counts_run (fun _ ps => counts_same ps) hok
      obtain ⟨hwithin, hidx⟩ := hcounts.within hps hps.idx
      exact ⟨hcounts.ok, hwithin, hidx, hnone _ hkeeps⟩
    · have hobey : ps.obey (.configure kind args) = (.ok, ps) := if_neg hconfig
      rw [hobey] at hkeeps ⊢
      exact ⟨rfl, hps, rfl, hnone _ hkeeps⟩
  | code label rest =>
    have hobey : ps.obey (.code label rest) = ps.obeyCode label rest := if_pos hin
    rw [hobey] at hok ⊢
    exact h.obeyCode hps hQ label rest hok

/-- In front of the program a line that is no `.program` changes the declarations at most. -/
theorem InStep.obeyBefore (h : InStep pass name Q) (hps : Before pass name ps) (hQ : Q seen ps)
    (s : Statement)
    (hprogram : s.programArgs = none) (hok : (ps.obey s).1 ≠ .error) :
    (ps.obey s).1 = .ok ∧ Before pass name (ps.obey s).2 ∧ Q seen (ps.obey s).2 := by
  have hout : ¬ ps.inProgram = true := Bool.eq_false_iff.mp hps.inProgram
  have hboth : ¬ (ps.inProgram = true ∧ ps.pass = .config) := fun hin => hout hin.1
  have hsame : ∀ r : LineResult × ParseState, r = (.ok, ps) → r.1 = .ok ∧ Before pass name r.2 ∧
      Q seen r.2 := by
    rintro _ rfl
    exact ⟨rfl, hps, hQ⟩
  cases s with
  | nothing => exact hsame _ rfl
  | refused => exact absurd rfl hok
  | program args => cases hprogram
  | define args =>
    by_cases hscan : ps.pass = .scan
    · have hobey : ps.obey (.define args) = ps.defineDirective args := if_pos hscan
      rw [hobey] at hok ⊢
      rcases defineDirective_cases hok with hskips | ⟨name, expr, -, hdeclarable, hdeclares⟩
      · exact hsame _ hskips
      · rw [hdeclares]
        exact ⟨rfl, ⟨hps.pass_eq, hps.name_eq, hps.inProgram, hps.idx⟩,
          h.define (hps.pass_eq.symm.trans hscan) seen ps name expr hdeclarable hQ⟩
    · exact hsame _ (if_neg hscan)
  | wrapTarget => exact hsame _ (if_neg hboth)
  | wrap => exact hsame _ (if_neg hboth)
  | data args => exact hsame _ (if_neg hout)
  | configure kind args => exact hsame _ (if_neg hboth)
  | code label rest => exact hsame _ (if_neg hout)

omit [Platform] in
theorem Within.atLine (h : Within pass ps) (n : ℕ) : Within pass (ps.atLine n) :=
  ⟨h.pass_eq, h.inProgram, h.seen, h.idx⟩

/-- Inside the program a pass goes on to the next `.program`. -/
theorem InStep.runWithin (h : InStep pass name Q) : ∀ (lines : List Line) (n : ℕ) (ps : ParseState)
    (seen : List (ℕ × Item)), Within pass ps → Q seen ps → (runListing n ps lines).1 = true →
      let items := itemsOf (lines.takeWhile fun l => !l.isProgram)
      Reached pass Q (seen ++ placed ps.idx items) (ps.idx + wordCount items)
          (runListing n ps lines).2 := by
  intro lines
  induction lines with
  | nil =>
    intro n ps seen hps hQ _
    refine ⟨hps, rfl, ?_⟩
    change Q (seen ++ []) ps
    rwa [List.append_nil]
  | cons l rest ih =>
    intro n ps seen hps hQ hdone
    have hps' := hps.atLine n
    have hQ' := h.atLine seen ps n hQ
    rw [runListing_cons] at hdone ⊢
    cases hprogram : l.statement.programArgs with
    | some args =>
      have hstop : (ps.atLine n).obey l.statement = (.done, ps.atLine n) := by
        rw [Statement.eq_program hprogram]
        change (ps.atLine n).programDirective args = _
        unfold programDirective
        rw [hps'.seen, hps'.inProgram]
        rfl
      have hnone : (l :: rest).takeWhile (fun l => !l.isProgram) = [] := by
        rw [List.takeWhile_cons, Line.isProgram, hprogram]
        rfl
      rw [hnone, hstop]
      refine ⟨hps', rfl, ?_⟩
      change Q (seen ++ []) (ps.atLine n)
      rwa [List.append_nil]
    | none =>
      have hline := h.obey hps' hQ' l.statement hprogram
      have hmore : itemsOf ((l :: rest).takeWhile fun l => !l.isProgram) =
          l.statement.items ++ itemsOf (rest.takeWhile fun l => !l.isProgram) := by
        rw [List.takeWhile_cons, Line.isProgram, hprogram]
        rfl
      rw [hmore]
      generalize (ps.atLine n).obey l.statement = r at hline hdone ⊢
      obtain ⟨result, q⟩ := r
      cases result with
      | error => exact absurd hdone Bool.false_ne_true
      | done => cases (hline LineResult.noConfusion).1
      | ok =>
        obtain ⟨-, hwithin, hidx, hkeeps⟩ := hline LineResult.noConfusion
        have hrest := ih (n + 1) q _ hwithin hkeeps hdone
        rw [hidx] at hrest
        dsimp only
        rw [placed_append, wordCount_append, ← Nat.add_assoc, ← List.append_assoc]
        exact hrest

/-- Up to the program, and through it. -/
theorem InStep.runBefore (h : InStep pass name Q) : ∀ (lines : List Line) (n : ℕ) (ps : ParseState),
    Before pass name ps → Q [] ps → (runListing n ps lines).1 = true →
      let items := itemsOf (selectedLines name lines)
      (runListing n ps lines).2.idx = wordCount items ∧
          Q (placed 0 items) (runListing n ps lines).2 := by
  intro lines
  induction lines with
  | nil => exact fun n ps hps hQ _ => ⟨hps.idx, hQ⟩
  | cons l rest ih =>
    intro n ps hps hQ hdone
    have hps' : Before pass name (ps.atLine n) := ⟨hps.pass_eq, hps.name_eq, hps.inProgram, hps.idx⟩
    have hQ' := h.atLine [] ps n hQ
    rw [runListing_cons] at hdone ⊢
    cases hprogram : l.statement.programArgs with
    | some args =>
      obtain ⟨hok, hrest⟩ := programDirective_selects hps' args
      have hkeeps := h.program (ps.atLine n) args hps' hQ'
      have hobey : (ps.atLine n).obey l.statement = (ps.atLine n).programDirective args := by
        rw [Statement.eq_program hprogram]
        rfl
      rw [hobey] at hdone ⊢
      generalize (ps.atLine n).programDirective args = r at hok hrest hkeeps hdone ⊢
      obtain ⟨result, q⟩ := r
      obtain rfl : result = .ok := hok
      dsimp only at hrest hkeeps hdone ⊢
      cases hselects : selects name args with
      | false =>
        have hskip : selectedLines name (l :: rest) = selectedLines name rest := by
          rw [selectedLines, List.dropWhile_cons, Line.opens, hprogram, Option.any_some, hselects]
          rfl
        rw [hskip]
        refine ih (n + 1) q ?_ hkeeps hdone
        rw [hrest]
        exact ⟨rfl, rfl, hselects, rfl⟩
      | true =>
        have hopen : selectedLines name (l :: rest) = rest.takeWhile fun l => !l.isProgram := by
          rw [selectedLines, List.dropWhile_cons, Line.opens, hprogram, Option.any_some, hselects]
          rfl
        have hidx : q.idx = 0 := by
          rw [hrest]
        have hwithin : Within pass q := by
          rw [hrest]
          exact ⟨rfl, hselects, rfl, Nat.zero_le _⟩
        have hreached := h.runWithin rest (n + 1) q [] hwithin hkeeps hdone
        rw [hidx] at hreached
        rw [hopen]
        exact ⟨hreached.idx.trans (Nat.zero_add _), hreached.keeps⟩
    | none =>
      have hskip : selectedLines name (l :: rest) = selectedLines name rest := by
        rw [selectedLines, List.dropWhile_cons, Line.opens, hprogram]
        rfl
      rw [hskip]
      have hline := h.obeyBefore hps' hQ' l.statement hprogram
      generalize (ps.atLine n).obey l.statement = r at hline hdone ⊢
      obtain ⟨result, q⟩ := r
      cases result with
      | error => exact absurd hdone Bool.false_ne_true
      | done => cases (hline LineResult.noConfusion).1
      | ok =>
        obtain ⟨-, hbefore, hkeeps⟩ := hline LineResult.noConfusion
        exact ih (n + 1) q hbefore hkeeps hdone

end ParseState

end PioSim.Asm
