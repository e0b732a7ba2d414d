import PioSim.Asm.Statement

/-!
# How far the passes read

A pass stops at the `.program` behind the selected one, or at a line that it refuses. The passes
behind the scan stop there too, so of a listing only the lines that the scan reads matter.
-/

namespace PioSim.Asm

namespace ParseState
variable [Platform] {ps q : ParseState} {lines lines' : List Line} {n : ℕ}

def linesRead : ℕ → ParseState → List Line → ℕ
  | _, _, [] => 0
  | n, ps, l :: rest => match (ps.atLine n).obey l.statement with
    | (.ok, ps) => linesRead (n + 1) ps rest + 1
    | _ => 1

/-- What a pass does not read makes no difference to it. -/
theorem runListing_congr (hlen : lines'.length = lines.length)
    (h : lines'.take (linesRead n ps lines) = lines.take (linesRead n ps lines)) :
    runListing n ps lines' = runListing n ps lines := by
  induction lines generalizing lines' n ps with
  | nil => rw [List.eq_nil_of_length_eq_zero hlen]
  | cons l rest ih =>
    obtain ⟨l', rest', rfl⟩ := List.exists_cons_of_length_eq_add_one hlen
    rw [runListing_cons, runListing_cons]
    unfold linesRead at h
    generalize hobey : (ps.atLine n).obey l.statement = r at h ⊢
    obtain ⟨_ | _ | _, q⟩ := r
    · rw [List.take_succ_cons, List.take_succ_cons] at h
      obtain ⟨rfl, hrest⟩ := List.cons.inj h
      rw [hobey]
      exact ih (Nat.succ.inj hlen) hrest
    · obtain ⟨rfl, -⟩ := List.cons.inj h
      rw [hobey]
    · obtain ⟨rfl, -⟩ := List.cons.inj h
      rw [hobey]

/-! ### Where the passes stop -/

/-- The name that is looked for, and whether a program has been seen and the selected one
entered. -/
def place (ps : ParseState) : Option Text × Bool × Bool :=
  (ps.name, ps.seenAnyProgram, ps.inProgram)

end ParseState

/-- Where a line takes a pass, if it does not end it. -/
def Statement.moves (here : Option Text × Bool × Bool) :
    Statement → Option (Option Text × Bool × Bool)
  | .program args => if here.2.1 && here.2.2 then none else some (here.1, true, selects here.1 args)
  | _ => some here

namespace ParseState
variable {ps q : ParseState} {lines lines' : List Line} {n : ℕ}

theorem Counts.moves {words : ℕ} {r : LineResult × ParseState} (h : Counts ps words r) :
    r.1 = .ok ∧ r.2.place = ps.place := by
  rw [h.rest]
  exact ⟨h.ok, rfl⟩

variable [Platform]

/-- A line that is not refused ends every pass at a place, or takes it to the same place. -/
theorem obey_moves (ps : ParseState) (s : Statement) (hok : (ps.obey s).1 ≠ .error) :
    (s.moves ps.place).elim ((ps.obey s).1 = .done) fun there => (ps.obey s).1 = .ok ∧
      (ps.obey s).2.place = there := by
  have hsame : ∀ {c : Prop} [Decidable c]
    {r : LineResult × ParseState}, (if c then r else (.ok, ps)).1 ≠ .error →
      (c → r.1 ≠ .error → r.1 = .ok ∧ r.2.place = ps.place) →
      (if c then r else (.ok, ps)).1 = .ok ∧ (if c then r else (.ok, ps)).2.place = ps.place := by
    intro c _ r hr himp
    split
    · rename_i hc
      rw [if_pos hc] at hr
      exact himp hc hr
    · exact ⟨rfl, rfl⟩
  cases s with
  | nothing => exact ⟨rfl, rfl⟩
  | refused => exact absurd rfl hok
  | program args =>
    change ((if ps.seenAnyProgram && ps.inProgram then none else
      some (ps.name, true, selects ps.name args)) : Option _).elim _ _
    cases hin : ps.seenAnyProgram && ps.inProgram with
    | true =>
      change (ps.programDirective args).1 = .done
      unfold programDirective
      rw [hin]
      rfl
    | false =>
      change (ps.programDirective args).1 = .ok ∧ (ps.programDirective args).2.place = _
      rw [programDirective_opens hin]
      exact ⟨rfl, rfl⟩
  | define args =>
    refine hsame hok fun _ hne => ?_
    rcases defineDirective_cases hne with hskips | ⟨name, expr, -, -, hdeclares⟩
    · rw [hskips]
      exact ⟨rfl, rfl⟩
    · rw [hdeclares]
      exact ⟨rfl, rfl⟩
  | wrapTarget => exact hsame hok fun _ _ => ⟨rfl, rfl⟩
  | wrap => exact hsame hok fun _ hne => (counts_wrap hne).moves
  | data args => exact hsame hok fun _ hne => (counts_word hne).2.moves
  | configure kind args => exact hsame hok fun _ hne =>
      (counts_run (fun _ ps => counts_same ps) hne).moves
  | code label rest =>
    refine hsame hok fun _ hne => ?_
    unfold obeyCode at hne ⊢
    dsimp only at hne ⊢
    have hlabel : (ps.labelled label).place = ps.place := by
      rw [ps.labelled_ctx label]
      rfl
    split
    · rename_i hfailed
      rw [if_pos hfailed] at hne
      exact absurd rfl hne
    rename_i hfine
    rw [if_neg hfine] at hne
    cases rest with
    | none => exact ⟨rfl, hlabel⟩
    | some line =>
      obtain ⟨hdone, hplace⟩ := (counts_instruction hne).2.moves
      exact ⟨hdone, hplace.trans hlabel⟩

/-- Where a pass that fails nowhere stops, every pass from the same place has stopped. -/
theorem linesRead_le (hplace : q.place = ps.place) (hdone : (runListing n ps lines).1 = true) :
    linesRead n q lines ≤ linesRead n ps lines := by
  induction lines generalizing n ps q with
  | nil => exact Nat.le_refl 0
  | cons l rest ih =>
    have hok : ((ps.atLine n).obey l.statement).1 ≠ .error := by
      intro herror
      rw [runListing_cons] at hdone
      generalize (ps.atLine n).obey l.statement = r at herror hdone
      obtain ⟨result, q⟩ := r
      obtain rfl : result = .error := herror
      exact absurd hdone Bool.false_ne_true
    have hmoves := obey_moves (ps.atLine n) l.statement hok
    have hsame : (q.atLine n).place = (ps.atLine n).place := hplace
    by_cases hfine : ((q.atLine n).obey l.statement).1 = .error
    · unfold linesRead
      generalize (q.atLine n).obey l.statement = r at hfine ⊢
      obtain ⟨result, q⟩ := r
      obtain rfl : result = .error := hfine
      dsimp only
      split <;> omega
    have hmoves' := obey_moves (q.atLine n) l.statement hfine
    rw [hsame] at hmoves'
    rw [runListing_cons] at hdone
    unfold linesRead
    generalize (ps.atLine n).obey l.statement = r at hok hmoves hdone ⊢
    generalize (q.atLine n).obey l.statement = r' at hmoves' ⊢
    obtain ⟨result, q₁⟩ := r
    obtain ⟨result', q₁'⟩ := r'
    cases hthere : l.statement.moves (ps.atLine n).place with
    | none =>
      rw [hthere] at hmoves hmoves'
      obtain rfl : result = .done := hmoves
      obtain rfl : result' = .done := hmoves'
      exact Nat.le_refl 1
    | some there =>
      rw [hthere] at hmoves hmoves'
      obtain ⟨hres, hat⟩ := hmoves
      obtain ⟨hres', hat'⟩ := hmoves'
      obtain rfl : result = .ok := hres
      obtain rfl : result' = .ok := hres'
      exact Nat.succ_le_succ (ih (hat'.trans hat.symm) hdone)

end ParseState

/-! ### The assembly -/

/-- Stages that do the same where they are reached. -/
theorem ParseState.stages_congr {f f' : ParseState → Bool × ParseState}
    {fs fs' : List (ParseState → Bool × ParseState)}
    {ps : ParseState} (hf : f' ps = f ps)
    (hfs : ∀ q, f ps = (true, q) → q.stages fs' = q.stages fs) :
    ps.stages (f' :: fs') = ps.stages (f :: fs) := by
  rw [stages, stages, hf]
  generalize f ps = r at hfs ⊢
  obtain ⟨result, q⟩ := r
  cases result with
  | true => exact hfs q rfl
  | false => rfl

theorem ParseState.name_finishConfig (ps : ParseState) : ps.finishConfig.2.name = ps.name := by
  unfold finishConfig
  dsimp only
  split
  · rfl
  · split <;> rfl

section Assembly
variable [Platform] {lines lines' : List Line}

/-- How many lines of a listing are read: as many as the scan reads. -/
def linesScanned (name : Option Text) (lines : List Line) : ℕ :=
  (ParseState.start name).linesRead 1 lines

/-- The lines that the scan does not read make no difference. -/
theorem assembleListing_congr {name : Option Text} (hlen : lines'.length = lines.length)
    (h : lines'.take (linesScanned name lines) = lines.take (linesScanned name lines)) :
    assembleListing lines' name = assembleListing lines name := by
  have hscan : (ParseState.start name).runOver .scan lines' =
      (ParseState.start name).runOver .scan lines :=
    ParseState.runListing_congr hlen h
  unfold assembleListing
  refine congrArg (fun r : Bool × ParseState => (r.1, r.2.ctx.out))
    (ParseState.stages_congr hscan fun ps hps => ?_)
  have hdone : ((ParseState.start name).runOver .scan lines).1 = true := congrArg Prod.fst hps
  have hpass : ∀ (q : ParseState) (pass : Pass), q.name = name →
      q.runOver pass lines' = q.runOver pass lines := by
    intro q pass hname
    have hread : ParseState.linesRead 1 { q.plain with
        pass := pass, inProgram := false, seenAnyProgram := false, idx := 0 } lines ≤
            linesScanned name lines :=
      ParseState.linesRead_le (congrArg (·, false, false) hname) hdone
    refine ParseState.runListing_congr hlen ?_
    have hprefix := congrArg (List.take (ParseState.linesRead 1 { q.plain with
      pass := pass, inProgram := false, seenAnyProgram := false, idx := 0 } lines)) h
    rwa [List.take_take, List.take_take, Nat.min_eq_left hread] at hprefix
  have hname : ps.name = name := by
    have hkept := (ParseState.start name).name_runOver .scan lines
    rwa [hps] at hkept
  refine ParseState.stages_congr (hpass ps .config hname) fun ps' hconfig => ?_
  have hname' : ps'.name = name := by
    have hkept := ps.name_runOver .config lines
    rw [hconfig] at hkept
    exact hkept.trans hname
  refine ParseState.stages_congr rfl fun ps'' hfinish =>
    ParseState.stages_congr (hpass ps'' .emit ?_) fun _ _ => rfl
  have hkept := ps'.name_finishConfig
  rw [hfinish] at hkept
  exact hkept.trans hname'

end Assembly

end PioSim.Asm
