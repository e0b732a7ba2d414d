import PioSim.Asm.Lines
import PioSim.Asm.Passes
import PioSim.Asm.Outcome

/-!
# The code of a source

A source says for each word of its selected program what is to be done, and where the program wraps.
The words that `pio_asm_assemble` makes of it decode to just this.
-/

namespace PioSim.Asm

/-- What a word of a program comes from: an instruction line, or data. -/
inductive CodeLine
  | line (n : LineValue)
  | data (w : Insn)
  deriving DecidableEq

/-- A program as its source says it. -/
structure Code where
  lines : List CodeLine
  wrapBottom : ℕ
  wrapTop : ℕ
  deriving DecidableEq

def Item.source? : Item → Option Source
  | .word source => some source
  | _ => none

section Version
variable [Platform]

/-- The numbers an instruction line says, read as the assembler does: operands that are not looked
at are passed over, and of several clauses of a kind the first one on the line counts. -/
def readLine (t : Table) (tok : List Text) : Option LineValue :=
  (spelledOperation (tok.headD []) (readOperands (tok.headD []) (trailingClauses tok).2.tail)).bind
      fun op =>
    (op.evaluate t.number).bind fun operation =>
      ((((trailingClauses tok).1.filterMap Clause.delay?).getLast?).elim (some 0)
          t.delayNumber).bind fun delay =>
        ((((trailingClauses tok).1.filterMap Clause.side?).getLast?).elim (some none) fun s =>
          (t.number s).map some).map fun side => ⟨operation, delay, side⟩

def Source.read (t : Table) : Source → Option CodeLine
  | .insn tok => (readLine t tok).map .line
  | .data args => (t.wordJoin args).map fun v => .data (v.setWidth 16)

/-- The code of the selected program; without a `.wrap` it wraps behind its last word. -/
def sourceCode (src : Text) (name : Option Text) : Option Code :=
  let items := programItems src name
  ((items.filterMap Item.source?).mapM (Source.read (symbols src name))).map fun lines =>
    { lines := lines
      wrapBottom := (ParseState.targetsIn (placed 0 items)).getLastD 0
      wrapTop := ((ParseState.wrapsIn (placed 0 items)).head?.getD lines.length) - 1 }

/-! ### A line and its word -/

variable {t : Table} {p : Program}

/-- What is read of a line that assembles is what its word decodes to. -/
theorem Says.reads {tok : List Text} {w : Insn} (h : Says t p tok w) : ∃ n : LineValue,
    readLine t tok = some n ∧ decode w = n.operation ∧
      ∀ sm : Sm, Sidesets p sm → Recovers (sm.decodeDelaySideset (delayField w))
        n.delay n.side := by
  obtain ⟨op, n, hspelled, hvalue, -, hdecode⟩ := h.operation
  obtain ⟨sd, hstored, hrecovers⟩ := h.clauses
  refine ⟨⟨n, sd.delay.toNat, sd.side.map BitVec.toNat⟩, ?_, hdecode, hrecovers⟩
  have hdelay := hstored.delay
  have hside := hstored.side
  unfold readLine
  rw [hspelled, Option.bind_some, hvalue, Option.bind_some]
  generalize ((trailingClauses tok).1.filterMap Clause.delay?).getLast? = delays at hdelay ⊢
  generalize ((trailingClauses tok).1.filterMap Clause.side?).getLast? = sides at hside ⊢
  have hdelays : delays.elim (some 0) t.delayNumber = some sd.delay.toNat := by
    cases delays with
    | none => exact (congrArg (fun v : Word => some v.toNat) hdelay).symm
    | some tok => exact hdelay
  have hsides : (sides.elim (some none) fun s => (t.number s).map some) =
      some (sd.side.map BitVec.toNat) := by
    cases sides with
    | none =>
      have hnone : sd.side = none := hside
      rw [hnone]
      rfl
    | some s =>
      obtain ⟨v, hv, hs⟩ := hside
      rw [hv, Option.elim_some, hs]
      rfl
  rw [hdelays, Option.bind_some, hsides, Option.map_some]

def CodeLine.Agrees (l : CodeLine) (p : Program) (w : Insn) : Prop :=
  match l with
  | .line n => decode w = n.operation ∧
      ∀ sm : Sm, Sidesets p sm → Recovers (sm.decodeDelaySideset (delayField w)) n.delay n.side
  | .data v => w = v

theorem Source.Fills.reads {source : Source} {w : Insn} (h : source.Fills t p w) :
    ∃ l : CodeLine, source.read t = some l ∧ l.Agrees p w := by
  cases source with
  | insn tok =>
    obtain ⟨n, hread, hagrees⟩ := (says_of_assembles h).reads
    refine ⟨.line n, ?_, hagrees⟩
    rw [Source.read, hread]
    rfl
  | data args =>
    obtain ⟨v, hv, -, hw⟩ := h
    refine ⟨.data (v.setWidth 16), ?_, hw⟩
    rw [Source.read, hv]
    rfl

/-! ### The words in a row -/

section
omit [Platform]

theorem length_sources (items : List Item) :
    (items.filterMap Item.source?).length = wordCount items := by
  induction items with
  | nil => rfl
  | cons item items ih =>
    have hcount : wordCount (item :: items) = item.size + wordCount items := rfl
    rw [hcount, ← ih]
    cases item with
    | word source =>
        rw [List.filterMap_cons_some (f := Item.source?) rfl, List.length_cons, Nat.add_comm]; rfl
    | _ => rw [List.filterMap_cons_none (f := Item.source?) rfl]; exact (Nat.zero_add _).symm

/-- The word of an index is laid out there. -/
theorem mem_placed_of_source : ∀ {items : List Item} {k a : ℕ} {source : Source},
    (items.filterMap Item.source?)[a]? = some source →
      (k + a, Item.word source) ∈ placed k items := by
  intro items
  induction items with
  | nil => exact fun h => nomatch h
  | cons item items ih =>
    intro k a source h
    cases item with
    | word source' =>
      rw [List.filterMap_cons_some (f := Item.source?) rfl] at h
      cases a with
      | zero =>
        rw [← Option.some.inj h]
        exact List.mem_cons_self
      | succ a =>
        have hrest := ih (k := k + 1) h
        rw [Nat.add_right_comm] at hrest
        exact List.mem_cons_of_mem _ hrest
    | _ =>
      rw [List.filterMap_cons_none (f := Item.source?) rfl] at h
      exact List.mem_cons_of_mem _ (ih h)

theorem mapM_of_forall {α β : Type} {f : α → Option β} (P : ℕ → β → Prop) : ∀ (l : List α) (k : ℕ),
    (∀ a x, l[a]? = some x → ∃ y, f x = some y ∧ P (k + a) y) →
      ∃ ys, l.mapM f = some ys ∧ ys.length = l.length ∧ ∀ a y, ys[a]? = some y → P (k + a) y := by
  intro l
  induction l with
  | nil => exact fun _ _ => ⟨[], rfl, rfl, fun _ _ h => nomatch h⟩
  | cons x l ih =>
    intro k h
    obtain ⟨y, hy, hP⟩ := h 0 x rfl
    obtain ⟨ys, hys, hlength, hPs⟩ := ih (k + 1) fun a x' hx => by
      have hnext := h (a + 1) x' hx
      rwa [← Nat.add_assoc, Nat.add_right_comm] at hnext
    refine ⟨y :: ys, ?_, congrArg (· + 1) hlength, fun a y' hy' => ?_⟩
    · rw [List.mapM_cons, hy, hys]
      rfl
    · cases a with
      | zero =>
        obtain rfl := Option.some.inj hy'
        exact hP
      | succ a =>
        have hnext := hPs a y' hy'
        rwa [Nat.add_right_comm, Nat.add_assoc] at hnext

end

/-- The program holds the code. -/
structure Code.Compiles (code : Code) (p : Program) : Prop where
  count : code.lines.length = p.count
  wrapBottom : p.wrapBottom = code.wrapBottom
  wrapTop : p.wrapTop = code.wrapTop
  agrees : ∀ (a : ℕ) (l : CodeLine), code.lines[a]? = some l → l.Agrees p (p.insns (Fin.ofNat 32 a))

/-- A source that assembles has a code, and the assembled program holds it. -/
theorem compiles {src : Text} {name : Option Text} (h : (pioAsmAssemble src name).1 = true) :
    ∃ code, sourceCode src name = some code ∧ code.Compiles (pioAsmAssemble src name).2 := by
  obtain ⟨hcount, hwords, -, -, -, hbottom, hwrap, hnowrap⟩ := laidOut h
  obtain ⟨p, hp⟩ : ∃ p, (pioAsmAssemble src name).2 = p := ⟨_, rfl⟩
  rw [hp] at hcount hwords hbottom hwrap hnowrap ⊢
  have hread : ∀ a source, ((programItems src name).filterMap Item.source?)[a]? = some source →
      ∃ l : CodeLine, source.read (symbols src name) = some l ∧
        l.Agrees p (p.insns (Fin.ofNat 32 (0 + a))) := by
    intro a source ha
    obtain ⟨hidx, -, hfills⟩ := hwords (0 + a) source (mem_placed_of_source ha)
    have hslot : (⟨0 + a, hidx⟩ : Fin 32) = Fin.ofNat 32 (0 + a) :=
      Fin.ext (Nat.mod_eq_of_lt hidx).symm
    rw [← hslot]
    exact hfills.reads
  obtain ⟨lines, hlines, hlength, hagrees⟩ :=
    mapM_of_forall (fun a (l : CodeLine) => l.Agrees p (p.insns (Fin.ofNat 32 a))) _ 0 hread
  rw [length_sources, ← hcount] at hlength
  refine ⟨_, by rw [sourceCode, hlines]; rfl, ⟨hlength, hbottom, ?_, fun a l ha => ?_⟩⟩
  · dsimp only
    cases hwraps : (ParseState.wrapsIn (placed 0 (programItems src name))).head? with
    | none =>
      have hnone := hnowrap fun k hk => ?_
      · rw [Option.getD_none]
        omega
      · have hmem : k ∈ ParseState.wrapsIn (placed 0 (programItems src name)) :=
          List.mem_filterMap.mpr ⟨_, hk, rfl⟩
        rw [List.head?_eq_none_iff.mp hwraps] at hmem
        cases hmem
    | some k =>
      obtain ⟨⟨k', item⟩, hmem, hitem⟩ := List.mem_filterMap.mp (List.mem_of_mem_head? hwraps)
      cases item with
      | wrap =>
        obtain rfl := Option.some.inj hitem
        have htop := hwrap k' hmem
        rw [Option.getD_some]
        omega
      | _ => cases hitem
  · have hline := hagrees a l ha
    rwa [Nat.zero_add] at hline

end Version
end PioSim.Asm
