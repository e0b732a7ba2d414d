import PioSim.Asm.Decoding

/-!
# Instruction lines that assemble

A line that assembles has a mnemonic with its operands in front of its clauses. Its word is decoded
to what these spell. What the encoder does not look at is the difference between a line that
assembles and a line that is spelled in full.
-/

namespace PioSim.Asm

section Version
variable [Platform]

open Step

variable {t : Table} {p : Program}

/-! ### The mnemonic in front -/

section
omit [Platform]

theorem mnemonic_congr {m a : Text} (h : ieq m a = true) : mnemonic m = mnemonic a := by
  unfold mnemonic
  simp only [ieq_congr h]

/-- Neither a token that opens a bracket nor a `side` is a mnemonic. -/
theorem mnemonic_clause {m : Text} (h : m.head? = some '[' ∨ ieq m "side".toList = true) :
    mnemonic m = none := by
  rcases h with h | h
  · obtain ⟨s, rfl⟩ := List.head?_eq_some_iff.mp h
    rfl
  · rw [mnemonic_congr h]
    decide

theorem head_splitBracket : ∀ {tok front back : List Text}, splitBracket tok = some (front, back) →
    (mnemonic (tok.headD [])).isSome = true → front.head? = tok.head? := by
  intro tok front back h hm
  cases tok with
  | nil => cases h
  | cons m ts =>
    unfold splitBracket at h
    cases hts : splitBracket ts with
    | some r =>
      rw [hts] at h
      obtain ⟨rfl, -⟩ := Prod.mk.inj (Option.some.inj h)
      rfl
    | none =>
      rw [hts] at h
      dsimp only at h
      split_ifs at h with hopen
      rw [List.headD_cons, mnemonic_clause (.inl hopen)] at hm
      cases hm

/-- A clause does not take the mnemonic. -/
theorem head_lastClause {tok rest : List Text} {c : Clause} (h : lastClause tok = some (c, rest))
    (hm : (mnemonic (tok.headD [])).isSome = true) : rest.head? = tok.head? := by
  unfold lastClause at h
  dsimp only at h
  split at h
  · rename_i front back hdelay
    obtain ⟨-, rfl⟩ := Prod.mk.inj (Option.some.inj h)
    split at hdelay
    · split at hdelay
      · exact head_splitBracket hdelay hm
      · cases hdelay
    · cases hdelay
  · split at h
    · rename_i s side front hrev
      split at h
      · rename_i hside
        obtain ⟨-, rfl⟩ := Prod.mk.inj (Option.some.inj h)
        have htok : tok = front.reverse ++ [side, s] := by
          rw [← List.reverse_reverse tok, hrev, List.reverse_cons, List.reverse_cons,
            List.append_assoc]
          rfl
        rw [htok] at hm ⊢
        cases hfront : front.reverse with
        | nil =>
          rw [hfront, List.nil_append, List.headD_cons, mnemonic_clause (.inr hside)] at hm
          cases hm
        | cons m args => rfl
      · cases h
    · cases h

theorem head_clausesFrom : ∀ (n : ℕ) {tok : List Text}, (mnemonic (tok.headD [])).isSome = true →
    (clausesFrom n tok).2.head? = tok.head? := by
  intro n
  induction n with
  | zero => exact fun _ => rfl
  | succ n ih =>
    intro tok hm
    unfold clausesFrom
    cases hclause : lastClause tok with
    | none => rfl
    | some c =>
      obtain ⟨clause, rest⟩ := c
      have hhead := head_lastClause hclause hm
      have hheadD : rest.headD [] = tok.headD [] := by
        rw [List.headD_eq_head?_getD, List.headD_eq_head?_getD, hhead]
      exact (ih (by rwa [hheadD])).trans hhead

/-- The mnemonic stands in front of its operands, and they in front of the clauses. -/
theorem trailingClauses_cons {tok : List Text} (hm : (mnemonic (tok.headD [])).isSome = true) :
    (trailingClauses tok).2 = tok.headD [] :: (trailingClauses tok).2.tail := by
  have hhead : (trailingClauses tok).2.head? = tok.head? := head_clausesFrom tok.length hm
  cases htok : tok with
  | nil =>
    rw [htok] at hm
    cases hm
  | cons m args =>
    rw [htok] at hhead
    cases hrest : (trailingClauses (m :: args)).2 with
    | nil =>
      rw [hrest] at hhead
      cases hhead
    | cons m' args' =>
      rw [hrest] at hhead
      rw [Option.some.inj hhead]
      rfl

end

/-! ### A line -/

structure Says (t : Table) (p : Program) (tok : List Text) (w : Insn) : Prop where
  mnemonic : (mnemonic (tok.headD [])).isSome = true
  operation : ∃ op n, spelledOperation (tok.headD [])
      (readOperands (tok.headD []) (trailingClauses tok).2.tail) = some op ∧
    op.evaluate t.number = some n ∧ n.Fits ∧ decode w = n
  clauses : ∃ sd : SideDelay, Stored t (trailingClauses tok).1 ⟨0, none⟩ sd ∧ ∀ sm :
    Sm, Sidesets p sm →
    Recovers (sm.decodeDelaySideset (delayField w)) sd.delay.toNat (sd.side.map BitVec.toNat)

theorem decode_congr {w w' : Insn} (hopcode : opcode w = opcode w')
    (hoperand : operandOf w = operandOf w') :
    decode w = decode w' := by
  unfold decode
  rw [hopcode, hoperand]

theorem isSome_of_spelledOperation {m : Text} {args : List Text} {op : Operation Text}
    (h : spelledOperation m args = some op) : (mnemonic m).isSome = true := by
  unfold spelledOperation at h
  cases hm : mnemonic m with
  | none =>
    rw [hm] at h
    cases h
  | some name => rfl

theorem assembleInsn_yields (tok : List Text) : Yields t p (assembleInsn tok) (Says t p tok) := by
  unfold assembleInsn extractSideDelay
  refine (extractFrom_yields tok.length _ tok).bind fun r ⟨hrest, hstored⟩ => ?_
  obtain ⟨sd, left⟩ := r
  have hleft : left = (trailingClauses tok).2 := hrest
  rw [hleft]
  dsimp only at hstored ⊢
  refine (encodeMnemonic_yields _ _).bind fun base ⟨op, n, hspelled, hvalue, hfits, hencodes⟩ => ?_
  refine (packDelaySideset_yields sd).bind fun ds ⟨hds, hrecovers⟩ => .pure ?_
  obtain ⟨hopcode, hoperand, hfield⟩ := withDelay hencodes.room hds
  refine ⟨isSome_of_spelledOperation hspelled, ⟨op, n, hspelled, hvalue, hfits, ?_⟩, sd, hstored,
    fun sm h => ?_⟩
  · rw [decode_congr hopcode hoperand]
    exact hencodes.decoded
  · rw [hfield]
    exact hrecovers sm h

/-- The tables and the configuration that a line is assembled over are those of its program. -/
theorem says_of_assembles {tok : List Text} {w : Insn} (h : Assembles t p tok w) :
    Says t p tok w := by
  obtain ⟨ctx, q, hover, hconfig, hw⟩ := h
  have hyields := (assembleInsn_yields (p := q) tok ctx _ w hover (Prod.ext hw rfl)).1
  have hsidesets : ∀ sm : Sm, Sidesets p sm → Sidesets q sm := by
    rw [← hconfig]
    exact fun _ hsm => hsm
  obtain ⟨sd, hstored, hrecovers⟩ := hyields.clauses
  exact ⟨hyields.mnemonic, hyields.operation, sd, hstored,
    fun sm hsm => hrecovers sm (hsidesets sm hsm)⟩

/-! ### Lines that are spelled in full -/

/-- The numbers a line says. -/
structure LineValue where
  operation : Operation ℕ
  delay : ℕ
  side : Option ℕ
  deriving DecidableEq

/-- The values of the texts of a line; without a clause there is no delay, or no side-set. -/
def SpelledLine.evaluate (t : Table) (line : SpelledLine) : Option LineValue :=
  (line.operation.evaluate t.number).bind fun operation =>
    (line.delay.elim (some 0) t.delayNumber).bind fun delay =>
      (line.side.elim (some none) fun s => (t.number s).map some).map fun side =>
        ⟨operation, delay, side⟩

/-- All tokens of a line are looked at, and no clause hides another. -/
structure NoSurplus (tok : List Text) : Prop where
  delays : ((trailingClauses tok).1.filterMap Clause.delay?).length ≤ 1
  sides : ((trailingClauses tok).1.filterMap Clause.side?).length ≤ 1
  nop : Asm.mnemonic (tok.headD []) = some .nop → (trailingClauses tok).2.tail = []
  mov : Asm.mnemonic (tok.headD []) = some .mov → (trailingClauses tok).2.tail.length = 2

theorem length_of_spelledMov {args : List Text} {op : Operation Text}
    (h : spelledMov args = some op) :
    args.length = 2 := by
  unfold spelledMov at h
  split at h
  · rfl
  · cases h

/-- An operation is spelled with just the operands that are looked at. -/
theorem readOperands_of_spelled {m : Text} {args : List Text} {op : Operation Text}
    (h : spelledOperation m args = some op) : readOperands m args = args := by
  unfold spelledOperation at h
  unfold readOperands
  cases hm : mnemonic m with
  | none => rfl
  | some name =>
    rw [hm] at h
    cases name with
    | nop =>
      dsimp only at h
      split_ifs at h with hargs
      exact hargs.symm
    | mov => exact List.take_of_length_le (length_of_spelledMov h).le
    | _ => rfl

theorem readOperands_eq_iff {m : Text} {args : List Text} {op : Operation Text}
    (h : spelledOperation m (readOperands m args) = some op) : readOperands m args = args ↔
      (mnemonic m = some .nop → args = []) ∧ (mnemonic m = some .mov → args.length = 2) := by
  unfold spelledOperation at h
  unfold readOperands at h ⊢
  cases hm : mnemonic m with
  | none => exact iff_of_true rfl ⟨nofun, nofun⟩
  | some name =>
    rw [hm] at h
    cases name with
    | nop => exact ⟨fun hargs => ⟨fun _ => hargs.symm, nofun⟩, fun hargs => (hargs.1 rfl).symm⟩
    | mov =>
      have hlength := length_of_spelledMov h
      dsimp only at hlength ⊢
      refine ⟨fun hargs => ⟨nofun, fun _ => ?_⟩, fun hargs => ?_⟩
      · rwa [hargs] at hlength
      · exact List.take_of_length_le (hargs.2 rfl).le
    | _ => exact iff_of_true rfl ⟨nofun, nofun⟩

omit [Platform] in
theorem getLast?_eq_head? {α : Type} {l : List α} (h : l.length ≤ 1) : l.getLast? = l.head? := by
  rcases l with _ | ⟨a, _ | ⟨b, l⟩⟩
  · rfl
  · rfl
  · exact absurd h (by simp)

/-- A spelled line is one without surplus. -/
theorem Says.spelled_iff {tok : List Text} {w : Insn} (h : Says t p tok w) :
    (spelledLine tok).isSome = true ↔ NoSurplus tok := by
  obtain ⟨op, n, hspelled, -⟩ := h.operation
  have hread := readOperands_eq_iff hspelled
  have hline : spelledLine tok = if ((trailingClauses tok).1.filterMap Clause.delay?).length ≤ 1 ∧
      ((trailingClauses tok).1.filterMap Clause.side?).length ≤ 1 then
        (spelledOperation (tok.headD []) (trailingClauses tok).2.tail).map fun op =>
          ⟨op, ((trailingClauses tok).1.filterMap Clause.delay?).head?,
            ((trailingClauses tok).1.filterMap Clause.side?).head?⟩
      else none := by
    unfold spelledLine
    rw [trailingClauses_cons h.mnemonic]
    rfl
  rw [hline]
  constructor
  · intro hsome
    split_ifs at hsome with hclauses
    · rw [Option.isSome_map] at hsome
      obtain ⟨op', hop'⟩ := Option.isSome_iff_exists.mp hsome
      obtain ⟨hnop, hmov⟩ := hread.mp (readOperands_of_spelled hop')
      exact ⟨hclauses.1, hclauses.2, hnop, hmov⟩
    · cases hsome
  · intro hsurplus
    rw [if_pos ⟨hsurplus.delays, hsurplus.sides⟩, Option.isSome_map,
      ← hread.mpr ⟨hsurplus.nop, hsurplus.mov⟩, hspelled]
    rfl

/-- What the word of a spelled line decodes to. -/
theorem Says.decodes {tok : List Text} {w : Insn} (h : Says t p tok w) {line : SpelledLine}
    (hline : spelledLine tok = some line) : ∃ n : LineValue, line.evaluate t = some n ∧
      n.operation.Fits ∧
      decode w = n.operation ∧
      ∀ sm : Sm, Sidesets p sm → Recovers (sm.decodeDelaySideset (delayField w))
        n.delay n.side := by
  obtain ⟨op, n, hspelled, hvalue, hfits, hdecode⟩ := h.operation
  obtain ⟨sd, hstored, hrecovers⟩ := h.clauses
  have hsurplus := h.spelled_iff.mp (Option.isSome_iff_exists.mpr ⟨line, hline⟩)
  rw [(readOperands_eq_iff hspelled).mpr ⟨hsurplus.nop, hsurplus.mov⟩] at hspelled
  unfold spelledLine at hline
  rw [trailingClauses_cons h.mnemonic] at hline
  dsimp only at hline
  rw [if_pos ⟨hsurplus.delays, hsurplus.sides⟩, hspelled, Option.map_some] at hline
  obtain rfl := Option.some.inj hline
  have hdelay := hstored.delay
  have hside := hstored.side
  rw [getLast?_eq_head? hsurplus.delays] at hdelay
  rw [getLast?_eq_head? hsurplus.sides] at hside
  refine ⟨⟨n, sd.delay.toNat, sd.side.map BitVec.toNat⟩, ?_, hfits, hdecode, hrecovers⟩
  unfold SpelledLine.evaluate
  dsimp only
  have hdelays : (((trailingClauses tok).1.filterMap Clause.delay?).head?).elim
    (some 0) t.delayNumber =
      some sd.delay.toNat := by
    generalize ((trailingClauses tok).1.filterMap Clause.delay?).head? = clause at hdelay ⊢
    cases clause with
    | none => exact (congrArg (fun v : Word => some v.toNat) hdelay).symm
    | some tok => exact hdelay
  have hsides : (((trailingClauses tok).1.filterMap Clause.side?).head?).elim (some none)
      (fun s => (t.number s).map some) = some (sd.side.map BitVec.toNat) := by
    generalize ((trailingClauses tok).1.filterMap Clause.side?).head? = clause at hside ⊢
    cases clause with
    | none => rw [show sd.side = none from hside]; rfl
    | some s =>
      obtain ⟨v, hv, hs⟩ := hside
      rw [hv, Option.elim_some, hs]
      rfl
  rw [hvalue, Option.bind_some, hdelays, Option.bind_some, hsides, Option.map_some]

/-- Each instruction line that is spelled in full is behind a word that decodes to what the line
says: the operation with its numbers, which fit, the delay, and the side-set if there is one. -/
theorem instruction_agrees {src : Text} {name : Option Text}
    (h : (pioAsmAssemble src name).1 = true)
    {e : ℕ × List Text} (he : e ∈ instructionLines src name) {line : SpelledLine}
    (hline : spelledLine e.2 = some line) :
    ∃ (hidx : e.1 < 32) (n : LineValue), line.evaluate (symbols src name) = some n ∧
      n.operation.Fits ∧
      decode ((pioAsmAssemble src name).2.insns ⟨e.1, hidx⟩) = n.operation ∧
      ∀ sm : Sm, Sidesets (pioAsmAssemble src name).2 sm → Recovers
        (sm.decodeDelaySideset (delayField ((pioAsmAssemble src name).2.insns ⟨e.1, hidx⟩)))
          n.delay n.side := by
  obtain ⟨hidx, hassembles⟩ := assembles_instructionLines h he
  exact ⟨hidx, (says_of_assembles hassembles).decodes hline⟩

omit [Platform] in
theorem instruction_agrees_set : let _ : Platform := ⟨.rp2350⟩
    let src := ".program p\n.define n 4\n.side_set 1 opt\nset x, n + 1 side 1 [3]".toList
    let e : ℕ × List Text :=
      (0, ["set".toList, "x".toList, "n".toList, "+".toList, "1".toList, "side".toList,
      "1".toList, "[3]".toList])
    ∃ (hidx : e.1 < 32) (n : LineValue),
      (SpelledLine.mk (.set .x "n + 1".toList) (some ["[3]".toList])
        (some "1".toList)).evaluate (symbols src none) = some n ∧ n.operation.Fits ∧
      decode ((pioAsmAssemble src none).2.insns ⟨e.1, hidx⟩) = n.operation ∧
      ∀ sm : Sm, Sidesets (pioAsmAssemble src none).2 sm → Recovers
        (sm.decodeDelaySideset (delayField ((pioAsmAssemble src none).2.insns ⟨e.1, hidx⟩)))
            n.delay n.side := by
  intro _ src e
  have hok : (pioAsmAssemble src none).1 = true := by decide +kernel
  have he : e ∈ instructionLines src none := by decide +kernel
  have hline : spelledLine e.2 =
      some ⟨.set .x "n + 1".toList, some ["[3]".toList], some "1".toList⟩ := by
    decide +kernel
  exact instruction_agrees hok he hline

end Version

end PioSim.Asm
