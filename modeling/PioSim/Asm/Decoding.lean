import PioSim.Asm.Slots

/-!
# Whole lines decoded

The encoders of MOV and IRQ, then every mnemonic, then the clauses: what `exec_one` decodes from the
word of an instruction line is what the line spells, the delay and the side-set included.
-/

namespace PioSim.Asm

section Version
variable [Platform]

open Step

variable {t : Table} {p : Program}

/-! ### MOV -/

theorem encMovRxfifo_yields {what fifo : String} {joins : List FifoJoin} {encode : ℕ → Insn}
    {encodeY : Insn}
    (index : Option ℕ) : Yields t p (encMovRxfifo what fifo joins encode encodeY index) fun w =>
      (∀ i, index = some i → i ≤ 3) ∧ w = index.elim encodeY encode :=
  Yields.bind (P := fun _ => True) (.requireProgVersion fun _ => trivial) fun _ _ =>
    Yields.bind (P := fun _ => ∀ i, index = some i → i ≤ 3) (.require id) fun _ hindex =>
      Yields.bind (P := fun _ => True) (.out trivial) fun _ _ =>
        Yields.bind (P := fun _ => True) (.require fun _ => trivial) fun _ _ => .pure ⟨hindex, rfl⟩

omit [Platform] in
/-- A slot whose index fits has a name. -/
theorem slot_some {c : Bool} {s : Text} {index : Option ℕ}
    (h : (if c then parseRxfifo s else none) = some index)
    (hfits : ∀ i, index = some i → i ≤ 3) :
    c = true ∧ (if c then nameIn slotNames s else none) = some index := by
  cases c with
  | false => cases h
  | true =>
    have hs : parseRxfifo s = some index := h
    have hall : (index.all fun i => decide (i ≤ 3)) = true := by
      cases index with
      | none => rfl
      | some i => exact decide_eq_true (hfits i rfl)
    rw [if_pos rfl, nameIn_slotNames, hs, Option.filter_some, if_pos hall]
    exact ⟨rfl, rfl⟩

omit [Platform] in
theorem slot_none {c : Bool} {s : Text} (h : (if c then parseRxfifo s else none) = none) :
    (if c then nameIn slotNames s else none) = none := by
  cases c with
  | false => rfl
  | true =>
    have hs : parseRxfifo s = none := h
    rw [if_pos rfl, nameIn_slotNames, hs]
    rfl

theorem movOperands_yields (d s : Text) :
    Yields t p (match movDestField d, srcField (movOpOf s).2 with
    | some dest, some src => Pure.pure (encodeMov dest (movOpOf s).1 src)
    | _, _ => Step.error "bad mov operands") (Means t
    ((nameIn movNames d).bind fun dest => (nameIn sourceNames (markedSource s).2).map fun src =>
      .mov dest (markedSource s).1 src)) := by
  rw [nameIn_movNames, nameIn_sourceNames, markedSource_eq]
  cases hdest : movDestField d with
  | none => exact .error
  | some dest =>
    cases hsrc : srcField (movOpOf s).2 with
    | none => exact .error
    | some src =>
      have hdest' : dest < 8 := keyword_lt hdest (by cases hasMovPindirs <;> decide)
      have hsrc' : src < 8 := keyword_lt hsrc (by decide)
      exact .pure ⟨_, _, rfl, rfl, trivial, encodes_mov hdest' (movOpOf_lt s) hsrc'⟩

theorem encMovPlain_yields (d s : Text) : Yields t p (encMovPlain d s) (Means t
    ((nameIn movNames d).bind fun dest => (nameIn sourceNames (markedSource s).2).map fun src =>
      .mov dest (markedSource s).1 src)) := by
  unfold encMovPlain
  dsimp only
  by_cases hpindirs : movDestField d = some 3
  · rw [if_pos hpindirs]
    exact Yields.bind (P := fun _ => True) (.requireProgVersion fun _ => trivial) fun _ _ =>
      movOperands_yields d s
  · rw [if_neg hpindirs]
    exact movOperands_yields d s

/-- MOV reads two tokens, and what it means is what they spell. -/
theorem encMov_yields (args : List Text) :
    Yields t p (encMov args) (Means t (spelledMov (args.take 2))) := by
  rcases args with _ | ⟨d, _ | ⟨s, rest⟩⟩
  · exact .error
  · exact .error
  rw [List.take_succ_cons, List.take_succ_cons, List.take_zero]
  unfold encMov spelledMov
  dsimp only
  cases hto : (if hasRxfifoMov && ieq s "isr".toList then parseRxfifo d else none) with
  | some index =>
    refine (encMovRxfifo_yields index).mono fun w ⟨hindex, hw⟩ => ?_
    obtain ⟨hisr, hslot⟩ := slot_some hto hindex
    rw [hslot, hw]
    exact ⟨_, _, rfl, rfl, hindex, encodes_movToRxfifo (Bool.and_eq_true_iff.mp hisr).1 hindex⟩
  | none =>
    rw [slot_none hto]
    dsimp only
    cases hfrom : (if hasRxfifoMov && ieq d "osr".toList then parseRxfifo s else none) with
    | some index =>
      refine (encMovRxfifo_yields index).mono fun w ⟨hindex, hw⟩ => ?_
      obtain ⟨hosr, hslot⟩ := slot_some hfrom hindex
      rw [hslot, hw]
      exact ⟨_, _, rfl, rfl, hindex, encodes_movFromRxfifo (Bool.and_eq_true_iff.mp hosr).1 hindex⟩
    | none =>
      rw [slot_none hfrom]
      exact encMovPlain_yields d s

/-! ### IRQ -/

def irqNames : List String := ["nowait", "set", "wait", "clear", "rel", "prev", "next"]

omit [Platform] in
/-- A token is one of the keywords at most. -/
theorem ieq_irqNames (s : Text) :
    (∃ a ∈ irqNames, ∀ b ∈ irqNames, ieq s b.toList = decide (b = a)) ∨
    ∀ b ∈ irqNames, ieq s b.toList = false := by
  by_cases h : ∃ a ∈ irqNames, ieq s a.toList = true
  · obtain ⟨a, ha, hs⟩ := h
    have hapart : ∀ a ∈ irqNames, ∀ b ∈ irqNames, ieq a.toList b.toList =
      decide (b = a) := by decide
    refine .inl ⟨a, ha, fun b hb => ?_⟩
    rw [ieq_congr hs]
    exact hapart a ha b hb
  · refine .inr fun b hb => ?_
    rw [← Bool.not_eq_true]
    exact fun hs => h ⟨b, hb, hs⟩

/-- The keyword a token is, read off the names one by one. -/
theorem irqWord_names (s : Text) :
    (ieq s "nowait".toList || ieq s "set".toList) = decide (irqWord s = some .nowait) ∧
      ieq s "wait".toList = decide (irqWord s = some .wait) ∧
      ieq s "clear".toList = decide (irqWord s = some .clear) ∧
      ieq s "rel".toList = decide (irqWord s = some .rel) ∧
      (hasIrqPrevnext && ieq s "prev".toList) = decide (irqWord s = some .prev) ∧
      (hasIrqPrevnext && ieq s "next".toList) = decide (irqWord s = some .next) := by
  unfold irqWord
  rcases ieq_irqNames s with ⟨a, ha, h⟩ | h
  · rw [h "nowait" (by decide), h "set" (by decide), h "wait" (by decide), h "clear" (by decide),
      h "rel" (by decide), h "prev" (by decide), h "next" (by decide)]
    generalize hasIrqPrevnext = known
    clear h
    revert a
    cases known <;> decide
  · rw [h "nowait" (by decide), h "set" (by decide), h "wait" (by decide), h "clear" (by decide),
      h "rel" (by decide), h "prev" (by decide), h "next" (by decide)]
    generalize hasIrqPrevnext = known
    cases known <;> decide

/-- The tokens that are not part of the index are the keywords. -/
theorem isIrqQualifier_eq (s : Text) : isIrqQualifier s = (irqWord s).isSome := by
  obtain ⟨hnowait, hwait, hclear, hrel, hprev, hnext⟩ := irqWord_names s
  unfold isIrqQualifier
  rw [hnowait, Bool.and_or_distrib_left, hwait, hclear, hrel, hprev, hnext]
  cases irqWord s with
  | none => rfl
  | some w => cases w <;> rfl

theorem irqIndex_eq (args : List Text) : irqIndex args = spelledIndex args := by
  have hkeyword : isIrqQualifier = fun s => (irqWord s).isSome := funext isIrqQualifier_eq
  unfold irqIndex spelledIndex
  rw [hkeyword]

/-- The flags are those of the keywords there are, and of the last one that says whether to wait. -/
theorem foldl_irqFlags : ∀ (args : List Text) (f : IrqFlags),
    let r := (args.filterMap irqWord).foldl IrqFlags.set f
    r.clear = (f.clear || args.any fun s => decide (irqWord s = some .clear)) ∧
      r.wait = ((args.filter fun s => decide (irqWord s = some .nowait) ||
        decide (irqWord s = some .wait)).getLast?).elim
        f.wait (fun s => decide (irqWord s = some .wait)) ∧
      r.mode.rel = (f.mode.rel || args.any fun s => decide (irqWord s = some .rel)) ∧
      r.mode.prev = (f.mode.prev || args.any fun s => decide (irqWord s = some .prev)) ∧
      r.mode.next = (f.mode.next || args.any fun s => decide (irqWord s = some .next)) := by
  intro args
  induction args with
  | nil => exact fun f =>
      ⟨(Bool.or_false _).symm, rfl, (Bool.or_false _).symm, (Bool.or_false _).symm,
      (Bool.or_false _).symm⟩
  | cons s args ih =>
    intro f
    cases hs : irqWord s with
    | none => simp [hs, ih]
    | some w => cases w <;> simp [hs, ih, IrqFlags.set, elim_getLast?_cons]

omit [Platform] in
theorem any_and (c : Bool) (f : Text → Bool) (args : List Text) :
    (args.any fun s => c && f s) = (c && args.any f) := by
  cases c with
  | false => exact List.any_eq_false.mpr fun _ _ => Bool.false_ne_true
  | true => rfl

/-- What the flags say is what the keywords spell. -/
theorem irqFlags_eq (args : List Text) : (irqFlags args).clear = args.any (ieq · "clear".toList) ∧
    (irqFlags args).wait = spelledWaits args ∧ (irqFlags args).mode.ref = spelledRef args ∧
    (((irqFlags args).mode.prev || (irqFlags args).mode.next) = true → hasIrqPrevnext = true) := by
  obtain ⟨hclear, hwait, hrel, hprev, hnext⟩ :=
    foldl_irqFlags args ⟨false, false, false, false, false⟩
  have hirq : (args.filterMap irqWord).foldl IrqFlags.set ⟨false, false, false, false, false⟩ =
    irqFlags args := rfl
  simp only [← (irqWord_names _).2.1, ← (irqWord_names _).2.2.1, ← (irqWord_names _).2.2.2.1,
    ← (irqWord_names _).2.2.2.2.1, ← (irqWord_names _).2.2.2.2.2, ← (irqWord_names _).1, hirq,
      Bool.false_or,
    any_and] at hclear hwait hrel hprev hnext
  refine ⟨hclear, ?_, ?_, ?_⟩
  · rw [hwait, spelledWaits]
    cases (args.filter fun s => ieq s "nowait".toList || ieq s "set".toList ||
      ieq s "wait".toList).getLast? <;> rfl
  · rw [IrqMode.ref, hrel, hprev, hnext, spelledRef]
  · rw [hprev, hnext]
    cases hasIrqPrevnext with
    | false => exact fun h => h
    | true => exact fun _ => rfl

theorem encIrq_yields (args : List Text) :
    Yields t p (encIrq args) (Means t (spelledIrq args)) := by
  obtain ⟨hclear, hwait, href, hknown⟩ := irqFlags_eq args
  unfold encIrq
  rw [irqIndex_eq]
  dsimp only
  by_cases hempty : spelledIndex args = []
  · rw [if_pos hempty]
    exact .error
  rw [if_neg hempty]
  refine yields_join.bind fun v ⟨text, htext, hv⟩ => ?_
  refine Yields.bind (P := fun _ => v.toNat ≤ 7) (.require id) fun _ hle =>
    Yields.bind (P := fun _ => True) (.require fun _ => trivial) fun _ _ => ?_
  obtain ⟨hlt, hindex, hfield⟩ := ofField_mode hknown hle
  have hencodes := encodes_irq (irqFlags args).clear (irqFlags args).wait hlt
  rw [hindex, hfield, href] at hencodes
  have hmeans : Means t (spelledIrq args) (encodeIrq (irqFlags args).clear (irqFlags args).wait
      (if (irqFlags args).mode.rel then (v.toNat &&& 0x7) ||| 0x10
          else (irqFlags args).mode.field v.toNat)) := by
    refine ⟨.irq (irqFlags args).clear (irqFlags args).wait text (spelledRef args),
      .irq (irqFlags args).clear (irqFlags args).wait v.toNat (spelledRef args), ?_, ?_,
        hle, hencodes⟩
    · rw [spelledIrq, htext, hclear, hwait]
      rfl
    · rw [Operation.evaluate, hv]
      rfl
  cases hrel : (irqFlags args).mode.rel with
  | true =>
    rw [hrel] at hmeans
    exact .pure hmeans
  | false =>
    rw [hrel] at hmeans
    rw [if_neg Bool.false_ne_true]
    split
    · exact Yields.bind (P := fun _ => True) (.requireProgVersion fun _ => trivial) fun _ _ =>
        .pure hmeans
    · exact .pure hmeans

/-! ### Mnemonics -/

/-- The operands that are looked at: none of a `nop`, two of a `mov`, all of any other mnemonic. -/
def readOperands (m : Text) (args : List Text) : List Text :=
  match mnemonic m with
  | some .nop => []
  | some .mov => args.take 2
  | _ => args

/-- The word of a mnemonic means what the mnemonic and the operands looked at spell. -/
theorem encodeMnemonic_yields (m : Text) (args : List Text) :
    Yields t p (encodeMnemonic m args) (Means t (spelledOperation m (readOperands m args))) := by
  unfold encodeMnemonic spelledOperation readOperands
  cases mnemonic m with
  | none => exact .error
  | some name =>
    cases name with
    | nop => exact .pure ⟨_, _, rfl, rfl, trivial, encodes_mov (by decide) (by decide) (by decide)⟩
    | jmp => exact encJmp_yields args
    | wait => exact encWait_yields args
    | «in» => exact encIn_yields args
    | out => exact encOut_yields args
    | push => exact encPush_yields args
    | pull => exact encPull_yields args
    | mov => exact encMov_yields args
    | irq => exact encIrq_yields args
    | set => exact encSet_yields args

/-! ### Clauses -/

/-- The value of a delay clause: that of the text between its brackets. -/
def Table.delayNumber (t : Table) (tok : List Text) : Option ℕ :=
  (joinTokens tok).bind fun s => t.number (s.dropLast.drop 1)

section
omit [Platform]

/-- The first of the clauses from the end on counts last. -/
theorem elim_getLast?_prepend {α : Type} (f : α → Prop) (a : α) (l : List α) (q : Prop) :
    ((a :: l).getLast?).elim q f ↔ (l.getLast?).elim (f a) f := by
  rw [List.getLast?_cons]
  cases l.getLast? <;> rfl

theorem elim_mono {α : Type} {f : α → Prop} {o : Option α} {q q' : Prop} (h : o.elim q f)
    (hq : q → q') : o.elim q' f := by
  cases o with
  | none => exact hq h
  | some a => exact h

theorem delayValue_yields (tok : List Text) :
    Yields t p (delayValue tok) fun v => t.delayNumber tok = some v.toNat := by
  unfold delayValue Table.delayNumber
  cases joinTokens tok with
  | none => exact .error
  | some s =>
    refine .orError (.resolveUint fun v hv => ?_)
    rw [Option.bind_some, Table.number, hv]
    rfl

/-- What the clauses from the end of a line on store, in the order they are come to. -/
structure Stored (t : Table) (clauses : List Clause) (sd r : SideDelay) : Prop where
  delay : ((clauses.filterMap Clause.delay?).getLast?).elim (r.delay = sd.delay)
    fun tok => t.delayNumber tok = some r.delay.toNat
  side : ((clauses.filterMap Clause.side?).getLast?).elim (r.side = sd.side)
    fun s => ∃ v, r.side = some v ∧ t.number s = some v.toNat

theorem extractFrom_yields : ∀ (n : ℕ) (sd : SideDelay)
    (tok : List Text), Yields t p (extractFrom n sd tok) fun r =>
    r.2 = (clausesFrom n tok).2 ∧ Stored t (clausesFrom n tok).1 sd r.1 := by
  intro n
  induction n with
  | zero => exact fun sd tok => .pure ⟨rfl, rfl, rfl⟩
  | succ n ih =>
    intro sd tok
    unfold extractFrom clausesFrom
    cases lastClause tok with
    | none => exact .pure ⟨rfl, rfl, rfl⟩
    | some c =>
      obtain ⟨clause, rest⟩ := c
      cases clause with
      | delay clause =>
        refine Yields.bind
          (P := fun sd' => t.delayNumber clause = some sd'.delay.toNat ∧ sd'.side = sd.side)
          ((delayValue_yields clause).bind fun v hv => .pure ⟨hv, rfl⟩) fun sd' hsd => ?_
        obtain ⟨hdelay, hside⟩ := hsd
        refine (ih sd' rest).mono fun r hr => ?_
        obtain ⟨hrest, hstored⟩ := hr
        refine ⟨hrest, ?_, elim_mono hstored.side fun h => h.trans hside⟩
        refine (elim_getLast?_prepend _ _ _ _).mpr (elim_mono hstored.delay fun h => ?_)
        rw [hdelay, h]
      | side s =>
        refine Yields.bind
          (P := fun sd' => sd'.delay = sd.delay ∧ ∃ v, sd'.side = some v ∧
          t.number s = some v.toNat)
          (Yields.bind (P := fun v => t.word s = some v)
              (.orError (.resolveUint fun _ => id)) fun v hv =>
            .pure ⟨rfl, v, rfl, by rw [Table.number, hv]; rfl⟩) fun sd' hsd => ?_
        obtain ⟨hdelay, v, hside, hv⟩ := hsd
        refine (ih sd' rest).mono fun r hr => ?_
        obtain ⟨hrest, hstored⟩ := hr
        refine ⟨hrest, elim_mono hstored.delay fun h => h.trans hdelay, ?_⟩
        refine (elim_getLast?_prepend _ _ _ _).mpr (elim_mono hstored.side fun h => ?_)
        exact ⟨v, h.trans hside, hv⟩

end

/-! ### Delay and side-set -/

/-- What is decoded of a field is the delay, and the side-set if there is one. -/
structure Recovers (ds : DelaySideset) (delay : ℕ) (side : Option ℕ) : Prop where
  delay : ds.delay = delay
  unset : side = none → (ds.sideEn && decide (0 < ds.ssDataBits)) = false
  set : ∀ v, side = some v → ds.sideEn = true ∧ ds.sideVal.toNat = v

/-- The state machine is configured as the program says. -/
def Sidesets (p : Program) (sm : Sm) : Prop := sm.sidesetTotalBits = p.sidesetBits ∧
    sm.sidesetOpt = p.sidesetOpt

omit [Platform] in
theorem toNat_sideVal {field : ℕ} (hfield : field < 32) (k n : ℕ) :
    (BitVec.ofNat 32 (field / 2 ^ k) &&& maskN n).toNat = field / 2 ^ k % 2 ^ n := by
  have hlt : field / 2 ^ k < 2 ^ 32 := ((Nat.div_le_self _ _).trans_lt hfield).trans (by decide)
  rw [Sm.and_maskN, ShiftRegister.low, BitVec.toNat_setWidth, BitVec.toNat_setWidth,
    BitVec.toNat_ofNat, Nat.mod_eq_of_lt hlt, Nat.mod_eq_of_lt ((Nat.mod_le _ _).trans_lt hlt)]

section Packed
variable {total v side : ℕ} (htotal : total ≤ 5) (hv : v ≤ 2 ^ (5 - total) - 1)
include htotal hv

omit [Platform] in
/-- A side-set value above the delay, without a bit that enables it. -/
theorem packed_plain (hside : side ≤ 2 ^ total - 1) :
    v ||| (side <<< (5 - total)) < 32 ∧ (v ||| (side <<< (5 - total))) % 2 ^ (5 - total) = v ∧
      (v ||| (side <<< (5 - total))) / 2 ^ (5 - total) % 2 ^ total = side := by
  have hlt : v < 2 ^ (5 - total) := Nat.lt_of_le_sub_one (Nat.two_pow_pos _) hv
  have hor : v ||| (side <<< (5 - total)) = side * 2 ^ (5 - total) + v := by
    rw [Nat.or_comm, ← Nat.shiftLeft_add_eq_or_of_lt hlt, Nat.shiftLeft_eq]
  rw [hor]
  interval_cases total <;> norm_num at hv hside ⊢ <;> omega

omit [Platform] in
/-- A side-set value above the delay, under the bit that enables it. -/
theorem packed_enabled (hpos : 0 < total) (hside : side ≤ 2 ^ (total - 1) - 1) :
    v ||| 0x10 ||| (side <<< (5 - total)) < 32 ∧
      (v ||| 0x10 ||| (side <<< (5 - total))) % 2 ^ (5 - total) = v ∧
      (v ||| 0x10 ||| (side <<< (5 - total))).testBit 4 = true ∧
      (v ||| 0x10 ||| (side <<< (5 - total))) / 2 ^ (5 - total) % 2 ^ (total - 1) = side := by
  have hlt : v < 2 ^ (5 - total) := Nat.lt_of_le_sub_one (Nat.two_pow_pos _) hv
  have hlow : side * 2 ^ (5 - total) + v < 16 := by
    interval_cases total <;> norm_num at hv hside ⊢ <;> omega
  have hor : v ||| 0x10 ||| (side <<< (5 - total)) = 16 + (side * 2 ^ (5 - total) + v) := by
    have hhigh : (1 <<< 4 : ℕ) + (side * 2 ^ (5 - total) + v) =
        1 <<< 4 ||| (side * 2 ^ (5 - total) + v) :=
      Nat.shiftLeft_add_eq_or_of_lt hlow 1
    rw [show (16 : ℕ) = 1 <<< 4 from rfl, hhigh, ← Nat.shiftLeft_eq,
      Nat.shiftLeft_add_eq_or_of_lt hlt, Nat.or_comm v, Nat.or_assoc, Nat.or_comm v]
  rw [hor, Nat.testBit_eq_decide_div_mod_eq, decide_eq_true_eq]
  interval_cases total <;> norm_num at hv hside ⊢ <;> omega

end Packed

omit [Platform] in
/-- The delay and the side-set value share the field, and both come out of it again. -/
theorem packDelaySideset_yields (sd : SideDelay) : Yields t p (packDelaySideset sd) fun ds =>
    ds < 32 ∧ ∀ sm : Sm, Sidesets p sm →
      Recovers (sm.decodeDelaySideset ds) sd.delay.toNat (sd.side.map BitVec.toNat) := by
  unfold packDelaySideset
  refine Yields.bind (P := fun q => q = p) (.out rfl) fun q hq => ?_
  subst hq
  dsimp only
  have htotal : (if 5 < q.sidesetBits then 5 else q.sidesetBits) ≤ 5 := by
    split
    · exact Nat.le_refl 5
    · omega
  have hsm : ∀ sm : Sm, Sidesets q sm → sm.sidesetTotal =
    (if 5 < q.sidesetBits then 5 else q.sidesetBits) ∧
      sm.sidesetOpt = q.sidesetOpt := fun sm h => ⟨by rw [Sm.sidesetTotal, h.1], h.2⟩
  generalize (if 5 < q.sidesetBits then 5 else q.sidesetBits) = total at htotal hsm ⊢
  refine Yields.bind (P := fun _ => sd.delay.toNat ≤ 2 ^ (5 - total) - 1) (.require id)
    fun _ hdelay => ?_
  have hlt : sd.delay.toNat < 2 ^ (5 - total) := Nat.lt_of_le_sub_one (Nat.two_pow_pos _) hdelay
  have hfits : 2 ^ (5 - total) ≤ 32 := Nat.pow_le_pow_right (by decide) (Nat.sub_le 5 total)
  by_cases hpos : 0 < total
  · rw [if_pos hpos]
    cases hopt : q.sidesetOpt with
    | true =>
      rw [if_pos rfl]
      cases hside : sd.side with
      | none =>
        refine .pure ⟨hlt.trans_le hfits, fun sm h => ?_⟩
        obtain ⟨hsmTotal, hsmOpt⟩ := hsm sm h
        have hbit : sd.delay.toNat.testBit 4 = false := by
          refine Nat.testBit_lt_two_pow (hlt.trans_le ?_)
          exact Nat.pow_le_pow_right (by decide) (by omega)
        unfold Sm.decodeDelaySideset
        rw [hsmTotal, hsmOpt, hopt, if_pos hpos, if_pos rfl, if_pos rfl, hbit]
        exact ⟨Nat.mod_eq_of_lt hlt, fun _ => rfl, fun v hv => by cases hv⟩
      | some side =>
        refine Yields.bind (P := fun _ => side.toNat ≤ 2 ^ (total - 1) - 1) (.require id)
          fun _ hle => .pure ?_
        obtain ⟨hfield, hmod, hbit, hdiv⟩ := packed_enabled htotal hdelay hpos hle
        refine ⟨hfield, fun sm h => ?_⟩
        obtain ⟨hsmTotal, hsmOpt⟩ := hsm sm h
        unfold Sm.decodeDelaySideset
        rw [hsmTotal, hsmOpt, hopt, if_pos hpos, if_pos rfl, if_pos rfl]
        refine ⟨hmod, fun hnone => (by cases hnone), fun v hv => ⟨hbit, ?_⟩⟩
        rw [← Option.some.inj hv]
        exact (toNat_sideVal hfield _ _).trans hdiv
    | false =>
      rw [if_neg Bool.false_ne_true]
      cases hside : sd.side with
      | none => exact .error
      | some side =>
        refine Yields.bind (P := fun _ => side.toNat ≤ 2 ^ total - 1) (.require id) fun _ hle =>
          .pure ?_
        obtain ⟨hfield, hmod, hdiv⟩ := packed_plain htotal hdelay hle
        refine ⟨hfield, fun sm h => ?_⟩
        obtain ⟨hsmTotal, hsmOpt⟩ := hsm sm h
        unfold Sm.decodeDelaySideset
        rw [hsmTotal, hsmOpt, hopt, if_pos hpos, if_neg Bool.false_ne_true,
          if_neg Bool.false_ne_true]
        refine ⟨hmod, fun hnone => (by cases hnone), fun v hv => ⟨rfl, ?_⟩⟩
        rw [← Option.some.inj hv]
        exact (toNat_sideVal hfield _ _).trans hdiv
  · rw [if_neg hpos]
    cases hside : sd.side with
    | some side => exact .error
    | none =>
      refine .pure ⟨hlt.trans_le hfits, fun sm h => ?_⟩
      obtain ⟨hsmTotal, -⟩ := hsm sm h
      unfold Sm.decodeDelaySideset
      rw [hsmTotal, if_neg hpos]
      exact ⟨Nat.mod_eq_of_lt hlt, fun _ => Bool.and_false _, fun v hv => by cases hv⟩

end Version

end PioSim.Asm
