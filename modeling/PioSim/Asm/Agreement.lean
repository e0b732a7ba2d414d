import PioSim.Asm.Emitted
import PioSim.Asm.Words

/-!
# Encoder and decoder agree

A line that assembles spells an operation, with texts for its numbers, and `exec_one` decodes its
word to that operation with the values of the texts. Mnemonic by mnemonic the encoder is followed
step by step.
-/

namespace PioSim

/-- The numbers of an operation are in the ranges of their fields. -/
def Operation.Fits : Operation ℕ → Prop
  | .jmp _ target => target ≤ 31
  | .wait polarity .irq index _ => polarity ≤ 1 ∧ index ≤ 7
  | .wait polarity .jmppin index _ => polarity ≤ 1 ∧ index ≤ 3
  | .wait polarity _ index _ => polarity ≤ 1 ∧ index ≤ 31
  | .in _ count | .out _ count => 1 ≤ count ∧ count ≤ 32
  | .movToRxfifo index | .movFromRxfifo index => ∀ i, index = some i → i ≤ 3
  | .irq _ _ index _ => index ≤ 7
  | .set _ value => value ≤ 31
  | .push _ _ | .pull _ _ | .mov _ _ _ => True

namespace Asm

/-- The value of a text, all 32 bits of it. -/
def Table.number (t : Table) (s : Text) : Option ℕ := (t.word s).map BitVec.toNat

/-! ### Names -/

theorem nameIn_eq {α : Type} {g : ℕ → α} {names : List (String × α)} {table : List (String × ℕ)}
    (h : names = table.map fun e => (e.1, g e.2)) (t : Text) :
    nameIn names t = (keyword table t).map g := by
  rw [h, nameIn, keyword, List.find?_map, Option.map_map, Option.map_map]
  rfl

theorem keyword_lt {table : List (String × ℕ)} {n f : ℕ} {t : Text} (h : keyword table t = some f)
    (hall : ∀ e ∈ table, e.2 < n) : f < n := by
  obtain ⟨e, he, rfl⟩ := Option.map_eq_some_iff.mp h
  exact hall e (List.mem_of_find?_eq_some he)

theorem nameIn_condNames (t : Text) : nameIn condNames t = (jmpCond t).map JmpCond.ofField := by
  unfold jmpCond
  exact nameIn_eq (by rfl) t

theorem nameIn_sourceNames (t : Text) : nameIn sourceNames t = (srcField t).map Place.ofSource := by
  unfold srcField
  exact nameIn_eq (by rfl) t

theorem nameIn_outNames (t : Text) : nameIn outNames t = (outDestField t).map Place.ofOutDest := by
  unfold outDestField
  exact nameIn_eq (by rfl) t

theorem nameIn_setNames (t : Text) : nameIn setNames t = (setDestField t).map Place.ofSetDest := by
  unfold setDestField
  exact nameIn_eq (by rfl) t

theorem markedSource_eq (s : Text) : markedSource s =
    (MovOp.ofField (movOpOf s).1, (movOpOf s).2) := by
  unfold markedSource
  split
  · rfl
  · rfl
  · rfl
  · rename_i hnot htilde hcolons
    unfold movOpOf
    split
    · exact absurd rfl (hnot _)
    · exact absurd rfl (htilde _)
    · exact absurd rfl (hcolons _)
    · rfl

theorem movOpOf_lt (s : Text) : (movOpOf s).1 < 4 := by
  unfold movOpOf
  split
  · exact (by decide : 1 < 4)
  · exact (by decide : 1 < 4)
  · exact (by decide : 2 < 4)
  · exact (by decide : 0 < 4)

section Version
variable [Platform]

theorem nameIn_waitNames (t : Text) : nameIn waitNames t =
    (waitSource t).map WaitSource.ofField := by
  unfold waitNames waitSource
  cases hasWaitJmppin <;> exact nameIn_eq (by rfl) t

theorem nameIn_movNames (t : Text) : nameIn movNames t = (movDestField t).map Place.ofMovDest := by
  unfold movNames movDestField
  cases hasMovPindirs <;> exact nameIn_eq (by rfl) t

/-! ### Encoders -/

/-- The word encodes the operation that is spelled, with the values of its texts, and these fit. -/
def Means (t : Table) (spelled : Option (Operation Text)) (w : Insn) : Prop :=
  ∃ op n, spelled = some op ∧ op.evaluate t.number = some n ∧ n.Fits ∧ Encodes w n

open Step

variable {t : Table} {p : Program}

omit [Platform] in
/-- The value of joined tokens. -/
theorem yields_join {tok : List Text} {msg : String} :
    Yields t p ((Step.resolveUintJoin tok).orError msg) fun v =>
      ∃ s, joinTokens tok = some s ∧ t.number s = some v.toNat := by
  refine .orError (.resolveUintJoin fun v hv => ?_)
  obtain ⟨s, hs, hword⟩ := Option.bind_eq_some_iff.mp hv
  exact ⟨s, hs, by rw [Table.number, hword]; rfl⟩

theorem encJmpTarget_yields {cond : ℕ} (hcond : cond < 8) (tok : List Text) :
    Yields t p (encJmpTarget cond tok)
    (Means t ((joinTokens tok).map (.jmp (JmpCond.ofField cond)))) := by
  refine yields_join.bind fun v ⟨s, hs, hv⟩ =>
    Yields.bind (P := fun _ => v.toNat ≤ 31) (.require id) fun _ hle => .pure ?_
  refine ⟨_, .jmp (JmpCond.ofField cond) v.toNat, by rw [hs]; rfl, ?_, hle,
    encodes_jmp hcond (Nat.lt_succ_of_le hle)⟩
  rw [Operation.evaluate, hv]
  rfl

theorem encJmp_yields (args : List Text) :
    Yields t p (encJmp args) (Means t (spelledJmp args)) := by
  cases args with
  | nil => exact .error
  | cons c rest =>
    unfold encJmp spelledJmp
    dsimp only
    rw [nameIn_condNames]
    cases hcond : jmpCond c with
    | none => exact encJmpTarget_yields (by decide) (c :: rest)
    | some cond =>
      dsimp only [Option.map_some]
      split
      · exact .error
      · exact encJmpTarget_yields (keyword_lt hcond (by decide)) rest

/-- What `enc_in`, `enc_out` and `enc_set` share. -/
theorem encField_yields {name : Text → Option ℕ} {names : List (String × Place)} {place : ℕ → Place}
    (hnames : ∀ t, nameIn names t = (name t).map place) {lo hi : ℕ} {encode : ℕ → ℕ → Insn}
    {operation : ∀ {ν : Type}, Place → ν → Operation ν}
    (hevaluate : ∀ f s, (operation f s).evaluate t.number = (t.number s).map (operation f))
    (hfits : ∀ f v, lo ≤ v ∧ v ≤ hi → (operation f v).Fits)
    (hencode : ∀ f v s, name s = some f → lo ≤ v ∧ v ≤ hi →
      Encodes (encode f (v &&& 0x1F)) (operation (place f) v))
    {arity operands range : String} (args : List Text) :
    Yields t p (encField name arity operands range lo hi encode args)
      (Means t (spelledField names operation args)) := by
  rcases args with _ | ⟨s, _ | ⟨s', rest⟩⟩
  · exact .error
  · exact .error
  · unfold encField spelledField
    dsimp only
    rw [hnames]
    cases hname : name s with
    | none => exact .error
    | some f =>
      dsimp only [Option.map_some, Option.bind_some]
      refine yields_join.bind fun v ⟨text, htext, hv⟩ =>
        Yields.bind (P := fun _ => lo ≤ v.toNat ∧ v.toNat ≤ hi) (.require id) fun _ hrange =>
          .pure ?_
      refine ⟨_, operation (place f) v.toNat, by rw [htext]; rfl, ?_, hfits _ _ hrange,
        hencode f v.toNat s hname hrange⟩
      rw [hevaluate, hv]
      rfl

theorem encIn_yields (args : List Text) :
    Yields t p (encIn args) (Means t (spelledField sourceNames .in args)) :=
  encField_yields nameIn_sourceNames (fun _ _ => rfl) (by exact fun _ _ h => h)
    (fun _ _ _ hname hrange => encodes_in (keyword_lt hname (by decide)) hrange) args

theorem encOut_yields (args : List Text) :
    Yields t p (encOut args) (Means t (spelledField outNames .out args)) :=
  encField_yields nameIn_outNames (fun _ _ => rfl) (by exact fun _ _ h => h)
    (fun _ _ _ hname hrange => encodes_out (keyword_lt hname (by decide)) hrange) args

theorem encSet_yields (args : List Text) :
    Yields t p (encSet args) (Means t (spelledField setNames .set args)) :=
  encField_yields nameIn_setNames (fun _ _ => rfl) (fun _ _ h => h.2)
    (fun _ _ _ hname hrange => encodes_set (keyword_lt hname (by decide))
      (Nat.lt_succ_of_le hrange.2)) args

section
omit [Platform]

/-- The last of the words of a kind decides, and the first value if there is none. -/
theorem elim_getLast?_cons (f : Text → Bool) (s : Text) (l : List Text) (b : Bool) :
    ((s :: l).getLast?).elim b f = (l.getLast?).elim (f s) f := by
  rw [List.getLast?_cons]
  cases l.getLast? <;> rfl

/-- The loop over the qualifiers: each is one, the condition is there if it is named, and the last
of the others counts. -/
theorem qualifiers_yields {cond text : String} (hcond : ieq cond.toList "block".toList = false)
    (hcond' : ieq cond.toList "noblock".toList = false) :
    ∀ (args : List Text) (c block : Bool), Yields t p (qualifiers cond text c block args) fun r =>
      args.all (fun s => ieq s cond.toList || ieq s "block".toList || ieq s "noblock".toList) =
        true ∧
        r.1 = (c || args.any (ieq · cond.toList)) ∧
        r.2 = ((args.filter fun s => ieq s "block".toList || ieq s "noblock".toList).getLast?).elim
          block
          (ieq · "block".toList) := by
  intro args
  induction args with
  | nil => exact fun c block => .pure ⟨rfl, (Bool.or_false c).symm, rfl⟩
  | cons s rest ih =>
    intro c block
    unfold qualifiers
    split
    · rename_i hs
      rw [← ieq_congr hs] at hcond hcond'
      refine (ih true block).mono fun r hr => ?_
      obtain ⟨hall, hc, hblock⟩ := hr
      refine ⟨?_, ?_, ?_⟩
      · rw [List.all_cons, hs, hall]
        rfl
      · rw [hc, List.any_cons, hs, Bool.true_or, Bool.or_true]
      · rw [hblock, List.filter_cons, hcond, hcond']
        rfl
    rename_i hs
    rw [Bool.not_eq_true] at hs
    split
    · rename_i hblocks
      refine (ih c true).mono fun r hr => ?_
      obtain ⟨hall, hc, hblock⟩ := hr
      refine ⟨?_, ?_, ?_⟩
      · rw [List.all_cons, hs, hblocks, hall]
        rfl
      · rw [hc, List.any_cons, hs, Bool.false_or]
      · rw [hblock, List.filter_cons, hblocks, Bool.true_or, if_pos rfl,
          elim_getLast?_cons, hblocks]
    rename_i hblocks
    rw [Bool.not_eq_true] at hblocks
    split
    · rename_i hnoblock
      refine (ih c false).mono fun r hr => ?_
      obtain ⟨hall, hc, hblock⟩ := hr
      refine ⟨?_, ?_, ?_⟩
      · rw [List.all_cons, hs, hblocks, hnoblock, hall]
        rfl
      · rw [hc, List.any_cons, hs, Bool.false_or]
      · rw [hblock, List.filter_cons, hnoblock, Bool.or_true, if_pos rfl,
          elim_getLast?_cons, hblocks]
    · exact .error

theorem spelledBlock_eq (args : List Text) : spelledBlock args =
    ((args.filter fun s => ieq s "block".toList || ieq s "noblock".toList).getLast?).elim true
      (ieq · "block".toList) := by
  unfold spelledBlock
  cases (args.filter fun s => ieq s "block".toList || ieq s "noblock".toList).getLast? <;> rfl

end

theorem encPush_yields (args : List Text) :
    Yields t p (encPush args) (Means t (spelledQualifiers "iffull" .push args)) := by
  refine (qualifiers_yields (by decide) (by decide) args false true).bind
    fun r ⟨hall, hc, hblock⟩ => .pure ?_
  refine ⟨.push r.1 r.2, .push r.1 r.2, ?_, rfl, trivial, encodes_push r.1 r.2⟩
  rw [spelledQualifiers, if_pos hall, spelledBlock_eq, hc, hblock, Bool.false_or]

theorem encPull_yields (args : List Text) :
    Yields t p (encPull args) (Means t (spelledQualifiers "ifempty" .pull args)) := by
  refine (qualifiers_yields (by decide) (by decide) args false true).bind
    fun r ⟨hall, hc, hblock⟩ => .pure ?_
  refine ⟨.pull r.1 r.2, .pull r.1 r.2, ?_, rfl, trivial, encodes_pull r.1 r.2⟩
  rw [spelledQualifiers, if_pos hall, spelledBlock_eq, hc, hblock, Bool.false_or]

/-! Waits. -/

section
omit [Platform]

theorem number_one : t.number "1".toList = some 1 := rfl

theorem number_zero : t.number "0".toList = some 0 := rfl

theorem evaluate_wait {polarity index : Text} {pol idx : ℕ} (hpol : t.number polarity = some pol)
    (hidx : t.number index = some idx) (source : WaitSource) (ref : IrqRef) :
    (Operation.wait polarity source index ref).evaluate t.number =
      some (.wait pol source idx ref) := by
  rw [Operation.evaluate, hpol, hidx]
  rfl

end

section Wait
variable {polarity : Text} {pol : ℕ}

theorem encWaitJmppin_yields (hpolarity : t.number polarity = some pol) (hpol : pol ≤ 1)
    (tok : List Text) :
    Yields t p (encWaitJmppin pol tok)
      (Means t ((spelledJmppin tok).map fun index => .wait polarity .jmppin index .direct)) := by
  have hrest : ∀ {s : Text} {idx : Word}, spelledJmppin tok = some s → t.number s = some idx.toNat →
      Yields t p (do
        requireProgVersion 1 "wait jmppin"
        Step.require (idx.toNat ≤ 3) "jmppin index out of range (0..3)"
        return encodeWaitJmppin pol idx.toNat)
      (Means t ((spelledJmppin tok).map fun index => .wait polarity .jmppin index .direct)) := by
    intro s idx hs hidx
    refine Yields.bind (P := fun _ => True) (.requireProgVersion fun _ => trivial) fun _ _ =>
      Yields.bind (P := fun _ => idx.toNat ≤ 3) (.require id) fun _ hle => .pure ?_
    refine ⟨_, _, by rw [hs]; rfl, evaluate_wait hpolarity hidx .jmppin .direct, ⟨hpol, hle⟩, ?_⟩
    exact encodes_wait hpol (by decide) (by omega)
  unfold encWaitJmppin
  cases tok with
  | nil => exact hrest rfl number_zero
  | cons s rest =>
    dsimp only
    have hspelled : spelledJmppin (s :: rest) =
        joinTokens (if ieq s "+".toList = true then rest else s :: rest) := by
      rw [spelledJmppin]
      split <;> rfl
    rw [hspelled] at hrest ⊢
    generalize (if ieq s "+".toList = true then rest else s :: rest) = index at hrest ⊢
    split
    · exact Yields.error.bind (P := fun _ => False) fun _ h => h.elim
    · refine yields_join.bind fun v htext => ?_
      obtain ⟨text, htext, hv⟩ := htext
      exact hrest htext hv

/-- What the modifiers of an index make it refer to. -/
def IrqMode.ref (mode : IrqMode) : IrqRef :=
  if mode.rel then .rel else if mode.prev then .prev else if mode.next then .next else .direct

omit [Platform] in
/-- The trailing modifier, behind a leading one or none. -/
theorem trailingRel (prev next : Bool) (tok : List Text) :
    let m : IrqMode × List Text := match tok.getLast? with
      | some last =>
        if ieq last "rel".toList then (⟨true, prev, next⟩, tok.dropLast)
          else (⟨false, prev, next⟩, tok)
      | none => (⟨false, prev, next⟩, tok)
    let ref := IrqMode.ref ⟨false, prev, next⟩
    ¬ (m.1.rel = true ∧ (m.1.prev || m.1.next) = true) →
      (match tok.getLast? with
        | none => some (ref, tok)
        | some last =>
          if ieq last "rel".toList then if ref = .direct then
            some (IrqRef.rel, tok.dropLast) else none
          else some (ref, tok)) = some (m.1.ref, m.2) := by
  cases tok.getLast? with
  | none => exact fun _ => rfl
  | some last =>
    dsimp only
    by_cases hrel : ieq last "rel".toList = true
    · rw [if_pos hrel, if_pos hrel]
      cases prev with
      | true => exact fun h => absurd ⟨rfl, rfl⟩ h
      | false =>
        cases next with
        | true => exact fun h => absurd ⟨rfl, rfl⟩ h
        | false => exact fun _ => rfl
    · rw [if_neg hrel, if_neg hrel]
      exact fun _ => rfl

theorem spelledIrqRef_eq (tok : List Text) (h : ¬ ((waitIrqMode tok).1.rel = true ∧
    ((waitIrqMode tok).1.prev || (waitIrqMode tok).1.next) = true)) :
    spelledIrqRef tok = some ((waitIrqMode tok).1.ref, (waitIrqMode tok).2) := by
  cases tok with
  | nil => rfl
  | cons s rest =>
    unfold waitIrqMode at h ⊢
    unfold spelledIrqRef
    dsimp only at h ⊢
    by_cases hprev : (hasIrqPrevnext && ieq s "prev".toList) = true
    · rw [if_pos hprev] at h
      rw [if_pos hprev, if_pos hprev]
      exact trailingRel true false rest h
    rw [if_neg hprev] at h
    rw [if_neg hprev, if_neg hprev]
    by_cases hnext : (hasIrqPrevnext && ieq s "next".toList) = true
    · rw [if_pos hnext] at h
      rw [if_pos hnext, if_pos hnext]
      exact trailingRel false true rest h
    · rw [if_neg hnext] at h
      rw [if_neg hnext, if_neg hnext]
      exact trailingRel false false (s :: rest) h

/-- An index of three bits under a mode. -/
theorem ofField_marked {mode idx : ℕ} (hmode : mode < 4) (hidx : idx ≤ 7) :
    8 * mode + idx < 32 ∧ (8 * mode + idx) % 8 = idx ∧
      IrqRef.ofField (8 * mode + idx) = IrqRef.ofField (8 * mode) := by
  refine ⟨by omega, by omega, ?_⟩
  unfold IrqRef.ofField
  rw [show (8 * mode + idx) / 8 % 4 = mode by omega, show 8 * mode / 8 % 4 = mode by omega]

/-- The mode bits say what an index in three bits refers to, where the build knows the mode. -/
theorem ofField_mode {mode : IrqMode}
    (hknown : (mode.prev || mode.next) = true → hasIrqPrevnext = true)
    {idx : ℕ} (hidx : idx ≤ 7) :
    let field := if mode.rel then (idx &&& 0x7) ||| 0x10 else mode.field idx
    field < 32 ∧ field % 8 = idx ∧ IrqRef.ofField field = mode.ref := by
  have hmarks : (idx &&& 0x7) ||| 0x08 = 8 * 1 + idx ∧ (idx &&& 0x7) ||| 0x10 = 8 * 2 + idx ∧
      (idx &&& 0x7) ||| 0x18 = 8 * 3 + idx ∧ idx &&& 0x1F = 8 * 0 + idx := by
    interval_cases idx <;> decide
  obtain ⟨hone, htwo, hthree, hzero⟩ := hmarks
  obtain ⟨rel, prev, next⟩ := mode
  unfold IrqMode.field IrqMode.ref
  rw [hone, htwo, hthree, hzero]
  have hmarked := fun m (hm : m < 4) => ofField_marked hm hidx
  cases rel with
  | true => exact hmarked 2 (by decide)
  | false =>
    cases prev with
    | true =>
      refine ⟨(hmarked 1 (by decide)).1, (hmarked 1 (by decide)).2.1,
        (hmarked 1 (by decide)).2.2.trans ?_⟩
      change (if hasIrqPrevnext then _ else _) = _
      rw [hknown rfl]
      rfl
    | false =>
      cases next with
      | true =>
        refine ⟨(hmarked 3 (by decide)).1, (hmarked 3 (by decide)).2.1,
          (hmarked 3 (by decide)).2.2.trans ?_⟩
        change (if hasIrqPrevnext then _ else _) = _
        rw [hknown rfl]
        rfl
      | false => exact hmarked 0 (by decide)

theorem waitIrqMode_known (tok : List Text) :
    ((waitIrqMode tok).1.prev || (waitIrqMode tok).1.next) = true → hasIrqPrevnext = true := by
  cases hknown : hasIrqPrevnext with
  | true => exact fun _ => rfl
  | false =>
    cases tok with
    | nil => exact fun h => h
    | cons s rest =>
      unfold waitIrqMode
      simp only [hknown, Bool.false_and, Bool.false_eq_true, if_false]
      split
      · split <;> exact Bool.false_ne_true
      · exact Bool.false_ne_true

theorem encWaitIrq_yields (hpolarity : t.number polarity = some pol) (hpol : pol ≤ 1)
    (tok : List Text) :
    Yields t p (encWaitIndex pol 2 tok) (Means t
      ((spelledIrqRef tok).bind fun r => (joinTokens r.2).map fun index => .wait polarity .irq
        index r.1)) := by
  have hknown := waitIrqMode_known tok
  have hspelled := spelledIrqRef_eq tok
  unfold encWaitIndex
  rw [if_pos rfl]
  generalize waitIrqMode tok = m at hknown hspelled ⊢
  obtain ⟨mode, tok⟩ := m
  dsimp only at hknown hspelled ⊢
  split
  · exact .error
  refine yields_join.bind fun v htext => ?_
  obtain ⟨text, htext, hv⟩ := htext
  rw [if_pos rfl]
  refine Yields.bind (P := fun _ => v.toNat ≤ 7) (.require id) fun _ hle =>
    Yields.bind (P := fun _ => ¬ (mode.rel = true ∧ (mode.prev || mode.next) = true)) (.require id)
      fun _ hmode => ?_
  obtain ⟨hlt, hindex, href⟩ := ofField_mode hknown hle
  have hencodes := encodes_wait hpol (by decide : 2 < 4) hlt
  rw [show WaitSource.ofField 2 = .irq from rfl, if_pos rfl, hindex, href] at hencodes
  have hmeans : Means t (((spelledIrqRef _).bind fun r => (joinTokens r.2).map fun index =>
      .wait polarity .irq index r.1)) (encodeWait pol 2
        (if mode.rel then (v.toNat &&& 0x7) ||| 0x10 else mode.field v.toNat)) :=
    ⟨_, _, by rw [hspelled hmode, Option.bind_some, htext]; rfl, evaluate_wait hpolarity hv .irq mode.ref,
      ⟨hpol, hle⟩, hencodes⟩
  cases hrel : mode.rel with
  | true =>
    rw [hrel] at hmeans
    exact .pure hmeans
  | false =>
    rw [hrel] at hmeans
    rw [if_neg Bool.false_ne_true]
    split
    · exact Yields.bind (P := fun _ => True) (.requireProgVersion fun _ => trivial) fun _ _ =>
        .pure hmeans
    · exact .pure hmeans

/-- A wait on a GPIO or on a mapped pin. -/
theorem encWaitIndex_yields (hpolarity : t.number polarity = some pol) (hpol : pol ≤ 1) {source : ℕ}
    (hsource : source < 2) (tok : List Text) : Yields t p (encWaitIndex pol source tok) (Means t
      ((joinTokens tok).map fun index => .wait polarity (WaitSource.ofField source) index
        .direct)) := by
  unfold encWaitIndex
  rw [if_neg (by omega)]
  dsimp only
  split
  · exact .error
  refine yields_join.bind fun v htext => ?_
  obtain ⟨text, htext, hv⟩ := htext
  rw [if_neg (by omega)]
  refine Yields.bind (P := fun _ => v.toNat ≤ 31) (.require id) fun _ hle =>
    Yields.bind (P := fun _ => True) (.require fun _ => trivial) fun _ _ => ?_
  rw [if_neg Bool.false_ne_true, Bool.or_false, if_neg Bool.false_ne_true]
  refine .pure ?_
  have hencodes := encodes_wait hpol (by omega : source < 4) (by omega : v.toNat < 32)
  have hfield : IrqMode.field ⟨false, false, false⟩ v.toNat = v.toNat := by
    change v.toNat &&& 0x1F = v.toNat
    rw [and_31, Nat.mod_eq_of_lt (by omega)]
  rw [hfield]
  refine ⟨_, _, by rw [htext]; rfl, evaluate_wait hpolarity hv _ _, ?_, ?_⟩
  · interval_cases source <;> exact ⟨hpol, hle⟩
  · interval_cases source <;> exact hencodes

theorem encWaitSource_yields (hpolarity : t.number polarity = some pol) (hpol : pol ≤ 1)
    (args : List Text) :
    Yields t p (encWaitSource pol args) (Means t (spelledWaitOn polarity args)) := by
  cases args with
  | nil => exact .error
  | cons s rest =>
    unfold encWaitSource spelledWaitOn
    dsimp only
    rw [nameIn_waitNames]
    cases hsource : waitSource s with
    | none => exact .error
    | some source =>
      have hlt : source < 4 := keyword_lt hsource (by cases hasWaitJmppin <;> decide)
      dsimp only [Option.map_some, Option.bind_some]
      interval_cases source
      · exact encWaitIndex_yields hpolarity hpol Nat.zero_lt_two rest
      · exact encWaitIndex_yields hpolarity hpol Nat.one_lt_two rest
      · exact encWaitIrq_yields hpolarity hpol rest
      · exact encWaitJmppin_yields hpolarity hpol rest

end Wait

theorem encWait_yields (args : List Text) :
    Yields t p (encWait args) (Means t (spelledWait args)) := by
  cases args with
  | nil => exact .error
  | cons s rest =>
    unfold encWait spelledWait
    dsimp only
    rw [nameIn_waitNames, Option.isSome_map]
    split
    · exact encWaitSource_yields number_one (Nat.le_refl _) (s :: rest)
    · refine Yields.bind (P := fun v => t.word s = some v)
          (.orError (.resolveUint fun _ => id)) fun v hv =>
        Yields.bind (P := fun _ => v.toNat ≤ 1) (.require id) fun _ hle => ?_
      exact encWaitSource_yields (by rw [Table.number, hv]; rfl) hle rest

end Version

end Asm
end PioSim
