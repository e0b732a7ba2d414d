import PioSim.Asm.Assemble
import PioSim.Asm.Steps

/-!
# How the encoders are built

A step of an encoder is put together in a few ways: symbols are resolved with a message for the
failure, values are checked, the program is read. What holds of each way holds of the encoders.
-/

namespace PioSim.Asm

namespace Step

/-- The steps of the encoders. -/
inductive Built : {α : Type} → Step α → Prop
  | pure {α : Type} (a : α) : Built (Pure.pure a)
  | error {α : Type} {msg : String} (hmsg : msg ≠ "") : Built (Step.error msg : Step α)
  | out : Built Step.out
  | resolveUint (s : Text) {msg : String} (hmsg : msg ≠ "") :
  Built ((Step.resolveUint s).orError msg)
  | resolveUintJoin (tok : List Text) {msg : String} (hmsg : msg ≠ "") :
    Built ((Step.resolveUintJoin tok).orError msg)
  | bind {α β : Type} {x : Step α} {f : α → Step β} (hx : Built x) (hf : ∀ a, Built (f a)) :
    Built (x >>= f)

variable {α : Type} {x : Step α}

theorem Built.require {q : Prop} [Decidable q] {msg : String} (hmsg : msg ≠ "") :
    Built (Step.require q msg) := by
  unfold Step.require
  split
  · exact .pure ()
  · exact .error hmsg

/-- A text built of a message and names is not empty. -/
theorem append_ne {a b : String} (h : a ≠ "") : a ++ b ≠ "" := by
  intro he
  exact h (String.append_eq_empty_iff.mp he).1

theorem Built.requireProgVersion [Platform] (need : ℕ) (what : String) :
    Built (requireProgVersion need what) :=
  .bind .out fun _ => .require (append_ne (by simp))

/-- What such a step returns depends on the table and the program only. -/
theorem Built.steady (h : Built x) : Steady x := by
  induction h with
  | pure a => exact .pure a
  | error hmsg => exact .error
  | out => exact .out
  | resolveUint s hmsg => exact .orError (.resolveUint s)
  | resolveUintJoin tok hmsg => exact .orError (.resolveUintJoin tok)
  | bind hx hf ihx ihf => exact ihx.bind ihf

/-- The steps of the encoders and of the configuration directives. -/
inductive Made : {α : Type} → Step α → Prop
  | pure {α : Type} (a : α) : Made (Pure.pure a)
  | error {α : Type} {msg : String} : Made (Step.error msg : Step α)
  | fail {α : Type} : Made (Step.fail : Step α)
  | out : Made Step.out
  | modifyOut (g : Program → Program) : Made (Step.modifyOut g)
  | resolveUint (s : Text) : Made (Step.resolveUint s)
  | resolveUintJoin (tok : List Text) : Made (Step.resolveUintJoin tok)
  | orError {α : Type} {x : Step α} {msg : String} (hx : Made x) : Made (x.orError msg)
  | bind {α β : Type} {x : Step α} {f : α → Step β} (hx : Made x) (hf : ∀ a, Made (f a)) :
  Made (x >>= f)

theorem Built.made (h : Built x) : Made x := by
  induction h with
  | pure a => exact .pure a
  | error hmsg => exact .error
  | out => exact .out
  | resolveUint s hmsg => exact .orError (.resolveUint s)
  | resolveUintJoin tok hmsg => exact .orError (.resolveUintJoin tok)
  | bind hx hf ihx ihf => exact .bind ihx ihf

theorem Made.require {q : Prop} [Decidable q] {msg : String} : Made (Step.require q msg) := by
  unfold Step.require
  split
  · exact .pure ()
  · exact .error

end Step

/-! ### Instructions -/

section Instructions

open Step

theorem built_delayValue (tok : List Text) : Built (delayValue tok) := by
  unfold delayValue
  split
  · exact .error (by decide)
  · exact .resolveUint _ (by decide)

theorem built_storeClause (sd : SideDelay) (c : Clause) : Built (storeClause sd c) := by
  cases c with
  | delay tok => exact .bind (built_delayValue tok) fun d => .pure _
  | side t => exact .bind (.resolveUint t (by decide)) fun v => .pure _

theorem built_extractFrom : ∀ (n : ℕ) (sd : SideDelay)
    (tok : List Text), Built (extractFrom n sd tok) := by
  intro n
  induction n with
  | zero => exact fun sd tok => .pure _
  | succ n ih =>
    intro sd tok
    unfold extractFrom
    split
    · exact .pure _
    · rename_i c rest _
      exact .bind (built_storeClause sd c) fun sd => ih sd rest

theorem built_packDelaySideset (sd : SideDelay) : Built (packDelaySideset sd) := by
  unfold packDelaySideset
  refine .bind .out fun p => .bind (.require (by decide)) fun _ => ?_
  generalize (if 5 < p.sidesetBits then 5 else p.sidesetBits) = ssTotal
  obtain ⟨delay, _ | side⟩ := sd
  · split_ifs
    · exact .pure _
    · exact .error (by decide)
    · exact .pure _
  · split_ifs
    · exact .bind (.require (by decide)) fun _ => .pure _
    · exact .bind (.require (by decide)) fun _ => .pure _
    · exact .error (by decide)

theorem built_encJmpTarget (cond : ℕ) (tok : List Text) : Built (encJmpTarget cond tok) :=
  .bind (.resolveUintJoin tok (by decide)) fun _ => .bind (.require (by decide)) fun _ => .pure _

theorem built_encJmp (args : List Text) : Built (encJmp args) := by
  cases args with
  | nil => exact .error (by decide)
  | cons c rest =>
    unfold encJmp
    dsimp only
    cases jmpCond c with
    | none => exact built_encJmpTarget _ _
    | some cond =>
      dsimp only
      split
      · exact .error (by decide)
      · exact built_encJmpTarget _ _

theorem built_wordValue (args : List Text) : Built (ParseState.wordValue args) :=
  .bind (.resolveUintJoin args (by decide)) fun _ => .bind (.require (by decide)) fun _ => .pure _

variable [Platform]

theorem built_encWaitJmppin (pol : ℕ) (tok : List Text) : Built (encWaitJmppin pol tok) := by
  have hrest : ∀ idx : Word, Built (do
      requireProgVersion 1 "wait jmppin"
      Step.require (idx.toNat ≤ 3) "jmppin index out of range (0..3)"
      return encodeWaitJmppin pol idx.toNat) := fun idx =>
    .bind (.requireProgVersion _ _) fun _ => .bind (.require (by decide)) fun _ => .pure _
  unfold encWaitJmppin
  cases tok with
  | nil => exact hrest 0
  | cons s rest =>
    dsimp only
    generalize (if ieq s "+".toList = true then rest else s :: rest) = tok
    split
    · exact .bind (.error (by decide)) hrest
    · exact .bind (.resolveUintJoin tok (by decide)) hrest

theorem built_encWaitIndex (pol source : ℕ) (tok : List Text) :
    Built (encWaitIndex pol source tok) := by
  unfold encWaitIndex
  generalize (if source = 2 then waitIrqMode tok else (⟨false, false, false⟩, tok)) = m
  obtain ⟨mode, tok⟩ := m
  dsimp only
  have hrest : ∀ idx : Word, Built (do
      Step.require (¬ (mode.rel = true ∧ (mode.prev || mode.next) = true))
        "wait irq rel cannot combine with prev/next"
      if mode.rel then return encodeWaitIrqRel pol idx.toNat
      else
        if mode.prev || mode.next then requireProgVersion 1 "wait irq prev/next" else pure ()
        return encodeWait pol source (mode.field idx.toNat)) := by
    refine fun idx => .bind (.require (by decide)) fun _ => ?_
    split_ifs
    · exact .pure _
    · exact .bind (.requireProgVersion _ _) fun _ => .pure _
    · exact .pure _
  split
  · exact .error (by decide)
  refine .bind (.resolveUintJoin tok (by decide)) fun idx => ?_
  split
  · exact .bind (.require (by decide)) fun _ => hrest idx
  · exact .bind (.require (by decide)) fun _ => hrest idx

theorem built_encWaitSource (pol : ℕ) (args : List Text) : Built (encWaitSource pol args) := by
  cases args with
  | nil => exact .error (by decide)
  | cons src rest =>
    unfold encWaitSource
    dsimp only
    cases waitSource src with
    | none => exact .error (by decide)
    | some source =>
      dsimp only
      split
      · exact built_encWaitJmppin pol rest
      · exact built_encWaitIndex pol _ rest

theorem built_encWait (args : List Text) : Built (encWait args) := by
  cases args with
  | nil => exact .error (by decide)
  | cons t rest =>
    unfold encWait
    dsimp only
    split
    · exact built_encWaitSource 1 _
    · exact .bind (.resolveUint t (by decide)) fun pol => .bind (.require (by decide)) fun _ =>
        built_encWaitSource _ rest

omit [Platform] in
theorem built_encField (name : Text → Option ℕ) {arity operands range : String}
    (harity : arity ≠ "")
    (hoperands : operands ≠ "") (hrange : range ≠ "") (lo hi : ℕ) (encode : ℕ → ℕ → Insn)
    (args : List Text) : Built (encField name arity operands range lo hi encode args) := by
  rcases args with _ | ⟨t, _ | ⟨s, rest⟩⟩
  · exact .error harity
  · exact .error harity
  · unfold encField
    dsimp only
    cases name t with
    | none => exact .error hoperands
    | some f =>
      exact .bind (.resolveUintJoin _ hoperands) fun v => .bind (.require hrange) fun _ => .pure _

omit [Platform] in
theorem built_qualifiers (cond : String) {text : String} (htext : text ≠ "") :
    ∀ (args : List Text) (c block : Bool), Built (qualifiers cond text c block args) := by
  intro args
  induction args with
  | nil => exact fun c block => .pure _
  | cons t ts ih =>
    intro c block
    unfold qualifiers
    split_ifs
    · exact ih true block
    · exact ih c true
    · exact ih c false
    · exact .error htext

theorem built_encMovRxfifo {what fifo : String} (hfifo : fifo ≠ "") (joins : List FifoJoin)
    (encode : ℕ → Insn) (encodeY : Insn) (idx : Option ℕ) :
    Built (encMovRxfifo what fifo joins encode encodeY idx) :=
  .bind (.requireProgVersion _ _) fun _ => .bind (.require (by decide)) fun _ => .bind .out fun _ =>
    .bind (.require hfifo) fun _ => .pure _

theorem built_movOperands (t s : Text) : Built (match movDestField t, srcField (movOpOf s).2 with
    | some dest, some src => pure (encodeMov dest (movOpOf s).1 src)
    | _, _ => Step.error "bad mov operands") := by
  split
  · exact .pure _
  · exact .error (by decide)

theorem built_encMovPlain (t s : Text) : Built (encMovPlain t s) := by
  unfold encMovPlain
  dsimp only
  split
  · exact .bind (.requireProgVersion _ _) fun _ => built_movOperands t s
  · exact built_movOperands t s

theorem built_encMov (args : List Text) : Built (encMov args) := by
  rcases args with _ | ⟨t, _ | ⟨s, rest⟩⟩
  · exact .error (by decide)
  · exact .error (by decide)
  · unfold encMov
    dsimp only
    split
    · exact built_encMovRxfifo (by decide) _ _ _ _
    split
    · exact built_encMovRxfifo (by decide) _ _ _ _
    · exact built_encMovPlain t s

theorem built_encIrq (args : List Text) : Built (encIrq args) := by
  unfold encIrq
  dsimp only
  split
  · exact .error (by decide)
  refine .bind (.resolveUintJoin _ (by decide)) fun idx => .bind (.require (by decide)) fun _ =>
    .bind (.require (by decide)) fun _ => ?_
  split_ifs
  · exact .pure _
  · exact .bind (.requireProgVersion _ _) fun _ => .pure _
  · exact .pure _

theorem built_encodeMnemonic (m : Text) (args : List Text) : Built (encodeMnemonic m args) := by
  unfold encodeMnemonic
  split
  · exact .pure _
  · exact built_encJmp args
  · exact built_encWait args
  · exact built_encField _ (by decide) (by decide) (by decide) _ _ _ args
  · exact built_encField _ (by decide) (by decide) (by decide) _ _ _ args
  · exact .bind (built_qualifiers _ (by decide) args _ _) fun _ => .pure _
  · exact .bind (built_qualifiers _ (by decide) args _ _) fun _ => .pure _
  · exact built_encMov args
  · exact built_encIrq args
  · exact built_encField _ (by decide) (by decide) (by decide) _ _ _ args
  · exact .error (by decide)

theorem built_assembleInsn (tok : List Text) : Built (assembleInsn tok) :=
  .bind (built_extractFrom _ _ tok) fun _ => .bind (built_encodeMnemonic _ _) fun _ =>
    .bind (built_packDelaySideset _) fun _ => .pure _

end Instructions

/-! ### Configuration directives -/

section Directives

open Step

theorem made_shiftModifiers : ∀ (ts : List Text)
    (cfg : ShiftCfg), Made (shiftModifiers cfg ts) := by
  intro ts
  induction ts with
  | nil => exact fun cfg => .pure cfg
  | cons t ts ih =>
    intro cfg
    unfold shiftModifiers
    split_ifs
    · exact ih _
    · exact ih _
    · exact ih _
    · exact ih _
    · refine .bind (.resolveUint t) fun threshold => ?_
      split
      · exact .fail
      · exact ih _

variable [Platform]

theorem made_requireProgVersion (need : ℕ) (what : String) : Made (requireProgVersion need what) :=
  .bind .out fun _ => .require

theorem made_parseMovStatus (args : List Text) : Made (parseMovStatus args) := by
  cases args with
  | nil => exact .fail
  | cons s rest =>
    unfold parseMovStatus
    dsimp only
    cases movStatusSel s rest with
    | none => exact .fail
    | some sel =>
      have hrest : Made (
          if rest.any (ieq
              · (if sel = .txLevel ∨ sel = .rxLevel then "<".toList else "set".toList)) then do
            let n ← Step.resolveUint ((s :: rest).getLastD [])
            if 31 < n.toNat then Step.fail
            else Step.modifyOut fun out => { out with movStatusN := n.toNat, hasMovStatus := true }
          else Step.fail) := by
        generalize (if sel = .txLevel ∨ sel = .rxLevel then "<".toList else "set".toList) = marker
        split
        · refine .bind (.resolveUint _) fun n => ?_
          split
          · exact .fail
          · exact .modifyOut _
        · exact .fail
      refine .bind (.modifyOut _) fun _ => ?_
      split
      · exact .bind (made_requireProgVersion _ _) fun _ => hrest
      · exact hrest

theorem made_parseShiftDirCfg (isIn : Bool) (args : List Text) :
    Made (parseShiftDirCfg isIn args) := by
  cases args with
  | nil => exact .fail
  | cons t ts =>
    refine .bind (.resolveUint t) fun count => .bind .out fun out => ?_
    split
    · exact .fail
    generalize (isIn && if out.effectiveVersion = 0 then _ else _) = refused
    split
    · exact .fail
    exact .bind (made_shiftModifiers ts _) fun cfg => .modifyOut _

theorem made_configDirective (kind : ConfigKind) (args : List Text) :
    Made (configDirective kind args) := by
  cases kind with
  | sideSet =>
    cases args with
    | nil => exact .error
    | cons t ts =>
      exact .bind (.orError (.resolveUint t)) fun _ => .bind .require fun _ => .modifyOut _
  | origin =>
    cases args with
    | nil => exact .error
    | cons t ts =>
      exact .bind (.orError (.resolveUint t)) fun _ => .bind .require fun _ => .modifyOut _
  | pioVersion =>
    cases args with
    | nil => exact .error
    | cons t ts =>
      refine .bind ?_ fun _ => .bind (.modifyOut _) fun _ => .require
      unfold versionValue
      split_ifs
      · exact .pure _
      · exact .pure _
      · exact .bind (.orError (.resolveUint t)) fun _ => .bind .require fun _ => .pure _
  | clockDiv =>
    cases args with
    | nil => exact .error
    | cons t ts =>
      unfold configDirective clockDivDirective
      dsimp only
      cases parseDouble t with
      | none => exact .error
      | some d => exact .modifyOut _
  | fifo =>
    cases args with
    | nil => exact .error
    | cons t ts =>
      unfold configDirective fifoDirective
      dsimp only
      cases parseFifoConfig t with
      | none => exact .error
      | some join =>
        refine .bind (.modifyOut _) fun _ => ?_
        split
        · exact .bind (made_requireProgVersion _ _) fun _ => .modifyOut _
        · exact .modifyOut _
  | movStatus => exact .orError (made_parseMovStatus args)
  | «in» => exact .orError (made_parseShiftDirCfg true args)
  | out => exact .orError (made_parseShiftDirCfg false args)
  | set =>
    cases args with
    | nil => exact .error
    | cons t ts =>
      exact .bind (.orError (.resolveUint t)) fun _ => .bind .require fun _ => .modifyOut _

end Directives

end PioSim.Asm
