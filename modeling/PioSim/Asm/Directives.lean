import PioSim.Asm.Assemble
import PioSim.Asm.Steps

/-!
# What a configuration directive does

A directive of a kind changes the fields of its kind and no other. Whether it is accepted and what
it changes is settled by the symbols and, for a few of them, by the version of the program.
-/

namespace PioSim.Asm

/-! ### The fields of a kind -/

/-- What `pio_program_t` holds of a kind of directive. -/
abbrev Part : ConfigKind → Type
  | .sideSet => ℕ × Bool × Bool
  | .origin => Bool × ℕ
  | .pioVersion => Option ℕ
  | .clockDiv => Bool × Float
  | .fifo => Bool × FifoJoin
  | .movStatus => Bool × StatusSel × ℕ
  | .in | .out | .set => ShiftCfg

namespace Program

def part (p : Program) : (k : ConfigKind) → Part k
  | .sideSet => (p.sidesetBits, p.sidesetOpt, p.sidesetPindirs)
  | .origin => (p.hasOrigin, p.origin)
  | .pioVersion => p.pioVersion
  | .clockDiv => (p.hasClockDiv, p.clockDiv)
  | .fifo => (p.hasFifoJoin, p.fifoJoin)
  | .movStatus => (p.hasMovStatus, p.movStatusSel, p.movStatusN)
  | .in => p.inCfg
  | .out => p.outCfg
  | .set => p.setCfg

def setPart (p : Program) : (k : ConfigKind) → Part k → Program
  | .sideSet, v => { p with sidesetBits := v.1, sidesetOpt := v.2.1, sidesetPindirs := v.2.2 }
  | .origin, v => { p with hasOrigin := v.1, origin := v.2 }
  | .pioVersion, v => { p with pioVersion := v }
  | .clockDiv, v => { p with hasClockDiv := v.1, clockDiv := v.2 }
  | .fifo, v => { p with hasFifoJoin := v.1, fifoJoin := v.2 }
  | .movStatus, v => { p with hasMovStatus := v.1, movStatusSel := v.2.1, movStatusN := v.2.2 }
  | .in, v => { p with inCfg := v }
  | .out, v => { p with outCfg := v }
  | .set, v => { p with setCfg := v }

def modifyPart (p : Program) (k : ConfigKind) (f : Part k → Part k) : Program :=
  p.setPart k (f (p.part k))

variable {p : Program} {k k' : ConfigKind}

theorem part_setPart_self (p : Program) (k : ConfigKind) (v : Part k) :
    (p.setPart k v).part k = v := by
  cases k <;> rfl

theorem part_setPart_ne (h : k' ≠ k) (v : Part k) : (p.setPart k v).part k' = p.part k' := by
  cases k <;> cases k' <;> first | rfl | exact absurd rfl h

theorem setPart_setPart (v w : Part k) : (p.setPart k v).setPart k w = p.setPart k w := by
  cases k <;> rfl

theorem setPart_part (p : Program) (k : ConfigKind) : p.setPart k (p.part k) = p := by
  cases k <;> rfl

theorem setPart_comm (h : k ≠ k') (v : Part k) (w : Part k') :
    (p.setPart k v).setPart k' w = (p.setPart k' w).setPart k v := by
  cases k <;> cases k' <;> first | rfl | exact absurd rfl h

theorem modifyPart_id (p : Program) (k : ConfigKind) : p.modifyPart k id = p := setPart_part p k

theorem modifyPart_modifyPart (f g : Part k → Part k) :
    (p.modifyPart k f).modifyPart k g = p.modifyPart k (g ∘ f) := by
  unfold modifyPart
  rw [part_setPart_self, setPart_setPart]
  rfl

/-- Changes of different kinds may be made in either order. -/
theorem modifyPart_comm (h : k ≠ k') (f : Part k → Part k) (g : Part k' → Part k') :
    (p.modifyPart k f).modifyPart k' g = (p.modifyPart k' g).modifyPart k f := by
  unfold modifyPart
  rw [part_setPart_ne h.symm, part_setPart_ne h, setPart_comm h]

theorem effectiveVersion_modifyPart [Platform] (h : k ≠ .pioVersion) (f : Part k → Part k) :
    (p.modifyPart k f).effectiveVersion = p.effectiveVersion := by
  have hversion : (p.modifyPart k f).pioVersion = p.pioVersion := part_setPart_ne h.symm _
  unfold effectiveVersion
  rw [hversion]

end Program

/-! ### Confined steps -/

namespace Step
section Version
variable [Platform] {α β : Type} {V : ℕ → Prop} {t : Table} {k : ConfigKind} {x : Step α}
    {f : α → Step β}
  {msg : String}

/-- Over the table, and for versions of a class, the step always does the same: it fails, or it
returns a value and changes the fields of its kind in a way that is always the same. -/
def Confined (V : ℕ → Prop) (t : Table) (k : ConfigKind) (x : Step α) : Prop :=
  (∀ ctx p, ctx.Over t p → V p.effectiveVersion → (x ctx).1 = none) ∨
    ∃ a φ, ∀ ctx p, ctx.Over t p → V p.effectiveVersion →
      (x ctx).1 = some a ∧ (x ctx).2.Over t (p.modifyPart k φ)

theorem Confined.pure (a : α) : Confined V t k (Pure.pure a : Step α) := by
  refine Or.inr ⟨a, id, fun ctx p hctx _ => ⟨rfl, ?_⟩⟩
  rw [Program.modifyPart_id]
  exact hctx

theorem Confined.error : Confined V t k (error msg : Step α) := Or.inl fun _ _ _ _ => rfl

theorem Confined.fail : Confined V t k (fail : Step α) := Or.inl fun _ _ _ _ => rfl

theorem Confined.require {q : Prop} [Decidable q] : Confined V t k (require q msg) := by
  unfold Step.require
  split
  · exact Confined.pure ()
  · exact Confined.error

theorem Confined.orError (h : Confined V t k x) : Confined V t k (x.orError msg) := by
  rcases h with h | ⟨a, φ, h⟩
  · refine Or.inl fun ctx p hctx hp => ?_
    rw [orError_fst]
    exact h ctx p hctx hp
  · refine Or.inr ⟨a, φ, fun ctx p hctx hp => ?_⟩
    rw [orError_some (h ctx p hctx hp).1]
    exact h ctx p hctx hp

theorem Confined.resolveUint (s : Text) : Confined V t k (resolveUint s) := by
  cases hs : t.word s with
  | none => exact Or.inl fun ctx p hctx _ => (hctx.resolveUint_eq s).trans hs
  | some v =>
    refine Or.inr ⟨v, id, fun ctx p hctx _ => ?_⟩
    have hv : (ctx.resolveUint s).1 = some v := (hctx.resolveUint_eq s).trans hs
    rw [Program.modifyPart_id]
    exact ⟨hv, (hctx.resolveUint hv).2⟩

theorem Confined.modifyOut {g : Program → Program} (φ : Part k → Part k)
    (hg : ∀ p, g p = p.modifyPart k φ) : Confined V t k (modifyOut g) := by
  refine Or.inr ⟨(), φ, fun ctx p hctx _ => ⟨rfl, hctx.settled.write _ _, hctx.table, ?_⟩⟩
  rw [← hg, ← hctx.out]
  rfl

/-- No change of the kind leads out of the class of versions. -/
def Stable (V : ℕ → Prop) (k : ConfigKind) : Prop :=
  ∀ (p : Program) (φ : Part k → Part k), V p.effectiveVersion →
    V (p.modifyPart k φ).effectiveVersion

theorem stable_of_ne (h : k ≠ .pioVersion) : Stable V k := by
  intro p φ hp
  rw [Program.effectiveVersion_modifyPart h]
  exact hp

theorem Confined.bind (hV : Stable V k) (h : Confined V t k x) (hf : ∀ a, Confined V t k (f a)) :
    Confined V t k (x >>= f) := by
  rcases h with h | ⟨a, φ, h⟩
  · exact Or.inl fun ctx p hctx hp => bind_none (h ctx p hctx hp)
  rcases hf a with hfa | ⟨b, ψ, hfa⟩
  · refine Or.inl fun ctx p hctx hp => ?_
    obtain ⟨hx, hover⟩ := h ctx p hctx hp
    rw [bind_some hx]
    exact hfa _ _ hover (hV p φ hp)
  · refine Or.inr ⟨b, ψ ∘ φ, fun ctx p hctx hp => ?_⟩
    obtain ⟨hx, hover⟩ := h ctx p hctx hp
    rw [bind_some hx, ← Program.modifyPart_modifyPart]
    exact hfa _ _ hover (hV p φ hp)

theorem Confined.resolve_bind {s : Text} {f : Word → Step β}
    (h : ∀ v, t.word s = some v → Confined V t k (f v)) :
    Confined V t k (Step.resolveUint s >>= f) := by
  cases hs : t.word s with
  | none => exact Or.inl fun ctx p hctx _ => bind_none ((hctx.resolveUint_eq s).trans hs)
  | some v =>
    have hrun : ∀ ctx p, ctx.Over t p → (Step.resolveUint s ctx).1 = some v ∧
        (Step.resolveUint s ctx).2.Over t p := fun ctx p hctx =>
      have hv := (hctx.resolveUint_eq s).trans hs
      ⟨hv, (hctx.resolveUint hv).2⟩
    rcases h v hs with h | ⟨a, φ, h⟩
    · refine Or.inl fun ctx p hctx hp => ?_
      rw [bind_some (hrun ctx p hctx).1]
      exact h _ _ (hrun ctx p hctx).2 hp
    · refine Or.inr ⟨a, φ, fun ctx p hctx hp => ?_⟩
      rw [bind_some (hrun ctx p hctx).1]
      exact h _ _ (hrun ctx p hctx).2 hp

/-- A step that reads the program, where it does the same for all versions of the class. -/
theorem Confined.bind_out {g : Program → Step α} {y : Step α} (hy : Confined V t k y)
    (hg : ∀ p : Program, V p.effectiveVersion → g p = y) : Confined V t k (out >>= g) := by
  have hrun : ∀ ctx p, ctx.Over t p → V p.effectiveVersion → (out >>= g) ctx = y ctx := by
    intro ctx p hctx hp
    change g ctx.out ctx = y ctx
    rw [hctx.out, hg p hp]
  rcases hy with hy | ⟨a, φ, hy⟩
  · refine Or.inl fun ctx p hctx hp => ?_
    rw [hrun ctx p hctx hp]
    exact hy ctx p hctx hp
  · refine Or.inr ⟨a, φ, fun ctx p hctx hp => ?_⟩
    rw [hrun ctx p hctx hp]
    exact hy ctx p hctx hp

theorem Confined.requireProgVersion {need : ℕ} {what : String}
    (hV : (∀ v, V v → need ≤ v) ∨ ∀ v, V v → ¬ need ≤ v) :
    Confined V t k (requireProgVersion need what) := by
  have hrun : ∀ ctx : AsmCtx, PioSim.Asm.requireProgVersion need what ctx =
      Step.require (need ≤ ctx.out.effectiveVersion)
        ("PIO version " ++ toString need ++ " is required for " ++ what) ctx := fun _ => rfl
  rcases hV with hV | hV
  · refine Or.inr ⟨(), id, fun ctx p hctx hp => ?_⟩
    rw [hrun, hctx.out, Step.require, if_pos (hV _ hp), Program.modifyPart_id]
    exact ⟨rfl, hctx⟩
  · refine Or.inl fun ctx p hctx hp => ?_
    rw [hrun, hctx.out, Step.require, if_neg (hV _ hp)]
    rfl

theorem Confined.mono {V' : ℕ → Prop} (h : Confined V t k x) (hV : ∀ v, V' v → V v) :
    Confined V' t k x := by
  rcases h with h | ⟨a, φ, h⟩
  · exact Or.inl fun ctx p hctx hp => h ctx p hctx (hV _ hp)
  · exact Or.inr ⟨a, φ, fun ctx p hctx hp => h ctx p hctx (hV _ hp)⟩

end Version
end Step

/-! ### Directives -/

section Version
variable [Platform] {t : Table} {V : ℕ → Prop}

open Step

theorem confined_sideSet (args : List Text) : Confined V t .sideSet (sideSetDirective args) := by
  cases args with
  | nil => exact .error
  | cons s modifiers =>
    refine .bind (stable_of_ne (by decide)) (.orError (.resolveUint s)) fun bits => ?_
    refine .bind (stable_of_ne (by decide)) .require fun _ => ?_
    exact .modifyOut (fun _ => ((_, _, _) : ℕ × Bool × Bool)) fun _ => rfl

theorem confined_origin (args : List Text) : Confined V t .origin (originDirective args) := by
  cases args with
  | nil => exact .error
  | cons s _ =>
    refine .bind (stable_of_ne (by decide)) (.orError (.resolveUint s)) fun v => ?_
    refine .bind (stable_of_ne (by decide)) .require fun _ => ?_
    exact .modifyOut (fun _ => ((_, _) : Bool × ℕ)) fun _ => rfl

theorem confined_clockDiv (args : List Text) : Confined V t .clockDiv (clockDivDirective args) := by
  cases args with
  | nil => exact .error
  | cons s _ =>
    unfold clockDivDirective
    dsimp only
    cases parseDouble s with
    | none => exact .error
    | some d => exact .modifyOut (k := .clockDiv) (fun _ => ((_, _) : Bool × Float)) fun _ => rfl

theorem confined_set (args : List Text) : Confined V t .set (setDirective args) := by
  cases args with
  | nil => exact .error
  | cons s _ =>
    refine .bind (stable_of_ne (by decide)) (.orError (.resolveUint s)) fun v => ?_
    refine .bind (stable_of_ne (by decide)) .require fun _ => ?_
    exact .modifyOut (fun cfg : ShiftCfg => { cfg with set := true, count := v.toNat }) fun _ => rfl

theorem confined_shiftModifiers {k : ConfigKind} (hk : k ≠ .pioVersion) (cfg : ShiftCfg)
    (modifiers : List Text) : Confined V t k (shiftModifiers cfg modifiers) := by
  induction modifiers generalizing cfg with
  | nil => exact .pure cfg
  | cons s modifiers ih =>
    unfold shiftModifiers
    split_ifs
    · exact ih _
    · exact ih _
    · exact ih _
    · exact ih _
    · refine .bind (stable_of_ne hk) (.resolveUint s) fun threshold => ?_
      split
      · exact .fail
      · exact ih _

/-- What `parse_shift_dir_cfg` does with a count that passed its check. -/
def shiftCfgOf (isIn : Bool) (count : Word) (modifiers : List Text) : Step Unit := do
  let cfg ← shiftModifiers { set := true, count := count.toNat, dir := .right, autoshift := false
                             threshold := 32 } modifiers
  Step.modifyOut fun out => if isIn then { out with inCfg := cfg } else { out with outCfg := cfg }

theorem confined_shiftCfgOf_in (count : Word) (modifiers : List Text) :
    Confined V t .in (shiftCfgOf true count modifiers) :=
  .bind (stable_of_ne (by decide)) (confined_shiftModifiers (by decide) _ modifiers) fun cfg =>
    .modifyOut (fun _ => cfg) fun _ => rfl

theorem confined_out (args : List Text) : Confined V t .out (parseShiftDirCfg false args) := by
  cases args with
  | nil => exact .fail
  | cons s modifiers =>
    refine .bind (stable_of_ne (by decide)) (.resolveUint s) fun count => ?_
    have hcfg : Confined V t .out (shiftCfgOf false count modifiers) :=
      .bind (stable_of_ne (by decide)) (confined_shiftModifiers (by decide) _ modifiers) fun cfg =>
        .modifyOut (fun _ => cfg) fun _ => rfl
    by_cases hcount : 32 < count.toNat
    · exact .bind_out .fail fun _ _ => if_pos hcount
    · refine .bind_out hcfg fun _ _ => ?_
      rw [if_neg hcount]
      rfl

/-- Whether a count of `.in` is accepted for one version only. -/
def countSensitive (count : Word) : Prop := 1 ≤ count.toNat ∧ count.toNat < 32

/-- A class of versions in which a count passes the check of `.in` for all or for none. -/
def Decides (V : ℕ → Prop) (count : Word) : Prop :=
  (∀ v, V v → v = 0) ∨ (∀ v, V v → v ≠ 0) ∨ ¬ countSensitive count

theorem confined_in {args : List Text}
    (hV : ∀ s count, args.head? = some s → t.word s = some count →
    Decides V count) : Confined V t .in (parseShiftDirCfg true args) := by
  cases args with
  | nil => exact .fail
  | cons s modifiers =>
    refine .resolve_bind fun count hword => ?_
    have hcfg := confined_shiftCfgOf_in (V := V) (t := t) count modifiers
    have hpass : ∀ p : Program, ¬ 32 < count.toNat →
        (if p.effectiveVersion = 0 then count.toNat != 32 else count.toNat == 0) = false →
        (if 32 < count.toNat then Step.fail
          else if (true && if p.effectiveVersion = 0 then count.toNat != 32 else count.toNat == 0) =
            true
            then Step.fail else shiftCfgOf true count modifiers) =
                shiftCfgOf true count modifiers := by
      intro p hle hcheck
      rw [if_neg hle, hcheck]
      rfl
    have hfail : ∀ p : Program,
        (if p.effectiveVersion = 0 then count.toNat != 32 else count.toNat == 0) = true →
        (if 32 < count.toNat then Step.fail
          else if (true && if p.effectiveVersion = 0 then count.toNat != 32 else count.toNat == 0) =
            true
            then Step.fail else shiftCfgOf true count modifiers) = Step.fail := by
      intro p hcheck
      rw [hcheck]
      split <;> rfl
    by_cases hcount : 32 < count.toNat
    · exact .bind_out .fail fun _ _ => if_pos hcount
    rcases hV s count rfl hword with hzero | hone | hsame
    · by_cases h32 : count.toNat = 32
      · refine .bind_out hcfg fun p hp => hpass p hcount ?_
        rw [if_pos (hzero _ hp), h32]
        rfl
      · refine .bind_out .fail fun p hp => hfail p ?_
        rw [if_pos (hzero _ hp)]
        exact bne_iff_ne.mpr h32
    · by_cases h0 : count.toNat = 0
      · refine .bind_out .fail fun p hp => hfail p ?_
        rw [if_neg (hone _ hp), h0]
        rfl
      · refine .bind_out hcfg fun p hp => hpass p hcount ?_
        rw [if_neg (hone _ hp)]
        exact beq_eq_false_iff_ne.mpr h0
    · unfold countSensitive at hsame
      by_cases h32 : count.toNat = 32
      · refine .bind_out hcfg fun p hp => hpass p hcount ?_
        rw [h32]
        split <;> rfl
      · refine .bind_out .fail fun p hp => hfail p ?_
        have h0 : count.toNat = 0 := by omega
        rw [h0]
        split <;> rfl

theorem confined_fifo {args : List Text}
    (hV : (∀ v, V v → 1 ≤ v) ∨ (∀ v, V v → ¬ 1 ≤ v) ∨ ∀ s join, args.head? = some s →
      parseFifoConfig s = some join → ¬ (join = .rxPut ∨ join = .rxGet ∨ join = .rxPutget)) :
    Confined V t .fifo (fifoDirective args) := by
  cases args with
  | nil => exact .error
  | cons s _ =>
    unfold fifoDirective
    dsimp only
    cases hjoin : parseFifoConfig s with
    | none => exact .error
    | some join =>
      have hset : Confined V t .fifo (Step.modifyOut fun out => { out with hasFifoJoin := true }) :=
        .modifyOut (k := .fifo) (fun c : Bool × FifoJoin => (true, c.2)) fun _ => rfl
      refine .bind (stable_of_ne (by decide))
        (.modifyOut (k := .fifo) (fun c : Bool × FifoJoin => (c.1, join)) fun _ => rfl) fun _ => ?_
      split
      · rename_i hsensitive
        refine .bind (stable_of_ne (by decide)) (.requireProgVersion ?_) fun _ => hset
        rcases hV with hV | hV | hV
        · exact Or.inl hV
        · exact Or.inr hV
        · exact absurd hsensitive (hV s join rfl hjoin)
      · exact hset

theorem confined_movStatus {args : List Text}
    (hV : (∀ v, V v → 1 ≤ v) ∨ (∀ v, V v → ¬ 1 ≤ v) ∨ ∀ s rest sel, args = s :: rest →
      movStatusSel s rest = some sel → ¬ (sel = .irqSetNext ∨ sel = .irqSetPrev)) :
    Confined V t .movStatus (parseMovStatus args) := by
  cases args with
  | nil => exact .fail
  | cons s rest =>
    unfold parseMovStatus
    dsimp only
    cases hsel : movStatusSel s rest with
    | none => exact .fail
    | some sel =>
      have hrest : Confined V t .movStatus (
          if rest.any (ieq
              · (if sel = .txLevel ∨ sel = .rxLevel then "<".toList else "set".toList)) then do
            let n ← Step.resolveUint ((s :: rest).getLastD [])
            if 31 < n.toNat then Step.fail
            else Step.modifyOut fun out => { out with movStatusN := n.toNat, hasMovStatus := true }
          else Step.fail) := by
        generalize (if sel = .txLevel ∨ sel = .rxLevel then "<".toList else "set".toList) = marker
        split
        · refine .bind (stable_of_ne (by decide)) (.resolveUint _) fun n => ?_
          split
          · exact .fail
          · exact .modifyOut (k := .movStatus)
              (fun c : Bool × StatusSel × ℕ => (true, c.2.1, n.toNat)) fun _ => rfl
        · exact .fail
      refine .bind (stable_of_ne (by decide)) (.modifyOut (k := .movStatus)
        (fun c : Bool × StatusSel × ℕ => (c.1, sel, c.2.2)) fun _ => rfl) fun _ => ?_
      split
      · rename_i hsensitive
        refine .bind (stable_of_ne (by decide)) (.requireProgVersion ?_) fun _ => hrest
        rcases hV with hV | hV | hV
        · exact Or.inl hV
        · exact Or.inr hV
        · exact absurd hsensitive (hV s rest sel rfl hsel)
      · exact hrest

def declaredVersion (t : Table) : List Text → Option ℕ
  | [] => none
  | s :: _ =>
    if ieq s "rp2040".toList then some 0
    else if ieq s "rp2350".toList then some 1
    else (t.word s).map (·.toNat)

omit [Platform] in
theorem returns_versionValue (p : Program) (s : Text) (rest : List Text) :
    Returns t p (versionValue s)
    ((declaredVersion t (s :: rest)).filter fun v => decide (v ≤ 1)) := by
  unfold versionValue declaredVersion
  dsimp only
  split_ifs
  · exact .pure 0
  · exact .pure 1
  · have hword : Returns t p ((Step.resolveUint s).orError
        "bad .pio_version (expected 0, 1, rp2040, or rp2350)") (t.word s) :=
          .orError (.resolveUint s)
    have hreturns := hword.bind (f := fun v => do
        Step.require (v.toNat ≤ 1) "bad .pio_version (expected 0, 1, rp2040, or rp2350)"
        return v.toNat)
          (g := fun v => (if v.toNat ≤ 1 then some () else none).bind fun _ => some v.toNat)
      fun v _ => .bind .require fun _ _ => .pure v.toNat
    have hvalue : ((t.word s).map (·.toNat)).filter (fun v => decide (v ≤ 1)) =
        (t.word s).bind fun v => (if v.toNat ≤ 1 then some () else none).bind fun _ =>
            some v.toNat := by
      cases t.word s with
      | none => rfl
      | some v =>
        rw [Option.map_some, Option.bind_some, Option.filter_some]
        by_cases hle : v.toNat ≤ 1
        · rw [if_pos hle, decide_eq_true hle]
          rfl
        · rw [if_neg hle, decide_eq_false hle]
          rfl
    rw [hvalue]
    exact hreturns

/-- A `.pio_version` that is accepted declares a version the build has. -/
theorem pioVersion_cases (t : Table) (args : List Text) :
    (∀ ctx p, ctx.Over t p → (pioVersionDirective args ctx).1 = none) ∨
      ∃ v, declaredVersion t args = some v ∧ v ≤ buildVersion ∧ ∀ ctx p, ctx.Over t p →
        (pioVersionDirective args ctx).1 = some () ∧
          (pioVersionDirective args ctx).2.Over t (p.modifyPart .pioVersion fun _ => some v) := by
  cases args with
  | nil => exact Or.inl fun _ _ _ => rfl
  | cons s rest =>
    have hvalue := fun p => returns_versionValue (t := t) p s rest
    cases hv : (declaredVersion t (s :: rest)).filter fun v => decide (v ≤ 1) with
    | none =>
      rw [hv] at hvalue
      exact Or.inl fun ctx p hctx => bind_none (hvalue p ctx hctx).1
    | some v =>
      rw [hv] at hvalue
      have hdeclared : declaredVersion t (s :: rest) = some v := (Option.filter_eq_some_iff.mp hv).1
      have hrun : ∀ ctx p, ctx.Over t p → pioVersionDirective (s :: rest) ctx =
          (Step.modifyOut (fun out => { out with pioVersion := some v }) >>= fun _ =>
            Step.require (v ≤ buildVersion) "program .pio_version exceeds the build target")
            (versionValue s ctx).2 := fun ctx p hctx => bind_some (hvalue p ctx hctx).1
      by_cases hbuild : v ≤ buildVersion
      · refine Or.inr ⟨v, hdeclared, hbuild, fun ctx p hctx => ?_⟩
        have hover := (hvalue p ctx hctx).2 rfl
        rw [hrun ctx p hctx, Step.require, if_pos hbuild]
        refine ⟨rfl, hover.settled.write _ _, hover.table, ?_⟩
        rw [← hover.out]
        rfl
      · refine Or.inl fun ctx p hctx => ?_
        rw [hrun ctx p hctx, Step.require, if_neg hbuild]
        rfl

/-- A directive that a program of version 0 does not have, while one of version 1 may. -/
def Sensitive (t : Table) : ConfigKind → List Text → Prop
  | .in, args => ∃ s count, args.head? = some s ∧ t.word s = some count ∧ countSensitive count
  | .fifo, args => ∃ s join, args.head? = some s ∧ parseFifoConfig s = some join ∧
      (join = .rxPut ∨ join = .rxGet ∨ join = .rxPutget)
  | .movStatus, args => ∃ s rest sel, args = s :: rest ∧ movStatusSel s rest = some sel ∧
      (sel = .irqSetNext ∨ sel = .irqSetPrev)
  | _, _ => False

/-- Within version 0, within the other versions, and for any version where it is not sensitive, a
directive is confined to the fields of its kind. -/
theorem configDirective_confined {k : ConfigKind} {args : List Text} (hk : k ≠ .pioVersion)
    (hV : (∀ v, V v → v = 0) ∨ (∀ v, V v → v ≠ 0) ∨ ¬ Sensitive t k args) :
    Confined V t k (configDirective k args) := by
  have hge : ∀ v : ℕ, v ≠ 0 → 1 ≤ v := fun v hv => Nat.one_le_iff_ne_zero.mpr hv
  cases k with
  | sideSet => exact confined_sideSet args
  | origin => exact confined_origin args
  | pioVersion => exact absurd rfl hk
  | clockDiv => exact confined_clockDiv args
  | fifo =>
    refine confined_fifo ?_
    rcases hV with hV | hV | hV
    · exact Or.inr (Or.inl fun v hv => by rw [hV v hv]; decide)
    · exact Or.inl fun v hv => hge v (hV v hv)
    · exact Or.inr (Or.inr fun s join hs hjoin hsens => hV ⟨s, join, hs, hjoin, hsens⟩)
  | movStatus =>
    refine Confined.orError (confined_movStatus ?_)
    rcases hV with hV | hV | hV
    · exact Or.inr (Or.inl fun v hv => by rw [hV v hv]; decide)
    · exact Or.inl fun v hv => hge v (hV v hv)
    · exact Or.inr (Or.inr fun s rest sel hs hsel hsens => hV ⟨s, rest, sel, hs, hsel, hsens⟩)
  | «in» =>
    refine Confined.orError (confined_in fun s count hs hcount => ?_)
    rcases hV with hV | hV | hV
    · exact Or.inl hV
    · exact Or.inr (Or.inl hV)
    · exact Or.inr (Or.inr fun hsens => hV ⟨s, count, hs, hcount, hsens⟩)
  | out => exact Confined.orError (confined_out args)
  | set => exact confined_set args

theorem requireProgVersion_fails {need : ℕ} {what : String} {ctx : AsmCtx}
    (h : ctx.out.effectiveVersion < need) : (requireProgVersion need what ctx).1 = none := by
  change (Step.require (need ≤ ctx.out.effectiveVersion)
    ("PIO version " ++ toString need ++ " is required for " ++ what) ctx).1 = none
  rw [Step.require, if_neg (by omega)]
  rfl

/-- A sensitive directive is an error in a program of version 0. -/
theorem configDirective_sensitive {k : ConfigKind} {args : List Text} (h : Sensitive t k args)
    {ctx : AsmCtx} {p : Program} (hctx : ctx.Over t p) (hp : p.effectiveVersion = 0) :
    (configDirective k args ctx).1 = none := by
  have hzero : ctx.out.effectiveVersion < 1 := by
    rw [hctx.out, hp]
    exact Nat.one_pos
  cases k with
  | fifo =>
    obtain ⟨s, join, hs, hjoin, hsens⟩ := h
    cases args with
    | nil => cases hs
    | cons s' rest =>
      obtain rfl := Option.some.inj hs
      change (fifoDirective (s' :: rest) ctx).1 = none
      unfold fifoDirective
      dsimp only
      rw [hjoin]
      dsimp only
      rw [if_pos hsens, bind_some (a := ()) rfl]
      exact bind_none (requireProgVersion_fails hzero)
  | movStatus =>
    obtain ⟨s, rest, sel, rfl, hsel, hsens⟩ := h
    refine (orError_fst _ _ _).trans ?_
    unfold parseMovStatus
    dsimp only
    rw [hsel]
    dsimp only
    rw [if_pos hsens, bind_some (a := ()) rfl]
    exact bind_none (requireProgVersion_fails hzero)
  | «in» =>
    obtain ⟨s, count, hs, hcount, hpos, hlt⟩ := h
    cases args with
    | nil => cases hs
    | cons s' rest =>
      obtain rfl := Option.some.inj hs
      have hword : (Step.resolveUint s' ctx).1 = some count := (hctx.resolveUint_eq s').trans hcount
      have hout := (hctx.resolveUint hword).2.out
      refine (orError_fst _ _ _).trans ?_
      change ((Step.resolveUint s' >>= fun count => Step.out >>= fun out =>
        if 32 < count.toNat then Step.fail
        else if (true && if out.effectiveVersion = 0 then count.toNat != 32 else count.toNat == 0) =
          true then
          Step.fail
        else shiftCfgOf true count rest) ctx).1 = none
      rw [bind_some hword]
      change ((if 32 < count.toNat then Step.fail
        else if (true && if (ctx.resolveUint s').2.out.effectiveVersion = 0 then count.toNat != 32
          else count.toNat == 0) = true then Step.fail
        else shiftCfgOf true count rest) (ctx.resolveUint s').2).1 = none
      have hne : (count.toNat != 32) = true := bne_iff_ne.mpr (by omega)
      rw [hout, if_pos hp, hne, if_neg (by omega)]
      rfl
  | sideSet | origin | pioVersion | clockDiv | out | set => exact h.elim

end Version

end PioSim.Asm
