import PioSim.Asm.Encode
import PioSim.Asm.Resolution

/-!
# What a step returns

A step that succeeds leaves the table and the program as they were, and its value is bound by the
meaning of the texts it resolved. One rule for each way of building a step.
-/

namespace PioSim.Asm

def Table.word (t : Table) (s : Text) : Option Word := (t.value s).map (·.setWidth 32)

/-- The 32-bit value of tokens joined with blanks. -/
def Table.wordJoin (t : Table) (tok : List Text) : Option Word := (joinTokens tok).bind t.word

namespace AsmCtx
variable {ctx : AsmCtx} {t : Table} {p : Program}

/-! ### Resolution that succeeds -/

/-- An evaluation that succeeds keeps the program, if the lookups that find their symbol do. -/
theorem resolveUintWith_out {look : AsmCtx → Text → Option Word × AsmCtx}
    (h : ∀ (c : AsmCtx) (id : Text) (v : Word), (look c id).1 = some v → (look c id).2.out = c.out)
    {s : Text} {v : Word} (hv : (resolveUintWith look ctx s).1 = some v) :
    (resolveUintWith look ctx s).2.out = ctx.out := by
  have hfinds : Finds (fun c c' => c = c' ∧ c.out = ctx.out) look look := by
    rintro c _ id w ⟨rfl, hc⟩ hw
    exact ⟨hw, rfl, (h c id w hw).trans hc⟩
  obtain ⟨w, hw, -⟩ := Option.map_eq_some_iff.mp hv
  exact (exprValue_follows hfinds ⟨rfl, rfl⟩ (Nat.le_refl _) hw).2.2

/-- A lookup that finds its symbol sets no error. -/
theorem lookSymbol_out : ∀ (fuel : ℕ) (ctx : AsmCtx) (id : Text) (v : Word),
    (lookSymbol fuel ctx id).1 = some v → (lookSymbol fuel ctx id).2.out = ctx.out := by
  intro fuel
  induction fuel with
  | zero =>
    intro _ _ _ hv
    cases hv
  | succ fuel ih =>
    intro ctx id v hv
    rw [lookSymbol] at hv ⊢
    cases hd : ctx.findDefine id with
    | none => rfl
    | some d =>
      rw [hd] at hv
      dsimp only at hv ⊢
      by_cases hresolved : d.resolved = true
      · rw [if_pos hresolved]
      rw [if_neg hresolved] at hv ⊢
      by_cases hvisiting : d.visiting = true
      · rw [if_pos hvisiting] at hv
        cases hv
      rw [if_neg hvisiting] at hv ⊢
      cases hvalue : (resolveUintWith (lookSymbol fuel)
          ((ctx.modifyDefine id fun d => { d with visiting := true }).noteDefine id) d.expr).1 with
      | none =>
        rw [hvalue] at hv
        cases hv
      | some w => exact resolveUintWith_out ih hvalue

theorem resolveUint_out {s : Text} {v : Word} (hv : (ctx.resolveUint s).1 = some v) :
    (ctx.resolveUint s).2.out = ctx.out := resolveUintWith_out (lookSymbol_out _) hv

/-- A context settled over a table and a program. -/
structure Over (t : Table) (p : Program) (ctx : AsmCtx) : Prop where
  settled : ctx.Settled
  table : ctx.table = t
  out : ctx.out = p

theorem Settled.over (h : ctx.Settled) : ctx.Over ctx.table ctx.out := ⟨h, rfl, rfl⟩

theorem Over.resolveUint (h : ctx.Over t p) {s : Text} {v : Word}
    (hv : (ctx.resolveUint s).1 = some v) :
    t.word s = some v ∧ (ctx.resolveUint s).2.Over t p := by
  have hafter := h.settled.after_resolveUint s
  have hword : (ctx.resolveUint s).1 = t.word s := by
    rw [h.settled.resolveUint s, h.table]
    rfl
  exact ⟨hword.symm.trans hv, hafter.2, hafter.1.trans h.table, (resolveUint_out hv).trans h.out⟩

theorem Over.resolveUint_eq (h : ctx.Over t p) (s : Text) : (ctx.resolveUint s).1 = t.word s := by
  rw [h.settled.resolveUint s, h.table]
  rfl

end AsmCtx

/-! ### Steps -/

namespace Step
variable {α β : Type} {t : Table} {p : Program} {x : Step α} {f : α → Step β} {P : α → Prop}
  {Q : β → Prop} {msg : String}

theorem bind_apply (x : Step α) (f : α → Step β) (ctx : AsmCtx) : (x >>= f) ctx = match x ctx with
    | (none, ctx) => (none, ctx)
    | (some a, ctx) => f a ctx := rfl

theorem bind_none {ctx : AsmCtx} (h : (x ctx).1 = none) : ((x >>= f) ctx).1 = none := by
  rw [bind_apply]
  cases hx : x ctx with
  | mk r ctx' =>
    rw [hx] at h
    dsimp only at h
    rw [h]

theorem bind_none_snd {ctx : AsmCtx} (h : (x ctx).1 = none) : ((x >>= f) ctx).2 = (x ctx).2 := by
  rw [bind_apply]
  cases hx : x ctx with
  | mk r ctx' =>
    rw [hx] at h
    dsimp only at h
    rw [h]

theorem bind_some {ctx : AsmCtx} {a : α} (h : (x ctx).1 = some a) :
    (x >>= f) ctx = f a (x ctx).2 := by
  rw [bind_apply]
  cases hx : x ctx with
  | mk r ctx' =>
    rw [hx] at h
    dsimp only at h
    rw [h]

theorem orError_fst (x : Step α) (msg : String) (ctx : AsmCtx) :
    (x.orError msg ctx).1 = (x ctx).1 := by
  unfold Step.orError
  rcases x ctx with ⟨_ | _, _⟩ <;> rfl

theorem orError_none {ctx : AsmCtx} (h : (x ctx).1 = none) :
    (x.orError msg ctx).2 = (x ctx).2.setError msg := by
  unfold Step.orError
  cases hx : x ctx with
  | mk r ctx' =>
    rw [hx] at h
    dsimp only at h
    rw [h]

theorem orError_some {ctx : AsmCtx} {a : α} (h : (x ctx).1 = some a) :
    x.orError msg ctx = x ctx := by
  unfold Step.orError
  cases hx : x ctx with
  | mk r ctx' =>
    rw [hx] at h
    dsimp only at h
    rw [h]

/-- Over the table and the program, the values the step returns are as told, and it leaves both as
they are. -/
def Yields (t : Table) (p : Program) (x : Step α) (P : α → Prop) : Prop :=
  ∀ (ctx ctx' : AsmCtx) (a : α), ctx.Over t p → x ctx = (some a, ctx') → P a ∧ ctx'.Over t p

theorem Yields.pure {a : α} (h : P a) : Yields t p (pure a) P := by
  intro ctx ctx' b hctx hb
  obtain ⟨ha, rfl⟩ := Prod.mk.inj hb
  obtain rfl := Option.some.inj ha
  exact ⟨h, hctx⟩

theorem Yields.error : Yields t p (error msg) P := by
  intro ctx ctx' a _ ha
  cases (Prod.mk.inj ha).1

theorem Yields.bind (h : Yields t p x P) (hf : ∀ a, P a → Yields t p (f a) Q) :
    Yields t p (x >>= f) Q := by
  intro ctx ctx' b hctx hb
  cases hx : (x ctx).1 with
  | none =>
    have hnone := bind_none (f := f) hx
    rw [hb] at hnone
    cases hnone
  | some a =>
    rw [bind_some hx] at hb
    obtain ⟨ha, hover⟩ := h ctx (x ctx).2 a hctx (Prod.ext hx rfl)
    exact hf a ha _ ctx' b hover hb

theorem Yields.orError (h : Yields t p x P) : Yields t p (x.orError msg) P := by
  intro ctx ctx' a hctx ha
  have hx : (x ctx).1 = some a := by
    rw [← orError_fst x msg, ha]
  rw [orError_some hx] at ha
  exact h ctx ctx' a hctx ha

theorem Yields.require {q : Prop} [Decidable q] {P : Unit → Prop} (h : q → P ()) :
    Yields t p (require q msg) P := by
  unfold Step.require
  split
  · rename_i hq
    exact Yields.pure (h hq)
  · exact Yields.error

theorem Yields.out {P : Program → Prop} (h : P p) : Yields t p out P := by
  intro ctx ctx' a hctx ha
  obtain ⟨hp, rfl⟩ := Prod.mk.inj ha
  obtain rfl := Option.some.inj hp
  rw [hctx.out]
  exact ⟨h, hctx⟩

theorem Yields.resolveUint {s : Text} {P : Word → Prop} (h : ∀ v, t.word s = some v → P v) :
    Yields t p (resolveUint s) P := by
  intro ctx ctx' v hctx hv
  have hfst : (ctx.resolveUint s).1 = some v := congrArg Prod.fst hv
  have hsnd : (ctx.resolveUint s).2 = ctx' := congrArg Prod.snd hv
  obtain ⟨hword, hover⟩ := hctx.resolveUint hfst
  rw [hsnd] at hover
  exact ⟨h v hword, hover⟩

theorem resolveUintJoin_apply (tok : List Text) (ctx : AsmCtx) :
    Step.resolveUintJoin tok ctx = match joinTokens tok with
      | none => (none, ctx)
      | some s => ctx.resolveUint s := rfl

theorem Yields.resolveUintJoin {tok : List Text} {P : Word → Prop}
    (h : ∀ v, t.wordJoin tok = some v → P v) : Yields t p (resolveUintJoin tok) P := by
  intro ctx ctx' v hctx hv
  rw [resolveUintJoin_apply] at hv
  cases hjoin : joinTokens tok with
  | none =>
    rw [hjoin] at hv
    cases (Prod.mk.inj hv).1
  | some s =>
    rw [hjoin] at hv
    refine Yields.resolveUint (fun v hword => h v ?_) ctx ctx' v hctx hv
    rw [Table.wordJoin, hjoin]
    exact hword

theorem Yields.mono {P' : α → Prop} (h : Yields t p x P) (himp : ∀ a, P a → P' a) :
    Yields t p x P' := by
  intro ctx ctx' a hctx ha
  obtain ⟨hp, hover⟩ := h ctx ctx' a hctx ha
  exact ⟨himp a hp, hover⟩

theorem Yields.requireProgVersion [Platform] {need : ℕ} {what : String} {P : Unit → Prop}
    (h : need ≤ p.effectiveVersion → P ()) : Yields t p (requireProgVersion need what) P :=
  Yields.bind (P := fun out => out = p) (Yields.out rfl) fun out hout => by
    subst hout
    exact Yields.require h

/-! ### Values that are settled -/

variable {o : Option α}

/-- Over the table and the program the step fails or returns the value told, whatever has been
evaluated before; it leaves both as they are. -/
def Returns (t : Table) (p : Program) (x : Step α) (o : Option α) : Prop :=
  ∀ ctx, ctx.Over t p → (x ctx).1 = o ∧ (o.isSome = true → (x ctx).2.Over t p)

theorem Returns.pure (a : α) : Returns t p (pure a) (some a) := fun _ hctx => ⟨rfl, fun _ => hctx⟩

theorem Returns.error : Returns t p (error msg : Step α) none :=
  fun _ _ => ⟨rfl, fun h => by cases h⟩

theorem Returns.require {q : Prop} [Decidable q] :
    Returns t p (require q msg) (if q then some () else none) := by
  unfold Step.require
  split
  · exact Returns.pure ()
  · exact Returns.error

theorem Returns.out : Returns t p out (some p) := by
  intro ctx hctx
  refine ⟨?_, fun _ => hctx⟩
  rw [← hctx.out]
  rfl

theorem Returns.resolveUint (s : Text) : Returns t p (resolveUint s) (t.word s) := by
  intro ctx hctx
  have hfst := hctx.resolveUint_eq s
  refine ⟨hfst, fun hsome => ?_⟩
  obtain ⟨v, hv⟩ := Option.isSome_iff_exists.mp hsome
  exact (hctx.resolveUint (hfst.trans hv)).2

theorem Returns.resolveUintJoin (tok : List Text) :
    Returns t p (resolveUintJoin tok) (t.wordJoin tok) := by
  unfold Table.wordJoin
  cases hjoin : joinTokens tok with
  | none =>
    intro ctx _
    rw [resolveUintJoin_apply, hjoin]
    exact ⟨rfl, fun h => by cases h⟩
  | some s =>
    have hrun : Step.resolveUintJoin tok = Step.resolveUint s := by
      funext ctx
      rw [resolveUintJoin_apply, hjoin] <;> rfl
    rw [hrun]
    exact Returns.resolveUint s

theorem Returns.orError (h : Returns t p x o) : Returns t p (x.orError msg) o := by
  intro ctx hctx
  obtain ⟨hfst, hover⟩ := h ctx hctx
  refine ⟨(orError_fst x msg ctx).trans hfst, fun hsome => ?_⟩
  obtain ⟨a, ha⟩ := Option.isSome_iff_exists.mp hsome
  rw [orError_some (hfst.trans ha)]
  exact hover hsome

theorem Returns.bind {g : α → Option β} (h : Returns t p x o)
    (hf : ∀ a, o = some a → Returns t p (f a) (g a)) : Returns t p (x >>= f) (o.bind g) := by
  intro ctx hctx
  obtain ⟨hfst, hover⟩ := h ctx hctx
  cases ho : o with
  | none => exact ⟨bind_none (hfst.trans ho), fun hsome => by cases hsome⟩
  | some a =>
    rw [bind_some (hfst.trans ho), Option.bind_some]
    exact hf a ho _ (hover (by rw [ho]; rfl))

/-- What the step returns depends on the table and the program only. -/
def Steady (x : Step α) : Prop := ∀ t p, ∃ o, Returns t p x o

theorem Steady.pure (a : α) : Steady (pure a) := fun _ _ => ⟨_, .pure a⟩
theorem Steady.error : Steady (error msg : Step α) := fun _ _ => ⟨_, .error⟩
theorem Steady.require {q : Prop} [Decidable q] : Steady (require q msg) := fun _ _ => ⟨_, .require⟩
theorem Steady.out : Steady out := fun _ _ => ⟨_, .out⟩
theorem Steady.resolveUint (s : Text) : Steady (resolveUint s) := fun _ _ => ⟨_, .resolveUint s⟩
theorem Steady.resolveUintJoin (tok : List Text) : Steady (resolveUintJoin tok) :=
  fun _ _ => ⟨_, .resolveUintJoin tok⟩

theorem Steady.orError (h : Steady x) : Steady (x.orError msg) := fun t p =>
  have ⟨o, ho⟩ := h t p
  ⟨o, ho.orError⟩

theorem Steady.bind (h : Steady x) (hf : ∀ a, Steady (f a)) : Steady (x >>= f) := by
  intro t p
  obtain ⟨o, ho⟩ := h t p
  choose g hg using fun a => hf a t p
  exact ⟨o.bind g, ho.bind fun a _ => hg a⟩

theorem Steady.requireProgVersion [Platform] (need : ℕ) (what : String) :
    Steady (requireProgVersion need what) := .bind .out fun _ => .require

/-- A step that returns a value keeps the table and the program. -/
theorem Steady.over (h : Steady x) {ctx : AsmCtx} (hctx : ctx.Over t p)
    (hx : (x ctx).1.isSome = true) :
    (x ctx).2.Over t p := by
  obtain ⟨o, ho⟩ := h t p
  obtain ⟨hfst, hover⟩ := ho ctx hctx
  rw [hfst] at hx
  exact hover hx

theorem Steady.congr (h : Steady x) {ctx ctx' : AsmCtx} (hctx : ctx.Over t p)
    (hctx' : ctx'.Over t p) :
    (x ctx).1 = (x ctx').1 := by
  obtain ⟨o, ho⟩ := h t p
  rw [(ho ctx hctx).1, (ho ctx' hctx').1]

end Step

end PioSim.Asm
