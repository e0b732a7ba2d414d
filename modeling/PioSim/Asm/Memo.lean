import PioSim.Asm.Lookups
import PioSim.Asm.Carried

/-!
# How often a define is evaluated

The memo keeps the value of a define and nothing else: a define that has a value is evaluated once,
a define that has none is evaluated again each time a lookup comes to it. Which defines those are
can be read off the table.
-/

namespace PioSim.Asm

namespace Table

/-- The defines without a value that a lookup of the symbol evaluates, in their order: the define,
then what the symbols of its text lead to. A define of the chain being evaluated is marked and not
evaluated again. -/
def attempts (t : Table) : ℕ → (Text → Bool) → Text → List Text
  | 0, _, _ => []
  | fuel + 1, marked, id =>
    match t.text id with
    | none => []
    | some s =>
      if t.symbol id = none ∧ marked id = false then
        id :: (symbolsOf s).flatMap (t.attempts fuel (Function.update marked id true))
      else []

/-- The defines without a value that an evaluation of the text comes to. -/
def attempted (t : Table) (s : Text) : List Text :=
  (symbolsOf s).flatMap (t.attempts (t.defines.length + 1) fun _ => false)

variable {t : Table} {marked : Text → Bool} {id s : Text}

theorem attempts_label (h : t.text id = none) (fuel : ℕ) : t.attempts fuel marked id = [] := by
  cases fuel with
  | zero => rfl
  | succ fuel => rw [attempts, h]

theorem attempts_of_not (h : ¬ (t.symbol id = none ∧ marked id = false)) (fuel : ℕ) :
    t.attempts fuel marked id = [] := by
  cases fuel with
  | zero => rfl
  | succ fuel =>
    rw [attempts]
    split
    · rfl
    · rw [if_neg h]

theorem attempts_define (htext : t.text id = some s) (hnone : t.symbol id = none)
    (hmarked : marked id = false) (fuel : ℕ) :
    t.attempts (fuel + 1) marked id =
      id :: (symbolsOf s).flatMap (t.attempts fuel (Function.update marked id true)) := by
  rw [attempts, htext]
  dsimp only
  rw [if_pos ⟨hnone, hmarked⟩]

/-- An operand that has a value comes to none. -/
theorem attempted_of_value (h : (t.value s).isSome = true) : t.attempted s = [] := by
  refine List.flatMap_eq_nil_iff.mpr fun id hid => attempts_of_not (fun hnot => ?_) _
  have hsome := isSome_of_value h id hid
  rw [hnot.1] at hsome
  cases hsome

end Table

namespace AsmCtx
variable {ctx ctx' : AsmCtx} {t : Table} {marked : Text → Bool} {id : Text}

/-! ### The history -/

/-- The evaluations of defines that have no value, in their order. -/
def vain (t : Table) (ctx : AsmCtx) : List Text :=
  ctx.evaluated.filter fun id => (t.symbol id).isNone

def Remembers (ctx : AsmCtx) (id : Text) : Prop :=
  ∃ d, ctx.findDefine id = some d ∧ d.resolved = true

/-- In agreement with the table; and a define that has a value has been evaluated once at most, and
not before it was marked or its value remembered. -/
structure Logs (t : Table) (marked : Text → Bool) (ctx : AsmCtx) : Prop where
  agrees : ctx.Agrees t marked
  once : ∀ id, t.symbol id ≠ none →
    ctx.evaluated.count id ≤ 1 ∧ (id ∈ ctx.evaluated → marked id = true ∨ ctx.Remembers id)

/-- From one context to the other, within an operand, the history grows by those evaluations in
vain. -/
structure Adds (t : Table) (marked : Text → Bool) (l : List Text) (ctx ctx' : AsmCtx) : Prop where
  logs : ctx'.Logs t marked
  vain : ctx'.vain t = ctx.vain t ++ l
  operands : ctx'.operands = ctx.operands

theorem Logs.adds_nil (h : ctx.Logs t marked) : Adds t marked [] ctx ctx :=
  ⟨h, (List.append_nil _).symm, rfl⟩

theorem Adds.trans {marked' : Text → Bool} {l l' : List Text} {ctx'' : AsmCtx}
    (h : Adds t marked l ctx ctx') (h' : Adds t marked' l' ctx' ctx'') :
    Adds t marked' (l ++ l') ctx ctx'' :=
  ⟨h'.logs, by rw [h'.vain, h.vain, List.append_assoc], h'.operands.trans h.operands⟩

theorem remembers_modifyDefine (ctx : AsmCtx) {f : Define → Define} (hf : ∀ d, (f d).name = d.name)
    {name : Text}
    (h : id ≠ name) : (ctx.modifyDefine name f).Remembers id ↔ ctx.Remembers id := by
  unfold Remembers
  rw [findDefine_modifyDefine hf, if_neg h]

/-- An error leaves the history as it is. -/
theorem Logs.setError (h : ctx.Logs t marked) (msg : String) (line : ℕ) :
    Adds t marked [] ctx ({ ctx with lineNo := line }.setError msg) := by
  have hsame : ∀ ctx' : AsmCtx, ctx'.defines = ctx.defines → ctx'.evaluated = ctx.evaluated →
      ctx'.operands = ctx.operands → ctx'.Agrees t marked → Adds t marked [] ctx ctx' := by
    intro ctx' hdefines hevaluated hoperands hagrees
    refine ⟨⟨hagrees, fun id hid => ?_⟩, ?_, hoperands⟩
    · have honce := h.once id hid
      unfold Remembers findDefine at honce ⊢
      rw [hevaluated, hdefines]
      exact honce
    · rw [AsmCtx.vain, AsmCtx.vain, hevaluated, List.append_nil]
  have hagrees : ({ ctx with lineNo := line }.setError msg).Agrees t marked :=
    (h.agrees.write _ _).setError msg
  unfold AsmCtx.setError at hagrees ⊢
  split
  · rename_i hok
    rw [if_pos hok] at hagrees
    exact hsame _ rfl rfl rfl hagrees
  · rename_i hok
    rw [if_neg hok] at hagrees
    exact hsame _ rfl rfl rfl hagrees

/-- The evaluation of a define begins: it is marked and noted. -/
theorem Logs.begin (h : ctx.Logs t marked) (hmarked : marked id = false)
    (hfresh : ¬ ctx.Remembers id) :
    Adds t (Function.update marked id true) (if t.symbol id = none then [id] else []) ctx
      ((ctx.modifyDefine id fun d => { d with visiting := true }).noteDefine id) := by
  refine ⟨⟨(h.agrees.mark id true).noteDefine id, fun id' hid' => ?_⟩, ?_, rfl⟩
  · obtain ⟨hcount, hmem⟩ := h.once id' hid'
    have hlog : ((ctx.modifyDefine id fun d => { d with visiting := true }).noteDefine
      id).evaluated =
      ctx.evaluated ++ [id] := rfl
    rw [hlog]
    by_cases hname : id' = id
    · subst hname
      have hnot : id' ∉ ctx.evaluated := by
        intro hin
        rcases hmem hin with hm | hr
        · rw [hmarked] at hm
          cases hm
        · exact hfresh hr
      refine ⟨?_, fun _ => .inl (Function.update_self ..)⟩
      rw [List.count_append, List.count_eq_zero_of_not_mem hnot, List.count_singleton_self]
    · have hremembers := remembers_modifyDefine ctx
        (f := fun d => { d with visiting := true }) (fun _ => rfl) hname
      refine ⟨?_, fun hin => ?_⟩
      · rw [List.count_append, List.count_eq_zero_of_not_mem (l := [id])
          (fun hin => hname (List.mem_singleton.mp hin)), Nat.add_zero]
        exact hcount
      · rw [Function.update_of_ne hname]
        rcases List.mem_append.mp hin with hin | hin
        · exact (hmem hin).imp_right hremembers.mpr
        · exact absurd (List.mem_singleton.mp hin) hname
  · change (ctx.evaluated ++ [id]).filter _ = ctx.evaluated.filter _ ++ _
    rw [List.filter_append]
    cases hsymbol : t.symbol id <;> simp [hsymbol]

theorem update_back (h : marked id = false) :
    Function.update (Function.update marked id true) id false = marked := by
  rw [Function.update_idem, ← h, Function.update_eq_self]

/-- The evaluation of a define ends without a value: the mark is taken off. -/
theorem Logs.giveUp (h : ctx.Logs t (Function.update marked id true)) (hmarked : marked id = false)
    (hnone : t.symbol id = none) :
    Adds t marked [] ctx (ctx.modifyDefine id fun d => { d with visiting := false }) := by
  have hagrees := h.agrees.mark id false
  rw [update_back hmarked] at hagrees
  refine ⟨⟨hagrees, fun id' hid' => ?_⟩, (List.append_nil _).symm, rfl⟩
  have hname : id' ≠ id := fun hname => hid' (hname ▸ hnone)
  have hremembers := remembers_modifyDefine ctx
    (f := fun d => { d with visiting := false }) (fun _ => rfl) hname
  obtain ⟨hcount, hmem⟩ := h.once id' hid'
  rw [Function.update_of_ne hname] at hmem
  exact ⟨hcount, fun hin => (hmem hin).imp_right hremembers.mpr⟩

/-- The evaluation of a define ends with its value: the mark is taken off and the value
remembered. -/
theorem Logs.remember (h : ctx.Logs t (Function.update marked id true))
    (hmarked : marked id = false)
    {v : Word} (hv : t.symbol id = some v) (hdefine : (ctx.findDefine id).isSome = true) :
    Adds t marked [] ctx
      ((ctx.modifyDefine id fun d => { d with visiting := false }).modifyDefine id
      fun d => { d with value := v, resolved := true }) := by
  have hagrees := h.agrees.mark id false
  rw [update_back hmarked] at hagrees
  refine ⟨⟨hagrees.remember hv, fun id' hid' => ?_⟩, (List.append_nil _).symm, rfl⟩
  obtain ⟨hcount, hmem⟩ := h.once id' hid'
  refine ⟨hcount, fun hin => ?_⟩
  by_cases hname : id' = id
  · right
    obtain ⟨d, hd⟩ := Option.isSome_iff_exists.mp hdefine
    refine ⟨{ d with visiting := false, value := v, resolved := true }, ?_, rfl⟩
    rw [hname, findDefine_modifyDefine (f := fun d => { d with value := v, resolved := true })
      (fun _ => rfl), if_pos rfl, findDefine_modifyDefine
      (f := fun d => { d with visiting := false }) (fun _ => rfl), if_pos rfl, hd]
    rfl
  · rw [Function.update_of_ne hname] at hmem
    have hmark := remembers_modifyDefine ctx
      (f := fun d => { d with visiting := false }) (fun _ => rfl) hname
    have hkeep := remembers_modifyDefine (ctx.modifyDefine id fun d => { d with visiting := false })
      (f := fun d => { d with value := v, resolved := true }) (fun _ => rfl) hname
    exact (hmem hin).imp_right fun hr => hkeep.mpr (hmark.mpr hr)

/-- Lookups one after the other. -/
theorem adds_foldl {look : AsmCtx → Text → Option Word × AsmCtx} {g : Text → List Text}
    {l : List Text}
    (h : ∀ id ∈ l, ∀ ctx, ctx.Logs t marked → Adds t marked (g id) ctx (look ctx id).2) :
    ∀ ctx, ctx.Logs t marked → Adds t marked (l.flatMap g) ctx
      (l.foldl (fun ctx id => (look ctx id).2) ctx) := by
  induction l with
  | nil => exact fun ctx hctx => hctx.adds_nil
  | cons id l ih =>
    intro ctx hctx
    have hfirst := h id List.mem_cons_self ctx hctx
    have hrest := ih (fun id' hid' => h id' (List.mem_cons_of_mem _ hid')) _ hfirst.logs
    rw [List.flatMap_cons, List.foldl_cons]
    exact hfirst.trans hrest

/-- An evaluation makes the lookups of its text. -/
theorem adds_resolveUintWith {look : AsmCtx → Text → Option Word × AsmCtx}
    {g : Text → List Text} {s : Text}
    (h : ∀ id ∈ symbolsOf s, ∀ ctx, ctx.Logs t marked → Adds t marked (g id) ctx (look ctx id).2)
    (hctx : ctx.Logs t marked) :
    Adds t marked ((symbolsOf s).flatMap g) ctx (resolveUintWith look ctx s).2 := by
  have hlookups : (resolveUintWith look ctx s).2 =
      (symbolsOf s).foldl (fun ctx id => (look ctx id).2) ctx := exprValue_snd look ctx s
  rw [hlookups]
  exact adds_foldl h ctx hctx

/-! ### Lookups -/

/-- A define that is neither remembered nor marked: its lookup is its evaluation. -/
theorem lookSymbol_evaluates {fuel : ℕ} {d : Define} (hd : ctx.findDefine id = some d)
    (hfresh : ¬ ctx.Remembers id) (h : ctx.Logs t marked) (hmarked : marked id = false)
    {l : List Text} (hlookups : ∀ ctx', ctx'.Logs t (Function.update marked id true) →
      Adds t (Function.update marked id true) l ctx'
        (resolveUintWith (lookSymbol fuel) ctx' d.expr).2)
    (hsymbol : (lookSymbol (fuel + 1) ctx id).1 = t.symbol id) :
    Adds t marked ((if t.symbol id = none then [id] else []) ++ l) ctx
      (lookSymbol (fuel + 1) ctx id).2 := by
  have hunresolved : ¬ d.resolved = true := fun hr => hfresh ⟨d, hd, hr⟩
  have hunvisited : ¬ d.visiting = true := by
    rw [h.agrees.marks id d hd, hmarked]
    exact Bool.false_ne_true
  have hstart := h.begin hmarked hfresh
  have hinner := hlookups _ hstart.logs
  have hboth := hstart.trans hinner
  rw [lookSymbol, hd] at hsymbol ⊢
  dsimp only at hsymbol ⊢
  rw [if_neg hunresolved, if_neg hunvisited] at hsymbol ⊢
  have hdefine : ((resolveUintWith (lookSymbol fuel)
      ((ctx.modifyDefine id fun d => { d with visiting := true }).noteDefine id)
      d.expr).2.findDefine id).isSome = true := by
    have htext := table_text (resolveUintWith (lookSymbol fuel)
      ((ctx.modifyDefine id fun d => { d with visiting := true }).noteDefine id) d.expr).2 id
    rw [hinner.logs.agrees.table, h.agrees.text hd] at htext
    rw [← Option.isSome_map (f := fun d : Define => d.expr), ← htext]
    rfl
  generalize resolveUintWith (lookSymbol fuel)
    ((ctx.modifyDefine id fun d => { d with visiting := true }).noteDefine id) d.expr = r
    at hsymbol hinner hboth hdefine ⊢
  obtain ⟨_ | v, after⟩ := r
  · have hend := hboth.logs.giveUp hmarked hsymbol.symm
    have hall := hboth.trans (hend.trans (hend.logs.setError
      ("unresolvable .define '" ++ String.ofList d.name ++ "' (undefined symbol)") d.line))
    rwa [List.nil_append, List.append_nil] at hall
  · have hall := hboth.trans (hboth.logs.remember hmarked hsymbol.symm hdefine)
    rwa [List.append_nil] at hall

/-- A define found in the table is remembered, being evaluated, or neither. -/
theorem Logs.not_remembers (h : ctx.Logs t marked) (hnone : t.symbol id = none) :
    ¬ ctx.Remembers id := by
  rintro ⟨d, hd, hresolved⟩
  rw [h.agrees.memo id d hd hresolved] at hnone
  cases hnone

/-- Looking a symbol up that has a value evaluates nothing in vain: by induction on the chain of
defines that gives the value. -/
theorem adds_of_value : ∀ (n fuel : ℕ) (marked : Text → Bool) (ctx : AsmCtx) (id : Text) (v : Word),
    ctx.Logs t marked → (∀ id', marked id' = true → t.symbolAt n id' = none) →
      unmarked t marked < fuel → t.symbolAt n id = some v →
      Adds t marked [] ctx (lookSymbol fuel ctx id).2 := by
  intro n
  induction n with
  | zero =>
    intro fuel marked ctx id v h _ hfuel hv
    obtain ⟨fuel, rfl⟩ : ∃ k, fuel = k + 1 := ⟨fuel - 1, by omega⟩
    cases hd : ctx.findDefine id with
    | none =>
      rw [lookSymbol, hd]
      exact h.adds_nil
    | some d =>
      rw [Table.symbolAt_zero (h.agrees.text hd)] at hv
      cases hv
  | succ n ih =>
    intro fuel marked ctx id v h hmarks hfuel hv
    have hmarks' : ∀ id', marked id' = true → t.symbolAt n id' = none := by
      intro id' hid'
      cases hn : t.symbolAt n id' with
      | none => rfl
      | some v' =>
        have hlater := Table.symbolAt_step n id' v' hn
        rw [hmarks id' hid'] at hlater
        cases hlater
    cases hn : t.symbolAt n id with
    | some v' => exact ih fuel marked ctx id v' h hmarks' hfuel hn
    | none =>
      have hfound := lookSymbol_finds (n + 1) fuel marked ctx id v h.agrees hmarks hfuel hv
      obtain ⟨fuel, rfl⟩ : ∃ k, fuel = k + 1 := ⟨fuel - 1, by omega⟩
      cases hd : ctx.findDefine id with
      | none =>
        rw [lookSymbol, hd]
        exact h.adds_nil
      | some d =>
        by_cases hremembers : ctx.Remembers id
        · obtain ⟨d', hd', hresolved⟩ := hremembers
          rw [hd] at hd'
          obtain rfl := Option.some.inj hd'
          rw [lookSymbol, hd]
          dsimp only
          rw [if_pos hresolved]
          exact h.adds_nil
        have hmarked : marked id = false := by
          by_contra hid
          rw [hmarks id (Bool.eq_true_of_not_eq_false hid)] at hv
          cases hv
        have hsymbol := Table.symbol_of_symbolAt hv
        have htext := h.agrees.text hd
        rw [Table.symbolAt_succ htext, Option.map_eq_some_iff] at hv
        obtain ⟨w, hw, rfl⟩ := hv
        have hfinds : ∀ id' ∈ symbolsOf d.expr, (t.symbolAt n id').isSome = true :=
          isSome_of_value (Option.isSome_iff_exists.mpr ⟨w, hw⟩)
        have hlt := unmarked_update htext hmarked
        have hmarks'' : ∀ id', Function.update marked id true id' = true →
            t.symbolAt n id' = none := by
          intro id' hid'
          by_cases hname : id' = id
          · rw [hname, hn]
          · rw [Function.update_of_ne hname] at hid'
            exact hmarks' id' hid'
        have hadds := lookSymbol_evaluates (l := (symbolsOf d.expr).flatMap fun _ => []) hd
          hremembers h hmarked
          (fun ctx' hctx' => adds_resolveUintWith (fun id' hid' c hc => by
            obtain ⟨v', hv'⟩ := Option.isSome_iff_exists.mp (hfinds id' hid')
            exact ih fuel _ c id' v' hc hmarks'' (by omega) hv') hctx') (hfound.trans hsymbol.symm)
        rw [hsymbol, if_neg (fun hnone => by cases hnone), List.nil_append,
          List.flatMap_eq_nil_iff.mpr fun _ _ => rfl] at hadds
        exact hadds

/-- Looking a symbol up evaluates in vain what the table says: by induction on the chain of defines
being evaluated, all without a value. -/
theorem adds_attempts : ∀ (fuel : ℕ) (marked : Text → Bool) (ctx : AsmCtx) (id : Text),
    ctx.Logs t marked → (∀ id', marked id' = true → t.symbol id' = none) →
      unmarked t marked < fuel →
      Adds t marked (t.attempts fuel marked id) ctx (lookSymbol fuel ctx id).2 := by
  intro fuel
  induction fuel with
  | zero => exact fun _ _ _ _ _ hfuel => absurd hfuel (Nat.not_lt_zero _)
  | succ fuel ih =>
    intro marked ctx id h hmarks hfuel
    cases hv : t.symbol id with
    | some v =>
      rw [Table.attempts_of_not (fun hnone => by rw [hv] at hnone; cases hnone.1)]
      exact adds_of_value _ _ _ ctx id v h hmarks hfuel hv
    | none =>
      cases hd : ctx.findDefine id with
      | none =>
        rw [Table.attempts_label (h.agrees.text_none hd), lookSymbol, hd]
        exact h.adds_nil
      | some d =>
        have hremembers := h.not_remembers hv
        by_cases hmarked : marked id = false
        · have hagrees := lookSymbol_agrees (t := t) (fuel + 1) marked ctx id h.agrees
          have hlookup : (lookSymbol (fuel + 1) ctx id).1 = t.symbol id := by
            cases hfound : (lookSymbol (fuel + 1) ctx id).1 with
            | none => rw [hv]
            | some v => rw [hagrees.2 v hfound]
          have htext := h.agrees.text hd
          have hlt := unmarked_update htext hmarked
          have hmarks' : ∀ id', Function.update marked id true id' = true →
              t.symbol id' = none := by
            intro id' hid'
            by_cases hname : id' = id
            · rw [hname, hv]
            · rw [Function.update_of_ne hname] at hid'
              exact hmarks id' hid'
          have hadds := lookSymbol_evaluates hd hremembers h hmarked (fun ctx' hctx' =>
            adds_resolveUintWith (fun id' _ c hc => ih _ c id' hc hmarks' (by omega)) hctx') hlookup
          rw [Table.attempts_define htext hv hmarked]
          rwa [if_pos hv] at hadds
        · rw [Table.attempts_of_not (fun hnot => hmarked hnot.2), lookSymbol, hd]
          dsimp only
          have hvisiting : d.visiting = true := by
            rw [h.agrees.marks id d hd]
            exact Bool.eq_true_of_not_eq_false hmarked
          rw [if_neg (fun hr => hremembers ⟨d, hd, hr⟩), if_pos hvisiting]
          exact h.setError _ _

/-! ### Operands -/

/-- Between operands, what has been evaluated in vain is what the operands came to. -/
structure Tallied (t : Table) (ctx : AsmCtx) : Prop where
  logs : ctx.Logs t fun _ => false
  vain : ctx.vain t = ctx.operands.flatMap t.attempted

/-- Noting an operand leaves the evaluations as they are. -/
theorem Logs.noteOperand (h : ctx.Logs t marked) (s : Text) : (ctx.noteOperand s).Logs t marked :=
  ⟨h.agrees.noteOperand s, h.once⟩

theorem Logs.adds_operand (h : ctx.Logs t fun _ => false) (s : Text) :
    Adds t (fun _ => false) (t.attempted s) ctx
      (resolveUintWith (lookSymbol (ctx.defines.length + 1)) ctx s).2 := by
  have hlength : t.defines.length = ctx.defines.length := by
    rw [← h.agrees.table, length_table]
  have hfuel : unmarked t (fun _ => false) < ctx.defines.length + 1 := by
    have hle : unmarked t (fun _ => false) ≤ t.defines.length := List.countP_le_length
    omega
  unfold Table.attempted
  rw [hlength]
  exact adds_resolveUintWith
    (fun id _ c hc => adds_attempts _ _ c id hc (fun _ hm => by cases hm) hfuel) h

theorem Logs.operands_resolveUint (h : ctx.Logs t fun _ => false) (s : Text) :
    (ctx.resolveUint s).2.operands = ctx.operands ++ [s] := by
  have hsame := (h.adds_operand s).operands
  unfold AsmCtx.resolveUint
  generalize resolveUintWith (lookSymbol (ctx.defines.length + 1)) ctx s = r at hsame ⊢
  exact congrArg (· ++ [s]) hsame

theorem Tallied.resolveUint (h : ctx.Tallied t) (s : Text) : (ctx.resolveUint s).2.Tallied t := by
  have hadds := h.logs.adds_operand s
  have hoperands := h.logs.operands_resolveUint s
  refine ⟨?_, ?_⟩
  · unfold AsmCtx.resolveUint
    exact hadds.logs.noteOperand s
  · rw [hoperands, List.flatMap_append, List.flatMap_singleton, ← h.vain]
    unfold AsmCtx.resolveUint
    generalize resolveUintWith (lookSymbol (ctx.defines.length + 1)) ctx s = r at hadds ⊢
    exact hadds.vain

/-- All operands so far came to no define without a value. -/
def Clear (t : Table) (ctx : AsmCtx) : Prop :=
  ctx.Tallied t ∧ ∀ s ∈ ctx.operands, t.attempted s = []

/-- All operands but the last one came to no define without a value. -/
def Spent (t : Table) (ctx : AsmCtx) : Prop :=
  ctx.Tallied t ∧ ∀ s ∈ ctx.operands.dropLast, t.attempted s = []

theorem Clear.spent (h : ctx.Clear t) : ctx.Spent t :=
  ⟨h.1, fun s hs => h.2 s (List.dropLast_subset _ hs)⟩

/-- The operand that comes to a define without a value fails, and it is the last one. -/
theorem Clear.resolveUint (h : ctx.Clear t) (s : Text) :
    (ctx.resolveUint s).2.Spent t ∧
      ((ctx.resolveUint s).1.isSome = true → (ctx.resolveUint s).2.Clear t) := by
  have htallied := h.1.resolveUint s
  have hoperands := h.1.logs.operands_resolveUint s
  have htable := h.1.logs.agrees.table
  have hsettled : ctx.Settled := by
    unfold Settled
    rw [htable]
    exact h.1.logs.agrees
  refine ⟨⟨htallied, ?_⟩, fun hsome => ⟨htallied, ?_⟩⟩
  · rw [hoperands, List.dropLast_concat]
    exact h.2
  · rw [hsettled.resolveUint s, htable, Option.isSome_map] at hsome
    rw [hoperands]
    intro s' hs'
    rcases List.mem_append.mp hs' with hs' | hs'
    · exact h.2 s' hs'
    · rw [List.mem_singleton.mp hs']
      exact Table.attempted_of_value hsome

theorem carried_clear {pass : Pass} (hpass : pass ≠ .scan) : Carried pass (Clear t) (Spent t) where
  left _ h := h.spent
  line _ _ h := ⟨⟨⟨h.1.logs.agrees.write _ _, h.1.logs.once⟩, h.1.vain⟩, h.2⟩
  error _ _ _ h := ⟨⟨⟨h.1.logs.agrees.write _ _, h.1.logs.once⟩, h.1.vain⟩, h.2⟩
  error_left _ _ _ h := ⟨⟨⟨h.1.logs.agrees.write _ _, h.1.logs.once⟩, h.1.vain⟩, h.2⟩
  write _ _ _ h := ⟨⟨⟨h.1.logs.agrees.write _ _, h.1.logs.once⟩, h.1.vain⟩, h.2⟩
  resolveUint _ _ s h := h.resolveUint s
  define hscan := absurd hscan hpass
  label hscan := absurd hscan hpass

structure Fresh (ctx : AsmCtx) : Prop where
  defines : ∀ d ∈ ctx.defines, d.resolved = false ∧ d.visiting = false
  evaluated : ctx.evaluated = []
  operands : ctx.operands = []

theorem carried_fresh : Carried .scan Fresh Fresh where
  left _ h := h
  line _ _ h := ⟨h.defines, h.evaluated, h.operands⟩
  error _ _ _ h := ⟨h.defines, h.evaluated, h.operands⟩
  error_left _ _ _ h := ⟨h.defines, h.evaluated, h.operands⟩
  write hpass := absurd rfl hpass
  resolveUint hpass := absurd rfl hpass
  define _ ctx name expr ctx' hctx h := by
    unfold AsmCtx.declareDefine at hctx
    split_ifs at hctx
    rw [← Option.some.inj hctx]
    refine ⟨fun d hd => ?_, h.evaluated, h.operands⟩
    rcases List.mem_append.mp hd with hd | hd
    · exact h.defines d hd
    · rw [List.mem_singleton.mp hd]
      exact ⟨rfl, rfl⟩
  label _ _ _ h := ⟨h.defines, h.evaluated, h.operands⟩

theorem Fresh.clear (h : ctx.Fresh) : ctx.Clear ctx.table := by
  refine ⟨⟨⟨(Reached.scanned ctx h.defines).settled, fun id _ => ?_⟩, ?_⟩, ?_⟩
  · rw [h.evaluated]
    exact ⟨Nat.zero_le _, fun hin => absurd hin List.not_mem_nil⟩
  · rw [AsmCtx.vain, h.evaluated, h.operands]
    rfl
  · rw [h.operands]
    exact fun s hs => absurd hs List.not_mem_nil

/-- A define with a value is evaluated once, so only the evaluations in vain can repeat. -/
theorem Logs.nodup_iff (h : ctx.Logs t marked) : ctx.evaluated.Nodup ↔ (ctx.vain t).Nodup := by
  refine ⟨fun hnodup => hnodup.filter _, fun hnodup => List.nodup_iff_count.mpr fun id => ?_⟩
  cases hv : t.symbol id with
  | some v => exact (h.once id (by rw [hv]; exact Option.some_ne_none v)).1
  | none =>
    have hcount := List.nodup_iff_count.mp hnodup id
    rwa [AsmCtx.vain, List.count_filter (by rw [hv]; rfl)] at hcount

theorem Spent.nodup_iff (h : ctx.Spent t) :
    ctx.evaluated.Nodup ↔ ∀ s ∈ ctx.operands, (t.attempted s).Nodup := by
  obtain ⟨htallied, hclear⟩ := h
  rw [htallied.logs.nodup_iff, htallied.vain]
  rcases List.eq_nil_or_concat ctx.operands with hnil | ⟨l, s, hl⟩
  · rw [hnil]
    exact ⟨fun _ s hs => absurd hs List.not_mem_nil, fun _ => List.nodup_nil⟩
  · rw [List.concat_eq_append] at hl
    rw [hl, List.dropLast_concat] at hclear
    rw [hl, List.flatMap_append, List.flatMap_eq_nil_iff.mpr hclear, List.nil_append,
      List.flatMap_singleton]
    refine ⟨fun hlast s' hs' => ?_, fun hall => hall s (List.mem_append_right l List.mem_cons_self)⟩
    rcases List.mem_append.mp hs' with hs' | hs'
    · rw [hclear s' hs']
      exact List.nodup_nil
    · rwa [List.mem_singleton.mp hs']

end AsmCtx

/-! ### The assembly -/

section Assembly
variable [Platform]

def assembledCtx (src : Text) (name : Option Text) : AsmCtx :=
  ((ParseState.start name).stages
    [fun ps => ps.runPass .scan src, fun ps => ps.runPass .config src, ParseState.finishConfig,
      fun ps => ps.runPass .emit src, ParseState.exportLabels]).2.ctx

open AsmCtx

theorem assembledCtx_spent (src : Text) (name : Option Text) :
    ∃ t, (assembledCtx src name).Spent t := by
  have hstart : (ParseState.start name).ctx.Fresh :=
    ⟨fun d hd => absurd hd List.not_mem_nil, rfl, rfl⟩
  have hscan := (carried_fresh.runPass hstart src).1
  unfold assembledCtx
  rw [ParseState.stages]
  generalize (ParseState.start name).runPass .scan src = r at hscan ⊢
  obtain ⟨success, ps⟩ := r
  refine ⟨ps.ctx.table, ?_⟩
  have hclear := hscan.clear
  cases success with
  | false => exact hclear.spent
  | true =>
    have hconfig : Carried .config (Clear ps.ctx.table) (Spent ps.ctx.table) :=
      carried_clear (by decide)
    have hemit : Carried .emit (Clear ps.ctx.table) (Spent ps.ctx.table) :=
      carried_clear (by decide)
    refine Carried.throughStages (fun f hf ps' hctx => ?_) ps hclear hclear.spent
    simp only [List.mem_cons, List.not_mem_nil, or_false] at hf
    rcases hf with rfl | rfl | rfl | rfl
    · exact hconfig.runPass hctx src
    · exact ⟨(hconfig.finishConfig (by decide) hctx).spent,
        fun _ => hconfig.finishConfig (by decide) hctx⟩
    · exact hemit.runPass hctx src
    · exact ⟨(hemit.exportLabels (by decide) hctx).spent,
        fun _ => hemit.exportLabels (by decide) hctx⟩

/-- In an assembly no define is evaluated twice exactly when no operand comes to a define without a
value twice. -/
theorem evaluates_defines_once (src : Text) (name : Option Text) :
    let ctx := assembledCtx src name
    ctx.evaluated.Nodup ↔ ∀ s ∈ ctx.operands, (ctx.table.attempted s).Nodup := by
  obtain ⟨t, hspent⟩ := assembledCtx_spent src name
  have htable := hspent.1.logs.agrees.table
  dsimp only
  rw [htable]
  exact hspent.nodup_iff

omit [Platform] in
/-- A define over a symbol that is not there, mentioned twice. -/
theorem failed_define_evaluated_again :
    letI : Platform := ⟨.rp2350⟩
    ¬ (assembledCtx ['.', 'p', 'r', 'o', 'g', 'r', 'a', 'm', '\n',
      '.', 'd', 'e', 'f', 'i', 'n', 'e', ' ', 'A', ' ', 'U', '\n',
      's', 'e', 't', ' ', 'x', ',', 'A', '+', 'A'] none).evaluated.Nodup := by
  decide +kernel

end Assembly

end PioSim.Asm
