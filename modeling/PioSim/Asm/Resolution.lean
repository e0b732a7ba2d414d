import PioSim.Asm.Meaning

/-!
# Resolution computes the meaning

Every context the passes evaluate in agrees with the meaning of its table: no define is marked, and
the memo holds the values of the symbols. From such a context `resolve_uint` returns the value of
the text over the meaning, and what it leaves agrees again.
-/

namespace PioSim.Asm

namespace AsmCtx

variable {ctx : AsmCtx} {id : Text}

/-! ### Tables and entries -/

theorem table_label (ctx : AsmCtx) (id : Text) :
    ctx.table.label id = (ctx.findLabel id).map (BitVec.ofNat 32) := by
  rw [Table.label, findLabel, Option.map_map]
  rfl

theorem table_text (ctx : AsmCtx) (id : Text) :
    ctx.table.text id = (ctx.findDefine id).map (·.expr) := by
  rw [Table.text, table, findDefine, List.find?_map, Option.map_map]
  rfl

section Modify
variable {f : Define → Define}

theorem find_modifyFirst (hf : ∀ d, (f d).name = d.name) (name id : Text) (l : List Define) :
    (modifyDefine.modifyFirst name f l).find? (·.name = id) =
      if id = name then (l.find? (·.name = id)).map f else l.find? (·.name = id) := by
  induction l with
  | nil => simp [modifyDefine.modifyFirst]
  | cons d l ih =>
    unfold modifyDefine.modifyFirst
    by_cases hd : d.name = name
    · rw [if_pos hd, List.find?_cons, List.find?_cons, hf]
      by_cases hid : d.name = id
      · have hname : id = name := hid.symm.trans hd
        simp only [hid, decide_true, if_pos hname, Option.map_some]
      · have hname : id ≠ name := fun h => hid (hd.trans h.symm)
        simp only [hid, decide_false, if_neg hname]
    · rw [if_neg hd, List.find?_cons, List.find?_cons]
      by_cases hid : d.name = id
      · have hname : id ≠ name := fun h => hd (hid.trans h)
        simp only [hid, decide_true, if_neg hname]
      · simp only [hid, decide_false, ih]

theorem findDefine_modifyDefine (hf : ∀ d, (f d).name = d.name) (name id : Text) :
    (ctx.modifyDefine name f).findDefine id =
      if id = name then (ctx.findDefine id).map f else ctx.findDefine id :=
  find_modifyFirst hf name id ctx.defines

theorem table_modifyDefine (hf : ∀ d, (f d).name = d.name ∧ (f d).expr = d.expr) (name : Text) :
    (ctx.modifyDefine name f).table = ctx.table := by
  unfold table modifyDefine
  simp only [Table.mk.injEq, true_and]
  induction ctx.defines with
  | nil => rfl
  | cons d l ih =>
    unfold modifyDefine.modifyFirst
    split
    · rw [List.map_cons, List.map_cons, (hf d).1, (hf d).2]
    · rw [List.map_cons, List.map_cons, ih]

end Modify

/-! ### Agreement -/

/-- The context is over the table, marks the defines being evaluated, and remembers values of the
symbols only. -/
structure Agrees (t : Table) (marked : Text → Bool) (ctx : AsmCtx) : Prop where
  table : ctx.table = t
  marks : ∀ id d, ctx.findDefine id = some d → d.visiting = marked id
  memo : ∀ id d, ctx.findDefine id = some d → d.resolved = true → t.symbol id = some d.value

/-- Between evaluations no define is marked. -/
def Settled (ctx : AsmCtx) : Prop := ctx.Agrees ctx.table fun _ => false

variable {t : Table} {marked : Text → Bool}

theorem Agrees.text (h : ctx.Agrees t marked) {d : Define} (hd : ctx.findDefine id = some d) :
    t.text id = some d.expr := by
  rw [← h.table, table_text, hd]
  rfl

theorem Agrees.text_none (h : ctx.Agrees t marked) (hd : ctx.findDefine id = none) :
    t.text id = none := by
  rw [← h.table, table_text, hd]
  rfl

/-- Output, error and line are no part of the agreement. -/
theorem Agrees.write (h : ctx.Agrees t marked) (out : Program) (line : ℕ) :
    AsmCtx.Agrees t marked { ctx with out := out, lineNo := line } := ⟨h.table, h.marks, h.memo⟩

theorem Agrees.setError (h : ctx.Agrees t marked) (msg : String) :
    (ctx.setError msg).Agrees t marked := by
  unfold AsmCtx.setError
  split
  · exact h.write _ _
  · exact h

theorem Agrees.noteDefine (h : ctx.Agrees t marked) (name : Text) :
    (ctx.noteDefine name).Agrees t marked :=
  ⟨h.table, h.marks, h.memo⟩

theorem Agrees.noteOperand (h : ctx.Agrees t marked) (s : Text) :
    (ctx.noteOperand s).Agrees t marked :=
  ⟨h.table, h.marks, h.memo⟩

/-- Marking a define, or taking its mark off. -/
theorem Agrees.mark (h : ctx.Agrees t marked) (name : Text) (on : Bool) :
    (ctx.modifyDefine name fun d => { d with visiting := on }).Agrees t
      (Function.update marked name on) := by
  refine ⟨(table_modifyDefine (f := fun d => { d with visiting := on }) (fun _ => ⟨rfl, rfl⟩)
    name).trans h.table, ?_, ?_⟩
  · intro id d hd
    rw [findDefine_modifyDefine (f := fun d => { d with visiting := on }) (fun _ => rfl)] at hd
    split at hd
    · rename_i hid
      obtain ⟨d', -, rfl⟩ := Option.map_eq_some_iff.mp hd
      rw [hid, Function.update_self]
    · rename_i hid
      rw [Function.update_of_ne hid]
      exact h.marks id d hd
  · intro id d hd hresolved
    rw [findDefine_modifyDefine (f := fun d => { d with visiting := on }) (fun _ => rfl)] at hd
    split at hd
    · obtain ⟨d', hd', rfl⟩ := Option.map_eq_some_iff.mp hd
      exact h.memo id d' hd' hresolved
    · exact h.memo id d hd hresolved

/-- Remembering the value of a define. -/
theorem Agrees.remember (h : ctx.Agrees t marked) {name : Text} {v : Word}
    (hv : t.symbol name = some v) :
    (ctx.modifyDefine name fun d => { d with value := v, resolved := true }).Agrees t marked := by
  refine ⟨(table_modifyDefine (f := fun d => { d with value := v, resolved := true })
    (fun _ => ⟨rfl, rfl⟩) name).trans h.table, ?_, ?_⟩
  · intro id d hd
    rw [findDefine_modifyDefine (f := fun d => { d with value := v, resolved := true })
      (fun _ => rfl)] at hd
    split at hd
    · obtain ⟨d', hd', rfl⟩ := Option.map_eq_some_iff.mp hd
      exact h.marks id d' hd'
    · exact h.marks id d hd
  · intro id d hd hresolved
    rw [findDefine_modifyDefine (f := fun d => { d with value := v, resolved := true })
      (fun _ => rfl)] at hd
    split at hd
    · rename_i hid
      obtain ⟨d', -, rfl⟩ := Option.map_eq_some_iff.mp hd
      rw [hid]
      exact hv
    · exact h.memo id d hd hresolved

/-! ### What a lookup returns -/

/-- A lookup keeps the agreement, and what it returns is the value of the symbol. -/
theorem lookSymbol_agrees : ∀ (fuel : ℕ) (marked : Text → Bool) (ctx : AsmCtx) (id : Text),
    ctx.Agrees t marked → (lookSymbol fuel ctx id).2.Agrees t marked ∧
      ∀ v, (lookSymbol fuel ctx id).1 = some v → t.symbol id = some v := by
  intro fuel
  induction fuel with
  | zero => exact fun _ _ _ h => ⟨h, fun v hv => by cases hv⟩
  | succ fuel ih =>
    intro marked ctx id h
    rw [lookSymbol]
    cases hd : ctx.findDefine id with
    | none =>
      refine ⟨h, fun v hv => ?_⟩
      rw [Table.symbol_label (h.text_none hd), ← h.table, table_label]
      exact hv
    | some d =>
      dsimp only
      by_cases hresolved : d.resolved = true
      · rw [if_pos hresolved]
        refine ⟨h, fun v hv => ?_⟩
        rw [h.memo id d hd hresolved]
        exact hv
      rw [if_neg hresolved]
      by_cases hvisiting : d.visiting = true
      · rw [if_pos hvisiting]
        exact ⟨(h.write _ _).setError _, fun v hv => by cases hv⟩
      rw [if_neg hvisiting]
      have hmarked : marked id = false := by
        rw [← h.marks id d hd]
        exact Bool.eq_false_iff.mpr hvisiting
      have hstart := (h.mark id true).noteDefine id
      have hkeeps := exprValue_keeps (I := AsmCtx.Agrees t (Function.update marked id true))
        (fun ctx id hctx => (ih _ ctx id hctx).1) hstart exprMaxDepth d.expr
      have hback : Function.update (Function.update marked id true) id false = marked := by
        rw [Function.update_idem, ← hmarked, Function.update_eq_self]
      have hunmark := hkeeps.mark id false
      rw [hback] at hunmark
      have hfinds :
        Finds (fun ctx (_ : Unit) => AsmCtx.Agrees t (Function.update marked id true) ctx)
          (lookSymbol fuel) (fun (_ : Unit) id => (t.symbol id, ())) := by
        intro ctx _ id v hctx hv
        exact ⟨(ih _ ctx id hctx).2 v hv, (ih _ ctx id hctx).1⟩
      unfold resolveUintWith
      dsimp only
      cases hvalue : (exprValue (lookSymbol fuel) exprMaxDepth
          ((ctx.modifyDefine id fun d => { d with visiting := true }).noteDefine id) d.expr).1 with
      | none => exact ⟨(hunmark.write _ _).setError _, fun v hv => by cases hv⟩
      | some w =>
        have hsymbol : t.symbol id = some (w.setWidth 32) := by
          rw [Table.symbol_define (h.text hd), Table.value, evalWith,
            (exprValue_follows hfinds hstart (Nat.le_refl _) hvalue).1]
          rfl
        refine ⟨hunmark.remember hsymbol, fun v hv => ?_⟩
        rw [hsymbol]
        exact hv

/-! ### Every symbol is found -/

def unmarked (t : Table) (marked : Text → Bool) : ℕ := t.defines.countP fun d => !marked d.1

theorem unmarked_update {marked : Text → Bool} {s : Text} (h : t.text id = some s)
    (hid : marked id = false) :
    unmarked t (Function.update marked id true) < unmarked t marked := by
  obtain ⟨d, hd, rfl⟩ := Table.text_eq_some h
  have himp : ∀ e ∈ t.defines, (!Function.update marked d.1 true e.1) = true →
      (!marked e.1) = true := by
    intro e _ he
    by_cases hname : e.1 = d.1
    · rw [hname, Function.update_self] at he
      cases he
    · rwa [Function.update_of_ne hname] at he
  refine Nat.lt_of_le_of_ne (List.countP_mono_left himp) fun heq => ?_
  have hback := Table.mem_of_countP_eq himp heq d hd (by rw [hid]; rfl)
  rw [Function.update_self] at hback
  cases hback

/-- A symbol that chains of `n` defines reach is found, unless a define of the chain is being
evaluated already; the fuel has to cover the defines that are not. -/
theorem lookSymbol_finds : ∀ (n : ℕ) (fuel : ℕ) (marked : Text → Bool) (ctx : AsmCtx) (id : Text)
    (v : Word), ctx.Agrees t marked → (∀ id', marked id' = true → t.symbolAt n id' = none) →
      unmarked t marked < fuel → t.symbolAt n id = some v →
        (lookSymbol fuel ctx id).1 = some v := by
  intro n
  induction n with
  | zero =>
    intro fuel marked ctx id v h _ hfuel hv
    obtain ⟨fuel, rfl⟩ : ∃ k, fuel = k + 1 := ⟨fuel - 1, by omega⟩
    rw [lookSymbol]
    cases hd : ctx.findDefine id with
    | none =>
      rw [Table.symbolAt_label (h.text_none hd), ← h.table, table_label] at hv
      exact hv
    | some d =>
      rw [Table.symbolAt_zero (h.text hd)] at hv
      cases hv
  | succ n ih =>
    intro fuel marked ctx id v h hmarks hfuel hv
    have hmarks' : ∀ id', marked id' = true → t.symbolAt n id' = none := by
      intro id' hid'
      cases hn : t.symbolAt n id' with
      | none => rfl
      | some v' =>
        have hlater := Table.symbolAt_step n id' v' hn
        rw [hmarks id' hid'] at hlater
        cases hlater
    -- the shortest chain does not go through the define itself
    cases hn : t.symbolAt n id with
    | some v' =>
      have hlater := Table.symbolAt_step n id v' hn
      rw [hv] at hlater
      rw [Option.some.inj hlater]
      exact ih fuel marked ctx id v' h hmarks' hfuel hn
    | none =>
      obtain ⟨fuel, rfl⟩ : ∃ k, fuel = k + 1 := ⟨fuel - 1, by omega⟩
      rw [lookSymbol]
      cases hd : ctx.findDefine id with
      | none =>
        rw [Table.symbolAt_label (h.text_none hd), ← h.table, table_label] at hv
        exact hv
      | some d =>
        dsimp only
        by_cases hresolved : d.resolved = true
        · rw [if_pos hresolved, ← h.memo id d hd hresolved]
          exact Table.symbol_of_symbolAt hv
        rw [if_neg hresolved]
        have hmarked : marked id = false := by
          by_contra hid
          rw [hmarks id (Bool.eq_true_of_not_eq_false hid)] at hv
          cases hv
        have hvisiting : ¬ d.visiting = true := by
          rw [h.marks id d hd, hmarked]
          exact Bool.false_ne_true
        rw [if_neg hvisiting]
        have hstart := (h.mark id true).noteDefine id
        have hmarks'' : ∀ id', Function.update marked id true id' = true →
            t.symbolAt n id' = none := by
          intro id' hid'
          by_cases hname : id' = id
          · rw [hname, hn]
          · rw [Function.update_of_ne hname] at hid'
            exact hmarks' id' hid'
        have hlt := unmarked_update (h.text hd) hmarked
        have hfinds :
          Finds (fun (_ : Unit) ctx => AsmCtx.Agrees t (Function.update marked id true) ctx)
            (fun (_ : Unit) id => (t.symbolAt n id, ())) (lookSymbol fuel) := by
          intro _ ctx id v hctx hv
          exact ⟨ih fuel _ ctx id v hctx hmarks'' (by omega) hv, (lookSymbol_agrees _ _ _ _ hctx).1⟩
        rw [Table.symbolAt_succ (h.text hd), Option.map_eq_some_iff] at hv
        obtain ⟨w, hw, rfl⟩ := hv
        unfold resolveUintWith
        dsimp only
        rw [(exprValue_follows hfinds hstart (Nat.le_refl _) hw).1]
        rfl

/-! ### Resolution -/

theorem length_table (ctx : AsmCtx) : ctx.table.defines.length = ctx.defines.length := by
  rw [table, List.length_map]

theorem Settled.finds (h : ctx.Settled) :
    Finds (fun (_ : Unit) ctx' => AsmCtx.Agrees ctx.table (fun _ => false) ctx')
      (fun (_ : Unit) id => (ctx.table.symbol id, ())) (lookSymbol (ctx.defines.length + 1)) := by
  intro _ ctx' id v hctx hv
  refine ⟨?_, (lookSymbol_agrees _ _ _ _ hctx).1⟩
  refine lookSymbol_finds _ _ _ _ _ _ hctx (fun id' hid' => by cases hid') ?_ hv
  have hle : unmarked ctx.table (fun _ => false) ≤ ctx.table.defines.length := List.countP_le_length
  rw [length_table] at hle
  omega

/-- Looking a symbol up gives its value. -/
theorem Settled.lookup (h : ctx.Settled) (id : Text) : (ctx.lookup id).1 = ctx.table.symbol id := by
  have hagrees := lookSymbol_agrees (ctx.defines.length + 1) _ ctx id h
  cases hv : ctx.table.symbol id with
  | some v => exact (h.finds () ctx id v h hv).1
  | none =>
    cases hv' : (ctx.lookup id).1 with
    | none => rfl
    | some v =>
      have hsymbol := hagrees.2 v hv'
      rw [hv] at hsymbol
      cases hsymbol

/-- `resolve_uint` returns the low word of the value of the text. -/
theorem Settled.resolveUint (h : ctx.Settled) (s : Text) :
    (ctx.resolveUint s).1 = (ctx.table.value s).map (·.setWidth 32) := by
  have hback : Finds (fun ctx' (_ : Unit) => AsmCtx.Agrees ctx.table (fun _ => false) ctx')
      (lookSymbol (ctx.defines.length + 1)) (fun (_ : Unit) id => (ctx.table.symbol id, ())) := by
    intro ctx' _ id v hctx hv
    have hagrees := lookSymbol_agrees (ctx.defines.length + 1) _ _ id hctx
    exact ⟨hagrees.2 v hv, hagrees.1⟩
  unfold AsmCtx.resolveUint resolveUintWith
  dsimp only
  cases hv : (exprValue (lookSymbol (ctx.defines.length + 1)) exprMaxDepth ctx s).1 with
  | some v =>
    rw [Table.value, evalWith, (exprValue_follows hback h (Nat.le_refl _) hv).1]
  | none =>
    cases hv' : ctx.table.value s with
    | none => rfl
    | some v =>
      rw [(exprValue_follows h.finds h (Nat.le_refl _) hv').1] at hv
      cases hv

theorem Settled.after_resolveUint (h : ctx.Settled) (s : Text) :
    (ctx.resolveUint s).2.table = ctx.table ∧ (ctx.resolveUint s).2.Settled := by
  have hkeeps := exprValue_keeps (I := AsmCtx.Agrees ctx.table fun _ => false)
    (fun ctx' id hctx => (lookSymbol_agrees (ctx.defines.length + 1) _ ctx' id hctx).1) h
      exprMaxDepth s
  have htable : (ctx.resolveUint s).2.table = ctx.table := hkeeps.table
  refine ⟨htable, ?_⟩
  unfold Settled
  rw [htable]
  exact AsmCtx.Agrees.noteOperand hkeeps s

/-! ### The contexts of the passes -/

/-- The contexts operands are evaluated in: the scan pass leaves a table no define of which has been
evaluated, and from then on only evaluations and the output change it. -/
inductive Reached : AsmCtx → Prop
  | scanned (ctx : AsmCtx) :
  (∀ d ∈ ctx.defines, d.resolved = false ∧ d.visiting = false) → Reached ctx
  | resolve (ctx : AsmCtx) (s : Text) : Reached ctx → Reached (ctx.resolveUint s).2
  | write (ctx : AsmCtx) (out : Program) (line : ℕ) :
    Reached ctx → Reached { ctx with out := out, lineNo := line }

theorem Reached.settled (h : ctx.Reached) : ctx.Settled := by
  induction h with
  | scanned ctx hfresh =>
    refine ⟨rfl, fun id d hd => (hfresh d (List.mem_of_find?_eq_some hd)).2,
      fun id d hd hresolved => ?_⟩
    rw [(hfresh d (List.mem_of_find?_eq_some hd)).1] at hresolved
    cases hresolved
  | resolve ctx s _ ih => exact (ih.after_resolveUint s).2
  | write ctx out line _ ih => exact ih.write out line

end AsmCtx

end PioSim.Asm
