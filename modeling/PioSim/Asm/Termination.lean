import PioSim.Asm.Parsing
import PioSim.Asm.Lookups
import PioSim.Asm.Resolution
import Mathlib.Logic.Relation

/-!
# The evaluator returns

`resolve_uint` runs through nine functions that call one another and through the texts of the
defines. Here each call, and each turn of a loop, draws on a budget, and nothing else ends a
recursion: a run that exceeds its budget returns nothing at all. Some budget is always enough. A
define stays marked while its text is evaluated, so that what is not marked bounds the chain of
defines, and the text left to read, the room for nesting and the tier bound everything within one
text.
-/

namespace PioSim.Asm

/-! ### Running on a budget -/

/-- The functions of the evaluator: tier 0 is `expr_primary`, the tiers from 1 to 4 are `expr_bit`,
`expr_mul`, `expr_add` and `expr_shift`, and a turn is one of the loop of the tier above `k`, at its
value so far. The room is what nesting leaves. -/
inductive Proc
  | tier (k room : ℕ)
  | turn (k room : ℕ) (v : Value)
  | reverse (room : ℕ)

/-- How the functions of the evaluator are called, where a call need not return. -/
abbrev Caller := Proc → Expr AsmCtx → Option (Value × Expr AsmCtx)

/-- `resolve_define_value`, and the label where no define is declared, over the evaluation of
texts. -/
def lookOver (resolve : AsmCtx → Text → Option (Option Word × AsmCtx)) (ctx : AsmCtx) (id : Text) :
    Option (Option Word × AsmCtx) :=
  match ctx.findDefine id with
  | none => some ((ctx.findLabel id).map (BitVec.ofNat 32), ctx)
  | some d =>
    if d.resolved then some (some d.value, ctx)
    else if d.visiting then
      some (none, { ctx with lineNo := d.line }.setError
        ("circular .define reference: '" ++ String.ofList d.name ++ "'"))
    else
      (resolve ((ctx.modifyDefine id fun d => { d with visiting := true }).noteDefine id)
          d.expr).map fun r =>
        let ctx := r.2.modifyDefine id fun d => { d with visiting := false }
        match r.1 with
        | none =>
          (none, { ctx with lineNo := d.line }.setError
            ("unresolvable .define '" ++ String.ofList d.name ++ "' (undefined symbol)"))
        | some v => (some v, ctx.modifyDefine id fun d => { d with value := v, resolved := true })

/-- `resolve_uint` over its calls. -/
def resolveOver (call : Caller) (ctx : AsmCtx) (s : Text) : Option (Option Word × AsmCtx) :=
  (call (.reverse exprMaxDepth) { st := ctx, p := s, ok := true }).map fun r =>
    let e := r.2.skipWs
    (if e.ok ∧ e.p = [] then some (r.1.setWidth 32) else none, e.st)

/-- The identifier that `expr_primary` reads, over its calls. -/
def identOver (call : Caller) (e : Expr AsmCtx) : Option (Value × Expr AsmCtx) :=
  if 31 < (e.p.takeWhile isIdentChar).length then some (0, { e with p := e.p.drop 31, ok := false })
  else
    (lookOver (resolveOver call) e.st (e.p.takeWhile isIdentChar)).map fun r =>
      let e := { e with st := r.2, p := e.p.dropWhile isIdentChar }
      match r.1 with
      | none => (0, e.fail)
      | some v => (v.setWidth 64, e)

/-- The bodies of the functions over their calls. -/
def Proc.body (call : Caller) : Caller
  | .tier 0 room, e =>
    match e.skipWs.p with
    | [] => some (0, e.skipWs.fail)
    | c :: p =>
      if c = '-' then (call (.tier 2 room) { e with p := p }).map fun r => (-r.1, r.2)
      else if c = '(' then
        (call (.reverse room) { e with p := p }).map fun r =>
          match r.2.skipWs.p with
          | ')' :: p => (r.1, { r.2 with p := p })
          | _ => (r.1, r.2.skipWs.fail)
      else if isDigit c then some (exprNumber e.skipWs)
      else if isIdentStart c then identOver call e.skipWs
      else some (0, e.skipWs.fail)
  | .tier (k + 1) room, e => (call (.tier k room) e).bind fun r => call (.turn k room r.1) r.2
  | .turn k room v, e =>
    match tierOp (k + 1) e.skipWs.p with
    | none => some (v, e.skipWs)
    | some (o, p) =>
      (call (.tier k room) { e.skipWs with p := p }).bind fun r =>
        call (.turn k room (Expr.applyOp o v r.1 r.2).1) (Expr.applyOp o v r.1 r.2).2
  | .reverse 0, e => some (0, e.fail)
  | .reverse (room + 1), e =>
    match e.skipWs.p with
    | ':' :: ':' :: p =>
      (call (.reverse room) { e with p := p }).map fun r =>
        ((reverse32 (r.1.setWidth 32)).setWidth 64, r.2)
    | _ => call (.tier 4 room) e.skipWs

/-- A call on a budget, which bounds how deep the calls within it may go. -/
def within : ℕ → Caller
  | 0, _, _ => none
  | n + 1, f, e => f.body (within n) e

/-- The call returns, and on every budget from some one on it returns just this. -/
def Returned (f : Proc) (e : Expr AsmCtx) (r : Value × Expr AsmCtx) : Prop :=
  ∃ n, ∀ m, n ≤ m → within m f e = some r

/-- A lookup returns from some budget on. -/
def LooksUp (ctx : AsmCtx) (id : Text) (r : Option Word × AsmCtx) : Prop :=
  ∃ n, ∀ m, n ≤ m → lookOver (resolveOver (within m)) ctx id = some r

namespace Returned

variable {e e₁ : Expr AsmCtx} {r : Value × Expr AsmCtx} {k room : ℕ} {v : Value}

theorem of_body {f : Proc} (n : ℕ) (h : ∀ m, n ≤ m → f.body (within m) e = some r) :
    Returned f e r := by
  refine ⟨n + 1, fun m hm => ?_⟩
  obtain ⟨m, rfl⟩ : ∃ k, m = k + 1 := ⟨m - 1, by omega⟩
  exact h m (by omega)

theorem tier (h : Returned (.tier k room) e (v, e₁)) (h' : Returned (.turn k room v) e₁ r) :
    Returned (.tier (k + 1) room) e r := by
  obtain ⟨n, hn⟩ := h
  obtain ⟨n', hn'⟩ := h'
  refine of_body (max n n') fun m hm => ?_
  rw [Proc.body, hn m (by omega), Option.bind_some]
  exact hn' m (by omega)

theorem stop (h : tierOp (k + 1) e.skipWs.p = none) : Returned (.turn k room v) e (v, e.skipWs) :=
  of_body 0 fun m _ => by rw [Proc.body, h]

theorem turn {o : BinOp} {p : Text} {w : Value} (h : tierOp (k + 1) e.skipWs.p = some (o, p))
    (hoperand : Returned (.tier k room) { e.skipWs with p := p } (w, e₁))
    (hrest : Returned (.turn k room (Expr.applyOp o v w e₁).1) (Expr.applyOp o v w e₁).2 r) :
    Returned (.turn k room v) e r := by
  obtain ⟨n, hn⟩ := hoperand
  obtain ⟨n', hn'⟩ := hrest
  refine of_body (max n n') fun m hm => ?_
  rw [Proc.body, h]
  simp only
  rw [hn m (by omega), Option.bind_some]
  exact hn' m (by omega)

end Returned

/-! ### Within one text -/

/-- On texts up to a length, from states of the invariant, the function returns what the reader
does, and the invariant is kept. -/
def Answered (I : AsmCtx → Prop) (n : ℕ) (f : Proc) (g : Reader AsmCtx) : Prop :=
  ∀ e, e.p.length ≤ n → I e.st → Returned f e (g e) ∧ I (g e).2.st

section Answered
variable {I : AsmCtx → Prop} {n k room : ℕ} {g : Reader AsmCtx}

/-- The loop of a tier reads an operator at each turn. -/
theorem Answered.turns (h : Answered I n (.tier k room) g) (hg : Shrinks g) :
    ∀ (l : ℕ) (v : Value) (e : Expr AsmCtx), e.p.length ≤ l → e.p.length ≤ n → I e.st →
      Returned (.turn k room v) e ((Expr.tier (tierOp (k + 1))).loop g l v e) ∧
        I ((Expr.tier (tierOp (k + 1))).loop g l v e).2.st := by
  have hconsumes := Expr.tier_consumes (tierOp_shortens (k + 1)) hg
  intro l
  induction l with
  | zero =>
    intro v e hl _ hI
    have hskip := e.length_skipWs
    have hstop : tierOp (k + 1) e.skipWs.p = none := by
      rw [List.eq_nil_of_length_eq_zero (by omega : e.skipWs.p.length = 0), tierOp_nil]
    exact ⟨.stop hstop, hI⟩
  | succ l ih =>
    intro v e hl hn hI
    cases hop : tierOp (k + 1) e.skipWs.p with
    | none =>
      have hnext : (Expr.tier (tierOp (k + 1))).next
          ((Expr.tier (tierOp (k + 1))).skip e) = none := by
        simp only [Expr.tier, hop, Option.map_none]
      rw [Chain.Tier.loop_of_stop _ hnext]
      exact ⟨.stop hop, hI⟩
    | some op =>
      obtain ⟨o, p⟩ := op
      have hnext : (Expr.tier (tierOp (k + 1))).next ((Expr.tier (tierOp (k + 1))).skip e) =
          some (o, { e.skipWs with p := p }) := by
        simp only [Expr.tier, hop, Option.map_some]
      have hskip := e.length_skipWs
      have hshort := tierOp_shortens (k + 1) _ _ _ hop
      have hlen : ({ e.skipWs with p := p } : Expr AsmCtx).p.length < e.p.length := by
        simp only
        omega
      obtain ⟨hoperand, hI'⟩ := h { e.skipWs with p := p } (by omega) hI
      have hshrink := hg { e.skipWs with p := p }
      obtain ⟨hp, hst⟩ := Expr.applyOp_p o v (g { e.skipWs with p := p }).1
        (g { e.skipWs with p := p }).2
      have hrest :=
        ih (Expr.applyOp o v (g { e.skipWs with p := p }).1 (g { e.skipWs with p := p }).2).1
        (Expr.applyOp o v (g { e.skipWs with p := p }).1 (g { e.skipWs with p := p }).2).2
        (by rw [hp]; omega) (by rw [hp]; omega) (by rw [hst]; exact hI')
      rw [Chain.Tier.loop_of_next hnext]
      exact ⟨.turn hop hoperand hrest.1, hrest.2⟩

theorem Answered.readAt (h : Answered I n (.tier 0 room) g) (hg : Shrinks g) (k : ℕ) :
    Answered I n (.tier k room) (readAt g k) := by
  induction k with
  | zero => exact h
  | succ k ih =>
    intro e hn hI
    have hshrink := shrinks_readAt hg k
    obtain ⟨hoperand, hI'⟩ := ih e hn hI
    have hloop := ih.turns hshrink (Asm.readAt g k e).2.p.length (Asm.readAt g k e).1 _
      (Nat.le_refl _)
      (Nat.le_trans (hshrink e) hn) hI'
    exact ⟨.tier hoperand hloop.1, hloop.2⟩

/-- Each `::` takes some of the room. -/
theorem Answered.reverse {g : ℕ → Reader AsmCtx} (h : ∀ room, Answered I n (.tier 0 room) (g room))
    (hg : ∀ room, Shrinks (g room)) :
    ∀ room, Answered I n (.reverse room) (exprReverse g room) := by
  intro room
  induction room with
  | zero => exact fun e _ hI => ⟨.of_body 0 fun m _ => rfl, hI⟩
  | succ room ih =>
    intro e hn hI
    have hskip := e.length_skipWs
    by_cases hcolons : ∃ p, e.skipWs.p = ':' :: ':' :: p
    · obtain ⟨p, hp⟩ := hcolons
      rw [hp, List.length_cons, List.length_cons] at hskip
      obtain ⟨⟨k, hk⟩, hI'⟩ := ih { e with p := p } (by simp only; omega) hI
      rw [exprReverse_colons hp]
      refine ⟨.of_body k fun m hm => ?_, hI'⟩
      rw [Proc.body, hp]
      simp only
      rw [hk m hm]
      rfl
    · have hnone : ∀ p, e.skipWs.p ≠ ':' :: ':' :: p := fun p hp => hcolons ⟨p, hp⟩
      obtain ⟨⟨k, hk⟩, hI'⟩ := (h room).readAt (hg room) 4 e.skipWs (by omega) hI
      rw [exprReverse_shift hnone]
      refine ⟨.of_body k fun m hm => ?_, hI'⟩
      rw [Proc.body]
      split
      · rename_i p hp
        exact absurd hp (hnone p)
      · exact hk m hm

variable {look : AsmCtx → Text → Option Word × AsmCtx}

theorem identOver_eq {call : Caller} {e : Expr AsmCtx}
    (h : lookOver (resolveOver call) e.st (e.p.takeWhile isIdentChar) =
      some (look e.st (e.p.takeWhile isIdentChar))) :
    identOver call e = some (exprIdent look e) := by
  unfold identOver exprIdent
  dsimp only
  split
  · rfl
  · rw [h]
    rfl

/-- `expr_primary` goes on behind the character it has read, or looks a symbol up. -/
theorem answered_primary
    (hlook : ∀ ctx id, I ctx → LooksUp ctx id (look ctx id) ∧ I (look ctx id).2) :
    ∀ n room, Answered I n (.tier 0 room) (exprPrim look room) := by
  intro n
  induction n with
  | zero =>
    intro room e hn hI
    have hskip := e.length_skipWs
    have hp : e.skipWs.p = [] := List.eq_nil_of_length_eq_zero (by omega)
    rw [exprPrim_nil hp]
    refine ⟨.of_body 0 fun m _ => ?_, hI⟩
    rw [Proc.body, hp]
  | succ n ih =>
    intro room e hn hI
    have hskip := e.length_skipWs
    cases hp : e.skipWs.p with
    | nil =>
      rw [exprPrim_nil hp]
      refine ⟨.of_body 0 fun m _ => ?_, hI⟩
      rw [Proc.body, hp]
    | cons c p =>
      rw [hp, List.length_cons] at hskip
      have htail : ({ e with p := p } : Expr AsmCtx).p.length ≤ n := by
        simp only
        omega
      rw [exprPrim_eq hp]
      by_cases hminus : c = '-'
      · obtain ⟨⟨k, hk⟩, hI'⟩ :=
          (ih room).readAt (shrinks_exprPrim look room) 2 { e with p := p } htail hI
        rw [if_pos hminus]
        refine ⟨.of_body k fun m hm => ?_, hI'⟩
        rw [Proc.body, hp]
        simp only
        rw [if_pos hminus, hk m hm]
        rfl
      rw [if_neg hminus]
      by_cases hparen : c = '('
      · obtain ⟨⟨k, hk⟩, hI'⟩ :=
          Answered.reverse ih (shrinks_exprPrim look) room { e with p := p } htail hI
        rw [if_pos hparen]
        refine ⟨.of_body k fun m hm => ?_, ?_⟩
        · rw [Proc.body, hp]
          simp only
          rw [if_neg hminus, if_pos hparen, hk m hm]
          rfl
        · dsimp only
          split <;> exact hI'
      rw [if_neg hparen]
      by_cases hdigit : isDigit c = true
      · rw [if_pos hdigit]
        refine ⟨.of_body 0 fun m _ => ?_, ?_⟩
        · rw [Proc.body, hp]
          simp only
          rw [if_neg hminus, if_neg hparen, if_pos hdigit]
        · unfold exprNumber
          dsimp only
          split <;> exact hI
      rw [if_neg hdigit]
      by_cases hident : isIdentStart c = true
      · obtain ⟨⟨k, hk⟩, hI'⟩ := hlook e.st (e.skipWs.p.takeWhile isIdentChar) hI
        rw [if_pos hident]
        refine ⟨.of_body k fun m hm => ?_, ?_⟩
        · rw [Proc.body, hp]
          simp only
          rw [if_neg hminus, if_neg hparen, if_neg hdigit, if_pos hident]
          exact identOver_eq (hk m hm)
        · unfold exprIdent
          dsimp only
          split
          · exact hI
          · split <;> exact hI'
      · rw [if_neg hident]
        refine ⟨.of_body 0 fun m _ => ?_, hI⟩
        rw [Proc.body, hp]
        simp only
        rw [if_neg hminus, if_neg hparen, if_neg hdigit, if_neg hident]

/-- `resolve_uint` returns once the lookups do. -/
theorem resolveOver_returns
    (hlook : ∀ ctx id, I ctx → LooksUp ctx id (look ctx id) ∧ I (look ctx id).2)
    {ctx : AsmCtx} (hI : I ctx) (s : Text) :
    ∃ n, ∀ m, n ≤ m → resolveOver (within m) ctx s = some (resolveUintWith look ctx s) := by
  obtain ⟨⟨n, hn⟩, -⟩ := Answered.reverse (answered_primary hlook s.length)
    (shrinks_exprPrim look) exprMaxDepth
    ⟨ctx, s, true⟩ (Nat.le_refl _) hI
  refine ⟨n, fun m hm => ?_⟩
  rw [resolveOver, hn m hm, Option.map_some, resolveUintWith, exprValue, exprValue_eq]
  dsimp only
  split <;> rfl

end Answered

/-! ### The marks -/

def AsmCtx.marks (ctx : AsmCtx) : List (Text × Bool) :=
  ctx.defines.map fun d => (d.name, d.visiting)

def AsmCtx.unvisited (ctx : AsmCtx) : ℕ := ctx.marks.countP fun m => !m.2

def setMark (name : Text) (on : Bool) : List (Text × Bool) → List (Text × Bool)
  | [] => []
  | m :: ms => if m.1 = name then (m.1, on) :: ms else m :: setMark name on ms

/-- Marking an unmarked define makes one fewer of them, and taking the mark off brings all back. -/
theorem setMark_spec {name : Text} {ms : List (Text × Bool)} {m : Text × Bool}
    (h : ms.find? (·.1 = name) = some m) (hm : m.2 = false) :
    (setMark name true ms).countP (fun m => !m.2) + 1 = ms.countP (fun m => !m.2) ∧
      setMark name false (setMark name true ms) = ms := by
  induction ms with
  | nil => cases h
  | cons a ms ih =>
    rw [List.find?_cons] at h
    rw [setMark]
    by_cases ha : a.1 = name
    · simp only [ha, decide_true, Option.some.injEq] at h
      subst h
      rw [if_pos ha]
      constructor
      · simp [hm]
      · rw [setMark, if_pos ha, ← hm]
    · simp only [ha, decide_false] at h
      obtain ⟨hcount, hback⟩ := ih h
      rw [if_neg ha]
      constructor
      · rw [List.countP_cons, List.countP_cons]
        omega
      · rw [setMark, if_neg ha, hback]

namespace AsmCtx

variable {ctx : AsmCtx} {id : Text}

theorem find_marks (ctx : AsmCtx) (id : Text) :
    ctx.marks.find? (·.1 = id) = (ctx.findDefine id).map fun d => (d.name, d.visiting) := by
  rw [marks, findDefine, List.find?_map]
  rfl

theorem marks_mark (ctx : AsmCtx) (name : Text) (on : Bool) :
    (ctx.modifyDefine name fun d => { d with visiting := on }).marks =
      setMark name on ctx.marks := by
  unfold marks modifyDefine
  simp only
  induction ctx.defines with
  | nil => rfl
  | cons d l ih =>
    unfold modifyDefine.modifyFirst
    rw [List.map_cons, setMark]
    split
    · rfl
    · rw [List.map_cons, ih]

theorem marks_remember (ctx : AsmCtx) (name : Text) (v : Word) :
    (ctx.modifyDefine name fun d => { d with value := v, resolved := true }).marks = ctx.marks := by
  unfold marks modifyDefine
  simp only
  induction ctx.defines with
  | nil => rfl
  | cons d l ih =>
    unfold modifyDefine.modifyFirst
    split
    · rfl
    · rw [List.map_cons, List.map_cons, ih]

theorem marks_setError (ctx : AsmCtx) (msg : String) : (ctx.setError msg).marks = ctx.marks := by
  unfold setError
  split <;> rfl

/-- A lookup takes off the marks it sets. -/
theorem marks_lookSymbol : ∀ (fuel : ℕ) (ctx : AsmCtx)
    (id : Text), (lookSymbol fuel ctx id).2.marks = ctx.marks := by
  intro fuel
  induction fuel with
  | zero => exact fun _ _ => rfl
  | succ fuel ih =>
    intro ctx id
    rw [lookSymbol]
    cases hd : ctx.findDefine id with
    | none => rfl
    | some d =>
      dsimp only
      split_ifs with hresolved hvisiting
      · rfl
      · exact marks_setError _ _
      · have hfind : ctx.marks.find? (·.1 = id) = some (d.name, d.visiting) := by
          rw [find_marks, hd]
          rfl
        have hkeeps := exprValue_keeps
          (I := fun c => c.marks =
            ((ctx.modifyDefine id fun d => { d with visiting := true }).noteDefine id).marks)
          (fun c id' hc => (ih c id').trans hc) rfl exprMaxDepth d.expr
        have hback : ∀ c : AsmCtx,
            c.marks = ((ctx.modifyDefine id fun d => { d with visiting := true }).noteDefine
              id).marks →
            (c.modifyDefine id fun d => { d with visiting := false }).marks = ctx.marks := by
          intro c hc
          have hmarked : c.marks = setMark id true ctx.marks := hc.trans (marks_mark ctx id true)
          rw [marks_mark, hmarked, (setMark_spec hfind (Bool.eq_false_iff.mpr hvisiting)).2]
        split
        · exact (marks_setError _ _).trans (hback _ hkeeps)
        · exact (marks_remember _ _ _).trans (hback _ hkeeps)

theorem marks_resolveUint (ctx : AsmCtx) (s : Text) : (ctx.resolveUint s).2.marks = ctx.marks :=
  exprValue_keeps (I := fun c => c.marks = ctx.marks)
    (fun c id hc => (marks_lookSymbol (ctx.defines.length + 1) c id).trans hc) rfl exprMaxDepth s

/-- A lookup returns what the fuelled one does, as soon as that has fuel for the defines not
marked. -/
theorem lookSymbol_returns : ∀ (fuel : ℕ) (ctx : AsmCtx) (id : Text), ctx.unvisited < fuel →
    LooksUp ctx id (lookSymbol fuel ctx id) := by
  intro fuel
  induction fuel with
  | zero => exact fun _ _ h => absurd h (Nat.not_lt_zero _)
  | succ fuel ih =>
    intro ctx id hfuel
    unfold LooksUp lookOver
    rw [lookSymbol]
    cases hd : ctx.findDefine id with
    | none => exact ⟨0, fun _ _ => rfl⟩
    | some d =>
      dsimp only
      split_ifs with hresolved hvisiting
      · exact ⟨0, fun _ _ => rfl⟩
      · exact ⟨0, fun _ _ => rfl⟩
      · have hfind : ctx.marks.find? (·.1 = id) = some (d.name, d.visiting) := by
          rw [find_marks, hd]
          rfl
        obtain ⟨marked, hmarked⟩ :
          ∃ c, (ctx.modifyDefine id fun d => { d with visiting := true }).noteDefine id =
            c := ⟨_, rfl⟩
        have hmarks : marked.marks = setMark id true ctx.marks := by
          rw [← hmarked]
          exact marks_mark ctx id true
        have hfewer : marked.unvisited < fuel := by
          have hcount := (setMark_spec hfind (Bool.eq_false_iff.mpr hvisiting)).1
          rw [unvisited, hmarks]
          unfold unvisited at hfuel
          omega
        obtain ⟨n, hn⟩ := resolveOver_returns (I := fun c => c.marks = marked.marks)
          (fun c id' hc =>
            ⟨ih c id' (by rw [unvisited, hc]; exact hfewer),
            (marks_lookSymbol fuel c id').trans hc⟩)
          rfl d.expr
        refine ⟨n, fun m hm => ?_⟩
        rw [hmarked, hn m hm, Option.map_some] <;> split <;> rename_i hvalue <;> rw [hvalue]

/-! ### Circular references -/

/-- The define of `id` has to be evaluated, and its text looks `id'` up. -/
def Refers (ctx : AsmCtx) (id id' : Text) : Prop :=
  ∃ d, ctx.findDefine id = some d ∧ d.resolved = false ∧ id' ∈ symbolsOf d.expr

def Visiting (ctx : AsmCtx) (id : Text) : Prop :=
  ∃ d, ctx.findDefine id = some d ∧ d.resolved = false ∧ d.visiting = true

/-- References lead from `id` to a define that is being resolved when they reach it: it was so from
the start, or they have come through it before. -/
def Circular (ctx : AsmCtx) (id : Text) : Prop :=
  ∃ id', Relation.ReflTransGen ctx.Refers id id' ∧
    (ctx.Visiting id' ∨ Relation.TransGen ctx.Refers id' id')

/-- Defines without values, each being resolved or looking up another of them. -/
def Trapped (B : Text → Prop) (ctx : AsmCtx) : Prop :=
  ∀ id, B id → ∃ d, ctx.findDefine id = some d ∧ d.resolved = false ∧
    (d.visiting = true ∨ ∃ id' ∈ symbolsOf d.expr, B id')

theorem trapped_circular (ctx : AsmCtx) : ctx.Trapped ctx.Circular := by
  rintro id ⟨id', hpath, hend⟩
  rcases Relation.ReflTransGen.cases_head hpath with rfl | ⟨c, ⟨d, hd, hresolved, hmem⟩, hrest⟩
  · rcases hend with ⟨d, hd, hresolved, hvisiting⟩ | hcycle
    · exact ⟨d, hd, hresolved, .inl hvisiting⟩
    · obtain ⟨c, ⟨d, hd, hresolved, hmem⟩, hrest⟩ := Relation.TransGen.head'_iff.mp hcycle
      exact ⟨d, hd, hresolved, .inr ⟨c, hmem, id, hrest, .inr hcycle⟩⟩
  · exact ⟨d, hd, hresolved, .inr ⟨c, hmem, id', hrest, hend⟩⟩

/-- An evaluation fails that looks up a symbol whose lookups fail. -/
theorem value_of_trapped {I : AsmCtx → Prop} {B : Text → Prop}
    {look : AsmCtx → Text → Option Word × AsmCtx}
    (h : ∀ ctx id, I ctx → I (look ctx id).2 ∧ (B id → (look ctx id).1 = none))
    (hI : I ctx) {s : Text} (hid : id ∈ symbolsOf s) (hB : B id) :
    (exprValue look exprMaxDepth ctx s).1 = none := by
  cases hv : (exprValue look exprMaxDepth ctx s).1 with
  | none => rfl
  | some v =>
    exfalso
    -- the same evaluation, with the symbols it has found
    have hfinds :
      Finds (fun (c : AsmCtx) (u : AsmCtx × List Text) => u.1 = c ∧ I c ∧ ∀ id ∈ u.2, ¬ B id) look
        (fun u id => ((look u.1 id).1, (look u.1 id).2, u.2 ++ [id])) := by
      rintro c ⟨_, l⟩ id w ⟨rfl, hc, hl⟩ hw
      refine ⟨hw, rfl, (h _ id hc).1, fun id' hmem hB' => ?_⟩
      rcases List.mem_append.mp hmem with hmem | hmem
      · exact hl id' hmem hB'
      · rw [List.mem_singleton.mp hmem] at hB'
        rw [(h _ id hc).2 hB'] at hw
        cases hw
    have hfound :=
      (exprValue_follows (t := (ctx, [])) hfinds ⟨rfl, hI, fun _ h => absurd h List.not_mem_nil⟩
      (Nat.le_refl _) hv).2
    have hlook : ∀ (u : AsmCtx × List Text) (l : List Text) id, u.2 = l →
        (((look u.1 id).1, (look u.1 id).2, u.2 ++ [id]) : Option Word × AsmCtx × List Text).2.2 =
          (noteSymbol l id).2 := by
      rintro u _ id rfl
      rfl
    have hsame :=
      exprValue_tracks (R := fun (u : AsmCtx × List Text) (l : List Text) => u.2 = l) hlook
      (s := (ctx, [])) rfl exprMaxDepth s
    refine hfound.2.2 id ?_ hB
    rw [hsame]
    exact hid

theorem defines_setError (ctx : AsmCtx) (msg : String) :
    (ctx.setError msg).defines = ctx.defines ∧ (ctx.setError msg).table = ctx.table := by
  unfold setError
  split <;> exact ⟨rfl, rfl⟩

theorem Trapped.congr {B : Text → Prop} {ctx' : AsmCtx} (h : ctx.Trapped B)
    (hd : ctx'.defines = ctx.defines) :
    ctx'.Trapped B := by
  intro id hB
  unfold findDefine
  rw [hd]
  exact h id hB

/-- A define outside the set may be given a value; one of the set that looks up another may be
marked, or its mark taken off. -/
theorem Trapped.modifyDefine {B : Text → Prop} {f : Define → Define} (h : ctx.Trapped B)
    (hf : ∀ d, (f d).name = d.name) {name : Text}
    (hname : B name → ∀ d, ctx.findDefine name = some d →
      (f d).resolved = false ∧ ((f d).visiting = true ∨ ∃ id' ∈ symbolsOf (f d).expr, B id')) :
    (ctx.modifyDefine name f).Trapped B := by
  intro id hB
  rw [findDefine_modifyDefine hf]
  obtain ⟨d, hd, hresolved, hnext⟩ := h id hB
  by_cases hid : id = name
  · subst hid
    rw [if_pos rfl, hd]
    exact ⟨f d, rfl, hname hB d hd⟩
  · rw [if_neg hid]
    exact ⟨d, hd, hresolved, hnext⟩

/-- The defines of a trapped set are not found, and it stays trapped. -/
theorem lookSymbol_trapped {B : Text → Prop} :
    ∀ (fuel : ℕ) (ctx : AsmCtx) (id : Text), ctx.Trapped B →
    ((lookSymbol fuel ctx id).2.Trapped B ∧ (lookSymbol fuel ctx id).2.table = ctx.table) ∧
      (B id → (lookSymbol fuel ctx id).1 = none) := by
  intro fuel
  induction fuel with
  | zero => exact fun _ _ h => ⟨⟨h, rfl⟩, fun _ => rfl⟩
  | succ fuel ih =>
    intro ctx id h
    rw [lookSymbol]
    cases hd : ctx.findDefine id with
    | none =>
      refine ⟨⟨h, rfl⟩, fun hB => ?_⟩
      obtain ⟨d, hd', -⟩ := h id hB
      rw [hd] at hd'
      cases hd'
    | some d =>
      dsimp only
      by_cases hresolved : d.resolved = true
      · rw [if_pos hresolved]
        refine ⟨⟨h, rfl⟩, fun hB => ?_⟩
        obtain ⟨d', hd', hunresolved, -⟩ := h id hB
        rw [hd, Option.some.injEq] at hd'
        rw [← hd', hresolved] at hunresolved
        cases hunresolved
      rw [if_neg hresolved]
      by_cases hvisiting : d.visiting = true
      · rw [if_pos hvisiting]
        obtain ⟨hdefines, htable⟩ := defines_setError { ctx with lineNo := d.line }
          ("circular .define reference: '" ++ String.ofList d.name ++ "'")
        exact ⟨⟨h.congr hdefines, htable⟩, fun _ => rfl⟩
      rw [if_neg hvisiting]
      -- a define of the set looks up another of the set
      have hnext : B id → ∃ id' ∈ symbolsOf d.expr, B id' := by
        intro hB
        obtain ⟨d', hd', -, hstuck⟩ := h id hB
        rw [hd, Option.some.injEq] at hd'
        subst hd'
        exact hstuck.resolve_left hvisiting
      obtain ⟨marked, hmarked⟩ :
        ∃ c, (ctx.modifyDefine id fun d => { d with visiting := true }).noteDefine id =
          c := ⟨_, rfl⟩
      have hstart : marked.Trapped B ∧ marked.table = ctx.table := by
        rw [← hmarked]
        have hset : (ctx.modifyDefine id fun d => { d with visiting := true }).Trapped B := by
          refine h.modifyDefine (f := fun d => { d with visiting := true }) (fun _ => rfl)
            fun hB d' hd' => ?_
          rw [hd, Option.some.injEq] at hd'
          subst hd'
          exact ⟨Bool.eq_false_iff.mpr hresolved, .inl rfl⟩
        have htable :
            (ctx.modifyDefine id fun d => { d with visiting := true }).table = ctx.table :=
          table_modifyDefine (f := fun d => { d with visiting := true }) (fun _ => ⟨rfl, rfl⟩) id
        exact ⟨hset.congr rfl, htable⟩
      rw [hmarked]
      have hlook : ∀ c id', (c.Trapped B ∧ c.table = ctx.table) →
          ((lookSymbol fuel c id').2.Trapped B ∧ (lookSymbol fuel c id').2.table = ctx.table) ∧
            (B id' → (lookSymbol fuel c id').1 = none) :=
        fun c id' hc => ⟨⟨(ih c id' hc.1).1.1, (ih c id' hc.1).1.2.trans hc.2⟩, (ih c id' hc.1).2⟩
      have hkeeps := exprValue_keeps (I := fun c => c.Trapped B ∧ c.table = ctx.table)
        (fun c id' hc => (hlook c id' hc).1) hstart exprMaxDepth d.expr
      have hfails : B id → (resolveUintWith (lookSymbol fuel) marked d.expr).1 = none := by
        intro hB
        obtain ⟨id', hmem, hB'⟩ := hnext hB
        rw [resolveUintWith, value_of_trapped hlook hstart hmem hB']
        rfl
      obtain ⟨after, hafter⟩ : ∃ c, (resolveUintWith (lookSymbol fuel) marked d.expr).2 =
        c := ⟨_, rfl⟩
      have hback : (after.modifyDefine id fun d => { d with visiting := false }).Trapped B ∧
          (after.modifyDefine id fun d => { d with visiting := false }).table = ctx.table := by
        have hkept : after.Trapped B ∧ after.table = ctx.table := hafter ▸ hkeeps
        refine ⟨hkept.1.modifyDefine (f := fun d => { d with visiting := false }) (fun _ => rfl)
          fun hB d' hd' => ?_,
          (table_modifyDefine (f := fun d => { d with visiting := false }) (fun _ => ⟨rfl, rfl⟩) id).trans hkept.2⟩
        obtain ⟨d'', hd'', hunresolved, -⟩ := hkept.1 id hB
        rw [hd', Option.some.injEq] at hd''
        subst hd''
        have htext : (after.table.text id) = ctx.table.text id := by rw [hkept.2]
        rw [table_text, table_text, hd', hd] at htext
        have hexpr : d'.expr = d.expr := Option.some.inj htext
        exact ⟨hunresolved, .inr (by rw [hexpr]; exact hnext hB)⟩
      rw [hafter]
      split
      · obtain ⟨hdefines, htable⟩ := defines_setError
          { after.modifyDefine id fun d => { d with visiting := false } with lineNo := d.line }
          ("unresolvable .define '" ++ String.ofList d.name ++ "' (undefined symbol)")
        exact ⟨⟨hback.1.congr hdefines, htable.trans hback.2⟩, fun _ => rfl⟩
      · rename_i v hv
        have hout : ¬ B id := by
          intro hB
          rw [hfails hB] at hv
          cases hv
        refine ⟨⟨hback.1.modifyDefine (f := fun d => { d with value := v, resolved := true })
          (fun _ => rfl)
          fun hB => absurd hB hout, ?_⟩, fun hB => absurd hB hout⟩
        exact (table_modifyDefine (f := fun d => { d with value := v, resolved := true })
          (fun _ => ⟨rfl, rfl⟩) id).trans hback.2

/-- `resolve_uint` returns, from any context and for any text; every mark is then as it was; and it
fails if a symbol of the text leads to a define that is being resolved, which no call is made
for. -/
theorem resolve_returns (ctx : AsmCtx) (s : Text) :
    (∃ n, ∀ m, n ≤ m → (resolveOver (within m) ctx s).map (fun r => (r.1, r.2.noteOperand s)) =
        some (ctx.resolveUint s)) ∧
      (ctx.resolveUint s).2.marks = ctx.marks ∧
      (∀ id ∈ symbolsOf s, ctx.Circular id → (ctx.resolveUint s).1 = none) ∧
      ∀ id, ctx.Visiting id → ∃ ctx', lookOver (fun _ _ => none) ctx id = some (none, ctx') := by
  have hall : ∀ c : AsmCtx, c.marks = ctx.marks → c.unvisited < ctx.defines.length + 1 := by
    intro c hc
    have hle : ctx.unvisited ≤ ctx.marks.length := List.countP_le_length
    rw [marks, List.length_map] at hle
    have hsame : c.unvisited = ctx.unvisited := by rw [unvisited, hc, unvisited]
    omega
  refine ⟨?_, marks_resolveUint ctx s, fun id hid hcircular => ?_, fun id hvisiting => ?_⟩
  · obtain ⟨n, hn⟩ := resolveOver_returns (I := fun c => c.marks = ctx.marks)
      (fun c id hc => ⟨lookSymbol_returns _ c id (hall c hc), (marks_lookSymbol _ c id).trans hc⟩)
        rfl s
    refine ⟨n, fun m hm => ?_⟩
    rw [hn m hm]
    rfl
  · have hfails := value_of_trapped (I := fun c => c.Trapped ctx.Circular)
      (fun c id hc => ⟨(lookSymbol_trapped (ctx.defines.length + 1) c id hc).1.1,
        (lookSymbol_trapped (ctx.defines.length + 1) c id hc).2⟩) (trapped_circular ctx)
          hid hcircular
    rw [AsmCtx.resolveUint, resolveUintWith, hfails]
    rfl
  · obtain ⟨d, hd, hresolved, hmarked⟩ := hvisiting
    refine ⟨{ ctx with lineNo := d.line }.setError
      ("circular .define reference: '" ++ String.ofList d.name ++ "'"), ?_⟩
    rw [lookOver, hd]
    simp only
    rw [if_neg (Bool.eq_false_iff.mp hresolved), if_pos hmarked]

/-- Two defines that refer to each other. -/
theorem resolve_returns_cycle :
    let ctx : AsmCtx :=
      { out := Program.start, labels := [], lineNo := 1
        defines := [⟨"A".toList, "B+1".toList, 0, 1, false, false⟩,
          ⟨"B".toList, "-A".toList, 0, 2, false, false⟩] }
    (ctx.resolveUint "2*A".toList).1 = none ∧ (ctx.resolveUint "2*A".toList).2.marks =
        ctx.marks := by
  intro ctx
  have hreturns := resolve_returns ctx "2*A".toList
  have hto : ctx.Refers "A".toList "B".toList := ⟨_, rfl, rfl, by decide +kernel⟩
  have hback : ctx.Refers "B".toList "A".toList := ⟨_, rfl, rfl, by decide +kernel⟩
  refine ⟨hreturns.2.2.1 "A".toList (by decide +kernel) ?_, hreturns.2.1⟩
  exact ⟨"A".toList, .refl, .inr (.tail (.single hto) hback)⟩

end AsmCtx

end PioSim.Asm
