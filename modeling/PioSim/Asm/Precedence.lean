import PioSim.Asm.Reading

/-!
# The documented precedence

A tree printed with parentheses only where its own tier is looser than the place it stands in, and
the value `resolve_uint` returns for it.
-/

namespace PioSim.Asm

/-! ### Printing with the fewest parentheses -/

namespace Tree

/-- The tier of a tree; a unary minus is as loose as `-`. -/
def tier : Tree → ℕ
  | lit _ | sym _ => 0
  | neg _ => 3
  | bin op _ _ => op.tier
  | rev _ => exprTier

/-- The text of a tree where an expression of tier `k` is expected. -/
def print (k : ℕ) : Tree → Text
  | lit l => l.text
  | sym name => name
  | neg t => bracket (3 ≤ k) ('-' :: t.print 2)
  | bin op l r => bracket (op.tier ≤ k) (l.print op.tier ++ (op.text ++ r.print (op.tier - 1)))
  | rev t => bracket (exprTier ≤ k) (':' :: ':' :: t.print exprTier)
where
  bracket (fits : Prop) [Decidable fits] (s : Text) : Text :=
    if fits then s else '(' :: (s ++ [')'])

/-- The nesting of parentheses and `::` in that text. -/
def nesting (k : ℕ) : Tree → ℕ
  | lit _ | sym _ => 0
  | neg t => t.nesting 2 + if 3 ≤ k then 0 else 1
  | bin op l r => max (l.nesting op.tier) (r.nesting (op.tier - 1)) + if op.tier ≤ k then 0 else 1
  | rev t => t.nesting exprTier + 1 + if exprTier ≤ k then 0 else 1

/-- The leaves are literals and names the evaluator can read. -/
def WellFormed : Tree → Prop
  | lit l => l.WellFormed
  | sym name => IsSymbol name
  | neg t => t.WellFormed
  | bin _ l r => l.WellFormed ∧ r.WellFormed
  | rev t => t.WellFormed

end Tree

section Print
variable {t : Tree} {k j : ℕ} {o : Bool} {d : ℕ} {s : Text}

/-- A text of a tier, in parentheses where it is too loose for its place. -/
theorem prints_bracket (h : Prints t j o d s) (hj : j ≤ exprTier) (hk : k ≤ exprTier) :
    Prints t k (decide (j ≤ k) && o) (d + if j ≤ k then 0 else 1)
    (Tree.print.bracket (j ≤ k) s) := by
  unfold Tree.print.bracket
  by_cases hle : j ≤ k
  · rw [if_pos hle, if_pos hle, decide_eq_true hle, Bool.true_and]
    exact h.loosen hle hk
  · rw [if_neg hle, if_neg hle, decide_eq_false hle, Bool.false_and]
    have hparen := Prints.paren t o d s [] [] Blank.nil Blank.nil (h.loosen hj (Nat.le_refl _))
    exact hparen.loosen (Nat.zero_le k) hk

/-- The text with the fewest parentheses is one of the printings, and no unary minus is open in it
where an operator tighter than the minus may follow. -/
theorem prints_print : ∀ (t : Tree), t.WellFormed → ∀ k, k ≤ exprTier →
    ∃ o, (k ≤ 2 → o = false) ∧ Prints t k o (t.nesting k) (t.print k) := by
  intro t
  induction t with
  | lit l =>
    intro h k hk
    exact ⟨false, fun _ => rfl, (Prints.lit l [] Blank.nil h).loosen (Nat.zero_le k) hk⟩
  | sym name =>
    intro h k hk
    exact ⟨false, fun _ => rfl, (Prints.sym name [] Blank.nil h).loosen (Nat.zero_le k) hk⟩
  | neg t ih =>
    intro h k hk
    obtain ⟨o, -, hprint⟩ := ih h 2 (by decide)
    have hneg := (Prints.neg t o _ _ [] Blank.nil hprint).loosen (Nat.zero_le 3) (by decide)
    refine ⟨_, fun hle => ?_, prints_bracket hneg (by decide) hk⟩
    rw [decide_eq_false (by omega), Bool.false_and]
  | bin op l r ihl ihr =>
    intro h k hk
    obtain ⟨hpos, hle⟩ := op.tier_pos
    have h5 : exprTier = 5 := rfl
    obtain ⟨ol, hol, hl⟩ := ihl h.1 op.tier (by omega)
    obtain ⟨or, hor, hr⟩ := ihr h.2 (op.tier - 1) (by omega)
    have hbin := Prints.bin op l r ol or _ _ _ _ [] Blank.nil hol hl hr
    refine ⟨_, fun hk2 => ?_, prints_bracket hbin (by omega) hk⟩
    by_cases hfits : op.tier ≤ k
    · rw [hol (by omega), hor (by omega), Bool.or_false, Bool.and_false]
    · rw [decide_eq_false hfits, Bool.false_and]
  | rev t ih =>
    intro h k hk
    obtain ⟨o, -, hprint⟩ := ih h exprTier (Nat.le_refl _)
    have hrev := Prints.rev t o _ _ [] Blank.nil hprint
    refine ⟨_, fun hle => ?_, prints_bracket hrev (Nat.le_refl _) hk⟩
    rw [decide_eq_false (by have h5 : exprTier = 5 := rfl; omega), Bool.false_and]

end Print

/-! ### The value of a printed expression -/

section Value
variable {ctx : AsmCtx} {t : Tree}

theorem AsmCtx.Reached.symbol (h : ctx.Reached) :
    (fun id => (ctx.lookup id).1) = ctx.table.symbol := funext fun id => h.settled.lookup id

/-- `resolve_uint` on a printed expression returns the low word of the tree's value over what the
symbols resolve to, and rejects it exactly when something in the tree is an error. -/
theorem resolveUint_prints (h : ctx.Reached) {o : Bool} {d : ℕ} {s ws : Text}
    (hprint : Prints t exprTier o d s) (hd : d < exprMaxDepth) (hws : Blank ws) :
    (ctx.resolveUint (s ++ ws)).1 =
        (t.eval fun id => (ctx.lookup id).1).map (·.setWidth 32) ∧
      ((ctx.resolveUint (s ++ ws)).1 = none ↔ t.Faulty fun id => (ctx.lookup id).1) := by
  have hvalue : (ctx.resolveUint (s ++ ws)).1 =
      (t.eval fun id => (ctx.lookup id).1).map (·.setWidth 32) := by
    rw [h.settled.resolveUint, Table.value, hprint.evalWith hd hws, h.symbol]
  refine ⟨hvalue, ?_⟩
  rw [hvalue, Option.map_eq_none_iff, Tree.eval_eq_none_iff]

end Value

/-- A table with the one define `A`, of the text 7. -/
def sevenCtx : AsmCtx :=
  { out := .start, labels := [], lineNo := 1
    defines := [{ name := ['A'], expr := ['7'], value := 0, line := 1, resolved := false
                  visiting := false }] }

def minusTree : Tree := .neg (.bin .and (.lit (.dec ['1'])) (.sym ['A']))

theorem prints_minusTree : Prints minusTree exprTier true 0 "-1 &A".toList := by
  have hone : Prints (.lit (.dec ['1'])) 0 false 0 ['1'] :=
    .lit _ [] Blank.nil ⟨by decide, by decide, by decide⟩
  have hname : Prints (.sym ['A']) 0 false 0 ['A'] :=
    .sym _ [] Blank.nil ⟨⟨'A', [], rfl, by decide⟩, by decide, by decide⟩
  have hand := Prints.bin .and _ _ _ _ _ _ _ _ [' '] (by unfold Blank; decide) (fun _ => rfl)
    (hone.loosen (j := 1) (by decide) (by decide)) hname
  exact (Prints.neg _ _ _ _ [] Blank.nil (hand.loosen (by decide) (by decide))).loosen (by decide)
    (by decide)

theorem resolveUint_prints_minus :
    (sevenCtx.resolveUint ("-1 &A".toList ++ [])).1 =
        (minusTree.eval fun id => (sevenCtx.lookup id).1).map (·.setWidth 32) ∧
      ((sevenCtx.resolveUint ("-1 &A".toList ++ [])).1 = none ↔
        minusTree.Faulty fun id => (sevenCtx.lookup id).1) :=
  resolveUint_prints (.scanned _ (by decide)) prints_minusTree (by decide) Blank.nil

end PioSim.Asm
