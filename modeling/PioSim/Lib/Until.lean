import Mathlib.Logic.Function.Iterate

/-!
# Bounded waiting

A loop that steps until a test holds or its budget is spent. It ends in the first state of the orbit
that passes the test, if the budget reaches that far.
-/

namespace Until

variable {σ : Type*} {stop : σ → Bool} {tick : σ → σ} {P : σ → Prop}

/-- The state at the end, and the number of steps. -/
def loop (stop : σ → Bool) (tick : σ → σ) : ℕ → σ → σ × ℕ
  | 0, s => (s, 0)
  | n + 1, s =>
    if stop s then (s, 0) else ((loop stop tick n (tick s)).1, (loop stop tick n (tick s)).2 + 1)

/-- The loop ends on the orbit, passes no state that stops it, and stops early only at one. -/
theorem loop_first (stop : σ → Bool) (tick : σ → σ) (n : ℕ) (s : σ) :
    (loop stop tick n s).2 ≤ n ∧ (loop stop tick n s).1 = tick^[(loop stop tick n s).2] s ∧
      (∀ k < (loop stop tick n s).2, stop (tick^[k] s) = false) ∧
      ((loop stop tick n s).2 < n → stop (loop stop tick n s).1 = true) := by
  induction n generalizing s with
  | zero => exact ⟨Nat.le_refl 0, rfl, fun k hk => absurd hk (Nat.not_lt_zero k),
      fun h => absurd h (Nat.lt_irrefl 0)⟩
  | succ n ih =>
    unfold loop
    cases hstop : stop s with
    | true => exact ⟨Nat.zero_le _, rfl, fun k hk => absurd hk (Nat.not_lt_zero k), fun _ => hstop⟩
    | false =>
      obtain ⟨hle, horbit, hpassed, hend⟩ := ih (tick s)
      rw [if_neg Bool.false_ne_true]
      refine ⟨Nat.succ_le_succ hle, horbit, fun k hk => ?_,
        fun hlt => hend (Nat.lt_of_succ_lt_succ hlt)⟩
      cases k with
      | zero => exact hstop
      | succ k => exact hpassed k (Nat.lt_of_succ_lt_succ hk)

/-- What a step from a state that does not stop the loop keeps, the loop keeps. -/
theorem loop_keeps (hstep : ∀ s, stop s = false → P s → P (tick s)) (n : ℕ) {s : σ} (hs : P s) :
    P (loop stop tick n s).1 := by
  induction n generalizing s with
  | zero => exact hs
  | succ n ih =>
    unfold loop
    cases hstop : stop s with
    | true => exact hs
    | false =>
      rw [if_neg Bool.false_ne_true]
      exact ih (hstep s hstop hs)

end Until
