import Mathlib.Data.Nat.Notation
import Mathlib.Logic.Basic

/-!
# Registers with set and clear writes

A write names places of a register by a mask and sets all of them or clears all of them. After a run
of writes each place holds what the last write that names it said, or what it held before when none
does.
-/

namespace Latch

variable {n : ℕ} {σ ε : Type*}

structure Write (n : ℕ) where
  mask : BitVec n
  on : Bool

def Write.apply (u : Write n) (x : BitVec n) : BitVec n :=
  if u.on then x ||| u.mask else x &&& ~~~ u.mask

/-- What the writes `us` say about place `k`, which holds `v` before them. -/
def last (k : ℕ) (us : List (Write n)) (v : Bool) : Bool :=
  us.foldl (fun v u => if u.mask.getLsbD k then u.on else v) v

theorem getLsbD_apply (u : Write n) (x : BitVec n) (k : ℕ) :
    (u.apply x).getLsbD k = if u.mask.getLsbD k then u.on else x.getLsbD k := by
  unfold Write.apply
  cases hon : u.on with
  | true =>
    rw [if_pos rfl, BitVec.getLsbD_or]
    cases u.mask.getLsbD k <;> simp
  | false =>
    rw [if_neg Bool.false_ne_true, BitVec.getLsbD_and, BitVec.getLsbD_not]
    by_cases hk : k < n
    · cases u.mask.getLsbD k <;> simp [hk]
    · rw [BitVec.getLsbD_of_ge x k (Nat.le_of_not_lt hk)]
      simp

/-- A register that the events of a machine reach by writes only. -/
def Port (step : σ → ε → σ) (reg : σ → BitVec n) (writes : ε → Option (Write n)) : Prop :=
  ∀ s e, reg (step s e) = (writes e).elim (reg s) fun u => u.apply (reg s)

/-- The last write to a place decides what it holds. -/
theorem Port.run {step : σ → ε → σ} {reg : σ → BitVec n} {writes : ε → Option (Write n)}
    (h : Port step reg writes) (s : σ) (es : List ε) (k : ℕ) :
    (reg (es.foldl step s)).getLsbD k = last k (es.filterMap writes) ((reg s).getLsbD k) := by
  induction es generalizing s with
  | nil => rfl
  | cons e es ih =>
    rw [List.foldl_cons, ih, h s e]
    cases hw : writes e with
    | none => rw [List.filterMap_cons_none hw, Option.elim_none]
    | some u =>
      rw [List.filterMap_cons_some hw, Option.elim_some, getLsbD_apply]
      rfl

/-- Writes that stay inside a mask leave the places outside it alone. -/
theorem last_of_unnamed {k : ℕ} {us : List (Write n)}
    (h : ∀ u ∈ us, u.on = true → u.mask.getLsbD k = false) :
    last k us false = false :=
  List.foldlRecOn (motive := fun v => v = false) us _ rfl fun v hv u hu => by
    cases hon : u.on with
    | false => rw [hv, ite_self]
    | true => rw [h u hu hon, if_neg Bool.false_ne_true, hv]

end Latch
