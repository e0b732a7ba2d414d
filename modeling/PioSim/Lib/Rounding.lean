import Mathlib.Algebra.Order.Round
import Mathlib.Algebra.Order.Floor.Semifield
import Mathlib.Data.Rat.Floor
import Mathlib.Tactic.FieldSimp
import Mathlib.Tactic.GCongr
import Mathlib.Tactic.Linarith
import Mathlib.Tactic.Positivity

/-!
# Scaling by a quotient, rounded

A count multiplied by one natural number and divided by another is a rational; rounded to nearest it
is `round`, rounded up it is the ceiling. Both are computed from the quotient and the remainder of
the count, so that no product is larger than the remainder's. Converting up and back to nearest
never loses.
-/

namespace Rounding

variable {d : ℕ}

/-- The nearest integer to a quotient, halves up: half the divisor is added before dividing. -/
theorem round_div (hd : 0 < d) (n : ℕ) : round ((n : ℚ) / d) = ((n + d / 2) / d : ℕ) := by
  have hpos : (0 : ℚ) < d := Nat.cast_pos.mpr hd
  have hdouble := Nat.div_add_mod d 2
  have hparity := Nat.mod_lt d two_pos
  have hsplit := Nat.div_add_mod (n + d / 2) d
  have hrest := Nat.mod_lt (n + d / 2) hd
  generalize (n + d / 2) / d = q at *
  generalize (n + d / 2) % d = r at *
  have hlower : 2 * (d * q) ≤ 2 * n + d := by omega
  have hupper : 2 * n + d < 2 * (d * q) + 2 * d := by omega
  rw [round_eq_iff, Set.mem_Ico, le_div_iff₀ hpos, div_lt_iff₀ hpos]
  have hlower' : (2 * (d * q) : ℚ) ≤ 2 * n + d := by exact_mod_cast hlower
  have hupper' : (2 * n + d : ℚ) < 2 * (d * q) + 2 * d := by exact_mod_cast hupper
  push_cast
  constructor <;> linarith

/-- The least natural number above a quotient. -/
theorem ceil_div (hd : 0 < d) (n : ℕ) : ⌈(n : ℚ) / d⌉₊ = (n + d - 1) / d := by
  have hpos : (0 : ℚ) < d := Nat.cast_pos.mpr hd
  refine eq_of_forall_ge_iff fun k => ?_
  rw [Nat.ceil_le, div_le_iff₀ hpos, ← Nat.lt_succ_iff, Nat.div_lt_iff_lt_mul hd, Nat.succ_mul]
  have hcast : (n : ℚ) ≤ k * d ↔ n ≤ k * d := by exact_mod_cast Iff.rfl
  rw [hcast]
  omega

theorem split_div (hd : 0 < d) (n scale : ℕ) :
    (n * scale : ℚ) / d = (n / d * scale : ℕ) + ((n % d * scale : ℕ) : ℚ) / d := by
  have hpos : (d : ℚ) ≠ 0 := Nat.cast_ne_zero.mpr hd.ne'
  have hsplit : (n : ℚ) = d * (n / d : ℕ) + (n % d : ℕ) := by
    exact_mod_cast (Nat.div_add_mod n d).symm
  rw [hsplit]
  push_cast
  field_simp

/-- Rounding a scaled count needs only the product with its remainder. -/
theorem round_scaled (hd : 0 < d) (n scale : ℕ) :
    round ((n * scale : ℚ) / d) = (n / d * scale + (n % d * scale + d / 2) / d : ℕ) := by
  rw [split_div hd, round_natCast_add, round_div hd, Nat.cast_add]

theorem ceil_scaled (hd : 0 < d) (n scale : ℕ) :
    ⌈(n * scale : ℚ) / d⌉₊ = n / d * scale + (n % d * scale + d - 1) / d := by
  rw [split_div hd, add_comm, Nat.ceil_add_natCast (by positivity), ceil_div hd, add_comm]

theorem round_mono {x y : ℚ} (h : x ≤ y) : round x ≤ round y := by
  rw [round_eq, round_eq]
  exact Int.floor_le_floor (by linarith)

theorem scaled_mono (scale d : ℕ) {m n : ℕ} (h : m ≤ n) :
    (m * scale : ℚ) / d ≤ (n * scale : ℚ) / d := by
  have hcast : (m : ℚ) ≤ n := Nat.cast_le.mpr h
  gcongr

/-- Scaled up to whole units and back to the nearest count, nothing is lost. -/
theorem le_round_ceil {scale : ℕ} (hd : 0 < d) (hscale : 0 < scale) (n : ℕ) :
    (n : ℤ) ≤ round ((⌈(n * scale : ℚ) / d⌉₊ * d : ℚ) / scale) := by
  have hpos : (0 : ℚ) < d := Nat.cast_pos.mpr hd
  have hspos : (0 : ℚ) < scale := Nat.cast_pos.mpr hscale
  have hup : (n * scale : ℚ) / d ≤ ⌈(n * scale : ℚ) / d⌉₊ := Nat.le_ceil _
  have hback : (n : ℚ) ≤ (⌈(n * scale : ℚ) / d⌉₊ * d : ℚ) / scale := by
    rw [le_div_iff₀ hspos, ← div_le_iff₀ hpos]
    exact hup
  calc (n : ℤ) = round (n : ℚ) := (round_natCast n).symm
    _ ≤ _ := round_mono hback

end Rounding
