import Mathlib.Logic.Function.Iterate
import Mathlib.Algebra.Order.Group.Nat
import Mathlib.Tactic.Ring

/-!
# Aligned windows

Memory falls into windows of `n` addresses, each starting at a multiple of `n`. A cursor that wraps
in its window steps by a fixed stride and comes back at the window's base. After any number of steps
it is where the linear cursor would be, taken modulo the window; elements aligned to their own size
never straddle its end.
-/

namespace Window

variable {n b p : ℕ}

/-- The first address of the window around `p`. -/
def base (n p : ℕ) : ℕ := p - p % n

/-- One step of `b` from `p`, wrapped in the window. -/
def wrap (n b p : ℕ) : ℕ := base n p + (p % n + b) % n

theorem sub_base (n p : ℕ) : p - base n p = p % n := by
  have hle := Nat.mod_le p n
  unfold base
  omega

theorem base_dvd (n p : ℕ) : n ∣ base n p := Nat.dvd_sub_mod p

theorem wrap_mod (n b p : ℕ) : wrap n b p % n = (p % n + b) % n := by
  obtain ⟨q, hq⟩ := base_dvd n p
  rw [wrap, hq, Nat.mul_add_mod, Nat.mod_mod]

theorem base_wrap (n b p : ℕ) : base n (wrap n b p) = base n p := by
  rw [base, wrap_mod, wrap, Nat.add_sub_cancel]

/-- Any number of wrapped steps is one step of their sum. -/
theorem iterate_wrap (n b p k : ℕ) : (wrap n b)^[k] p = base n p + (p % n + k * b) % n := by
  induction k with
  | zero =>
    have hle := Nat.mod_le p n
    rw [Function.iterate_zero, id, Nat.zero_mul, Nat.add_zero, Nat.mod_mod, base]
    omega
  | succ k ih =>
    have hbase : base n ((wrap n b)^[k] p) = base n p := by
      clear ih
      induction k with
      | zero => rfl
      | succ k ih => rw [Function.iterate_succ_apply', base_wrap, ih]
    obtain ⟨q, hq⟩ := base_dvd n p
    have hmod : (wrap n b)^[k] p % n = (p % n + k * b) % n := by
      rw [ih, hq, Nat.mul_add_mod, Nat.mod_mod]
    rw [Function.iterate_succ_apply', wrap, hbase, hmod, Nat.mod_add_mod]
    congr 2
    ring

/-- An offset aligned to the stride leaves room for a whole stride below the window's end. -/
theorem room (hn : 0 < n) (hstride : b ∣ n) {x : ℕ} (hx : b ∣ x) : x % n + b ≤ n := by
  have hdvd : b ∣ x % n := (Nat.dvd_mod_iff hstride).mpr hx
  obtain ⟨i, hi⟩ := hdvd
  obtain ⟨j, hj⟩ := hstride
  have hlt : b * i < b * j := by rw [← hi, ← hj]; exact Nat.mod_lt x hn
  have hij : i + 1 ≤ j := Nat.lt_of_mul_lt_mul_left hlt
  calc x % n + b = b * (i + 1) := by rw [hi, Nat.mul_succ]
    _ ≤ b * j := Nat.mul_le_mul_left b hij
    _ = n := hj.symm

end Window
