import Mathlib.Algebra.CharP.Two
import Mathlib.Algebra.Field.ZMod
import Mathlib.Algebra.Polynomial.Div
import Mathlib.Algebra.Polynomial.Monic
import Mathlib.Algebra.Polynomial.OfFn
import Mathlib.Tactic.LinearCombination
import Mathlib.Tactic.Ring

/-!
# Cyclic redundancy checks

A bit vector stands for the polynomial over the two-element field whose coefficients are its bits.
Shifting a register left and adding the generator whenever the top bit falls out multiplies it by
`X` modulo the generator. A register fed with a stream of bytes, most significant bit first,
therefore holds the remainder of the seed shifted past the stream plus the stream shifted past the
register. The mirrored register, which shifts right, holds the mirror image.
-/

namespace Crc

open Polynomial

variable {w : ℕ}

/-- The polynomial with the bits of a vector as coefficients. -/
noncomputable def poly (v : BitVec w) : (ZMod 2)[X] :=
  ofFn w fun i : Fin w => if v.getLsbD i then 1 else 0

theorem coeff_poly (v : BitVec w) (i : ℕ) : (poly v).coeff i = if v.getLsbD i then 1 else 0 := by
  by_cases hi : i < w
  · exact ofFn_coeff_eq_val_of_lt _ hi
  · rw [poly, ofFn_coeff_eq_zero_of_ge _ (Nat.le_of_not_lt hi),
      BitVec.getLsbD_of_ge v i (Nat.le_of_not_lt hi)]
    rfl

theorem degree_poly_lt (v : BitVec w) : (poly v).degree < w := ofFn_degree_lt _

theorem poly_xor (u v : BitVec w) : poly (u ^^^ v) = poly u + poly v := by
  ext i
  rw [coeff_add, coeff_poly, coeff_poly, coeff_poly, BitVec.getLsbD_xor]
  cases u.getLsbD i <;> cases v.getLsbD i <;> decide

/-- Shifting left multiplies by `X`, but for the bit that falls out. -/
theorem poly_shiftLeft (v : BitVec w) : X * poly v = poly (v <<< 1) + if v.msb then
    X ^ w else 0 := by
  ext i
  have hlast : (if v.msb then X ^ w else 0 : (ZMod 2)[X]).coeff i =
      if i = w ∧ v.msb = true then 1 else 0 := by
    by_cases hmsb : v.msb = true
    · simp [hmsb, coeff_X_pow]
    · simp [hmsb]
  rw [coeff_add, coeff_poly, BitVec.getLsbD_shiftLeft, hlast]
  cases i with
  | zero =>
    have hmsb : 0 = w → v.msb = false := by
      rintro rfl
      exact BitVec.msb_of_zero_length rfl v
    by_cases hw : 0 = w
    · simp [hmsb hw]
    · simp [hw]
  | succ i =>
    rw [coeff_X_mul, coeff_poly, Nat.add_sub_cancel]
    obtain hlow | heq | hhigh := Nat.lt_trichotomy (i + 1) w
    · simp [hlow, hlow.ne]
    · subst heq
      simp [BitVec.msb_eq_getLsbD_last]
    · rw [BitVec.getLsbD_of_ge v i (by omega)]
      simp [hhigh.ne']

/-- A vector laid over the top of a register. -/
theorem poly_over {n : ℕ} (v : BitVec n) (h : n ≤ w) :
    poly (v.setWidth w <<< (w - n)) = X ^ (w - n) * poly v := by
  ext i
  rw [coeff_poly, BitVec.getLsbD_shiftLeft, BitVec.getLsbD_setWidth, coeff_X_pow_mul', coeff_poly]
  by_cases hlow : i < w - n
  · simp [hlow, Nat.not_le_of_lt hlow]
  · rw [if_pos (Nat.le_of_not_lt hlow)]
    by_cases hi : i < w
    · simp [hi, hlow, show i - (w - n) < w by omega]
    · rw [BitVec.getLsbD_of_ge v _ (show n ≤ i - (w - n) by omega)]
      simp [hi]

/-- The generator: the top coefficient, which the register has no room for, and the rest. -/
noncomputable def generator (p : BitVec w) : (ZMod 2)[X] := X ^ w + poly p

theorem monic_generator (p : BitVec w) : (generator p).Monic := monic_X_pow_add (degree_poly_lt p)

theorem degree_generator (p : BitVec w) : (generator p).degree = w := by
  rw [generator, degree_add_eq_left_of_degree_lt, degree_X_pow]
  rw [degree_X_pow]
  exact degree_poly_lt p

/-- One shift of the register: the generator is added when the top bit falls out. -/
def shift (p v : BitVec w) : BitVec w := if v.msb then (v <<< 1) ^^^ p else v <<< 1

/-- Feeding one byte to a register, most significant bit first. -/
def update (p v : BitVec w) (b : BitVec 8) : BitVec w :=
  (shift p)^[8] (v ^^^ (b.setWidth w <<< (w - 8)))

/-- What the register holds is below the generator. -/
theorem poly_eq_mod (p v : BitVec w) {f : (ZMod 2)[X]} (h : generator p ∣ f - poly v) :
    poly v = f %ₘ generator p := by
  have hself : poly v %ₘ generator p = poly v := by
    rw [modByMonic_eq_self_iff (monic_generator p), degree_generator]
    exact degree_poly_lt v
  rw [← hself]
  exact (modByMonic_eq_of_dvd_sub (monic_generator p) h).symm

theorem poly_shift (p v : BitVec w) : poly (shift p v) = (X * poly v) %ₘ generator p := by
  refine poly_eq_mod p _ ?_
  rw [poly_shiftLeft, shift]
  by_cases hmsb : v.msb = true
  · rw [if_pos hmsb, if_pos hmsb, poly_xor]
    have hdouble : poly p + poly p = 0 := CharTwo.add_self_eq_zero _
    exact ⟨1, by rw [generator]; linear_combination -hdouble⟩
  · rw [if_neg hmsb, if_neg hmsb, add_zero, sub_self]
    exact dvd_zero _

theorem poly_iterate_shift (p v : BitVec w) (k : ℕ) :
    poly ((shift p)^[k] v) = (X ^ k * poly v) %ₘ generator p := by
  induction k with
  | zero => exact poly_eq_mod p v (by simp)
  | succ k ih =>
    rw [Function.iterate_succ_apply', poly_shift, ih, pow_succ', mul_assoc]
    refine modByMonic_eq_of_dvd_sub (monic_generator p) ?_
    rw [← mul_sub]
    exact Dvd.dvd.mul_left (dvd_modByMonic_sub _ _) X

/-- The polynomial of a stream of bytes, most significant bit first. -/
noncomputable def message (bytes : List (BitVec 8)) : (ZMod 2)[X] :=
  bytes.foldl (fun m b => X ^ 8 * m + poly b) 0

/-- The remainder that a register seeded with `seed` is to hold after a stream: the seed stands
above the stream, and both stand above the register. -/
noncomputable def remainder (p seed : BitVec w) (bytes : List (BitVec 8)) : (ZMod 2)[X] :=
  (X ^ (8 * bytes.length) * poly seed + X ^ w * message bytes) %ₘ generator p

theorem poly_update (p v : BitVec w) (hw : 8 ≤ w) (b : BitVec 8) :
    poly (update p v b) = (X ^ 8 * poly v + X ^ w * poly b) %ₘ generator p := by
  have hpow : (X : (ZMod 2)[X]) ^ w = X ^ 8 * X ^ (w - 8) := by
    rw [← pow_add, Nat.add_sub_cancel' hw]
  rw [update, poly_iterate_shift, poly_xor, poly_over b hw, hpow]
  congr 1
  ring

/-- A register holds the remainder of its seed and the stream it was fed with. -/
theorem poly_foldl_update (p seed : BitVec w) (hw : 8 ≤ w) (bytes : List (BitVec 8)) :
    poly (bytes.foldl (update p) seed) = remainder p seed bytes := by
  induction bytes using List.reverseRecOn with
  | nil => exact poly_eq_mod p seed (by simp [message])
  | append_singleton bytes b ih =>
    rw [List.foldl_append, List.foldl_cons, List.foldl_nil, poly_update p _ hw, ih]
    unfold remainder
    refine modByMonic_eq_of_dvd_sub (monic_generator p) ?_
    have hmessage : message (bytes ++ [b]) = X ^ 8 * message bytes + poly b := by
      rw [message, List.foldl_append]
      rfl
    rw [hmessage, List.length_append, List.length_singleton]
    obtain ⟨q, hq⟩ :=
      dvd_modByMonic_sub (X ^ (8 * bytes.length) * poly seed + X ^ w * message bytes)
      (generator p)
    exact ⟨X ^ 8 * q, by linear_combination X ^ 8 * hq⟩

/-! ### The mirrored register -/

/-- One shift to the right, the mirrored generator added when the low bit falls out. -/
def shiftRight (p v : BitVec w) : BitVec w := if v.getLsbD 0 then (v >>> 1) ^^^ p else v >>> 1

def updateRight (p v : BitVec w) (b : BitVec 8) : BitVec w :=
  (shiftRight p)^[8] (v ^^^ b.setWidth w)

theorem reverse_xor (u v : BitVec w) : (u ^^^ v).reverse = u.reverse ^^^ v.reverse := by
  ext i hi
  simp [BitVec.getElem_reverse]

theorem reverse_shiftLeft (v : BitVec w) : (v <<< 1).reverse = v.reverse >>> 1 := by
  apply BitVec.eq_of_getLsbD_eq
  intro i hi
  rw [BitVec.getLsbD_reverse, BitVec.getMsbD_shiftLeft, BitVec.getLsbD_ushiftRight,
    BitVec.getLsbD_reverse, Nat.add_comm]

theorem reverse_reverse (v : BitVec w) : v.reverse.reverse = v := by
  apply BitVec.eq_of_getLsbD_eq
  intro i hi
  rw [BitVec.getLsbD_reverse, BitVec.getMsbD_reverse]

theorem reverse_shift (p v : BitVec w) : (shift p v).reverse = shiftRight p.reverse v.reverse := by
  have hbit : v.reverse.getLsbD 0 = v.msb := by rw [BitVec.getLsbD_reverse, BitVec.msb]
  rw [shift, shiftRight, hbit, ← reverse_shiftLeft]
  split
  · rw [reverse_xor]
  · rfl

theorem reverse_over (hw : 8 ≤ w) (b : BitVec 8) :
    (b.setWidth w <<< (w - 8)).reverse = b.reverse.setWidth w := by
  apply BitVec.eq_of_getLsbD_eq
  intro i hi
  rw [BitVec.getLsbD_reverse, BitVec.getMsbD_shiftLeft, BitVec.getLsbD_setWidth,
    BitVec.getLsbD_reverse, BitVec.getMsbD_eq_getLsbD, BitVec.getMsbD_eq_getLsbD,
    BitVec.getLsbD_setWidth]
  by_cases hbyte : i < 8
  · simp [hi, hbyte, show w - 1 - (i + (w - 8)) = 7 - i by omega, show i + (w - 8) < w by omega]
    omega
  · simp [hi, hbyte, show ¬ i + (w - 8) < w by omega]

/-- The mirrored register holds the mirror image. -/
theorem reverse_update (p v : BitVec w) (hw : 8 ≤ w) (b : BitVec 8) :
    (update p v b).reverse = updateRight p.reverse v.reverse b.reverse := by
  have hiterate : ∀ k (u : BitVec w),
      ((shift p)^[k] u).reverse = (shiftRight p.reverse)^[k] u.reverse := by
    intro k u
    induction k with
    | zero => rfl
    | succ k ih =>
        rw [Function.iterate_succ_apply', reverse_shift, ih, Function.iterate_succ_apply']
  rw [update, hiterate, reverse_xor, reverse_over hw, updateRight]

theorem foldl_updateRight (p seed : BitVec w) (hw : 8 ≤ w) (bytes : List (BitVec 8)) :
    bytes.foldl (updateRight p.reverse) seed =
      ((bytes.map BitVec.reverse).foldl (update p) seed.reverse).reverse := by
  induction bytes using List.reverseRecOn with
  | nil => exact (reverse_reverse seed).symm
  | append_singleton bytes b ih =>
    rw [List.map_append, List.foldl_append, List.foldl_append, ih]
    change updateRight _ _ b = (update p _ b.reverse).reverse
    rw [reverse_update p _ hw, reverse_reverse]

end Crc
