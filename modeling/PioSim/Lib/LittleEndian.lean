import Mathlib.Data.List.Induction
import Mathlib.Data.Nat.Notation
import Mathlib.Logic.Function.Basic

/-!
# Little-endian words in a byte memory

A word is assembled from consecutive bytes, lowest address first, and written back the same way.
Each byte of the memory is determined by the words stored over it.
-/

namespace LittleEndian

/-- A byte-addressed memory. -/
abbrev Memory := ℕ → BitVec 8

variable {w : ℕ}

/-- Byte `k` of a word, counted from the low end. -/
def byte (v : BitVec w) (k : ℕ) : BitVec 8 := (v >>> (8 * k)).setWidth 8

/-- The word in the `n` bytes from `p` on. -/
def load (w : ℕ) (m : Memory) (p n : ℕ) : BitVec w :=
  (List.range n).foldl (fun v k => v ||| ((m (p + k)).setWidth w <<< (8 * k))) 0

/-- Writes the low `n` bytes of a word from `p` on. -/
def store (m : Memory) (p n : ℕ) (v : BitVec w) : Memory :=
  (List.range n).foldl (fun m k => Function.update m (p + k) (byte v k)) m

theorem getLsbD_byte (v : BitVec w) (k j : ℕ) :
    (byte v k).getLsbD j = (decide (j < 8) && v.getLsbD (8 * k + j)) := by
  simp [byte, BitVec.getLsbD_setWidth, BitVec.getLsbD_ushiftRight]

theorem store_succ (m : Memory) (p n : ℕ) (v : BitVec w) :
    store m p (n + 1) v = Function.update (store m p n v) (p + n) (byte v n) := by
  simp [store, List.range_succ]

theorem store_apply (m : Memory) (p n : ℕ) (v : BitVec w) (a : ℕ) :
    store m p n v a = if p ≤ a ∧ a < p + n then byte v (a - p) else m a := by
  induction n with
  | zero =>
    rw [if_neg (by omega)]
    rfl
  | succ n ih =>
    rw [store_succ]
    by_cases ha : a = p + n
    · subst ha
      rw [Function.update_self, if_pos (by omega), Nat.add_sub_cancel_left]
    · rw [Function.update_of_ne ha, ih]
      have hiff : (p ≤ a ∧ a < p + (n + 1)) ↔ (p ≤ a ∧ a < p + n) := by omega
      simp only [hiff]

theorem store_of_mem {m : Memory} {p n k : ℕ} (v : BitVec w) (h : k < n) :
    store m p n v (p + k) = byte v k := by
  rw [store_apply, if_pos (by omega), Nat.add_sub_cancel_left]

theorem store_of_notMem {m : Memory} {p n a : ℕ} (v : BitVec w) (h : a < p ∨ p + n ≤ a) :
    store m p n v a = m a := by rw [store_apply, if_neg (by omega)]

theorem load_succ (m : Memory) (p n : ℕ) :
    load w m p (n + 1) = load w m p n ||| ((m (p + n)).setWidth w <<< (8 * n)) := by
  simp [load, List.range_succ]

theorem getLsbD_load (m : Memory) (p n k : ℕ) : (load w m p n).getLsbD k =
    (decide (k < w) && decide (k < 8 * n) && (m (p + k / 8)).getLsbD (k % 8)) := by
  induction n with
  | zero => simp [load]
  | succ n ih =>
    rw [load_succ, BitVec.getLsbD_or, ih, BitVec.getLsbD_shiftLeft, BitVec.getLsbD_setWidth]
    by_cases hw : k < w
    · by_cases hlow : k < 8 * n
      · simp [hw, hlow, show k < 8 * (n + 1) by omega]
      · by_cases hhigh : k < 8 * (n + 1)
        · have hdiv : k / 8 = n := by omega
          have hmod : k % 8 = k - 8 * n := by omega
          simp [hw, hlow, hhigh, hdiv, hmod, show k - 8 * n < w by omega]
        · have hge : (m (p + n)).getLsbD (k - 8 * n) = false := BitVec.getLsbD_of_ge _ _ (by omega)
          simp [hw, hlow, hhigh, hge]
    · simp [hw]

theorem byte_load {m : Memory} {p n k : ℕ} (hw : 8 * n ≤ w) (hk : k < n) :
    byte (load w m p n) k = m (p + k) := by
  apply BitVec.eq_of_getLsbD_eq
  intro j hj
  have hdiv : (8 * k + j) / 8 = k := by omega
  have hmod : (8 * k + j) % 8 = j := by omega
  have hlt : 8 * k + j < w := by omega
  have hlow : 8 * k + j < 8 * n := by omega
  rw [getLsbD_byte, getLsbD_load, hdiv, hmod, decide_eq_true hj, decide_eq_true hlt,
    decide_eq_true hlow, Bool.true_and, Bool.true_and, Bool.true_and]

theorem load_congr {m m' : Memory} {p n : ℕ} (h : ∀ k < n, m (p + k) = m' (p + k)) :
    load w m p n = load w m' p n := by
  induction n with
  | zero => rfl
  | succ n ih => rw [load_succ, load_succ, ih fun k hk => h k (by omega), h n (by omega)]

/-- A word stored whole is read back. -/
theorem load_store (m : Memory) (p n : ℕ) (v : BitVec w) (hw : w = 8 * n) :
    load w (store m p n v) p n = v := by
  apply BitVec.eq_of_getLsbD_eq
  intro k hk
  have hdiv : k / 8 < n := by omega
  have hsplit : 8 * (k / 8) + k % 8 = k := by omega
  have hlow : k < 8 * n := by omega
  rw [getLsbD_load, store_of_mem v hdiv, getLsbD_byte, hsplit]
  simp [hk, hlow, Nat.mod_lt]

/-- Writes the low `n` bytes of each word of a list, one word after the other from `p` on. -/
def storeAll (m : Memory) (p n : ℕ) (vs : List (BitVec w)) : Memory :=
  vs.zipIdx.foldl (fun m (v, i) => store m (p + i * n) n v) m

theorem storeAll_concat (m : Memory) (p n : ℕ) (vs : List (BitVec w)) (v : BitVec w) :
    storeAll m p n (vs ++ [v]) = store (storeAll m p n vs) (p + vs.length * n) n v := by
  simp [storeAll, List.zipIdx_append]

theorem storeAll_of_mem (m : Memory) (p : ℕ) {n : ℕ} {vs : List (BitVec w)} {i k : ℕ}
    (hi : i < vs.length)
    (hk : k < n) : storeAll m p n vs (p + i * n + k) = byte vs[i] k := by
  induction vs using List.reverseRecOn with
  | nil => cases hi
  | append_singleton vs v ih =>
    rw [storeAll_concat]
    rw [List.length_append, List.length_singleton] at hi
    by_cases hlast : i = vs.length
    · subst hlast
      rw [store_of_mem v hk, List.getElem_concat_length rfl]
    · have hlt : i < vs.length := by omega
      have hfit : (i + 1) * n ≤ vs.length * n := Nat.mul_le_mul_right n hlt
      rw [Nat.succ_mul] at hfit
      rw [store_of_notMem v (.inl (by omega)), ih hlt, List.getElem_append_left hlt]

theorem storeAll_of_notMem (m : Memory) {p n a : ℕ} {vs : List (BitVec w)}
    (h : a < p ∨ p + vs.length * n ≤ a) :
    storeAll m p n vs a = m a := by
  induction vs using List.reverseRecOn with
  | nil => rfl
  | append_singleton vs v ih =>
    rw [List.length_append, List.length_singleton, Nat.add_mul, Nat.one_mul] at h
    rw [storeAll_concat, store_of_notMem v (by omega), ih (by omega)]

end LittleEndian
