import Mathlib.Data.Nat.Notation

/-!
# Words passed through shift registers

A word leaves one shift register a few bits at a time and enters another one from the same side.
When `c` bits have passed, `rest` is what is left in the source, `part` what has gathered in the
destination and `chunk` the next bits in transit; passing a chunk on takes both registers from `c`
to `c + n`, and when the whole word has passed the destination holds it.
-/

namespace ShiftRegister

/-- The side a word is shifted out of; it enters the next register from the opposite one. -/
inductive Side
  | low
  | high
  deriving DecidableEq, Repr

variable {w : ℕ}

/-- The low `n` bits of a word. -/
def low (n : ℕ) (v : BitVec w) : BitVec w := (v.setWidth n).setWidth w

/-- The source once `c` bits have left. -/
def rest (d : Side) (v : BitVec w) (c : ℕ) : BitVec w :=
  match d with
  | .low => v >>> c
  | .high => v <<< c

/-- The destination once `c` bits have entered. -/
def part (d : Side) (v : BitVec w) (c : ℕ) : BitVec w :=
  match d with
  | .low => v <<< (w - c)
  | .high => v >>> (w - c)

/-- The `n` bits that pass after the first `c`. -/
def chunk (d : Side) (v : BitVec w) (c n : ℕ) : BitVec w :=
  match d with
  | .low => low n (v >>> c)
  | .high => low n (v >>> (w - (c + n)))

/-- The next `n` bits of a source register. -/
def next (d : Side) (r : BitVec w) (n : ℕ) : BitVec w :=
  match d with
  | .low => low n r
  | .high => low n (r >>> (w - n))

/-- A destination register after `n` more bits. -/
def accept (d : Side) (r x : BitVec w) (n : ℕ) : BitVec w :=
  match d with
  | .low => (r >>> n) ||| (low n x <<< (w - n))
  | .high => (r <<< n) ||| low n x

theorem getLsbD_low (n : ℕ) (v : BitVec w) (k : ℕ) :
    (low n v).getLsbD k = (decide (k < w) && decide (k < n) && v.getLsbD k) := by
  simp only [low, BitVec.getLsbD_setWidth, Bool.and_assoc]

theorem low_low (n : ℕ) (v : BitVec w) : low n (low n v) = low n v := by
  apply BitVec.eq_of_getLsbD_eq
  intro k _
  simp only [getLsbD_low]
  cases decide (k < w) <;> cases decide (k < n) <;> rfl

theorem low_of_le {n : ℕ} (h : w ≤ n) (v : BitVec w) : low n v = v := by
  apply BitVec.eq_of_getLsbD_eq
  intro k hk
  rw [getLsbD_low, decide_eq_true hk, decide_eq_true (Nat.lt_of_lt_of_le hk h), Bool.true_and,
    Bool.true_and]

theorem rest_rest (d : Side) (v : BitVec w) (c n : ℕ) :
    rest d (rest d v c) n = rest d v (c + n) := by
  cases d with
  | low => exact (BitVec.shiftRight_add v c n).symm
  | high => exact (BitVec.shiftLeft_add v c n).symm

/-- The bits that leave the source are the chunk in transit. -/
theorem next_rest (d : Side) (v : BitVec w) {c n : ℕ} (h : c + n ≤ w) :
    next d (rest d v c) n = chunk d v c n := by
  cases d with
  | low => rfl
  | high =>
    apply BitVec.eq_of_getLsbD_eq
    intro k hk
    simp only [next, rest, chunk, getLsbD_low, BitVec.getLsbD_ushiftRight, BitVec.getLsbD_shiftLeft]
    by_cases hn : k < n
    · have hidx : w - n + k - c = w - (c + n) + k := by omega
      have hlt : w - n + k < w := by omega
      have hge : ¬ w - n + k < c := by omega
      simp [hk, hn, hidx, hlt, hge]
    · simp [hn]

/-- A chunk entering the destination takes it on to the next point. -/
theorem accept_part (d : Side) (v : BitVec w) {c n : ℕ} (h : c + n ≤ w) :
    accept d (part d v c) (chunk d v c n) n = part d v (c + n) := by
  apply BitVec.eq_of_getLsbD_eq
  intro k hk
  cases d with
  | low =>
    simp only [accept, part, chunk, low_low, BitVec.getLsbD_or, getLsbD_low,
      BitVec.getLsbD_ushiftRight, BitVec.getLsbD_shiftLeft]
    by_cases hin : k < w - n
    · -- the bit was in the destination already, or is still a zero below the word
      have hsub : n + k - (w - c) = k - (w - (c + n)) := by omega
      have hiff : n + k < w - c ↔ k < w - (c + n) := by omega
      have hlt : n + k < w := by omega
      simp [hk, hin, hlt, hsub, hiff]
    · -- the bit has just entered
      have hge : w ≤ n + k := by omega
      have hnot : ¬ k < w - (c + n) := by omega
      have hidx : c + (k - (w - n)) = k - (w - (c + n)) := by omega
      have hlow : k - (w - n) < n := by omega
      have hlt : k - (w - n) < w := by omega
      have hout : (v <<< (w - c)).getLsbD (n + k) = false := BitVec.getLsbD_of_ge _ _ hge
      rw [BitVec.getLsbD_shiftLeft] at hout
      simp [hk, hin, hnot, hidx, hlow, hlt, hout]
  | high =>
    simp only [accept, part, chunk, low_low, BitVec.getLsbD_or, getLsbD_low,
      BitVec.getLsbD_ushiftRight, BitVec.getLsbD_shiftLeft]
    by_cases hn : k < n
    · simp [hk, hn]
    · have hidx : w - c + (k - n) = w - (c + n) + k := by omega
      simp [hk, hn, hidx]

theorem rest_zero (d : Side) (v : BitVec w) : rest d v 0 = v := by
  cases d <;> simp [rest]

theorem part_zero (d : Side) (v : BitVec w) : part d v 0 = 0 := by
  cases d with
  | low => simp [part]
  | high => exact BitVec.ushiftRight_eq_zero (Nat.le_refl w)

/-- A word that has passed whole is in the destination. -/
theorem part_full (d : Side) (v : BitVec w) : part d v w = v := by
  cases d <;> simp [part]

theorem rest_full (d : Side) (v : BitVec w) : rest d v w = 0 := by
  cases d with
  | low => exact BitVec.ushiftRight_eq_zero (Nat.le_refl w)
  | high => simp [rest]

end ShiftRegister
