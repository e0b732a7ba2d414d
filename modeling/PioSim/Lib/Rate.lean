import Mathlib.Data.Nat.Notation
import Mathlib.Data.List.Basic

/-!
# Rate accumulators

An accumulator gains a fixed amount a step and, whenever it reaches its period, loses the period and
gives off a pulse. Started at 0 it pulses at the exact rate: its phase after `n` steps is `gain * n`
modulo the period, and the pulses so far are the whole periods in `gain * n`.
-/

namespace Rate

variable {gain period : ℕ}

/-- The next step from phase `a` pulses. -/
def pulses (gain period a : ℕ) : Bool := period ≤ a + gain

/-- The phase after the next step. -/
def next (gain period a : ℕ) : ℕ := if pulses gain period a then a + gain - period else a + gain

/-- The first `n` steps from 0, by whether they pulse. -/
def train (gain period n : ℕ) : List Bool :=
  (List.range n).map fun k => pulses gain period (gain * k % period)

@[simp] theorem train_zero : train gain period 0 = [] := rfl

theorem train_succ (n : ℕ) :
    train gain period (n + 1) = train gain period n ++
      [pulses gain period (gain * n % period)] := by
  rw [train, List.range_succ, List.map_append]
  rfl

/-- One more step adds its gain to the whole: a pulse takes a period of it. -/
theorem step_eq (hgain : gain ≤ period) (hpos : 0 < period) (n : ℕ) :
    gain * (n + 1) / period =
        gain * n / period + (if pulses gain period (gain * n % period) then 1 else 0) ∧
      gain * (n + 1) % period = next gain period (gain * n % period) := by
  have hrest := Nat.mod_lt (gain * n) hpos
  have hsplit := Nat.div_add_mod (gain * n) period
  generalize hq : gain * n / period = q at *
  generalize gain * n % period = r at *
  rw [Nat.div_mod_unique hpos, Nat.mul_succ, ← hsplit]
  unfold next
  by_cases hpulse : pulses gain period r = true
  · have hle : period ≤ r + gain := of_decide_eq_true hpulse
    rw [if_pos hpulse, if_pos hpulse, Nat.mul_succ]
    omega
  · have hlt : ¬ period ≤ r + gain := fun h => hpulse (decide_eq_true h)
    rw [if_neg hpulse, if_neg hpulse, Nat.add_zero]
    omega

theorem next_mod (hgain : gain ≤ period) (hpos : 0 < period) (n : ℕ) :
    next gain period (gain * n % period) = gain * (n + 1) % period := (step_eq hgain hpos n).2.symm

/-- The pulses of the first `n` steps are the whole periods gained. -/
theorem count_train (hgain : gain ≤ period) (hpos : 0 < period) (n : ℕ) :
    (train gain period n).count true = gain * n / period := by
  induction n with
  | zero => simp
  | succ n ih =>
    rw [train_succ, List.count_append, ih, (step_eq hgain hpos n).1]
    cases pulses gain period (gain * n % period) <;> rfl

/-- A step pulses exactly if a multiple of the period lies in what it gains. -/
theorem pulses_iff (hgain : gain ≤ period) (hpos : 0 < period) (n : ℕ) :
    pulses gain period (gain * n % period) = true ↔ ∃ k, gain * n < k * period ∧
      k * period ≤ gain * (n + 1) := by
  have hdiv := (step_eq hgain hpos n).1
  constructor
  · intro hpulse
    rw [if_pos hpulse] at hdiv
    refine ⟨gain * n / period + 1, ?_, ?_⟩
    · rw [Nat.mul_comm _ period]
      exact Nat.lt_mul_div_succ (gain * n) hpos
    · rw [← hdiv]
      exact Nat.div_mul_le_self _ _
  · rintro ⟨k, hlow, hhigh⟩
    by_contra hno
    rw [if_neg hno] at hdiv
    have hk : k ≤ gain * (n + 1) / period := (Nat.le_div_iff_mul_le hpos).mpr hhigh
    rw [hdiv] at hk
    exact absurd ((Nat.le_div_iff_mul_le hpos).mp hk) (Nat.not_le_of_lt hlow)

/-- A slower accumulator pulses only where one of a divisor of its period does. -/
theorem pulses_of_dvd {slow n : ℕ} (hpos : 0 < gain) (hgain : gain ≤ period) (hslow : gain ≤ slow)
    (hdvd : period ∣ slow) (h : pulses gain slow (gain * n % slow) = true) :
    pulses gain period (gain * n % period) = true := by
  obtain ⟨m, rfl⟩ := hdvd
  obtain ⟨k, hlow, hhigh⟩ := (pulses_iff hslow (Nat.lt_of_lt_of_le hpos hslow) n).mp h
  rw [Nat.mul_left_comm, Nat.mul_comm period] at hlow hhigh
  exact (pulses_iff hgain (Nat.lt_of_lt_of_le hpos hgain) n).mpr ⟨k * m, hlow, hhigh⟩

end Rate
