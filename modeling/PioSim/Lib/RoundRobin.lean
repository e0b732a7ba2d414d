import Mathlib.Data.List.Basic
import Mathlib.Data.Nat.Notation

/-!
# Round-robin scans

A scan looks at `n` places from a seat on, wrapping round, and takes the first that is ready; the
seat then moves to the place after it. `Before n seat b a` says that the scan meets `b` before `a`.
-/

namespace RoundRobin

/-- The places in the order a scan from `seat` meets them. -/
def order (n seat : ℕ) : List ℕ := (List.range n).map fun i => (seat + i) % n

/-- The first ready place from `seat` on. -/
def scan (n seat : ℕ) (ready : ℕ → Bool) : Option ℕ := (order n seat).find? ready

/-- How many places a scan from `seat` looks at before `c`. -/
def ahead (n seat c : ℕ) : ℕ := if seat % n ≤ c then c - seat % n else c + n - seat % n

/-- A scan from `seat` meets `b` before `a`. -/
def Before (n seat b a : ℕ) : Prop := ahead n seat b < ahead n seat a

variable {n seat : ℕ} {ready : ℕ → Bool} {a b c : ℕ}

theorem ahead_lt (hc : c < n) : ahead n seat c < n := by
  have hseat : seat % n < n := Nat.mod_lt _ (by omega)
  unfold ahead
  split <;> omega

theorem add_mod_cases {r i : ℕ} (hr : r < n) (hi : i < n) :
    r + i < n ∧ (r + i) % n = r + i ∨ n ≤ r + i ∧ (r + i) % n = r + i - n := by
  by_cases h : r + i < n
  · exact .inl ⟨h, Nat.mod_eq_of_lt h⟩
  · refine .inr ⟨by omega, ?_⟩
    rw [Nat.mod_eq_sub_mod (by omega), Nat.mod_eq_of_lt (by omega)]

theorem place_ahead (hc : c < n) : (seat + ahead n seat c) % n = c := by
  have hseat : seat % n < n := Nat.mod_lt _ (by omega)
  have hahead : ahead n seat c < n := ahead_lt hc
  have hval : seat % n + ahead n seat c = c ∨ seat % n + ahead n seat c = c + n := by
    unfold ahead
    split <;> omega
  rw [← Nat.mod_add_mod]
  rcases hval with h | h
  · rw [h, Nat.mod_eq_of_lt hc]
  · rw [h, Nat.add_mod_right, Nat.mod_eq_of_lt hc]

theorem ahead_place {i : ℕ} (hi : i < n) : ahead n seat ((seat + i) % n) = i := by
  have hseat : seat % n < n := Nat.mod_lt _ (by omega)
  have hcases := add_mod_cases hseat hi
  rw [← Nat.mod_add_mod, ahead]
  split <;> omega

/-- What a scan takes is a place, ready, and nothing ready is met before it. -/
theorem scan_eq_some (h : scan n seat ready = some c) :
    c < n ∧ ready c = true ∧ ∀ d < n, ready d = true → ahead n seat c ≤ ahead n seat d := by
  obtain ⟨hready, i, hi, hc, hfirst⟩ := List.find?_eq_some_iff_getElem.mp h
  simp only [order, List.length_map, List.length_range, List.getElem_map, List.getElem_range]
    at hi hc hfirst
  refine ⟨hc ▸ Nat.mod_lt _ (by omega), hready, fun d hd hd' => ?_⟩
  rw [← hc, ahead_place hi]
  by_contra hlt
  have hmiss := hfirst (ahead n seat d) (by omega)
  rw [place_ahead hd, hd'] at hmiss
  cases hmiss

theorem scan_isSome (hc : c < n) (h : ready c = true) : (scan n seat ready).isSome = true := by
  rw [scan, List.find?_isSome]
  refine ⟨c, List.mem_map.mpr ⟨ahead n seat c, List.mem_range.mpr (ahead_lt hc), ?_⟩, h⟩
  exact place_ahead hc

/-- Whoever has just been served is met last. -/
theorem before_after_self (ha : a < n) (hb : b < n) (hne : b ≠ a) : Before n ((a + 1) % n) b a := by
  unfold Before ahead
  rw [Nat.mod_mod]
  by_cases hlast : a + 1 = n
  · rw [hlast, Nat.mod_self]
    split <;> split <;> omega
  · rw [Nat.mod_eq_of_lt (by omega)]
    split <;> split <;> omega

/-- Serving somebody met before `b` does not put `a` before `b`. -/
theorem Before.after_served (h : Before n seat b a) (hb : b < n) (hc : c < n)
    (hcb : ahead n seat c < ahead n seat b) : Before n ((c + 1) % n) b a := by
  have hseat : seat % n < n := Nat.mod_lt _ (by omega)
  unfold Before ahead at *
  rw [Nat.mod_mod]
  by_cases hlast : c + 1 = n
  · rw [hlast, Nat.mod_self]
    revert h hcb
    split <;> split <;> split <;> split <;> split <;> omega
  · rw [Nat.mod_eq_of_lt (show c + 1 < n by omega)]
    revert h hcb
    split <;> split <;> split <;> split <;> split <;> omega

/-- A scan from a seat that meets `b` before `a` does not take `a` while `b` is ready. -/
theorem Before.scan_ne (h : Before n seat b a) (hb : b < n) (hready : ready b = true) :
    scan n seat ready ≠ some a := by
  intro hscan
  have hle := (scan_eq_some hscan).2.2 b hb hready
  unfold Before at h
  omega

/-- A scan that passes over nobody ready keeps `b` before `a`, unless it takes `b`. -/
theorem Before.scan (h : Before n seat b a) (hb : b < n) (hready : ready b = true)
    (hscan : RoundRobin.scan n seat ready = some c) (hne : c ≠ b) : Before n ((c + 1) % n) b a := by
  obtain ⟨hc, -, hfirst⟩ := scan_eq_some hscan
  refine h.after_served hb hc (Nat.lt_of_le_of_ne (hfirst b hb hready) fun he => hne ?_)
  rw [← place_ahead (n := n) (c := c) hc, he, place_ahead hb]

end RoundRobin
