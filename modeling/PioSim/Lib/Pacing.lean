import Mathlib.Algebra.GroupWithZero.Nat
import Mathlib.Data.List.ReduceOption

/-!
# Actions that hold the machine up

A machine acts on some of its cycles and idles on the others: each action fixes how many idle cycles
follow it. `Paced` is the list of cycles such a machine goes through. When an action takes place is
then settled by the actions before it.
-/

namespace Pacing

variable {α : Type*} {delay : α → ℕ} {d d' : ℕ} {l l' : List (Option α)}

/-- The cycles `l` of the machine, `some` for an action and `none` for an idle cycle, from `d` idle
cycles still to come to `d'` of them. -/
inductive Paced (delay : α → ℕ) : ℕ → List (Option α) → ℕ → Prop
  | nil (d : ℕ) : Paced delay d [] d
  | idle {d d' : ℕ} {l : List (Option α)} : Paced delay d l d' → Paced delay (d + 1) (none :: l) d'
  | act {d' : ℕ} {l : List (Option α)} (a : α) : Paced delay (delay a) l d' →
    Paced delay 0 (some a :: l) d'

/-- The cycles some actions take, each with the idle cycles it asks for. -/
def span (delay : α → ℕ) (l : List α) : ℕ := (l.map fun a => 1 + delay a).sum

@[simp] theorem span_nil : span delay [] = 0 := rfl

@[simp] theorem span_cons (a : α) (l : List α) :
    span delay (a :: l) = 1 + delay a + span delay l := by
  simp only [span, List.map_cons, List.sum_cons]

theorem span_eq_mul {a : α} {l : List α} (h : ∀ x ∈ l, x = a) :
    span delay l = l.length * (1 + delay a) := by
  induction l with
  | nil => simp
  | cons x l ih =>
    have hx := h x List.mem_cons_self
    have hrest := ih fun y hy => h y (List.mem_cons_of_mem _ hy)
    rw [span_cons, hrest, hx, List.length_cons, Nat.succ_mul]
    omega

theorem Paced.append {m : ℕ} (h : Paced delay d l m) (h' : Paced delay m l' d') :
    Paced delay d (l ++ l') d' := by
  induction h with
  | nil d => exact h'
  | idle _ ih => exact .idle (ih h')
  | act a _ ih => exact .act a (ih h')

/-- Every cycle is spent on an action or on the idle cycles of one. -/
theorem Paced.balance (h : Paced delay d l d') : d + span delay l.reduceOption = l.length + d' := by
  induction h with
  | nil d => simp
  | idle _ ih =>
    rw [List.reduceOption_cons_of_none, List.length_cons]
    omega
  | act a _ ih =>
    rw [List.reduceOption_cons_of_some, span_cons, List.length_cons]
    omega

/-- The actions before an action settle its cycle. -/
theorem Paced.act_at (h : Paced delay d l d') {k : ℕ} {a : α} (ha : l.reduceOption[k]? = some a) :
    l[d + span delay (l.reduceOption.take k)]? = some (some a) ∧
      (l.take (d + span delay (l.reduceOption.take k))).reduceOption = l.reduceOption.take k := by
  induction h generalizing k with
  | nil d => cases ha
  | @idle d d' l _ ih =>
    rw [List.reduceOption_cons_of_none] at ha ⊢
    have hnext : d + 1 + span delay (l.reduceOption.take k) =
        d + span delay (l.reduceOption.take k) + 1 := by omega
    rw [hnext, List.getElem?_cons_succ, List.take_succ_cons, List.reduceOption_cons_of_none]
    exact ih ha
  | @act d' l x _ ih =>
    rw [List.reduceOption_cons_of_some] at ha ⊢
    cases k with
    | zero =>
      obtain rfl : x = a := Option.some.inj ha
      exact ⟨rfl, rfl⟩
    | succ k =>
      rw [List.getElem?_cons_succ] at ha
      have hnext : 0 + span delay ((x :: l.reduceOption).take (k + 1)) =
          delay x + span delay (l.reduceOption.take k) + 1 := by
        rw [List.take_succ_cons, span_cons]
        omega
      obtain ⟨hat, htake⟩ := ih ha
      rw [hnext, List.getElem?_cons_succ, List.take_succ_cons, List.take_succ_cons,
        List.reduceOption_cons_of_some, htake]
      exact ⟨hat, rfl⟩

end Pacing
