import Mathlib.Logic.Basic

/-!
# Courses

The states that a computation passes through, where what one of them reports all that follow report.
What the last one reports is then what the first to report anything did.
-/

namespace Course

variable {σ ε : Type*} {report : σ → Option ε} {s t u : σ} {l m : List σ}

/-- From one state to another by way of the listed ones, the last of which is the other. -/
inductive Path (report : σ → Option ε) : σ → List σ → σ → Prop
  | nil (s : σ) : Path report s [] s
  | cons {s t u : σ} {l : List σ} (h : ∀ e, report s = some e → report t = some e)
  (hl : Path report t l u) :
    Path report s (t :: l) u

theorem Path.append (h : Path report s l t) (h' : Path report t m u) :
    Path report s (l ++ m) u := by
  induction h with
  | nil => exact h'
  | cons hkeeps _ ih => exact .cons hkeeps (ih h')

theorem Path.stays (h : Path report s l u) {e : ε} (he : report s = some e) :
    report u = some e := by
  induction h with
  | nil => exact he
  | cons hkeeps _ ih => exact ih (hkeeps e he)

theorem Path.last (h : Path report s l u) : l.getLastD s = u := by
  induction h with
  | nil => rfl
  | cons _ _ ih => rw [List.getLastD_cons, ih]

/-- The first report is the one at the end. -/
theorem Path.first (h : Path report s l u) (hs : report s = none) :
    report u = (l.find? fun t => (report t).isSome).bind report := by
  induction h with
  | nil => exact hs
  | @cons s t u l _ hl ih =>
    cases ht : report t with
    | none =>
      rw [List.find?_cons_of_neg (by rw [ht]; exact Bool.false_ne_true)]
      exact ih ht
    | some e =>
      rw [List.find?_cons_of_pos (by rw [ht]; rfl), Option.bind_some, ht]
      exact hl.stays ht

end Course
