import PioSim.Lib.Run

/-!
# Registers

The accesses to a register along a run are writes and reads with the value they got. They are legal
if every read got what the last write before it put there, or what the register held at first. A
machine that accounts for its register one step at a time is legal over whole runs.
-/

namespace Register

variable {σ ε α : Type*}

inductive Access (α : Type*)
  | wrote (v : α)
  | read (v : α)

def Access.after (cur : α) : Access α → α
  | .wrote v => v
  | .read _ => cur

/-- What the register holds after the accesses of a list. -/
def value (cur : α) (l : List (Access α)) : α := l.foldl Access.after cur

/-- Every read got what the register held. -/
def Legal : α → List (Access α) → Prop
  | _, [] => True
  | _, .wrote v :: l => Legal v l
  | cur, .read v :: l => v = cur ∧ Legal cur l

@[simp] theorem value_nil (cur : α) : value cur [] = cur := rfl

@[simp] theorem legal_nil (cur : α) : Legal cur [] := trivial

theorem value_append (cur : α) (l m : List (Access α)) :
    value cur (l ++ m) = value (value cur l) m :=
  List.foldl_append

theorem legal_append {cur : α} {l m : List (Access α)} :
    Legal cur (l ++ m) ↔ Legal cur l ∧ Legal (value cur l) m := by
  induction l generalizing cur with
  | nil => simp
  | cons a l ih =>
    cases a with
    | wrote v => exact ih
    | read v => exact (and_congr_right fun _ => ih).trans and_assoc.symm

/-- A read in a legal list got what the accesses before it left. -/
theorem Legal.read {cur v : α} {l m : List (Access α)} (h : Legal cur (l ++ .read v :: m)) :
    v = value cur l :=
  (legal_append.mp h).2.1

/-- One step accounts for the register: its accesses are legal and leave what the register then
holds. -/
def Accounts (step : σ → ε → σ) (reg : σ → α) (accesses : σ → ε → List (Access α)) (s : σ)
    (e : ε) : Prop :=
  Legal (reg s) (accesses s e) ∧ reg (step s e) = value (reg s) (accesses s e)

/-- What every step writes, the run writes. -/
theorem value_run {step : σ → ε → σ} {g : σ → α} {accesses : σ → ε → List (Access α)} {s : σ}
    {es : List ε}
    (h : Run.Along step (fun t e => g (step t e) = value (g t) (accesses t e)) s es) :
    g (es.foldl step s) = value (g s) (Run.collect step accesses s es) := by
  induction es generalizing s with
  | nil => rfl
  | cons e es ih => rw [List.foldl_cons, ih h.2, h.1, Run.collect, value_append]

/-- What every step accounts for, the run accounts for. -/
theorem legal_run {step : σ → ε → σ} {g : σ → α} {accesses : σ → ε → List (Access α)} {s : σ}
    {es : List ε}
    (h : Run.Along step (Accounts step g accesses) s es) :
    Legal (g s) (Run.collect step accesses s es) ∧
      g (es.foldl step s) = value (g s) (Run.collect step accesses s es) := by
  refine ⟨?_, value_run (h.mono fun _ _ hc => hc.2)⟩
  induction es generalizing s with
  | nil => trivial
  | cons e es ih =>
    have hrest := ih h.2
    rw [h.1.2] at hrest
    exact legal_append.mpr ⟨h.1.1, hrest⟩

end Register
