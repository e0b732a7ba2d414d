import Mathlib.Data.Nat.Notation

/-!
# Runs of a deterministic machine

A machine takes one event at a time. `Along` asks a condition of every step of a run at the state
the step starts in, `collect` gathers what the steps output, and the lemmas lift a fact about one
step to the whole run: an invariant, an invariant that also tracks the outputs, and a relation
between the runs of two machines under paired events.
-/

namespace Run

variable {σ τ ε α : Type*} (step : σ → ε → σ)

/-- Condition `C` holds at each step of the run from `s`. -/
def Along (C : σ → ε → Prop) : σ → List ε → Prop
  | _, [] => True
  | s, e :: es => C s e ∧ Along C (step s e) es

/-- The outputs of the run from `s`, in order. -/
def collect (out : σ → ε → List α) : σ → List ε → List α
  | _, [] => []
  | s, e :: es => out s e ++ collect out (step s e) es

variable {step}

instance decidableAlong {C : σ → ε → Prop} [∀ s e, Decidable (C s e)] :
    ∀ s es, Decidable (Along step C s es)
  | _, [] => isTrue trivial
  | s, e :: es =>
    have : Decidable (Along step C (step s e) es) := decidableAlong (step s e) es
    inferInstanceAs (Decidable (C s e ∧ Along step C (step s e) es))

theorem Along.mono {C D : σ → ε → Prop} (h : ∀ s e, C s e → D s e) :
    ∀ {s : σ} {es : List ε}, Along step C s es → Along step D s es
  | _, [], _ => trivial
  | _, _ :: _, ⟨hc, hr⟩ => ⟨h _ _ hc, hr.mono h⟩

theorem along_congr {C D : σ → ε → Prop} (h : ∀ s e, C s e ↔ D s e) {s : σ} {es : List ε} :
    Along step C s es ↔ Along step D s es :=
  ⟨fun hc => hc.mono fun s e => (h s e).mp, fun hd => hd.mono fun s e => (h s e).mpr⟩

theorem along_of_forall {C : σ → ε → Prop} (h : ∀ s e, C s e) (s : σ) (es : List ε) :
    Along step C s es := by
  induction es generalizing s with
  | nil => trivial
  | cons e es ih => exact ⟨h s e, ih _⟩

theorem along_append {C : σ → ε → Prop} (s : σ) (es fs : List ε) :
    Along step C s (es ++ fs) ↔ Along step C s es ∧ Along step C (es.foldl step s) fs := by
  induction es generalizing s with
  | nil => simp [Along]
  | cons e es ih => simp only [List.cons_append, Along, ih, List.foldl_cons, and_assoc]

theorem along_of_mem {P : ε → Prop} {es : List ε} (h : ∀ e ∈ es, P e) (s : σ) :
    Along step (fun _ e => P e) s es := by
  induction es generalizing s with
  | nil => trivial
  | cons e es ih =>
      exact ⟨h e List.mem_cons_self, ih (fun f hf => h f (List.mem_cons_of_mem _ hf)) _⟩

theorem Along.and {C D : σ → ε → Prop} {s : σ} {es : List ε} (hc : Along step C s es)
    (hd : Along step D s es) : Along step (fun s e => C s e ∧ D s e) s es := by
  induction es generalizing s with
  | nil => trivial
  | cons e es ih => exact ⟨⟨hc.1, hd.1⟩, ih hc.2 hd.2⟩

theorem collect_append (out : σ → ε → List α) (s : σ) (es fs : List ε) :
    collect step out s (es ++ fs) = collect step out s es ++
      collect step out (es.foldl step s) fs := by
  induction es generalizing s with
  | nil => rfl
  | cons e es ih => rw [List.cons_append, collect, ih, collect, List.append_assoc, List.foldl_cons]

theorem collect_eq_nil {out : σ → ε → List α} {es : List ε}
    (h : ∀ s, ∀ e ∈ es, out s e = []) (s : σ) :
    collect step out s es = [] := by
  induction es generalizing s with
  | nil => rfl
  | cons e es ih =>
    rw [collect, h s e List.mem_cons_self, ih fun s f hf => h s f (List.mem_cons_of_mem _ hf)]
    rfl

/-- A condition on the image of a machine is one on the machine. -/
theorem along_hom {step' : τ → ε → τ} {π : σ → τ} (h : ∀ s e, π (step s e) = step' (π s) e)
    {C : τ → ε → Prop} (s : σ) (es : List ε) :
    Along step' C (π s) es ↔ Along step (fun s e => C (π s) e) s es := by
  induction es generalizing s with
  | nil => exact Iff.rfl
  | cons e es ih => exact and_congr_right fun _ => by rw [← h, ih]

/-- The outputs of the image of a machine are outputs of the machine. -/
theorem collect_hom {step' : τ → ε → τ} {π : σ → τ} (h : ∀ s e, π (step s e) = step' (π s) e)
    (out : τ → ε → List α) (s : σ) (es : List ε) :
    collect step' out (π s) es = collect step (fun s e => out (π s) e) s es := by
  induction es generalizing s with
  | nil => rfl
  | cons e es ih => rw [collect, collect, ← h, ih]

/-- The invariant rule: what each step keeps while `C` holds, the run keeps. -/
theorem invariant {I : σ → Prop} {C : σ → ε → Prop}
    (hstep : ∀ s e, I s → C s e → I (step s e)) {s : σ} {es : List ε}
    (hs : I s) (hc : Along step C s es) : I (es.foldl step s) := by
  induction es generalizing s with
  | nil => exact hs
  | cons e es ih => exact ih (hstep s e hs hc.1) hc.2

/-- What fails at the start of a run and holds at its end becomes true at one of its steps. -/
theorem exists_turn {P : σ → Prop} {s : σ} {es : List ε} (hs : ¬ P s) (he : P (es.foldl step s)) :
    ∃ before e after, es = before ++ e :: after ∧
      ¬ P (before.foldl step s) ∧ P (step (before.foldl step s) e) := by
  induction es generalizing s with
  | nil => exact absurd he hs
  | cons e es ih =>
    by_cases hnow : P (step s e)
    · exact ⟨[], e, es, rfl, hs, hnow⟩
    · obtain ⟨before, f, after, hsplit, hwas, hturn⟩ := ih hnow he
      exact ⟨e :: before, f, after, by rw [hsplit, List.cons_append], hwas, hturn⟩

/-- The invariant rule at every prefix of the run. -/
theorem invariant_prefix {I : σ → Prop} {C : σ → ε → Prop}
    (hstep : ∀ s e, I s → C s e → I (step s e)) {s : σ} {es fs : List ε}
    (hs : I s) (hc : Along step C s es) (hp : fs <+: es) : I (fs.foldl step s) := by
  obtain ⟨gs, rfl⟩ := hp
  exact invariant hstep hs ((along_append s fs gs).mp hc).1

/-- A relation between the state and the outputs so far, kept by each step, holds at the end. -/
theorem invariant_collect {out : σ → ε → List α} {J : σ → List α → Prop} {C : σ → ε → Prop}
    (hstep : ∀ s e l, J s l → C s e → J (step s e) (l ++ out s e)) {s : σ} {es : List ε}
    {l : List α} (hs : J s l) (hc : Along step C s es) :
    J (es.foldl step s) (l ++ collect step out s es) := by
  induction es generalizing s l with
  | nil => simpa [collect] using hs
  | cons e es ih =>
    have h := ih (hstep s e l hs hc.1) hc.2
    simpa only [collect, List.foldl_cons, List.append_assoc] using h

end Run
