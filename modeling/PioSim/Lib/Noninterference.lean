import Mathlib.Data.List.Basic

/-!
# Non-interference

A machine one part of which is looked at through `view`. Events are either inside that part or
outside. Outside events leave the view as it is, and what inside events do to the view depends on
the view alone; then a whole run is seen as the run of its inside events, whatever is interleaved
with them.
-/

namespace Noninterference

variable {σ ε α : Type*}

/-- The unwinding conditions, on the states with `inv` and the events with `ok`. -/
structure Unwinding (step : σ → ε → σ) (view : σ → α) (inside : ε → Bool) (inv : σ → Prop)
    (ok : ε → Prop) : Prop where
  keeps : ∀ {s e}, inv s → ok e → inv (step s e)
  respects : ∀ {s e}, inv s → ok e → inside e = false → view (step s e) = view s
  consistent : ∀ {s t e}, inv s → inv t → ok e → inside e = true → view s = view t →
    view (step s e) = view (step t e)

variable {step : σ → ε → σ} {view : σ → α} {inside : ε → Bool} {inv : σ → Prop} {ok : ε → Prop}

theorem Unwinding.run_inv (h : Unwinding step view inside inv ok) {es : List ε}
    (hok : ∀ e ∈ es, ok e)
    {s : σ} (hs : inv s) : inv (es.foldl step s) := by
  induction es generalizing s with
  | nil => exact hs
  | cons e es ih =>
    exact ih (fun f hf => hok f (List.mem_cons_of_mem _ hf)) (h.keeps hs (hok e List.mem_cons_self))

/-- A run is seen as the run of its inside events. -/
theorem Unwinding.purge (h : Unwinding step view inside inv ok) {es : List ε} (hok : ∀ e ∈ es, ok e)
    {s t : σ} (hs : inv s) (ht : inv t) (hview : view s = view t) :
    view (es.foldl step s) = view ((es.filter inside).foldl step t) := by
  induction es generalizing s t with
  | nil => exact hview
  | cons e es ih =>
    have he := hok e List.mem_cons_self
    have hrest : ∀ f ∈ es, ok f := fun f hf => hok f (List.mem_cons_of_mem _ hf)
    cases hin : inside e with
    | true =>
      rw [List.filter_cons_of_pos hin]
      exact ih hrest (h.keeps hs he) (h.keeps ht he) (h.consistent hs ht he hin hview)
    | false =>
      rw [List.filter_cons_of_neg (by rw [hin]; exact Bool.false_ne_true)]
      exact ih hrest (h.keeps hs he) ht ((h.respects hs he hin).trans hview)

end Noninterference
