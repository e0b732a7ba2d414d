import Mathlib.Data.List.Nodup
import Mathlib.Data.List.TakeWhile

/-!
# Rounds

In a round every member of a list takes one turn, in the order of the list. What a member finds at
its turn, and what the round leaves of it, depends on its own turn alone as long as the turns of the
others keep it.
-/

namespace Round

variable {σ α : Type*} {f : σ → α → σ} {l : List α} {a : α} {P Q : σ → Prop} {s : σ}

/-- A round without the member keeps what every other turn keeps. -/
theorem keeps (hothers : ∀ c ∈ l, c ≠ a → ∀ s, P s → P (f s c)) (ha : a ∉ l) (hs : P s) :
    P (l.foldl f s) := by
  refine List.foldlRecOn l f hs fun t ht c hc => ?_
  have hne : c ≠ a := by
    rintro rfl
    exact ha hc
  exact hothers c hc hne t ht

/-- In a round with the member its one turn decides. -/
theorem one_turn (hl : l.Nodup) (ha : a ∈ l) (hbefore : ∀ c ∈ l, c ≠ a → ∀ s, P s → P (f s c))
    (hturn : ∀ s, P s → Q (f s a)) (hafter : ∀ c ∈ l, c ≠ a → ∀ s, Q s → Q (f s c)) (hs : P s) :
    Q (l.foldl f s) := by
  obtain ⟨pre, post, rfl⟩ := List.append_of_mem ha
  have hnodup := List.nodup_append.mp hl
  have hpre : a ∉ pre := fun hmem => hnodup.2.2 a hmem a List.mem_cons_self rfl
  have hpost : a ∉ post := (List.nodup_cons.mp hnodup.2.1).1
  rw [List.foldl_append, List.foldl_cons]
  refine keeps (fun c hc => hafter c (List.mem_append_right pre (List.mem_cons_of_mem a hc)))
    hpost (hturn _ ?_)
  exact keeps (fun c hc => hbefore c (List.mem_append_left _ hc)) hpre hs

variable [DecidableEq α]

/-- The state in which the turn of member `a` finds the round. -/
def found (f : σ → α → σ) (l : List α) (a : α) (s : σ) : σ := (l.takeWhile (· ≠ a)).foldl f s

theorem found_of (hbefore : ∀ c ∈ l, c ≠ a → ∀ s, P s → P (f s c)) (hs : P s) :
    P (found f l a s) := by
  refine keeps (fun c hc => hbefore c ((List.takeWhile_subset _) hc)) (fun hmem => ?_) hs
  simpa using List.mem_takeWhile_imp hmem

end Round
