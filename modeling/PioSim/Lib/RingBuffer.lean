import Mathlib.Data.Nat.ModEq
import Mathlib.Logic.Function.Basic

/-!
# Ring buffers as bounded queues

A circular buffer of `N` slots holds the words queued from slot `tail` on. Writing the slot after
the last word appends to the queue, and stepping `tail` drops its head; `enqueue` and `dequeue` are
the bounded queue these two operations refine.
-/

namespace RingBuffer

variable {α : Type*} {N : ℕ} [NeZero N]

/-- The bounded queue's `put`: refused once `cap` words wait. -/
def enqueue (cap : ℕ) (q : List α) (v : α) : Option (List α) :=
  if q.length < cap then some (q ++ [v]) else none

def dequeue : List α → Option (α × List α)
  | [] => none
  | v :: q => some (v, q)

/-- The `count` words queued from slot `tail` on, oldest first. -/
def queued (buf : Fin N → α) (tail count : ℕ) : List α :=
  (List.range count).map fun k => buf (Fin.ofNat N (tail + k))

@[simp] theorem length_queued (buf : Fin N → α) (tail count : ℕ) :
    (queued buf tail count).length = count := by simp [queued]

@[simp] theorem queued_zero (buf : Fin N → α) (tail : ℕ) : queued buf tail 0 = [] := rfl

theorem ofNat_mod (a : ℕ) : Fin.ofNat N (a % N) = Fin.ofNat N a := by
  apply Fin.ext
  simp [Fin.ofNat]

theorem queued_mod_tail (buf : Fin N → α) (tail count : ℕ) :
    queued buf (tail % N) count = queued buf tail count := by
  apply List.map_congr_left
  intro k _
  rw [← ofNat_mod (tail % N + k), Nat.mod_add_mod, ofNat_mod]

theorem queued_succ (buf : Fin N → α) (tail count : ℕ) :
    queued buf tail (count + 1) = buf (Fin.ofNat N tail) :: queued buf (tail + 1) count := by
  simp only [queued, List.range_succ_eq_map, List.map_cons, List.map_map, Nat.add_zero]
  congr 1
  apply List.map_congr_left
  intro k _
  simp only [Function.comp, Nat.succ_eq_add_one]
  congr 2
  omega

/-- Distinct offsets below `N` reach distinct slots. -/
theorem ofNat_ne_of_lt {tail k count : ℕ} (hk : k < count) (hN : count < N) :
    Fin.ofNat N (tail + k) ≠ Fin.ofNat N (tail + count) := by
  intro he
  have hmod : tail + k ≡ tail + count [MOD N] := congrArg Fin.val he
  have heq : k = count := (Nat.ModEq.add_left_cancel' tail hmod).eq_of_lt_of_lt (hk.trans hN) hN
  omega

/-- Writing the first free slot appends the written word. -/
theorem queued_write (buf : Fin N → α) (tail count : ℕ) (v : α) (hN : count < N) :
    queued (Function.update buf (Fin.ofNat N (tail + count)) v) tail (count + 1) =
      queued buf tail count ++ [v] := by
  simp only [queued, List.range_succ, List.map_append, List.map_cons, List.map_nil,
    Function.update_self]
  congr 1
  apply List.map_congr_left
  intro k hk
  exact Function.update_of_ne (ofNat_ne_of_lt (List.mem_range.mp hk) hN) _ _

end RingBuffer
