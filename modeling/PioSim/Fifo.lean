import PioSim.Platform
import PioSim.Lib.RingBuffer

/-!
# The TX and RX FIFOs

`pio_fifo_t` and its three operations, and their refinement of the bounded queue of `RingBuffer`.
-/

namespace PioSim

/-- `pio_fifo_t`: a ring of `PIO_SIM_FIFO_MAX` words of which `cap` are in use. -/
structure Fifo where
  buf : Fin 8 → Word
  head : ℕ
  tail : ℕ
  count : ℕ
  cap : ℕ

namespace Fifo

/-- A zeroed FIFO of capacity `cap`. -/
def empty (cap : ℕ) : Fifo := ⟨fun _ => 0, 0, 0, 0, cap⟩

def clear (f : Fifo) : Fifo := { f with head := 0, tail := 0, count := 0 }

/-- `fifo_push`; `none` is the source's `false`. -/
def push (f : Fifo) (v : Word) : Option Fifo :=
  if f.cap ≤ f.count then none
  else some { f with
    buf := Function.update f.buf (Fin.ofNat 8 f.head) v
    head := (f.head + 1) % 8
    count := f.count + 1 }

/-- `fifo_pop`; `none` is the source's `false`. -/
def pop (f : Fifo) : Option (Word × Fifo) :=
  if f.count = 0 then none
  else some (f.buf (Fin.ofNat 8 f.tail),
    { f with tail := (f.tail + 1) % 8, count := f.count - 1 })

/-- The word `fifo_pop` would read, whether or not one is waiting. -/
def front (f : Fifo) : Word := f.buf (Fin.ofNat 8 f.tail)

def isFull (f : Fifo) : Bool := f.cap ≤ f.count
def isEmpty (f : Fifo) : Bool := f.count == 0

def contents (f : Fifo) : List Word := RingBuffer.queued f.buf f.tail f.count

/-- What every operation keeps: the indices stay in the ring and `head` follows the last word. -/
structure Wf (f : Fifo) : Prop where
  count_le : f.count ≤ f.cap
  cap_le : f.cap ≤ 8
  tail_lt : f.tail < 8
  head_eq : f.head = (f.tail + f.count) % 8

@[simp] theorem length_contents (f : Fifo) : f.contents.length = f.count := by simp [contents]

theorem contents_eq_nil {f : Fifo} (h : f.count = 0) : f.contents = [] := by simp [contents, h]

@[simp] theorem contents_clear (f : Fifo) : f.clear.contents = [] := rfl

@[simp] theorem clear_cap (f : Fifo) : f.clear.cap = f.cap := rfl

theorem Wf.empty {cap : ℕ} (h : cap ≤ 8) : (Fifo.empty cap).Wf :=
  ⟨Nat.zero_le _, h, Nat.succ_pos 7, rfl⟩

theorem Wf.clear {f : Fifo} (h : f.cap ≤ 8) : f.clear.Wf := ⟨Nat.zero_le _, h, Nat.succ_pos 7, rfl⟩

theorem isFull_iff (f : Fifo) : f.isFull = true ↔ f.cap ≤ f.count := by simp [isFull]

theorem push_eq_none_iff (f : Fifo) (v : Word) : f.push v = none ↔ f.cap ≤ f.count := by
  unfold push
  split_ifs <;> simp_all

theorem pop_eq_none_iff (f : Fifo) : f.pop = none ↔ f.count = 0 := by
  unfold pop
  split_ifs <;> simp_all

/-- An accepted `fifo_push` appends the word and stays well formed. -/
theorem Wf.push {f f' : Fifo} {v : Word} (hf : f.Wf) (h : f.push v = some f') :
    f'.Wf ∧ f'.contents = f.contents ++ [v] ∧ f'.cap = f.cap := by
  have hroom : ¬ f.cap ≤ f.count := by
    intro hle
    rw [(f.push_eq_none_iff v).mpr hle] at h
    cases h
  have hcap := hf.cap_le
  simp only [Fifo.push, if_neg hroom, Option.some.injEq] at h
  subst h
  refine ⟨⟨by simp only; omega, hcap, hf.tail_lt, ?_⟩, ?_, rfl⟩
  · simp only [hf.head_eq]
    omega
  · have hslot : Fin.ofNat 8 f.head = Fin.ofNat 8 (f.tail + f.count) := by
      rw [hf.head_eq, RingBuffer.ofNat_mod]
    simp only [contents, hslot]
    exact RingBuffer.queued_write f.buf f.tail f.count v (by omega)

/-- A successful `fifo_pop` returns the oldest word and leaves the rest. -/
theorem Wf.pop {f g : Fifo} {v : Word} (hf : f.Wf) (h : f.pop = some (v, g)) :
    g.Wf ∧ f.contents = v :: g.contents ∧ g.cap = f.cap := by
  have hpos : f.count ≠ 0 := by
    intro hz
    rw [(f.pop_eq_none_iff).mpr hz] at h
    cases h
  have hcount := hf.count_le
  simp only [Fifo.pop, if_neg hpos, Option.some.injEq, Prod.mk.injEq] at h
  obtain ⟨rfl, rfl⟩ := h
  obtain ⟨n, hn⟩ : ∃ n, f.count = n + 1 := ⟨f.count - 1, by omega⟩
  refine ⟨⟨by simp only; omega, hf.cap_le, by simp only; omega, ?_⟩, ?_, rfl⟩
  · simp only [hf.head_eq]
    omega
  · simp only [contents, hn, RingBuffer.queued_succ, Nat.add_sub_cancel, RingBuffer.queued_mod_tail]

/-- `fifo_push` refines the bounded queue's `enqueue`, refusals included. -/
theorem Wf.push_refines {f : Fifo} (hf : f.Wf) (v : Word) :
    (f.push v).map contents = RingBuffer.enqueue f.cap f.contents v := by
  unfold RingBuffer.enqueue
  cases h : f.push v with
  | none =>
    rw [push_eq_none_iff] at h
    rw [Option.map_none, length_contents, if_neg (by omega)]
  | some f' =>
    have hroom : ¬ f.cap ≤ f.count := by
      rw [← push_eq_none_iff f v, h]
      simp
    rw [Option.map_some, (hf.push h).2.1, length_contents, if_pos (by omega)]

/-- `fifo_pop` refines the bounded queue's `dequeue`. -/
theorem Wf.pop_refines {f : Fifo} (hf : f.Wf) :
    f.pop.map (fun r => (r.1, r.2.contents)) = RingBuffer.dequeue f.contents := by
  cases h : f.pop with
  | none => rw [contents_eq_nil ((pop_eq_none_iff f).mp h), Option.map_none, RingBuffer.dequeue]
  | some r => rw [(hf.pop (v := r.1) (g := r.2) h).2.1, Option.map_some, RingBuffer.dequeue]

/-- Overwriting a slot of an empty FIFO queues nothing. -/
theorem Wf.write_slot {f : Fifo} (hf : f.Wf) (idx : Fin 8) (v : Word) :
    Wf { f with buf := Function.update f.buf idx v } :=
  ⟨hf.count_le, hf.cap_le, hf.tail_lt, hf.head_eq⟩

end Fifo
end PioSim
