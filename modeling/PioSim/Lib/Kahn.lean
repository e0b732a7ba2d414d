import Mathlib.Data.List.Infix
import Mathlib.Logic.Relation
import PioSim.Lib.Run

/-!
# Kahn processes

A Kahn process computes, waits for the next word of its input or emits a word, and which of these it
does is a function of its own state. Its output is then determined by its input: any two executions
on the same input go along one chain, so that one output is a prefix of the other. The same holds of
a machine that runs the process between two buffers, however the host times its reads and writes.
-/

namespace Kahn

open Relation

variable {κ α β σ ε : Type*}

/-- What a process does next. -/
inductive Act (κ α β : Type*)
  | go (k : κ)
  | take (f : α → κ)
  | emit (v : β) (k : κ)

/-- The same action with the next state seen through `g`. -/
def Act.map {κ' : Type*} (g : κ → κ') : Act κ α β → Act κ' α β
  | .go k => .go (g k)
  | .take f => .take fun v => g (f v)
  | .emit v k => .emit v (g k)

/-- Whatever the action leads to satisfies `P`. -/
def Act.Forall (P : κ → Prop) : Act κ α β → Prop
  | .go k => P k
  | .take f => ∀ v, P (f v)
  | .emit _ k => P k

theorem Act.Forall.ite {P : κ → Prop} {c : Prop} [Decidable c] {a a' : Act κ α β}
    (h : a.Forall P) (h' : a'.Forall P) : (if c then a else a').Forall P := by
  split
  · exact h
  · exact h'

theorem Act.Forall.map {κ' : Type*} {P : κ → Prop} {Q : κ' → Prop} {g : κ → κ'} {a : Act κ α β}
    (h : a.Forall P) (hg : ∀ k, P k → Q (g k)) : (a.map g).Forall Q := by
  cases a with
  | go k => exact hg k h
  | take f => exact fun v => hg _ (h v)
  | emit v k => exact hg k h

/-- A process with the input still to come and the output so far. -/
structure Config (κ α β : Type*) where
  state : κ
  input : List α
  output : List β

variable (act : κ → Act κ α β)

inductive Step : Config κ α β → Config κ α β → Prop
  | go {k k' i o} : act k = .go k' → Step ⟨k, i, o⟩ ⟨k', i, o⟩
  | take {k f v i o} : act k = .take f → Step ⟨k, v :: i, o⟩ ⟨f v, i, o⟩
  | emit {k k' v i o} : act k = .emit v k' → Step ⟨k, i, o⟩ ⟨k', i, o ++ [v]⟩

abbrev Steps : Config κ α β → Config κ α β → Prop := ReflTransGen (Step act)

variable {act} {c c₁ c₂ : Config κ α β}

theorem step_rightUnique : Relator.RightUnique (Step act) := by
  intro c d e hd he
  cases hd with
  | go h =>
    cases he with
    | go h' =>
      rw [h] at h'
      cases h'
      rfl
    | take h' =>
      rw [h] at h'
      cases h'
    | emit h' =>
      rw [h] at h'
      cases h'
  | take h =>
    cases he with
    | go h' =>
      rw [h] at h'
      cases h'
    | take h' =>
      rw [h] at h'
      cases h'
      rfl
    | emit h' =>
      rw [h] at h'
      cases h'
  | emit h =>
    cases he with
    | go h' =>
      rw [h] at h'
      cases h'
    | take h' =>
      rw [h] at h'
      cases h'
    | emit h' =>
      rw [h] at h'
      cases h'
      rfl

theorem Step.output_prefix (h : Step act c c₁) : c.output <+: c₁.output := by
  cases h with
  | go => exact List.prefix_rfl
  | take => exact List.prefix_rfl
  | emit => exact List.prefix_append _ _

theorem Steps.output_prefix (h : Steps act c c₁) : c.output <+: c₁.output := by
  induction h with
  | refl => exact List.prefix_rfl
  | tail _ hs ih => exact ih.trans hs.output_prefix

/-- Two executions from one configuration: one output continues the other. -/
theorem outputs_comparable (h₁ : Steps act c c₁) (h₂ : Steps act c c₂) :
    c₁.output <+: c₂.output ∨ c₂.output <+: c₁.output := by
  rcases ReflTransGen.total_of_right_unique step_rightUnique h₁ h₂ with h | h
  · exact .inl (Steps.output_prefix h)
  · exact .inr (Steps.output_prefix h)

/-- How a machine's state holds a process between two buffers. -/
structure Buffered (κ α β σ : Type*) where
  state : σ → κ
  waiting : σ → List α
  held : σ → List β

namespace Buffered

variable (B : Buffered κ α β σ)

/-- The process inside `s`, given the words that are still to arrive and those already read. -/
def config (s : σ) (future : List α) (read : List β) : Config κ α β :=
  ⟨B.state s, B.waiting s ++ future, read ++ B.held s⟩

variable (act) in
/-- One event of the machine lets the process take steps: what is accepted comes in behind the
waiting words and what is returned leaves ahead of the held ones. -/
def Drives (s s' : σ) (accepted : List α) (returned : List β) : Prop :=
  ∀ future read,
    Steps act (B.config s (accepted ++ future) read) (B.config s' future (read ++ returned))

variable {B} {s s' s'' : σ} {step : σ → ε → σ} {accepted : σ → ε → List α}
  {returned : σ → ε → List β} {I : σ → Prop} {C : ε → Prop}

theorem Drives.of_eq (hs : B.state s' = B.state s) {acc : List α} {ret : List β}
    (hin : B.waiting s' = B.waiting s ++ acc) (hout : B.held s = ret ++ B.held s') :
    B.Drives act s s' acc ret := by
  intro future read
  rw [config, config, hs, hin, hout, List.append_assoc, List.append_assoc]

theorem Drives.go (hs : act (B.state s) = .go (B.state s')) (hin : B.waiting s' = B.waiting s)
    (hout : B.held s' = B.held s) : B.Drives act s s' [] [] := by
  intro future read
  rw [config, config, hin, hout, List.append_nil, List.nil_append]
  exact .single (.go hs)

theorem Drives.take {f : α → κ} {v : α} (hs : act (B.state s) = .take f)
    (hin : B.waiting s = v :: B.waiting s') (hk : B.state s' = f v) (hout : B.held s' = B.held s) :
    B.Drives act s s' [] [] := by
  intro future read
  rw [config, config, hin, hout, hk, List.append_nil, List.nil_append]
  exact .single (.take hs)

theorem Drives.emit {v : β} (hs : act (B.state s) = .emit v (B.state s'))
    (hin : B.waiting s' = B.waiting s) (hout : B.held s' = B.held s ++ [v]) :
    B.Drives act s s' [] [] := by
  intro future read
  rw [config, config, hin, hout, List.append_nil, List.nil_append, ← List.append_assoc]
  exact .single (.emit hs)

/-- A run drives the process with all it accepts and returns. -/
theorem drives_run
    (hstep : ∀ s e, I s → C e → I (step s e) ∧
      B.Drives act s (step s e) (accepted s e) (returned s e))
    {es : List ε} (hs : I s) (hc : ∀ e ∈ es, C e) :
    B.Drives act s (es.foldl step s) (Run.collect step accepted s es)
      (Run.collect step returned s es) := by
  induction es generalizing s with
  | nil => exact Drives.of_eq rfl (List.append_nil _).symm rfl
  | cons e es ih =>
    intro future read
    obtain ⟨hI, hd⟩ := hstep s e hs (hc e List.mem_cons_self)
    have hfirst := hd (Run.collect step accepted (step s e) es ++ future) read
    have hrest := ih hI (fun e' he' => hc e' (List.mem_cons_of_mem e he')) future
      (read ++ returned s e)
    rw [← List.append_assoc] at hfirst
    rw [List.append_assoc] at hrest
    exact hfirst.trans hrest

/-- What the host reads is determined by what it writes: two runs that accept the same words return
sequences of which one is a prefix of the other. -/
theorem returned_comparable
    (hstep : ∀ s e, I s → C e → I (step s e) ∧
      B.Drives act s (step s e) (accepted s e) (returned s e))
    {es fs : List ε} (hs : I s) (hes : ∀ e ∈ es, C e) (hfs : ∀ e ∈ fs, C e)
    (hacc : Run.collect step accepted s es = Run.collect step accepted s fs) :
    Run.collect step returned s es <+: Run.collect step returned s fs ∨
      Run.collect step returned s fs <+: Run.collect step returned s es := by
  have he := drives_run hstep hs hes [] []
  have hf := drives_run hstep hs hfs [] []
  rw [← hacc] at hf
  have hpe : Run.collect step returned s es <+:
      (B.config (es.foldl step s) [] ([] ++ Run.collect step returned s es)).output :=
    List.prefix_append _ _
  have hpf : Run.collect step returned s fs <+:
      (B.config (fs.foldl step s) [] ([] ++ Run.collect step returned s fs)).output :=
    List.prefix_append _ _
  rcases outputs_comparable he hf with h | h
  · exact List.prefix_or_prefix_of_prefix (hpe.trans h) hpf
  · exact List.prefix_or_prefix_of_prefix hpe (hpf.trans h)

end Buffered
end Kahn
