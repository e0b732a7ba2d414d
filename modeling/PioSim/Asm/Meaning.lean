import PioSim.Asm.Following
import PioSim.Asm.Symbols
import Mathlib.Order.Monotone.Basic

/-!
# The meaning of a symbol table

What the symbols of a table stand for, without the memo and the marks of `define_t`: the values that
evaluation over the labels reaches, define by define. `resolve_uint` computes exactly these, from
any context whose memo agrees with them.
-/

namespace PioSim.Asm

/-- The labels, and the texts of the defines by name. -/
structure Table where
  labels : List Label
  defines : List (Text × Text)

def AsmCtx.table (ctx : AsmCtx) : Table :=
  { labels := ctx.labels, defines := ctx.defines.map fun d => (d.name, d.expr) }

/-- The 64-bit value of a text over the values of its symbols. -/
def evalWith (symbol : Text → Option Word) (s : Text) : Option Value :=
  (exprValue (fun (_ : Unit) id => (symbol id, ())) exprMaxDepth () s).1

theorem evalWith_mono {f g : Text → Option Word} (h : ∀ id v, f id = some v → g id = some v)
    {s : Text} {v : Value} (hv : evalWith f s = some v) : evalWith g s = some v := by
  have hfinds : Finds (fun _ _ => True) (fun (_ : Unit) id => (f id, ()))
      (fun (_ : Unit) id => (g id, ())) := fun _ _ id v _ hf => ⟨h id v hf, trivial⟩
  exact (exprValue_follows hfinds trivial (Nat.le_refl _) hv).1

namespace Table
variable (t : Table)

def label (id : Text) : Option Word := (t.labels.find? (·.name = id)).map fun l =>
    BitVec.ofNat 32 l.index

def text (id : Text) : Option Text := (t.defines.find? (·.1 = id)).map (·.2)

/-- The symbols that chains of so many defines reach. -/
def symbolAt : ℕ → Text → Option Word
  | 0, id => match t.text id with
    | none => t.label id
    | some _ => none
  | n + 1, id => match t.text id with
    | none => t.label id
    | some s => (evalWith (symbolAt n) s).map (·.setWidth 32)

/-- The 32-bit value a symbol stands for, if it stands for one. -/
def symbol : Text → Option Word := t.symbolAt t.defines.length

def value (s : Text) : Option Value := evalWith t.symbol s

variable {t}

theorem symbolAt_label {id : Text} (h : t.text id = none) (n : ℕ) :
    t.symbolAt n id = t.label id := by
  cases n with
  | zero => rw [symbolAt, h]
  | succ n => rw [symbolAt, h]

theorem symbolAt_zero {id s : Text} (h : t.text id = some s) : t.symbolAt 0 id = none := by
  rw [symbolAt, h]

theorem symbolAt_succ {id s : Text} (h : t.text id = some s) (n : ℕ) :
    t.symbolAt (n + 1) id = (evalWith (t.symbolAt n) s).map (·.setWidth 32) := by
  rw [symbolAt, h]

theorem symbolAt_step (n : ℕ) : ∀ id v, t.symbolAt n id = some v →
    t.symbolAt (n + 1) id = some v := by
  induction n with
  | zero =>
    intro id v hv
    cases h : t.text id with
    | none =>
      rw [symbolAt_label h] at hv ⊢
      exact hv
    | some s =>
      rw [symbolAt_zero h] at hv
      cases hv
  | succ n ih =>
    intro id v hv
    cases h : t.text id with
    | none =>
      rw [symbolAt_label h] at hv ⊢
      exact hv
    | some s =>
      rw [symbolAt_succ h, Option.map_eq_some_iff] at hv ⊢
      obtain ⟨w, hw, rfl⟩ := hv
      exact ⟨w, evalWith_mono ih hw, rfl⟩

theorem symbolAt_mono {n m : ℕ} (hnm : n ≤ m) {id : Text} {v : Word}
    (hv : t.symbolAt n id = some v) :
    t.symbolAt m id = some v := by
  induction m, hnm using Nat.le_induction with
  | base => exact hv
  | succ m _ ih => exact symbolAt_step m id v ih

/-! ### Chains no longer than the table -/

def known (t : Table) (n : ℕ) : ℕ := t.defines.countP fun d => (t.symbolAt n d.1).isSome

theorem text_eq_some {id s : Text} (h : t.text id = some s) : ∃ d ∈ t.defines, d.1 = id := by
  rw [text, Option.map_eq_some_iff] at h
  obtain ⟨d, hd, -⟩ := h
  exact ⟨d, List.mem_of_find?_eq_some hd, by simpa using List.find?_some hd⟩

theorem known_mono (t : Table) : Monotone t.known := by
  refine monotone_nat_of_le_succ fun n => List.countP_mono_left fun d _ hd => ?_
  obtain ⟨v, hv⟩ := Option.isSome_iff_exists.mp hd
  rw [symbolAt_step n _ _ hv]
  rfl

theorem mem_of_countP_eq {α : Type} {p q : α → Bool} {l : List α} (hpq : ∀ a ∈ l, p a → q a)
    (h : l.countP p = l.countP q) : ∀ a ∈ l, q a → p a := by
  induction l with
  | nil => exact fun a ha => absurd ha List.not_mem_nil
  | cons b l ih =>
    have hle : l.countP p ≤ l.countP q :=
      List.countP_mono_left fun a ha => hpq a (List.mem_cons_of_mem _ ha)
    have hb := hpq b List.mem_cons_self
    rw [List.countP_cons, List.countP_cons] at h
    intro a ha hqa
    rcases List.mem_cons.mp ha with rfl | hmem
    · by_contra hpa
      rw [if_neg hpa, if_pos hqa] at h
      omega
    · refine ih (fun a ha => hpq a (List.mem_cons_of_mem _ ha)) ?_ a hmem hqa
      by_cases hpb : p b = true
      · rw [if_pos hpb, if_pos (hb hpb)] at h
        omega
      · rw [if_neg hpb] at h
        split at h <;> omega

/-- When one more step finds no further define, it finds no further symbol at all. -/
theorem symbolAt_of_known {n : ℕ} (h : t.known n = t.known (n + 1)) :
    t.symbolAt (n + 1) = t.symbolAt n := by
  have hback := mem_of_countP_eq (fun d _ hd => by
    obtain ⟨v, hv⟩ := Option.isSome_iff_exists.mp hd
    rw [symbolAt_step n _ _ hv]
    rfl) h
  funext id
  cases htext : t.text id with
  | none => rw [symbolAt_label htext, symbolAt_label htext]
  | some s =>
    obtain ⟨d, hd, rfl⟩ := text_eq_some htext
    cases hv : t.symbolAt n d.1 with
    | some v => exact symbolAt_step n _ _ hv
    | none =>
      cases hv' : t.symbolAt (n + 1) d.1 with
      | none => rfl
      | some v =>
        have hsome := hback d hd (by rw [hv']; rfl)
        rw [hv] at hsome
        cases hsome

/-- The symbols are what a chain as long as the table of defines reaches: no longer chain reaches
more. -/
theorem symbolAt_stable {n : ℕ} (hn : t.defines.length ≤ n) : t.symbolAt n = t.symbol := by
  have hstable : ∀ m, t.known m = t.known (m + 1) → t.known (m + 1) = t.known (m + 2) := by
    intro m hm
    unfold known
    refine List.countP_congr fun d _ => ?_
    have h₁ := symbolAt_of_known hm
    cases htext : t.text d.1 with
    | none => rw [symbolAt_label htext, symbolAt_label htext]
    | some s => rw [symbolAt_succ htext, symbolAt_succ htext, h₁]
  have hknown : ∀ m, t.defines.length ≤ m → t.known m = t.known t.defines.length := fun m hm =>
    Nat.stabilises_of_monotone (known_mono t) (fun _ => List.countP_le_length) hstable hm
  induction n, hn using Nat.le_induction with
  | base => rfl
  | succ n hn ih => rw [symbolAt_of_known (by rw [hknown n hn, hknown (n + 1) (by omega)]), ih]

theorem symbol_of_symbolAt {n : ℕ} {id : Text} {v : Word} (h : t.symbolAt n id = some v) :
    t.symbol id = some v := by
  rw [← symbolAt_stable (Nat.le_max_right n t.defines.length)]
  exact symbolAt_mono (Nat.le_max_left _ _) h

theorem symbol_label {id : Text} (h : t.text id = none) : t.symbol id = t.label id :=
  symbolAt_label h _

/-- A define stands for the low word of the value of its text. -/
theorem symbol_define {id s : Text} (h : t.text id = some s) :
    t.symbol id = (t.value s).map (·.setWidth 32) := by
  rw [← symbolAt_stable (Nat.le_succ _), symbolAt_succ h]
  rfl

end Table

end PioSim.Asm
