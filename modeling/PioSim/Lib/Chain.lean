import Mathlib.Data.Nat.Notation

/-!
# Chains of left-associative operators

The loop of a recursive-descent parser over one precedence tier: read an operand, then as long as an
operator of the tier follows, read the next operand and combine. The state carries the input, so
everything here is about an arbitrary state with a size that bounds the number of turns.
-/

namespace Chain

variable {σ τ α ω : Type*}

/-- One precedence tier: how blanks are skipped, how an operator is read, how it combines. -/
structure Tier (σ α ω : Type*) where
  size : σ → ℕ
  skip : σ → σ
  next : σ → Option (ω × σ)
  apply : ω → α → α → σ → α × σ

namespace Tier

variable (t : Tier σ α ω) (operand : σ → α × σ)

/-- The loop, for at most so many turns. -/
def loop : ℕ → α → σ → α × σ
  | 0, v, s => (v, t.skip s)
  | n + 1, v, s =>
    match t.next (t.skip s) with
    | none => (v, t.skip s)
    | some (o, s') =>
      let r := operand s'
      let c := t.apply o v r.1 r.2
      loop n c.1 c.2

/-- One operand and the chain behind it. -/
def parse (s : σ) : α × σ :=
  let r := operand s
  t.loop operand (t.size r.2) r.1 r.2

/-- Reading never lengthens the input, and an operator takes some of it. -/
structure Consumes : Prop where
  skip : ∀ s, t.size (t.skip s) ≤ t.size s
  next : ∀ s o s', t.next s = some (o, s') → t.size s' < t.size s
  apply : ∀ o v r s, t.size (t.apply o v r s).2 ≤ t.size s
  operand : ∀ s, t.size (operand s).2 ≤ t.size s

variable {t operand}

theorem loop_of_next {v : α} {s s' : σ} {o : ω} {n : ℕ} (h : t.next (t.skip s) = some (o, s')) :
    t.loop operand (n + 1) v s = t.loop operand n (t.apply o v (operand s').1 (operand s').2).1
      (t.apply o v (operand s').1 (operand s').2).2 := by
  rw [loop, h]

theorem loop_of_stop {v : α} {s : σ} (n : ℕ) (h : t.next (t.skip s) = none) :
    t.loop operand n v s = (v, t.skip s) := by
  cases n with
  | zero => rfl
  | succ n => rw [loop, h]

/-- The loop starts by skipping blanks. -/
theorem loop_of_skip {s s' : σ} (h : t.skip s = t.skip s') (n : ℕ) (v : α) :
    t.loop operand n v s = t.loop operand n v s' := by
  cases n with
  | zero => rw [loop, loop, h]
  | succ n => rw [loop, loop, h]

/-- The loop reads an operator at each of its turns, so the size of the input bounds them. -/
theorem loop_enough (h : t.Consumes operand) :
    ∀ (n : ℕ) (v : α) (s : σ), t.size s ≤ n →
      t.loop operand n v s = t.loop operand (t.size s) v s := by
  intro n
  induction n using Nat.strongRecOn with
  | _ n ih =>
    intro v s hn
    cases hnext : t.next (t.skip s) with
    | none => rw [loop_of_stop n hnext, loop_of_stop _ hnext]
    | some r =>
      obtain ⟨o, s'⟩ := r
      have hlt := h.next _ _ _ hnext
      have hskip := h.skip s
      obtain ⟨m, rfl⟩ : ∃ m, n = m + 1 := ⟨n - 1, by omega⟩
      obtain ⟨k, hk⟩ : ∃ k, t.size s = k + 1 := ⟨t.size s - 1, by omega⟩
      have hop := h.operand s'
      have happly := h.apply o v (operand s').1 (operand s').2
      rw [hk, loop_of_next hnext, loop_of_next hnext, ih m (by omega) _ _ (by omega)]
      rw [ih k (by omega) _ _ (by omega)]

theorem size_loop (h : t.Consumes operand) :
    ∀ (n : ℕ) (v : α) (s : σ), t.size (t.loop operand n v s).2 ≤ t.size s := by
  intro n
  induction n with
  | zero => exact fun v s => h.skip s
  | succ n ih =>
    intro v s
    cases hnext : t.next (t.skip s) with
    | none =>
      rw [loop_of_stop _ hnext]
      exact h.skip s
    | some r =>
      obtain ⟨o, s'⟩ := r
      have hlt := h.next _ _ _ hnext
      have hskip := h.skip s
      have hop := h.operand s'
      have happly := h.apply o v (operand s').1 (operand s').2
      have hrest := ih (t.apply o v (operand s').1 (operand s').2).1
        (t.apply o v (operand s').1 (operand s').2).2
      rw [loop_of_next hnext]
      omega

theorem size_parse (h : t.Consumes operand) (s : σ) : t.size (t.parse operand s).2 ≤ t.size s :=
  Nat.le_trans (size_loop h _ _ _) (h.operand s)

/-- What every reading keeps, the chain keeps. -/
theorem keeps_loop {P : σ → Prop} (hskip : ∀ s, P s → P (t.skip s))
    (hnext : ∀ s o s', t.next s = some (o, s') → P s → P s')
    (happly : ∀ o v r s, P s → P (t.apply o v r s).2) (hop : ∀ s, P s → P (operand s).2) :
    ∀ (n : ℕ) (v : α) (s : σ), P s → P (t.loop operand n v s).2 := by
  intro n
  induction n with
  | zero => exact fun v s => hskip s
  | succ n ih =>
    intro v s h
    cases hnext' : t.next (t.skip s) with
    | none =>
      rw [loop_of_stop _ hnext']
      exact hskip s h
    | some r =>
      obtain ⟨o, s'⟩ := r
      rw [loop_of_next hnext']
      exact ih _ _ (happly _ _ _ _ (hop _ (hnext _ _ _ hnext' (hskip s h))))

/-- Two chains whose readings keep their states related, whatever the values, keep them related. -/
theorem tracks_loop {u : Tier τ α ω} {f : σ → α × σ} {g : τ → α × τ} {Q : σ → τ → Prop}
    (hskip : ∀ s s', Q s s' → Q (t.skip s) (u.skip s'))
    (hnext : ∀ s s', Q s s' → (t.next s = none ∧ u.next s' = none) ∨
      ∃ o r r', t.next s = some (o, r) ∧ u.next s' = some (o, r') ∧ Q r r')
    (happly : ∀ o v w v' w' s s', Q s s' → Q (t.apply o v w s).2 (u.apply o v' w' s').2)
    (hop : ∀ s s', Q s s' → Q (f s).2 (g s').2) :
    ∀ (n : ℕ) (v v' : α) (s : σ) (s' : τ), Q s s' → Q (t.loop f n v s).2 (u.loop g n v' s').2 := by
  intro n
  induction n with
  | zero => exact fun _ _ s s' => hskip s s'
  | succ n ih =>
    intro v v' s s' h
    rcases hnext _ _ (hskip s s' h) with ⟨hstop, hstop'⟩ | ⟨o, r, r', hread, hread', hr⟩
    · rw [loop_of_stop _ hstop, loop_of_stop _ hstop']
      exact hskip s s' h
    · rw [loop_of_next hread, loop_of_next hread']
      exact ih _ _ _ _ (happly _ _ _ _ _ _ _ (hop r r' hr))

/-! ### Simulation

A chain over one state is followed by a chain over another, as long as the first has not failed. -/

/-- Reading on the left is followed on the right, wherever it leaves the left state live. Operands
need to be followed only on inputs up to a size. -/
structure Simulates (t : Tier σ α ω) (u : Tier τ α ω) (f : σ → α × σ) (g : τ → α × τ)
    (Live : σ → Prop) (Q : σ → τ → Prop) (bound : ℕ) : Prop where
  skip : ∀ s s', Q s s' → Q (t.skip s) (u.skip s')
  stop : ∀ s s', Q s s' → t.next s = none → u.next s' = none
  next : ∀ s s' o r, Q s s' → t.next s = some (o, r) → ∃ r', u.next s' = some (o, r') ∧ Q r r'
  apply : ∀ o v w s s', Q s s' → Live (t.apply o v w s).2 →
    (t.apply o v w s).1 = (u.apply o v w s').1 ∧ Q (t.apply o v w s).2 (u.apply o v w s').2
  operand : ∀ s s', t.size s ≤ bound → Q s s' → Live (f s).2 →
    (f s).1 = (g s').1 ∧ Q (f s).2 (g s').2

variable {u : Tier τ α ω} {f : σ → α × σ} {g : τ → α × τ} {Live : σ → Prop} {Q : σ → τ → Prop}
  {bound : ℕ}

theorem Simulates.loop (h : Simulates t u f g Live Q bound) (hf : t.Consumes f) (hg : u.Consumes g)
    (hlive : ∀ n v s, Live (t.loop f n v s).2 → Live s)
    (happly : ∀ o v w s, Live (t.apply o v w s).2 → Live s) :
    ∀ (n : ℕ) (v : α) (s : σ) (m : ℕ) (s' : τ), t.size s ≤ n → t.size s ≤ bound → u.size s' ≤ m →
      Q s s' → Live (t.loop f n v s).2 →
      (t.loop f n v s).1 = (u.loop g m v s').1 ∧ Q (t.loop f n v s).2 (u.loop g m v s').2 := by
  intro n
  induction n with
  | zero =>
    intro v s m s' hn _ _ hQ _
    have hskip := h.skip s s' hQ
    have hstop : t.next (t.skip s) = none := by
      cases hnext : t.next (t.skip s) with
      | none => rfl
      | some r =>
        have hlt := hf.next _ _ _ hnext
        have hle := hf.skip s
        omega
    rw [loop_of_stop 0 hstop, loop_of_stop m (h.stop _ _ hskip hstop)]
    exact ⟨rfl, hskip⟩
  | succ n ih =>
    intro v s m s' hn hbound hm hQ hl
    have hskip := h.skip s s' hQ
    cases hnext : t.next (t.skip s) with
    | none =>
      rw [loop_of_stop _ hnext, loop_of_stop m (h.stop _ _ hskip hnext)]
      exact ⟨rfl, hskip⟩
    | some r =>
      obtain ⟨o, r⟩ := r
      obtain ⟨r', hnext', hr⟩ := h.next _ _ _ _ hskip hnext
      have hlt := hf.next _ _ _ hnext
      have hlt' := hg.next _ _ _ hnext'
      have hle := hf.skip s
      have hle' := hg.skip s'
      obtain ⟨m, rfl⟩ : ∃ k, m = k + 1 := ⟨m - 1, by omega⟩
      rw [loop_of_next hnext] at hl ⊢
      rw [loop_of_next hnext']
      have hlive' := hlive _ _ _ hl
      obtain ⟨hvalue, hoperand⟩ := h.operand r r' (by omega) hr (happly _ _ _ _ hlive')
      obtain ⟨hresult, happlied⟩ := h.apply o v (f r).1 _ _ hoperand hlive'
      have hsize := hf.operand r
      have hsize' := hg.operand r'
      have hsize₂ := hf.apply o v (f r).1 (f r).2
      have hsize₂' := hg.apply o v (f r).1 (g r').2
      rw [← hvalue, ← hresult]
      exact ih _ _ m _ (by omega) (by omega) (by omega) happlied hl

theorem Simulates.parse (h : Simulates t u f g Live Q bound) (hf : t.Consumes f) (hg : u.Consumes g)
    (hlive : ∀ n v s, Live (t.loop f n v s).2 → Live s)
    (happly : ∀ o v w s, Live (t.apply o v w s).2 → Live s) {s : σ} {s' : τ}
    (hs : t.size s ≤ bound) (hQ : Q s s') (hl : Live (t.parse f s).2) :
    (t.parse f s).1 = (u.parse g s').1 ∧ Q (t.parse f s).2 (u.parse g s').2 := by
  have hsize := hf.operand s
  obtain ⟨hvalue, hoperand⟩ := h.operand s s' hs hQ (hlive _ _ _ hl)
  unfold Tier.parse
  dsimp only
  rw [← hvalue]
  exact h.loop hf hg hlive happly _ _ _ _ _ (Nat.le_refl _) (by omega) (Nat.le_refl _) hoperand hl

end Tier
end Chain
