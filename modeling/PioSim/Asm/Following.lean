import PioSim.Asm.Evaluation

/-!
# One evaluation following another

Two evaluators read two texts over two symbol states. As long as the first has not flagged an error,
the second returns the same values, and their texts and states stay related.
-/

namespace PioSim.Asm

variable {σ τ : Type}

/-- A character an operator starts with or goes on with. -/
def isOperator (c : Char) : Bool := "&|^*/+-<>:".toList.contains c

/-- A relation on texts that the evaluator keeps when it skips blanks and reads operators. -/
structure Follows (T : Text → Text → Prop) : Prop where
  blanks : ∀ p q, T p q → T (p.dropWhile isBlank) (q.dropWhile isBlank)
  operator : ∀ c p q, isOperator c = true → T (c :: p) q → ∃ q', q = c :: q' ∧ T p q'
  operator' : ∀ c p q, isOperator c = true → T p (c :: q) → ∃ p', p = c :: p' ∧ T p' q
  close : ∀ p q, T (')' :: p) q → ∃ q', q = ')' :: q' ∧ T p q'

/-- The states of the two evaluators, neither of them flagged so far. -/
structure Along (T : Text → Text → Prop) (R : σ → τ → Prop) (e : Expr σ) (e' : Expr τ) : Prop where
  ok : e'.ok = true
  text : T e.p e'.p
  state : R e.st e'.st

/-- The second reader follows the first, on texts up to a length. -/
def Followed (T : Text → Text → Prop) (R : σ → τ → Prop) (n : ℕ) (f : Reader σ)
    (g : Reader τ) : Prop :=
  ∀ e e', e.p.length ≤ n → Along T R e e' → (f e).2.ok = true →
    (f e).1 = (g e').1 ∧ Along T R (f e).2 (g e').2

/-! ### Operators -/

section Operators
variable {T : Text → Text → Prop} (h : Follows T) {p q : Text}
include h

/-- What an operator table has to satisfy for the second text to show the same operator. -/
def OpFollows (T : Text → Text → Prop) (op : Text → Option (BinOp × Text)) : Prop :=
  (∀ p q o p', T p q → op p = some (o, p') → ∃ q', op q = some (o, q') ∧ T p' q') ∧
    ∀ p q o q', T p q → op q = some (o, q') → ∃ p', op p = some (o, p') ∧ T p' q'

theorem bitOp_follows : OpFollows T bitOp := by
  constructor
  · intro p q o p' hT hop
    unfold bitOp at hop
    split at hop <;> cases hop
    all_goals
      obtain ⟨q', rfl, hT'⟩ := h.operator _ _ _ (by decide) hT
      exact ⟨q', rfl, hT'⟩
  · intro p q o q' hT hop
    unfold bitOp at hop
    split at hop <;> cases hop
    all_goals
      obtain ⟨p', rfl, hT'⟩ := h.operator' _ _ _ (by decide) hT
      exact ⟨p', rfl, hT'⟩

theorem mulOp_follows : OpFollows T mulOp := by
  constructor
  · intro p q o p' hT hop
    unfold mulOp at hop
    split at hop <;> cases hop
    all_goals
      obtain ⟨q', rfl, hT'⟩ := h.operator _ _ _ (by decide) hT
      exact ⟨q', rfl, hT'⟩
  · intro p q o q' hT hop
    unfold mulOp at hop
    split at hop <;> cases hop
    all_goals
      obtain ⟨p', rfl, hT'⟩ := h.operator' _ _ _ (by decide) hT
      exact ⟨p', rfl, hT'⟩

theorem addOp_follows : OpFollows T addOp := by
  constructor
  · intro p q o p' hT hop
    unfold addOp at hop
    split at hop <;> cases hop
    all_goals
      obtain ⟨q', rfl, hT'⟩ := h.operator _ _ _ (by decide) hT
      exact ⟨q', rfl, hT'⟩
  · intro p q o q' hT hop
    unfold addOp at hop
    split at hop <;> cases hop
    all_goals
      obtain ⟨p', rfl, hT'⟩ := h.operator' _ _ _ (by decide) hT
      exact ⟨p', rfl, hT'⟩

theorem shiftOp_follows : OpFollows T shiftOp := by
  constructor
  · intro p q o p' hT hop
    unfold shiftOp at hop
    split at hop <;> cases hop
    all_goals
      obtain ⟨q₁, rfl, hT₁⟩ := h.operator _ _ _ (by decide) hT
      obtain ⟨q', rfl, hT'⟩ := h.operator _ _ _ (by decide) hT₁
      exact ⟨q', rfl, hT'⟩
  · intro p q o q' hT hop
    unfold shiftOp at hop
    split at hop <;> cases hop
    all_goals
      obtain ⟨p₁, rfl, hT₁⟩ := h.operator' _ _ _ (by decide) hT
      obtain ⟨p', rfl, hT'⟩ := h.operator' _ _ _ (by decide) hT₁
      exact ⟨p', rfl, hT'⟩

end Operators

/-! ### Tiers -/

section Tiers
variable {T : Text → Text → Prop} {R : σ → τ → Prop} {n : ℕ}

theorem Along.skipWs (h : Follows T) {e : Expr σ} {e' : Expr τ} (ha : Along T R e e') :
    Along T R e.skipWs e'.skipWs := ⟨ha.ok, h.blanks _ _ ha.text, ha.state⟩

theorem Along.applyOp {o : BinOp} {v r : Value} {e : Expr σ} {e' : Expr τ} (ha : Along T R e e')
    (hok : (Expr.applyOp o v r e).2.ok = true) :
    (Expr.applyOp o v r e).1 = (Expr.applyOp o v r e').1 ∧
      Along T R (Expr.applyOp o v r e).2 (Expr.applyOp o v r e').2 := by
  cases o with
  | div | shl | shr =>
    unfold Expr.applyOp at hok ⊢
    dsimp only at hok ⊢
    split at hok
    · cases hok
    · rename_i hc
      rw [if_neg hc, if_neg hc]
      exact ⟨rfl, ha⟩
  | _ => exact ⟨rfl, ha⟩

/-- Readers of the tiers look nothing up themselves. -/
def lookNothing (s : σ) (_ : Text) : Option Word × σ := (none, s)

section Sticky
variable {f : Reader σ}

theorem Sticky.bit (h : Sticky f) : Sticky (exprBit f) := Keeps.bit h (kept_flagged lookNothing)
theorem Sticky.mul (h : Sticky f) : Sticky (exprMul f) := Keeps.mul h (kept_flagged lookNothing)
theorem Sticky.add (h : Sticky f) : Sticky (exprAdd f) := Keeps.add h (kept_flagged lookNothing)

end Sticky

theorem sticky_prim (look : σ → Text → Option Word × σ) (room : ℕ) : Sticky (exprPrim look room) :=
  (kept_flagged look).prim room

theorem Followed.tier (h : Follows T) {op : Text → Option (BinOp × Text)} (hs : Shortens op)
    (hop : OpFollows T op) {f : Reader σ} {g : Reader τ} (hf : Shrinks f) (hg : Shrinks g)
    (hsticky : Sticky f) (hfg : Followed T R n f g) :
    Followed T R n ((Expr.tier op).parse f) ((Expr.tier op).parse g) := by
  intro e e' hn ha hok
  have hkept := kept_flagged (σ := σ) lookNothing
  have hsim : Chain.Tier.Simulates (Expr.tier op) (Expr.tier op) f g (fun e => e.ok = true)
      (Along T R) n := by
    refine ⟨fun s s' hs => hs.skipWs h, ?_, ?_, fun o v w s s' hs hl => hs.applyOp hl, hfg⟩
    · intro s s' hs hnone
      simp only [Expr.tier, Option.map_eq_none_iff] at hnone ⊢
      cases hq : op s'.p with
      | none => rfl
      | some r =>
        obtain ⟨p', hp, -⟩ := hop.2 _ _ _ _ hs.text hq
        rw [hnone] at hp
        cases hp
    · intro s s' o r hs hnext
      simp only [Expr.tier, Option.map_eq_some_iff, Prod.exists] at hnext
      obtain ⟨o', p, hp, hr⟩ := hnext
      obtain ⟨rfl, rfl⟩ := Prod.mk.inj hr
      obtain ⟨q, hq, hT⟩ := hop.1 _ _ _ _ hs.text hp
      refine ⟨{ s' with p := q }, ?_, hs.ok, hT, hs.state⟩
      simp only [Expr.tier, hq, Option.map_some]
  refine hsim.parse (Expr.tier_consumes hs hf) (Expr.tier_consumes hs hg) ?_ ?_ hn ha hok
  · intro m v s hl
    have hloop : Sticky (fun e => (Expr.tier op).loop f m v e) := fun e he =>
      hkept.loop op hsticky m v he
    exact hloop.ok hl
  · intro o v w s hl
    have happly : Sticky (fun e => Expr.applyOp o v w e) := fun e he => hkept.applyOp o v w he
    exact happly.ok hl

section Pair
variable (h : Follows T) {f : Reader σ} {g : Reader τ} (hf : Shrinks f) (hg : Shrinks g)
  (hsticky : Sticky f) (hfg : Followed T R n f g)
include h hf hg hsticky hfg

theorem Followed.bit : Followed T R n (exprBit f) (exprBit g) :=
  hfg.tier h bitOp_shortens (bitOp_follows h) hf hg hsticky

theorem Followed.mul : Followed T R n (exprMul f) (exprMul g) :=
  (hfg.bit h hf hg hsticky).tier h mulOp_shortens (mulOp_follows h) hf.bit hg.bit hsticky.bit

theorem Followed.add : Followed T R n (exprAdd f) (exprAdd g) :=
  (hfg.mul h hf hg hsticky).tier h addOp_shortens (addOp_follows h) hf.mul hg.mul hsticky.mul

theorem Followed.shift : Followed T R n (exprShift f) (exprShift g) :=
  (hfg.add h hf hg hsticky).tier h shiftOp_shortens (shiftOp_follows h) hf.add hg.add hsticky.add

end Pair

theorem exprReverse_colons {f : ℕ → Reader σ} {room : ℕ} {e : Expr σ} {p : Text}
    (h : e.skipWs.p = ':' :: ':' :: p) :
    exprReverse f (room + 1) e =
      ((reverse32 ((exprReverse f room { e with p := p }).1.setWidth 32)).setWidth 64,
        (exprReverse f room { e with p := p }).2) := by
  rw [exprReverse, h]
  rfl

theorem exprReverse_shift {f : ℕ → Reader σ} {room : ℕ} {e : Expr σ}
    (h : ∀ p, e.skipWs.p ≠ ':' :: ':' :: p) :
    exprReverse f (room + 1) e = exprShift (f room) e.skipWs := by
  unfold exprReverse
  split
  · rename_i p hp
    exact absurd hp (h p)
  · rfl

/-- With room to spare on the right: nesting costs both sides one level. -/
theorem Followed.reverse (h : Follows T) {f : ℕ → Reader σ} {g : ℕ → Reader τ} {k : ℕ}
    (hf : ∀ room, Shrinks (f room)) (hg : ∀ room, Shrinks (g room))
    (hsticky : ∀ room, Sticky (f room))
    (hfg : ∀ room room', room + k ≤ room' → Followed T R n (f room) (g room')) :
    ∀ room room', room + k ≤ room' → Followed T R n (exprReverse f room) (exprReverse g room') := by
  intro room
  induction room with
  | zero =>
    intro room' _ e e' _ _ hok
    cases hok
  | succ room ih =>
    intro room' hroom e e' hn ha hok
    obtain ⟨room', rfl⟩ : ∃ r, room' = r + 1 := ⟨room' - 1, by omega⟩
    have hskip := ha.skipWs h
    have hlength := e.length_skipWs
    by_cases hcolons : ∃ p, e.skipWs.p = ':' :: ':' :: p
    · obtain ⟨p, hp⟩ := hcolons
      have hT := hskip.text
      rw [hp] at hT
      obtain ⟨q₁, hq₁, hT₁⟩ := h.operator _ _ _ (by decide) hT
      obtain ⟨q, rfl, hT₂⟩ := h.operator _ _ _ (by decide) hT₁
      rw [exprReverse_colons hp] at hok ⊢
      rw [exprReverse_colons hq₁]
      rw [hp, List.length_cons, List.length_cons] at hlength
      obtain ⟨hvalue, hafter⟩ := ih room' (by omega) { e with p := p } { e' with p := q }
        (by simp only; omega) ⟨ha.ok, hT₂, ha.state⟩ hok
      exact ⟨by rw [hvalue], hafter⟩
    · have hcolons' : ∀ q, e'.skipWs.p ≠ ':' :: ':' :: q := by
        intro q hq
        have hT := hskip.text
        rw [hq] at hT
        obtain ⟨p₁, hp₁, hT₁⟩ := h.operator' _ _ _ (by decide) hT
        obtain ⟨p, rfl, -⟩ := h.operator' _ _ _ (by decide) hT₁
        exact hcolons ⟨p, hp₁⟩
      rw [exprReverse_shift (fun p hp => hcolons ⟨p, hp⟩)] at hok ⊢
      rw [exprReverse_shift hcolons']
      exact (hfg room room' (by omega)).shift h (hf _) (hg _) (hsticky _) _ _ (by omega) hskip hok

end Tiers

/-! ### Primaries -/

section Primary
variable {T : Text → Text → Prop} {R : σ → τ → Prop} {look : σ → Text → Option Word × σ}
  {look' : τ → Text → Option Word × τ} {k : ℕ}

/-- At this place the second reader of primaries follows the first. -/
def FollowedAt (T : Text → Text → Prop) (R : σ → τ → Prop) (look : σ → Text → Option Word × σ)
    (look' : τ → Text → Option Word × τ) (room room' : ℕ) (e : Expr σ) (e' : Expr τ) : Prop :=
  (exprPrim look room e).2.ok = true →
    (exprPrim look room e).1 = (exprPrim look' room' e').1 ∧
      Along T R (exprPrim look room e).2 (exprPrim look' room' e').2

/-- At the head of a primary the two texts either open the same operand of a unary minus or the same
parenthesis, or the second reader is known to follow. -/
def LeavesFollow (T : Text → Text → Prop) (R : σ → τ → Prop) (look : σ → Text → Option Word × σ)
    (look' : τ → Text → Option Word × τ) (k : ℕ) : Prop :=
  ∀ room room' e e' c p, room + k ≤ room' → e.p = c :: p → isBlank c = false → Along T R e e' →
    (∃ q, e'.p = c :: q ∧ (c = '-' ∨ c = '(') ∧ T p q) ∨ FollowedAt T R look look' room room' e e'

theorem isBlank_head {p q : Text} {c : Char} (h : p.dropWhile isBlank = c :: q) :
    isBlank c = false := by
  have hne : p.dropWhile isBlank ≠ [] := by rw [h]; exact List.cons_ne_nil _ _
  have hhead := List.head_dropWhile_not isBlank hne
  simp only [h, List.head_cons] at hhead
  exact hhead

theorem Expr.skipWs_of_head {e : Expr σ} {c : Char} {p : Text} (h : e.p = c :: p)
    (hc : isBlank c = false) : e.skipWs = e := by
  unfold Expr.skipWs
  rw [h, List.dropWhile_cons_of_neg (by rw [hc]; exact Bool.false_ne_true), ← h]

theorem exprPrim_minus {e : Expr σ} {p : Text} {room : ℕ} (h : e.p = '-' :: p) :
    exprPrim look room e = (-(exprMul (exprPrim look room) { e with p := p }).1,
      (exprMul (exprPrim look room) { e with p := p }).2) := by
  rw [exprPrim_eq (c := '-') (p := p) (by rw [Expr.skipWs_of_head h (by decide), h]), if_pos rfl]

theorem exprPrim_paren {e : Expr σ} {p : Text} {room : ℕ} (h : e.p = '(' :: p) :
    exprPrim look room e =
      match (exprReverse (exprPrim look) room { e with p := p }).2.skipWs.p with
      | ')' :: q => ((exprReverse (exprPrim look) room { e with p := p }).1,
          { (exprReverse (exprPrim look) room { e with p := p }).2 with p := q })
      | _ => ((exprReverse (exprPrim look) room { e with p := p }).1,
          (exprReverse (exprPrim look) room { e with p := p }).2.skipWs.fail) := by
  rw [exprPrim_eq (c := '(') (p := p) (by rw [Expr.skipWs_of_head h (by decide), h]),
    if_neg (by decide)]
  exact if_pos rfl

/-- The second evaluator follows the first as soon as it does so at the leaves. -/
theorem Follows.prim (h : Follows T) (hleaf : LeavesFollow T R look look' k) :
    ∀ n room room', room + k ≤ room' → Followed T R n (exprPrim look room)
    (exprPrim look' room') := by
  intro n
  induction n with
  | zero =>
    intro room room' _ e e' hn _ hok
    have hp : e.skipWs.p = [] := by
      have hskip := e.length_skipWs
      exact List.eq_nil_of_length_eq_zero (by omega)
    rw [exprPrim_nil hp] at hok
    cases hok
  | succ n ih =>
    intro room room' hroom e e' hn ha hok
    rw [← exprPrim_skipWs e] at hok ⊢
    rw [← exprPrim_skipWs e']
    have hlength := e.length_skipWs
    have hskip := ha.skipWs h
    cases hp : e.skipWs.p with
    | nil =>
      rw [exprPrim_skipWs, exprPrim_nil hp] at hok
      cases hok
    | cons c p =>
      rw [hp, List.length_cons] at hlength
      rcases hleaf room room' e.skipWs e'.skipWs c p hroom hp (isBlank_head hp) hskip with
        ⟨q, hq, rfl | rfl, hT⟩ | hfollow
      · rw [exprPrim_minus hp] at hok ⊢
        rw [exprPrim_minus hq]
        obtain ⟨hvalue, hafter⟩ := (ih room room' hroom).mul h (shrinks_exprPrim _ _)
          (shrinks_exprPrim _ _) (sticky_prim _ _) { e.skipWs with p := p }
            { e'.skipWs with p := q }
          (by simp only; omega) ⟨hskip.ok, hT, hskip.state⟩ hok
        exact ⟨by rw [hvalue], hafter⟩
      · rw [exprPrim_paren hp] at hok ⊢
        rw [exprPrim_paren hq]
        have hinner := Followed.reverse h (shrinks_exprPrim look) (shrinks_exprPrim look')
          (sticky_prim look) ih room room' hroom { e.skipWs with p := p } { e'.skipWs with p := q }
          (by simp only; omega) ⟨hskip.ok, hT, hskip.state⟩
        split at hok
        · rename_i p' hclose
          obtain ⟨hvalue, hafter⟩ := hinner hok
          have hT' := (hafter.skipWs h).text
          rw [hclose] at hT'
          obtain ⟨q', hq', hT''⟩ := h.close _ _ hT'
          rw [hq']
          exact ⟨hvalue, hafter.ok, hT'', hafter.state⟩
        · cases hok
      · exact hfollow hok

/-- The whole evaluation follows. -/
theorem Follows.reverse (h : Follows T) (hleaf : LeavesFollow T R look look' k) (room room' : ℕ)
    (hroom : room + k ≤ room') (e : Expr σ) (e' : Expr τ) (ha : Along T R e e')
    (hok : (exprReverse (exprPrim look) room e).2.ok = true) :
    (exprReverse (exprPrim look) room e).1 = (exprReverse (exprPrim look') room' e').1 ∧
      Along T R (exprReverse (exprPrim look) room e).2 (exprReverse (exprPrim look') room' e').2 :=
  Followed.reverse h (shrinks_exprPrim look) (shrinks_exprPrim look') (sticky_prim look)
    (h.prim hleaf e.p.length) room room' hroom e e' (Nat.le_refl _) ha hok

/-! ### Leaves -/

theorem exprNumber_along {e : Expr σ} {e' : Expr τ} (ha : Along T R e e')
    (hrun : e'.p.takeWhile isNumberChar = e.p.takeWhile isNumberChar)
    (hrest : T (e.p.dropWhile isNumberChar) (e'.p.dropWhile isNumberChar))
    (hok : (exprNumber e).2.ok = true) :
    (exprNumber e).1 = (exprNumber e').1 ∧ Along T R (exprNumber e).2 (exprNumber e').2 := by
  unfold exprNumber at hok ⊢
  dsimp only at hok ⊢
  rw [hrun]
  split at hok
  · cases hok
  · exact ⟨rfl, ha.ok, hrest, ha.state⟩

theorem exprIdent_along {e : Expr σ} {e' : Expr τ} (ha : Along T R e e')
    (hrun : e'.p.takeWhile isIdentChar = e.p.takeWhile isIdentChar)
    (hrest : T (e.p.dropWhile isIdentChar) (e'.p.dropWhile isIdentChar))
    (hlook : ∀ v, (look e.st (e.p.takeWhile isIdentChar)).1 = some v →
      (look' e'.st (e.p.takeWhile isIdentChar)).1 = some v ∧
        R (look e.st (e.p.takeWhile isIdentChar)).2 (look' e'.st (e.p.takeWhile isIdentChar)).2)
    (hok : (exprIdent look e).2.ok = true) :
    (exprIdent look e).1 = (exprIdent look' e').1 ∧
      Along T R (exprIdent look e).2 (exprIdent look' e').2 := by
  unfold exprIdent at hok ⊢
  dsimp only at hok ⊢
  rw [hrun]
  split at hok
  · cases hok
  · rename_i hlength
    rw [if_neg hlength, if_neg hlength]
    split at hok
    · cases hok
    · rename_i v hv
      obtain ⟨hv', hstate⟩ := hlook v hv
      rw [hv']
      exact ⟨rfl, ha.ok, hrest, hstate⟩

/-- What the head of a primary that is no minus and no parenthesis leads to. -/
theorem exprPrim_leaf {room : ℕ} {e : Expr σ} {c : Char} {p : Text} (h : e.p = c :: p)
    (hblank : isBlank c = false) (hminus : c ≠ '-') (hparen : c ≠ '(') :
    exprPrim look room e =
      if isDigit c then exprNumber e
      else if isIdentStart c then exprIdent look e else (0, e.fail) := by
  have hskip := Expr.skipWs_of_head h hblank
  rw [exprPrim_eq (c := c) (p := p) (by rw [hskip, h]), if_neg hminus, if_neg hparen, hskip]

end Primary

/-! ### The same text -/

theorem follows_eq : Follows (· = · : Text → Text → Prop) where
  blanks _ _ h := by rw [h]
  operator _ _ _ _ h := ⟨_, h.symm, rfl⟩
  operator' _ _ _ _ h := ⟨_, h, rfl⟩
  close _ _ h := ⟨_, h.symm, rfl⟩

/-- Every symbol the first lookup finds the second one finds too. -/
def Finds (R : σ → τ → Prop) (look : σ → Text → Option Word × σ)
    (look' : τ → Text → Option Word × τ) :
    Prop :=
  ∀ s t id v, R s t → (look s id).1 = some v →
    (look' t id).1 = some v ∧ R (look s id).2 (look' t id).2

theorem leaves_eq {R : σ → τ → Prop} {look : σ → Text → Option Word × σ}
    {look' : τ → Text → Option Word × τ} (h : Finds R look look') :
    LeavesFollow (· = ·) R look look' 0 := by
  intro room room' e e' c p _ hp hblank ha
  by_cases hopen : c = '-' ∨ c = '('
  · exact Or.inl ⟨p, ha.text ▸ hp, hopen, rfl⟩
  · right
    intro hok
    have hminus : c ≠ '-' := fun hc => hopen (Or.inl hc)
    have hparen : c ≠ '(' := fun hc => hopen (Or.inr hc)
    have hp' : e'.p = c :: p := ha.text ▸ hp
    rw [exprPrim_leaf hp hblank hminus hparen] at hok ⊢
    rw [exprPrim_leaf hp' hblank hminus hparen]
    split_ifs at hok ⊢ with hdigit hident
    · exact exprNumber_along ha (by rw [ha.text]) (by rw [ha.text]) hok
    · exact exprIdent_along ha (by rw [ha.text]) (by rw [ha.text]) (fun v => h _ _ _ v ha.state) hok
    · cases hok

/-- An evaluation that succeeds gives the same value over a lookup that finds as much, with no less
room for nesting. -/
theorem exprValue_follows {R : σ → τ → Prop} {look : σ → Text → Option Word × σ}
    {look' : τ → Text → Option Word × τ} (h : Finds R look look') {s : σ} {t : τ} (hst : R s t)
    {room room' : ℕ} (hroom : room ≤ room') {text : Text} {v : Value}
    (hv : (exprValue look room s text).1 = some v) :
    (exprValue look' room' t text).1 = some v ∧
      R (exprValue look room s text).2 (exprValue look' room' t text).2 := by
  unfold exprValue at hv ⊢
  rw [exprValue_eq] at hv ⊢
  rw [exprValue_eq]
  dsimp only at hv ⊢
  split at hv
  · rename_i hok
    obtain ⟨hok, hend⟩ := hok
    obtain ⟨hvalue, hafter⟩ := follows_eq.reverse (leaves_eq h) room room' (by omega)
      ⟨s, text, true⟩ ⟨t, text, true⟩ ⟨rfl, rfl, hst⟩ hok
    have hskip := hafter.skipWs follows_eq
    have hend' := hskip.text
    rw [hend] at hend'
    rw [if_pos ⟨hskip.ok, hend'.symm⟩, ← hvalue]
    exact ⟨hv, hafter.state⟩
  · cases hv

end PioSim.Asm
