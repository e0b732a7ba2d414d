import PioSim.Asm.Expr
import Mathlib.Data.List.TakeWhile

/-!
# How the evaluator runs

Reading never lengthens the text, so the fuel by the length of the text is enough; a flag once set
stays set; and what the evaluator returns depends on the lookup of symbols only through the lookups
that succeed.
-/

namespace PioSim.Asm

variable {σ τ : Type}

/-! ### Reading shortens the text -/

/-- An operator is read off the front of the text. -/
def Shortens (op : Text → Option (BinOp × Text)) : Prop :=
  ∀ p o p', op p = some (o, p') → p'.length < p.length

theorem bitOp_shortens : Shortens bitOp := by
  intro p o p' h
  unfold bitOp at h
  split at h <;> cases h <;> simp

theorem mulOp_shortens : Shortens mulOp := by
  intro p o p' h
  unfold mulOp at h
  split at h <;> cases h <;> simp

theorem addOp_shortens : Shortens addOp := by
  intro p o p' h
  unfold addOp at h
  split at h <;> cases h <;> simp

theorem shiftOp_shortens : Shortens shiftOp := by
  intro p o p' h
  unfold shiftOp at h
  split at h <;> cases h <;> simp only [List.length_cons] <;> omega

abbrev Reader (σ : Type) := Expr σ → Value × Expr σ

/-- The reader never lengthens the text. -/
def Shrinks (f : Reader σ) : Prop := ∀ e, (f e).2.p.length ≤ e.p.length

namespace Expr

theorem length_skipWs (e : Expr σ) : e.skipWs.p.length ≤ e.p.length := List.length_dropWhile_le _ _

theorem applyOp_p (o : BinOp) (v r : Value) (e : Expr σ) :
    (applyOp o v r e).2.p = e.p ∧ (applyOp o v r e).2.st = e.st := by
  cases o with
  | div | shl | shr =>
    unfold applyOp
    dsimp only
    split <;> exact ⟨rfl, rfl⟩
  | _ => exact ⟨rfl, rfl⟩

theorem tier_consumes {op : Text → Option (BinOp × Text)} (hop : Shortens op) {f : Reader σ}
    (hf : Shrinks f) : (tier (σ := σ) op).Consumes f where
  skip := length_skipWs
  next e o e' h := by
    simp only [tier, Option.map_eq_some_iff, Prod.exists] at h
    obtain ⟨o', p, hp, he⟩ := h
    obtain ⟨rfl, rfl⟩ := Prod.mk.inj he
    exact hop _ _ _ hp
  apply o v r e := by
    change (applyOp o v r e).2.p.length ≤ e.p.length
    rw [(applyOp_p o v r e).1]
  operand := hf

end Expr

theorem Shrinks.tier {op : Text → Option (BinOp × Text)} (hop : Shortens op) {f : Reader σ}
    (hf : Shrinks f) : Shrinks ((Expr.tier op).parse f) :=
  fun e => Chain.Tier.size_parse (Expr.tier_consumes hop hf) e

section Tiers
variable {f : Reader σ}

theorem Shrinks.bit (hf : Shrinks f) : Shrinks (exprBit f) := hf.tier bitOp_shortens
theorem Shrinks.mul (hf : Shrinks f) : Shrinks (exprMul f) := hf.bit.tier mulOp_shortens
theorem Shrinks.add (hf : Shrinks f) : Shrinks (exprAdd f) := hf.mul.tier addOp_shortens
theorem Shrinks.shift (hf : Shrinks f) : Shrinks (exprShift f) := hf.add.tier shiftOp_shortens

end Tiers

theorem Shrinks.reverse {f : ℕ → Reader σ} (hf : ∀ room, Shrinks (f room)) :
    ∀ room, Shrinks (exprReverse f room) := by
  intro room
  induction room with
  | zero => exact fun e => Nat.le_refl _
  | succ room ih =>
    intro e
    have hskip := e.length_skipWs
    unfold exprReverse
    split
    · rename_i p hp
      have htail := ih { e with p := p }
      rw [hp, List.length_cons, List.length_cons] at hskip
      exact Nat.le_trans htail (by simp only; omega)
    · exact Nat.le_trans ((hf room).shift e.skipWs) hskip

theorem shrinks_exprNumber : Shrinks (exprNumber (σ := σ)) := by
  intro e
  unfold exprNumber
  dsimp only
  split
  · exact List.length_dropWhile_le _ _
  · exact List.length_dropWhile_le _ _

theorem shrinks_exprIdent (look : σ → Text → Option Word × σ) : Shrinks (exprIdent look) := by
  intro e
  unfold exprIdent
  dsimp only
  split
  · rw [List.length_drop]
    omega
  · split
    · exact List.length_dropWhile_le _ _
    · exact List.length_dropWhile_le _ _

theorem shrinks_exprPrimary (look : σ → Text → Option Word × σ) :
    ∀ fuel room, Shrinks (exprPrimary look fuel room) := by
  intro fuel
  induction fuel with
  | zero => exact fun _ e => Nat.le_refl _
  | succ fuel ih =>
    intro room e
    have hskip := e.length_skipWs
    unfold exprPrimary
    split
    · exact hskip
    · rename_i c p hp
      have htail : p.length ≤ e.p.length := by
        rw [hp, List.length_cons] at hskip
        omega
      split_ifs
      · exact Nat.le_trans ((ih room).mul { e with p := p }) htail
      · have hinner := (Shrinks.reverse ih room) { e with p := p }
        have hblank := (exprReverse (exprPrimary look fuel) room { e with p := p }).2.length_skipWs
        dsimp only
        split
        · rename_i q hq
          rw [hq, List.length_cons] at hblank
          simp only at hinner ⊢
          omega
        · simp only [Expr.fail] at hinner ⊢
          omega
      · exact Nat.le_trans (shrinks_exprNumber _) hskip
      · exact Nat.le_trans (shrinks_exprIdent look _) hskip
      · exact hskip

/-! ### The fuel is enough -/

theorem tier_congr {op : Text → Option (BinOp × Text)} (hop : Shortens op) {f g : Reader σ}
    (hf : Shrinks f) {n : ℕ} (hfg : ∀ e : Expr σ, e.p.length ≤ n → f e = g e) {e : Expr σ}
    (he : e.p.length ≤ n) : (Expr.tier op).parse f e = (Expr.tier op).parse g e := by
  have hloop : ∀ (m : ℕ) (v : Value) (e : Expr σ), e.p.length ≤ n →
      (Expr.tier op).loop f m v e = (Expr.tier op).loop g m v e := by
    intro m
    induction m with
    | zero => exact fun _ _ _ => rfl
    | succ m ih =>
      intro v e he
      have hconsumes := Expr.tier_consumes hop hf
      have hskip : ((Expr.tier op).skip e).p.length ≤ e.p.length := e.length_skipWs
      cases hnext : (Expr.tier op).next ((Expr.tier op).skip e) with
      | none => rw [Chain.Tier.loop_of_stop _ hnext, Chain.Tier.loop_of_stop _ hnext]
      | some r =>
        obtain ⟨o, e'⟩ := r
        have hlt : e'.p.length < _ := hconsumes.next _ _ _ hnext
        have hoperand : (f e').2.p.length ≤ e'.p.length := hf e'
        have happly : ((Expr.tier op).apply o v (f e').1 (f e').2).2.p.length ≤ (f e').2.p.length :=
          hconsumes.apply _ _ _ _
        have hsize : (Expr.tier op).size ((Expr.tier op).skip e) ≤ e.p.length := hskip
        have hlt' : e'.p.length < e.p.length := Nat.lt_of_lt_of_le hlt hsize
        rw [Chain.Tier.loop_of_next hnext, Chain.Tier.loop_of_next hnext, ← hfg e' (by omega)]
        exact ih _ _ (by omega)
  have hshrink := hf e
  unfold Chain.Tier.parse
  rw [← hfg e he]
  exact hloop _ _ _ (by omega)

section Congr
variable {f g : Reader σ} {n : ℕ} {e : Expr σ}

theorem exprBit_congr (hf : Shrinks f) (hfg : ∀ e : Expr σ, e.p.length ≤ n → f e = g e)
    (he : e.p.length ≤ n) : exprBit f e = exprBit g e := tier_congr bitOp_shortens hf hfg he

theorem exprMul_congr (hf : Shrinks f) (hfg : ∀ e : Expr σ, e.p.length ≤ n → f e = g e)
    (he : e.p.length ≤ n) : exprMul f e = exprMul g e :=
  tier_congr mulOp_shortens hf.bit (fun _ h => exprBit_congr hf hfg h) he

theorem exprAdd_congr (hf : Shrinks f) (hfg : ∀ e : Expr σ, e.p.length ≤ n → f e = g e)
    (he : e.p.length ≤ n) : exprAdd f e = exprAdd g e :=
  tier_congr addOp_shortens hf.mul (fun _ h => exprMul_congr hf hfg h) he

theorem exprShift_congr (hf : Shrinks f) (hfg : ∀ e : Expr σ, e.p.length ≤ n → f e = g e)
    (he : e.p.length ≤ n) : exprShift f e = exprShift g e :=
  tier_congr shiftOp_shortens hf.add (fun _ h => exprAdd_congr hf hfg h) he

end Congr

theorem exprReverse_congr {f g : ℕ → Reader σ} {n : ℕ} (hf : ∀ room, Shrinks (f room))
    (hfg : ∀ room (e : Expr σ), e.p.length ≤ n → f room e = g room e) :
    ∀ (room : ℕ) (e : Expr σ), e.p.length ≤ n → exprReverse f room e = exprReverse g room e := by
  intro room
  induction room with
  | zero => exact fun _ _ => rfl
  | succ room ih =>
    intro e he
    have hskip := e.length_skipWs
    unfold exprReverse
    split
    · rename_i p hp
      rw [hp, List.length_cons, List.length_cons] at hskip
      rw [ih { e with p := p } (by simp only; omega)]
    · exact exprShift_congr (hf room) (hfg room) (by omega)

/-- Fuel beyond the length of the text changes nothing. -/
theorem exprPrimary_enough (look : σ → Text → Option Word × σ) :
    ∀ (fuel room : ℕ) (e : Expr σ), e.p.length ≤ fuel →
      exprPrimary look (fuel + 1) room e = exprPrimary look fuel room e := by
  intro fuel
  induction fuel with
  | zero =>
    intro room e he
    have hp : e.p = [] := List.eq_nil_of_length_eq_zero (Nat.le_zero.mp he)
    obtain ⟨st, p, ok⟩ := e
    subst hp
    rfl
  | succ fuel ih =>
    intro room e he
    have hskip := e.length_skipWs
    rw [exprPrimary, exprPrimary]
    split
    · rfl
    · rename_i c p hp
      have htail : p.length ≤ fuel := by
        rw [hp, List.length_cons] at hskip
        omega
      have hshrinks := shrinks_exprPrimary look
      rw [exprMul_congr (hshrinks (fuel + 1) room) (fun e' h => ih room e' h)
          (e := { e with p := p }) htail,
        exprReverse_congr (hshrinks (fuel + 1)) (fun room e' h => ih room e' h) room
          { e with p := p } htail]

theorem exprPrimary_fuel (look : σ → Text → Option Word × σ) {n m : ℕ} (hnm : n ≤ m) (room : ℕ)
    {e : Expr σ} (he : e.p.length ≤ n) :
    exprPrimary look m room e = exprPrimary look n room e := by
  induction m, hnm using Nat.le_induction with
  | base => rfl
  | succ m hm ih => rw [exprPrimary_enough look m room e (by omega), ih]

/-! ### Without the fuel -/

/-- `expr_primary` with as much fuel as it can use. -/
def exprPrim (look : σ → Text → Option Word × σ) (room : ℕ) : Reader σ :=
  fun e => exprPrimary look e.p.length room e

section Unfueled
variable {look : σ → Text → Option Word × σ} {room : ℕ} {e : Expr σ} {c : Char} {p : Text}

theorem shrinks_exprPrim (look : σ → Text → Option Word × σ) (room : ℕ) :
    Shrinks (exprPrim look room) := fun e => shrinks_exprPrimary look _ room e

/-- The primary at a text of a blankless head, where readers inside it get what fuel they need. -/
theorem exprPrim_eq (h : e.skipWs.p = c :: p) :
    exprPrim look room e =
      if c = '-' then
        (-(exprMul (exprPrim look room) { e with p := p }).1,
          (exprMul (exprPrim look room) { e with p := p }).2)
      else if c = '(' then
        let r := exprReverse (exprPrim look) room { e with p := p }
        match r.2.skipWs.p with
        | ')' :: p => (r.1, { r.2 with p := p })
        | _ => (r.1, r.2.skipWs.fail)
      else if isDigit c then exprNumber e.skipWs
      else if isIdentStart c then exprIdent look e.skipWs
      else (0, e.skipWs.fail) := by
  have hskip := e.length_skipWs
  rw [h, List.length_cons] at hskip
  obtain ⟨n, hn⟩ : ∃ n, e.p.length = n + 1 := ⟨e.p.length - 1, by omega⟩
  have hfuel : ∀ room (e : Expr σ), e.p.length ≤ n →
      exprPrimary look n room e = exprPrim look room e :=
    fun room e he => exprPrimary_fuel look he room (Nat.le_refl _)
  have htail : ({ e with p := p } : Expr σ).p.length ≤ n := by
    simp only
    omega
  unfold exprPrim
  rw [hn, exprPrimary, h]
  simp only
  rw [exprMul_congr (shrinks_exprPrimary look n room) (hfuel room) htail,
    exprReverse_congr (shrinks_exprPrimary look n) hfuel room _ htail]
  rfl

theorem exprPrim_nil (h : e.skipWs.p = []) : exprPrim look room e = (0, e.skipWs.fail) := by
  unfold exprPrim
  cases hn : e.p.length with
  | zero =>
    have hp : e.p = [] := List.eq_nil_of_length_eq_zero hn
    obtain ⟨st, p, ok⟩ := e
    subst hp
    rfl
  | succ n => rw [exprPrimary, h]

theorem Expr.skipWs_skipWs (e : Expr σ) : e.skipWs.skipWs = e.skipWs := by
  unfold Expr.skipWs
  dsimp only
  rw [List.dropWhile_eq_self_iff.mpr (List.dropWhile_get_zero_not isBlank e.p)]

theorem exprPrim_skipWs (e : Expr σ) : exprPrim look room e.skipWs = exprPrim look room e := by
  cases h : e.skipWs.p with
  | nil =>
    rw [exprPrim_nil h, exprPrim_nil (e := e.skipWs) (by rw [e.skipWs_skipWs, h]), e.skipWs_skipWs]
  | cons c p =>
    rw [exprPrim_eq h, exprPrim_eq (e := e.skipWs) (by rw [e.skipWs_skipWs, h]), e.skipWs_skipWs]
    rfl

theorem exprValue_eq (look : σ → Text → Option Word × σ) (room : ℕ) (st : σ) (s : Text) :
    exprReverse (exprPrimary look s.length) room { st := st, p := s, ok := true } =
      exprReverse (exprPrim look) room { st := st, p := s, ok := true } :=
  exprReverse_congr (n := s.length) (shrinks_exprPrimary look s.length)
    (fun room e he => exprPrimary_fuel look he room (Nat.le_refl _)) room _ (Nat.le_refl _)

end Unfueled

/-! ### What readers keep -/

def Keeps (P : Expr σ → Prop) (f : Reader σ) : Prop := ∀ e, P e → P (f e).2

/-- A property of the state that no step of reading loses. -/
structure Kept (look : σ → Text → Option Word × σ) (P : Expr σ → Prop) : Prop where
  text : ∀ e p, P e → P { e with p := p }
  fail : ∀ e, P e → P e.fail
  look : ∀ e id, P e → P { e with st := (look e.st id).2 }

section Kept
variable {look : σ → Text → Option Word × σ} {P : Expr σ → Prop} {f : Reader σ}

theorem Kept.skipWs (h : Kept look P) {e : Expr σ} (he : P e) : P e.skipWs := h.text e _ he

theorem Kept.applyOp (h : Kept look P) (o : BinOp) (v r : Value) {e : Expr σ} (he : P e) :
    P (Expr.applyOp o v r e).2 := by
  cases o with
  | div | shl | shr =>
    unfold Expr.applyOp
    dsimp only
    split
    · exact h.fail e he
    · exact he
  | _ => exact he

theorem Kept.loop (h : Kept look P) (op : Text → Option (BinOp × Text)) (hf : Keeps P f) (n : ℕ)
    (v : Value) {e : Expr σ} (he : P e) : P ((Expr.tier op).loop f n v e).2 := by
  refine Chain.Tier.keeps_loop (fun e he => h.skipWs he) ?_ (fun o v r e he => h.applyOp o v r he)
    hf n v e he
  intro e o e' hnext he
  simp only [Expr.tier, Option.map_eq_some_iff, Prod.exists] at hnext
  obtain ⟨o', p, -, he'⟩ := hnext
  obtain ⟨-, rfl⟩ := Prod.mk.inj he'
  exact h.text e p he

theorem Keeps.tier (hf : Keeps P f) (h : Kept look P) (op : Text → Option (BinOp × Text)) :
    Keeps P ((Expr.tier op).parse f) := fun _ he => h.loop op hf _ _ (hf _ he)

theorem Keeps.bit (hf : Keeps P f) (h : Kept look P) : Keeps P (exprBit f) := hf.tier h bitOp
theorem Keeps.mul (hf : Keeps P f) (h : Kept look P) : Keeps P (exprMul f) :=
  (hf.bit h).tier h mulOp
theorem Keeps.add (hf : Keeps P f) (h : Kept look P) : Keeps P (exprAdd f) :=
  (hf.mul h).tier h addOp
theorem Keeps.shift (hf : Keeps P f) (h : Kept look P) : Keeps P (exprShift f) :=
  (hf.add h).tier h shiftOp

theorem Keeps.reverse {f : ℕ → Reader σ} (hf : ∀ room, Keeps P (f room)) (h : Kept look P) :
    ∀ room, Keeps P (exprReverse f room) := by
  intro room
  induction room with
  | zero => exact fun e he => h.fail e he
  | succ room ih =>
    intro e he
    unfold exprReverse
    split
    · exact ih _ (h.text e _ he)
    · exact (hf room).shift h _ (h.skipWs he)

theorem Kept.number (h : Kept look P) : Keeps P exprNumber := by
  intro e he
  unfold exprNumber
  dsimp only
  split
  · exact h.fail _ (h.text e _ he)
  · exact h.text e _ he

theorem Kept.ident (h : Kept look P) : Keeps P (exprIdent look) := by
  intro e he
  unfold exprIdent
  dsimp only
  split
  · exact h.fail _ (h.text e (e.p.drop 31) he)
  · have hnext := h.text _ (e.p.dropWhile isIdentChar) (h.look e (e.p.takeWhile isIdentChar) he)
    split
    · exact h.fail _ hnext
    · exact hnext

theorem Kept.primary (h : Kept look P) : ∀ fuel room, Keeps P (exprPrimary look fuel room) := by
  intro fuel
  induction fuel with
  | zero => exact fun _ e he => h.fail e he
  | succ fuel ih =>
    intro room e he
    unfold exprPrimary
    split
    · exact h.fail _ (h.skipWs he)
    · rename_i c p hp
      split_ifs
      · exact (ih room).mul h _ (h.text e p he)
      · have hinner := Keeps.reverse ih h room _ (h.text e p he)
        dsimp only
        split
        · exact h.text _ _ hinner
        · exact h.fail _ (h.skipWs hinner)
      · exact h.number _ (h.skipWs he)
      · exact h.ident _ (h.skipWs he)
      · exact h.fail _ (h.skipWs he)

theorem Kept.prim (h : Kept look P) (room : ℕ) : Keeps P (exprPrim look room) :=
  fun e he => h.primary _ room e he

/-- What lookups keep of the symbol state, a whole evaluation keeps. -/
theorem exprValue_keeps {I : σ → Prop} (h : ∀ s id, I s → I (look s id).2) {s : σ} (hs : I s)
    (room : ℕ) (text : Text) : I (exprValue look room s text).2 := by
  have hkept : Kept look (fun e => I e.st) :=
    ⟨fun _ _ he => he, fun _ he => he, fun e id he => h _ id he⟩
  exact Keeps.reverse (hkept.primary text.length) hkept room ⟨s, text, true⟩ hs

end Kept

/-- A flag once set stays set. -/
theorem kept_flagged (look : σ → Text → Option Word × σ) :
    Kept look (fun e : Expr σ => e.ok = false) where
  text _ _ he := he
  fail _ _ := rfl
  look _ _ he := he

/-- A reader that leaves the state unflagged found it unflagged. -/
abbrev Sticky (f : Reader σ) : Prop := Keeps (fun e : Expr σ => e.ok = false) f

theorem Sticky.ok {f : Reader σ} (h : Sticky f) {e : Expr σ} (he : (f e).2.ok = true) :
    e.ok = true := by
  cases hok : e.ok with
  | true => rfl
  | false =>
    have hflag : (f e).2.ok = false := h e hok
    rw [he] at hflag
    cases hflag

end PioSim.Asm
