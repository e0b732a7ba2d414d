import PioSim.Asm.Grammar
import PioSim.Asm.Resolution
import Mathlib.Tactic.IntervalCases

/-!
# The evaluator reads what the grammar prints

Every printed tree is read as itself, whatever follows it as long as that does not continue it. The
evaluator goes on after an error, so its run on a tree is a value and a flag.
-/

namespace PioSim.Asm

/-! ### Literals -/

theorem digitValue_dec {c : Char} (h : isDigit c = true) : digitValue 10 c = some (digit c) := by
  simp [digitValue, digit, h]

theorem digitValue_hex {c : Char} (h : isHexDigit c = true) : digitValue 16 c = some (digit c) := by
  unfold isHexDigit at h
  unfold digitValue digit
  by_cases hd : isDigit c = true
  · simp [hd]
  · by_cases hl : 'a' ≤ c ∧ c ≤ 'f'
    · simp [hd, hl]
    · have hu : 'A' ≤ c ∧ c ≤ 'F' := by simpa [hd, hl] using h
      simp [hd, hl, hu]

theorem foldl_numeral_le (base : ℕ) (hbase : 0 < base) (s : Text) :
    ∀ n, n ≤ s.foldl (fun n c => n * base + digit c) n := by
  induction s with
  | nil => exact fun n => Nat.le_refl n
  | cons c s ih =>
    intro n
    have hmul : n ≤ n * base := Nat.le_mul_of_pos_right n hbase
    exact Nat.le_trans (by omega) (ih (n * base + digit c))

/-- The digit loop returns the number if it fits a word. -/
theorem parseDigits_eq (base : ℕ) (hbase : 0 < base) (s : Text)
    (h : ∀ c ∈ s, digitValue base c = some (digit c)) (hdigit : ∀ c ∈ s, digit c < 2 ^ 32) :
    ∀ v, v < 2 ^ 32 → parseDigits base v s =
      if s.foldl (fun n c => n * base + digit c) v < 2 ^ 32 then
        some (s.foldl (fun n c => n * base + digit c) v) else none := by
  induction s with
  | nil => exact fun v hv => by rw [parseDigits, List.foldl_nil, if_pos hv]
  | cons c s ih =>
    intro v _
    have hlt := hdigit c List.mem_cons_self
    have hgrow := foldl_numeral_le base hbase s (v * base + digit c)
    have hfits : v ≤ (4294967295 - digit c) / base ↔ v * base + digit c < 2 ^ 32 := by
      rw [Nat.le_div_iff_mul_le hbase]
      omega
    rw [parseDigits, h c List.mem_cons_self, List.foldl_cons]
    dsimp only
    by_cases hover : (4294967295 - digit c) / base < v
    · have hbig : ¬ v * base + digit c < 2 ^ 32 := fun hv => absurd (hfits.mpr hv) (by omega)
      rw [if_pos hover, if_neg (by omega)]
    · rw [if_neg hover]
      exact ih (fun c hc => h c (List.mem_cons_of_mem _ hc))
        (fun c hc => hdigit c (List.mem_cons_of_mem _ hc)) _ (hfits.mp (by omega))

theorem digit_lt {c : Char} (h : isHexDigit c = true) : digit c < 2 ^ 32 := by
  have hmax : c.toNat < 0x110000 := by
    rcases c.valid with hc | ⟨-, hc⟩
    · exact Nat.lt_trans hc (by decide)
    · exact hc
  unfold digit
  split_ifs <;> omega

theorem isHexDigit_of_isDigit {c : Char} (h : isDigit c = true) : isHexDigit c = true := by
  simp [isHexDigit, h]

theorem parseUint_dec {digits : Text} (hne : digits ≠ []) (h : ∀ c ∈ digits, isDigit c = true) :
    parseUint digits =
      if numeral 10 digits < 2 ^ 32 then some (BitVec.ofNat 32 (numeral 10 digits)) else none := by
  have hrun := parseDigits_eq 10 (by decide) digits (fun c hc => digitValue_dec (h c hc))
    (fun c hc => digit_lt (isHexDigit_of_isDigit (h c hc))) 0 (by decide)
  have hten : parseUint digits = (parseDigits 10 0 digits).map (BitVec.ofNat 32) := by
    unfold parseUint
    split
    · exact absurd rfl hne
    all_goals first | rfl | exact absurd (h _ (List.mem_cons_of_mem _ List.mem_cons_self)) (by decide)
  rw [hten, hrun]
  unfold numeral
  split <;> rfl

theorem parseUint_hex {x : Char} {digits : Text} (hx : x = 'x' ∨ x = 'X') (hne : digits ≠ [])
    (h : ∀ c ∈ digits, isHexDigit c = true) : parseUint ('0' :: x :: digits) =
      if numeral 16 digits < 2 ^ 32 then some (BitVec.ofNat 32 (numeral 16 digits)) else none := by
  have hrun := parseDigits_eq 16 (by decide) digits (fun c hc => digitValue_hex (h c hc))
    (fun c hc => digit_lt (h c hc)) 0 (by decide)
  rcases hx with rfl | rfl
  all_goals
    rw [parseUint, if_neg hne, hrun]
    unfold numeral
    split <;> rfl

theorem parseUint_literal {l : Literal} (h : l.WellFormed) :
    parseUint l.text =
      if l.magnitude < 2 ^ 32 then some (BitVec.ofNat 32 l.magnitude) else none := by
  cases l with
  | hex x digits => exact parseUint_hex h.1 h.2.1 h.2.2.1
  | dec digits => exact parseUint_dec h.1 h.2.1

/-! ### The run of the evaluator -/

/-- What an operator yields in the evaluator, which goes on with the dividend or zero after an
error. -/
def BinOp.result (v r : Value) (op : BinOp) : Value :=
  if op.Faulty r then if op = .div then v else 0 else op.value v r

theorem applyOp_eq {σ : Type} (op : BinOp) (v r : Value) (e : Expr σ) :
    Expr.applyOp op v r e = (op.result v r, { e with ok := e.ok && !decide (op.Faulty r) }) := by
  have hslt : (r.slt 0 || BitVec.slt 63 r) = true ↔ r.toInt < 0 ∨ 63 < r.toInt := by
    have h63 : (63 : BitVec 64).toInt = 63 := by decide
    rw [Bool.or_eq_true, BitVec.slt_iff_toInt_lt, BitVec.slt_iff_toInt_lt, h63]
    rfl
  have hcase : ∀ (b : Prop) [Decidable b] (junk w : Value), (b ↔ op.Faulty r) → op.value v r = w →
      (if op = .div then v else 0) = junk → (if b then (junk, e.fail) else (w, e)) =
        (op.result v r, { e with ok := e.ok && !decide (op.Faulty r) }) := by
    intro b _ junk w hb hw hjunk
    unfold BinOp.result
    by_cases h : op.Faulty r
    · rw [if_pos (hb.mpr h), if_pos h, hjunk, decide_eq_true h, Bool.not_true, Bool.and_false]
      rfl
    · rw [if_neg (mt hb.mp h), if_neg h, hw, decide_eq_false h, Bool.not_false, Bool.and_true]
  cases op with
  | div => exact hcase _ v _ Iff.rfl rfl rfl
  | shl => exact hcase _ 0 _ hslt rfl rfl
  | shr => exact hcase _ 0 _ hslt rfl rfl
  | _ =>
    have hfine := hcase False 0 _ Iff.rfl rfl rfl
    rw [if_neg not_false] at hfine
    exact hfine

/-- The value the evaluator ends up with, and whether it stays unflagged. -/
def Tree.run (symbol : Text → Option Word) : Tree → Value × Bool
  | lit l => if l.magnitude < 2 ^ 32 then (BitVec.ofNat 64 l.magnitude, true) else (0, false)
  | sym name => match symbol name with
    | some v => (v.setWidth 64, true)
    | none => (0, false)
  | neg t => (-(t.run symbol).1, (t.run symbol).2)
  | bin op l r => (op.result (l.run symbol).1 (r.run symbol).1,
      (l.run symbol).2 && (r.run symbol).2 && !decide (op.Faulty (r.run symbol).1))
  | rev t => (reverseLow (t.run symbol).1, (t.run symbol).2)

theorem Tree.eval_eq_run (symbol : Text → Option Word) (t : Tree) :
    t.eval symbol = if (t.run symbol).2 then some (t.run symbol).1 else none := by
  induction t with
  | lit l =>
    rw [Tree.eval, Tree.run]
    by_cases h : l.magnitude < 2 ^ 32
    · simp only [if_pos h, if_true]
    · simp only [if_neg h, Bool.false_eq_true, if_false]
  | sym name =>
    rw [Tree.eval, Tree.run]
    cases symbol name with
    | none => rfl
    | some v => rfl
  | neg t ih | rev t ih =>
    rw [Tree.eval, Tree.run, ih]
    cases (t.run symbol).2 with
    | false => rfl
    | true => rfl
  | bin op l r ihl ihr =>
    rw [Tree.eval, Tree.run, ihl, ihr]
    cases (l.run symbol).2 with
    | false => rfl
    | true =>
      cases (r.run symbol).2 with
      | false => rfl
      | true =>
        by_cases h : op.Faulty (r.run symbol).1
        · simp [BinOp.eval, h]
        · simp [BinOp.eval, BinOp.result, h]

/-- `pio_reverse32` reverses the bits of a word. -/
theorem reverse32_eq (v : Word) : reverse32 v = v.reverse := by
  refine BitVec.eq_of_getLsbD_eq fun i hi => ?_
  rw [BitVec.getLsbD_reverse, BitVec.getMsbD_eq_getLsbD]
  unfold reverse32
  interval_cases i <;> simp [BitVec.getLsbD_shiftLeft]

/-! ### Tiers and tokens -/

def tierOp : ℕ → Text → Option (BinOp × Text)
  | 1 => bitOp
  | 2 => mulOp
  | 3 => addOp
  | _ => shiftOp

theorem tierOp_shortens (k : ℕ) : Shortens (tierOp k) := by
  unfold tierOp
  split
  · exact bitOp_shortens
  · exact mulOp_shortens
  · exact addOp_shortens
  · exact shiftOp_shortens

section Tiers
variable {σ : Type} (primary : Reader σ)

/-- The reader of a tier: `expr_bit`, `expr_mul`, `expr_add` and `expr_shift` from 1 on. -/
def readAt : ℕ → Reader σ
  | 0 => primary
  | k + 1 => (Expr.tier (tierOp (k + 1))).parse (readAt k)

variable {primary}

theorem shrinks_readAt (h : Shrinks primary) (k : ℕ) : Shrinks (readAt primary k) := by
  induction k with
  | zero => exact h
  | succ k ih => exact ih.tier (tierOp_shortens (k + 1))

theorem readAt_skipWs (h : ∀ e, primary e.skipWs = primary e) (k : ℕ) (e : Expr σ) :
    readAt primary k e.skipWs = readAt primary k e := by
  induction k with
  | zero => exact h e
  | succ k ih => rw [readAt, Chain.Tier.parse, Chain.Tier.parse, ih]

end Tiers

theorem tierOp_text (op : BinOp) (p : Text) : tierOp op.tier (op.text ++ p) = some (op, p) := by
  cases op <;> rfl

/-- An operator is read in its own tier only. -/
theorem tierOp_other (op : BinOp) (p : Text) {j : ℕ} (hj : 1 ≤ j) (hj' : j ≤ 4) (h : j ≠ op.tier) :
    tierOp j (op.text ++ p) = none := by
  have hcases : j = 1 ∨ j = 2 ∨ j = 3 ∨ j = 4 := by omega
  cases op <;> rcases hcases with rfl | rfl | rfl | rfl <;> first | rfl | exact absurd rfl h

theorem tierOp_close {j : ℕ} (p : Text) : tierOp j (')' :: p) = none := by
  unfold tierOp
  split <;> rfl

theorem tierOp_nil (j : ℕ) : tierOp j [] = none := by
  unfold tierOp
  split <;> rfl

theorem BinOp.tier_pos (op : BinOp) : 1 ≤ op.tier ∧ op.tier ≤ 4 := by cases op <;> decide

theorem BinOp.text_cons (op : BinOp) : ∃ c p, op.text = c :: p ∧ isBlank c = false ∧
    isIdentChar c = false := by
  cases op <;> exact ⟨_, _, rfl, by decide, by decide⟩

section Blanks
variable {ws p : Text} {c : Char}

theorem dropWhile_blank (h : Blank ws) (p : Text) :
    (ws ++ p).dropWhile isBlank = p.dropWhile isBlank :=
  List.dropWhile_append_of_pos h

theorem dropWhile_head (h : isBlank c = false) : (c :: p).dropWhile isBlank = c :: p :=
  List.dropWhile_cons_of_neg (by rw [h]; exact Bool.false_ne_true)

theorem not_isIdentChar_of_blank {c : Char} (h : isBlank c = true) : isIdentChar c = false := by
  rw [isBlank, Bool.or_eq_true, beq_iff_eq, beq_iff_eq] at h
  rcases h with rfl | rfl <;> decide

theorem isBlank_of_isIdentChar {c : Char} (h : isIdentChar c = true) : isBlank c = false := by
  cases hb : isBlank c with
  | false => rfl
  | true =>
    rw [not_isIdentChar_of_blank hb] at h
    cases h

theorem isIdentChar_of_isNumberChar {c : Char} (h : isNumberChar c = true) :
    isIdentChar c = true := by
  unfold isNumberChar at h
  unfold isIdentChar isIdentStart
  simp only [Bool.or_eq_true, Bool.and_eq_true, decide_eq_true_eq, beq_iff_eq] at h ⊢
  rcases h with (((h | ⟨h, h'⟩) | ⟨h, h'⟩) | rfl) | rfl
  · exact Or.inr h
  · exact Or.inl (Or.inl (Or.inl ⟨h, Char.le_trans h' (by decide)⟩))
  · exact Or.inl (Or.inl (Or.inr ⟨h, Char.le_trans h' (by decide)⟩))
  · exact Or.inl (Or.inl (Or.inl (by decide)))
  · exact Or.inl (Or.inl (Or.inr (by decide)))

end Blanks

/-- What follows an expression does not continue it: no letter or digit adjoins, and no operator of
tiers up to `k` follows, nor one that an open unary minus would take. -/
structure Ends (k : ℕ) (o : Bool) (rest : Text) : Prop where
  token : ∀ c q, rest = c :: q → isIdentChar c = false
  operator : ∀ j, 1 ≤ j → j ≤ 4 → (j ≤ k ∨ o = true ∧ j ≤ 2) →
    tierOp j (rest.dropWhile isBlank) = none

section Ends
variable {k : ℕ} {o : Bool} {rest : Text}

theorem Ends.mono (h : Ends k o rest) {k' : ℕ} {o' : Bool} (hk : k' ≤ k)
    (ho : o' = true → o = true ∨ 2 ≤ k) : Ends k' o' rest := by
  refine ⟨h.token, fun j hj hj' hcase => h.operator j hj hj' ?_⟩
  rcases hcase with hle | ⟨ho', hle⟩
  · exact Or.inl (by omega)
  · rcases ho ho' with ho | hk
    · exact Or.inr ⟨ho, hle⟩
    · exact Or.inl (by omega)

/-- An operator of a looser tier ends an expression. -/
theorem Ends.before (op : BinOp) {ws : Text} (hws : Blank ws) (p : Text) (hk : k < op.tier)
    (ho : o = true → 2 < op.tier) : Ends k o (ws ++ (op.text ++ p)) := by
  obtain ⟨c, q, hop, hblank, hident⟩ := op.text_cons
  constructor
  · intro c' q' hc'
    cases ws with
    | nil =>
      rw [List.nil_append, hop, List.cons_append] at hc'
      rw [← (List.cons.inj hc').1]
      exact hident
    | cons b ws =>
      rw [List.cons_append] at hc'
      rw [← (List.cons.inj hc').1]
      exact not_isIdentChar_of_blank (hws b List.mem_cons_self)
  · intro j hj hj' hcase
    have hskip : (op.text ++ p).dropWhile isBlank = op.text ++ p := by
      rw [hop, List.cons_append]
      exact dropWhile_head hblank
    rw [dropWhile_blank hws, hskip]
    refine tierOp_other op p hj hj' ?_
    rcases hcase with hle | ⟨ho', hle⟩
    · omega
    · have hlt := ho ho'
      omega

theorem Ends.close {ws : Text} (hws : Blank ws) (p : Text) : Ends k o (ws ++ ')' :: p) := by
  constructor
  · intro c' q' hc'
    cases ws with
    | nil =>
      rw [← (List.cons.inj hc').1]
      decide
    | cons b ws =>
      rw [← (List.cons.inj hc').1]
      exact not_isIdentChar_of_blank (hws b List.mem_cons_self)
  · intro j _ _ _
    rw [dropWhile_blank hws, dropWhile_head (by decide), tierOp_close]

theorem Ends.blank {ws : Text} (hws : Blank ws) : Ends k o ws := by
  constructor
  · intro c q hc
    exact not_isIdentChar_of_blank (hws c (by rw [hc]; exact List.mem_cons_self))
  · intro j _ _ _
    rw [List.dropWhile_eq_nil_iff.mpr hws, tierOp_nil]

end Ends

end PioSim.Asm
