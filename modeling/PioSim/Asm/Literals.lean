import PioSim.Asm.Precedence

/-!
# Numeric literals

`expr_primary` copies a literal into a buffer of 33 characters before `parse_uint` converts it, and
drops the characters past that. A literal is read exactly when that loses nothing.
-/

namespace PioSim.Asm

/-- The base of a literal, as its prefix marks it. -/
inductive Radix
  | dec
  | hex (upper : Bool)
  | bin (upper : Bool)
  deriving DecidableEq

namespace Radix

def mark : Radix → Text
  | dec => []
  | hex upper => ['0', if upper then 'X' else 'x']
  | bin upper => ['0', if upper then 'B' else 'b']

def base : Radix → ℕ
  | dec => 10
  | hex _ => 16
  | bin _ => 2

def isDigit : Radix → Char → Bool
  | dec, c => Asm.isDigit c
  | hex _, c => isHexDigit c
  | bin _, c => c == '0' || c == '1'

theorem two_le_base (r : Radix) : 2 ≤ r.base := by cases r <;> simp [base]

theorem length_mark_le (r : Radix) : r.mark.length ≤ 2 := by cases r <;> simp [mark]

theorem isNumberChar_mark (r : Radix) : ∀ c ∈ r.mark, isNumberChar c = true := by
  rcases r with _ | (_ | _) | (_ | _) <;> decide

theorem isHexDigit_of_isDigit {r : Radix} {c : Char} (h : r.isDigit c = true) :
    isHexDigit c = true := by
  cases r with
  | dec => exact Asm.isHexDigit_of_isDigit h
  | hex upper => exact h
  | bin upper =>
    rw [isDigit, Bool.or_eq_true, beq_iff_eq, beq_iff_eq] at h
    rcases h with rfl | rfl <;> decide

end Radix

/-- A literal of any length: a prefix and at least one digit of its base. -/
structure Numeral where
  radix : Radix
  digits : Text
  nonempty : digits ≠ []
  valid : ∀ c ∈ digits, radix.isDigit c = true

theorem foldl_numeral (base : ℕ) (s : Text) (v : ℕ) :
    s.foldl (fun n c => n * base + digit c) v = v * base ^ s.length + numeral base s := by
  induction s generalizing v with
  | nil => simp [numeral]
  | cons c s ih =>
    have hzero := ih (digit c)
    have hcons : numeral base (c :: s) = digit c * base ^ s.length + numeral base s := by
      rw [numeral, List.foldl_cons, Nat.zero_mul, Nat.zero_add, hzero]
    rw [List.foldl_cons, ih, hcons, List.length_cons, Nat.pow_succ, Nat.add_mul, Nat.add_assoc,
      Nat.mul_assoc, Nat.mul_comm base]

theorem numeral_append (base : ℕ) (s t : Text) :
    numeral base (s ++ t) = numeral base s * base ^ t.length + numeral base t := by
  rw [numeral, List.foldl_append, foldl_numeral]
  rfl

theorem parseUint_bin {upper : Bool} {digits : Text} (hne : digits ≠ [])
    (h : ∀ c ∈ digits, (Radix.bin upper).isDigit c = true) :
    parseUint ((Radix.bin upper).mark ++ digits) =
      if numeral 2 digits < 2 ^ 32 then some (BitVec.ofNat 32 (numeral 2 digits)) else none := by
  have hvalue : ∀ c ∈ digits, digitValue 2 c = some (digit c) := by
    intro c hc
    have hbit := h c hc
    rw [Radix.isDigit, Bool.or_eq_true, beq_iff_eq, beq_iff_eq] at hbit
    rcases hbit with rfl | rfl <;> rfl
  have hrun := parseDigits_eq 2 (by decide) digits hvalue
    (fun c hc => digit_lt (Radix.isHexDigit_of_isDigit (h c hc))) 0 (by decide)
  cases upper
  all_goals
    simp only [Radix.mark, Bool.false_eq_true, if_false, if_true, List.cons_append, List.nil_append]
    rw [parseUint, if_neg hne, hrun]
    unfold numeral
    split <;> rfl

namespace Numeral

variable (l : Numeral)

def text : Text := l.radix.mark ++ l.digits

def magnitude : ℕ := numeral l.radix.base l.digits

def word : Option Word := if l.magnitude < 2 ^ 32 then some (BitVec.ofNat 32 l.magnitude) else none

/-- What `parse_uint` makes of the whole of a literal. -/
theorem parseUint_text : parseUint l.text = l.word := by
  obtain ⟨radix, digits, hne, hvalid⟩ := l
  cases radix with
  | dec => exact parseUint_dec hne hvalid
  | hex upper => exact parseUint_hex (by cases upper <;> simp) hne hvalid
  | bin upper => exact parseUint_bin hne hvalid

/-- The part of a literal that the buffer holds. -/
def kept : Numeral where
  radix := l.radix
  digits := l.digits.take (33 - l.radix.mark.length)
  nonempty := by
    have hmark := l.radix.length_mark_le
    obtain ⟨c, s, hs⟩ := List.exists_cons_of_ne_nil l.nonempty
    obtain ⟨n, hn⟩ : ∃ n, 33 - l.radix.mark.length = n + 1 := ⟨32 - l.radix.mark.length, by omega⟩
    rw [hs, hn]
    exact List.cons_ne_nil _ _
  valid c hc := l.valid c (List.mem_of_mem_take hc)

theorem text_kept : l.kept.text = l.text.take 33 := by
  have hmark := l.radix.length_mark_le
  rw [text, text, List.take_append, List.take_of_length_le (by omega)]
  rfl

def dropped : Text := l.digits.drop (33 - l.radix.mark.length)

theorem magnitude_eq : l.magnitude =
    l.kept.magnitude * l.radix.base ^ l.dropped.length + numeral l.radix.base l.dropped := by
  have hsplit : l.digits = l.kept.digits ++ l.dropped := (List.take_append_drop _ _).symm
  rw [magnitude, hsplit, numeral_append]
  rfl

theorem dropped_eq_nil : l.dropped = [] ↔ l.text.length ≤ 33 := by
  have hmark := l.radix.length_mark_le
  rw [dropped, List.drop_eq_nil_iff, text, List.length_append]
  omega

theorem kept_le : l.kept.magnitude ≤ l.magnitude := by
  have hpos : 0 < l.radix.base ^ l.dropped.length :=
    Nat.pow_pos (Nat.lt_of_lt_of_le (by decide) l.radix.two_le_base)
  have hmul := Nat.le_mul_of_pos_right l.kept.magnitude hpos
  have heq := l.magnitude_eq
  omega

/-- The dropped digits leave the number alone only if there are none or the number is 0. -/
theorem kept_eq_iff : l.kept.magnitude = l.magnitude ↔ l.text.length ≤ 33 ∨ l.magnitude = 0 := by
  have heq := l.magnitude_eq
  have hle := l.kept_le
  constructor
  · intro hsame
    by_contra hno
    rw [not_or, ← l.dropped_eq_nil] at hno
    have hlength := List.length_pos_iff.mpr hno.1
    have hpow : 2 ≤ l.radix.base ^ l.dropped.length := by
      calc 2 ≤ l.radix.base := l.radix.two_le_base
        _ ≤ l.radix.base ^ l.dropped.length :=
          Nat.le_self_pow (Nat.pos_iff_ne_zero.mp hlength) _
    have hdouble : l.kept.magnitude * 2 ≤ l.kept.magnitude * l.radix.base ^ l.dropped.length :=
      Nat.mul_le_mul_left _ hpow
    omega
  · rintro (hshort | hzero)
    · rw [heq, l.dropped_eq_nil.mpr hshort]
      simp [numeral]
    · omega

/-- The buffer loses nothing that matters: it holds the whole literal, or the literal is 0, or what
it holds is past 32 bits already. -/
def Fits : Prop := l.text.length ≤ 33 ∨ l.magnitude = 0 ∨ 2 ^ 32 ≤ l.kept.magnitude

/-- The word the evaluator yields: that of the part in the buffer. -/
theorem word_kept_iff : l.kept.word = l.word ↔ l.Fits := by
  have hle := l.kept_le
  have heq := l.kept_eq_iff
  unfold word Fits
  by_cases hkept : l.kept.magnitude < 2 ^ 32
  · rw [if_pos hkept]
    by_cases hwhole : l.magnitude < 2 ^ 32
    · rw [if_pos hwhole, Option.some.injEq, ← BitVec.toNat_inj, BitVec.toNat_ofNat,
        BitVec.toNat_ofNat, Nat.mod_eq_of_lt hkept, Nat.mod_eq_of_lt hwhole, heq]
      exact or_congr_right (or_iff_left (by omega)).symm
    · rw [if_neg hwhole]
      refine iff_of_false (fun h => nomatch h) ?_
      rintro (hshort | hzero | hover)
      · have := heq.mpr (.inl hshort)
        omega
      · omega
      · omega
  · rw [if_neg hkept, if_neg (by omega)]
    exact iff_of_true rfl (.inr (.inr (by omega)))

theorem run : (∃ c q, l.text = c :: q ∧ Asm.isDigit c = true) ∧
    ∀ c ∈ l.text, isNumberChar c = true := by
  have hdigits : ∀ c ∈ l.digits, isNumberChar c = true :=
    fun c hc => isNumberChar_of_isHexDigit (Radix.isHexDigit_of_isDigit (l.valid c hc))
  obtain ⟨radix, digits, hne, hvalid⟩ := l
  cases radix with
  | dec =>
    obtain ⟨c, q, rfl⟩ := List.exists_cons_of_ne_nil hne
    exact ⟨⟨c, q, rfl, hvalid c List.mem_cons_self⟩, hdigits⟩
  | hex upper | bin upper =>
    refine ⟨⟨'0', _, rfl, by decide⟩, ?_⟩
    intro c hc
    rcases List.mem_append.mp hc with hmark | hc
    · exact Radix.isNumberChar_mark _ c hmark
    · exact hdigits c hc

end Numeral

/-! ### In an expression -/

section Evaluator
variable {σ : Type} {look : σ → Text → Option Word × σ} {room : ℕ} {e : Expr σ} {ws rest : Text}

/-- What the evaluator is to do with a literal: go on behind it with its number, or flag the
expression. -/
def Numeral.ReadExactly (l : Numeral) (e : Expr σ) (rest : Text) (r : Value × Expr σ) : Prop :=
  match l.word with
  | some u => r = (u.setWidth 64, { e with p := rest })
  | none => r.2.ok = false

/-- Wherever a literal stands, the evaluator reads the part of it that the buffer holds. -/
theorem exprPrim_numeral (l : Numeral) (hws : Blank ws) (hp : e.p = ws ++ (l.text ++ rest))
    (hrest : ∀ c q, rest = c :: q → isNumberChar c = false) :
    exprPrim look room e = match l.kept.word with
      | some u => (u.setWidth 64, { e with p := rest })
      | none => (0, { e with p := rest, ok := false }) := by
  obtain ⟨⟨c, q, hc, hdigit⟩, hrun⟩ := l.run
  have hident := isIdentChar_of_isDigit hdigit
  have hblank := isBlank_of_isIdentChar hident
  have hskip : e.skipWs.p = c :: (q ++ rest) := by
    rw [Expr.skipWs, hp, hc, List.cons_append]
    dsimp only
    rw [dropWhile_blank hws, dropWhile_head hblank]
  obtain ⟨htake, hdrop⟩ := run_of_kind hrun rest hrest
  rw [hc, List.cons_append] at htake hdrop
  rw [← exprPrim_skipWs, exprPrim_leaf hskip hblank (ne_of_isIdentChar hident (by decide))
    (ne_of_isIdentChar hident (by decide)), if_pos hdigit]
  unfold exprNumber
  rw [hskip, htake, hdrop, ← hc, ← l.text_kept]
  dsimp only
  rw [l.kept.parseUint_text]
  cases l.kept.word with
  | none => rfl
  | some u => rfl

/-- A flagged literal leaves the rest of the expression flagged, and so rejected. -/
theorem readExactly_iff (l : Numeral) (hok : e.ok = true) (hws : Blank ws)
    (hp : e.p = ws ++ (l.text ++ rest)) (hrest : ∀ c q, rest = c :: q → isNumberChar c = false) :
    l.ReadExactly e rest (exprPrim look room e) ↔ l.Fits := by
  rw [exprPrim_numeral l hws hp hrest, Numeral.ReadExactly, ← l.word_kept_iff]
  cases hkept : l.kept.word with
  | none =>
    cases hword : l.word with
    | none => exact iff_of_true rfl rfl
    | some u =>
      refine iff_of_false (fun h => ?_) (fun h => nomatch h)
      have hflag := congrArg (fun r : Value × Expr σ => r.2.ok) h
      exact Bool.false_ne_true (hflag.trans hok)
  | some u =>
    cases hword : l.word with
    | none =>
      exact iff_of_false (fun h => Bool.false_ne_true (h.symm.trans hok)) (fun h => nomatch h)
    | some v =>
      dsimp only
      rw [Prod.mk.injEq, Option.some.injEq]
      constructor
      · rintro ⟨hvalue, -⟩
        have hsame := congrArg (BitVec.setWidth 32) hvalue
        rwa [BitVec.setWidth_setWidth_of_le _ (by decide),
          BitVec.setWidth_setWidth_of_le _ (by decide), BitVec.setWidth_eq,
          BitVec.setWidth_eq] at hsame
      · rintro rfl
        exact ⟨rfl, rfl⟩

/-- A tier whose operand ends the text has its operand's value. -/
theorem tier_of_end {op : Text → Option (BinOp × Text)} (hop : op [] = none) {f : Reader σ}
    (h : (f e).2.skipWs.p = []) : (Expr.tier op).parse f e = ((f e).1, (f e).2.skipWs) := by
  unfold Chain.Tier.parse
  exact Chain.Tier.loop_of_stop _ (by
    show (op (f e).2.skipWs.p).map _ = none
    rw [h, hop]
    rfl)

theorem exprShift_of_end {f : Reader σ} (h : (f e).2.skipWs.p = []) :
    exprShift f e = ((f e).1, (f e).2.skipWs) := by
  have hbit : exprBit f e = ((f e).1, (f e).2.skipWs) := tier_of_end rfl h
  have hmul : exprMul f e = ((f e).1, (f e).2.skipWs) := by
    rw [exprMul, tier_of_end rfl (by rw [hbit, Expr.skipWs_skipWs, h]), hbit, Expr.skipWs_skipWs]
  have hadd : exprAdd f e = ((f e).1, (f e).2.skipWs) := by
    rw [exprAdd, tier_of_end rfl (by rw [hmul, Expr.skipWs_skipWs, h]), hmul, Expr.skipWs_skipWs]
  rw [exprShift, tier_of_end rfl (by rw [hadd, Expr.skipWs_skipWs, h]), hadd, Expr.skipWs_skipWs]

/-- The whole text of an expression is a literal. -/
theorem resolveUintWith_numeral (st : σ) (l : Numeral) {ws' : Text} (hws : Blank ws)
    (hws' : Blank ws') : (resolveUintWith look st (ws ++ (l.text ++ ws'))).1 = l.kept.word := by
  obtain ⟨⟨c, q, hc, hdigit⟩, -⟩ := l.run
  have hident := isIdentChar_of_isDigit hdigit
  generalize he : (⟨st, ws ++ (l.text ++ ws'), true⟩ : Expr σ) = e
  have hskip : e.skipWs = ⟨st, l.text ++ ws', true⟩ := by
    rw [← he, Expr.skipWs]
    dsimp only
    rw [dropWhile_blank hws, hc, List.cons_append, dropWhile_head (isBlank_of_isIdentChar hident)]
  have hcolon : ∀ p, e.skipWs.p ≠ ':' :: ':' :: p := by
    intro p hp
    rw [hskip, hc, List.cons_append] at hp
    exact ne_of_isIdentChar hident (by decide) (List.cons.inj hp).1
  have hp : e.skipWs.p = [] ++ (l.text ++ ws') := by
    rw [hskip]
    rfl
  have hends : ∀ c q, ws' = c :: q → isNumberChar c = false := by
    intro c q hq
    cases hn : isNumberChar c with
    | false => rfl
    | true =>
      have hblank := hws' c (by rw [hq]; exact List.mem_cons_self)
      rw [isBlank_of_isIdentChar (isIdentChar_of_isNumberChar hn)] at hblank
      cases hblank
  have hprim : exprPrim look 63 e.skipWs = _ := exprPrim_numeral l Blank.nil hp hends
  have hblank : ∀ ok : Bool, (Expr.mk st ws' ok).skipWs = ⟨st, [], ok⟩ := by
    intro ok
    rw [Expr.skipWs]
    dsimp only
    rw [List.dropWhile_eq_nil_iff.mpr hws']
  have hrun : exprReverse (exprPrim look) exprMaxDepth e = match l.kept.word with
      | some u => (u.setWidth 64, ⟨st, [], true⟩)
      | none => (0, ⟨st, [], false⟩) := by
    rw [show exprMaxDepth = 63 + 1 from rfl, exprReverse_shift hcolon]
    cases hword : l.kept.word with
    | none =>
      rw [hword, hskip] at hprim
      rw [hskip, exprShift_of_end, hprim, hblank]
      rw [hprim, hblank]
    | some u =>
      rw [hword, hskip] at hprim
      rw [hskip, exprShift_of_end, hprim, hblank]
      rw [hprim, hblank]
  unfold resolveUintWith exprValue
  dsimp only
  rw [exprValue_eq, he, hrun]
  cases l.kept.word with
  | none => rfl
  | some u =>
    dsimp only
    rw [if_pos ⟨rfl, rfl⟩, Option.map_some, BitVec.setWidth_setWidth_of_le _ (by decide),
      BitVec.setWidth_eq]

end Evaluator

/-- A literal of any base and length, wherever it stands in an expression and in an expression of
its own, is read as its number, or rejected if that is past 32 bits, exactly when the buffer of 33
characters loses nothing that matters: it holds the whole literal, or the literal is 0, or the part
in the buffer is past 32 bits already. -/
theorem literal_exact_iff {σ : Type} (look : σ → Text → Option Word × σ) (room : ℕ) (e : Expr σ)
    (l : Numeral) {ws ws' rest : Text} (hok : e.ok = true) (hws : Blank ws) (hws' : Blank ws')
    (hp : e.p = ws ++ (l.text ++ rest)) (hrest : ∀ c q, rest = c :: q → isNumberChar c = false) :
    (l.ReadExactly e rest (exprPrim look room e) ↔ l.Fits) ∧
      ∀ ctx : AsmCtx, (ctx.resolveUint (ws ++ (l.text ++ ws'))).1 = l.word ↔ l.Fits := by
  refine ⟨readExactly_iff l hok hws hp hrest, fun ctx => ?_⟩
  rw [AsmCtx.resolveUint, resolveUintWith_numeral ctx l hws hws', l.word_kept_iff]

/-- `0x1F`. -/
def thirtyOne : Numeral where
  radix := .hex false
  digits := ['1', 'F']
  nonempty := by decide
  valid := by decide

theorem literal_exact_iff_thirtyOne :
    (sevenCtx.resolveUint (['0', 'x', '1', 'F'] ++ [])).1 = some 31#32 := by
  have hfits : thirtyOne.Fits := .inl (by decide)
  have hword : thirtyOne.word = some 31#32 := by decide
  rw [← hword]
  have hp : (Expr.mk () thirtyOne.text true).p = [] ++ (thirtyOne.text ++ []) :=
    (List.append_nil _).symm
  have hexact := literal_exact_iff (fun _ _ => (none, ())) 1 (.mk () thirtyOne.text true)
    thirtyOne rfl
    Blank.nil Blank.nil hp (fun _ _ h => nomatch h)
  exact (hexact.2 sevenCtx).mpr hfits

/-- `0b1` and thirty-one zeros. -/
def topBit : Numeral where
  radix := .bin false
  digits := '1' :: List.replicate 31 '0'
  nonempty := by decide
  valid := by decide

/-- The last digit of a binary literal of 32 digits is dropped: 2 ^ 31 is read as 2 ^ 30. -/
theorem top_bit_halved : topBit.word = some 0x80000000#32 ∧
    (sevenCtx.resolveUint topBit.text).1 = some 0x40000000#32 ∧
    ¬ (sevenCtx.resolveUint topBit.text).1 = topBit.word := by
  decide +kernel

end PioSim.Asm
