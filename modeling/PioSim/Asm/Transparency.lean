import PioSim.Asm.Reading

/-!
# Defines against their texts

A define is evaluated in 64 bits and remembered in 32. Replacing each reference to it by its
parenthesised text leaves every evaluation as it is exactly when the value of the text survives that
cut.
-/

namespace PioSim.Asm

/-! ### Replacing references -/

section Substitute
variable (name body : Text)

def parenthesised (s : Text) : Text := '(' :: (s ++ [')'])

/-- `substitute`, for a text of at most so many tokens. -/
def substituteUpTo : ℕ → Text → Text
  | 0, s => s
  | _ + 1, [] => []
  | n + 1, c :: p =>
    if isDigit c then
      (c :: p).takeWhile isNumberChar ++ substituteUpTo n ((c :: p).dropWhile isNumberChar)
    else if isIdentStart c then
      (if (c :: p).takeWhile isIdentChar = name then parenthesised body
        else (c :: p).takeWhile isIdentChar) ++ substituteUpTo n ((c :: p).dropWhile isIdentChar)
    else c :: substituteUpTo n p

/-- Each reference to the name replaced by the parenthesised text; numbers and other identifiers
stay. -/
def substitute (s : Text) : Text := substituteUpTo name body s.length s

variable {name body}

theorem length_dropWhile_lt {kind : Char → Bool} {c : Char} {p : Text} (h : kind c = true) :
    ((c :: p).dropWhile kind).length < (c :: p).length := by
  rw [List.dropWhile_cons_of_pos h, List.length_cons]
  exact Nat.lt_succ_of_le (List.length_dropWhile_le _ _)

theorem isIdentChar_of_start {c : Char} (h : isIdentStart c = true) : isIdentChar c = true := by
  simp only [isIdentChar, h, Bool.true_or]

theorem substituteUpTo_enough : ∀ (n : ℕ) (s : Text), s.length ≤ n →
    substituteUpTo name body n s = substitute name body s := by
  intro n
  induction n using Nat.strongRecOn with
  | _ n ih =>
    intro s hs
    cases s with
    | nil => cases n <;> rfl
    | cons c p =>
      obtain ⟨n, rfl⟩ : ∃ m, n = m + 1 := ⟨n - 1, by rw [List.length_cons] at hs; omega⟩
      rw [List.length_cons] at hs
      have hinner : ∀ q : Text, q.length ≤ p.length → substituteUpTo name body n q =
          substituteUpTo name body p.length q := by
        intro q hq
        rw [ih n (by omega) q (by omega), ih p.length (by omega) q hq]
      unfold substitute
      rw [List.length_cons, substituteUpTo, substituteUpTo]
      split_ifs with hdigit hstart
      · have hlt := length_dropWhile_lt (p := p) (isNumberChar_of_isDigit hdigit)
        rw [List.length_cons] at hlt
        rw [hinner _ (by omega)]
      · have hlt := length_dropWhile_lt (p := p) (isIdentChar_of_start hstart)
        rw [List.length_cons] at hlt
        rw [hinner _ (by omega)]
      · have hlt := length_dropWhile_lt (p := p) (isIdentChar_of_start hstart)
        rw [List.length_cons] at hlt
        rw [hinner _ (by omega)]
      · rw [hinner p (Nat.le_refl _)]

theorem substitute_nil : substitute name body [] = [] := rfl

theorem substitute_number {c : Char} {p : Text} (h : isDigit c = true) :
    substitute name body (c :: p) = (c :: p).takeWhile isNumberChar ++
      substitute name body ((c :: p).dropWhile isNumberChar) := by
  have hlt := length_dropWhile_lt (p := p) (isNumberChar_of_isDigit h)
  rw [List.length_cons] at hlt
  rw [substitute, List.length_cons, substituteUpTo, if_pos h, substituteUpTo_enough _ _ (by omega)]

theorem substitute_ident {c : Char} {p : Text} (hd : isDigit c = false)
    (h : isIdentStart c = true) :
    substitute name body (c :: p) =
      (if (c :: p).takeWhile isIdentChar = name then parenthesised body
        else (c :: p).takeWhile isIdentChar) ++
      substitute name body ((c :: p).dropWhile isIdentChar) := by
  have hlt := length_dropWhile_lt (p := p) (isIdentChar_of_start h)
  rw [List.length_cons] at hlt
  rw [substitute, List.length_cons, substituteUpTo,
    if_neg (by rw [hd]; exact Bool.false_ne_true), if_pos h, substituteUpTo_enough _ _ (by omega)]

theorem substitute_other {c : Char} {p : Text} (hd : isDigit c = false)
    (h : isIdentStart c = false) :
    substitute name body (c :: p) = c :: substitute name body p := by
  rw [substitute, List.length_cons, substituteUpTo, if_neg (by rw [hd]; exact Bool.false_ne_true),
    if_neg (by rw [h]; exact Bool.false_ne_true)]
  rfl

/-- The head of a text stays, or a parenthesis stands for it. -/
theorem substitute_head (name body : Text) (c : Char) (p : Text) :
    ∃ c' q, substitute name body (c :: p) = c' :: q ∧
      (c' = c ∨ isIdentStart c = true ∧ c' = '(') := by
  cases hd : isDigit c with
  | true =>
    rw [substitute_number hd, List.takeWhile_cons_of_pos (isNumberChar_of_isDigit hd)]
    exact ⟨c, _, rfl, Or.inl rfl⟩
  | false =>
    cases hs : isIdentStart c with
    | false =>
      rw [substitute_other hd hs]
      exact ⟨c, _, rfl, Or.inl rfl⟩
    | true =>
      rw [substitute_ident hd hs]
      split
      · exact ⟨'(', _, rfl, Or.inr ⟨rfl, rfl⟩⟩
      · rw [List.takeWhile_cons_of_pos (isIdentChar_of_start hs)]
        exact ⟨c, _, rfl, Or.inl rfl⟩

theorem not_isIdentChar {c : Char} (h : isIdentChar c = false) :
    isDigit c = false ∧ isIdentStart c = false := by
  rw [isIdentChar, Bool.or_eq_false_iff] at h
  exact ⟨h.2, h.1⟩

/-- What is neither part of a name or number nor an opening parenthesis comes from the same
place. -/
theorem substitute_eq_cons {c : Char} {p q : Text} (h : substitute name body p = c :: q)
    (hc : isIdentChar c = false) (hparen : c ≠ '(') :
    ∃ p', p = c :: p' ∧ q = substitute name body p' := by
  cases p with
  | nil =>
    rw [substitute_nil] at h
    cases h
  | cons b p =>
    obtain ⟨b', q', hhead, hb⟩ := substitute_head name body b p
    rw [hhead] at h
    obtain ⟨rfl, rfl⟩ := List.cons.inj h
    rcases hb with rfl | ⟨-, rfl⟩
    · obtain ⟨hd, hs⟩ := not_isIdentChar hc
      rw [substitute_other hd hs] at hhead
      exact ⟨p, rfl, (List.cons.inj hhead).2.symm⟩
    · exact absurd rfl hparen

theorem substitute_cons {c : Char} (p : Text) (hc : isIdentChar c = false) :
    substitute name body (c :: p) = c :: substitute name body p :=
  substitute_other (not_isIdentChar hc).1 (not_isIdentChar hc).2

theorem substitute_blanks (p : Text) :
    substitute name body (p.dropWhile isBlank) = (substitute name body p).dropWhile isBlank := by
  induction p with
  | nil => rfl
  | cons c p ih =>
    cases hc : isBlank c with
    | true =>
      rw [List.dropWhile_cons_of_pos hc, substitute_cons p (not_isIdentChar_of_blank hc),
        List.dropWhile_cons_of_pos hc, ih]
    | false =>
      obtain ⟨c', q, hhead, hc'⟩ := substitute_head name body c p
      have hblank : isBlank c' = false := by
        rcases hc' with rfl | ⟨-, rfl⟩
        · exact hc
        · rfl
      rw [dropWhile_head hc, hhead, dropWhile_head hblank]

/-- A run of a kind of characters ends at the same place. -/
theorem substitute_boundary {kind : Char → Bool} (hparen : kind '(' = false) {rest : Text}
    (h : ∀ c q, rest = c :: q → kind c = false) :
    ∀ c q, substitute name body rest = c :: q → kind c = false := by
  intro c q hq
  cases rest with
  | nil => cases hq
  | cons b p =>
    obtain ⟨b', q', hhead, hb⟩ := substitute_head name body b p
    rw [hhead] at hq
    rw [← (List.cons.inj hq).1]
    rcases hb with rfl | ⟨-, rfl⟩
    · exact h _ _ rfl
    · exact hparen

theorem isIdentChar_of_isOperator {c : Char} (h : isOperator c = true) :
    isIdentChar c = false ∧ c ≠ '(' := by
  have hmem : c ∈ ['&', '|', '^', '*', '/', '+', '-', '<', '>', ':'] := by
    simpa [isOperator] using h
  exact (by decide : ∀ c ∈ ['&', '|', '^', '*', '/', '+', '-', '<', '>', ':'],
    isIdentChar c = false ∧ c ≠ '(') c hmem

theorem follows_substitute : Follows (fun p q => q = substitute name body p) where
  blanks p q h := by rw [h, substitute_blanks]
  operator c p q hc h := ⟨_, by rw [h, substitute_cons p (isIdentChar_of_isOperator hc).1], rfl⟩
  operator' c p q hc h := by
    obtain ⟨p', hp, hq⟩ := substitute_eq_cons h.symm (isIdentChar_of_isOperator hc).1
      (isIdentChar_of_isOperator hc).2
    exact ⟨p', hp, hq⟩
  close p q h := ⟨_, by rw [h, substitute_cons p (by decide)], rfl⟩

theorem follows_substituted : Follows (fun p q => p = substitute name body q) where
  blanks p q h := by rw [h, substitute_blanks]
  operator c p q hc h := substitute_eq_cons h.symm (isIdentChar_of_isOperator hc).1
    (isIdentChar_of_isOperator hc).2
  operator' c p q hc h := ⟨_, by rw [h, substitute_cons q (isIdentChar_of_isOperator hc).1], rfl⟩
  close p q h := substitute_eq_cons h.symm (by decide) (by decide)

end Substitute

/-! ### A text in parentheses -/

section Parenthesised
variable {symbol : Text → Option Word} {body : Text} {v : Value}

/-- Putting a closing parenthesis behind a text. -/
theorem follows_closed (w : Text) : Follows (fun p q => q = p ++ ')' :: w) where
  blanks p q h := by
    rw [h, List.dropWhile_append]
    split
    · rename_i hempty
      rw [List.isEmpty_iff.mp hempty, dropWhile_head (by decide)]
      rfl
    · rfl
  operator c p q _ h := ⟨_, h, rfl⟩
  operator' c p q hc h := by
    cases p with
    | nil =>
      have hclose := (List.cons.inj h).1
      rw [hclose] at hc
      exact absurd hc (by decide)
    | cons b p =>
      obtain ⟨rfl, hq⟩ := List.cons.inj h
      exact ⟨p, rfl, hq⟩
  close p q h := ⟨_, h, rfl⟩

theorem takeWhile_closed (kind : Char → Bool) (h : kind ')' = false) (p w : Text) :
    (p ++ ')' :: w).takeWhile kind = p.takeWhile kind ∧
      (p ++ ')' :: w).dropWhile kind = p.dropWhile kind ++ ')' :: w := by
  have hclose : ¬ kind ')' = true := by
    rw [h]
    exact Bool.false_ne_true
  induction p with
  | nil => exact ⟨List.takeWhile_cons_of_neg hclose, List.dropWhile_cons_of_neg hclose⟩
  | cons c p ih =>
    rw [List.cons_append]
    by_cases hc : kind c = true
    · rw [List.takeWhile_cons_of_pos hc, List.takeWhile_cons_of_pos hc,
        List.dropWhile_cons_of_pos hc, List.dropWhile_cons_of_pos hc, ih.1]
      exact ⟨rfl, ih.2⟩
    · rw [List.takeWhile_cons_of_neg hc, List.takeWhile_cons_of_neg hc,
        List.dropWhile_cons_of_neg hc, List.dropWhile_cons_of_neg hc]
      exact ⟨rfl, rfl⟩

theorem leaves_closed (symbol : Text → Option Word) (w : Text) :
    LeavesFollow (fun p q => q = p ++ ')' :: w) (fun _ _ => True)
    (lookIn symbol) (lookIn symbol) 0 := by
  intro room room' e e' c p _ hp hblank ha
  have hp' : e'.p = c :: (p ++ ')' :: w) := by rw [ha.text, hp, List.cons_append]
  by_cases hopen : c = '-' ∨ c = '('
  · exact Or.inl ⟨_, hp', hopen, rfl⟩
  · right
    intro hok
    have hminus : c ≠ '-' := fun hc => hopen (Or.inl hc)
    have hparen : c ≠ '(' := fun hc => hopen (Or.inr hc)
    rw [exprPrim_leaf hp hblank hminus hparen] at hok ⊢
    rw [exprPrim_leaf hp' hblank hminus hparen]
    split_ifs at hok ⊢ with hdigit hident
    · have hrun := takeWhile_closed isNumberChar (by decide) e.p w
      rw [← ha.text] at hrun
      exact exprNumber_along ha hrun.1 hrun.2 hok
    · have hrun := takeWhile_closed isIdentChar (by decide) e.p w
      rw [← ha.text] at hrun
      exact exprIdent_along ha hrun.1 hrun.2 (fun v hv => ⟨hv, trivial⟩) hok
    · cases hok

/-- The value of a text with room for so many levels, over fixed symbols. -/
def valueIn (symbol : Text → Option Word) (room : ℕ) (s : Text) : Option Value :=
  (exprValue (lookIn symbol) room () s).1

theorem valueIn_eq_some {room : ℕ} {s : Text} : valueIn symbol room s = some v ↔
    (exprReverse (exprPrim (lookIn symbol)) room ⟨(), s, true⟩).2.ok = true ∧
      (exprReverse (exprPrim (lookIn symbol)) room ⟨(), s, true⟩).2.skipWs.p = [] ∧
      (exprReverse (exprPrim (lookIn symbol)) room ⟨(), s, true⟩).1 = v := by
  unfold valueIn exprValue
  rw [exprValue_eq]
  dsimp only
  rw [Option.ite_none_right_eq_some, Option.some.injEq, and_assoc]
  rfl

theorem valueIn_mono {room room' : ℕ} (h : room ≤ room') {s : Text}
    (hv : valueIn symbol room s = some v) :
    valueIn symbol room' s = some v := by
  have hfinds : Finds (fun _ _ => True) (lookIn symbol) (lookIn symbol) :=
    fun _ _ _ _ _ hf => ⟨hf, trivial⟩
  exact (exprValue_follows hfinds trivial h hv).1

/-- A text that has a value is read as that value between parentheses, whatever follows them. -/
theorem exprPrim_parenthesised {room : ℕ} (hv : valueIn symbol room body = some v) {e : Expr Unit}
    {w : Text} (hok : e.ok = true) (hp : e.p = parenthesised body ++ w) :
    exprPrim (lookIn symbol) room e = (v, { e with p := w }) := by
  obtain ⟨hread, hend, hvalue⟩ := valueIn_eq_some.mp hv
  have hp' : e.p = '(' :: (body ++ ')' :: w) := by
    rw [hp]
    simp only [parenthesised, List.cons_append, List.append_assoc, List.nil_append]
  obtain ⟨hsame, hafter⟩ := (follows_closed w).reverse (leaves_closed symbol w) room room
    (Nat.le_refl _) ⟨(), body, true⟩ { e with p := body ++ ')' :: w } ⟨hok, rfl, trivial⟩ hread
  have hclose := (hafter.skipWs (follows_closed w)).text
  rw [hend, List.nil_append] at hclose
  rw [exprPrim_paren hp', hclose, ← hsame, hvalue]
  have hst : ∀ e' : Expr Unit, e'.ok = true →
      ({ e' with p := w } : Expr Unit) = { e with p := w } := by
    intro e' he'
    simp only [he', hok]
  exact congrArg (Prod.mk v) (hst _ hafter.ok)

end Parenthesised

/-! ### One evaluation along the other -/

section Along
variable {symbol : Text → Option Word} {name body : Text} {v : Value}

/-- The evaluator reads the name as it reads the parenthesised text. -/
structure SameValue (symbol : Text → Option Word) (name body : Text) (v : Value) : Prop where
  isName : IsSymbol name
  ofText : valueIn symbol exprMaxDepth body = some v
  ofName : symbol name = some (v.setWidth 32)
  fits : v.toNat < 2 ^ 32

theorem SameValue.widen (h : SameValue symbol name body v) : (v.setWidth 32).setWidth 64 = v := by
  apply BitVec.eq_of_toNat_eq
  have hlt := h.fits
  rw [BitVec.toNat_setWidth, BitVec.toNat_setWidth, Nat.mod_eq_of_lt hlt, Nat.mod_eq_of_lt v.isLt]

theorem exprIdent_name (h : SameValue symbol name body v) {e : Expr Unit}
    (hid : e.p.takeWhile isIdentChar = name) :
    exprIdent (lookIn symbol) e = (v, { e with p := e.p.dropWhile isIdentChar }) := by
  have hlength := h.isName.2.2
  unfold exprIdent
  dsimp only [lookIn]
  rw [hid, if_neg (by omega), h.ofName]
  dsimp only
  rw [h.widen]

theorem not_isDigit_of_isIdentStart {c : Char} (h : isIdentStart c = true) : isDigit c = false := by
  cases hd : isDigit c with
  | false => rfl
  | true =>
    unfold isDigit at hd
    unfold isIdentStart at h
    simp only [Bool.or_eq_true, Bool.and_eq_true, decide_eq_true_eq, beq_iff_eq] at hd h
    have h9 := hd.2
    rcases h with (⟨h, -⟩ | ⟨h, -⟩) | rfl
    · exact absurd (Char.le_trans h h9) (by decide)
    · exact absurd (Char.le_trans h h9) (by decide)
    · exact absurd h9 (by decide)

theorem dropWhile_run {kind : Char → Bool} (p : Text) :
    ∀ c q, p.dropWhile kind = c :: q → kind c = false := by
  intro c q hq
  have hne : p.dropWhile kind ≠ [] := by
    rw [hq]
    exact List.cons_ne_nil _ _
  have hhead := List.head_dropWhile_not kind hne
  simp only [hq, List.head_cons] at hhead
  exact hhead

/-- A run of number characters, or of another name, is the same run after the replacement. -/
theorem substitute_run (kind : Char → Bool) (hparen : kind '(' = false) {p q : Text}
    (h : q = p.takeWhile kind ++ substitute name body (p.dropWhile kind)) :
    q.takeWhile kind = p.takeWhile kind ∧
      q.dropWhile kind = substitute name body (p.dropWhile kind) := by
  rw [h]
  exact run_of_kind (fun c hc => List.mem_takeWhile_imp hc) _
    (substitute_boundary hparen (dropWhile_run p))

theorem leaves_substitute (h : SameValue symbol name body v) :
    LeavesFollow (fun p q => q = substitute name body p) (fun _ _ => True) (lookIn symbol)
    (lookIn symbol)
      exprMaxDepth := by
  intro room room' e e' c p hroom hp hblank ha
  by_cases hopen : c = '-' ∨ c = '('
  · refine Or.inl ⟨substitute name body p, ?_, hopen, rfl⟩
    rw [ha.text, hp]
    rcases hopen with rfl | rfl <;> exact substitute_cons p (by decide)
  right
  intro hok
  have hminus : c ≠ '-' := fun hc => hopen (Or.inl hc)
  have hparen : c ≠ '(' := fun hc => hopen (Or.inr hc)
  rw [exprPrim_leaf hp hblank hminus hparen] at hok ⊢
  split_ifs at hok ⊢ with hdigit hident
  · have htext := ha.text
    rw [hp, substitute_number hdigit, ← hp] at htext
    obtain ⟨q, hq⟩ : ∃ q, e'.p = c :: q := by
      rw [htext, hp, List.takeWhile_cons_of_pos (isNumberChar_of_isDigit hdigit)]
      exact ⟨_, rfl⟩
    have hrun := substitute_run isNumberChar (by decide) htext
    rw [exprPrim_leaf hq hblank hminus hparen, if_pos hdigit]
    exact exprNumber_along ha hrun.1 hrun.2 hok
  · have hdigit' := not_isDigit_of_isIdentStart hident
    have htext := ha.text
    rw [hp, substitute_ident hdigit' hident, ← hp] at htext
    by_cases hid : e.p.takeWhile isIdentChar = name
    · rw [if_pos hid] at htext
      rw [exprIdent_name h hid]
      rw [exprPrim_parenthesised (valueIn_mono (by omega) h.ofText) ha.ok htext]
      exact ⟨rfl, ha.ok, rfl, trivial⟩
    · rw [if_neg hid] at htext
      obtain ⟨q, hq⟩ : ∃ q, e'.p = c :: q := by
        rw [htext, hp, List.takeWhile_cons_of_pos (isIdentChar_of_start hident)]
        exact ⟨_, rfl⟩
      have hrun := substitute_run isIdentChar (by decide) htext
      rw [exprPrim_leaf hq hblank hminus hparen, if_neg hdigit, if_pos hident]
      exact exprIdent_along ha hrun.1 hrun.2 (fun v hv => ⟨hv, trivial⟩) hok
  · cases hok

theorem leaves_substituted (h : SameValue symbol name body v) :
    LeavesFollow (fun p q => p = substitute name body q) (fun _ _ => True) (lookIn symbol)
    (lookIn symbol)
      0 := by
  intro room room' e e' c p hroom hp hblank ha
  have htext : substitute name body e'.p = c :: p := ha.text.symm.trans hp
  cases hq : e'.p with
  | nil =>
    rw [hq] at htext
    cases htext
  | cons b q =>
    rw [hq] at htext
    cases hdigit : isDigit b with
    | true =>
      right
      intro hok
      have hself := ha.text
      rw [hq, substitute_number hdigit, ← hq] at hself
      have hrun := substitute_run isNumberChar (by decide) hself
      rw [substitute_number hdigit, List.takeWhile_cons_of_pos
        (isNumberChar_of_isDigit hdigit)] at htext
      obtain ⟨rfl, -⟩ := List.cons.inj htext
      have hident := isIdentChar_of_isDigit hdigit
      have hminus := ne_of_isIdentChar hident (b := '-') (by decide)
      have hparen := ne_of_isIdentChar hident (b := '(') (by decide)
      rw [exprPrim_leaf hp hblank hminus hparen, if_pos hdigit] at hok ⊢
      rw [exprPrim_leaf hq hblank hminus hparen, if_pos hdigit]
      exact exprNumber_along ha hrun.1.symm hrun.2 hok
    | false =>
      cases hstart : isIdentStart b with
      | true =>
        right
        intro hok
        have hident := isIdentChar_of_start hstart
        have hminus := ne_of_isIdentChar hident (b := '-') (by decide)
        have hparen := ne_of_isIdentChar hident (b := '(') (by decide)
        have hself := ha.text
        rw [hq, substitute_ident hdigit hstart, ← hq] at hself
        rw [exprPrim_leaf hq (isBlank_of_isIdentChar hident) hminus hparen,
          if_neg (by rw [hdigit]; exact Bool.false_ne_true), if_pos hstart]
        by_cases hid : e'.p.takeWhile isIdentChar = name
        · rw [if_pos hid] at hself
          rw [exprIdent_name h hid]
          have hleft : e.ok = true := (sticky_prim (lookIn symbol) room).ok hok
          have hfinds : Finds (fun _ _ => True) (lookIn symbol) (lookIn symbol) :=
            fun _ _ _ _ _ hf => ⟨hf, trivial⟩
          obtain ⟨hvalue, hafter⟩ := follows_eq.prim (leaves_eq hfinds) e.p.length room
            (max room exprMaxDepth) (by omega) e e (Nat.le_refl _) ⟨hleft, rfl, trivial⟩ hok
          rw [exprPrim_parenthesised (valueIn_mono (Nat.le_max_right _ _) h.ofText) hleft hself]
            at hvalue hafter
          exact ⟨hvalue, ha.ok, hafter.text, trivial⟩
        · rw [if_neg hid] at hself
          have hrun := substitute_run isIdentChar (by decide) hself
          obtain rfl : c = b := by
            have hhead := hself.symm.trans hp
            rw [hq, List.takeWhile_cons_of_pos hident] at hhead
            exact (List.cons.inj hhead).1.symm
          rw [exprPrim_leaf hp hblank hminus hparen,
            if_neg (by rw [hdigit]; exact Bool.false_ne_true), if_pos hstart] at hok ⊢
          exact exprIdent_along ha hrun.1.symm hrun.2 (fun v hv => ⟨hv, trivial⟩) hok
      | false =>
        rw [substitute_other hdigit hstart] at htext
        obtain ⟨rfl, rfl⟩ := List.cons.inj htext
        by_cases hopen : b = '-' ∨ b = '('
        · exact Or.inl ⟨q, rfl, hopen, rfl⟩
        · right
          intro hok
          rw [exprPrim_leaf hp hblank (fun hc => hopen (Or.inl hc)) (fun hc => hopen (Or.inr hc)),
            if_neg (by rw [hdigit]; exact Bool.false_ne_true),
            if_neg (by rw [hstart]; exact Bool.false_ne_true)] at hok
          cases hok

/-- An evaluation that succeeds, of a text or of the one with the references replaced, is matched by
the other, given room for the nesting of the define's text. -/
theorem valueIn_substitute (h : SameValue symbol name body v) {room : ℕ} {s : Text} {w : Value}
    (hw : valueIn symbol room s = some w) :
    valueIn symbol (room + exprMaxDepth) (substitute name body s) = some w := by
  rw [valueIn_eq_some] at hw ⊢
  obtain ⟨hok, hend, hvalue⟩ := hw
  obtain ⟨hsame, hafter⟩ := follows_substitute.reverse (leaves_substitute h) room
    (room + exprMaxDepth) (Nat.le_refl _) ⟨(), s, true⟩ ⟨(), substitute name body s, true⟩
    ⟨rfl, rfl, trivial⟩ hok
  have hskip := (hafter.skipWs follows_substitute).text
  rw [hend, substitute_nil] at hskip
  exact ⟨hafter.ok, hskip, by rw [← hsame, hvalue]⟩

theorem valueIn_of_substitute (h : SameValue symbol name body v) {room : ℕ} {s : Text} {w : Value}
    (hw : valueIn symbol room (substitute name body s) = some w) :
    valueIn symbol room s = some w := by
  rw [valueIn_eq_some] at hw ⊢
  obtain ⟨hok, hend, hvalue⟩ := hw
  obtain ⟨hsame, hafter⟩ := follows_substituted.reverse (leaves_substituted h) room room
    (Nat.le_refl _) ⟨(), substitute name body s, true⟩ ⟨(), s, true⟩ ⟨rfl, rfl, trivial⟩ hok
  have hskip := (hafter.skipWs follows_substituted).text
  rw [hend] at hskip
  refine ⟨hafter.ok, ?_, by rw [← hsame, hvalue]⟩
  cases hrest : ((exprReverse (exprPrim (lookIn symbol)) room ⟨(), s, true⟩).2.skipWs).p with
  | nil => rfl
  | cons c p =>
    obtain ⟨c', q, hhead, -⟩ := substitute_head name body c p
    rw [hrest, hhead] at hskip
    cases hskip

end Along

/-! ### Telling the two apart -/

section Detect
variable {symbol : Text → Option Word} {name body : Text} {v : Value}

/-- What brings out the upper half of a 64-bit value. -/
def upperHalf : Text := ['>', '>', '3', '2']

def thirtyTwo : Literal := .dec ['3', '2']

theorem prints_thirtyTwo : Prints (.lit thirtyTwo) 0 false 0 ['3', '2'] :=
  .lit thirtyTwo [] Blank.nil ⟨by decide, by decide, by decide⟩

theorem substitute_upperHalf (body : Text) (h : IsSymbol name) :
    substitute name body (name ++ upperHalf) = parenthesised body ++ upperHalf := by
  obtain ⟨⟨c, q, hname, hstart⟩, hrun, -⟩ := h
  have hkind := run_of_kind hrun upperHalf (by
    intro c q hq
    rw [← (List.cons.inj hq).1]
    decide)
  have hcons : name ++ upperHalf = c :: (q ++ upperHalf) := by rw [hname, List.cons_append]
  rw [hcons] at hkind ⊢
  rw [substitute_ident (not_isDigit_of_isIdentStart hstart) hstart, hkind.1, hkind.2, if_pos rfl]
  rfl

theorem valueIn_name (h : IsSymbol name) {u : Word} (hu : symbol name = some u) :
    valueIn symbol exprMaxDepth (name ++ upperHalf) = some (u.setWidth 64 >>> 32) := by
  have hname := (Prints.sym name [] Blank.nil h).loosen (j := 4) (by decide) (by decide)
  have hshift := Prints.bin .shr _ _ _ _ _ _ _ _ [] Blank.nil (fun h => absurd h (by decide)) hname
    (prints_thirtyTwo.loosen (j := 3) (by decide) (by decide))
  have hvalue : evalWith symbol _ = _ :=
    (hshift.loosen (by decide) (Nat.le_refl exprTier)).evalWith (by decide) Blank.nil
  rw [List.append_nil] at hvalue
  refine hvalue.trans ?_
  simp only [Tree.eval, hu, Option.map_some, Option.bind_some]
  rfl

theorem valueIn_parenthesised (h : valueIn symbol (exprMaxDepth - 1) body = some v) :
    valueIn symbol exprMaxDepth (parenthesised body ++ upperHalf) = some (v >>> 32) := by
  have hprim := exprPrim_parenthesised h (e := ⟨(), parenthesised body ++ upperHalf, true⟩)
    (w := upperHalf) rfl rfl
  have hoperand : ∀ k, k ≤ 3 → readAt (exprPrim (lookIn symbol) (exprMaxDepth - 1)) k
      ⟨(), parenthesised body ++ upperHalf, true⟩ = (v, ⟨(), upperHalf, true⟩) := by
    intro k
    induction k with
    | zero => exact fun _ => hprim
    | succ k ih =>
      intro hk
      have hother : tierOp (k + 1) (upperHalf.dropWhile isBlank) = none :=
        tierOp_other .shr ['3', '2'] (by omega) (by omega) (by simp only [BinOp.tier]; omega)
      rw [readAt, Chain.Tier.parse, ih (by omega)]
      exact loop_ends hother
  have hcount : readAt (exprPrim (lookIn symbol) (exprMaxDepth - 1)) 3 ⟨(), ['3', '2'], true⟩ =
      (32, ⟨(), [], true⟩) := by
    obtain ⟨p, hstops, hread⟩ := ((prints_thirtyTwo.loosen (j := 3) (by decide) (by decide)).reads
      symbol).stops (by decide) (exprMaxDepth - 1) (e := ⟨(), ['3', '2'], true⟩) []
        (Nat.zero_le _) rfl
      (Ends.blank Blank.nil)
    have hp : p = [] := by
      rcases hstops with rfl | rfl <;> rfl
    rw [hread, hp]
    rfl
  have hread : exprReverse (exprPrim (lookIn symbol)) exprMaxDepth
      ⟨(), parenthesised body ++ upperHalf, true⟩ = (v >>> 32, ⟨(), [], true⟩) := by
    have hskip : (⟨(), parenthesised body ++ upperHalf, true⟩ : Expr Unit).skipWs =
        ⟨(), parenthesised body ++ upperHalf, true⟩ :=
          Expr.skipWs_of_head (c := '(') rfl (by decide)
    have hnext : (Expr.tier (tierOp 4)).next ((Expr.tier (tierOp 4)).skip
        (⟨(), upperHalf, true⟩ : Expr Unit)) = some (.shr, ⟨(), ['3', '2'], true⟩) := rfl
    have hcolons : ∀ p, (⟨(), parenthesised body ++ upperHalf, true⟩ : Expr Unit).skipWs.p ≠
        ':' :: ':' :: p := by
      intro p hp
      rw [hskip] at hp
      exact absurd (List.cons.inj hp).1 (by decide)
    rw [show exprMaxDepth = exprMaxDepth - 1 + 1 from rfl, exprReverse_shift hcolons, hskip]
    change readAt (exprPrim (lookIn symbol) (exprMaxDepth - 1)) 4 _ = _
    rw [readAt, Chain.Tier.parse, hoperand 3 (Nat.le_refl 3)]
    change (Expr.tier (tierOp 4)).loop _ (3 + 1) v ⟨(), upperHalf, true⟩ = _
    rw [Chain.Tier.loop_of_next hnext, hcount]
    exact loop_ends (tierOp_nil 4)
  rw [valueIn_eq_some, hread]
  exact ⟨rfl, rfl, rfl⟩

end Detect

/-! ### Contexts -/

namespace AsmCtx
variable {ctx : AsmCtx}

/-- The 64-bit value `resolve_uint` computes before it cuts it to a word, with room for so many
levels of nesting. -/
def wideValue (ctx : AsmCtx) (room : ℕ) (s : Text) : Option Value :=
  (exprValue (lookSymbol (ctx.defines.length + 1)) room ctx s).1

/-- The text keeps within the nesting the evaluator allows: more room would not change its value. -/
def NestingFits (ctx : AsmCtx) (s : Text) : Prop :=
  ∀ room, exprMaxDepth ≤ room → ctx.wideValue room s = ctx.wideValue exprMaxDepth s

theorem resolveUint_fst (ctx : AsmCtx) (s : Text) :
    (ctx.resolveUint s).1 = (ctx.wideValue exprMaxDepth s).map (·.setWidth 32) := rfl

theorem Settled.wideValue (h : ctx.Settled) (room : ℕ) (s : Text) :
    ctx.wideValue room s = valueIn ctx.table.symbol room s := by
  have hback : Finds (fun ctx' (_ : Unit) => AsmCtx.Agrees ctx.table (fun _ => false) ctx')
      (lookSymbol (ctx.defines.length + 1)) (lookIn ctx.table.symbol) := by
    intro ctx' _ id v hctx hv
    have hagrees := lookSymbol_agrees (ctx.defines.length + 1) _ _ id hctx
    exact ⟨hagrees.2 v hv, hagrees.1⟩
  cases hv : ctx.wideValue room s with
  | some v => exact (exprValue_follows hback h (Nat.le_refl _) hv).1.symm
  | none =>
    cases hv' : valueIn ctx.table.symbol room s with
    | none => rfl
    | some v =>
      have hfound := (exprValue_follows h.finds h (Nat.le_refl _) hv').1
      rw [AsmCtx.wideValue, hfound] at hv
      cases hv

/-- References to a define may be replaced by its parenthesised text, in every expression, exactly
when the 64-bit value of the text fits a word. -/
theorem define_transparent_iff (h : ctx.Reached) {name : Text} {d : Define} {v : Value}
    (hname : IsSymbol name) (hd : ctx.findDefine name = some d)
    (hv : ctx.wideValue (exprMaxDepth - 1) d.expr = some v) :
    (∀ s, ctx.NestingFits (substitute name d.expr s) →
      (ctx.resolveUint s).1 = (ctx.resolveUint (substitute name d.expr s)).1) ↔
        v.toNat < 2 ^ 32 := by
  have hsettled := h.settled
  have htext : ctx.table.text name = some d.expr := by
    rw [table_text, hd]
    rfl
  rw [hsettled.wideValue] at hv
  have hfull := valueIn_mono (Nat.sub_le exprMaxDepth 1) hv
  have hsymbol : ctx.table.symbol name = some (v.setWidth 32) := by
    rw [Table.symbol_define htext]
    exact congrArg (Option.map _) hfull
  constructor
  · intro hall
    have hright := valueIn_parenthesised hv
    rw [← substitute_upperHalf d.expr hname] at hright
    have hcut := hall (name ++ upperHalf) fun room hroom => by
      rw [hsettled.wideValue, hsettled.wideValue, hright, valueIn_mono hroom hright]
    rw [resolveUint_fst, resolveUint_fst, hsettled.wideValue, hsettled.wideValue, hright,
      valueIn_name hname hsymbol, Option.map_some, Option.map_some, Option.some.injEq] at hcut
    have hnat := congrArg BitVec.toNat hcut
    have hv := v.isLt
    simp only [BitVec.toNat_setWidth, BitVec.toNat_ushiftRight, Nat.shiftRight_eq_div_pow] at hnat
    omega
  · intro hfits s hnesting
    have hsame : SameValue ctx.table.symbol name d.expr v := ⟨hname, hfull, hsymbol, hfits⟩
    rw [resolveUint_fst, resolveUint_fst]
    congr 1
    have hroom := hnesting (exprMaxDepth + exprMaxDepth) (Nat.le_add_left _ _)
    rw [hsettled.wideValue, hsettled.wideValue] at hroom ⊢
    cases hs : valueIn ctx.table.symbol exprMaxDepth s with
    | some w => rw [← hroom, valueIn_substitute hsame hs]
    | none =>
      cases hs' : valueIn ctx.table.symbol exprMaxDepth (substitute name d.expr s) with
      | none => rfl
      | some w =>
        rw [valueIn_of_substitute hsame hs'] at hs
        cases hs

/-- A table with one define, which has not been evaluated. -/
def ofDefine (name expr : Text) : AsmCtx :=
  { out := .start, labels := [], lineNo := 1
    defines := [{ name := name, expr := expr, value := 0, line := 1, resolved := false
                  visiting := false }] }

theorem reached_ofDefine (name expr : Text) : (ofDefine name expr).Reached :=
  .scanned _ (by simp [ofDefine])

/-- With `A` defined as -1, half of `A` is not half of `(-1)`. -/
theorem define_not_transparent :
    ∃ (ctx : AsmCtx) (name : Text) (d : Define) (s : Text), ctx.Reached ∧
      (∀ d ∈ ctx.defines, (ctx.lookup d.name).1.isSome) ∧ ctx.findDefine name = some d ∧
      ctx.NestingFits (substitute name d.expr s) ∧
      (ctx.resolveUint s).1 ≠ (ctx.resolveUint (substitute name d.expr s)).1 := by
  refine ⟨ofDefine ['A'] ['-', '1'], ['A'], _, ['A', '/', '2'], reached_ofDefine _ _,
    by decide +kernel, rfl, ?_, by decide +kernel⟩
  have hvalue : (ofDefine ['A'] ['-', '1']).wideValue exprMaxDepth
      (substitute ['A'] ['-', '1'] ['A', '/', '2']) = some 0 := by decide +kernel
  intro room hroom
  have hsettled := (reached_ofDefine ['A'] ['-', '1']).settled
  change AsmCtx.wideValue _ room (substitute ['A'] ['-', '1'] ['A', '/', '2']) =
    AsmCtx.wideValue _ exprMaxDepth (substitute ['A'] ['-', '1'] ['A', '/', '2'])
  rw [hvalue]
  rw [hsettled.wideValue] at hvalue ⊢
  exact valueIn_mono hroom hvalue

theorem define_transparent_iff_seven :
    (∀ s, (ofDefine ['A'] ['7']).NestingFits (substitute ['A'] ['7'] s) →
      ((ofDefine ['A'] ['7']).resolveUint s).1 =
        ((ofDefine ['A'] ['7']).resolveUint (substitute ['A'] ['7'] s)).1) ↔
      (7 : Value).toNat < 2 ^ 32 := by
  have hvalue : (ofDefine ['A'] ['7']).wideValue (exprMaxDepth - 1) ['7'] = some 7 := by
    decide +kernel
  exact define_transparent_iff (d := ⟨['A'], ['7'], 0, 1, false, false⟩) (v := 7)
    (reached_ofDefine _ _)
    ⟨⟨'A', [], rfl, by decide⟩, by decide, by decide⟩ rfl hvalue

end AsmCtx

end PioSim.Asm
