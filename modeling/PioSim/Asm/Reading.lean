import PioSim.Asm.Parsing
import PioSim.Asm.Following

/-!
# Every printed expression is read as itself

The induction over how a tree was printed: a primary is read off the front of any text, a chain of a
tier is read up to the operators of that tier that may still follow, and a whole expression is read
with the blanks behind it.
-/

namespace PioSim.Asm

section Reading
variable (symbol : Text → Option Word)

/-- Looking up in fixed values. -/
abbrev lookIn : Unit → Text → Option Word × Unit := fun _ id => (symbol id, ())

/-- The result of a run, the text read up to `p`. -/
def after (e : Expr Unit) (r : Value × Bool) (p : Text) : Value × Expr Unit :=
  (r.1, { e with p := p, ok := e.ok && r.2 })

/-- Where a reader stops in front of `rest`, the blanks read or not. -/
def Stops (p rest : Text) : Prop := p = rest ∨ p = rest.dropWhile isBlank

/-- How the text of a tree is read in front of any rest, by the reader of the tier it was printed
for. -/
structure Reads (t : Tree) (k : ℕ) (o : Bool) (d : ℕ) (s : Text) : Prop where
  primary : k = 0 → ∀ room (e : Expr Unit) rest, d ≤ room → e.p = s ++ rest → Ends 0 o rest →
    ∃ p, Stops p rest ∧ exprPrim (lookIn symbol) room e = after e (t.run symbol) p
  chain : ∀ j, k = j + 1 → j < 4 → ∀ room (e : Expr Unit) rest, d ≤ room → e.p = s ++ rest →
    Ends j o rest → readAt (exprPrim (lookIn symbol) room) (j + 1) e =
      (Expr.tier (tierOp (j + 1))).loop (readAt (exprPrim (lookIn symbol) room) j) rest.length
        (t.run symbol).1 { e with p := rest, ok := e.ok && (t.run symbol).2 }
  expr : k = exprTier → ∀ room (e : Expr Unit) rest, d ≤ room → e.p = s ++ rest → Ends 4 o rest →
    exprReverse (exprPrim (lookIn symbol)) (room + 1) e =
      after e (t.run symbol) (rest.dropWhile isBlank)

variable {symbol} {t : Tree} {k : ℕ} {o : Bool} {d : ℕ} {s : Text}

theorem Stops.dropWhile {p rest : Text} (h : Stops p rest) :
    p.dropWhile isBlank = rest.dropWhile isBlank := by
  rcases h with rfl | rfl
  · rfl
  · exact List.dropWhile_eq_self_iff.mpr (List.dropWhile_get_zero_not isBlank rest)

theorem Stops.length {p rest : Text} (h : Stops p rest) : p.length ≤ rest.length := by
  rcases h with rfl | rfl
  · exact Nat.le_refl _
  · exact List.length_dropWhile_le _ _

theorem shrinks_tier (symbol : Text → Option Word) (room j : ℕ) :
    Shrinks (readAt (exprPrim (lookIn symbol) room) j) :=
  shrinks_readAt (shrinks_exprPrim _ room) j

section Loop
variable {room j n m : ℕ} {v : Value} {st : Unit} {ok : Bool} {p rest : Text}

/-- A chain goes on the same from wherever in the blanks its operand stopped. -/
theorem loop_stops (h : Stops p rest) (hn : p.length ≤ n) (hm : rest.length ≤ m) :
    (Expr.tier (tierOp (j + 1))).loop (readAt (exprPrim (lookIn symbol) room) j) n v ⟨st, p, ok⟩ =
      (Expr.tier (tierOp (j + 1))).loop (readAt (exprPrim (lookIn symbol) room) j) m v
        ⟨st, rest, ok⟩ := by
  have hconsumes := Expr.tier_consumes (σ := Unit) (tierOp_shortens (j + 1))
    (shrinks_tier symbol room j)
  have hskip : (Expr.tier (tierOp (j + 1))).skip (⟨st, p, ok⟩ : Expr Unit) =
      (Expr.tier (tierOp (j + 1))).skip ⟨st, rest, ok⟩ := by
    simp only [Expr.tier, Expr.skipWs, h.dropWhile]
  calc (Expr.tier (tierOp (j + 1))).loop (readAt (exprPrim (lookIn symbol) room) j) n v ⟨st, p, ok⟩
      = (Expr.tier (tierOp (j + 1))).loop _ p.length v ⟨st, p, ok⟩ :=
        Chain.Tier.loop_enough hconsumes n v ⟨st, p, ok⟩ hn
    _ = (Expr.tier (tierOp (j + 1))).loop _ m v ⟨st, p, ok⟩ :=
        (Chain.Tier.loop_enough hconsumes m v ⟨st, p, ok⟩ (Nat.le_trans h.length hm)).symm
    _ = (Expr.tier (tierOp (j + 1))).loop _ m v ⟨st, rest, ok⟩ := Chain.Tier.loop_of_skip hskip m v

/-- A chain stops where no operator of its tier follows. -/
theorem loop_ends (h : tierOp (j + 1) (rest.dropWhile isBlank) = none) :
    (Expr.tier (tierOp (j + 1))).loop (readAt (exprPrim (lookIn symbol) room) j) n
      v ⟨st, rest, ok⟩ =
      (v, ⟨st, rest.dropWhile isBlank, ok⟩) := by
  refine Chain.Tier.loop_of_stop n ?_
  simp only [Expr.tier, Expr.skipWs, h, Option.map_none]

end Loop

/-- Read by the reader of its tier, where nothing continues it. -/
theorem Reads.stops (h : Reads symbol t k o d s) (hk : k ≤ 4) (room : ℕ) {e : Expr Unit}
    (rest : Text)
    (hroom : d ≤ room) (hp : e.p = s ++ rest) (hends : Ends k o rest) :
    ∃ p, Stops p rest ∧ readAt (exprPrim (lookIn symbol) room) k e = after e (t.run symbol) p := by
  cases k with
  | zero => exact h.primary rfl room e rest hroom hp hends
  | succ j =>
    refine ⟨rest.dropWhile isBlank, Or.inr rfl, ?_⟩
    rw [h.chain j rfl (by omega) room e rest hroom hp (hends.mono (by omega) (fun ho => Or.inl ho)),
      loop_ends (hends.operator (j + 1) (by omega) hk (Or.inl (Nat.le_refl _)))]
    rfl

/-! ### One constructor at a time -/

theorem skipWs_p {e : Expr Unit} (ws : Text) {q : Text} {c : Char} (h : e.p = ws ++ c :: q)
    (hws : Blank ws)
    (hc : isBlank c = false) : e.skipWs.p = c :: q := by
  unfold Expr.skipWs
  rw [h]
  dsimp only
  rw [dropWhile_blank hws, dropWhile_head hc]

/-- A run of characters of a kind, up to where the kind ends. -/
theorem run_of_kind {kind : Char → Bool} {s : Text} (hs : ∀ c ∈ s, kind c = true) (rest : Text)
    (hrest : ∀ c q, rest = c :: q → kind c = false) :
    (s ++ rest).takeWhile kind = s ∧ (s ++ rest).dropWhile kind = rest := by
  rw [List.takeWhile_append_of_pos hs, List.dropWhile_append_of_pos hs]
  cases rest with
  | nil => exact ⟨List.append_nil s, rfl⟩
  | cons c q =>
    have hc : ¬ kind c = true := by
      rw [hrest c q rfl]
      exact Bool.false_ne_true
    rw [List.takeWhile_cons_of_neg hc, List.dropWhile_cons_of_neg hc]
    exact ⟨List.append_nil s, rfl⟩

theorem isNumberChar_of_isDigit {c : Char} (h : isDigit c = true) : isNumberChar c = true := by
  simp [isNumberChar, h]

theorem isNumberChar_of_isHexDigit {c : Char} (h : isHexDigit c = true) :
    isNumberChar c = true := by
  unfold isHexDigit at h
  simp only [isNumberChar, h, Bool.true_or]

/-- A literal begins with a digit and is a run of number characters that fits the buffer. -/
theorem Literal.WellFormed.run {l : Literal} (h : l.WellFormed) :
    (∃ c q, l.text = c :: q ∧ isDigit c = true) ∧ (∀ c ∈ l.text, isNumberChar c = true) ∧
      l.text.length ≤ 33 := by
  cases l with
  | dec digits =>
    obtain ⟨hne, hdigits, hlength⟩ := h
    refine ⟨?_, fun c hc => isNumberChar_of_isDigit (hdigits c hc), hlength⟩
    cases digits with
    | nil => exact absurd rfl hne
    | cons c q => exact ⟨c, q, rfl, hdigits c List.mem_cons_self⟩
  | hex x digits =>
    obtain ⟨hx, -, hdigits, hlength⟩ := h
    refine ⟨⟨'0', x :: digits, rfl, by decide⟩, fun c hc => ?_, hlength⟩
    rcases List.mem_cons.mp hc with rfl | hc
    · decide
    rcases List.mem_cons.mp hc with rfl | hc
    · rcases hx with rfl | rfl <;> decide
    · exact isNumberChar_of_isHexDigit (hdigits c hc)

theorem isIdentChar_of_isDigit {c : Char} (h : isDigit c = true) : isIdentChar c = true := by
  simp [isIdentChar, h]

theorem ne_of_isIdentChar {c b : Char} (h : isIdentChar c = true)
    (hb : isIdentChar b = false) : c ≠ b := by
  rintro rfl
  rw [h] at hb
  cases hb

theorem reads_lit {l : Literal} {ws : Text} (hws : Blank ws) (hl : l.WellFormed) :
    Reads symbol (.lit l) 0 false 0 (ws ++ l.text) := by
  refine ⟨?_, fun j hj => by omega, fun hk => by cases hk⟩
  intro _ room e rest _ hp hends
  obtain ⟨⟨c, q, hc, hdigit⟩, hrun, hlength⟩ := hl.run
  have hident := isIdentChar_of_isDigit hdigit
  have hskip : e.skipWs.p = c :: (q ++ rest) := by
    refine skipWs_p ws ?_ hws (isBlank_of_isIdentChar hident)
    rw [hp, hc, List.append_assoc, List.cons_append]
  have hkind := run_of_kind hrun rest fun c q hrest => by
    have hother := hends.token c q hrest
    cases hn : isNumberChar c with
    | false => rfl
    | true =>
      rw [isIdentChar_of_isNumberChar hn] at hother
      cases hother
  rw [hc, List.cons_append] at hkind
  refine ⟨rest, Or.inl rfl, ?_⟩
  rw [← exprPrim_skipWs, exprPrim_leaf hskip (isBlank_of_isIdentChar hident)
    (ne_of_isIdentChar hident (by decide)) (ne_of_isIdentChar hident (by decide)), if_pos hdigit]
  unfold exprNumber
  rw [hskip, hkind.1, hkind.2, ← hc, List.take_of_length_le hlength]
  dsimp only
  rw [parseUint_literal hl, Tree.run]
  by_cases hfits : l.magnitude < 2 ^ 32
  · rw [if_pos hfits, if_pos hfits]
    have hvalue : (BitVec.ofNat 32 l.magnitude).setWidth 64 = BitVec.ofNat 64 l.magnitude := by
      apply BitVec.eq_of_toNat_eq
      rw [BitVec.toNat_setWidth, BitVec.toNat_ofNat, BitVec.toNat_ofNat, Nat.mod_eq_of_lt hfits]
    simp only [after, hvalue, Bool.and_true, Expr.skipWs]
  · rw [if_neg hfits, if_neg hfits]
    simp only [after, Bool.and_false, Expr.skipWs, Expr.fail]

theorem reads_sym {name ws : Text} (hws : Blank ws) (hname : IsSymbol name) :
    Reads symbol (.sym name) 0 false 0 (ws ++ name) := by
  refine ⟨?_, fun j hj => by omega, fun hk => by cases hk⟩
  intro _ room e rest _ hp hends
  obtain ⟨⟨c, q, hc, hstart⟩, hrun, hlength⟩ := hname
  have hident := hrun c (by rw [hc]; exact List.mem_cons_self)
  have hskip : e.skipWs.p = c :: (q ++ rest) := by
    refine skipWs_p ws ?_ hws (isBlank_of_isIdentChar hident)
    rw [hp, hc, List.append_assoc, List.cons_append]
  have hkind := run_of_kind hrun rest hends.token
  rw [hc, List.cons_append] at hkind
  refine ⟨rest, Or.inl rfl, ?_⟩
  have hdigit : ¬ isDigit c = true := by
    intro hd
    unfold isDigit at hd
    unfold isIdentStart at hstart
    simp only [Bool.or_eq_true, Bool.and_eq_true, decide_eq_true_eq, beq_iff_eq] at hd hstart
    have h9 := hd.2
    rcases hstart with (⟨h, -⟩ | ⟨h, -⟩) | rfl
    · exact absurd (Char.le_trans h h9) (by decide)
    · exact absurd (Char.le_trans h h9) (by decide)
    · exact absurd h9 (by decide)
  rw [← exprPrim_skipWs, exprPrim_leaf hskip (isBlank_of_isIdentChar hident)
    (ne_of_isIdentChar hident (by decide)) (ne_of_isIdentChar hident (by decide)), if_neg hdigit,
    if_pos hstart]
  unfold exprIdent
  rw [hskip, hkind.1, hkind.2, ← hc, if_neg (by omega), Tree.run]
  dsimp only [lookIn]
  cases symbol name with
  | none => simp only [after, Bool.and_false, Expr.skipWs, Expr.fail]
  | some v => simp only [after, Bool.and_true, Expr.skipWs]

theorem reads_paren {ws ws' : Text} (hws : Blank ws) (hws' : Blank ws')
    (h : Reads symbol t exprTier o d s) :
    Reads symbol t 0 false (d + 1) (ws ++ '(' :: (s ++ (ws' ++ [')']))) := by
  refine ⟨?_, fun j hj => by omega, fun hk => by cases hk⟩
  intro _ room e rest hroom hp hends
  obtain ⟨room, rfl⟩ : ∃ r, room = r + 1 := ⟨room - 1, by omega⟩
  have hskip : e.skipWs.p = '(' :: (s ++ (ws' ++ ')' :: rest)) := by
    refine skipWs_p ws ?_ hws (by decide)
    rw [hp]
    simp only [List.append_assoc, List.cons_append, List.nil_append]
  have hinner := h.expr rfl room { e.skipWs with p := s ++ (ws' ++ ')' :: rest) }
    (ws' ++ ')' :: rest)
    (by omega) rfl (Ends.close hws' rest)
  refine ⟨rest, Or.inl rfl, ?_⟩
  rw [← exprPrim_skipWs, exprPrim_paren hskip, hinner]
  simp only [after, Expr.skipWs, dropWhile_blank hws',
    dropWhile_head (show isBlank ')' = false by decide)]

theorem reads_neg {ws : Text} (hws : Blank ws) (h : Reads symbol t 2 o d s) :
    Reads symbol (.neg t) 0 true d (ws ++ '-' :: s) := by
  refine ⟨?_, fun j hj => by omega, fun hk => by cases hk⟩
  intro _ room e rest hroom hp hends
  have hskip : e.skipWs.p = '-' :: (s ++ rest) := by
    refine skipWs_p ws ?_ hws (by decide)
    rw [hp, List.append_assoc, List.cons_append]
  have hends' : Ends 2 o rest :=
    ⟨hends.token, fun j hj hj' hcase => hends.operator j hj hj' (Or.inr ⟨rfl, by omega⟩)⟩
  obtain ⟨p, hstops, hoperand⟩ := h.stops (by decide) room
    (e := { e.skipWs with p := s ++ rest }) rest hroom rfl hends'
  refine ⟨p, hstops, ?_⟩
  have hmul : exprMul (exprPrim (lookIn symbol) room) { e.skipWs with p := s ++ rest } =
    _ := hoperand
  rw [← exprPrim_skipWs, exprPrim_minus hskip, hmul]
  rfl

theorem reads_bin {op : BinOp} {l r : Tree} {ol or : Bool} {dl dr : ℕ} {sl sr ws : Text}
    (hws : Blank ws) (hopen : op.tier ≤ 2 → ol = false) (hl : Reads symbol l op.tier ol dl sl)
    (hr : Reads symbol r (op.tier - 1) or dr sr) :
    Reads symbol (.bin op l r) op.tier (ol || or) (max dl dr) (sl ++ (ws ++ (op.text ++ sr))) := by
  obtain ⟨hpos, hle⟩ := op.tier_pos
  refine ⟨fun hk => by omega, ?_, fun hk => by rw [hk] at hle; exact absurd hle (by decide)⟩
  intro j hj hj4 room e rest hroom hp hends
  rw [hj, Nat.add_sub_cancel] at hr
  have hbefore : Ends j ol (ws ++ (op.text ++ (sr ++ rest))) := by
    refine Ends.before op hws _ (by omega) fun ho => ?_
    by_contra hlt
    rw [hopen (by omega)] at ho
    cases ho
  have hleft := hl.chain j hj hj4 room e (ws ++ (op.text ++ (sr ++ rest))) (by omega)
    (by rw [hp]; simp only [List.append_assoc]) hbefore
  obtain ⟨b, q, hop, hblank, -⟩ := op.text_cons
  have hdrop : (ws ++ (op.text ++ (sr ++ rest))).dropWhile isBlank = op.text ++ (sr ++ rest) := by
    rw [dropWhile_blank hws, hop, List.cons_append, dropWhile_head hblank]
  obtain ⟨n, hn⟩ : ∃ n, (ws ++ (op.text ++ (sr ++ rest))).length = n + 1 := by
    refine ⟨(ws ++ (q ++ (sr ++ rest))).length, ?_⟩
    rw [hop]
    simp only [List.length_append, List.length_cons]
    omega
  have hfuel : rest.length ≤ n := by
    rw [hop] at hn
    simp only [List.length_append, List.length_cons] at hn
    omega
  obtain ⟨p, hstops, hright⟩ := hr.stops (by omega) room
    (e := { e with p := sr ++ rest, ok := e.ok && (l.run symbol).2 }) rest (by omega) rfl
    (hends.mono (Nat.le_refl _) (fun ho => Or.inl (by rw [ho, Bool.or_true])))
  rw [hleft, hn]
  have hnext : (Expr.tier (tierOp (j + 1))).next ((Expr.tier (tierOp (j + 1))).skip
      (⟨e.st, ws ++ (op.text ++ (sr ++ rest)), e.ok && (l.run symbol).2⟩ : Expr Unit)) =
        some (op, ⟨e.st, sr ++ rest, e.ok && (l.run symbol).2⟩) := by
    have htier := tierOp_text op (sr ++ rest)
    rw [hj] at htier
    simp only [Expr.tier, Expr.skipWs, hdrop, htier, Option.map_some]
  rw [Chain.Tier.loop_of_next hnext, hright]
  have happly : (Expr.tier (tierOp (j + 1))).apply op (l.run symbol).1 = Expr.applyOp (σ := Unit) op
      (l.run symbol).1 := rfl
  rw [happly, applyOp_eq]
  simp only [after]
  rw [loop_stops hstops (Nat.le_trans hstops.length hfuel) (Nat.le_refl _), Tree.run]
  simp only [Bool.and_assoc]
  rfl

/-- The head of a text printed for a tier of operators is no colon. -/
theorem Prints.head (h : Prints t k o d s) : k ≤ 4 →
    ∃ ws c q, s = ws ++ c :: q ∧ Blank ws ∧ isBlank c = false ∧ c ≠ ':' := by
  induction h with
  | lit l ws hws hl =>
    intro _
    obtain ⟨⟨c, q, hc, hdigit⟩, -, -⟩ := hl.run
    have hident := isIdentChar_of_isDigit hdigit
    exact ⟨ws, c, q,
      by rw [hc], hws, isBlank_of_isIdentChar hident, ne_of_isIdentChar hident (by decide)⟩
  | sym name ws hws hname =>
    intro _
    obtain ⟨⟨c, q, hc, -⟩, hrun, -⟩ := hname
    have hident := hrun c (by rw [hc]; exact List.mem_cons_self)
    exact ⟨ws, c, q,
      by rw [hc], hws, isBlank_of_isIdentChar hident, ne_of_isIdentChar hident (by decide)⟩
  | paren t o d s ws ws' hws _ _ _ => exact fun _ => ⟨ws, '(', _, rfl, hws, by decide, by decide⟩
  | neg t o d s ws hws _ _ => exact fun _ => ⟨ws, '-', s, rfl, hws, by decide, by decide⟩
  | bin op l r ol or dl dr sl sr ws _ _ _ _ ihl _ =>
    intro hk
    obtain ⟨ws', c, q, hsl, hws', hblank, hc⟩ := ihl hk
    exact ⟨ws', c, q ++ (ws ++ (op.text ++ sr)),
      by rw [hsl, List.append_assoc, List.cons_append], hws', hblank, hc⟩
  | tighter t k o d s _ _ ih => exact fun hk => ih (by omega)
  | rev t o d s ws _ _ _ => exact fun hk => absurd hk (by decide)

theorem reads_tighter (hprint : Prints t k o d s) (hk : k < exprTier) (h : Reads symbol t k o d s) :
    Reads symbol t (k + 1) o d s := by
  refine ⟨fun h => by omega, ?_, ?_⟩
  · intro j hj hj4 room e rest hroom hp hends
    obtain rfl : k = j := by omega
    obtain ⟨p, hstops, hoperand⟩ := h.stops (by omega) room rest hroom hp hends
    rw [readAt, Chain.Tier.parse, hoperand]
    exact loop_stops hstops (Nat.le_refl _) (Nat.le_refl _)
  · intro hexpr room e rest hroom hp hends
    obtain rfl : k = 4 := by
      have h5 : k + 1 = 5 := hexpr
      omega
    obtain ⟨ws, c, q, hs, hws, hblank, hcolon⟩ := hprint.head (Nat.le_refl _)
    have hskip : e.skipWs.p = c :: (q ++ rest) := by
      refine skipWs_p ws ?_ hws hblank
      rw [hp, hs, List.append_assoc, List.cons_append]
    rw [exprReverse_shift fun p hcolons => by
      rw [hskip] at hcolons
      exact hcolon (List.cons.inj hcolons).1]
    have hshift : exprShift (exprPrim (lookIn symbol) room) e.skipWs =
        readAt (exprPrim (lookIn symbol) room) 4 e :=
      readAt_skipWs exprPrim_skipWs 4 e
    rw [hshift, h.chain 3 rfl (by omega) room e rest hroom hp
      (hends.mono (by omega) fun ho => Or.inl ho),
      loop_ends (hends.operator 4 (by omega) (Nat.le_refl _) (Or.inl (Nat.le_refl _)))]
    rfl

theorem reads_rev {ws : Text} (hws : Blank ws) (h : Reads symbol t exprTier o d s) :
    Reads symbol (.rev t) exprTier o (d + 1) (ws ++ ':' :: ':' :: s) := by
  refine ⟨fun hk => absurd hk (by decide), fun j hj hj4 => ?_, ?_⟩
  · have h5 : 5 = j + 1 := hj
    omega
  intro _ room e rest hroom hp hends
  obtain ⟨room, rfl⟩ : ∃ r, room = r + 1 := ⟨room - 1, by omega⟩
  have hskip : e.skipWs.p = ':' :: ':' :: (s ++ rest) := by
    refine skipWs_p ws ?_ hws (by decide)
    rw [hp, List.append_assoc, List.cons_append, List.cons_append]
  rw [exprReverse_colons hskip, h.expr rfl room _ rest (by omega) rfl hends]
  simp only [after, reverse32_eq]
  rfl

/-- Every printed tree is read as itself. -/
theorem Prints.reads (symbol : Text → Option Word) (h : Prints t k o d s) :
    Reads symbol t k o d s := by
  induction h with
  | lit l ws hws hl => exact reads_lit hws hl
  | sym name ws hws hname => exact reads_sym hws hname
  | paren t o d s ws ws' hws hws' _ ih => exact reads_paren hws hws' ih
  | neg t o d s ws hws _ ih => exact reads_neg hws ih
  | bin op l r ol or dl dr sl sr ws hws hopen _ _ ihl ihr => exact reads_bin hws hopen ihl ihr
  | tighter t k o d s hk hprint ih => exact reads_tighter hprint hk ih
  | rev t o d s ws hws _ ih => exact reads_rev hws ih

/-- A whole expression text has the value of the tree it prints. -/
theorem Prints.evalWith (h : Prints t exprTier o d s) (hd : d < exprMaxDepth) {ws : Text}
    (hws : Blank ws) : evalWith symbol (s ++ ws) = t.eval symbol := by
  have hread := (h.reads symbol).expr rfl (exprMaxDepth - 1) ⟨(), s ++ ws, true⟩ ws (by omega) rfl
    (Ends.blank hws)
  rw [Nat.sub_add_cancel (by omega)] at hread
  unfold Asm.evalWith exprValue
  rw [exprValue_eq, hread, Tree.eval_eq_run]
  simp only [after, Expr.skipWs, List.dropWhile_eq_nil_iff.mpr hws, List.dropWhile_nil,
    Bool.true_and, and_true]

end Reading

end PioSim.Asm
