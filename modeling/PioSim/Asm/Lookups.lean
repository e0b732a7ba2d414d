import PioSim.Asm.Following

/-!
# What an evaluation looks up

The evaluator goes on behind a symbol it cannot find, and which symbols it meets does not depend on
what they stand for. So an evaluation makes the lookups of its text, in their order, whatever these
return.
-/

namespace PioSim.Asm

variable {σ τ : Type}

/-- The same text is left to read, and the states are related. -/
structure Abreast (R : σ → τ → Prop) (e : Expr σ) (e' : Expr τ) : Prop where
  text : e'.p = e.p
  state : R e.st e'.st

/-- The readers leave related what they find related. -/
def Tracks (R : σ → τ → Prop) (f : Reader σ) (g : Reader τ) : Prop :=
  ∀ e e', Abreast R e e' → Abreast R (f e).2 (g e').2

section Tracks
variable {R : σ → τ → Prop} {e : Expr σ} {e' : Expr τ} {f : Reader σ} {g : Reader τ}

theorem Abreast.skipWs (h : Abreast R e e') : Abreast R e.skipWs e'.skipWs :=
  ⟨congrArg (List.dropWhile isBlank) h.text, h.state⟩

theorem Abreast.fail (h : Abreast R e e') : Abreast R e.fail e'.fail := ⟨h.text, h.state⟩

theorem Abreast.goto (h : Abreast R e e') (p : Text) :
    Abreast R { e with p := p } { e' with p := p } := ⟨rfl, h.state⟩

theorem Abreast.applyOp (h : Abreast R e e') (o : BinOp) (v w v' w' : Value) :
    Abreast R (Expr.applyOp o v w e).2 (Expr.applyOp o v' w' e').2 := by
  have hleft : (Expr.applyOp o v w e).2.st = e.st ∧ (Expr.applyOp o v w e).2.p = e.p := by
    cases o with
    | div | shl | shr =>
      unfold Expr.applyOp
      dsimp only
      split <;> exact ⟨rfl, rfl⟩
    | _ => exact ⟨rfl, rfl⟩
  have hright : (Expr.applyOp o v' w' e').2.st = e'.st ∧ (Expr.applyOp o v' w' e').2.p = e'.p := by
    cases o with
    | div | shl | shr =>
      unfold Expr.applyOp
      dsimp only
      split <;> exact ⟨rfl, rfl⟩
    | _ => exact ⟨rfl, rfl⟩
  refine ⟨?_, ?_⟩
  · rw [hleft.2, hright.2, h.text]
  · rw [hleft.1, hright.1]
    exact h.state

theorem Tracks.tier (h : Tracks R f g) (op : Text → Option (BinOp × Text)) :
    Tracks R ((Expr.tier op).parse f) ((Expr.tier op).parse g) := by
  intro e e' he
  have hoperand := h e e' he
  have hsize : (Expr.tier op).size (g e').2 = (Expr.tier op).size (f e).2 :=
    congrArg List.length hoperand.text
  unfold Chain.Tier.parse
  dsimp only
  rw [hsize]
  refine Chain.Tier.tracks_loop (fun s s' hs => hs.skipWs) (fun s s' hs => ?_)
    (fun o v w v' w' s s' hs => hs.applyOp o v w v' w') h _ _ _ _ _ hoperand
  simp only [Expr.tier, hs.text]
  cases op s.p with
  | none => exact .inl ⟨rfl, rfl⟩
  | some r => exact .inr ⟨r.1, _, _, rfl, rfl, hs.goto r.2⟩

theorem Tracks.bit (h : Tracks R f g) : Tracks R (exprBit f) (exprBit g) := h.tier bitOp
theorem Tracks.mul (h : Tracks R f g) : Tracks R (exprMul f) (exprMul g) := h.bit.tier mulOp
theorem Tracks.add (h : Tracks R f g) : Tracks R (exprAdd f) (exprAdd g) := h.mul.tier addOp
theorem Tracks.shift (h : Tracks R f g) : Tracks R (exprShift f) (exprShift g) := h.add.tier shiftOp

theorem Tracks.reverse {f : ℕ → Reader σ} {g : ℕ → Reader τ}
    (h : ∀ room, Tracks R (f room) (g room)) :
    ∀ room, Tracks R (exprReverse f room) (exprReverse g room) := by
  intro room
  induction room with
  | zero => exact fun e e' he => he.fail
  | succ room ih =>
    intro e e' he
    have hskip := he.skipWs
    by_cases hcolons : ∃ p, e.skipWs.p = ':' :: ':' :: p
    · obtain ⟨p, hp⟩ := hcolons
      rw [exprReverse_colons hp, exprReverse_colons (hskip.text.trans hp)]
      exact ih _ _ (he.goto p)
    · have hnone : ∀ p, e.skipWs.p ≠ ':' :: ':' :: p := fun p hp => hcolons ⟨p, hp⟩
      rw [exprReverse_shift hnone, exprReverse_shift fun p hp => hnone p (hskip.text.symm.trans hp)]
      exact (h room).shift _ _ hskip

theorem tracks_number : Tracks R exprNumber exprNumber := by
  intro e e' he
  unfold exprNumber
  dsimp only
  rw [he.text]
  split
  · exact (he.goto _).fail
  · exact he.goto _

variable {look : σ → Text → Option Word × σ} {look' : τ → Text → Option Word × τ}

theorem tracks_ident (h : ∀ s t id, R s t → R (look s id).2 (look' t id).2) :
    Tracks R (exprIdent look) (exprIdent look') := by
  intro e e' he
  unfold exprIdent
  dsimp only
  rw [he.text]
  split
  · exact ⟨rfl, he.state⟩
  · have hstate := h e.st e'.st (e.p.takeWhile isIdentChar) he.state
    split <;> split <;> exact ⟨rfl, hstate⟩

theorem tracks_primary (h : ∀ s t id, R s t → R (look s id).2 (look' t id).2) :
    ∀ fuel room, Tracks R (exprPrimary look fuel room) (exprPrimary look' fuel room) := by
  intro fuel
  induction fuel with
  | zero => exact fun _ e e' he => he.fail
  | succ fuel ih =>
    intro room e e' he
    have hskip := he.skipWs
    unfold exprPrimary
    rw [hskip.text]
    split
    · exact hskip.fail
    · rename_i c p _
      split_ifs
      · exact (ih room).mul _ _ (he.goto p)
      · have hinner := Tracks.reverse ih room _ _ (he.goto p)
        have hclose := hinner.skipWs
        dsimp only
        rw [hclose.text]
        split
        · exact hinner.goto _
        · exact hclose.fail
      · exact tracks_number _ _ hskip
      · exact tracks_ident h _ _ hskip
      · exact hskip.fail

/-- What related lookups keep of two symbol states, two evaluations of a text keep. -/
theorem exprValue_tracks (h : ∀ s t id, R s t → R (look s id).2 (look' t id).2) {s : σ} {t : τ}
    (hst : R s t) (room : ℕ) (text : Text) :
    R (exprValue look room s text).2 (exprValue look' room t text).2 :=
  (Tracks.reverse (tracks_primary h text.length) room ⟨s, text, true⟩ ⟨t, text, true⟩
    ⟨rfl, hst⟩).state

end Tracks

/-! ### The symbols of a text -/

def noteSymbol (l : List Text) (id : Text) : Option Word × List Text := (none, l ++ [id])

/-- The symbols an evaluation of the text looks up. -/
def symbolsOf (s : Text) : List Text := (exprValue noteSymbol exprMaxDepth [] s).2

/-- An evaluation leaves the symbol state as the lookups of its text leave it. -/
theorem exprValue_snd (look : σ → Text → Option Word × σ) (st : σ) (s : Text) :
    (exprValue look exprMaxDepth st s).2 =
      (symbolsOf s).foldl (fun st id => (look st id).2) st := by
  have hlook : ∀ (st' : σ) (l : List Text) id, st' = l.foldl (fun st id => (look st id).2) st →
      (look st' id).2 = (noteSymbol l id).2.foldl (fun st id => (look st id).2) st := by
    rintro _ l id rfl
    rw [noteSymbol, List.foldl_append]
    rfl
  have hstart : st = ([] : List Text).foldl (fun st id => (look st id).2) st := rfl
  unfold symbolsOf
  generalize exprMaxDepth = room
  exact exprValue_tracks hlook hstart room s

/-- An evaluation that succeeds found all its symbols. -/
theorem isSome_of_value {symbol : Text → Option Word} {s : Text}
    (h : (exprValue (fun (_ : Unit) id => (symbol id, ())) exprMaxDepth () s).1.isSome = true) :
    ∀ id ∈ symbolsOf s, (symbol id).isSome = true := by
  obtain ⟨v, hv⟩ := Option.isSome_iff_exists.mp h
  have hfinds : Finds (fun (_ : Unit) (l : List Text) => ∀ id ∈ l, (symbol id).isSome = true)
      (fun (_ : Unit) id => (symbol id, ())) (fun l id => (symbol id, l ++ [id])) := by
    intro _ l id w hl hw
    refine ⟨hw, fun id' hid => ?_⟩
    rcases List.mem_append.mp hid with hid | hid
    · exact hl id' hid
    · have hsymbol : symbol id = some w := hw
      rw [List.mem_singleton.mp hid, hsymbol]
      rfl
  have hfound :=
    (exprValue_follows hfinds (fun _ h => absurd h List.not_mem_nil) (Nat.le_refl _) hv).2
  have hlook : ∀ (l l' : List Text) id, l = l' →
      ((symbol id, l ++ [id]) : Option Word × List Text).2 = (noteSymbol l' id).2 := by
    rintro l _ id rfl
    rfl
  have hsame := exprValue_tracks hlook
    (rfl : ([] : List Text) = []) exprMaxDepth s
  unfold symbolsOf
  rw [← hsame]
  exact hfound

/-! ### What an evaluation depends on -/

section Same
variable {f g : Text → Option Word} {L : List Text} {r r' : Reader (List Text)}

/-- Lookups that answer over the symbols, and note each of them. -/
def noting (f : Text → Option Word) (l : List Text) (id : Text) : Option Word × List Text :=
  (f id, l ++ [id])

theorem kept_noted (f : Text → Option Word) (l : List Text) :
    Kept (noting f) fun e => l ⊆ e.st where
  text _ _ he := he
  fail _ he := he
  look _ _ he := List.Subset.trans he (List.subset_append_left _ _)

/-- Where the one reader looks up symbols of the list only, the other does the same. -/
def SameWithin (L : List Text) (r r' : Reader (List Text)) : Prop :=
  (∀ l, Keeps (fun e => l ⊆ e.st) r) ∧ ∀ e, (r e).2.st ⊆ L → r' e = r e

theorem SameWithin.tier (h : SameWithin L r r') (op : Text → Option (BinOp × Text)) :
    SameWithin L ((Expr.tier op).parse r) ((Expr.tier op).parse r') := by
  have hkept := kept_noted fun _ => none
  have hloop : ∀ (n : ℕ) (v : Value) (e : Expr (List Text)),
    ((Expr.tier op).loop r n v e).2.st ⊆ L →
      (Expr.tier op).loop r' n v e = (Expr.tier op).loop r n v e := by
    intro n
    induction n with
    | zero => exact fun _ _ _ => rfl
    | succ n ih =>
      intro v e hL
      cases hnext : (Expr.tier op).next ((Expr.tier op).skip e) with
      | none => rw [Chain.Tier.loop_of_stop _ hnext, Chain.Tier.loop_of_stop _ hnext]
      | some next =>
        obtain ⟨o, e'⟩ := next
        rw [Chain.Tier.loop_of_next hnext] at hL ⊢
        rw [Chain.Tier.loop_of_next hnext]
        -- what the operand notes is still there at the end
        have hafter := (hkept (r e').2.st).loop op (h.1 _) n
          ((Expr.tier op).apply o v (r e').1 (r e').2).1
          ((hkept _).applyOp o v (r e').1 (List.Subset.refl (r e').2.st))
        rw [h.2 e' (List.Subset.trans hafter hL)]
        exact ih _ _ hL
  refine ⟨fun l => (h.1 l).tier (hkept l) op, fun e hL => ?_⟩
  have hoperand := (hkept (r e).2.st).loop op (h.1 _) ((Expr.tier op).size (r e).2) (r e).1
    (List.Subset.refl (r e).2.st)
  unfold Chain.Tier.parse at hL ⊢
  dsimp only at hL ⊢
  rw [h.2 e (List.Subset.trans hoperand hL)]
  exact hloop _ _ _ hL

theorem SameWithin.mul (h : SameWithin L r r') : SameWithin L (exprMul r) (exprMul r') :=
  (h.tier bitOp).tier mulOp

theorem SameWithin.shift (h : SameWithin L r r') : SameWithin L (exprShift r) (exprShift r') :=
  (h.mul.tier addOp).tier shiftOp

theorem SameWithin.reverse {r r' : ℕ → Reader (List Text)}
    (h : ∀ room, SameWithin L (r room) (r' room)) :
    ∀ room, SameWithin L (exprReverse r room) (exprReverse r' room) := by
  intro room
  refine ⟨fun l => Keeps.reverse (fun room => (h room).1 l) (kept_noted (fun _ => none) l) room, ?_⟩
  induction room with
  | zero => exact fun _ _ => rfl
  | succ room ih =>
    intro e hL
    by_cases hcolons : ∃ p, e.skipWs.p = ':' :: ':' :: p
    · obtain ⟨p, hp⟩ := hcolons
      rw [exprReverse_colons hp] at hL ⊢
      rw [exprReverse_colons hp, ih _ hL]
    · have hnone : ∀ p, e.skipWs.p ≠ ':' :: ':' :: p := fun p hp => hcolons ⟨p, hp⟩
      rw [exprReverse_shift hnone] at hL ⊢
      rw [exprReverse_shift hnone, (h room).shift.2 _ hL]

theorem sameWithin_ident (h : ∀ id ∈ L, f id = g id) :
    SameWithin L (exprIdent (noting f)) (exprIdent (noting g)) := by
  refine ⟨fun l => (kept_noted f l).ident, fun e hL => ?_⟩
  unfold exprIdent at hL ⊢
  dsimp only [noting] at hL ⊢
  split
  · rfl
  · rename_i hshort
    rw [if_neg hshort] at hL
    have hmem : e.p.takeWhile isIdentChar ∈ L := by
      refine hL ?_
      split <;> exact List.mem_append_right _ List.mem_cons_self
    rw [h _ hmem]

theorem sameWithin_primary (h : ∀ id ∈ L, f id = g id) :
    ∀ fuel room, SameWithin L (exprPrimary (noting f) fuel room)
    (exprPrimary (noting g) fuel room) := by
  intro fuel room
  refine ⟨fun l => (kept_noted f l).primary fuel room, ?_⟩
  induction fuel generalizing room with
  | zero => exact fun _ _ => rfl
  | succ fuel ih =>
    intro e hL
    have hinner : ∀ room, SameWithin L (exprPrimary (noting f) fuel room)
        (exprPrimary (noting g) fuel room) :=
      fun room => ⟨fun l => (kept_noted f l).primary fuel room, ih room⟩
    unfold exprPrimary at hL ⊢
    split
    · rfl
    · rename_i c p hp
      rw [hp] at hL
      dsimp only at hL
      split_ifs at hL ⊢
      · rw [(hinner room).mul.2 _ hL]
      · rw [(SameWithin.reverse hinner room).2 { e with p := p } fun id hid => hL
          (by split <;> exact hid)]
      · rfl
      · exact (sameWithin_ident h).2 _ hL
      · rfl

/-- Noting the lookups does not change the value. -/
theorem exprValue_noting (f : Text → Option Word) (room : ℕ) (l : List Text) (s : Text) :
    (exprValue (fun (_ : Unit) id => (f id, ())) room () s).1 =
      (exprValue (noting f) room l s).1 := by
  have hto : Finds (fun _ _ => True) (fun (_ : Unit) id => (f id, ())) (noting f) :=
    fun _ _ id v _ hv => ⟨hv, trivial⟩
  have hback : Finds (fun _ _ => True) (noting f) (fun (_ : Unit) id => (f id, ())) :=
    fun _ _ id v _ hv => ⟨hv, trivial⟩
  refine Option.ext fun v => ⟨fun hv => ?_, fun hv => ?_⟩
  · exact (exprValue_follows hto trivial (Nat.le_refl _) hv).1
  · exact (exprValue_follows hback trivial (Nat.le_refl _) hv).1

/-- An evaluation depends on the symbols it looks up. -/
theorem exprValue_congr {s : Text} (h : ∀ id ∈ symbolsOf s, f id = g id) :
    (exprValue (fun (_ : Unit) id => (f id, ())) exprMaxDepth () s).1 =
      (exprValue (fun (_ : Unit) id => (g id, ())) exprMaxDepth () s).1 := by
  rw [exprValue_noting f _ [], exprValue_noting g _ []]
  have hsymbols : (exprValue (noting f) exprMaxDepth [] s).2 = symbolsOf s := by
    have hlook : ∀ (l l' : List Text) id, l = l' → (noting f l id).2 = (noteSymbol l' id).2 := by
      rintro l _ id rfl
      rfl
    exact exprValue_tracks hlook rfl exprMaxDepth s
  have hsame := (SameWithin.reverse (sameWithin_primary h s.length) exprMaxDepth).2 ⟨[], s, true⟩
    (fun id hid => by rw [← hsymbols]; exact hid)
  unfold exprValue
  rw [hsame]

end Same

end PioSim.Asm
