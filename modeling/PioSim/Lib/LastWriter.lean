import Mathlib.Data.List.Pairwise
import Mathlib.Data.Prod.Lex

/-!
# Last writer wins

A scan over drivers in which each driver that claims overwrites what stands before. The outcome is
the value of the last claimant, or the starting value when nobody claims. Where the drivers stand
in the order of a rank, the last claimant is the greatest.
-/

namespace LastWriter

variable {δ α : Type*}

/-- The last driver of the list that claims. -/
def last (claims : δ → Bool) (ds : List δ) : Option δ := ds.reverse.find? claims

/-- The scan: every claimant overwrites the accumulator. -/
def scan (claims : δ → Bool) (value : δ → α) (init : α) (ds : List δ) : α :=
  ds.foldl (fun acc d => if claims d then value d else acc) init

@[simp] theorem last_nil (claims : δ → Bool) : last claims [] = none := rfl

theorem last_append (claims : δ → Bool) (ds es : List δ) :
    last claims (ds ++ es) = (last claims es).or (last claims ds) := by
  simp only [last, List.reverse_append, List.find?_append]

theorem last_cons (claims : δ → Bool) (d : δ) (ds : List δ) :
    last claims (d :: ds) = (last claims ds).or (if claims d then some d else none) := by
  rw [← List.singleton_append, last_append]
  cases h : claims d <;> simp [last, h]

theorem last_eq_none_iff {claims : δ → Bool} {ds : List δ} :
    last claims ds = none ↔ ∀ d ∈ ds, claims d = false := by
  simp [last]

theorem claims_of_last {claims : δ → Bool} {ds : List δ} {d : δ} (h : last claims ds = some d) :
    claims d = true := List.find?_some h

theorem mem_of_last {claims : δ → Bool} {ds : List δ} {d : δ} (h : last claims ds = some d) :
    d ∈ ds := List.mem_reverse.mp (List.mem_of_find?_eq_some h)

theorem last_congr {claims claims' : δ → Bool} {ds : List δ} (h : ∀ d ∈ ds, claims d = claims' d) :
    last claims ds = last claims' ds := by
  induction ds with
  | nil => rfl
  | cons d ds ih =>
    rw [last_cons, last_cons, h d List.mem_cons_self,
      ih fun e he => h e (List.mem_cons_of_mem d he)]

/-- The last claimant stays it when others withdraw. -/
theorem last_of_imp {claims claims' : δ → Bool} {ds : List δ} {d : δ} (h : last claims ds = some d)
    (himp : ∀ e ∈ ds, claims' e = true → claims e = true) (hd : claims' d = true) :
    last claims' ds = some d := by
  induction ds with
  | nil => cases h
  | cons e ds ih =>
    have himp' : ∀ a ∈ ds, claims' a = true → claims a = true :=
      fun a ha => himp a (List.mem_cons_of_mem e ha)
    rw [last_cons] at h ⊢
    cases hlast : last claims ds with
    | some a =>
      rw [hlast, Option.some_or] at h
      rw [ih (hlast.trans h) himp', Option.some_or]
    | none =>
      have hnone : last claims' ds = none := by
        rw [last_eq_none_iff] at hlast ⊢
        intro a ha
        by_contra hclaim
        rw [Bool.not_eq_false] at hclaim
        exact absurd (himp' a ha hclaim) (by rw [hlast a ha]; exact Bool.false_ne_true)
      rw [hlast, Option.none_or] at h
      split at h
      · cases h
        rw [hnone, Option.none_or, if_pos hd]
      · cases h

/-- Every claimant but the last stands before it. -/
theorem sublist_of_last {claims : δ → Bool} {ds : List δ} {d e : δ} (h : last claims ds = some d)
    (he : e ∈ ds) (hclaims : claims e = true) : e = d ∨ [e, d].Sublist ds := by
  induction ds with
  | nil => cases he
  | cons a ds ih =>
    rw [last_cons] at h
    cases hlast : last claims ds with
    | some b =>
      rw [hlast, Option.some_or] at h
      rcases List.mem_cons.mp he with rfl | he
      · have hd : d ∈ ds := Option.some.inj h ▸ mem_of_last hlast
        exact .inr (.cons_cons e (List.singleton_sublist.mpr hd))
      · exact (ih (hlast.trans h) he).imp_right (.cons a)
    | none =>
      rw [last_eq_none_iff] at hlast
      rw [last_eq_none_iff.mpr hlast, Option.none_or] at h
      split at h
      · rcases List.mem_cons.mp he with rfl | he
        · exact .inl (Option.some.inj h)
        · exact absurd hclaims (by rw [hlast e he]; exact Bool.false_ne_true)
      · cases h

theorem scan_eq (claims : δ → Bool) (value : δ → α) (init : α) (ds : List δ) :
    scan claims value init ds = (last claims ds).elim init value := by
  induction ds generalizing init with
  | nil => rfl
  | cons d ds ih =>
    have hcons : scan claims value init (d :: ds) =
        scan claims value (if claims d then value d else init) ds := rfl
    rw [hcons, ih, last_cons]
    cases last claims ds with
    | some e => rfl
    | none => cases h : claims d <;> simp

section Rank
variable {ρ : Type*}

/-- The driver claims, and no claimant of the list outranks it. -/
structure IsGreatest [LE ρ] (rank : δ → ρ) (claims : δ → Bool) (ds : List δ) (d : δ) : Prop where
  mem : d ∈ ds
  holds : claims d = true
  le : ∀ e ∈ ds, claims e = true → rank e ≤ rank d

/-- In a list ordered by rank the last claimant is the greatest. -/
theorem last_isGreatest [Preorder ρ] {rank : δ → ρ} {claims : δ → Bool} {ds : List δ} {d : δ}
    (hs : ds.Pairwise fun a b => rank a < rank b) (h : last claims ds = some d) :
    IsGreatest rank claims ds d where
  mem := mem_of_last h
  holds := claims_of_last h
  le := by
    intro e he hclaims
    rcases sublist_of_last h he hclaims with rfl | hbefore
    · exact le_rfl
    · have hlt := hs.sublist hbefore
      exact (List.rel_of_pairwise_cons hlt List.mem_cons_self).le

/-- No two drivers of a list in strict order of rank are greatest. -/
theorem IsGreatest.unique [PartialOrder ρ] {rank : δ → ρ} {claims : δ → Bool} {ds : List δ}
    {d e : δ} (hs : ds.Pairwise fun a b => rank a ≠ rank b) (hd : IsGreatest rank claims ds d)
    (he : IsGreatest rank claims ds e) : d = e := by
  by_contra hne
  have hrank : rank d = rank e := le_antisymm (he.le d hd.mem hd.holds) (hd.le e he.mem he.holds)
  have : Std.Symm fun a b => rank a ≠ rank b := ⟨fun _ _ h => h.symm⟩
  exact hs.forall hd.mem he.mem hne hrank

/-- Two scans, the favoured claimants over the rest: the outcome is the greatest claimant when being
favoured counts before rank. -/
theorem or_last_isGreatest [PartialOrder ρ] {rank : δ → ρ} {claims favoured : δ → Bool}
    {ds : List δ} {d : δ} (hs : ds.Pairwise fun a b => rank a < rank b)
    (h : (last (fun a => favoured a && claims a) ds).or
      (last (fun a => !favoured a && claims a) ds) = some d) :
    IsGreatest (fun a => toLex (favoured a, rank a)) claims ds d := by
  cases hfav : last (fun a => favoured a && claims a) ds with
  | some a =>
    rw [hfav, Option.some_or, Option.some.injEq] at h
    subst h
    have hg := last_isGreatest hs hfav
    have hboth := hg.holds
    rw [Bool.and_eq_true] at hboth
    refine ⟨hg.mem, hboth.2, fun e he hclaims => ?_⟩
    rw [Prod.Lex.toLex_le_toLex]
    cases hf : favoured e with
    | false => exact .inl (hboth.1.symm ▸ Bool.false_lt_true)
    | true => exact .inr ⟨hboth.1.symm, hg.le e he (by rw [hf, hclaims]; rfl)⟩
  | none =>
    rw [hfav, Option.none_or] at h
    rw [last_eq_none_iff] at hfav
    have hg := last_isGreatest hs h
    have hboth := hg.holds
    rw [Bool.and_eq_true, Bool.not_eq_true'] at hboth
    refine ⟨hg.mem, hboth.2, fun e he hclaims => ?_⟩
    have hf : favoured e = false := by
      have hno := hfav e he
      rwa [hclaims, Bool.and_true] at hno
    rw [Prod.Lex.toLex_le_toLex]
    exact .inr ⟨hf.trans hboth.1.symm, hg.le e he (by rw [hf, hclaims]; rfl)⟩

end Rank

end LastWriter
