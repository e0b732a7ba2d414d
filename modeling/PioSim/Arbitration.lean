import PioSim.World
import PioSim.Lib.LastWriter
import Mathlib.Order.Fin.Basic

/-!
# Who drives a pin

`pio_pads_resolve` pin by pin: the level comes from the last state machine, in scan order, that
wrote the pin this cycle and whose block the mux lets through, and the direction from the last
enabled claimant, else from the last disabled one. The function masks are read pin by pin as well.
-/

namespace PioSim

variable [Platform]

/-- A state machine as the scan of `pio_pads_resolve` meets it: its block, owner slot and number. -/
abbrev Driver := BlockAddr × ℕ × Fin 4

instance : LawfulBEq Driver := inferInstance

/-- What direction arbitration reads of a state machine. -/
def Sm.dirView (s : Sm) : Bool × Mask × Mask := (s.enabled, s.pins.dirDriven, s.pins.outPinOe)

namespace Pads

section
omit [Platform]

theorem getLsbD_overwrite (acc mask value : Mask) (k : ℕ) :
    (overwrite acc mask value).getLsbD k =
      if mask.getLsbD k then value.getLsbD k else acc.getLsbD k := by
  simp only [overwrite, BitVec.getLsbD_or, BitVec.getLsbD_and, BitVec.getLsbD_not]
  by_cases hk : k < 64
  · cases h : mask.getLsbD k <;> simp [hk]
  · have hacc : acc.getLsbD k = false := BitVec.getLsbD_of_ge _ _ (by omega)
    have hmask : mask.getLsbD k = false := BitVec.getLsbD_of_ge _ _ (by omega)
    simp [hacc, hmask]

theorem getLsbD_foldl_overwrite {δ : Type} (mask value : δ → Mask) (k : ℕ) (ds : List δ)
    (acc : Mask) : (ds.foldl (fun acc d => overwrite acc (mask d) (value d)) acc).getLsbD k =
      LastWriter.scan (fun d => (mask d).getLsbD k) (fun d => (value d).getLsbD k)
        (acc.getLsbD k) ds := by
  induction ds generalizing acc with
  | nil => rfl
  | cons d ds ih =>
    rw [List.foldl_cons, ih, getLsbD_overwrite]
    rfl

/-- The driver has written the pin this cycle and its block is selected there. -/
def writesPin (sm : BlockAddr → Fin 4 → Sm) (p : Pads) (pin : ℕ) (d : Driver) : Bool :=
  (p.writtenBy sm d).getLsbD pin

/-- The driver claims the pin's direction and its block is selected there. -/
def claimsPin (sm : BlockAddr → Fin 4 → Sm) (p : Pads) (pin : ℕ) (d : Driver) : Bool :=
  (p.drivenBy sm d).getLsbD pin

/-- The state machine whose level the pin takes at a resolve. -/
def levelWriter (sm : BlockAddr → Fin 4 → Sm) (p : Pads) (pin : ℕ) : Option Driver :=
  LastWriter.last (p.writesPin sm pin) p.drivers

/-- The state machine that holds the pin's direction: the last enabled claimant, else the last
disabled one. -/
def dirOwner (sm : BlockAddr → Fin 4 → Sm) (p : Pads) (pin : ℕ) : Option Driver :=
  (LastWriter.last (fun d => (sm d.1 d.2.2).enabled && p.claimsPin sm pin d) p.drivers).or
    (LastWriter.last (fun d => !(sm d.1 d.2.2).enabled && p.claimsPin sm pin d) p.drivers)

def dirOf (sm : BlockAddr → Fin 4 → Sm) (p : Pads) (pin : ℕ) : Bool :=
  (p.dirOwner sm pin).elim false fun d => (sm d.1 d.2.2).pins.outPinOe.getLsbD pin

def levelOf (sm : BlockAddr → Fin 4 → Sm) (p : Pads) (pin : ℕ) : Bool :=
  (p.levelWriter sm pin).elim (p.pinLevels.getLsbD pin)
    fun d => (sm d.1 d.2.2).pins.outPinVal.getLsbD pin

theorem getLsbD_resolvedLevels (sm : BlockAddr → Fin 4 → Sm) (p : Pads) (pin : ℕ) :
    (p.resolvedLevels sm).getLsbD pin = p.levelOf sm pin := by
  rw [resolvedLevels, getLsbD_foldl_overwrite, LastWriter.scan_eq]
  rfl

theorem getLsbD_resolvedDirs (sm : BlockAddr → Fin 4 → Sm) (p : Pads) (pin : ℕ) :
    (p.resolvedDirs sm).getLsbD pin = p.dirOf sm pin := by
  have hlive : ∀ acc : Mask, (p.drivers.foldl (fun oe d =>
      if (sm d.1 d.2.2).enabled then
        overwrite oe (p.drivenBy sm d) (sm d.1 d.2.2).pins.outPinOe
      else oe) acc).getLsbD pin =
      (p.drivers.foldl (fun oe d => overwrite oe
        (if (sm d.1 d.2.2).enabled then p.drivenBy sm d else 0)
        (sm d.1 d.2.2).pins.outPinOe) acc).getLsbD pin := by
    intro acc
    congr 2
    funext oe d
    split
    · rfl
    · apply BitVec.eq_of_getLsbD_eq
      intro k _
      simp [getLsbD_overwrite]
  rw [resolvedDirs, hlive, getLsbD_foldl_overwrite, getLsbD_foldl_overwrite, LastWriter.scan_eq,
    LastWriter.scan_eq, dirOf, dirOwner]
  have henabled : (fun d : Driver => (if (sm d.1 d.2.2).enabled then p.drivenBy sm d
      else 0).getLsbD pin) = fun d => (sm d.1 d.2.2).enabled && p.claimsPin sm pin d := by
    funext d
    cases (sm d.1 d.2.2).enabled <;> simp [claimsPin]
  have hparked : (fun d : Driver => (if (sm d.1 d.2.2).enabled then 0
      else p.drivenBy sm d).getLsbD pin) = fun d =>
          !(sm d.1 d.2.2).enabled && p.claimsPin sm pin d := by
    funext d
    cases (sm d.1 d.2.2).enabled <;> simp [claimsPin]
  rw [henabled, hparked]
  cases LastWriter.last (fun d : Driver => (sm d.1 d.2.2).enabled && p.claimsPin sm pin d)
      p.drivers with
  | some d => rfl
  | none => simp

theorem dirOwner_of_last_enabled {sm : BlockAddr → Fin 4 → Sm} {p : Pads} {pin : ℕ} {d : Driver}
    (h : LastWriter.last (fun d => (sm d.1 d.2.2).enabled && p.claimsPin sm pin d) p.drivers =
      some d) : p.dirOwner sm pin = some d := by
  rw [dirOwner, h]
  rfl

theorem dirOwner_of_none_enabled {sm : BlockAddr → Fin 4 → Sm} {p : Pads} {pin : ℕ}
    (h : LastWriter.last (fun d => (sm d.1 d.2.2).enabled && p.claimsPin sm pin d) p.drivers =
      none) : p.dirOwner sm pin =
        LastWriter.last (fun d => !(sm d.1 d.2.2).enabled && p.claimsPin sm pin d) p.drivers := by
  rw [dirOwner, h]
  rfl

/-- Where a dropped state machine held a pin's direction, the one that takes over under the records
`sm'` drives the pin the same way; with nobody left the pin is an input. -/
def HandsOver (p : Pads) (sm sm' : BlockAddr → Fin 4 → Sm) (dropped : BlockAddr → Fin 4 → Prop) :
    Prop := ∀ pin d, p.dirOwner sm pin = some d → dropped d.1 d.2.2 →
  (sm d.1 d.2.2).pins.outPinOe.getLsbD pin =
    (p.dirOwner sm' pin).elim false fun e => (sm' e.1 e.2.2).pins.outPinOe.getLsbD pin

theorem HandsOver.refl (p : Pads) (sm : BlockAddr → Fin 4 → Sm)
    (dropped : BlockAddr → Fin 4 → Prop) :
    p.HandsOver sm sm dropped := by
  intro pin d hd _
  rw [hd]
  rfl

end

section Drop
variable {sm sm' : BlockAddr → Fin 4 → Sm} {p : Pads} {dropped : BlockAddr → Fin 4 → Prop}

/-- Under `sm'` the dropped state machines are disabled and claim no more than before, and the
others are unchanged in what arbitration reads. -/
structure Drops (sm sm' : BlockAddr → Fin 4 → Sm) (dropped : BlockAddr → Fin 4 → Prop) : Prop where
  keep : ∀ c i, ¬ dropped c i → (sm' c i).dirView = (sm c i).dirView
  disabled : ∀ c i, dropped c i → (sm' c i).enabled = false
  claims : ∀ c i, dropped c i → ∀ k, (sm' c i).pins.dirDriven.getLsbD k = true →
    (sm c i).pins.dirDriven.getLsbD k = true

section
omit [Platform]

theorem Drops.claimsPin (h : Drops sm sm' dropped) {pin : ℕ} {d : Driver}
    (hd : p.claimsPin sm' pin d = true) : p.claimsPin sm pin d = true := by
  simp only [Pads.claimsPin, drivenBy, BitVec.getLsbD_and, Bool.and_eq_true] at hd ⊢
  refine ⟨?_, hd.2⟩
  by_cases hdrop : dropped d.1 d.2.2
  · exact h.claims _ _ hdrop pin hd.1
  · have hview := h.keep _ _ hdrop
    simp only [Sm.dirView, Prod.mk.injEq] at hview
    rw [← hview.2.1]
    exact hd.1

theorem Drops.enabled (h : Drops sm sm' dropped) {c : BlockAddr} {i : Fin 4}
    (he : (sm' c i).enabled = true) : (sm c i).enabled = true := by
  by_cases hdrop : dropped c i
  · rw [h.disabled _ _ hdrop] at he
    cases he
  · exact (congrArg Prod.fst (h.keep _ _ hdrop)).symm.trans he

/-- A pin stays with its owner when others are dropped. -/
theorem Drops.dirOwner (h : Drops sm sm' dropped) {pin : ℕ} {d : Driver}
    (hd : p.dirOwner sm pin = some d) (hkeep : ¬ dropped d.1 d.2.2) :
    p.dirOwner sm' pin = some d := by
  have hview := h.keep _ _ hkeep
  simp only [Sm.dirView, Prod.mk.injEq] at hview
  have hclaim : p.claimsPin sm' pin d = p.claimsPin sm pin d := by
    rw [Pads.claimsPin, Pads.claimsPin, drivenBy, drivenBy, hview.2.1]
  cases hlast : LastWriter.last (fun d => (sm d.1 d.2.2).enabled && p.claimsPin sm pin d)
      p.drivers with
  | some e =>
    rw [dirOwner_of_last_enabled hlast, Option.some.injEq] at hd
    subst hd
    refine dirOwner_of_last_enabled (LastWriter.last_of_imp hlast (fun a _ ha => ?_) ?_)
    · rw [Bool.and_eq_true] at ha ⊢
      exact ⟨h.enabled ha.1, h.claimsPin ha.2⟩
    · have hclaims := LastWriter.claims_of_last hlast
      rw [hclaim, hview.1]
      exact hclaims
  | none =>
    rw [dirOwner_of_none_enabled hlast] at hd
    rw [LastWriter.last_eq_none_iff] at hlast
    -- no enabled claimants before, so none after, and the disabled ones are among the former
    have hnone : LastWriter.last (fun d => (sm' d.1 d.2.2).enabled && p.claimsPin sm' pin d)
        p.drivers = none := by
      refine LastWriter.last_eq_none_iff.mpr fun a ha => ?_
      by_contra hclaims
      rw [Bool.not_eq_false, Bool.and_eq_true] at hclaims
      have hfalse := hlast a ha
      rw [h.enabled hclaims.1, h.claimsPin hclaims.2] at hfalse
      cases hfalse
    rw [dirOwner_of_none_enabled hnone]
    refine LastWriter.last_of_imp hd (fun a ha hclaims => ?_) ?_
    · rw [Bool.and_eq_true] at hclaims
      have hbefore := h.claimsPin hclaims.2
      have hfalse := hlast a ha
      rw [hbefore, Bool.and_true] at hfalse
      rw [hfalse, hbefore]
      rfl
    · have hclaims := LastWriter.claims_of_last hd
      rw [hclaim, hview.1]
      exact hclaims

theorem Drops.dirOwner_none (h : Drops sm sm' dropped) {pin : ℕ} (hd : p.dirOwner sm pin = none) :
    p.dirOwner sm' pin = none := by
  simp only [Pads.dirOwner, Option.or_eq_none_iff, LastWriter.last_eq_none_iff] at hd
  have hno : ∀ a ∈ p.drivers, p.claimsPin sm' pin a = false := by
    intro a ha
    by_contra hclaims
    have hbefore := h.claimsPin (Bool.not_eq_false _ ▸ hclaims)
    have hen := hd.1 a ha
    have hdis := hd.2 a ha
    rw [hbefore, Bool.and_true] at hen hdis
    rw [hen] at hdis
    cases hdis
  simp only [Pads.dirOwner, Option.or_eq_none_iff, LastWriter.last_eq_none_iff]
  exact ⟨fun a ha => by rw [hno a ha, Bool.and_false], fun a ha => by rw [hno a ha, Bool.and_false]⟩

/-- When the pins of the dropped ones are handed over, every pin keeps its direction. -/
theorem Drops.dirOf (h : Drops sm sm' dropped) (hover : p.HandsOver sm sm' dropped) (pin : ℕ) :
    p.dirOf sm' pin = p.dirOf sm pin := by
  cases hd : p.dirOwner sm pin with
  | none =>
    rw [Pads.dirOf, Pads.dirOf, h.dirOwner_none hd, hd]
    rfl
  | some d =>
    by_cases hdrop : dropped d.1 d.2.2
    · rw [Pads.dirOf, Pads.dirOf, hd]
      exact (hover pin d hd hdrop).symm
    · have hview := h.keep _ _ hdrop
      simp only [Sm.dirView, Prod.mk.injEq] at hview
      rw [Pads.dirOf, Pads.dirOf, hd, h.dirOwner hd hdrop, Option.elim_some, Option.elim_some,
        hview.2.2]

end

end Drop

/-! ### The documented priority -/

/-- The place of a state machine in the scan: its owner slot, then its number. -/
def scanRank (d : Driver) : ℕ ×ₗ Fin 4 := toLex d.2

/-- The place of a state machine among direction claimants: enabled ones above all others. -/
def dirRank (sm : BlockAddr → Fin 4 → Sm) (d : Driver) : Bool ×ₗ ℕ ×ₗ Fin 4 :=
  toLex ((sm d.1 d.2.2).enabled, scanRank d)

section
omit [Platform]

/-- The scan meets every state machine of the owners once, in the order of its place. -/
theorem drivers_sorted (p : Pads) : p.drivers.Pairwise fun d e => scanRank d < scanRank e := by
  rw [drivers, List.pairwise_flatMap]
  constructor
  · intro bo _
    rw [List.pairwise_map]
    refine (List.pairwise_lt_finRange 4).imp fun h => ?_
    exact Prod.Lex.toLex_lt_toLex.mpr (.inr ⟨rfl, h⟩)
  · have hslots : p.slots.Pairwise fun a b => a.2 < b.2 := by
      rw [slots, ← List.pairwise_map, List.zipIdx_map_snd]
      exact List.pairwise_lt_range'
    refine hslots.imp fun h d hd e he => ?_
    obtain ⟨i, _, rfl⟩ := List.mem_map.mp hd
    obtain ⟨j, _, rfl⟩ := List.mem_map.mp he
    exact Prod.Lex.toLex_lt_toLex.mpr (.inl h)

/-- The state machine is the greatest writer of the pin that the mux lets through. -/
def WritesAbove (sm : BlockAddr → Fin 4 → Sm) (p : Pads) (pin : ℕ) (d : Driver) : Prop :=
  LastWriter.IsGreatest scanRank (p.writesPin sm pin) p.drivers d

/-- The state machine is the greatest direction claimant of the pin that the mux lets through. -/
def ClaimsAbove (sm : BlockAddr → Fin 4 → Sm) (p : Pads) (pin : ℕ) (d : Driver) : Prop :=
  LastWriter.IsGreatest (dirRank sm) (p.claimsPin sm pin) p.drivers d

theorem levelWriter_isGreatest {sm : BlockAddr → Fin 4 → Sm} {p : Pads} {pin : ℕ} {d : Driver}
    (h : p.levelWriter sm pin = some d) : p.WritesAbove sm pin d :=
  LastWriter.last_isGreatest p.drivers_sorted h

theorem dirOwner_isGreatest {sm : BlockAddr → Fin 4 → Sm} {p : Pads} {pin : ℕ} {d : Driver}
    (h : p.dirOwner sm pin = some d) : p.ClaimsAbove sm pin d :=
  LastWriter.or_last_isGreatest p.drivers_sorted h

theorem dirOwner_eq_none {sm : BlockAddr → Fin 4 → Sm} {p : Pads} {pin : ℕ}
    (h : p.dirOwner sm pin = none) : ∀ d ∈ p.drivers, p.claimsPin sm pin d = false := by
  rw [dirOwner, Option.or_eq_none_iff, LastWriter.last_eq_none_iff,
    LastWriter.last_eq_none_iff] at h
  intro d hd
  have henabled := h.1 d hd
  have hparked := h.2 d hd
  cases he : (sm d.1 d.2.2).enabled with
  | true => rwa [he, Bool.true_and] at henabled
  | false => rwa [he, Bool.not_false, Bool.true_and] at hparked

/-- The greatest writer of a pin is one state machine. -/
theorem WritesAbove.unique {sm : BlockAddr → Fin 4 → Sm} {p : Pads} {pin : ℕ} {d e : Driver}
    (hd : p.WritesAbove sm pin d) (he : p.WritesAbove sm pin e) : d = e :=
  LastWriter.IsGreatest.unique (p.drivers_sorted.imp fun h => h.ne) hd he

/-- The greatest claimant of a pin is one state machine. -/
theorem ClaimsAbove.unique {sm : BlockAddr → Fin 4 → Sm} {p : Pads} {pin : ℕ} {d e : Driver}
    (hd : p.ClaimsAbove sm pin d) (he : p.ClaimsAbove sm pin e) : d = e := by
  refine LastWriter.IsGreatest.unique (p.drivers_sorted.imp fun h heq => h.ne ?_) hd he
  exact (Prod.mk.inj (toLex.injective heq)).2

/-- Arbitration once more over what it resolved changes nothing. -/
theorem resolve_resolve (sm : BlockAddr → Fin 4 → Sm) (p : Pads) :
    (p.resolve sm).resolve sm = p.resolve sm := by
  have hlevels : (p.resolve sm).resolvedLevels sm = p.resolvedLevels sm := by
    apply BitVec.eq_of_getLsbD_eq
    intro pin _
    have hwriter : (p.resolve sm).levelWriter sm pin = p.levelWriter sm pin := rfl
    have hbit := p.getLsbD_resolvedLevels sm pin
    rw [getLsbD_resolvedLevels, levelOf, hwriter]
    rw [levelOf] at hbit
    cases hd : p.levelWriter sm pin with
    | none => rfl
    | some d =>
      rw [hd] at hbit
      exact hbit.symm
  have hdirs : (p.resolve sm).resolvedDirs sm = p.resolvedDirs sm := rfl
  rw [resolve, hlevels, hdirs]
  rfl

/-- `pio_pads_resolve` gives every pin the direction of its greatest claimant, an input where there
is none, and the level of its greatest writer, the level it had where there is none; and it settles
in one call. -/
theorem resolve_follows_priority (sm : BlockAddr → Fin 4 → Sm) (p : Pads) :
    (∀ pin,
      ((∃ d, p.ClaimsAbove sm pin d ∧
          (p.resolve sm).pinDirs.getLsbD pin = (sm d.1 d.2.2).pins.outPinOe.getLsbD pin) ∨
        (∀ d ∈ p.drivers, p.claimsPin sm pin d = false) ∧
          (p.resolve sm).pinDirs.getLsbD pin = false) ∧
      ((∃ d, p.WritesAbove sm pin d ∧
          (p.resolve sm).pinLevels.getLsbD pin = (sm d.1 d.2.2).pins.outPinVal.getLsbD pin) ∨
        (∀ d ∈ p.drivers, p.writesPin sm pin d = false) ∧
          (p.resolve sm).pinLevels.getLsbD pin = p.pinLevels.getLsbD pin)) ∧
    (p.resolve sm).resolve sm = p.resolve sm := by
  refine ⟨fun pin => ⟨?_, ?_⟩, resolve_resolve sm p⟩
  · have hdir : (p.resolve sm).pinDirs.getLsbD pin = p.dirOf sm pin := p.getLsbD_resolvedDirs sm pin
    cases hd : p.dirOwner sm pin with
    | some d => exact .inl ⟨d, dirOwner_isGreatest hd, by rw [hdir, dirOf, hd, Option.elim_some]⟩
    | none => exact .inr ⟨dirOwner_eq_none hd, by rw [hdir, dirOf, hd, Option.elim_none]⟩
  · have hlevel : (p.resolve sm).pinLevels.getLsbD pin = p.levelOf sm pin :=
      p.getLsbD_resolvedLevels sm pin
    cases hd : p.levelWriter sm pin with
    | some d =>
      exact .inl ⟨d, levelWriter_isGreatest hd, by rw [hlevel, levelOf, hd, Option.elim_some]⟩
    | none =>
      exact .inr ⟨LastWriter.last_eq_none_iff.mp hd,
        by rw [hlevel, levelOf, hd, Option.elim_none]⟩

end

theorem getLsbD_funcMask (p : Pads) (f : ℕ → Bool) (pin : ℕ) :
    (p.funcMask f).getLsbD pin = (decide (pin < numPins) && f (p.funcsel pin)) := by
  have hfold : ∀ n ≤ 64, ((List.range n).foldl
      (fun m i => if f (p.funcsel i) then m ||| pinBit i else m) (0 : Mask)).getLsbD pin =
        (decide (pin < n) && f (p.funcsel pin)) := by
    intro n
    induction n with
    | zero => simp
    | succ n ih =>
      intro hn
      rw [List.range_succ, List.foldl_append, List.foldl_cons, List.foldl_nil]
      have hlast := ih (by omega)
      generalize (List.range n).foldl _ (0 : Mask) = m at hlast ⊢
      by_cases he : pin = n
      · subst he
        cases hf : f (p.funcsel pin) with
        | false => rw [if_neg Bool.false_ne_true, hlast, hf, Bool.and_false, Bool.and_false]
        | true =>
          have hlt : pin < 64 := by omega
          simp [getLsbD_pinBit, hlt]
      · have hiff : pin < n + 1 ↔ pin < n := by omega
        split <;> simp [hlast, getLsbD_pinBit, he, hiff]
  exact hfold numPins (by have := numPins_le; omega)

end Pads
end PioSim
