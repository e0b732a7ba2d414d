import PioSim.Asm.Agreement

/-!
# The slots of the RX FIFO by name

`parse_rxfifo` reads an index of any digit between the brackets, and the encoder refuses those above
3. So what it takes are the five names there are.
-/

namespace PioSim.Asm

/-- A character is its own lower case, or one of 26 letters is. -/
theorem lowerAscii_cases (c : Char) :
    lowerAscii c = c ∨ ∃ n < 26, c = Char.ofNat (65 + n) ∧ lowerAscii c = Char.ofNat (97 + n) := by
  unfold lowerAscii
  split
  · rename_i h
    right
    have hlo : 65 ≤ c.toNat := h.1
    have hhi : c.toNat ≤ 90 := h.2
    refine ⟨c.toNat - 65, by omega, ?_, ?_⟩
    · rw [Nat.add_sub_cancel' hlo, Char.ofNat_toNat]
    · congr 1
      omega
  · exact .inl rfl

theorem eq_of_lowerAscii {c x : Char} (hx : ∀ n < 26, Char.ofNat (97 + n) ≠ x)
    (h : lowerAscii c = x) : c = x := by
  rcases lowerAscii_cases c with hsame | ⟨n, hn, -, hlower⟩
  · exact hsame.symm.trans h
  · exact absurd (hlower.symm.trans h) (hx n hn)

theorem lowerAscii_eq_y {c : Char} : lowerAscii c = 'y' ↔ c = 'y' ∨ c = 'Y' := by
  constructor
  · intro h
    rcases lowerAscii_cases c with hsame | ⟨n, hn, hc, hlower⟩
    · exact .inl (hsame.symm.trans h)
    · have hy : n = 24 := by
        rw [hlower] at h
        revert h
        interval_cases n <;> decide
      exact .inr (by rw [hc, hy])
  · rintro (rfl | rfl) <;> rfl

/-- A slot by name: the brackets are where they are, and between them stands one character. -/
theorem ieq_slot (s : Text) {k : Char} (hk : lowerAscii k = k) :
    ieq s ("rxfifo[".toList ++ [k, ']']) = true ↔
      (s.take 7).map lowerAscii = "rxfifo[".toList ∧ ∃ c, s.drop 7 = [c, ']'] ∧
        lowerAscii c = k := by
  have hname : ("rxfifo[".toList ++ [k, ']']).map lowerAscii = "rxfifo[".toList ++ [k, ']'] := by
    rw [List.map_append, List.map_cons, hk]
    rfl
  unfold ieq
  rw [beq_iff_eq, hname]
  constructor
  · intro h
    have htake := congrArg (List.take 7) h
    have hdrop := congrArg (List.drop 7) h
    rw [← List.map_take] at htake
    rw [← List.map_drop] at hdrop
    refine ⟨htake, ?_⟩
    obtain ⟨c, rest, hrest, hc, hlast⟩ := List.map_eq_cons_iff.mp hdrop
    obtain ⟨d, rest', rfl, hd, hnil⟩ := List.map_eq_cons_iff.mp hlast
    rw [List.map_eq_nil_iff] at hnil
    obtain rfl := hnil
    obtain rfl : d = ']' := eq_of_lowerAscii (by decide) hd
    exact ⟨c, hrest, hc⟩
  · rintro ⟨htake, c, hdrop, hc⟩
    rw [← List.take_append_drop 7 s, List.map_append, htake, hdrop, List.map_cons, hc]
    rfl

theorem isDigit_cases {c : Char} (h : isDigit c = true) : ∃ n < 10, c = Char.ofNat (48 + n) := by
  unfold isDigit at h
  rw [Bool.and_eq_true, decide_eq_true_eq, decide_eq_true_eq] at h
  have hlo : 48 ≤ c.toNat := h.1
  have hhi : c.toNat ≤ 57 := h.2
  refine ⟨c.toNat - 48, by omega, ?_⟩
  rw [Nat.add_sub_cancel' hlo, Char.ofNat_toNat]

/-- The named slots are the indices of two bits, and Y. -/
theorem nameIn_slotNames (s : Text) :
    nameIn slotNames s = (parseRxfifo s).filter fun index => index.all (· ≤ 3) := by
  have hname : ∀ k : Char, lowerAscii k = k → (ieq s ("rxfifo[".toList ++ [k, ']']) = true ↔ _) :=
    fun k hk => ieq_slot s hk
  by_cases hslot : (s.take 7).map lowerAscii = "rxfifo[".toList ∧ ∃ c, s.drop 7 = [c, ']']
  · obtain ⟨htake, c, hdrop⟩ := hslot
    have hieq : ∀ k : Char, lowerAscii k = k →
        ieq s ("rxfifo[".toList ++ [k, ']']) = decide (lowerAscii c = k) := by
      intro k hk
      rw [Bool.eq_iff_iff, hname k hk, decide_eq_true_eq]
      constructor
      · rintro ⟨-, d, hd, hk⟩
        rw [hdrop] at hd
        obtain ⟨rfl, -⟩ := List.cons.inj hd
        exact hk
      · exact fun hk => ⟨htake, c, hdrop, hk⟩
    have hy : ieq s "rxfifo[y]".toList = decide (lowerAscii c = 'y') := hieq 'y' rfl
    have hzero : ieq s "rxfifo[0]".toList = decide (lowerAscii c = '0') := hieq '0' rfl
    have hone : ieq s "rxfifo[1]".toList = decide (lowerAscii c = '1') := hieq '1' rfl
    have htwo : ieq s "rxfifo[2]".toList = decide (lowerAscii c = '2') := hieq '2' rfl
    have hthree : ieq s "rxfifo[3]".toList = decide (lowerAscii c = '3') := hieq '3' rfl
    have hparse : parseRxfifo s = if c = 'y' ∨ c = 'Y' then some none
        else if isDigit c then some (some (c.toNat - '0'.toNat)) else none := by
      unfold parseRxfifo
      rw [if_pos htake, hdrop]
      rfl
    rw [hparse, nameIn, slotNames]
    simp only [List.find?_cons, List.find?_nil, hy, hzero, hone, htwo, hthree]
    by_cases hc : c = 'y' ∨ c = 'Y'
    · rw [if_pos hc, decide_eq_true (lowerAscii_eq_y.mpr hc)]
      rfl
    rw [if_neg hc, decide_eq_false (mt lowerAscii_eq_y.mp hc)]
    by_cases hdigit : isDigit c = true
    · rw [if_pos hdigit]
      obtain ⟨n, hn, rfl⟩ := isDigit_cases hdigit
      interval_cases n <;> rfl
    · rw [if_neg hdigit]
      have hother : ∀ k : Char, isDigit k = true → (∀ n < 26, Char.ofNat (97 + n) ≠ k) →
          lowerAscii c ≠ k := by
        intro k hk hletter heq
        rw [eq_of_lowerAscii hletter heq] at hdigit
        exact hdigit hk
      rw [decide_eq_false (hother '0' rfl (by decide)),
        decide_eq_false (hother '1' rfl (by decide)), decide_eq_false (hother '2' rfl (by decide)),
        decide_eq_false (hother '3' rfl (by decide))]
      rfl
  · have hnone : ∀ k : Char, lowerAscii k = k → ieq s ("rxfifo[".toList ++ [k, ']']) = false := by
      intro k hk
      rw [← Bool.not_eq_true, hname k hk]
      rintro ⟨htake, c, hdrop, -⟩
      exact hslot ⟨htake, c, hdrop⟩
    have hparse : parseRxfifo s = none := by
      unfold parseRxfifo
      split
      · rename_i htake
        split
        · rename_i c hdrop
          exact absurd ⟨htake, c, hdrop⟩ hslot
        · rfl
      · rfl
    have hy : ieq s "rxfifo[y]".toList = false := hnone 'y' rfl
    have hzero : ieq s "rxfifo[0]".toList = false := hnone '0' rfl
    have hone : ieq s "rxfifo[1]".toList = false := hnone '1' rfl
    have htwo : ieq s "rxfifo[2]".toList = false := hnone '2' rfl
    have hthree : ieq s "rxfifo[3]".toList = false := hnone '3' rfl
    rw [hparse, nameIn, slotNames]
    simp only [List.find?_cons, List.find?_nil, hy, hzero, hone, htwo, hthree]
    rfl

end PioSim.Asm
