import PioSim.Asm.Statement

/-!
# Comments and blanks

A comment is as good as a blank, and one blank is as good as many: two lines that differ in their
blanks only say the same to a pass, and a line says what it says with its comments blanked. That is
so for what a pass sees of a line, which is not more than fits its buffer.
-/

namespace PioSim.Asm

/-! ### Lines that differ in blanks -/

/-- The lines differ in the lengths of their runs of blanks only. -/
inductive Alike : Text → Text → Prop
  | nil : Alike [] []
  | keep (c : Char) {s s' : Text} (h : Alike s s') : Alike (c :: s) (c :: s')
  | blanks {u v s s' : Text} (hu : ∀ c ∈ u, isBlank c = true) (hv : ∀ c ∈ v, isBlank c = true)
  (hu' : u ≠ [])
    (hv' : v ≠ []) (h : Alike s s') : Alike (u ++ s) (v ++ s')

theorem isTrimmed_of_isBlank {c : Char} (h : isBlank c = true) : isTrimmed c = true := by
  unfold isBlank at h
  unfold isTrimmed
  rw [h]
  rfl

namespace Alike
variable {l l' s s' : Text}

theorem refl : ∀ l : Text, Alike l l := fun l => List.rec .nil (fun c _ ih => .keep c ih) l

theorem append (h : Alike l l') (hs : Alike s s') : Alike (l ++ s) (l' ++ s') := by
  induction h with
  | nil => exact hs
  | keep c _ ih => exact .keep c ih
  | blanks hu hv hu' hv' _ ih =>
    rw [List.append_assoc, List.append_assoc]
    exact .blanks hu hv hu' hv' ih

theorem reverse (h : Alike l l') : Alike l.reverse l'.reverse := by
  induction h with
  | nil => exact .nil
  | keep c _ ih =>
    rw [List.reverse_cons, List.reverse_cons]
    exact ih.append (.keep c .nil)
  | @blanks u v s s' hu hv hu' hv' _ ih =>
    rw [List.reverse_append, List.reverse_append]
    refine ih.append ?_
    have hlast :=
      blanks (u := u.reverse) (v := v.reverse) (fun c hc => hu c (List.mem_reverse.mp hc))
      (fun c hc => hv c (List.mem_reverse.mp hc)) (mt List.reverse_eq_nil_iff.mp hu')
      (mt List.reverse_eq_nil_iff.mp hv') .nil
    rwa [List.append_nil, List.append_nil] at hlast

theorem dropWhile {p : Char → Bool} (hp : ∀ c, isBlank c = true → p c = true) (h : Alike l l') :
    Alike (l.dropWhile p) (l'.dropWhile p) := by
  induction h with
  | nil => exact .nil
  | keep c h ih =>
    rw [List.dropWhile_cons, List.dropWhile_cons]
    split
    · exact ih
    · exact .keep c h
  | blanks hu hv _ _ _ ih =>
    rw [List.dropWhile_append_of_pos fun c hc => hp c (hu c hc),
      List.dropWhile_append_of_pos fun c hc => hp c (hv c hc)]
    exact ih

/-- A first character that is no blank is the same in both. -/
theorem cons_inv {c : Char} (hc : isBlank c = false) (h : Alike (c :: s) l') :
    ∃ s', l' = c :: s' ∧ Alike s s' := by
  generalize hl : c :: s = l at h
  cases h with
  | nil => cases hl
  | keep d h =>
    obtain ⟨rfl, rfl⟩ := List.cons.inj hl
    exact ⟨_, rfl, h⟩
  | @blanks u v s₀ s' hu _ hu' _ _ =>
    cases u with
    | nil => exact absurd rfl hu'
    | cons d u =>
      obtain ⟨rfl, -⟩ := List.cons.inj hl
      rw [hu c List.mem_cons_self] at hc
      cases hc

theorem append_inv : ∀ {w : Text}, (∀ c ∈ w, isBlank c = false) → Alike (w ++ s) l' →
    ∃ s', l' = w ++ s' ∧ Alike s s' := by
  intro w
  induction w generalizing l' with
  | nil => exact fun _ h => ⟨l', rfl, h⟩
  | cons c w ih =>
    intro hw h
    obtain ⟨s₁, rfl, h₁⟩ := cons_inv (hw c List.mem_cons_self) h
    obtain ⟨s₂, rfl, h₂⟩ := ih (fun c hc => hw c (List.mem_cons_of_mem _ hc)) h₁
    exact ⟨s₂, rfl, h₂⟩

theorem symm (h : Alike l l') : Alike l' l := by
  induction h with
  | nil => exact .nil
  | keep c _ ih => exact .keep c ih
  | blanks hu hv hu' hv' _ ih => exact .blanks hv hu hv' hu' ih

theorem nil_inv (h : Alike [] l') : l' = [] := by
  generalize hl : ([] : Text) = l at h
  cases h with
  | nil => rfl
  | keep => cases hl
  | blanks _ _ hu' => exact absurd (List.append_eq_nil_iff.mp hl.symm).1 hu'

theorem eq_nil_iff (h : Alike l l') : l = [] ↔ l' = [] := by
  constructor
  · rintro rfl
    exact h.nil_inv
  · rintro rfl
    exact h.symm.nil_inv

theorem mem_iff (h : Alike l l') {c : Char} (hc : isBlank c = false) : c ∈ l ↔ c ∈ l' := by
  have hnot : ∀ {u : Text}, (∀ c ∈ u, isBlank c = true) → c ∉ u := fun hu hmem => by
    rw [hu c hmem] at hc
    cases hc
  induction h with
  | nil => exact Iff.rfl
  | keep d _ ih =>
    rw [List.mem_cons, List.mem_cons]
    exact or_congr_right ih
  | blanks hu hv _ _ _ ih =>
    rw [List.mem_append, List.mem_append, or_iff_right (hnot hu), or_iff_right (hnot hv)]
    exact ih

/-- A run of characters that are no blanks is the same in front of both. -/
theorem takeWhile {p : Char → Bool} (hp : ∀ c, isBlank c = true → p c = false) (h : Alike l l') :
    l.takeWhile p = l'.takeWhile p ∧ Alike (l.dropWhile p) (l'.dropWhile p) := by
  have hstop : ∀ {u s : Text}, (∀ c ∈ u, isBlank c = true) → u ≠ [] →
      (u ++ s).takeWhile p = [] ∧ (u ++ s).dropWhile p = u ++ s := by
    intro u s hu hu'
    cases u with
    | nil => exact absurd rfl hu'
    | cons c u =>
      have hc := hp c (hu c List.mem_cons_self)
      rw [List.cons_append, List.takeWhile_cons, List.dropWhile_cons, hc]
      exact ⟨rfl, rfl⟩
  induction h with
  | nil => exact ⟨rfl, .nil⟩
  | keep c h ih =>
    rw [List.takeWhile_cons, List.takeWhile_cons, List.dropWhile_cons, List.dropWhile_cons]
    split
    · exact ⟨congrArg _ ih.1, ih.2⟩
    · exact ⟨rfl, .keep c h⟩
  | blanks hu hv hu' hv' h _ =>
    rw [(hstop hu hu').1, (hstop hu hu').2, (hstop hv hv').1, (hstop hv hv').2]
    exact ⟨rfl, .blanks hu hv hu' hv' h⟩

theorem isSeparator_of_isBlank {c : Char} (h : isBlank c = true) : isSeparator c = true := by
  unfold isBlank at h
  unfold isSeparator
  rw [h]
  rfl

theorem tokensOf_cons_separator {c : Char} (hc : isSeparator c = true) (s : Text) :
    tokensOf (c :: s) = tokensOf s := by
  rw [tokensOf, stretches, if_pos hc]
  rfl

theorem tokensOf_blanks : ∀ {u : Text}, (∀ c ∈ u, isBlank c = true) →
    tokensOf (u ++ s) = tokensOf s := by
  intro u
  induction u with
  | nil => exact fun _ => rfl
  | cons c u ih =>
    intro hu
    rw [List.cons_append, tokensOf_cons_separator
      (isSeparator_of_isBlank (hu c List.mem_cons_self))]
    exact ih fun c hc => hu c (List.mem_cons_of_mem _ hc)

theorem tokensOf_of_stretches (hhead : (stretches s).head? = (stretches s').head?)
    (htail : (stretches s).tail.filter (· ≠ []) = (stretches s').tail.filter (· ≠ [])) :
    tokensOf s = tokensOf s' := by
  unfold tokensOf
  generalize stretches s = ts at hhead htail ⊢
  generalize stretches s' = ts' at hhead htail ⊢
  cases ts <;> cases ts' <;> simp_all [List.filter_cons]

/-- The first stretch is the same in both, and so are the tokens behind it. -/
theorem stretches_eq (h : Alike l l') : (stretches l).head? = (stretches l').head? ∧
    (stretches l).tail.filter (· ≠ []) = (stretches l').tail.filter (· ≠ []) := by
  have hstart : ∀ {u s : Text}, (∀ c ∈ u, isBlank c = true) → u ≠ [] →
      (stretches (u ++ s)).head? = some [] ∧ (stretches (u ++ s)).tail.filter (· ≠ []) =
          tokensOf s := by
    intro u s hu hu'
    cases u with
    | nil => exact absurd rfl hu'
    | cons c u =>
      rw [List.cons_append, stretches, if_pos (isSeparator_of_isBlank (hu c List.mem_cons_self))]
      exact ⟨rfl, tokensOf_blanks fun c hc => hu c (List.mem_cons_of_mem _ hc)⟩
  induction h with
  | nil => exact ⟨rfl, rfl⟩
  | @keep c s s' _ ih =>
    rw [stretches, stretches]
    split
    · exact ⟨rfl, tokensOf_of_stretches ih.1 ih.2⟩
    · generalize stretches s = ts at ih ⊢
      generalize stretches s' = ts' at ih ⊢
      cases ts <;> cases ts' <;> simp_all
  | blanks hu hv hu' hv' _ ih =>
    rw [(hstart hu hu').1, (hstart hu hu').2, (hstart hv hv').1, (hstart hv hv').2]
    exact ⟨rfl, tokensOf_of_stretches ih.1 ih.2⟩

theorem tokensOf_eq (h : Alike l l') : tokensOf l = tokensOf l' :=
  tokensOf_of_stretches h.stretches_eq.1 h.stretches_eq.2

theorem tokenize_eq (h : Alike l l') (max : ℕ) : tokenize l max = tokenize l' max := by
  rw [tokenize, tokenize, h.tokensOf_eq]

/-- What stands first is the same in both, if it is no blank. -/
theorem head_iff (h : Alike l l') {c : Char} (hc : isBlank c = false) :
    l.head? = some c ↔ l'.head? = some c := by
  have hforth : ∀ {l l' : Text}, Alike l l' → l.head? = some c → l'.head? = some c := by
    intro l l' h hl
    cases l with
    | nil => cases hl
    | cons d s =>
      obtain rfl := Option.some.inj hl
      obtain ⟨s', rfl, -⟩ := h.cons_inv hc
      rfl
  exact ⟨hforth h, hforth h.symm⟩

theorem head_isBlank (h : Alike l l') : l.head?.map isBlank = l'.head?.map isBlank := by
  have hstart : ∀ {u s : Text}, (∀ c ∈ u, isBlank c = true) → u ≠ [] →
      (u ++ s).head?.map isBlank = some true := by
    intro u s hu hu'
    cases u with
    | nil => exact absurd rfl hu'
    | cons c u => exact congrArg some (hu c List.mem_cons_self)
  cases h with
  | nil => rfl
  | keep => rfl
  | blanks hu hv hu' hv' => rw [hstart hu hu', hstart hv hv']

/-- A word that is no blank stands in front of both, and what is behind it differs in blanks. -/
theorem take_drop {w : Text} (hw : ∀ c ∈ w, isBlank c = false) (h : Alike l l')
    (hl : l.take w.length = w) :
    l'.take w.length = w ∧ Alike (l.drop w.length) (l'.drop w.length) := by
  have hsplit : l = w ++ l.drop w.length := by
    rw [← List.take_append_drop w.length l, hl, List.drop_left]
  rw [hsplit] at h
  obtain ⟨s', rfl, hs'⟩ := append_inv hw h
  rw [List.take_left, List.drop_left]
  exact ⟨rfl, hs'⟩

theorem take_iff {w : Text} (hw : ∀ c ∈ w, isBlank c = false) (h : Alike l l') :
    l.take w.length = w ↔ l'.take w.length = w :=
  ⟨fun hl => (take_drop hw h hl).1, fun hl => (take_drop hw h.symm hl).1⟩

theorem stripPublic_eq (line : Text) : ParseState.stripPublic line =
    if line.take 6 = "public".toList ∨ line.take 6 = "PUBLIC".toList then
      if (line.drop 6).head?.map isBlank = some true ∧ ':' ∈ (line.drop 6).dropWhile isBlank then
        ((line.drop 6).dropWhile isBlank, true)
      else (line, false)
    else (line, false) := by
  unfold ParseState.stripPublic
  cases line.drop 6 with
  | nil => simp only [List.head?_nil, Option.map_none, reduceCtorEq, false_and, if_false]
  | cons c s => simp only [List.head?_cons, Option.map_some, Option.some.injEq]

theorem stripPublic (h : Alike l l') :
    Alike (ParseState.stripPublic l).1 (ParseState.stripPublic l').1 ∧
    (ParseState.stripPublic l).2 = (ParseState.stripPublic l').2 := by
  have hlower : ∀ c ∈ "public".toList, isBlank c = false := by decide
  have hupper : ∀ c ∈ "PUBLIC".toList, isBlank c = false := by decide
  have hkeyword : (l.take 6 = "public".toList ∨ l.take 6 = "PUBLIC".toList) ↔
      (l'.take 6 = "public".toList ∨ l'.take 6 = "PUBLIC".toList) :=
    or_congr (take_iff hlower h) (take_iff hupper h)
  rw [stripPublic_eq, stripPublic_eq]
  by_cases hpublic : l.take 6 = "public".toList ∨ l.take 6 = "PUBLIC".toList
  · rw [if_pos hpublic, if_pos (hkeyword.mp hpublic)]
    have hrest : Alike (l.drop 6) (l'.drop 6) :=
      hpublic.elim (fun hl => (take_drop hlower h hl).2) fun hl => (take_drop hupper h hl).2
    have hbehind := hrest.dropWhile fun c hc => hc
    have hlabel : ((l.drop 6).head?.map isBlank = some true ∧ ':' ∈ (l.drop 6).dropWhile isBlank) ↔
        ((l'.drop 6).head?.map isBlank = some true ∧ ':' ∈ (l'.drop 6).dropWhile isBlank) := by
      rw [hrest.head_isBlank]
      exact and_congr_right fun _ => hbehind.mem_iff (by decide)
    by_cases hl : (l.drop 6).head?.map isBlank = some true ∧ ':' ∈ (l.drop 6).dropWhile isBlank
    · rw [if_pos hl, if_pos (hlabel.mp hl)]
      exact ⟨hbehind, rfl⟩
    · rw [if_neg hl, if_neg (mt hlabel.mpr hl)]
      exact ⟨h, rfl⟩
  · rw [if_neg hpublic, if_neg (mt hkeyword.mpr hpublic)]
    exact ⟨h, rfl⟩

/-- The label of both is the same, and what stands behind it has the same tokens. -/
theorem splitLabel (h : Alike l l') : (PioSim.Asm.splitLabel l).1 = (PioSim.Asm.splitLabel l').1 ∧
    Option.Rel Alike (PioSim.Asm.splitLabel l).2 (PioSim.Asm.splitLabel l').2 := by
  have hident : ∀ c, isBlank c = true → isIdentChar c = false := by
    intro c hc
    unfold isBlank at hc
    rw [Bool.or_eq_true, beq_iff_eq, beq_iff_eq] at hc
    rcases hc with rfl | rfl <;> rfl
  obtain ⟨hline, hpublic⟩ := h.stripPublic
  unfold PioSim.Asm.splitLabel
  generalize ParseState.stripPublic l = r at hline hpublic ⊢
  generalize ParseState.stripPublic l' = r' at hline hpublic ⊢
  obtain ⟨line, isPublic⟩ := r
  obtain ⟨line', isPublic'⟩ := r'
  obtain rfl : isPublic = isPublic' := hpublic
  obtain ⟨hname, hrest⟩ := Alike.takeWhile hident hline
  dsimp only at hline hname hrest ⊢
  rw [hname]
  cases hcolon : line.dropWhile isIdentChar with
  | nil =>
    rw [hcolon] at hrest
    rw [hrest.nil_inv]
    exact ⟨rfl, .some hline⟩
  | cons c rest =>
    rw [hcolon] at hrest
    by_cases hc : c = ':'
    · obtain rfl := hc
      obtain ⟨rest', hrest', hbehind⟩ := hrest.cons_inv (by decide)
      have hbehind := hbehind.dropWhile fun c hc => hc
      rw [hrest']
      refine ⟨rfl, ?_⟩
      change Option.Rel Alike
        (if rest.dropWhile isBlank = [] then none else some (rest.dropWhile isBlank))
        (if rest'.dropWhile isBlank = [] then none else some (rest'.dropWhile isBlank))
      by_cases hnil : rest.dropWhile isBlank = []
      · rw [if_pos hnil, if_pos (hbehind.eq_nil_iff.mp hnil)]
        exact .none
      · rw [if_neg hnil, if_neg (mt hbehind.eq_nil_iff.mpr hnil)]
        exact .some hbehind
    · have hno : ∀ rest', line'.dropWhile isIdentChar ≠ ':' :: rest' := by
        intro rest' heq
        rw [heq] at hrest
        obtain ⟨s, heq, -⟩ := hrest.symm.cons_inv (by decide)
        exact hc (List.cons.inj heq).1
      split
      · rename_i heq
        exact absurd (List.cons.inj heq).1 hc
      · exact ⟨rfl, .some hline⟩

end Alike

/-! ### What a pass does about them -/

/-- Lines a pass cannot tell apart. -/
inductive Line.Alike : Line → Line → Prop
  | code {l l' : Text} (h : Asm.Alike l l') : Line.Alike (.code l) (.code l')
  | verbatim : Line.Alike .verbatim .verbatim

namespace ParseState
variable [Platform]

theorem handleInstruction_alike (ps : ParseState) {l l' : Text} (h : Alike l l') :
    ps.handleInstruction l = ps.handleInstruction l' := by
  unfold handleInstruction
  rw [h.tokenize_eq]

/-- A pass does the same about lines that differ in blanks. -/
theorem obey_alike (ps : ParseState) {l l' : Line} (h : l.Alike l') :
    ps.obey l.statement = ps.obey l'.statement := by
  cases h with
  | verbatim => rfl
  | @code l l' h =>
    have hskip : (l = [] ∨ l.head? = some '%') ↔ (l' = [] ∨ l'.head? = some '%') :=
      or_congr h.eq_nil_iff (h.head_iff (by decide))
    have hdot : l.head? = some '.' ↔ l'.head? = some '.' := h.head_iff (by decide)
    unfold Line.statement
    dsimp only
    by_cases hl : l = [] ∨ l.head? = some '%'
    · rw [if_pos hl, if_pos (hskip.mp hl)]
    rw [if_neg hl, if_neg (mt hskip.mpr hl)]
    by_cases hdirective : l.head? = some '.'
    · rw [if_pos hdirective, if_pos (hdot.mp hdirective), directiveStatement, directiveStatement,
        h.tokenize_eq]
    rw [if_neg hdirective, if_neg (mt hdot.mpr hdirective)]
    obtain ⟨hlabel, hrest⟩ := h.splitLabel
    rw [hlabel]
    generalize (splitLabel l).2 = rest at hrest
    generalize (splitLabel l').2 = rest' at hrest
    cases hrest with
    | none => rfl
    | @some s s' hs =>
      simp only [obey, obeyCode]
      rw [handleInstruction_alike _ hs]

theorem runListing_alike {lines lines' : List Line} (h : List.Forall₂ Line.Alike lines lines') :
    ∀ (n : ℕ) (ps : ParseState), runListing n ps lines = runListing n ps lines' := by
  induction h with
  | nil => exact fun _ _ => rfl
  | cons hl _ ih =>
    intro n ps
    rw [runListing_cons, runListing_cons, obey_alike _ hl]
    generalize (ps.atLine n).obey _ = r
    obtain ⟨_ | _ | _, q⟩ := r
    · exact ih _ _
    · rfl
    · rfl

end ParseState

/-- Listings that differ in blanks assemble to the same. -/
theorem assembleListing_alike [Platform] {lines lines' : List Line}
    (h : List.Forall₂ Line.Alike lines lines')
    (name : Option Text) : assembleListing lines name = assembleListing lines' name := by
  have hrun : ∀ (ps : ParseState) (pass : Pass), ps.runOver pass lines = ps.runOver pass lines' :=
    fun ps pass => ParseState.runListing_alike h 1 _
  unfold assembleListing
  simp only [hrun]

end PioSim.Asm
