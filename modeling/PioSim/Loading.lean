import PioSim.Host

/-!
# Loading a program

What `pio_asm_load_program` does with an arbitrary `pio_program_t`. The relocation loop runs before
the fit check, so it is the only place where a `count` past the arrays is not yet rejected.
-/

namespace PioSim

namespace PioProgram

/-- The image of the program at an offset, for a `count` within the array. -/
def image (prog : PioProgram) (offset : ℕ) : List Insn :=
  (List.range prog.count).map fun i => relocate offset (prog.insns (Fin.ofNat 32 i))

@[simp] theorem length_image (prog : PioProgram) (offset : ℕ) :
    (prog.image offset).length = prog.count := by
  simp [image]

theorem mapM_eq_some_map {α β : Type*} {f : α → Option β} {g : α → β} {l : List α}
    (h : ∀ a ∈ l, f a = some (g a)) : l.mapM f = some (l.map g) := by
  induction l with
  | nil => rfl
  | cons a l ih =>
    rw [List.mapM_cons, h a (by simp), ih fun b hb => h b (List.mem_cons_of_mem _ hb)]
    rfl

theorem mapM_eq_none_of_mem {α β : Type*} {f : α → Option β} {l : List α} {a : α} (ha : a ∈ l)
    (h : f a = none) : l.mapM f = none := by
  induction l with
  | nil => cases ha
  | cons b l ih =>
    rw [List.mapM_cons]
    rcases List.mem_cons.mp ha with rfl | hmem
    · rw [h]
      rfl
    · rw [ih hmem]
      cases f b <;> rfl

/-- The relocation loop stays in its arrays exactly when `count` does. -/
theorem relocated_eq_some {prog : PioProgram} (h : prog.count ≤ 32) (offset : ℕ) :
    prog.relocated offset = some (prog.image offset) := by
  refine mapM_eq_some_map fun i hi => ?_
  have hlt : i < 32 := Nat.lt_of_lt_of_le (List.mem_range.mp hi) h
  have hslot : (⟨i, hlt⟩ : Fin 32) = Fin.ofNat 32 i := Fin.ext (Nat.mod_eq_of_lt hlt).symm
  rw [dif_pos hlt, hslot]

theorem relocated_eq_none {prog : PioProgram} (h : 32 < prog.count) (offset : ℕ) :
    prog.relocated offset = none :=
  mapM_eq_none_of_mem (List.mem_range.mpr h) (dif_neg (by omega))

theorem fits_iff (prog : PioProgram) (offset : ℕ) :
    prog.fits offset = true ↔
      offset + prog.count ≤ 32 ∧ prog.wrapBottom < prog.count ∧ prog.wrapTop < prog.count := by
  simp only [fits, Bool.and_eq_true, decide_eq_true_eq, and_assoc]

end PioProgram

namespace Pio

/-- The loop of `pio_sim_load` from its `n`-th word on: the words lie in a row, and only their slots
count as loaded afterwards. -/
theorem load_from (offset : ℕ) (l : List Insn) : ∀ (n : ℕ) (p : Pio), offset + n + l.length ≤ 32 →
    ∃ m u, (l.zipIdx n).foldl (fun (p : Pio) (e : Insn × ℕ) =>
        if h : offset + e.2 < 32 then
          { p with
            insn := Function.update p.insn ⟨offset + e.2, h⟩ e.1
            insnUsed := Function.update p.insnUsed ⟨offset + e.2, h⟩ true }
        else p) p = { p with insn := m, insnUsed := u } ∧
      ∀ x : Fin 32, m x =
        (if offset + n ≤ x then l[x - (offset + n)]?.getD (p.insn x) else p.insn x) ∧
        u x = (decide (offset + n ≤ x ∧ x < offset + n + l.length) || p.insnUsed x) := by
  induction l with
  | nil =>
    intro n p _
    refine ⟨p.insn, p.insnUsed, rfl, fun x => ⟨by simp, ?_⟩⟩
    have hnone : ¬ (offset + n ≤ x.val ∧ x.val < offset + n) := by omega
    simp [hnone]
  | cons word l ih =>
    intro n p hfit
    rw [List.length_cons] at hfit
    have hlt : offset + n < 32 := by omega
    rw [List.zipIdx_cons, List.foldl_cons, dif_pos hlt]
    obtain ⟨m, u, hrun, hmem⟩ := ih (n + 1)
      { p with
        insn := Function.update p.insn ⟨offset + n, hlt⟩ word
        insnUsed := Function.update p.insnUsed ⟨offset + n, hlt⟩ true } (by omega)
    refine ⟨m, u, hrun, fun x => ?_⟩
    obtain ⟨hm, hu⟩ := hmem x
    rw [hm, hu]
    by_cases hx : x = ⟨offset + n, hlt⟩
    · subst hx
      simp
    · have hne : x.val ≠ offset + n := fun he => hx (Fin.ext he)
      simp only [Function.update_of_ne hx]
      by_cases hle : offset + n ≤ x.val
      · have hsucc : x.val - (offset + n) = x.val - (offset + (n + 1)) + 1 := by omega
        have hle' : offset + (n + 1) ≤ x.val := by omega
        rw [if_pos hle, if_pos hle', hsucc, List.getElem?_cons_succ, List.length_cons]
        refine ⟨rfl, ?_⟩
        congr 1
        exact decide_eq_decide.mpr (by omega)
      · rw [if_neg hle, if_neg (by omega), List.length_cons]
        refine ⟨rfl, ?_⟩
        congr 1
        exact decide_eq_decide.mpr (by omega)

/-- What loading words that fit does to a block. -/
theorem load_eq (p : Pio) {offset : ℕ} {l : List Insn} (h : offset + l.length ≤ 32) :
    ∃ m u, p.load offset l = { p with insn := m, insnUsed := u } ∧
      ∀ x : Fin 32, m x = (if offset ≤ x then l[x - offset]?.getD (p.insn x) else p.insn x) ∧
        u x = (decide (offset ≤ x ∧ x < offset + l.length) || p.insnUsed x) :=
  load_from offset l 0 p h

end Pio

/-- An accepted program lies in its window, and its slots count as loaded. -/
theorem PioProgram.load_image (prog : PioProgram) (p : Pio) {offset : ℕ}
    (h : offset + prog.count ≤ 32) :
    ∃ m u, p.load offset (prog.image offset) = { p with insn := m, insnUsed := u } ∧
      ∀ a < prog.count, m (Fin.ofNat 32 (a + offset)) =
        relocate offset (prog.insns (Fin.ofNat 32 a)) ∧
        u (Fin.ofNat 32 (a + offset)) = true := by
  obtain ⟨m, u, hload, hmem⟩ := p.load_eq (l := prog.image offset) (by rw [length_image]; exact h)
  refine ⟨m, u, hload, fun a ha => ?_⟩
  have hval : (Fin.ofNat 32 (a + offset)).val = a + offset := Nat.mod_eq_of_lt (by omega)
  obtain ⟨hm, hu⟩ := hmem (Fin.ofNat 32 (a + offset))
  rw [hval, if_pos (by omega), Nat.add_sub_cancel] at hm
  rw [hval, length_image] at hu
  constructor
  · rw [hm]
    simp [image, List.getElem?_range ha]
  · rw [hu, decide_eq_true (by omega), Bool.true_or]

namespace World
variable [Platform]

/-- The contract of `pio_asm_load_program`: no access leaves an array, the result tells whether the
program is usable and fits, and a refused load changes nothing. -/
def LoadMeetsContract (w : World) (b : BlockAddr) (i : Fin 4) (offset : ℕ) (prog : PioProgram) :
    Prop :=
  ∃ accepted w', w.pioAsmLoadProgram b i offset prog = some (accepted, w') ∧
    (accepted = true ↔ prog.ok = true ∧ offset + prog.count ≤ 32 ∧
      prog.wrapBottom < prog.count ∧ prog.wrapTop < prog.count) ∧
    (accepted = false → w' = w)

section
omit [Platform]

theorem load_of_not_ok (w : World) (b : BlockAddr) (i : Fin 4) (offset : ℕ) {prog : PioProgram}
    (h : prog.ok = false) : w.pioAsmLoadProgram b i offset prog = some (false, w) := by
  simp [pioAsmLoadProgram, h]

theorem load_of_not_fits (w : World) (b : BlockAddr) (i : Fin 4) {offset : ℕ} {prog : PioProgram}
    (hc : prog.count ≤ 32) (h : prog.fits offset = false) :
    w.pioAsmLoadProgram b i offset prog = some (false, w) := by
  cases hok : prog.ok with
  | false => exact w.load_of_not_ok b i offset hok
  | true => simp [pioAsmLoadProgram, hok, PioProgram.relocated_eq_some hc, h]

theorem load_of_fits (w : World) (b : BlockAddr) (i : Fin 4) {offset : ℕ} {prog : PioProgram}
    (hok : prog.ok = true) (h : prog.fits offset = true) :
    w.pioAsmLoadProgram b i offset prog =
      some (true, (w.setBlock b ((w.blocks b).load offset (prog.image offset))).modifySm b i
        (·.startProgram offset prog)) := by
  have hc : prog.count ≤ 32 := by
    have := ((prog.fits_iff offset).mp h).1
    omega
  simp [pioAsmLoadProgram, hok, PioProgram.relocated_eq_some hc, h]

theorem load_of_long (w : World) (b : BlockAddr) (i : Fin 4) (offset : ℕ) {prog : PioProgram}
    (hok : prog.ok = true) (hc : 32 < prog.count) :
    w.pioAsmLoadProgram b i offset prog = none := by
  simp [pioAsmLoadProgram, hok, PioProgram.relocated_eq_none hc]

/-- The loader keeps its contract exactly on the programs that are marked unusable or whose `count`
is at most the size of its arrays. -/
theorem load_meets_contract_iff (w : World) (b : BlockAddr) (i : Fin 4) (offset : ℕ)
    (prog : PioProgram) :
    w.LoadMeetsContract b i offset prog ↔ (prog.ok = true → prog.count ≤ 32) := by
  constructor
  · rintro ⟨accepted, w', hload, -, -⟩ hok
    by_contra hc
    rw [w.load_of_long b i offset hok (by omega)] at hload
    cases hload
  · intro hcount
    cases hok : prog.ok with
    | false => exact ⟨false, w, w.load_of_not_ok b i offset hok, by simp [hok], fun _ => rfl⟩
    | true =>
      cases hf : prog.fits offset with
      | false =>
        refine ⟨false, w, w.load_of_not_fits b i (hcount hok) hf, ?_, fun _ => rfl⟩
        rw [← prog.fits_iff offset, hf, hok]
        simp
      | true =>
        refine ⟨true, _, w.load_of_fits b i hok hf, ?_, nofun⟩
        rw [← prog.fits_iff offset, hf, hok]
        simp

end

end World

/-- A hand-built program one word longer than the arrays. -/
def oneWordTooLong : PioProgram where
  insns := fun _ => 0
  count := 33
  sidesetBits := 0
  sidesetOpt := false
  sidesetPindirs := false
  wrapBottom := 0
  wrapTop := 0
  ok := true

/-- Loading it reads and writes past the arrays. -/
theorem World.load_leaves_arrays :
    letI : Platform := ⟨.rp2350⟩
    ¬ World.initial.LoadMeetsContract 0 0 0 oneWordTooLong := by
  let P : Platform := ⟨.rp2350⟩
  rintro ⟨accepted, w', hload, -, -⟩
  have hnone : World.initial.pioAsmLoadProgram 0 0 0 oneWordTooLong = none := rfl
  rw [hnone] at hload
  cases hload

end PioSim
