import PioSim.Asm.Layout

/-!
# The passes agree

The scan gives each label the index it has in the layout, the configuration pass sets the wrap where
its lines stand, and the emit pass writes each word where the layout has it.
-/

namespace PioSim.Asm
namespace ParseState
variable [Platform] {pass : Pass} {name : Option Text} {ps : ParseState} {seen : List (ℕ × Item)}

/-! ### The scan -/

def labelOf : ℕ × Item → Option Label
  | (k, .label name isPublic) => some { name := name, index := k, isPublic := isPublic }
  | _ => none

def targetOf : ℕ × Item → Option ℕ
  | (k, .wrapTarget) => some k
  | _ => none

def wrapOf : ℕ × Item → Option ℕ
  | (k, .wrap) => some k
  | _ => none

def labelsIn (seen : List (ℕ × Item)) : List Label := seen.filterMap labelOf

def targetsIn (seen : List (ℕ × Item)) : List ℕ := seen.filterMap targetOf

def wrapsIn (seen : List (ℕ × Item)) : List ℕ := seen.filterMap wrapOf

section
omit [Platform]

theorem filterMap_concat_none {α β : Type} {f : α → Option β} {a : α} (h : f a = none)
    (l : List α) :
    (l ++ [a]).filterMap f = l.filterMap f := by
  rw [List.filterMap_append, List.filterMap_cons_none h, List.filterMap_nil, List.append_nil]

theorem filterMap_concat_some {α β : Type} {f : α → Option β} {a : α} {b : β} (h : f a = some b)
    (l : List α) :
    (l ++ [a]).filterMap f = l.filterMap f ++ [b] := by
  rw [List.filterMap_append, List.filterMap_cons_some h, List.filterMap_nil]

/-- The labels found so far; no two symbols have the same name. -/
structure Scans (seen : List (ℕ × Item)) (ps : ParseState) : Prop where
  out : ps.ctx.out = Program.start
  labels : ps.ctx.labels = labelsIn seen
  nodup : (ps.ctx.labels.map (·.name)).Nodup
  apart : ∀ l ∈ ps.ctx.labels, ∀ d ∈ ps.ctx.defines, d.name ≠ l.name

theorem Scans.passes (h : Scans seen ps) {q : ParseState} (hctx : q.ctx = ps.ctx) {e : ℕ × Item}
    (he : labelOf e = none) : Scans (seen ++ [e]) q := by
  refine ⟨hctx ▸ h.out, ?_, hctx ▸ h.nodup, hctx ▸ h.apart⟩
  rw [hctx, h.labels]
  exact (filterMap_concat_none he seen).symm

end

theorem inStep_scans (name : Option Text) : InStep .scan name Scans where
  atLine _ _ _ h := ⟨h.out, h.labels, h.nodup, h.apart⟩
  program ps args hps h := by
    have hpass : ps.pass ≠ .config := by
      rw [hps.pass_eq]
      decide
    have hctx := programDirective_ctx hpass args
    exact ⟨hctx ▸ h.out, hctx ▸ h.labels, hctx ▸ h.nodup, hctx ▸ h.apart⟩
  define _ seen ps name expr hfree h := by
    refine ⟨h.out, h.labels, h.nodup, fun l hl d hd => ?_⟩
    rcases List.mem_append.mp hd with hd | hd
    · exact h.apart l hl d hd
    · rw [List.mem_singleton.mp hd]
      exact (findLabel_eq_none.mp hfree.label l hl).symm
  label seen ps name isPublic hps h hok := by
    have hlabelled : ps.labelled (some (name, isPublic)) = ps.declareLabel name isPublic :=
      if_pos hps.pass_eq
    rw [hlabelled] at hok ⊢
    obtain ⟨hfree, heq⟩ := declareLabel_ok hok
    rw [heq]
    refine ⟨h.out, ?_, ?_, fun l hl => ?_⟩
    · dsimp only
      rw [h.labels]
      exact (filterMap_concat_some (f := labelOf) rfl seen).symm
    · dsimp only
      rw [List.map_append, List.nodup_append]
      refine ⟨h.nodup, List.nodup_singleton _, fun a ha b hb => ?_⟩
      obtain ⟨l, hl, rfl⟩ := List.mem_map.mp ha
      rw [List.mem_singleton.mp hb]
      exact findLabel_eq_none.mp hfree.label l hl
    · rcases List.mem_append.mp hl with hl | hl
      · exact h.apart l hl
      · rw [List.mem_singleton.mp hl]
        exact defineDeclared_eq_false.mp hfree.define
  wrapTarget seen ps hps h := by
    have hobey : ps.obey .wrapTarget = (.ok, ps) := if_neg fun hconfig => by
      rw [hps.pass_eq] at hconfig
      cases hconfig.2
    rw [hobey]
    exact h.passes rfl rfl
  wrap seen ps hps h _ := by
    have hobey : ps.obey .wrap = (.ok, ps) := if_neg fun hconfig => by
      rw [hps.pass_eq] at hconfig
      cases hconfig.2
    rw [hobey]
    exact h.passes rfl rfl
  configure seen ps kind args hps h _ := by
    have hobey : ps.obey (.configure kind args) = (.ok, ps) := if_neg fun hconfig => by
      rw [hps.pass_eq] at hconfig
      cases hconfig.2
    rw [hobey]
    exact h
  data seen ps args hps h hok := by
    refine h.passes (wordDirective_ctx ?_ hok) rfl
    rw [hps.pass_eq]
    decide
  insn seen ps line hps h hok := by
    refine h.passes (handleInstruction_ctx ?_ hok) rfl
    rw [hps.pass_eq]
    decide

/-! ### The configuration pass -/

variable {t : Table} {p : Program}

/-- A directive that is accepted changes the fields of its kind. -/
theorem configDirective_modifies {ctx : AsmCtx} (hctx : ctx.Over t p) (kind : ConfigKind)
    (args : List Text)
    (hsome : (configDirective kind args ctx).1 = some ()) :
    ∃ φ, (configDirective kind args ctx).2.Over t (p.modifyPart kind φ) := by
  by_cases hkind : kind = .pioVersion
  · subst hkind
    rcases pioVersion_cases t args with hnone | ⟨v, -, -, hrun⟩
    · have hfails : (configDirective .pioVersion args ctx).1 = none := hnone ctx p hctx
      rw [hfails] at hsome
      cases hsome
    · exact ⟨_, (hrun ctx p hctx).2⟩
  · have hclass : (∀ v, v = p.effectiveVersion → v = 0) ∨ (∀ v, v = p.effectiveVersion → v ≠ 0) ∨
        ¬ Sensitive t kind args := by
      by_cases hzero : p.effectiveVersion = 0
      · exact .inl fun v hv => hv.trans hzero
      · exact .inr (.inl fun v hv hv0 => hzero (hv.symm.trans hv0))
    rcases refused_or_applies (d := (kind, args)) hkind hclass with hnone | ⟨φ, happlies⟩
    · have hfails : (configDirective kind args ctx).1 = none := hnone ctx p hctx rfl
      rw [hfails] at hsome
      cases hsome
    · exact ⟨φ, (happlies.run ctx p hctx rfl).2⟩

section
omit [Platform]

theorem modifyPart_frame (p : Program) (kind : ConfigKind) (φ : Part kind → Part kind) :
    (p.modifyPart kind φ).insns = p.insns ∧ (p.modifyPart kind φ).wrapBottom = p.wrapBottom ∧
      (p.modifyPart kind φ).wrapTop = p.wrapTop := by
  cases kind <;> exact ⟨rfl, rfl, rfl⟩

/-- What `wrapTop` says of the `.wrap` lines so far: 255 if there is none, the index in front of the
only one otherwise. -/
def WrapsAt (top : ℕ) : List ℕ → Prop
  | [] => top = 255
  | [k] => top + 1 = k ∧ k ≤ 32
  | _ => False

/-- The wrap set so far, and no word. -/
structure Configures (t : Table) (seen : List (ℕ × Item)) (ps : ParseState) : Prop where
  context : ps.ctx.Over t ps.ctx.out
  insns : ps.ctx.out.insns = fun _ => 0
  bottom : ps.ctx.out.wrapBottom = (targetsIn seen).getLastD 0
  top : WrapsAt ps.ctx.out.wrapTop (wrapsIn seen)

theorem Configures.passes (h : Configures t seen ps) {q : ParseState} (hctx : q.ctx = ps.ctx)
    {e : ℕ × Item}
    (htarget : targetOf e = none) (hwrap : wrapOf e = none) : Configures t (seen ++ [e]) q := by
  have htargets : targetsIn (seen ++ [e]) = targetsIn seen := filterMap_concat_none htarget seen
  have hwraps : wrapsIn (seen ++ [e]) = wrapsIn seen := filterMap_concat_none hwrap seen
  refine ⟨hctx ▸ h.context, hctx ▸ h.insns, ?_, ?_⟩
  · rw [hctx, htargets]
    exact h.bottom
  · rw [hctx, hwraps]
    exact h.top

theorem over_write {ctx : AsmCtx} (h : ctx.Over t p) (out : Program) :
    AsmCtx.Over t out { ctx with out := out } := ⟨h.settled.write _ _, h.table, rfl⟩

end

theorem inStep_configures (t : Table) (name : Option Text) :
    InStep .config name (Configures t) where
  atLine _ ps n h := ⟨⟨h.context.settled.write _ _, h.context.table, rfl⟩, h.insns, h.bottom, h.top⟩
  program ps args hps h := by
    rw [programDirective_eq hps.pass_eq hps.inProgram]
    cases selects ps.name args with
    | false => exact ⟨h.context, h.insns, h.bottom, h.top⟩
    | true =>
      have hnamed : (named args ps.ctx.out).insns = ps.ctx.out.insns ∧
          (named args ps.ctx.out).wrapBottom = ps.ctx.out.wrapBottom ∧
          (named args ps.ctx.out).wrapTop = ps.ctx.out.wrapTop := by
        cases args <;> exact ⟨rfl, rfl, rfl⟩
      refine ⟨over_write h.context _, hnamed.1.trans h.insns, hnamed.2.1.trans h.bottom, ?_⟩
      have htop := h.top
      rw [← hnamed.2.2] at htop
      exact htop
  define hscan := absurd hscan (by decide)
  label seen ps name isPublic hps h _ := by
    have hlabelled : ps.labelled (some (name, isPublic)) = ps :=
      if_neg (by rw [hps.pass_eq]; decide)
    rw [hlabelled]
    exact h.passes rfl rfl rfl
  wrapTarget seen ps hps h := by
    have hobey : ps.obey .wrapTarget = _ := if_pos ⟨hps.inProgram, hps.pass_eq⟩
    rw [hobey]
    have hwraps : wrapsIn (seen ++ [(ps.idx, .wrapTarget)]) = wrapsIn seen :=
      filterMap_concat_none rfl seen
    have htargets : targetsIn (seen ++ [(ps.idx, .wrapTarget)]) = targetsIn seen ++ [ps.idx] :=
      filterMap_concat_some (f := targetOf) rfl seen
    refine ⟨over_write h.context _, h.insns, ?_, ?_⟩
    · rw [htargets, List.getLastD_concat]
    · rw [hwraps]
      exact h.top
  wrap seen ps hps h hok := by
    have hobey : ps.obey .wrap = ps.wrapDirective := if_pos ⟨hps.inProgram, hps.pass_eq⟩
    rw [hobey] at hok ⊢
    have htargets : targetsIn (seen ++ [(ps.idx, .wrap)]) = targetsIn seen :=
      filterMap_concat_none rfl seen
    have hwraps : wrapsIn (seen ++ [(ps.idx, .wrap)]) = wrapsIn seen ++ [ps.idx] :=
      filterMap_concat_some (f := wrapOf) rfl seen
    unfold wrapDirective at hok ⊢
    split_ifs at hok ⊢ with hzero hagain
    · exact absurd rfl hok
    · exact absurd rfl hok
    · refine ⟨over_write h.context _, h.insns, ?_, ?_⟩
      · rw [htargets]
        exact h.bottom
      · have htop := h.top
        have hidx := hps.idx
        rw [hwraps]
        rw [not_not] at hagain
        cases hseen : wrapsIn seen with
        | nil => exact ⟨Nat.succ_pred_eq_of_ne_zero hzero, hidx⟩
        | cons k ks =>
          rw [hseen, hagain] at htop
          cases ks with
          | nil =>
            obtain ⟨hk, hle⟩ := htop
            omega
          | cons _ _ => exact htop.elim
  configure seen ps kind args hps h hok := by
    have hobey : ps.obey (.configure kind args) = _ := if_pos ⟨hps.inProgram, hps.pass_eq⟩
    rw [hobey] at hok ⊢
    have hmodifies := configDirective_modifies h.context kind args
    unfold run at hok ⊢
    generalize configDirective kind args ps.ctx = r at hmodifies hok ⊢
    obtain ⟨_ | u, ctx⟩ := r
    · exact absurd rfl hok
    obtain ⟨φ, hover⟩ := hmodifies rfl
    obtain ⟨hinsns, hbottom, htop⟩ := modifyPart_frame ps.ctx.out kind φ
    have hout : ctx.out = ps.ctx.out.modifyPart kind φ := hover.out
    rw [← hout] at hinsns hbottom htop
    refine ⟨⟨hover.settled, hover.table, rfl⟩, hinsns.trans h.insns, hbottom.trans h.bottom, ?_⟩
    change WrapsAt ctx.out.wrapTop (wrapsIn seen)
    rw [htop]
    exact h.top
  data seen ps args hps h hok := by
    refine h.passes (wordDirective_ctx ?_ hok) rfl rfl
    rw [hps.pass_eq]
    decide
  insn seen ps line hps h hok := by
    refine h.passes (handleInstruction_ctx ?_ hok) rfl rfl
    rw [hps.pass_eq]
    decide

/-! ### The emit pass -/

end ParseState

/-- Over the symbols and the configuration of the program the word is what the source says. -/
def Source.Fills [Platform] (t : Table) (p : Program) : Source → Insn → Prop
  | .insn tok, w => Assembles t p tok w
  | .data args, w => ∃ v, t.wordJoin args = some v ∧ v.toNat ≤ 0xFFFF ∧ w = v.setWidth 16

theorem Source.Fills.of_insns [Platform] {t : Table} {p : Program} {source : Source} {w : Insn}
    (h : source.Fills t p w) (insns : Fin 32 → Insn) (labels : List (Text × ℕ)) :
    source.Fills t { p with insns := insns, publicLabels := labels } w := by
  cases source with
  | insn tok => exact Assembles.of_insns h insns labels
  | data args => exact h

namespace ParseState
variable [Platform] {pass : Pass} {name : Option Text} {ps : ParseState}
    {seen : List (ℕ × Item)} {t : Table}
  {p : Program}

omit [Platform] in
theorem wordValue_yields (args : List Text) : Step.Yields t p (wordValue args) fun w =>
    ∃ v, t.wordJoin args = some v ∧ v.toNat ≤ 0xFFFF ∧ w = v.setWidth 16 :=
  .bind (.orError (.resolveUintJoin (P := fun v => t.wordJoin args = some v) fun _ hv => hv))
      fun v hv =>
    .bind (.require (P := fun _ => v.toNat ≤ 0xFFFF) fun hle => hle) fun _ hle =>
      .pure ⟨v, hv, hle, rfl⟩

/-- The words written so far, and nothing behind them. -/
structure Emits (t : Table) (p : Program) (seen : List (ℕ × Item)) (ps : ParseState) : Prop where
  context : ps.ctx.Over t { p with insns := ps.ctx.out.insns }
  words : ∀ k source, (k, Item.word source) ∈ seen → ∃ hk : k < 32, k < ps.idx ∧
    source.Fills t p (ps.ctx.out.insns ⟨k, hk⟩)
  rest : ∀ j : Fin 32, ps.idx ≤ j.val → ps.ctx.out.insns j = 0

theorem Emits.passes (h : Emits t p seen ps) {e : ℕ × Item} (he : ∀ source, e.2 ≠ .word source) :
    Emits t p (seen ++ [e]) ps := by
  refine ⟨h.context, fun k source hmem => ?_, h.rest⟩
  rcases List.mem_append.mp hmem with hmem | hmem
  · exact h.words k source hmem
  · exact absurd (congrArg Prod.snd (List.mem_singleton.mp hmem)).symm (he source)

/-- A word at the present index of a program being read. -/
theorem Emits.word (h : Emits t p seen ps) (hidx : ps.idx < 32) {source : Source} {x : Step Insn}
    (hx : x.Steady) (hfills : ∀ ctx' w, x ps.ctx = (some w, ctx') → source.Fills t p w)
    (hok : (ps.run x fun w ps => (.ok, { ps.emit w with idx := ps.idx + 1 })).1 ≠ .error) :
    Emits t p (seen ++ [(ps.idx, .word source)])
      (ps.run x fun w ps => (.ok, { ps.emit w with idx := ps.idx + 1 })).2 := by
  have hover := fun hsome => hx.over h.context hsome
  unfold run at hok ⊢
  generalize x ps.ctx = r at hover hfills hok ⊢
  obtain ⟨_ | w, ctx⟩ := r
  · exact absurd rfl hok
  have hafter := hover rfl
  have hinsns : ctx.out.insns = ps.ctx.out.insns := (congrArg Program.insns hafter.out :)
  dsimp only at hafter ⊢
  refine ⟨⟨hafter.settled.write _ _, hafter.table, ?_⟩, fun k src hmem => ?_, fun j hj => ?_⟩
  · exact congrArg (fun out : Program => { out with
      insns := fun j => if j.val = ps.idx then w else ctx.out.insns j }) hafter.out
  · rcases List.mem_append.mp hmem with hmem | hmem
    · obtain ⟨hk, hlt, hword⟩ := h.words k src hmem
      refine ⟨hk, hlt.trans (Nat.lt_succ_self _), ?_⟩
      change src.Fills t p (if k = ps.idx then w else ctx.out.insns ⟨k, hk⟩)
      rw [if_neg hlt.ne, hinsns]
      exact hword
    · obtain ⟨rfl, hsource⟩ := Prod.mk.inj (List.mem_singleton.mp hmem)
      obtain rfl := Item.word.inj hsource
      refine ⟨hidx, Nat.lt_succ_self _, ?_⟩
      change src.Fills t p (if ps.idx = ps.idx then w else _)
      rw [if_pos rfl]
      exact hfills ctx w rfl
  · change (if j.val = ps.idx then w else ctx.out.insns j) = 0
    have hj' : ps.idx + 1 ≤ j.val := hj
    rw [if_neg (by omega), hinsns]
    exact h.rest j (by omega)

theorem inStep_emits (t : Table) (p : Program) (name : Option Text) :
    InStep .emit name (Emits t p) where
  atLine _ ps n h :=
    ⟨⟨h.context.settled.write _ _, h.context.table, h.context.out⟩, h.words, h.rest⟩
  program ps args hps h := by
    have hpass : ps.pass ≠ .config := by
      rw [hps.pass_eq]
      decide
    have hctx := programDirective_ctx hpass args
    refine ⟨?_, fun k source hmem => absurd hmem List.not_mem_nil, fun j _ => ?_⟩
    · rw [hctx]
      exact h.context
    · rw [hctx]
      exact h.rest j (hps.idx.trans_le (Nat.zero_le _))
  define hscan := absurd hscan (by decide)
  label seen ps name isPublic hps h _ := by
    have hlabelled : ps.labelled (some (name, isPublic)) = ps :=
      if_neg (by rw [hps.pass_eq]; decide)
    rw [hlabelled]
    exact h.passes fun _ => Item.noConfusion
  wrapTarget seen ps hps h := by
    have hobey : ps.obey .wrapTarget = (.ok, ps) := if_neg fun hconfig => by
      rw [hps.pass_eq] at hconfig
      cases hconfig.2
    rw [hobey]
    exact h.passes fun _ => Item.noConfusion
  wrap seen ps hps h _ := by
    have hobey : ps.obey .wrap = (.ok, ps) := if_neg fun hconfig => by
      rw [hps.pass_eq] at hconfig
      cases hconfig.2
    rw [hobey]
    exact h.passes fun _ => Item.noConfusion
  configure seen ps kind args hps h _ := by
    have hobey : ps.obey (.configure kind args) = (.ok, ps) := if_neg fun hconfig => by
      rw [hps.pass_eq] at hconfig
      cases hconfig.2
    rw [hobey]
    exact h
  data seen ps args hps h hok := by
    obtain ⟨hidx, -⟩ := counts_word hok
    unfold wordDirective at hok ⊢
    rw [if_neg (Nat.not_le.mpr hidx), if_pos hps.pass_eq] at hok ⊢
    exact h.word hidx (built_wordValue args).steady
      (fun ctx' w hrun => (wordValue_yields args ps.ctx ctx' w h.context hrun).1) hok
  insn seen ps line hps h hok := by
    obtain ⟨hidx, -⟩ := counts_instruction hok
    unfold handleInstruction at hok ⊢
    rw [if_neg (Nat.not_le.mpr hidx), if_pos hps.pass_eq] at hok ⊢
    generalize tokenize line maxTokens = r at hok ⊢
    obtain ⟨tok, truncated⟩ := r
    dsimp only at hok ⊢
    split_ifs at hok ⊢
    · exact absurd rfl hok
    · exact absurd rfl hok
    · exact h.word hidx (built_assembleInsn tok).steady
        (fun ctx' w hrun => ⟨ps.ctx, _, h.context, rfl, congrArg Prod.fst hrun⟩) hok

end ParseState

/-! ### The assembly -/

section Assembly
variable [Platform] {src : Text} {name : Option Text}

open ParseState

def emitted (src : Text) (name : Option Text) : Bool × ParseState :=
  (configured src name).2.runOver .emit (listing src)

/-- All stages of an assembly are done. -/
structure Assembled (src : Text) (name : Option Text) : Prop where
  scan : (scanned src name).1 = true
  config : ((scanned src name).2.runOver .config (listing src)).1 = true
  finish : (configured src name).1 = true
  emit : (emitted src name).1 = true
  exports : (emitted src name).2.exportLabels.1 = true
  result : (pioAsmAssemble src name).2 = (emitted src name).2.exportLabels.2.ctx.out

theorem assembled (h : (pioAsmAssemble src name).1 = true) : Assembled src name := by
  rw [pioAsmAssemble_eq] at h
  unfold assembleListing at h
  obtain ⟨hscan, hstage⟩ := stages_done h
  have hrest := hstage
  rw [hstage] at h
  obtain ⟨hconfig, hstage⟩ := stages_done h
  have hrest := hrest.trans hstage
  rw [hstage] at h
  obtain ⟨hfinish, hstage⟩ := stages_done h
  have hrest := hrest.trans hstage
  rw [hstage] at h
  obtain ⟨hemit, hstage⟩ := stages_done h
  have hrest := hrest.trans hstage
  rw [hstage] at h
  obtain ⟨hexport, hstage⟩ := stages_done h
  have hrest := hrest.trans hstage
  refine ⟨hscan, hconfig, hfinish, hemit, hexport, ?_⟩
  rw [pioAsmAssemble_eq]
  unfold assembleListing
  dsimp only
  rw [hrest]
  rfl

/-- A pass from the start of a listing comes to the items of the program. -/
theorem inStep_runOver {pass : Pass} {Q : List (ℕ × Item) → ParseState → Prop}
    (h : InStep pass name Q)
    (ps : ParseState) {lines : List Line} (hname : ps.name = name)
    (hQ : Q [] { ps.plain with pass := pass, inProgram := false, seenAnyProgram := false, idx := 0 })
    (hdone : (ps.runOver pass lines).1 = true) :
    let items := itemsOf (selectedLines name lines)
    (ps.runOver pass lines).2.idx = wordCount items ∧
        Q (placed 0 items) (ps.runOver pass lines).2 :=
  h.runBefore lines 1 _ ⟨rfl, hname, rfl, rfl⟩ hQ hdone

section
omit [Platform]

theorem finishConfig_done {ps : ParseState} (h : ps.finishConfig.1 = true) :
    ps.idx ≠ 0 ∧ ps.finishConfig.2 =
    { ps with ctx := { ps.ctx with out := { ps.ctx.out with
        count := ps.idx
        wrapTop := if ps.ctx.out.wrapTop = 255 then ps.idx - 1 else ps.ctx.out.wrapTop } } } := by
  unfold finishConfig at h ⊢
  dsimp only at h ⊢
  by_cases hzero : ps.idx = 0
  · rw [if_pos hzero] at h
    cases h
  rw [if_neg hzero] at h ⊢
  refine ⟨hzero, ?_⟩
  split
  · rename_i hbottom
    rw [if_pos hbottom] at h
    cases h
  · rfl

theorem mem_labelsIn {seen : List (ℕ × Item)} {l : Label} :
    l ∈ labelsIn seen ↔ (l.index, Item.label l.name l.isPublic) ∈ seen := by
  rw [labelsIn, List.mem_filterMap]
  constructor
  · rintro ⟨⟨k, i⟩, hmem, hl⟩
    cases i with
    | label n isPublic =>
      obtain rfl := Option.some.inj hl
      exact hmem
    | _ => cases hl
  · exact fun hmem => ⟨_, hmem, rfl⟩

structure LaidOut (t : Table) (p : Program) (items : List Item) : Prop where
  count : p.count = wordCount items
  words : ∀ k source, (k, Item.word source) ∈ placed 0 items → ∃ hk : k < 32, k < p.count ∧
    source.Fills t p (p.insns ⟨k, hk⟩)
  rest : ∀ j : Fin 32, p.count ≤ j.val → p.insns j = 0
  labels : ∀ k name isPublic, (k, Item.label name isPublic) ∈ placed 0 items →
    ∀ (ctx : AsmCtx) (fuel : ℕ), ctx.table = t → (AsmCtx.lookSymbol (fuel + 1) ctx name).1 =
      some (BitVec.ofNat 32 k)
  exported : ∀ name k, (name, k) ∈ p.publicLabels ↔ (k, Item.label name true) ∈ placed 0 items
  wrapBottom : p.wrapBottom = (targetsIn (placed 0 items)).getLastD 0
  wrapTop : ∀ k, (k, Item.wrap) ∈ placed 0 items → p.wrapTop + 1 = k
  noWrap : (∀ k, (k, Item.wrap) ∉ placed 0 items) → p.wrapTop + 1 = p.count

/-- A label is looked up in the table alone. -/
theorem ParseState.Scans.lookSymbol {seen : List (ℕ × Item)} {ps : ParseState}
    (h : Scans seen ps) {l : Label}
    (hl : l ∈ labelsIn seen) {ctx : AsmCtx} (hctx : ctx.table = ps.ctx.table) (fuel : ℕ) :
    (AsmCtx.lookSymbol (fuel + 1) ctx l.name).1 = some (BitVec.ofNat 32 l.index) := by
  rw [← h.labels] at hl
  have hdefine : ctx.findDefine l.name = none := by
    have htext := AsmCtx.table_text ctx l.name
    have hnone : ps.ctx.findDefine l.name = none :=
      List.find?_eq_none.mpr fun d hd => by simpa using h.apart l hl d hd
    rw [hctx, AsmCtx.table_text, hnone] at htext
    exact Option.map_eq_none_iff.mp htext.symm
  have hlabel : (ctx.findLabel l.name).map (BitVec.ofNat 32) = some (BitVec.ofNat 32 l.index) := by
    have hfind : ps.ctx.labels.find? (·.name = l.name) = some l := by
      cases hfound : ps.ctx.labels.find? (·.name = l.name) with
      | none =>
        have hmiss := List.find?_eq_none.mp hfound l hl
        simp at hmiss
      | some l' =>
        have hname : l'.name = l.name := by simpa using List.find?_some hfound
        exact congrArg some
          (List.inj_on_of_nodup_map h.nodup (List.mem_of_find?_eq_some hfound) hl hname)
    rw [← AsmCtx.table_label, hctx, AsmCtx.table_label, AsmCtx.findLabel, hfind]
    rfl
  rw [AsmCtx.lookSymbol, hdefine]
  exact hlabel

/-- The wrap of a program whose configuration is done. -/
theorem ParseState.WrapsAt.finish {top count : ℕ} {seen : List (ℕ × Item)}
    (h : WrapsAt top (wrapsIn seen)) (hcount : count ≠ 0) :
    let top' := if top = 255 then count - 1 else top
    (∀ k, (k, Item.wrap) ∈ seen → top' + 1 = k) ∧
        ((∀ k, (k, Item.wrap) ∉ seen) → top' + 1 = count) := by
  have hmem : ∀ k, (k, Item.wrap) ∈ seen → k ∈ wrapsIn seen :=
    fun k hk => List.mem_filterMap.mpr ⟨_, hk, rfl⟩
  have hback : ∀ k ∈ wrapsIn seen, (k, Item.wrap) ∈ seen := by
    intro k hk
    obtain ⟨⟨k', i⟩, hseen, hwrap⟩ := List.mem_filterMap.mp hk
    cases i with
    | wrap =>
      obtain rfl := Option.some.inj hwrap
      exact hseen
    | _ => cases hwrap
  dsimp only
  cases hwraps : wrapsIn seen with
  | nil =>
    rw [hwraps] at h hmem
    refine ⟨fun k hk => absurd (hmem k hk) List.not_mem_nil, fun _ => ?_⟩
    rw [if_pos (show top = 255 from h)]
    omega
  | cons k ks =>
    rw [hwraps] at h hmem hback
    cases ks with
    | nil =>
      obtain ⟨htop, hle⟩ := h
      rw [if_neg (by omega)]
      refine ⟨fun k' hk' => ?_, fun hnone => absurd (hback k List.mem_cons_self) (hnone k)⟩
      rw [List.mem_singleton.mp (hmem k' hk')]
      exact htop
    | cons _ _ => exact h.elim

end

/-- A source that assembles is laid out as the items of its selected program stand. -/
theorem laidOut (h : (pioAsmAssemble src name).1 = true) :
    LaidOut (symbols src name) (pioAsmAssemble src name).2 (programItems src name) := by
  obtain ⟨hscan, hconfig, hfinish, hemit, hexport, hresult⟩ := assembled h
  obtain ⟨hover, -, hname⟩ := scanned_over src name
  obtain ⟨-, hscans⟩ := inStep_runOver (inStep_scans name) (ParseState.start name) rfl
    ⟨rfl, rfl, List.nodup_nil, fun l hl => absurd hl List.not_mem_nil⟩ hscan
  have hstart : Configures (symbols src name) [] { (scanned src name).2.plain with
      pass := .config, inProgram := false, seenAnyProgram := false, idx := 0 } := by
    have hout : (scanned src name).2.ctx.out = Program.start := hscans.out
    refine ⟨hover, ?_, ?_, ?_⟩
    all_goals
      dsimp only [plain, mark]
      rw [hout]
      rfl
  obtain ⟨hcount, hconfigures⟩ := inStep_runOver (inStep_configures _ name) _ hname hstart hconfig
  obtain ⟨hzero, hfinished⟩ := finishConfig_done hfinish
  have hfinished : (configured src name).2 = _ := hfinished
  have hout : (configured src name).2.ctx.out = _ :=
    congrArg (fun ps : ParseState => ps.ctx.out) hfinished
  have hconfigured : (configured src name).2.name = name := by
    rw [hfinished]
    exact (name_runOver _ .config _).trans hname
  have hfilled : Emits (symbols src name) (configured src name).2.ctx.out []
      { (configured src name).2.plain with
        pass := .emit, inProgram := false, seenAnyProgram := false, idx := 0 } := by
    refine ⟨?_, fun k source hmem => absurd hmem List.not_mem_nil, fun j _ => ?_⟩
    · dsimp only [plain, mark]
      rw [hfinished]
      exact over_write hconfigures.context _
    · dsimp only [plain, mark]
      rw [hout]
      exact congrFun hconfigures.insns j
  obtain ⟨hidx, hemits⟩ := inStep_runOver (inStep_emits _ _ name) _ hconfigured hfilled hemit
  have hlabels : (emitted src name).2.ctx.labels = labelsIn (placed 0 (programItems src name)) :=
    (congrArg Table.labels hemits.context.table).trans hscans.labels
  have hprogram : (pioAsmAssemble src name).2 = _ := hresult.trans (exportLabels_done hexport)
  have hemitted : (emitted src name).2.ctx.out = _ := hemits.context.out
  rw [hlabels, hemitted] at hprogram
  have hwraps := WrapsAt.finish hconfigures.top hzero
  have hsize : (configured src name).2.ctx.out.count = wordCount (programItems src name) := by
    rw [hout]
    exact hcount
  rw [hprogram]
  refine ⟨hsize, fun k source hmem => ?_, fun j hj => ?_,
    fun k label isPublic hmem ctx fuel hctx => ?_, fun label k => ?_, ?_, ?_, ?_⟩
  · obtain ⟨hk, hlt, hfills⟩ := hemits.words k source hmem
    refine ⟨hk, ?_, hfills.of_insns _ _⟩
    rw [hidx] at hlt
    exact hlt.trans_eq hsize.symm
  · refine hemits.rest j ?_
    rw [hidx]
    exact hsize.symm.le.trans hj
  · exact hscans.lookSymbol (l := ⟨label, k, isPublic⟩) (mem_labelsIn.mpr hmem) hctx fuel
  · dsimp only
    rw [List.mem_map]
    constructor
    · rintro ⟨l, hl, hpair⟩
      obtain ⟨rfl, rfl⟩ := Prod.mk.inj hpair
      obtain ⟨hl, hpublic⟩ := List.mem_filter.mp hl
      have hmem := mem_labelsIn.mp hl
      rw [hpublic] at hmem
      exact hmem
    · intro hmem
      exact ⟨⟨label, k, true⟩, List.mem_filter.mpr ⟨mem_labelsIn.mpr hmem, rfl⟩, rfl⟩
  · dsimp only
    rw [hout]
    exact hconfigures.bottom
  · dsimp only
    rw [hout]
    exact hwraps.1
  · dsimp only
    rw [hout]
    exact hwraps.2

end Assembly

end PioSim.Asm
