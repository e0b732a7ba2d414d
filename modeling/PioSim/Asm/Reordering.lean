import PioSim.Asm.Memo
import PioSim.Asm.Order
import Mathlib.Data.List.Forall2
import Mathlib.Data.List.Nodup

/-!
# Programs whose directives are rearranged

The passes over two arrangements of one program, put together: the scan is the same, the
configuration pass ends alike unless the version decides otherwise, and what follows sees the table
and the program only.
-/

namespace PioSim.Asm

open ParseState

section Version
variable [Platform] {V : ℕ → Prop} {t : Table} {p : Program} {d : ConfigKind × List Text}
    {ps q q' : ParseState}

/-! ### The body of the program -/

omit [Platform] in
theorem mem_directives {lines : List Line} :
    d ∈ directives lines ↔ ∃ l ∈ lines, directiveOf l = some d :=
  List.mem_filterMap

/-- A directive that is an error for every version there may be ends the pass. -/
theorem runListing_refused {body : List Line} (h : Inside V t ps)
    (hprogram : ∀ l ∈ body, programArgs l = none)
    (hkeeps : ∀ d ∈ directives body, KeepsVersion V t d) (hd : d ∈ directives body)
    (hrefused : Refused V t d) (n : ℕ) (post : List Line) :
    (runListing n ps (body ++ post)).1 = false := by
  obtain ⟨l, hl, hdirective⟩ := mem_directives.mp hd
  obtain ⟨pre, rest, rfl⟩ := List.append_of_mem hl
  have hpre : ∀ d ∈ directives pre, KeepsVersion V t d := by
    intro d hd
    refine hkeeps d ?_
    rw [directives, List.filterMap_append]
    exact List.mem_append_left _ hd
  rw [List.append_assoc, List.cons_append]
  rcases runListing_reaches pre n ps h
      (fun l hl => hprogram l (List.mem_append_left _ hl)) hpre with
    hfail | ⟨q, hq, hrun⟩
  · exact hfail _
  · rw [hrun]
    obtain ⟨p, hover, -, hV⟩ := (hq.atLine (n + pre.length)).layers
    exact runListing_refuses hdirective hq.pass hq.inProgram _ _ (hrefused _ p hover hV)

/-- Behind the program its state stays, but for the line. -/
theorem runListing_post {post : List Line}
    (hpost : post = [] ∨ ∃ l rest args, post = l :: rest ∧ programArgs l = some args) :
    (∀ n ps, ps.inProgram = true → ps.seenAnyProgram = true → runListing n ps post = (true, ps)) ∨
      ∀ n ps, ps.inProgram = true → ps.seenAnyProgram = true →
        runListing n ps post = (true, ps.atLine n) := by
  rcases hpost with rfl | ⟨l, rest, args, rfl, hargs⟩
  · exact .inl fun _ _ _ _ => rfl
  · refine .inr fun n ps hin hseen => ?_
    obtain ⟨w, hw, hprogram⟩ := Option.bind_eq_some_iff.mp hargs
    obtain ⟨line, rfl, hdot, htok⟩ := directiveWords_eq_some hw
    rw [runListing, if_neg (not_blank hdot)]
    have hyes : ieq w.1 ".program".toList = true := by
      by_contra hno
      rw [if_neg hno] at hprogram
      cases hprogram
    have hline : (ps.atLine n).handleCode line = (.done, ps.atLine n) := by
      unfold handleCode handleDirective
      rw [if_pos hdot, htok]
      dsimp only
      rw [if_neg Bool.false_ne_true, if_pos hyes]
      unfold programDirective
      rw [if_pos (by rw [Bool.and_eq_true]; exact ⟨hseen, hin⟩)]
    rw [hline]

section
omit [Platform]

theorem skeleton_replaces {body body' : List Line} (h : List.Forall₂ Replaces body body') :
    body.map skeleton = body'.map skeleton := by
  induction h with
  | nil => rfl
  | cons hl _ ih =>
    rw [List.map_cons, List.map_cons, ih]
    rcases hl with rfl | ⟨hl, hl'⟩
    · rfl
    · rw [skeleton, skeleton, if_pos hl, if_pos hl']

theorem programArgs_replaces {body body' : List Line} (h : List.Forall₂ Replaces body body')
    (hprogram : ∀ l ∈ body, programArgs l = none) : ∀ l ∈ body', programArgs l = none := by
  induction h with
  | nil => exact hprogram
  | cons hl _ ih =>
    intro l hmem
    rcases List.mem_cons.mp hmem with rfl | hmem
    · rcases hl with rfl | ⟨-, hl'⟩
      · exact hprogram _ List.mem_cons_self
      · exact programArgs_of_directive hl'
    · exact ih (fun l hl => hprogram l (List.mem_cons_of_mem _ hl)) l hmem

/-- Changes of different kinds, in any order. -/
theorem foldl_declare_perm {φs : (d : ConfigKind × List Text) → Part d.1 → Part d.1}
    {ds ds' : List (ConfigKind × List Text)} (hkinds : (ds.map Prod.fst).Nodup)
    (hperm : ds.Perm ds') (p : Program) : ds.foldl (declare φs) p = ds'.foldl (declare φs) p := by
  refine hperm.foldl_eq' (fun d hd d' hd' p => ?_) p
  by_cases hsame : d = d'
  · rw [hsame]
  · exact Program.modifyPart_comm (fun hk => hsame (List.inj_on_of_nodup_map hkinds hd hd' hk)) _ _

end

/-- Rearranged directives: neither the outcome nor the program depends on the order, where each
directive is an error or always does the same. -/
theorem twin_body {body body' post : List Line} (h : Inside V t ps)
    (hprogram : ∀ l ∈ body, programArgs l = none)
    (hkinds : ((directives body).map Prod.fst).Nodup) (hlines : List.Forall₂ Replaces body body')
    (hperm : (directives body).Perm (directives body'))
    (hpost : post = [] ∨ ∃ l rest args, post = l :: rest ∧ programArgs l = some args)
    (hclass : ∀ d ∈ directives body, Refused V t d ∨ ∃ φ, Applies V t d φ) (n : ℕ) :
    TwinPasses (runListing n ps (body ++ post)) (runListing n ps (body' ++ post)) := by
  have hprogram' := programArgs_replaces hlines hprogram
  have hkeeps : ∀ d ∈ directives body, KeepsVersion V t d := by
    intro d hd
    rcases hclass d hd with hrefused | ⟨φ, happlies⟩
    · intro ctx p hctx hp hsome
      rw [hrefused ctx p hctx hp] at hsome
      cases hsome
    · exact happlies.keeps
  by_cases hrefused : ∃ d ∈ directives body, Refused V t d
  · obtain ⟨d, hd, hrefused⟩ := hrefused
    have hfail := runListing_refused h hprogram hkeeps hd hrefused n post
    have hfail' := runListing_refused h hprogram' (fun d hd => hkeeps d (hperm.mem_iff.mpr hd))
      (hperm.mem_iff.mp hd) hrefused n post
    exact ⟨hfail.trans hfail'.symm, fun htrue => absurd (hfail.symm.trans htrue) Bool.false_ne_true⟩
  have happly : ∀ d : ConfigKind × List Text, ∃ φ, d ∈ directives body → Applies V t d φ := by
    intro d
    by_cases hd : d ∈ directives body
    · obtain ⟨φ, hφ⟩ := (hclass d hd).resolve_left fun hno => hrefused ⟨d, hd, hno⟩
      exact ⟨φ, fun _ => hφ⟩
    · exact ⟨id, fun hyes => absurd hyes hd⟩
  choose φs hφs using happly
  have hlength := hlines.length_eq
  have hends : ∀ (r : Bool × ParseState) q, r.1 = false → r = (true, q) → False := by
    rintro _ q hfalse rfl
    cases hfalse
  rcases runListing_layers body n id ps ps neutral_id h hprogram hφs with hfail
    | ⟨b, q, hq, hrun⟩ <;>
  rcases runListing_layers body' n id ps ps neutral_id h hprogram'
    (fun d hd => hφs d (hperm.mem_iff.mpr hd)) with hfail' | ⟨b', q', hq', hrun'⟩
  · have hboth := (hfail post).2.trans (hfail' post).2.symm
    exact ⟨hboth, fun htrue => absurd ((hfail post).2.symm.trans htrue) Bool.false_ne_true⟩
  · rw [skeleton_replaces hlines] at hfail
    exact (hends _ _ (hfail []).1 (hrun' []).1).elim
  · rw [skeleton_replaces hlines] at hrun
    exact (hends _ _ (hfail' []).1 (hrun []).1).elim
  · have hsame : b' = b := by
      have hskeleton := (hrun []).1
      rw [skeleton_replaces hlines, (hrun' []).1] at hskeleton
      exact congrArg Prod.snd hskeleton
    subst hsame
    have htwin : Twin t ((directives body).foldl (declare φs) b'.ctx.out) q q' := by
      obtain ⟨p, hleft, hright, -⟩ := hq.layers
      obtain ⟨p', hleft', hright', -⟩ := hq'.layers
      obtain rfl := hleft.out
      obtain rfl := hleft'.out
      refine ⟨hright, ?_, ?_⟩
      · rw [foldl_declare_perm hkinds hperm]
        exact hright'
      · rw [hq'.rest, hq.rest]
    have hin : q.inProgram = true := by
      rw [hq.rest]
      exact hq.inProgram
    have hseen : q.seenAnyProgram = true := by
      rw [hq.rest]
      exact hq.seen
    have hin' : q'.inProgram = true := by
      rw [htwin.rest]
      exact hin
    have hseen' : q'.seenAnyProgram = true := by
      rw [htwin.rest]
      exact hseen
    rw [(hrun post).2, (hrun' post).2]
    rcases runListing_post hpost with hstay | hstay
    · rw [hstay _ q hin hseen, hstay _ q' hin' hseen']
      exact ⟨rfl, fun _ => ⟨t, _, htwin⟩⟩
    · rw [hstay _ q hin hseen, hstay _ q' hin' hseen', ← hlength]
      exact ⟨rfl, fun _ => ⟨t, _, htwin.atLine _⟩⟩

/-! ### Version 0 in front of what it does not have -/

theorem keeps_any (d : ConfigKind × List Text) : KeepsVersion (fun _ => True) t d := by
  obtain ⟨k, args⟩ := d
  by_cases hk : k = .pioVersion
  · subst hk
    have hcases : Refused (fun _ => True) t (.pioVersion, args) ∨
        ∃ φ, Applies (fun _ => True) t (.pioVersion, args) φ :=
      refused_or_applies_version fun _ _ _ => trivial
    rcases hcases with hrefused | ⟨φ, happlies⟩
    · intro ctx p hctx hp hsome
      rw [hrefused ctx p hctx hp] at hsome
      cases hsome
    · exact happlies.keeps
  · exact keeps_of_ne hk

omit [Platform] in
theorem directives_append (l l' : List Line) :
    directives (l ++ l') = directives l ++ directives l' :=
  List.filterMap_append

/-- Behind a `.pio_version` of 0 a sensitive directive is an error. -/
theorem runListing_gated {pre mid rest : List Line} {lv ls : Line} {args : List Text}
    (h : Inside (fun _ => True) t ps)
    (hprogram : ∀ l ∈ pre ++ lv :: (mid ++ ls :: rest), programArgs l = none)
    (hkinds : ((directives (pre ++ lv :: (mid ++ ls :: rest))).map Prod.fst).Nodup)
    (hlv : directiveOf lv = some (.pioVersion, args)) (hv : declaredVersion t args = some 0)
    (hls : directiveOf ls = some d) (hsensitive : Sensitive t d.1 d.2) (n : ℕ) (post : List Line) :
    (runListing n ps (pre ++ lv :: (mid ++ ls :: rest) ++ post)).1 = false := by
  have hlines : pre ++ lv :: (mid ++ ls :: rest) ++ post =
      pre ++ lv :: (mid ++ [ls] ++ (rest ++ post)) := by
    simp only [List.append_assoc, List.cons_append, List.nil_append]
  rw [hlines]
  rcases runListing_reaches pre n ps h (fun l hl => hprogram l (List.mem_append_left _ hl))
    (fun d _ => keeps_any d) with hfail | ⟨q, hq, hrun⟩
  · exact hfail _
  rw [hrun]
  obtain ⟨p, hover, -, -⟩ := (hq.atLine (n + pre.length)).layers
  rcases pioVersion_cases t args with hnone | ⟨v, hdeclared, hbuild, hsome⟩
  · exact runListing_refuses hlv hq.pass hq.inProgram _ _ (hnone _ p hover)
  rw [hv] at hdeclared
  obtain rfl := Option.some.inj hdeclared
  obtain ⟨hdone, hafter⟩ := hsome _ p hover
  rw [runListing_configures hlv hq.pass hq.inProgram _ _ hdone]
  -- from here on the version of the program is 0
  have hzero : Inside (fun v => v = 0) t { q.atLine (n + pre.length) with
      ctx := (configDirective .pioVersion args (q.atLine (n + pre.length)).ctx).2 } :=
    ⟨hq.pass, hq.inProgram, hq.seen, ⟨_, hafter, hafter, rfl⟩, rfl⟩
  have hne : ∀ d ∈ directives (mid ++ [ls]), d.1 ≠ .pioVersion := by
    intro d hd hk
    have hrest : d ∈ directives (mid ++ ls :: rest) := by
      rw [← List.singleton_append, ← List.append_assoc, directives_append]
      exact List.mem_append_left _ hd
    rw [directives_append, directives_cons, hlv, List.map_append] at hkinds
    have htail := (List.nodup_append.mp hkinds).2.1
    exact (List.nodup_cons.mp htail).1 (List.mem_map.mpr ⟨d, hrest, hk⟩)
  have hsub : ∀ l ∈ mid ++ [ls], programArgs l = none := by
    intro l hl
    refine hprogram l (List.mem_append_right _ (List.mem_cons_of_mem _ ?_))
    rw [← List.singleton_append, ← List.append_assoc]
    exact List.mem_append_left _ hl
  have hmem : d ∈ directives (mid ++ [ls]) := by
    rw [directives_append, directives_cons, hls]
    exact List.mem_append_right _ List.mem_cons_self
  exact runListing_refused hzero hsub (fun d hd => keeps_of_ne (hne d hd)) hmem
    (fun ctx p hctx hp => configDirective_sensitive hsensitive hctx hp) _ _

/-! ### Up to the program -/

/-- In the configuration pass outside the program of the name, over the table and the program. -/
structure Outside (name : Option Text) (t : Table) (p : Program) (ps : ParseState) : Prop where
  pass : ps.pass = .config
  inProgram : ps.inProgram = false
  name : ps.name = name
  context : ps.ctx.Over t p

def named (args : List Text) (out : Program) : Program :=
  match args with
  | s :: _ => { out with name := s.take 31 }
  | [] => out

omit [Platform] in
theorem programDirective_eq (hpass : ps.pass = .config) (hin : ps.inProgram = false)
    (args : List Text) :
    ps.programDirective args = (.ok, { ps with
      ctx := if selects ps.name args then { ps.ctx with out := named args ps.ctx.out } else ps.ctx
      seenAnyProgram := true, inProgram := selects ps.name args, idx := 0 }) := by
  unfold programDirective selects
  rw [hin, Bool.and_false, if_neg Bool.false_ne_true, hpass]
  dsimp only
  rw [decide_eq_true rfl]
  simp only [Bool.and_true]
  cases ps.name with
  | none => cases args <;> rfl
  | some name =>
    cases args with
    | nil => rfl
    | cons s rest => rfl

/-- A line in front of the program changes the line number at most. -/
theorem Outside.handleCode {name : Option Text} (h : Outside name t p ps) {line : Text}
    (hselects : ∀ args, programArgs (.code line) = some args → selects name args = false) :
    (ps.handleCode line).1 = .error ∨
      (ps.handleCode line).1 = .ok ∧ Outside name t p (ps.handleCode line).2 := by
  obtain ⟨hpass, hin, hname, hover⟩ := h
  have hok : Outside name t p ps := ⟨hpass, hin, hname, hover⟩
  unfold ParseState.handleCode
  split
  · rename_i hdot
    unfold handleDirective
    cases htok : tokenize line maxTokens with
    | mk tok truncated =>
    dsimp only
    split
    · exact .inl rfl
    rename_i htruncated
    obtain rfl := (Bool.not_eq_true _).mp htruncated
    cases tok with
    | nil => exact .inr ⟨rfl, hok⟩
    | cons s args =>
      dsimp only
      split
      · rename_i hyes
        have hargs : programArgs (.code line) = some args := by
          rw [programArgs, directiveWords_code hdot htok, Option.bind_some, if_pos hyes]
        have hnot : selects ps.name args = false := hname ▸ hselects args hargs
        rw [programDirective_eq hpass hin, hnot]
        exact .inr ⟨rfl, hpass, rfl, hname, hover⟩
      split
      · rw [if_neg (by rw [hpass]; exact Pass.noConfusion)]
        exact .inr ⟨rfl, hok⟩
      · rw [hin]
        exact .inr ⟨rfl, hok⟩
  · rw [hin]
    exact .inr ⟨rfl, hok⟩

omit [Platform] in
theorem Outside.atLine {name : Option Text} (h : Outside name t p ps) (n : ℕ) :
    Outside name t p (ps.atLine n) :=
  ⟨h.pass, h.inProgram, h.name, ⟨h.context.settled.write _ _, h.context.table, h.context.out⟩⟩

/-- The lines in front of the program. -/
theorem runListing_outside {name : Option Text} : ∀ (outside : List Line) (n : ℕ) (ps : ParseState),
    Outside name t p ps →
      (∀ l ∈ outside, ∀ args, programArgs l = some args → selects name args = false) →
      (∀ rest, (runListing n ps (outside ++ rest)).1 = false) ∨
      ∃ q, Outside name t p q ∧
        ∀ rest, runListing n ps (outside ++ rest) = runListing (n + outside.length) q rest := by
  intro outside
  induction outside with
  | nil => exact fun n ps h _ => .inr ⟨ps, h, fun _ => rfl⟩
  | cons l outside ih =>
    intro n ps h hselects
    have hnext := h.atLine n
    have hselects' : ∀ l ∈ outside, ∀ args, programArgs l = some args → selects name args = false :=
      fun l hl => hselects l (List.mem_cons_of_mem _ hl)
    have hlength : n + (l :: outside).length = n + 1 + outside.length := by
      rw [List.length_cons]
      omega
    rw [hlength]
    simp only [List.cons_append]
    cases l with
    | verbatim =>
      simp only [runListing]
      exact ih (n + 1) _ hnext hselects'
    | code line =>
      simp only [runListing]
      by_cases hblank : line = [] ∨ line.head? = some '%'
      · simp only [if_pos hblank]
        exact ih (n + 1) _ hnext hselects'
      · simp only [if_neg hblank]
        have hline := hnext.handleCode (hselects _ List.mem_cons_self)
        generalize (ps.atLine n).handleCode line = r at hline ⊢
        obtain ⟨result, q⟩ := r
        rcases hline with rfl | ⟨rfl, hq⟩
        · exact .inl fun _ => rfl
        · exact ih (n + 1) q hq hselects'

/-- The `.program` that is selected. -/
theorem runListing_opening {name : Option Text} (h : Outside name t p ps) {opening : Line}
    {args : List Text}
    (hopening : programArgs opening = some args) (hselects : selects name args = true) (n : ℕ) :
    ∃ q p', p'.pioVersion = p.pioVersion ∧ q.pass = .config ∧ q.inProgram = true ∧
      q.seenAnyProgram = true ∧ q.ctx.Over t p' ∧
      ∀ rest, runListing n ps (opening :: rest) = runListing (n + 1) q rest := by
  obtain ⟨w, hw, hprogram⟩ := Option.bind_eq_some_iff.mp hopening
  obtain ⟨line, rfl, hdot, htok⟩ := directiveWords_eq_some hw
  have hyes : ieq w.1 ".program".toList = true := by
    by_contra hno
    rw [if_neg hno] at hprogram
    cases hprogram
  rw [if_pos hyes] at hprogram
  obtain rfl := Option.some.inj hprogram
  have hnext := h.atLine n
  have hline : (ps.atLine n).handleCode line = (ps.atLine n).programDirective w.2 := by
    unfold ParseState.handleCode handleDirective
    rw [if_pos hdot, htok]
    dsimp only
    rw [if_neg Bool.false_ne_true, if_pos hyes]
  rw [programDirective_eq hnext.pass hnext.inProgram, hnext.name, hselects, if_pos rfl] at hline
  refine ⟨{ ps.atLine n with
      ctx := { (ps.atLine n).ctx with out := named w.2 (ps.atLine n).ctx.out }
      name := name, seenAnyProgram := true, inProgram := true, idx := 0 }, named w.2 p, ?_,
        hnext.pass, rfl, rfl,
    ⟨hnext.context.settled.write _ _, hnext.context.table, ?_⟩, fun rest => ?_⟩
  · cases w.2 <;> rfl
  · rw [← hnext.context.out]
  · rw [runListing, if_neg (not_blank hdot), hline]

/-! ### The assembly -/

omit [Platform] in
theorem twin_stages {f g : ParseState → Bool × ParseState}
    {fs gs : List (ParseState → Bool × ParseState)}
    {ps ps' : ParseState} (hfirst : TwinPasses (f ps) (g ps'))
    (hrest : ∀ t p q q', Twin t p q q' → TwinPasses (q.stages fs) (q'.stages gs)) :
    TwinPasses (ps.stages (f :: fs)) (ps'.stages (g :: gs)) := by
  rw [stages, stages]
  generalize f ps = r at hfirst ⊢
  generalize g ps' = r' at hfirst ⊢
  obtain ⟨success, q⟩ := r
  obtain ⟨success', q'⟩ := r'
  obtain ⟨rfl, htwin⟩ := hfirst
  cases success with
  | false => exact ⟨rfl, fun hfalse => absurd hfalse Bool.false_ne_true⟩
  | true =>
    obtain ⟨t, p, h⟩ := htwin rfl
    exact hrest t p q q' h

/-- Behind the configuration pass two arrangements end alike. -/
theorem twin_finish {lines lines' : List Line} (hlines : List.Forall₂ Replaces lines lines')
    {ps ps' : ParseState}
    (h : Twin t p ps ps') :
    TwinPasses (ps.stages [finishConfig, fun ps => ps.runOver .emit lines, exportLabels])
      (ps'.stages [finishConfig, fun ps => ps.runOver .emit lines', exportLabels]) := by
  refine twin_stages (twin_finishConfig h) fun t p q q' h => ?_
  have hemit : q'.runOver .emit lines' = q'.runOver .emit lines :=
    (runListing_replaces hlines 1 _ Pass.noConfusion).symm
  refine twin_stages ?_ fun t p q q' h => ?_
  · rw [hemit]
    exact twin_runOver h lines
  · exact twin_stages (twin_exportLabels h) fun t p q q' h => ⟨rfl, fun _ => ⟨t, p, h⟩⟩

def scanned (src : Text) (name : Option Text) : Bool × ParseState :=
  (ParseState.start name).runOver .scan (listing src)

omit [Platform] in
theorem carried_unversioned :
    Carried .scan (fun ctx => ctx.out.pioVersion = none) fun ctx => ctx.out.pioVersion = none where
  left _ h := h
  line _ _ h := h
  error _ _ _ h := h
  error_left _ _ _ h := h
  write hpass := absurd rfl hpass
  resolveUint hpass := absurd rfl hpass
  define _ ctx name expr ctx' hctx h := by
    unfold AsmCtx.declareDefine at hctx
    split_ifs at hctx
    rw [← Option.some.inj hctx]
    exact h
  label _ _ _ h := h

/-- The scan leaves a settled context, with no version declared. -/
theorem scanned_over (src : Text) (name : Option Text) :
    (scanned src name).2.ctx.Over (scanned src name).2.ctx.table (scanned src name).2.ctx.out ∧
      (scanned src name).2.ctx.out.pioVersion = none ∧ (scanned src name).2.name = name := by
  have hagree := (agree_runPass .scan src (ParseState.start name)).2
  have hctx : (scanned src name).2.ctx = ((ParseState.start name).runPass .scan src).2.ctx :=
    (congrArg ParseState.ctx hagree).symm
  have hname : (scanned src name).2.name = ((ParseState.start name).runPass .scan src).2.name :=
    (congrArg ParseState.name hagree).symm
  have hfresh : (ParseState.start name).ctx.Fresh :=
    ⟨fun d hd => absurd hd List.not_mem_nil, rfl, rfl⟩
  have hscan := (AsmCtx.carried_fresh.runPass hfresh src).1
  have hstart : (ParseState.start name).ctx.out.pioVersion = none := rfl
  rw [hctx, hname, Carried.name_runPass]
  exact ⟨(AsmCtx.Reached.scanned _ hscan.defines).settled.over,
    (carried_unversioned.runPass hstart src).1, rfl⟩

/-- On a build of version 1 or later the directives declare version 0, and one of them is a
directive that a program of version 0 does not have. -/
structure Gated (t : Table) (ds : List (ConfigKind × List Text)) : Prop where
  build : 1 ≤ buildVersion
  old : ∃ args, (ConfigKind.pioVersion, args) ∈ ds ∧ declaredVersion t args = some 0
  sensitive : ∃ d ∈ ds, Sensitive t d.1 d.2

/-- Otherwise the versions there can be form a class in which each directive always does the
same. -/
theorem class_of_not_gated {ds : List (ConfigKind × List Text)} (h : ¬ Gated t ds)
    (hp : p.pioVersion = none) :
    ∃ V : ℕ → Prop, V p.effectiveVersion ∧ ∀ d ∈ ds, Refused V t d ∨ ∃ φ, Applies V t d φ := by
  have hversion : p.effectiveVersion = buildVersion := by
    rw [Program.effectiveVersion, hp]
    rfl
  have hsplit : ∀ V : ℕ → Prop,
      (∀ d ∈ ds, (∀ v, V v → v = 0) ∨ (∀ v, V v → v ≠ 0) ∨ ¬ Sensitive t d.1 d.2) →
      (∀ args v, (ConfigKind.pioVersion, args) ∈ ds → declaredVersion t args = some v →
        v ≤ buildVersion → V v) →
      ∀ d ∈ ds, Refused V t d ∨ ∃ φ, Applies V t d φ := by
    intro V hother hdeclared d hd
    obtain ⟨k, args⟩ := d
    by_cases hk : k = .pioVersion
    · subst hk
      exact refused_or_applies_version fun v => hdeclared args v hd
    · exact refused_or_applies hk (hother _ hd)
  by_cases hbuild : 1 ≤ buildVersion
  · by_cases hold : ∃ args, (ConfigKind.pioVersion, args) ∈ ds ∧ declaredVersion t args = some 0
    · refine ⟨fun _ => True, trivial, hsplit _ (fun d hd => .inr (.inr fun hsensitive => ?_))
        fun _ _ _ _ _ => trivial⟩
      exact h ⟨hbuild, hold, d, hd, hsensitive⟩
    · refine ⟨fun v => v ≠ 0, ?_, hsplit _ (fun _ _ => .inr (.inl fun v hv => hv)) ?_⟩
      · rw [hversion]
        omega
      · rintro args v hd hv - rfl
        exact hold ⟨args, hd, hv⟩
  · refine ⟨fun v => v = 0, ?_, hsplit _ (fun _ _ => .inl fun v hv => hv) ?_⟩
    · rw [hversion]
      omega
    · intro args v _ _ hle
      omega

/-- The configuration pass up to the first line of the program. -/
theorem runOver_config {name : Option Text} {lines outside body post : List Line} {opening : Line}
    (h : Divides name lines outside opening body post) (hover : ps.ctx.Over t p)
    (hname : ps.name = name) :
    (∀ body', (ps.runOver .config (outside ++ opening :: (body' ++ post))).1 = false) ∨
      ∃ n q, ∃ p' : Program, p'.pioVersion = p.pioVersion ∧
        (∀ V : ℕ → Prop, V p'.effectiveVersion → Inside V t q) ∧
        ∀ body', ps.runOver .config (outside ++ opening :: (body' ++ post)) =
          runListing n q (body' ++ post) := by
  unfold runOver
  have hstart : Outside name t p { ps.plain with
      pass := .config, inProgram := false, seenAnyProgram := false, idx := 0 } :=
        ⟨rfl, rfl, hname, hover⟩
  rcases runListing_outside outside 1 _ hstart h.selection.outside with hfail | ⟨q, hq, hrun⟩
  · exact .inl fun body' => hfail _
  · obtain ⟨args, hargs, hselects⟩ := h.selection.opening
    obtain ⟨q', p', hversion, hpass, hin, hseen, hover', hrun'⟩ :=
      runListing_opening hq hargs hselects (1 + outside.length)
    refine .inr ⟨1 + outside.length + 1, q', p', hversion,
      fun V hV => ⟨hpass, hin, hseen, ⟨p', hover', hover', hV⟩, rfl⟩, ?_⟩
    intro body'
    rw [hrun, hrun']

omit [Platform] in
theorem replaces_refl (lines : List Line) : List.Forall₂ Replaces lines lines :=
  List.forall₂_same.mpr fun _ _ => .inl rfl

omit [Platform] in
/-- The lines of an arrangement, one by one. -/
theorem replaces_lines (outside post : List Line) (opening : Line) {body body' : List Line}
    (h : List.Forall₂ Replaces body body') :
    List.Forall₂ Replaces (outside ++ opening :: (body ++ post))
    (outside ++ opening :: (body' ++ post)) :=
  List.rel_append (replaces_refl outside)
    (.cons (.inl rfl) (List.rel_append h (replaces_refl post)))

theorem runOver_scan {src : Text} {name : Option Text} {lines' : List Line}
    (h : List.Forall₂ Replaces (listing src) lines') :
    (ParseState.start name).runOver .scan lines' = scanned src name :=
  (runListing_replaces h 1 _ Pass.noConfusion).symm

/-- Where the version does not decide, an arrangement is accepted as the source is, with the same
program. -/
theorem assembleListing_rearranged {src : Text} {name : Option Text}
    {outside body body' post : List Line}
    {opening : Line} (h : Divides name (listing src) outside opening body post)
    (hlines : List.Forall₂ Replaces body body') (hperm : (directives body).Perm (directives body'))
    (hgated : ¬ Gated (scanned src name).2.ctx.table (directives body)) :
    let r := pioAsmAssemble src name
    let r' := assembleListing (outside ++ opening :: (body' ++ post)) name
    r'.1 = r.1 ∧ (r.1 = true → r'.2 = r.2) := by
  have hreplaces := replaces_lines outside post opening hlines
  rw [← h.lines] at hreplaces
  obtain ⟨hover, hversion, hname⟩ := scanned_over src name
  rw [pioAsmAssemble_eq]
  unfold assembleListing
  dsimp only
  rw [stages, stages, runOver_scan hreplaces,
    show (ParseState.start name).runOver .scan (listing src) =
    scanned src name from rfl]
  generalize scanned src name = r at hover hversion hname hgated ⊢
  obtain ⟨success, ps⟩ := r
  cases success with
  | false => exact ⟨rfl, fun _ => rfl⟩
  | true =>
    have htwin : TwinPasses
        (ps.stages [fun ps => ps.runOver .config (listing src), finishConfig,
          fun ps => ps.runOver .emit (listing src), exportLabels])
        (ps.stages [fun ps => ps.runOver .config (outside ++ opening :: (body' ++ post)),
          finishConfig, fun ps => ps.runOver .emit (outside ++ opening :: (body' ++ post)),
          exportLabels]) := by
      refine twin_stages ?_ fun t p q q' htwin => twin_finish hreplaces htwin
      rw [h.lines]
      rcases runOver_config h hover hname with hfail | ⟨n, q, p', hp', hinside, hrun⟩
      · exact ⟨(hfail body).trans (hfail body').symm,
          fun htrue => absurd ((hfail body).symm.trans htrue) Bool.false_ne_true⟩
      · obtain ⟨V, hV, hclass⟩ := class_of_not_gated hgated (hp'.trans hversion)
        rw [hrun, hrun]
        exact twin_body (hinside V hV) h.selection.body h.kinds hlines hperm
          h.selection.post hclass n
    refine ⟨htwin.1.symm, fun htrue => ?_⟩
    obtain ⟨t, p, hends⟩ := htwin.2 htrue
    exact hends.right.out.trans hends.left.out.symm

/-- An arrangement with the version in front of what it does not have is rejected. -/
theorem assembleListing_gated (src : Text) {name : Option Text}
    {outside pre mid rest post : List Line}
    {opening lv ls : Line} {args : List Text}
    (h : Divides name (outside ++ opening :: (pre ++ lv :: (mid ++ ls :: rest) ++ post))
      outside opening
      (pre ++ lv :: (mid ++ ls :: rest)) post)
    (hreplaces : List.Forall₂ Replaces (listing src)
      (outside ++ opening :: (pre ++ lv :: (mid ++ ls :: rest) ++ post)))
    (hlv : directiveOf lv = some (.pioVersion, args))
    (hv : declaredVersion (scanned src name).2.ctx.table args = some 0)
    (hls : directiveOf ls = some d)
    (hsensitive : Sensitive (scanned src name).2.ctx.table d.1 d.2) :
    (assembleListing (outside ++ opening :: (pre ++ lv :: (mid ++ ls :: rest) ++ post)) name).1 =
      false := by
  obtain ⟨hover, hversion, hname⟩ := scanned_over src name
  unfold assembleListing
  dsimp only
  rw [stages, runOver_scan hreplaces]
  generalize scanned src name = r at hover hversion hname hv hsensitive ⊢
  obtain ⟨success, ps⟩ := r
  cases success with
  | false => rfl
  | true =>
    dsimp only
    rw [stages]
    have hconfig : (ps.runOver .config
        (outside ++ opening :: (pre ++ lv :: (mid ++ ls :: rest) ++ post))).1 = false := by
      rcases runOver_config h hover hname with hfail | ⟨n, q, p', -, hinside, hrun⟩
      · exact hfail _
      · rw [hrun]
        exact runListing_gated (hinside _ trivial) h.selection.body h.kinds hlv hv hls
          hsensitive n post
    generalize ps.runOver .config
      (outside ++ opening :: (pre ++ lv :: (mid ++ ls :: rest) ++ post)) = r
      at hconfig ⊢
    obtain ⟨success, q⟩ := r
    obtain rfl : success = false := hconfig
    rfl

section
omit [Platform]

theorem append_of_mem_pair {α : Type} {a b : α} {l : List α} (ha : a ∈ l) (hb : b ∈ l)
    (hne : a ≠ b) :
    (∃ pre mid rest, l = pre ++ a :: (mid ++ b :: rest)) ∨
      ∃ pre mid rest, l = pre ++ b :: (mid ++ a :: rest) := by
  obtain ⟨pre, rest, rfl⟩ := List.append_of_mem ha
  rcases List.mem_append.mp hb with hb | hb
  · obtain ⟨pre, mid, rfl⟩ := List.append_of_mem hb
    exact .inr ⟨pre, mid, rest, by rw [List.append_assoc, List.cons_append]⟩
  · rcases List.mem_cons.mp hb with rfl | hb
    · exact absurd rfl hne
    · obtain ⟨mid, rest, rfl⟩ := List.append_of_mem hb
      exact .inl ⟨pre, mid, rest, rfl⟩

theorem perm_exchange {α : Type} (a b : α) (pre mid rest : List α) :
    (pre ++ b :: (mid ++ a :: rest)).Perm (pre ++ a :: (mid ++ b :: rest)) := by
  refine List.Perm.append_left pre ?_
  have hleft : (b :: (mid ++ a :: rest)).Perm (b :: a :: (mid ++ rest)) := .cons b List.perm_middle
  have hright : (a :: (mid ++ b :: rest)).Perm (a :: b :: (mid ++ rest)) := .cons a List.perm_middle
  exact (hleft.trans (.swap a b _)).trans hright.symm

theorem replaces_exchange {l l' : Line} (h : (directiveOf l).isSome = true)
    (h' : (directiveOf l').isSome = true)
    (pre mid rest : List Line) :
    List.Forall₂ Replaces (pre ++ l' :: (mid ++ l :: rest)) (pre ++ l :: (mid ++ l' :: rest)) :=
  List.rel_append (replaces_refl pre) (.cons (.inr ⟨h', h⟩)
    (List.rel_append (replaces_refl mid) (.cons (.inr ⟨h, h'⟩) (replaces_refl rest))))

end

/-- A program the version decides about has an arrangement that is rejected. -/
theorem exists_rejected {src : Text} {name : Option Text} {outside body post : List Line}
    {opening : Line}
    (h : Divides name (listing src) outside opening body post)
    (hgated : Gated (scanned src name).2.ctx.table (directives body)) :
    ∃ lines', Rearranged name (listing src) lines' ∧ (assembleListing lines' name).1 = false := by
  obtain ⟨args, hold, hv⟩ := hgated.old
  obtain ⟨d, hd, hsensitive⟩ := hgated.sensitive
  obtain ⟨lv, hlvmem, hlv⟩ := mem_directives.mp hold
  obtain ⟨ls, hlsmem, hls⟩ := mem_directives.mp hd
  have hne : lv ≠ ls := by
    rintro rfl
    rw [hlv] at hls
    rw [← Option.some.inj hls] at hsensitive
    exact hsensitive
  rcases append_of_mem_pair hlvmem hlsmem hne with ⟨pre, mid, rest, rfl⟩ | ⟨pre, mid, rest, rfl⟩
  · refine ⟨listing src, ⟨outside, opening, _, _, post, h, h.lines, replaces_refl _, .refl _⟩, ?_⟩
    have hdivides := h
    rw [h.lines] at hdivides
    have hrejected := assembleListing_gated src hdivides (by rw [← h.lines]; exact replaces_refl _)
      hlv hv hls hsensitive
    rwa [← h.lines] at hrejected
  · have hlines :=
      replaces_exchange (by rw [hlv]; rfl) (by rw [hls]; rfl : (directiveOf ls).isSome = true)
      pre mid rest
    have hperm : (directives (pre ++ ls :: (mid ++ lv :: rest))).Perm
        (directives (pre ++ lv :: (mid ++ ls :: rest))) :=
          (perm_exchange lv ls pre mid rest).filterMap _
    refine ⟨_, ⟨outside, opening, _, _, post, h, rfl, hlines, hperm⟩, ?_⟩
    have hreplaces := replaces_lines outside post opening hlines
    rw [← h.lines] at hreplaces
    have hdivides :
      Divides name (outside ++ opening :: (pre ++ lv :: (mid ++ ls :: rest) ++ post)) outside
        opening (pre ++ lv :: (mid ++ ls :: rest)) post :=
      ⟨⟨h.selection.outside, h.selection.opening, programArgs_replaces hlines h.selection.body,
        h.selection.post⟩, rfl, ((hperm.map Prod.fst).nodup_iff).mp h.kinds⟩
    exact assembleListing_gated src hdivides hreplaces hlv hv hls hsensitive

/-- The version decides about the source: its program, with directives of different kinds, declares
version 0 and has a directive that version 0 does not know. -/
def GatedSource (src : Text) (name : Option Text) : Prop :=
  ∃ outside opening body post, Divides name (listing src) outside opening body post ∧
    Gated (scanned src name).2.ctx.table (directives body)

/-- The order of the configuration directives matters neither to the acceptance nor to the program
exactly when the version does not decide about the source, or no order is accepted. -/
theorem directives_in_any_order (src : Text) (name : Option Text) :
    let r := pioAsmAssemble src name
    (∀ lines', Rearranged name (listing src) lines' →
      (assembleListing lines' name).1 = r.1 ∧
        (r.1 = true → (assembleListing lines' name).2 = r.2)) ↔
    ¬ GatedSource src name ∨
      ∀ lines', Rearranged name (listing src) lines' → (assembleListing lines' name).1 = false := by
  dsimp only
  constructor
  · intro hsame
    by_cases hgated : GatedSource src name
    · right
      intro lines' hlines'
      obtain ⟨outside, opening, body, post, hdivides, hgated⟩ := hgated
      obtain ⟨rejected, hrearranged, hfalse⟩ := exists_rejected hdivides hgated
      rw [(hsame lines' hlines').1, ← (hsame rejected hrearranged).1, hfalse]
    · exact .inl hgated
  · rintro (hgated | hnone) lines'
      ⟨outside, opening, body, body', post, hdivides, rfl, hlines, hperm⟩
    · exact assembleListing_rearranged hdivides hlines hperm fun hyes =>
        hgated ⟨outside, opening, body, post, hdivides, hyes⟩
    · have hself : Rearranged name (listing src) (listing src) :=
        ⟨outside, opening, body, body, post, hdivides, hdivides.lines, replaces_refl _, .refl _⟩
      have hsrc := hnone _ hself
      rw [← pioAsmAssemble_eq] at hsrc
      rw [hnone _ ⟨outside, opening, body, body', post, hdivides, rfl, hlines, hperm⟩, hsrc]
      exact ⟨rfl, fun htrue => absurd htrue Bool.false_ne_true⟩

omit [Platform] in
/-- A FIFO mode of version 1 in front of a `.pio_version` of 0, and behind it. -/
theorem fifo_before_its_version :
    letI : Platform := ⟨.rp2350⟩
    let src := ['.', 'p', 'r', 'o', 'g', 'r', 'a', 'm', ' ', 'p', '\n', '.', 'f', 'i', 'f', 'o',
      ' ', 'p', 'u', 't', 'g', 'e', 't', '\n', '.', 'p', 'i', 'o', '_', 'v', 'e', 'r', 's', 'i',
      'o', 'n', ' ', '0', '\n', 'n', 'o', 'p']
    let src' := ['.', 'p', 'r', 'o', 'g', 'r', 'a', 'm', ' ', 'p', '\n', '.', 'p', 'i', 'o', '_',
      'v', 'e', 'r', 's', 'i', 'o', 'n', ' ', '0', '\n', '.', 'f', 'i', 'f', 'o', ' ', 'p', 'u',
      't', 'g', 'e', 't', '\n', 'n', 'o', 'p']
    Rearranged none (listing src) (listing src') ∧ (pioAsmAssemble src none).1 = true ∧
      (pioAsmAssemble src' none).1 = false := by
  let P : Platform := ⟨.rp2350⟩
  refine ⟨⟨[], .code ['.', 'p', 'r', 'o', 'g', 'r', 'a', 'm', ' ', 'p'],
    [.code ['.', 'f', 'i', 'f', 'o', ' ', 'p', 'u', 't', 'g', 'e', 't'],
      .code ['.', 'p', 'i', 'o', '_', 'v', 'e', 'r', 's', 'i', 'o', 'n', ' ', '0'],
        .code ['n', 'o', 'p']],
    [.code ['.', 'p', 'i', 'o', '_', 'v', 'e', 'r', 's', 'i', 'o', 'n', ' ', '0'],
      .code ['.', 'f', 'i', 'f', 'o', ' ', 'p', 'u', 't', 'g', 'e', 't'], .code ['n', 'o', 'p']],
        [],
    ⟨⟨fun l hl => absurd hl List.not_mem_nil, ⟨[['p']], by decide +kernel, rfl⟩,
      by decide +kernel, .inl rfl⟩, by decide +kernel, by decide +kernel⟩, by
      decide +kernel, ?_, ?_⟩, by decide +kernel, by decide +kernel⟩
  · exact .cons (.inr (by decide +kernel))
      (.cons (.inr (by decide +kernel)) (.cons (.inl rfl) .nil))
  · exact (List.Perm.swap _ _ []).trans (.refl _)

end Version

end PioSim.Asm
