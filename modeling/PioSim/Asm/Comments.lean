import PioSim.Asm.Extent
import PioSim.Asm.Whitespace

/-!
# Comments replaced by blanks

The lines of a source with its comments replaced by blanks: a comment at the end of a line, one
inside a line, and one over several lines. As long as the buffer of a line loses nothing of it, a
pass reads the same.
-/

namespace PioSim.Asm

def opensComment : Text → Bool
  | ';' :: _ => true
  | '/' :: '/' :: _ => true
  | '/' :: '*' :: _ => true
  | _ => false

def closesComment : Text → Bool
  | '*' :: '/' :: _ => true
  | _ => false

/-- The second text is a line with its comments replaced by blanks and other runs of blanks in place
of those it has. The line is read inside or outside a comment, and ends inside or outside one. -/
inductive Respaced : Bool → Text → Text → Bool → Prop
  | done : Respaced false [] [] false
  | keep {c : Char} {s s' : Text} {b : Bool} (hc : opensComment (c :: s) = false)
  (h : Respaced false s s' b) :
    Respaced false (c :: s) (c :: s') b
  | blanks {u v s s' : Text} {b : Bool} (hu : ∀ c ∈ u, isBlank c = true)
  (hv : ∀ c ∈ v, isBlank c = true)
    (hu' : u ≠ []) (hv' : v ≠ []) (h : Respaced false s s' b) : Respaced false (u ++ s) (v ++ s') b
  | semicolon (s : Text) {v : Text} (hv : ∀ c ∈ v, isTrimmed c = true) :
  Respaced false (';' :: s) v false
  | slashes (s : Text) {v : Text} (hv : ∀ c ∈ v, isTrimmed c = true) :
  Respaced false ('/' :: '/' :: s) v false
  | opened {s s' : Text} {b : Bool} (h : Respaced true s s' b) :
  Respaced false ('/' :: '*' :: s) s' b
  | inside {c : Char} {s s' : Text} {b : Bool} (hc : closesComment (c :: s) = false)
  (h : Respaced true s s' b) :
    Respaced true (c :: s) s' b
  | closed {v s s' : Text} {b : Bool} (hv : ∀ c ∈ v, isBlank c = true) (hv' : v ≠ [])
  (h : Respaced false s s' b) :
    Respaced true ('*' :: '/' :: s) (v ++ s') b
  | unclosed {v : Text} (hv : ∀ c ∈ v, isTrimmed c = true) : Respaced true [] v true

/-! ### One line -/

/-- Texts that differ in blanks, up to what is trimmed at their ends. -/
def Spaced (x y : Text) : Prop := ∃ a u a' u', x = a ++ u ∧ y = a' ++ u' ∧ Alike a a' ∧
  (∀ c ∈ u, isTrimmed c = true) ∧ ∀ c ∈ u', isTrimmed c = true

theorem spaced_tail {u v : Text} (hu : ∀ c ∈ u, isTrimmed c = true)
    (hv : ∀ c ∈ v, isTrimmed c = true) :
    Spaced u v := ⟨[], u, [], v, rfl, rfl, .nil, hu, hv⟩

theorem Spaced.keep {x y : Text} (c : Char) (h : Spaced x y) : Spaced (c :: x) (c :: y) := by
  obtain ⟨a, u, a', u', rfl, rfl, ha, hu, hu'⟩ := h
  exact ⟨c :: a, u, c :: a', u', rfl, rfl, .keep c ha, hu, hu'⟩

theorem Spaced.blanks {x y p v : Text} (hp : ∀ c ∈ p, isBlank c = true)
    (hv : ∀ c ∈ v, isBlank c = true)
    (hp' : p ≠ []) (hv' : v ≠ []) (h : Spaced x y) : Spaced (p ++ x) (v ++ y) := by
  obtain ⟨a, u, a', u', rfl, rfl, ha, hu, hu'⟩ := h
  exact ⟨p ++ a, u, v ++ a', u', (List.append_assoc _ _ _).symm, (List.append_assoc _ _ _).symm,
    .blanks hp hv hp' hv' ha, hu, hu'⟩

def trimmed (s : Text) : Text := ((s.dropWhile isTrimmed).reverse.dropWhile isTrimmed).reverse

theorem cleanLine_eq (line : Text) : cleanLine line = trimmed (cutComment line) := rfl

theorem trimmed_append_right {u : Text} (hu : ∀ c ∈ u, isTrimmed c = true) (a : Text) :
    trimmed (a ++ u) = trimmed a := by
  unfold trimmed
  rw [List.dropWhile_append]
  split
  · rename_i hnil
    rw [List.isEmpty_iff.mp hnil, List.dropWhile_eq_nil_iff.mpr hu]
  · rw [List.reverse_append, List.dropWhile_append_of_pos fun c hc => hu c (List.mem_reverse.mp hc)]

theorem trimmed_append_left {p : Text} (hp : ∀ c ∈ p, isTrimmed c = true) (a : Text) :
    trimmed (p ++ a) = trimmed a := by
  unfold trimmed
  rw [List.dropWhile_append_of_pos hp]

theorem Alike.trimmed {a a' : Text} (h : Alike a a') : Alike (trimmed a) (trimmed a') :=
  ((h.dropWhile fun _ => isTrimmed_of_isBlank).reverse.dropWhile
    fun _ => isTrimmed_of_isBlank).reverse

theorem Spaced.trimmed {x y : Text} (h : Spaced x y) : Alike (trimmed x) (trimmed y) := by
  obtain ⟨a, u, a', u', rfl, rfl, ha, hu, hu'⟩ := h
  rw [trimmed_append_right hu, trimmed_append_right hu']
  exact ha.trimmed

/-! ### What the code makes of it -/

theorem stripBlockComments_cons {c : Char} {s : Text} (h : opensComment (c :: s) = false) :
    stripBlockComments false (c :: s) =
      (c :: (stripBlockComments false s).1, (stripBlockComments false s).2) := by
  unfold opensComment at h
  conv_lhs => unfold stripBlockComments
  split <;> simp_all

theorem stripBlockComments_inside {c : Char} {s : Text} (h : closesComment (c :: s) = false) :
    stripBlockComments true (c :: s) =
      (' ' :: (stripBlockComments true s).1, (stripBlockComments true s).2) := by
  unfold closesComment at h
  conv_lhs => unfold stripBlockComments
  split <;> simp_all

theorem head_stripBlockComments {s : Text} (h : (stripBlockComments false s).1.head? = some '/') :
    s.head? = some '/' := by
  unfold stripBlockComments at h
  split at h <;> simp_all

theorem cutComment_cons {c : Char} {x : Text} (hc : c ≠ ';') (h : c = '/' → x.head? ≠ some '/') :
    cutComment (c :: x) = c :: cutComment x := by
  conv_lhs => unfold cutComment
  split <;> simp_all

theorem ne_of_isTrimmed {c : Char} (h : isTrimmed c = true) : c ≠ ';' ∧ c ≠ '/' ∧ c ≠ '*' := by
  refine ⟨?_, ?_, ?_⟩ <;> rintro rfl <;> cases h

theorem opensComment_eq_false {c : Char} {s : Text} (hc : c ≠ ';') (hc' : c ≠ '/') :
    opensComment (c :: s) = false := by
  unfold opensComment
  split <;> simp_all

theorem stripBlockComments_append {u : Text} (hu : ∀ c ∈ u, isTrimmed c = true) (s : Text) :
    stripBlockComments false (u ++ s) =
      (u ++ (stripBlockComments false s).1, (stripBlockComments false s).2) := by
  induction u with
  | nil => rfl
  | cons c u ih =>
    obtain ⟨hsemicolon, hslash, -⟩ := ne_of_isTrimmed (hu c List.mem_cons_self)
    rw [List.cons_append, stripBlockComments_cons (opensComment_eq_false hsemicolon hslash),
      ih fun c hc => hu c (List.mem_cons_of_mem _ hc)]
    rfl

theorem cutComment_append {u : Text} (hu : ∀ c ∈ u, isTrimmed c = true) (s : Text) :
    cutComment (u ++ s) = u ++ cutComment s := by
  induction u with
  | nil => rfl
  | cons c u ih =>
    obtain ⟨hsemicolon, hslash, -⟩ := ne_of_isTrimmed (hu c List.mem_cons_self)
    rw [List.cons_append, cutComment_cons hsemicolon fun hc => absurd hc hslash,
      ih fun c hc => hu c (List.mem_cons_of_mem _ hc)]
    rfl

namespace Respaced
variable {b b' : Bool} {l l' : Text}

/-- The code makes blanks of the comments. -/
theorem strips (h : Respaced b l l' b') : (stripBlockComments b l).2 = b' ∧
    ∀ p : Text, (∀ c ∈ p, isBlank c = true) → (p = [] ↔ b = false) →
      Spaced (p ++ cutComment (stripBlockComments b l).1) l' := by
  have hblank : ∀ {u : Text}, (∀ c ∈ u, isBlank c = true) → ∀ c ∈ u, isTrimmed c = true :=
    fun hu c hc => isTrimmed_of_isBlank (hu c hc)
  have hnone : ∀ {u : Text}, u = [] → ∀ c ∈ u, isTrimmed c = true := by
    rintro _ rfl c hc
    cases hc
  induction h with
  | done =>
    refine ⟨rfl, fun p _ hp => ?_⟩
    rw [hp.mpr rfl]
    exact spaced_tail (hnone rfl) (hnone rfl)
  | @keep c s s' b hc _ ih =>
    rw [stripBlockComments_cons hc]
    refine ⟨ih.1, fun p _ hp => ?_⟩
    have hsemicolon : c ≠ ';' := by
      rintro rfl
      cases hc
    have hslash : c = '/' → (stripBlockComments false s).1.head? ≠ some '/' := by
      rintro rfl hhead
      obtain ⟨t, rfl⟩ : ∃ t, s = '/' :: t :=
        List.head?_eq_some_iff.mp (head_stripBlockComments hhead)
      cases hc
    rw [hp.mpr rfl, cutComment_cons hsemicolon hslash]
    exact (ih.2 [] (fun c hc => absurd hc List.not_mem_nil) (iff_of_true rfl rfl)).keep c
  | @blanks u v s s' b hu hv hu' hv' _ ih =>
    rw [stripBlockComments_append (hblank hu)]
    refine ⟨ih.1, fun p _ hp => ?_⟩
    rw [hp.mpr rfl, cutComment_append (hblank hu), List.nil_append]
    exact (ih.2 [] (fun c hc => absurd hc List.not_mem_nil) (iff_of_true rfl rfl)).blanks
      hu hv hu' hv'
  | semicolon s hv =>
    refine ⟨rfl, fun p _ hp => ?_⟩
    rw [hp.mpr rfl]
    exact spaced_tail (hnone rfl) hv
  | slashes s hv =>
    refine ⟨rfl, fun p _ hp => ?_⟩
    rw [hp.mpr rfl]
    exact spaced_tail (hnone rfl) hv
  | @opened s s' b _ ih =>
    refine ⟨ih.1, fun p _ hp => ?_⟩
    rw [hp.mpr rfl]
    exact ih.2 [' ', ' '] (by decide) (by decide)
  | @inside c s s' b hc _ ih =>
    rw [stripBlockComments_inside hc]
    refine ⟨ih.1, fun p hp _ => ?_⟩
    rw [cutComment_cons (by decide) fun h => absurd h (by decide), List.append_cons]
    exact ih.2 (p ++ [' ']) (List.forall_mem_append.mpr ⟨hp, by decide⟩) (by simp)
  | @closed v s s' b hv hv' _ ih =>
    refine ⟨ih.1, fun p hp hp' => ?_⟩
    have hstrip : cutComment (stripBlockComments true ('*' :: '/' :: s)).1 =
        [' ', ' '] ++ cutComment (stripBlockComments false s).1 :=
      cutComment_append (u := [' ', ' ']) (by decide) _
    rw [hstrip, ← List.append_assoc]
    exact (ih.2 [] (fun c hc => absurd hc List.not_mem_nil) (iff_of_true rfl rfl)).blanks
      (List.forall_mem_append.mpr ⟨hp, by decide⟩) hv (by simp) hv'
  | unclosed hv =>
    refine ⟨rfl, fun p hp _ => ?_⟩
    rw [show cutComment (stripBlockComments true []).1 = [] from rfl, List.append_nil]
    exact spaced_tail (hblank hp) hv

/-- What the line starts with now is a blank, or what it started with. -/
theorem head (h : Respaced b l l' b') {d : Char} (hd : l'.head? = some d) :
    isTrimmed d = true ∨ b = false ∧ l.head? = some d := by
  have hfirst : ∀ {v s : Text}, (∀ c ∈ v, isBlank c = true) → v ≠ [] → (v ++ s).head? = some d →
      isTrimmed d = true := by
    intro v s hv hv' hd
    cases v with
    | nil => exact absurd rfl hv'
    | cons c v =>
      obtain rfl := Option.some.inj hd
      exact isTrimmed_of_isBlank (hv c List.mem_cons_self)
  induction h with
  | done => cases hd
  | keep => exact .inr ⟨rfl, hd⟩
  | blanks _ hv _ hv' => exact .inl (hfirst hv hv' hd)
  | semicolon _ hv => exact .inl (hv d (List.mem_of_mem_head? hd))
  | slashes _ hv => exact .inl (hv d (List.mem_of_mem_head? hd))
  | opened _ ih => exact .inl ((ih hd).resolve_right fun h => Bool.noConfusion h.1)
  | inside _ _ ih => exact .inl ((ih hd).resolve_right fun h => Bool.noConfusion h.1)
  | closed hv hv' => exact .inl (hfirst hv hv' hd)
  | unclosed hv => exact .inl (hv d (List.mem_of_mem_head? hd))

/-- The line has no comments any more. -/
theorem plain (h : Respaced b l l' b') : stripBlockComments false l' = (l', false) ∧
    cutComment l' = l' := by
  have hends : ∀ {v : Text}, (∀ c ∈ v, isTrimmed c = true) →
      stripBlockComments false v = (v, false) ∧ cutComment v = v := by
    intro v hv
    have hstrip := stripBlockComments_append hv []
    have hcut := cutComment_append hv []
    rw [List.append_nil] at hstrip hcut
    rw [hstrip, hcut, show stripBlockComments false [] = ([], false) from rfl,
      show cutComment [] = [] from rfl, List.append_nil]
    exact ⟨rfl, rfl⟩
  have hfront : ∀ {v s : Text}, (∀ c ∈ v, isBlank c = true) →
    stripBlockComments false s = (s, false) ∧ cutComment s = s →
      stripBlockComments false (v ++ s) = (v ++ s, false) ∧ cutComment (v ++ s) = v ++ s := by
    intro v s hv hs
    rw [stripBlockComments_append fun c hc => isTrimmed_of_isBlank (hv c hc), hs.1,
      cutComment_append fun c hc => isTrimmed_of_isBlank (hv c hc), hs.2]
    exact ⟨rfl, rfl⟩
  induction h with
  | done => exact ⟨rfl, rfl⟩
  | @keep c s s' b hc h ih =>
    have hsemicolon : c ≠ ';' := by
      rintro rfl
      cases hc
    have hhead : c = '/' → s'.head? ≠ some '/' ∧ s'.head? ≠ some '*' := by
      rintro rfl
      refine ⟨fun hd => ?_, fun hd => ?_⟩
      · rcases h.head hd with hblank | ⟨-, hs⟩
        · cases hblank
        · obtain ⟨t, rfl⟩ := List.head?_eq_some_iff.mp hs
          cases hc
      · rcases h.head hd with hblank | ⟨-, hs⟩
        · cases hblank
        · obtain ⟨t, rfl⟩ := List.head?_eq_some_iff.mp hs
          cases hc
    have hnext : opensComment (c :: s') = false := by
      unfold opensComment
      split <;> simp_all
    rw [stripBlockComments_cons hnext, ih.1,
      cutComment_cons hsemicolon fun hslash => (hhead hslash).1, ih.2]
    exact ⟨rfl, rfl⟩
  | blanks _ hv _ _ _ ih => exact hfront hv ih
  | semicolon _ hv => exact hends hv
  | slashes _ hv => exact hends hv
  | opened _ ih => exact ih
  | inside _ _ ih => exact ih
  | closed hv _ _ ih => exact hfront hv ih
  | unclosed hv => exact hends hv

end Respaced

/-- Of a line a pass reads the same. -/
theorem Respaced.cleanLine {b b' : Bool} {l l' : Text} (h : Respaced b l l' b') :
    Alike (cleanLine (stripBlockComments b l).1) (cleanLine l') := by
  rw [cleanLine_eq, cleanLine_eq, h.plain.2]
  cases b with
  | false =>
    have hspaced := h.strips.2 [] (fun c hc => absurd hc List.not_mem_nil) (iff_of_true rfl rfl)
    exact hspaced.trimmed
  | true =>
    have hspaced := h.strips.2 [' '] (by decide) (by decide)
    have htrimmed := hspaced.trimmed
    rwa [trimmed_append_left (by decide)] at htrimmed

/-! ### A source -/

/-- The lines of a source with the comments outside verbatim blocks replaced by blanks. The lines
are read inside or outside a verbatim block, and inside or outside a comment. -/
inductive RespacedLines : Bool → Bool → List Text → List Text → Prop
  | nil (inVerbatim inBlock : Bool) : RespacedLines inVerbatim inBlock [] []
  | verbatim (physical : Text) {inBlock : Bool} {rest rest' : List Text}
    (h : RespacedLines (!closesVerbatim (cleanLine physical)) inBlock rest rest') :
    RespacedLines true inBlock (physical :: rest) (physical :: rest')
  | line {inBlock inBlock' : Bool} {l l' : Text} {rest rest' : List Text}
  (hl : Respaced inBlock l l' inBlock')
    (h : RespacedLines (decide ((cleanLine l').head? = some '%')) inBlock' rest rest') :
    RespacedLines false inBlock (l :: rest) (l' :: rest')

/-- The second source is the first with its comments replaced by blanks, and with other runs of
blanks. -/
def Respaces (src src' : Text) : Prop := RespacedLines false false (physicalLines src)
    (physicalLines src')

/-- The listing that lines of any length would have. -/
def uncutListingFrom : Bool → Bool → List Text → List Line
  | _, _, [] => []
  | true, inBlock, physical :: rest =>
    .verbatim :: uncutListingFrom (!closesVerbatim (cleanLine physical)) inBlock rest
  | false, inBlock, physical :: rest =>
    let r := stripBlockComments inBlock physical
    .code (cleanLine r.1) :: uncutListingFrom (decide ((cleanLine r.1).head? = some '%')) r.2 rest

def uncutListing (src : Text) : List Line := uncutListingFrom false false (physicalLines src)

/-- Of the lines that are read for a program, cutting them to the buffer loses nothing. -/
def Whole [Platform] (name : Option Text) (src : Text) : Prop :=
  let k := linesScanned name (listing src)
  (uncutListing src).take k = (listing src).take k

instance [Platform] (name : Option Text) (src : Text) : Decidable (Whole name src) :=
  inferInstanceAs (Decidable (_ = _))

theorem length_listingFrom (lines : List Text) : ∀ inVerbatim inBlock,
    (uncutListingFrom inVerbatim inBlock lines).length =
      (listingFrom inVerbatim inBlock lines).length := by
  have hcount : ∀ inVerbatim inBlock, (uncutListingFrom inVerbatim inBlock lines).length =
    lines.length ∧
      (listingFrom inVerbatim inBlock lines).length = lines.length := by
    induction lines with
    | nil => exact fun inVerbatim inBlock => by cases inVerbatim <;> exact ⟨rfl, rfl⟩
    | cons l rest ih =>
      intro inVerbatim inBlock
      cases inVerbatim with
      | true => exact ⟨congrArg Nat.succ (ih _ _).1, congrArg Nat.succ (ih _ _).2⟩
      | false => exact ⟨congrArg Nat.succ (ih _ _).1, congrArg Nat.succ (ih _ _).2⟩
  exact fun inVerbatim inBlock => (hcount inVerbatim inBlock).1.trans
    (hcount inVerbatim inBlock).2.symm

/-- A source of which nothing is lost that is read assembles as if its lines were not cut. -/
theorem Whole.assembles [Platform] {name : Option Text} {src : Text} (h : Whole name src) :
    pioAsmAssemble src name = assembleListing (uncutListing src) name := by
  rw [pioAsmAssemble_eq]
  exact (assembleListing_congr (length_listingFrom _ _ _) h).symm

/-- Lines that fit the buffer are not cut. -/
theorem whole_of_short [Platform] {name : Option Text} {src : Text}
    (h : ∀ l ∈ physicalLines src, l.length < maxLine) :
    Whole name src := by
  have hcut : ∀ (lines : List Text), (∀ l ∈ lines, l.length < maxLine) → ∀ inVerbatim inBlock,
      listingFrom inVerbatim inBlock lines = uncutListingFrom inVerbatim inBlock lines := by
    intro lines
    induction lines with
    | nil => exact fun _ inVerbatim inBlock => by cases inVerbatim <;> rfl
    | cons l rest ih =>
      intro h inVerbatim inBlock
      have hl : l.take (maxLine - 1) = l :=
        List.take_of_length_le (Nat.le_sub_one_of_lt (h l List.mem_cons_self))
      have hrest := ih fun l hl => h l (List.mem_cons_of_mem _ hl)
      cases inVerbatim with
      | true => rw [listingFrom, uncutListingFrom, hl, hrest]
      | false => rw [listingFrom, uncutListingFrom, hl, hrest]
  have hsame : uncutListing src = listing src := (hcut _ h _ _).symm
  unfold Whole
  rw [hsame]

/-- The uncut listings differ in blanks. -/
theorem RespacedLines.listing {inVerbatim inBlock : Bool} {lines lines' : List Text}
    (h : RespacedLines inVerbatim inBlock lines lines') : List.Forall₂ Line.Alike
      (uncutListingFrom inVerbatim inBlock lines) (uncutListingFrom inVerbatim false lines') := by
  induction h with
  | nil inVerbatim inBlock => cases inVerbatim <;> exact .nil
  | verbatim physical _ ih =>
    rw [uncutListingFrom, uncutListingFrom]
    exact .cons .verbatim ih
  | @line inBlock inBlock' l l' rest rest' hl _ ih =>
    have halike := hl.cleanLine
    have hopens : (Asm.cleanLine (stripBlockComments inBlock l).1).head? = some '%' ↔
        (Asm.cleanLine l').head? = some '%' := halike.head_iff (by decide)
    rw [uncutListingFrom, uncutListingFrom, hl.plain.1, hl.strips.1]
    dsimp only
    rw [decide_eq_decide.mpr hopens]
    exact .cons (.code halike) ih

/-- Sources of which the buffer loses nothing that is read assemble to the same, with comments or
with blanks in their place. -/
theorem comments_are_blanks [Platform] {src src' : Text} {name : Option Text}
    (h : Respaces src src')
    (hsrc : Whole name src) (hsrc' : Whole name src') :
    pioAsmAssemble src' name = pioAsmAssemble src name := by
  rw [hsrc.assembles, hsrc'.assembles]
  exact (assembleListing_alike h.listing name).symm

/-- In front of a line stands text without comments, as it is. -/
theorem respaced_front {u s s' : Text} {b : Bool} (hu : ∀ c ∈ u, c ≠ ';' ∧ c ≠ '/')
    (h : Respaced false s s' b) :
    Respaced false (u ++ s) (u ++ s') b := by
  induction u with
  | nil => exact h
  | cons c u ih =>
    obtain ⟨hsemicolon, hslash⟩ := hu c List.mem_cons_self
    exact .keep (opensComment_eq_false hsemicolon hslash)
      (ih fun c hc => hu c (List.mem_cons_of_mem _ hc))

theorem respaced_inside {u s s' : Text} {b : Bool} (hu : ∀ c ∈ u, c ≠ '*')
    (h : Respaced true s s' b) :
    Respaced true (u ++ s) s' b := by
  induction u with
  | nil => exact h
  | cons c u ih =>
    have hc : closesComment (c :: (u ++ s)) = false := by
      have hstar := hu c List.mem_cons_self
      unfold closesComment
      split <;> simp_all
    exact .inside hc (ih fun c hc => hu c (List.mem_cons_of_mem _ hc))

theorem RespacedLines.code {inBlock inBlock' : Bool} {l l' : Text} {rest rest' : List Text}
    (hl : Respaced inBlock l l' inBlock') (hopen : (Asm.cleanLine l').head? ≠ some '%')
    (h : RespacedLines false inBlock' rest rest') :
    RespacedLines false inBlock (l :: rest) (l' :: rest') := by
  refine .line hl ?_
  rw [decide_eq_false hopen]
  exact h

/-- A comment in front of an instruction and one behind it. -/
theorem comments_are_blanks_short :
    letI : Platform := ⟨.rp2350⟩
    pioAsmAssemble ".program p\n   set x,1  ".toList none =
      pioAsmAssemble ".program p\n/*a*/set x,1;b".toList none := by
  let P : Platform := ⟨.rp2350⟩
  have hlines : physicalLines ".program p\n/*a*/set x,1;b".toList =
      [".program p".toList ++ [], '/' :: '*' ::
          (['a'] ++ '*' :: '/' :: ("set x,1".toList ++ [';', 'b']))] := by
    decide +kernel
  have hlines' : physicalLines ".program p\n   set x,1  ".toList =
      [".program p".toList ++ [], "   ".toList ++ ("set x,1".toList ++ [' ', ' '])] := by
        decide +kernel
  have hline : Respaced false
    ('/' :: '*' :: (['a'] ++ '*' :: '/' :: ("set x,1".toList ++ [';', 'b'])))
      ("   ".toList ++ ("set x,1".toList ++ [' ', ' '])) false :=
    .opened <| respaced_inside (by decide) <| .closed (by decide) (by decide) <| respaced_front
      (by decide) <|
      .semicolon _ (by decide)
  refine comments_are_blanks ?_ (by decide +kernel) (by decide +kernel)
  unfold Respaces
  rw [hlines, hlines']
  exact .code (respaced_front (by decide) .done) (by decide +kernel)
    (.code hline (by decide +kernel) (.nil _ _))

/-- A comment of one line that is closed one character too far to the right: the line behind it is
lost. -/
theorem comment_closed_too_late :
    letI : Platform := ⟨.rp2350⟩
    let src := ".program p\n/*".toList ++ List.replicate 252 'x' ++ "*/\nnop".toList
    let src' := ".program p\n \nnop".toList
    Respaces src src' ∧ pioAsmAssemble src' none ≠ pioAsmAssemble src none := by
  let P : Platform := ⟨.rp2350⟩
  intro src src'
  have hlines : physicalLines src =
      [".program p".toList ++ [], '/' :: '*' :: (List.replicate 252 'x' ++ ['*', '/']),
          "nop".toList ++ []] := by
    decide +kernel
  have hlines' :
    physicalLines src' = [".program p".toList ++ [], [' '] ++ [], "nop".toList ++ []] := by
    decide +kernel
  have hline : Respaced false ('/' :: '*' :: (List.replicate 252 'x' ++ ['*', '/']))
      ([' '] ++ []) false := by
    refine .opened (respaced_inside (fun c hc => ?_) (.closed (by decide) (by decide) .done))
    rw [List.eq_of_mem_replicate hc]
    decide
  refine ⟨?_, fun heq => ?_⟩
  · unfold Respaces
    rw [hlines, hlines']
    exact .code (respaced_front (by decide) .done) (by decide +kernel)
      (.code hline (by decide +kernel)
      (.code (respaced_front (by decide) .done) (by decide +kernel) (.nil _ _)))
  · have hsame := congrArg Prod.fst heq
    have hok : (pioAsmAssemble src' none).1 = true := by decide +kernel
    have hfail : (pioAsmAssemble src none).1 = false := by decide +kernel
    rw [hok, hfail] at hsame
    cases hsame

end PioSim.Asm
