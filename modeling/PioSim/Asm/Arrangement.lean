import PioSim.Asm.Carried
import PioSim.Asm.Listing

/-!
# The order of the configuration directives

A program's configuration directives are looked at in the configuration pass only, and each changes
the fields of its own kind. What is left of their order is the version: a directive that needs a
version of the program is checked against the one declared so far.
-/

namespace PioSim.Asm

/-! ### Arrangements -/

/-- The words of a directive line, where there are not too many. -/
def directiveWords : Line → Option (Text × List Text)
  | .verbatim => none
  | .code line =>
    if line.head? = some '.' then
      match tokenize line maxTokens with
      | (t :: args, false) => some (t, args)
      | _ => none
    else none

def directiveOf (l : Line) : Option (ConfigKind × List Text) :=
  (directiveWords l).bind fun w => (configKind w.1).map fun k => (k, w.2)

def programArgs (l : Line) : Option (List Text) :=
  (directiveWords l).bind fun w => if ieq w.1 ".program".toList then some w.2 else none

def directives (lines : List Line) : List (ConfigKind × List Text) := lines.filterMap directiveOf

/-- A `.program` with these words is the one to assemble. -/
def selects (name : Option Text) (args : List Text) : Bool :=
  match name with
  | none => true
  | some name => args.head? == some name

/-- The same line, or another configuration directive in its place. -/
def Replaces (l l' : Line) : Prop := l = l' ∨
    ((directiveOf l).isSome = true ∧ (directiveOf l').isSome = true)

/-- The lines of the selected program, in front of it, and behind it. -/
structure Selection (name : Option Text) (outside : List Line) (opening : Line)
    (body post : List Line) :
    Prop where
  outside : ∀ l ∈ outside, ∀ args, programArgs l = some args → selects name args = false
  opening : ∃ args, programArgs opening = some args ∧ selects name args = true
  body : ∀ l ∈ body, programArgs l = none
  post : post = [] ∨ ∃ l rest args, post = l :: rest ∧ programArgs l = some args

/-- The lines in front of the selected program, its lines and those behind it, where its
configuration directives are of different kinds. -/
structure Divides (name : Option Text) (lines outside : List Line) (opening : Line)
    (body post : List Line) :
    Prop where
  selection : Selection name outside opening body post
  lines : lines = outside ++ opening :: (body ++ post)
  kinds : ((directives body).map Prod.fst).Nodup

/-- In the one listing the configuration directives of the selected program stand in other places
than in the other. -/
def Rearranged (name : Option Text) (lines lines' : List Line) : Prop :=
  ∃ outside opening body body' post, Divides name lines outside opening body post ∧
    lines' = outside ++ opening :: (body' ++ post) ∧ List.Forall₂ Replaces body body' ∧
    (directives body).Perm (directives body')

/-! ### What a line is -/

theorem ieq_congr {t a : Text} (h : ieq t a = true) (b : Text) : ieq t b = ieq a b := by
  unfold ieq at h ⊢
  rw [eq_of_beq h]

/-- The name of a configuration directive is no other directive's. -/
theorem configKind_ne {t : Text} {k : ConfigKind} (h : configKind t = some k) :
    ∀ other ∈ [".program".toList, ".define".toList, ".wrap_target".toList, ".wrap".toList,
      ".word".toList], ieq t other = false := by
  intro other hother
  obtain ⟨e, he, -⟩ := Option.map_eq_some_iff.mp h
  have hname := List.find?_some he
  rw [ieq_congr hname]
  have hall : ∀ e ∈ ([(".side_set", .sideSet), (".origin", .origin), (".pio_version", .pioVersion),
      (".clock_div", .clockDiv), (".fifo", .fifo), (".mov_status", .movStatus), (".in", .in),
      (".out", .out), (".set", .set)] : List (String × ConfigKind)), ∀ other ∈ [".program".toList,
      ".define".toList, ".wrap_target".toList, ".wrap".toList, ".word".toList],
      ieq e.1.toList other = false := by
    decide
  exact hall e (List.mem_of_find?_eq_some he) other hother

theorem directiveWords_eq_some {l : Line} {w : Text × List Text} (h : directiveWords l = some w) :
    ∃ line, l = .code line ∧ line.head? = some '.' ∧
      tokenize line maxTokens = (w.1 :: w.2, false) := by
  cases l with
  | verbatim => cases h
  | code line =>
    unfold directiveWords at h
    dsimp only at h
    split at h
    · rename_i hdot
      split at h
      · rename_i t args htok
        obtain rfl := Option.some.inj h
        exact ⟨line, rfl, hdot, htok⟩
      · cases h
    · cases h

theorem directiveWords_code {line s : Text} {args : List Text} (hdot : line.head? = some '.')
    (htok : tokenize line maxTokens = (s :: args, false)) :
    directiveWords (.code line) = some (s, args) := by
  unfold directiveWords
  dsimp only
  rw [if_pos hdot, htok]

theorem directiveOf_eq_some {l : Line} {d : ConfigKind × List Text} (h : directiveOf l = some d) :
    ∃ line t, l = .code line ∧ line.head? = some '.' ∧ tokenize line maxTokens = (t :: d.2, false) ∧
      configKind t = some d.1 := by
  obtain ⟨w, hw, hk⟩ := Option.bind_eq_some_iff.mp h
  obtain ⟨k, hkind, rfl⟩ := Option.map_eq_some_iff.mp hk
  obtain ⟨line, hl, hdot, htok⟩ := directiveWords_eq_some hw
  exact ⟨line, w.1, hl, hdot, htok, hkind⟩

theorem programArgs_of_directive {l : Line} (h : (directiveOf l).isSome = true) :
    programArgs l = none := by
  obtain ⟨d, hd⟩ := Option.isSome_iff_exists.mp h
  obtain ⟨w, hw, hk⟩ := Option.bind_eq_some_iff.mp hd
  obtain ⟨k, hkind, -⟩ := Option.map_eq_some_iff.mp hk
  unfold programArgs
  rw [hw, Option.bind_some, configKind_ne hkind _ (by decide)]
  rfl

namespace ParseState
variable [Platform] {ps : ParseState}

/-- What a configuration directive does to a state. -/
theorem handleCode_directive (ps : ParseState) {line t : Text} {args : List Text} {k : ConfigKind}
    (hdot : line.head? = some '.') (htok : tokenize line maxTokens = (t :: args, false))
    (hk : configKind t = some k) :
    ps.handleCode line =
      if ps.inProgram && ps.pass = .config then
        ps.run (configDirective k args) fun _ ps => (.ok, ps)
      else (.ok, ps) := by
  have hne := configKind_ne hk
  unfold handleCode handleDirective
  rw [if_pos hdot, htok]
  dsimp only
  rw [if_neg Bool.false_ne_true, hne ".program".toList (by decide),
    hne ".define".toList (by decide), hne ".wrap_target".toList (by decide),
    hne ".wrap".toList (by decide), hne ".word".toList (by decide),
    hk]
  by_cases hin : ps.inProgram = true
  · by_cases hconfig : ps.pass = .config
    · simp [hin, hconfig]
    · simp [hin, hconfig]
  · simp [hin]

/-! ### Passes that skip the directives -/

/-- No line changes the pass. -/
theorem pass_handleCode (ps : ParseState) (line : Text) :
    (ps.handleCode line).2.pass = ps.pass := by
  have hcarried := Carried.trivially ps.pass
  have hon : Carried.On ps.pass ps.name (fun _ => True) ps := ⟨rfl, rfl, trivial⟩
  unfold handleCode
  split
  · exact (hcarried.handleDirective hon line).left.pass_eq
  split
  · rfl
  have hlabel := hcarried.handleLabel hon line
  dsimp only
  split
  · exact hlabel.pass_eq
  · split
    · exact hlabel.pass_eq
    · exact (hcarried.handleInstruction hlabel _).left.pass_eq

/-- Over a configuration directive a pass goes on to the next line, unless it is the configuration
pass inside the program. -/
theorem runListing_directive {l : Line} (h : (directiveOf l).isSome = true) (n : ℕ)
    (rest : List Line)
    (hskip : ps.inProgram = false ∨ ps.pass ≠ .config) :
    runListing n ps (l :: rest) = runListing (n + 1) (ps.atLine n) rest := by
  obtain ⟨d, hd⟩ := Option.isSome_iff_exists.mp h
  obtain ⟨line, t, rfl, hdot, htok, hk⟩ := directiveOf_eq_some hd
  rw [runListing]
  split
  · rfl
  have hcode := handleCode_directive (ps.atLine n) hdot htok hk
  rw [if_neg ?_] at hcode
  · rw [hcode]
  · intro hboth
    rw [Bool.and_eq_true, decide_eq_true_iff] at hboth
    rcases hskip with hskip | hskip
    · rw [show (ps.atLine n).inProgram = ps.inProgram from rfl, hskip] at hboth
      exact Bool.false_ne_true hboth.1
    · exact hskip hboth.2

/-- Passes other than the configuration pass do the same over both listings. -/
theorem runListing_replaces {ls ls' : List Line} (h : List.Forall₂ Replaces ls ls') :
    ∀ (n : ℕ) (ps : ParseState), ps.pass ≠ .config → runListing n ps ls = runListing n ps ls' := by
  induction h with
  | nil => exact fun _ _ _ => rfl
  | @cons l l' rest rest' hl _ ih =>
    intro n ps hpass
    rcases hl with rfl | ⟨hl, hl'⟩
    · cases l with
      | verbatim => exact ih (n + 1) (ps.atLine n) hpass
      | code line =>
        have hkeep := pass_handleCode (ps.atLine n) line
        rw [runListing, runListing]
        split
        · exact ih (n + 1) (ps.atLine n) hpass
        generalize (ps.atLine n).handleCode line = r at hkeep ⊢
        obtain ⟨result, ps'⟩ := r
        cases result with
        | error => rfl
        | done => rfl
        | ok => exact ih (n + 1) ps' (by rw [show ps'.pass = ps.pass from hkeep]; exact hpass)
    · rw [runListing_directive hl n rest (.inr hpass),
        runListing_directive hl' n rest' (.inr hpass)]
      exact ih (n + 1) (ps.atLine n) hpass

end ParseState

end PioSim.Asm
