import PioSim.Asm.Encode

/-!
# Lines, directives and passes

`pio_asm_assemble`: the text is cut into lines, comments are blanked, and three passes go over the
lines: the first collects the symbols, the second applies the configuration directives, the third
emits words.
-/

namespace PioSim.Asm

/-! ### Comments and lines -/

/-- The lines of a text, as the loop of `run_pass` delimits them. -/
def physicalLines : Text → List Text
  | [] => []
  | '\n' :: s => [] :: physicalLines s
  | c :: s =>
    match physicalLines s with
    | [] => [[c]]
    | l :: ls => (c :: l) :: ls

/-- `strip_block_comments`: the line with the comments blanked, and whether one is open at its
end. -/
def stripBlockComments : Bool → Text → Text × Bool
  | inBlock, [] => ([], inBlock)
  | true, '*' :: '/' :: p =>
    let r := stripBlockComments false p
    (' ' :: ' ' :: r.1, r.2)
  | true, _ :: p =>
    let r := stripBlockComments true p
    (' ' :: r.1, r.2)
  | false, '/' :: '*' :: p =>
    let r := stripBlockComments true p
    (' ' :: ' ' :: r.1, r.2)
  -- the rest of the line is a line comment
  | false, ';' :: p => (';' :: p, false)
  | false, '/' :: '/' :: p => ('/' :: '/' :: p, false)
  | false, c :: p =>
    let r := stripBlockComments false p
    (c :: r.1, r.2)

/-- The text before the first line comment. -/
def cutComment : Text → Text
  | [] => []
  | ';' :: _ => []
  | '/' :: '/' :: _ => []
  | c :: p => c :: cutComment p

/-- What `clean_line` trims. -/
def isTrimmed (c : Char) : Bool := c == ' ' || c == '\t' || c == '\r' || c == '\n'

def cleanLine (line : Text) : Text :=
  (((cutComment line).dropWhile isTrimmed).reverse.dropWhile isTrimmed).reverse

/-! ### Values of directives -/

/-- What the number parser of the C library skips. -/
def isSpace (c : Char) : Bool := c == ' ' || ('\t' ≤ c && c ≤ '\r')

/-- A run of digits of a kind, an optional fraction and an optional exponent after one of two
letters, and nothing else: the digits, how many of them stand behind the point, and the exponent. -/
def scanFloat (kind : Char → Bool) (exponent exponent' : Char) (s : Text) :
    Option (Text × ℕ × Int) :=
  let whole := s.takeWhile kind
  let rest := s.dropWhile kind
  let (fraction, rest) := match rest with
    | '.' :: rest => (rest.takeWhile kind, rest.dropWhile kind)
    | _ => ([], rest)
  let number := fun (digits : Text) => digits.foldl (fun n c => n * 10 + (c.toNat - '0'.toNat)) 0
  let e : Option Int := match rest with
    | [] => some 0
    | c :: rest =>
      if c = exponent ∨ c = exponent' then
        let (neg, digits) := match rest with
          | '-' :: rest => (true, rest)
          | '+' :: rest => (false, rest)
          | _ => (false, rest)
        if digits ≠ [] ∧ digits.all isDigit then
          some (if neg then -(number digits : Int) else number digits)
        else none
      else none
  if whole ++ fraction = [] then none else e.map fun e => (whole ++ fraction, fraction.length, e)

/-- The magnitude of a whole text that `strtod` accepts. -/
def strtodMagnitude (s : Text) : Option Float :=
  if ieq s "inf".toList || ieq s "infinity".toList then some (1.0 / 0.0)
  else if ieq s "nan".toList || (ieq (s.take 4) "nan(".toList && s.getLast? == some ')' &&
      ((s.drop 4).dropLast).all isIdentChar) then some (0.0 / 0.0)
  else match s with
    | '0' :: x :: rest =>
      if x = 'x' ∨ x = 'X' then
        (scanFloat (fun c => (digitValue 16 c).isSome) 'p' 'P' rest).map fun (digits, k, e) =>
          (Float.ofNat (digits.foldl (fun n c => n * 16 + (digitValue 16 c).getD 0) 0)).scaleB
            (e - 4 * k)
      else decimal s
    | _ => decimal s
where
  decimal (s : Text) : Option Float :=
    (scanFloat isDigit 'e' 'E' s).map fun (digits, k, e) =>
      let m := digits.foldl (fun n c => n * 10 + (c.toNat - '0'.toNat)) 0
      let e := e - k
      Float.ofScientific m (decide (e < 0)) e.natAbs

/-- `parse_double`, over `strtod`: the whole token is a number, and not a negative one. -/
def parseDouble (s : Text) : Option Float :=
  let (neg, s) := match s.dropWhile isSpace with
    | '-' :: s => (true, s)
    | '+' :: s => (false, s)
    | s => (false, s)
  (strtodMagnitude s).bind fun v =>
    let v := if neg then -v else v
    if v < 0.0 then none else some v

namespace Step
variable {α : Type}

/-- A `false` without an error of its own. -/
def fail : Step α := fun ctx => (none, ctx)

def modifyOut (f : Program → Program) : Step Unit :=
  fun ctx => (some (), { ctx with out := f ctx.out })

end Step

section Version
variable [Platform]

def parseFifoConfig (t : Text) : Option FifoJoin :=
  if ieq t "txrx".toList then some .none
  else if ieq t "tx".toList then some .tx
  else if ieq t "rx".toList then some .rx
  else if hasRxfifoMov && ieq t "putget".toList then some .rxPutget
  else if hasRxfifoMov && ieq t "txput".toList then some .rxPut
  else if hasRxfifoMov && ieq t "txget".toList then some .rxGet
  else none

/-! ### Configuration directives

Each is given the tokens behind the directive's name. -/

def parseSideSet (modifiers : List Text) (bits : Word) : Step Unit := do
  let opt := modifiers.any (ieq · "opt".toList)
  let pindirs := modifiers.any (ieq · "pindirs".toList)
  let total := bits.toNat + if opt then 1 else 0
  Step.require (bits.toNat ≤ 5 ∧ total ≤ 5) "side-set count out of range (0..5)"
  Step.modifyOut fun out => { out with
    sidesetBits := total, sidesetOpt := opt, sidesetPindirs := pindirs }

def sideSetDirective : List Text → Step Unit
  | [] => Step.error "bad .side_set"
  | t :: modifiers => do
    let bits ← (Step.resolveUint t).orError "bad .side_set"
    parseSideSet modifiers bits

def originDirective : List Text → Step Unit
  | [] => Step.error "bad .origin"
  | t :: _ => do
    let v ← (Step.resolveUint t).orError "bad .origin"
    Step.require (v.toNat < 32) ".origin out of range (0..31)"
    Step.modifyOut fun out => { out with hasOrigin := true, origin := v.toNat }

/-- The version a `.pio_version` names. -/
def versionValue (t : Text) : Step ℕ :=
  if ieq t "rp2040".toList then pure 0
  else if ieq t "rp2350".toList then pure 1
  else do
    let v ← (Step.resolveUint t).orError "bad .pio_version (expected 0, 1, rp2040, or rp2350)"
    Step.require (v.toNat ≤ 1) "bad .pio_version (expected 0, 1, rp2040, or rp2350)"
    return v.toNat

def pioVersionDirective : List Text → Step Unit
  | [] => Step.error "bad .pio_version"
  | t :: _ => do
    let v ← versionValue t
    Step.modifyOut fun out => { out with pioVersion := some v }
    Step.require (v ≤ buildVersion) "program .pio_version exceeds the build target"

def clockDivDirective : List Text → Step Unit
  | [] => Step.error "bad .clock_div"
  | t :: _ =>
    match parseDouble t with
    | none => Step.error "bad .clock_div"
    | some d => Step.modifyOut fun out => { out with hasClockDiv := true, clockDiv := d }

def fifoDirective : List Text → Step Unit
  | [] => Step.error "bad .fifo"
  | t :: _ =>
    match parseFifoConfig t with
    | none => Step.error "bad .fifo"
    | some join => do
      Step.modifyOut fun out => { out with fifoJoin := join }
      if join = .rxPut ∨ join = .rxGet ∨ join = .rxPutget then
        requireProgVersion 1 ".fifo putget/txput/txget"
      else pure ()
      Step.modifyOut fun out => { out with hasFifoJoin := true }

/-- The source `.mov_status` selects; `prev` and `next` stand before the last token. -/
def movStatusSel (t : Text) (rest : List Text) : Option StatusSel :=
  if ieq t "txfifo".toList then some .txLevel
  else if ieq t "rxfifo".toList then some .rxLevel
  else if hasIrqStatus && ieq t "irq".toList then
    some (rest.dropLast.foldl (fun sel t =>
      if ieq t "next".toList then .irqSetNext else if ieq t "prev".toList then .irqSetPrev else sel)
        .irqSet)
  else none

def parseMovStatus : List Text → Step Unit
  | [] => Step.fail
  | t :: rest =>
    match movStatusSel t rest with
    | none => Step.fail
    | some sel => do
      Step.modifyOut fun out => { out with movStatusSel := sel }
      if sel = .irqSetNext ∨ sel = .irqSetPrev then requireProgVersion 1 ".mov_status irq next/prev"
      else pure ()
      let marker := if sel = .txLevel ∨ sel = .rxLevel then "<".toList else "set".toList
      if rest.any (ieq · marker) then
        let n ← Step.resolveUint ((t :: rest).getLastD [])
        if 31 < n.toNat then Step.fail
        else Step.modifyOut fun out => { out with movStatusN := n.toNat, hasMovStatus := true }
      else Step.fail

/-- The loop of `parse_shift_dir_cfg`. -/
def shiftModifiers : ShiftCfg → List Text → Step ShiftCfg
  | cfg, [] => return cfg
  | cfg, t :: ts =>
    if ieq t "left".toList then shiftModifiers { cfg with dir := .left } ts
    else if ieq t "right".toList then shiftModifiers { cfg with dir := .right } ts
    else if ieq t "auto".toList then shiftModifiers { cfg with autoshift := true } ts
    else if ieq t "manual".toList then shiftModifiers { cfg with autoshift := false } ts
    else do
      let threshold ← Step.resolveUint t
      if 32 < threshold.toNat then Step.fail
      else shiftModifiers { cfg with threshold := threshold.toNat } ts

def parseShiftDirCfg (isIn : Bool) : List Text → Step Unit
  | [] => Step.fail
  | t :: modifiers => do
    let count ← Step.resolveUint t
    let out ← Step.out
    if 32 < count.toNat then Step.fail
    else if isIn && (if out.effectiveVersion = 0 then count.toNat != 32 else count.toNat == 0) then
      Step.fail
    else
      let cfg ← shiftModifiers { set := true, count := count.toNat, dir := .right, autoshift := false
                                 threshold := 32 } modifiers
      Step.modifyOut fun out => if isIn then { out with inCfg := cfg } else { out with outCfg := cfg }

def setDirective : List Text → Step Unit
  | [] => Step.error "bad .set"
  | t :: _ => do
    let v ← (Step.resolveUint t).orError "bad .set"
    Step.require (v.toNat ≤ 5) ".set pin count out of range (0..5)"
    Step.modifyOut fun out => { out with
      setCfg := { out.setCfg with set := true, count := v.toNat } }

inductive ConfigKind
  | sideSet
  | origin
  | pioVersion
  | clockDiv
  | fifo
  | movStatus
  | in
  | out
  | set
  deriving DecidableEq

def configKind (t : Text) : Option ConfigKind :=
  (([(".side_set", .sideSet), (".origin", .origin), (".pio_version", .pioVersion),
    (".clock_div", .clockDiv), (".fifo", .fifo), (".mov_status", .movStatus), (".in", .in),
      (".out", .out),
    (".set", .set)] : List (String × ConfigKind)).find? fun e => ieq t e.1.toList).map (·.2)

/-- What a configuration directive does in the configuration pass. -/
def configDirective : ConfigKind → List Text → Step Unit
  | .sideSet, args => sideSetDirective args
  | .origin, args => originDirective args
  | .pioVersion, args => pioVersionDirective args
  | .clockDiv, args => clockDivDirective args
  | .fifo, args => fifoDirective args
  | .movStatus, args => (parseMovStatus args).orError "bad .mov_status"
  | .in, args => (parseShiftDirCfg true args).orError "bad .in"
  | .out, args => (parseShiftDirCfg false args).orError "bad .out"
  | .set, args => setDirective args

end Version

/-! ### One line -/

/-- The passes of `pa_parse_state_t`. -/
inductive Pass
  | scan
  | config
  | emit
  deriving DecidableEq

/-- `pa_parse_state_t`, with the context it points to. -/
structure ParseState where
  ctx : AsmCtx
  name : Option Text
  pass : Pass
  inProgram : Bool
  inVerbatim : Bool
  inBlockComment : Bool
  seenAnyProgram : Bool
  idx : ℕ

inductive LineResult
  | ok
  | done
  | error
  deriving DecidableEq

namespace ParseState

def fail (ps : ParseState) (msg : String) : LineResult × ParseState :=
  (.error, { ps with ctx := ps.ctx.setError msg })

/-- A step on the context. -/
def run {α : Type} (ps : ParseState) (x : Step α) (k : α → ParseState → LineResult × ParseState) :
    LineResult × ParseState :=
  match x ps.ctx with
  | (none, ctx) => (.error, { ps with ctx := ctx })
  | (some a, ctx) => k a { ps with ctx := ctx }

def programDirective (ps : ParseState) (args : List Text) : LineResult × ParseState :=
  if ps.seenAnyProgram && ps.inProgram then (.done, ps)
  else
    let selected := match ps.name with
      | none => true
      | some name => args.head? == some name
    let ctx := match args with
      | t :: _ =>
        if selected && ps.pass = .config then
          { ps.ctx with out := { ps.ctx.out with name := t.take 31 } }
        else ps.ctx
      | [] => ps.ctx
    (.ok, { ps with ctx := ctx, seenAnyProgram := true, inProgram := selected, idx := 0 })

/-- `.define`, in the scan pass. -/
def defineDirective (ps : ParseState) (args : List Text) : LineResult × ParseState :=
  let isPublic := match args with
    | t :: _ => ieq t "public".toList
    | [] => false
  let args := if isPublic then args.drop 1 else args
  if !isPublic && ps.seenAnyProgram && !ps.inProgram then (.ok, ps)
  else match args with
    | name :: value =>
      match joinTokens value with
      | none => ps.fail "bad .define"
      | some expr =>
        if 32 ≤ name.length then ps.fail "define name too long"
        else if ps.ctx.defineDeclared name then ps.fail "duplicate define"
        else if (ps.ctx.findLabel name).isSome then ps.fail "symbol already defined as a label"
        else match ps.ctx.declareDefine name expr with
          | none => ps.fail "too many .define symbols"
          | some ctx => (.ok, { ps with ctx := ctx })
    | [] => ps.fail "bad .define"

def wrapDirective (ps : ParseState) : LineResult × ParseState :=
  if ps.idx = 0 then ps.fail ".wrap cannot be placed before the first instruction"
  else if ps.ctx.out.wrapTop ≠ 255 then ps.fail ".wrap was already specified"
  else (.ok, { ps with ctx := { ps.ctx with out := { ps.ctx.out with wrapTop := ps.idx - 1 } } })

/-- A word at the present index. -/
def emit (ps : ParseState) (w : Insn) : ParseState :=
  { ps with ctx := { ps.ctx with out := { ps.ctx.out with
      insns := fun i => if i.val = ps.idx then w else ps.ctx.out.insns i } } }

def wordValue (args : List Text) : Step Insn := do
  let w ← (Step.resolveUintJoin args).orError "bad .word"
  Step.require (w.toNat ≤ 0xFFFF) ".word out of range (16-bit)"
  return w.setWidth 16

/-- `.word`: it takes a slot in every pass. -/
def wordDirective (ps : ParseState) (args : List Text) : LineResult × ParseState :=
  if 32 ≤ ps.idx then ps.fail "program exceeds 32 instructions"
  else if ps.pass = .emit then
    ps.run (wordValue args) fun w ps => (.ok, { ps.emit w with idx := ps.idx + 1 })
  else (.ok, { ps with idx := ps.idx + 1 })

section Version
variable [Platform]

def handleDirective (ps : ParseState) (line : Text) : LineResult × ParseState :=
  let (tok, truncated) := tokenize line maxTokens
  if truncated then ps.fail "directive has too many tokens"
  else match tok with
    | [] => (.ok, ps)
    | t :: args =>
      if ieq t ".program".toList then ps.programDirective args
      else if ieq t ".define".toList then
        if ps.pass = .scan then ps.defineDirective args else (.ok, ps)
      else if !ps.inProgram then (.ok, ps)
      else if ieq t ".wrap_target".toList then
        if ps.pass = .config then
          (.ok, { ps with ctx := { ps.ctx with out := { ps.ctx.out with wrapBottom := ps.idx } } })
        else (.ok, ps)
      else if ieq t ".wrap".toList then
        if ps.pass = .config then ps.wrapDirective else (.ok, ps)
      else if ieq t ".word".toList then ps.wordDirective args
      else if ps.pass ≠ .config then (.ok, ps)
      else match configKind t with
        | some kind => ps.run (configDirective kind args) fun _ ps => (.ok, ps)
        -- `.lang_opt` and whatever is not known
        | none => (.ok, ps)

/-- `strip_public`: the line without the keyword, and whether it was there. -/
def stripPublic (line : Text) : Text × Bool :=
  if line.take 6 = "public".toList ∨ line.take 6 = "PUBLIC".toList then
    match line.drop 6 with
    | c :: _ =>
      let q := (line.drop 6).dropWhile isBlank
      if isBlank c = true ∧ ':' ∈ q then (q, true) else (line, false)
    | [] => (line, false)
  else (line, false)

def declareLabel (ps : ParseState) (name : Text) (isPublic : Bool) : ParseState :=
  let fail := fun msg => { ps with ctx := ps.ctx.setError msg }
  if maxLabels ≤ ps.ctx.labels.length then fail "too many labels"
  else if 32 ≤ name.length then fail "label name too long"
  else if (name.head?.map isDigit).getD false then fail "label name cannot start with a digit"
  else if (ps.ctx.findLabel name).isSome then fail "duplicate label"
  else if ps.ctx.defineDeclared name then fail "symbol already defined as a define"
  else { ps with ctx := { ps.ctx with
      labels := ps.ctx.labels ++ [{ name := name, index := ps.idx, isPublic := isPublic }] } }

/-- `handle_label`: what is left of the line, if it is more than a label. -/
def handleLabel (ps : ParseState) (line : Text) : Option Text × ParseState :=
  let (line, isPublic) := stripPublic line
  match line.dropWhile isIdentChar with
  | ':' :: rest =>
    let ps := if ps.pass = .scan then ps.declareLabel (line.takeWhile isIdentChar) isPublic else ps
    let rest := rest.dropWhile isBlank
    (if rest = [] then none else some rest, ps)
  | _ => (some line, ps)

def handleInstruction (ps : ParseState) (line : Text) : LineResult × ParseState :=
  if 32 ≤ ps.idx then ps.fail "program exceeds 32 instructions"
  else if ps.pass = .emit then
    let (tok, truncated) := tokenize line maxTokens
    if truncated then ps.fail "instruction has too many tokens"
    else if tok = [] then ps.fail "empty instruction"
    else ps.run (assembleInsn tok) fun w ps => (.ok, { ps.emit w with idx := ps.idx + 1 })
  else (.ok, { ps with idx := ps.idx + 1 })

def processLine (ps : ParseState) (line : Text) : LineResult × ParseState :=
  if ps.inVerbatim then
    (.ok, if line.head? = some '%' ∧ '}' ∈ line then { ps with inVerbatim := false } else ps)
  else if line.head? = some '%' then (.ok, { ps with inVerbatim := true })
  else if line.head? = some '.' then ps.handleDirective line
  else if !ps.inProgram then (.ok, ps)
  else
    let (rest, ps) := ps.handleLabel line
    if !ps.ctx.out.ok then (.error, ps)
    else match rest with
      | none => (.ok, ps)
      | some rest => ps.handleInstruction rest

/-! ### Passes -/

/-- What `run_pass` makes of a physical line: the cleaned line, and the state that carries an open
block comment on. -/
def nextLine (ps : ParseState) (n : ℕ) (physical : Text) : Text × ParseState :=
  let buf := physical.take (maxLine - 1)
  let ps := { ps with ctx := { ps.ctx with lineNo := n } }
  if ps.inVerbatim then (cleanLine buf, ps)
  else
    let r := stripBlockComments ps.inBlockComment buf
    (cleanLine r.1, { ps with inBlockComment := r.2 })

/-- The loop of `run_pass` over the lines from number `n` on; it stops at the next program. -/
def runLines : ℕ → ParseState → List Text → Bool × ParseState
  | _, ps, [] => (true, ps)
  | n, ps, physical :: rest =>
    let (line, ps) := ps.nextLine n physical
    if line = [] then runLines (n + 1) ps rest
    else match ps.processLine line with
      | (.error, ps) => (false, ps)
      | (.done, ps) => (true, ps)
      | (.ok, ps) => runLines (n + 1) ps rest

def runPass (ps : ParseState) (pass : Pass) (src : Text) : Bool × ParseState :=
  runLines 1 { ps with
    pass := pass, inProgram := false, inVerbatim := false, inBlockComment := false
    seenAnyProgram := false, idx := 0 } (physicalLines src)

end Version

/-- What `pio_asm_assemble` does after the configuration pass. -/
def finishConfig (ps : ParseState) : Bool × ParseState :=
  let out := { ps.ctx.out with
    count := ps.idx
    wrapTop := if ps.ctx.out.wrapTop = 255 then ps.idx - 1 else ps.ctx.out.wrapTop }
  let ps := { ps with ctx := { ps.ctx with out := out } }
  if ps.idx = 0 then (false, (ps.fail "no instructions found (check program name)").2)
  else if out.count ≤ out.wrapBottom then
    (false, (ps.fail ".wrap_target cannot be placed after the last instruction").2)
  else (true, ps)

def exportLabels (ps : ParseState) : Bool × ParseState :=
  let labels := (ps.ctx.labels.filter (·.isPublic)).map fun l => (l.name, l.index)
  let export_ := fun n => { ps with ctx := { ps.ctx with
    out := { ps.ctx.out with publicLabels := labels.take n } } }
  if 8 < labels.length then (false, ((export_ 8).fail "too many public labels").2)
  else (ps.ctx.out.ok, export_ 8)

end ParseState

def ParseState.start (name : Option Text) : ParseState :=
  { ctx := { out := .start, labels := [], defines := [], lineNo := 0 }, name := name, pass := .scan
    inProgram := false, inVerbatim := false, inBlockComment := false, seenAnyProgram :=
      false, idx := 0 }

/-- One stage after the other, as long as they succeed. -/
def ParseState.stages (ps : ParseState) : List (ParseState → Bool × ParseState) → Bool × ParseState
  | [] => (true, ps)
  | f :: fs =>
    match f ps with
    | (true, ps) => ps.stages fs
    | (false, ps) => (false, ps)

/-- `pio_asm_assemble`: its result, and the program it leaves. -/
def pioAsmAssemble [Platform] (src : Text) (name : Option Text) : Bool × Program :=
  let r := (ParseState.start name).stages
    [fun ps => ps.runPass .scan src, fun ps => ps.runPass .config src, ParseState.finishConfig,
      fun ps => ps.runPass .emit src, ParseState.exportLabels]
  (r.1, r.2.ctx.out)

end PioSim.Asm
