import PioSim.Asm.Symbols
import PioSim.Execute

/-!
# Instruction lines

From the tokens of an instruction line to its word: the side-set and delay clauses are taken off the
end, the mnemonic's encoder reads the rest, and the two share the field in between.
-/

namespace PioSim.Asm

/-! ### Words

The `pio_sim_encode_*` functions. -/

def encodeJmp (condition addr : ℕ) : Insn :=
  BitVec.ofNat 16 ((0 <<< 13) ||| ((condition &&& 7) <<< 5) ||| (addr &&& 0x1F))

def encodeSet (dest value : ℕ) : Insn :=
  BitVec.ofNat 16 ((7 <<< 13) ||| ((dest &&& 7) <<< 5) ||| (value &&& 0x1F))

def encodeOut (dest count : ℕ) : Insn :=
  BitVec.ofNat 16 ((3 <<< 13) ||| ((dest &&& 7) <<< 5) ||| (count &&& 0x1F))

def encodeIn (src count : ℕ) : Insn :=
  BitVec.ofNat 16 ((2 <<< 13) ||| ((src &&& 7) <<< 5) ||| (count &&& 0x1F))

def encodePush (ifFull block : Bool) : Insn :=
  BitVec.ofNat 16
    ((4 <<< 13) ||| (if ifFull then 1 <<< 6 else 0) ||| (if block then 1 <<< 5 else 0))

def encodePull (ifEmpty block : Bool) : Insn :=
  BitVec.ofNat 16 ((4 <<< 13) ||| (1 <<< 7) ||| (if ifEmpty then 1 <<< 6 else 0) |||
    (if block then 1 <<< 5 else 0))

def encodeMov (dest op src : ℕ) : Insn :=
  BitVec.ofNat 16 ((5 <<< 13) ||| ((dest &&& 7) <<< 5) ||| ((op &&& 3) <<< 3) ||| (src &&& 7))

def encodeIrq (clear wait : Bool) (index : ℕ) : Insn :=
  BitVec.ofNat 16
    ((6 <<< 13) ||| (if clear then 1 <<< 6 else 0) ||| (if wait then 1 <<< 5 else 0) |||
    (index &&& 0x1F))

def encodeIrqRel (clear wait : Bool) (index : ℕ) : Insn :=
  encodeIrq clear wait ((index &&& 0x7) ||| 0x10)

def encodeWait (polarity source index : ℕ) : Insn :=
  BitVec.ofNat 16 ((1 <<< 13) ||| ((polarity &&& 1) <<< 7) ||| ((source &&& 3) <<< 5) |||
    (index &&& 0x1F))

def encodeWaitIrqRel (polarity index : ℕ) : Insn := encodeWait polarity 2 ((index &&& 0x7) ||| 0x10)

def encodeWaitJmppin (polarity index : ℕ) : Insn := encodeWait polarity 3 index

def encodeMovToRxfifo (index : ℕ) : Insn :=
  BitVec.ofNat 16 ((4 <<< 13) ||| 0x10 ||| 0x08 ||| (index &&& 0x3))

def encodeMovFromRxfifo (index : ℕ) : Insn :=
  BitVec.ofNat 16 ((4 <<< 13) ||| 0x80 ||| 0x10 ||| 0x08 ||| (index &&& 0x3))

def encodeMovToRxfifoY : Insn := BitVec.ofNat 16 ((4 <<< 13) ||| 0x10)

def encodeMovFromRxfifoY : Insn := BitVec.ofNat 16 ((4 <<< 13) ||| 0x80 ||| 0x10)

def encodeNop : Insn := encodeMov 2 0 2

/-! ### Steps -/

/-- A step of the assembler: it fails or returns, and leaves a context either way. -/
def Step (α : Type) := AsmCtx → Option α × AsmCtx

namespace Step
variable {α β : Type}

instance : Monad Step where
  pure a := fun ctx => (some a, ctx)
  bind x f := fun ctx => match x ctx with
    | (none, ctx) => (none, ctx)
    | (some a, ctx) => f a ctx

def error (msg : String) : Step α := fun ctx => (none, ctx.setError msg)

/-- The step, its failure reported as the message. -/
def orError (x : Step α) (msg : String) : Step α := fun ctx =>
  match x ctx with
  | (none, ctx) => (none, ctx.setError msg)
  | (some a, ctx) => (some a, ctx)

def require (p : Prop) [Decidable p] (msg : String) : Step Unit := if p then pure () else error msg

def out : Step Program := fun ctx => (some ctx.out, ctx)

def resolveUint (s : Text) : Step Word := fun ctx => ctx.resolveUint s

def resolveUintJoin (tok : List Text) : Step Word := fun ctx => ctx.resolveUintJoin tok

end Step

/-- `PIO_SIM_PIO_VERSION`. -/
def buildVersion [Platform] : ℕ := if isRp2350 then 1 else 0

/-- The version `require_prog_version` checks: the declared one, else the build's. -/
def Program.effectiveVersion [Platform] (p : Program) : ℕ := p.pioVersion.getD buildVersion

def requireProgVersion [Platform] (need : ℕ) (what : String) : Step Unit := do
  let out ← Step.out
  Step.require (need ≤ out.effectiveVersion)
    ("PIO version " ++ toString need ++ " is required for " ++ what)

/-! ### Names -/

/-- The field of a keyword, whatever its case. -/
def keyword (table : List (String × ℕ)) (t : Text) : Option ℕ :=
  (table.find? fun e => ieq t e.1.toList).map (·.2)

def srcField : Text → Option ℕ :=
  keyword [("pins", 0), ("x", 1), ("y", 2), ("null", 3), ("status", 5), ("isr", 6), ("osr", 7)]

def outDestField : Text → Option ℕ :=
  keyword [("pins", 0), ("x", 1), ("y", 2), ("null", 3), ("pindirs", 4), ("pc", 5), ("isr", 6),
    ("exec", 7)]

def movDestField [Platform] : Text → Option ℕ :=
  keyword ([("pins", 0), ("x", 1), ("y", 2)] ++ (if hasMovPindirs then [("pindirs", 3)] else []) ++
    [("exec", 4), ("pc", 5), ("isr", 6), ("osr", 7)])

def setDestField : Text → Option ℕ := keyword [("pins", 0), ("x", 1), ("y", 2), ("pindirs", 4)]

def jmpCond : Text → Option ℕ :=
  keyword [("!x", 1), ("x--", 2), ("!y", 3), ("y--", 4), ("x!=y", 5), ("pin", 6), ("!osre", 7)]

/-- The sources of `enc_wait`; those are what `is_wait_source` accepts. -/
def waitSource [Platform] : Text → Option ℕ :=
  keyword ([("gpio", 0), ("pin", 1), ("irq", 2)] ++ if hasWaitJmppin then [("jmppin", 3)] else [])

/-- `mov_op_of`: the operation and the source without its marker. -/
def movOpOf : Text → ℕ × Text
  | '!' :: s => (1, s)
  | '~' :: s => (1, s)
  | ':' :: ':' :: s => (2, s)
  | s => (0, s)

/-! ### Side-set and delay -/

/-- A clause at the end of a line. -/
inductive Clause
  | delay (tok : List Text)
  | side (t : Text)

/-- The tokens up to the last one that opens a bracket, and that one with what follows it. -/
def splitBracket : List Text → Option (List Text × List Text)
  | [] => none
  | t :: ts =>
    match splitBracket ts with
    | some (front, back) => some (t :: front, back)
    | none => if t.head? = some '[' then some ([], t :: ts) else none

/-- The clause `extract_side_delay` finds at the end of the tokens, and the tokens before it. -/
def lastClause (tok : List Text) : Option (Clause × List Text) :=
  let delay := match tok.getLast? with
    | some last => if last.getLast? = some ']' then splitBracket tok else none
    | none => none
  match delay with
  | some (front, back) => some (.delay back, front)
  | none =>
    match tok.reverse with
    | t :: s :: front => if ieq s "side".toList then some (.side t, front.reverse) else none
    | _ => none

structure SideDelay where
  delay : Word
  side : Option Word

def delayValue (tok : List Text) : Step Word :=
  match joinTokens tok with
  | none => Step.error "bad delay value"
  | some buf => (Step.resolveUint (buf.dropLast.drop 1)).orError "bad delay value"

/-- One turn of the loop of `extract_side_delay`. -/
def storeClause (sd : SideDelay) : Clause → Step SideDelay
  | .delay tok => do
    let d ← delayValue tok
    return { sd with delay := d }
  | .side t => do
    let v ← (Step.resolveUint t).orError "bad side-set value"
    return { sd with side := some v }

/-- The loop of `extract_side_delay`, for at most so many clauses. -/
def extractFrom : ℕ → SideDelay → List Text → Step (SideDelay × List Text)
  | 0, sd, tok => return (sd, tok)
  | n + 1, sd, tok =>
    match lastClause tok with
    | none => return (sd, tok)
    | some (c, rest) => do
      let sd ← storeClause sd c
      extractFrom n sd rest

/-- `extract_side_delay`: the clauses' values and the tokens that are left. -/
def extractSideDelay (tok : List Text) : Step (SideDelay × List Text) :=
  extractFrom tok.length { delay := 0, side := none } tok

def packDelaySideset (sd : SideDelay) : Step ℕ := do
  let p ← Step.out
  let ssTotal := if 5 < p.sidesetBits then 5 else p.sidesetBits
  let delayBits := 5 - ssTotal
  Step.require (sd.delay.toNat ≤ 2 ^ delayBits - 1) "delay too large for side-set width"
  let v := sd.delay.toNat
  if 0 < ssTotal then
    if p.sidesetOpt then
      match sd.side with
      | none => return v
      | some side =>
        Step.require (side.toNat ≤ 2 ^ (ssTotal - 1) - 1) "side-set value out of range"
        return v ||| 0x10 ||| (side.toNat <<< delayBits)
    else
      match sd.side with
      | none => Step.error "instruction missing required side-set"
      | some side =>
        Step.require (side.toNat ≤ 2 ^ ssTotal - 1) "side-set value out of range"
        return v ||| (side.toNat <<< delayBits)
  else
    match sd.side with
    | some _ => Step.error "side-set used but .side_set not declared"
    | none => return v

/-! ### Mnemonics

Each encoder is given the tokens behind the mnemonic. -/

def encJmpTarget (cond : ℕ) (tok : List Text) : Step Insn := do
  let addr ← (Step.resolveUintJoin tok).orError "unknown jmp target/label"
  Step.require (addr.toNat ≤ 31) "jmp target out of range (0..31)"
  return encodeJmp cond addr.toNat

def encJmp : List Text → Step Insn
  | [] => Step.error "jmp needs a target"
  | c :: rest =>
    match jmpCond c with
    | some cond =>
      if rest = [] then Step.error "jmp condition needs a target" else encJmpTarget cond rest
    | none => encJmpTarget 0 (c :: rest)

section Version
variable [Platform]

def encWaitJmppin (pol : ℕ) (tok : List Text) : Step Insn := do
  let idx ←
    match tok with
    | [] => pure 0
    | t :: rest =>
      let tok := if ieq t "+".toList then rest else t :: rest
      if tok = [] then Step.error "bad jmppin index"
      else (Step.resolveUintJoin tok).orError "bad jmppin index"
  requireProgVersion 1 "wait jmppin"
  Step.require (idx.toNat ≤ 3) "jmppin index out of range (0..3)"
  return encodeWaitJmppin pol idx.toNat

structure IrqMode where
  rel : Bool
  prev : Bool
  next : Bool

/-- The leading `prev` or `next` and the trailing `rel` of a `wait irq` index, and the index. -/
def waitIrqMode (tok : List Text) : IrqMode × List Text :=
  let (prev, next, tok) :=
    match tok with
    | [] => (false, false, [])
    | t :: rest =>
      if hasIrqPrevnext && ieq t "prev".toList then (true, false, rest)
      else if hasIrqPrevnext && ieq t "next".toList then (false, true, rest)
      else (false, false, t :: rest)
  match tok.getLast? with
  | some last =>
    if ieq last "rel".toList then (⟨true, prev, next⟩, tok.dropLast) else (⟨false, prev, next⟩, tok)
  | none => (⟨false, prev, next⟩, tok)

/-- The index field of `enc_wait` and `enc_irq` for a mode that is not `rel`. -/
def IrqMode.field (mode : IrqMode) (idx : ℕ) : ℕ :=
  if mode.prev then (idx &&& 0x7) ||| 0x08
  else if mode.next then (idx &&& 0x7) ||| 0x18
  else idx &&& 0x1F

def encWaitIndex (pol source : ℕ) (tok : List Text) : Step Insn := do
  let (mode, tok) := if source = 2 then waitIrqMode tok else (⟨false, false, false⟩, tok)
  if tok = [] then Step.error "wait needs an index"
  else
    let idx ← (Step.resolveUintJoin tok).orError "bad wait index"
    if source = 2 then Step.require (idx.toNat ≤ 7) "wait irq index out of range (0..7)"
    else Step.require (idx.toNat ≤ 31) "wait index out of range (0..31)"
    Step.require (¬ (mode.rel = true ∧ (mode.prev || mode.next) = true))
      "wait irq rel cannot combine with prev/next"
    if mode.rel then return encodeWaitIrqRel pol idx.toNat
    else
      if mode.prev || mode.next then requireProgVersion 1 "wait irq prev/next" else pure ()
      return encodeWait pol source (mode.field idx.toNat)

def encWaitSource (pol : ℕ) : List Text → Step Insn
  | [] => Step.error "wait needs a source"
  | src :: rest =>
    match waitSource src with
    | none => Step.error "bad wait source"
    | some source => if source = 3 then encWaitJmppin pol rest else encWaitIndex pol source rest

/-- `enc_wait`: the polarity may be left out. -/
def encWait : List Text → Step Insn
  | [] => Step.error "wait needs <src> <index>"
  | t :: rest =>
    if (waitSource t).isSome then encWaitSource 1 (t :: rest)
    else do
      let pol ← (Step.resolveUint t).orError "bad wait polarity"
      Step.require (pol.toNat ≤ 1) "wait polarity out of range (0..1)"
      encWaitSource pol.toNat rest

/-- What `enc_in`, `enc_out` and `enc_set` share: a named field and a number behind it. -/
def encField (name : Text → Option ℕ) (arity operands range : String) (lo hi : ℕ)
    (encode : ℕ → ℕ → Insn) : List Text → Step Insn
  | [] | [_] => Step.error arity
  | t :: rest =>
    match name t with
    | none => Step.error operands
    | some f => do
      let v ← (Step.resolveUintJoin rest).orError operands
      Step.require (lo ≤ v.toNat ∧ v.toNat ≤ hi) range
      return encode f (v.toNat &&& 0x1F)

def encIn : List Text → Step Insn :=
  encField srcField "in needs <src>, <count>" "bad in operands" "in count out of range (1..32)" 1 32
    encodeIn

def encOut : List Text → Step Insn :=
  encField outDestField "out needs <dest>, <count>" "bad out operands"
    "out count out of range (1..32)" 1 32
    encodeOut

def encSet : List Text → Step Insn :=
  encField setDestField "set needs <dest>, <value>" "bad set operands"
    "set value out of range (0..31)" 0 31
    encodeSet

/-- The loop of `enc_push` and `enc_pull`, over the condition and the blocking flag. -/
def qualifiers (cond msg : String) : Bool → Bool → List Text → Step (Bool × Bool)
  | c, block, [] => return (c, block)
  | c, block, t :: ts =>
    if ieq t cond.toList then qualifiers cond msg true block ts
    else if ieq t "block".toList then qualifiers cond msg c true ts
    else if ieq t "noblock".toList then qualifiers cond msg c false ts
    else Step.error msg

def encPush (args : List Text) : Step Insn := do
  let q ← qualifiers "iffull" "bad push qualifier" false true args
  return encodePush q.1 q.2

def encPull (args : List Text) : Step Insn := do
  let q ← qualifiers "ifempty" "bad pull qualifier" false true args
  return encodePull q.1 q.2

/-- `parse_rxfifo`: the literal index, or none for Y. -/
def parseRxfifo (tok : Text) : Option (Option ℕ) :=
  if (tok.take 7).map lowerAscii = "rxfifo[".toList then
    match tok.drop 7 with
    | [c, ']'] =>
      if c = 'y' ∨ c = 'Y' then some none
      else if isDigit c then some (some (c.toNat - '0'.toNat))
      else none
    | _ => none
  else none

/-- An RX-FIFO move of `enc_mov`, with the join modes it needs. -/
def encMovRxfifo (what fifo : String) (joins : List FifoJoin) (encode : ℕ → Insn) (encodeY : Insn)
    (idx : Option ℕ) : Step Insn := do
  requireProgVersion 1 what
  Step.require (∀ i, idx = some i → i ≤ 3) "rxfifo index out of range (0..3)"
  let out ← Step.out
  Step.require (out.fifoJoin ∈ joins) fifo
  return idx.elim encodeY encode

/-- The plain form of `enc_mov`. -/
def encMovPlain (t s : Text) : Step Insn := do
  if movDestField t = some 3 then requireProgVersion 1 "mov pindirs" else pure ()
  match movDestField t, srcField (movOpOf s).2 with
  | some dest, some src => return encodeMov dest (movOpOf s).1 src
  | _, _ => Step.error "bad mov operands"

/-- `enc_mov`: whatever follows the source token is not looked at. -/
def encMov : List Text → Step Insn
  | t :: s :: _ =>
    match (if hasRxfifoMov && ieq s "isr".toList then parseRxfifo t else none) with
    | some idx =>
      encMovRxfifo "mov rxfifo[]" "FIFO must be configured for txput or putget to use mov rxfifo[]"
        [.rxPut, .rxPutget] encodeMovToRxfifo encodeMovToRxfifoY idx
    | none =>
      match (if hasRxfifoMov && ieq t "osr".toList then parseRxfifo s else none) with
      | some idx =>
        encMovRxfifo "mov osr, rxfifo[]"
          "FIFO must be configured for txget or putget to use mov osr, rxfifo[]"
          [.rxGet, .rxPutget] encodeMovFromRxfifo encodeMovFromRxfifoY idx
      | none => encMovPlain t s
  | _ => Step.error "mov needs <dest>, <src>"

/-- The keywords of `enc_irq`. -/
inductive IrqWord
  | nowait
  | wait
  | clear
  | rel
  | prev
  | next
  deriving DecidableEq

def irqWord (t : Text) : Option IrqWord :=
  if ieq t "nowait".toList || ieq t "set".toList then some .nowait
  else if ieq t "wait".toList then some .wait
  else if ieq t "clear".toList then some .clear
  else if ieq t "rel".toList then some .rel
  else if hasIrqPrevnext && ieq t "prev".toList then some .prev
  else if hasIrqPrevnext && ieq t "next".toList then some .next
  else none

structure IrqFlags where
  clear : Bool
  wait : Bool
  mode : IrqMode

def IrqFlags.set (f : IrqFlags) : IrqWord → IrqFlags
  | .nowait => { f with wait := false }
  | .wait => { f with wait := true }
  | .clear => { f with clear := true }
  | .rel => { f with mode := { f.mode with rel := true } }
  | .prev => { f with mode := { f.mode with prev := true } }
  | .next => { f with mode := { f.mode with next := true } }

/-- The flags the keywords among the tokens leave. -/
def irqFlags (tok : List Text) : IrqFlags :=
  (tok.filterMap irqWord).foldl IrqFlags.set ⟨false, false, false, false, false⟩

/-- The run of tokens from the first that is no keyword to the last. -/
def irqIndex (tok : List Text) : List Text :=
  ((tok.dropWhile fun t => (irqWord t).isSome).reverse.dropWhile
    fun t => (irqWord t).isSome).reverse

def encIrq (args : List Text) : Step Insn := do
  let f := irqFlags args
  if irqIndex args = [] then Step.error "irq needs an index"
  else
    let idx ← (Step.resolveUintJoin (irqIndex args)).orError "bad irq index"
    Step.require (idx.toNat ≤ 7) "irq index out of range (0..7)"
    Step.require (¬ (f.mode.rel = true ∧ (f.mode.prev || f.mode.next) = true))
      "irq rel cannot combine with prev/next"
    if f.mode.rel then return encodeIrqRel f.clear f.wait idx.toNat
    else
      if f.mode.prev || f.mode.next then requireProgVersion 1 "irq prev/next" else pure ()
      return encodeIrq f.clear f.wait (f.mode.field idx.toNat)

inductive Mnemonic
  | nop
  | jmp
  | wait
  | in
  | out
  | push
  | pull
  | mov
  | irq
  | set
  deriving DecidableEq

def mnemonic (m : Text) : Option Mnemonic :=
  (([("nop", .nop), ("jmp", .jmp), ("wait", .wait), ("in", .in), ("out", .out), ("push", .push),
    ("pull", .pull), ("mov", .mov), ("irq", .irq), ("set", .set)] : List (String × Mnemonic)).find?
      fun e => ieq m e.1.toList).map (·.2)

/-- `encode_mnemonic`: a `nop` is encoded whatever follows it. -/
def encodeMnemonic (m : Text) (args : List Text) : Step Insn :=
  match mnemonic m with
  | some .nop => return encodeNop
  | some .jmp => encJmp args
  | some .wait => encWait args
  | some .in => encIn args
  | some .out => encOut args
  | some .push => encPush args
  | some .pull => encPull args
  | some .mov => encMov args
  | some .irq => encIrq args
  | some .set => encSet args
  | none => Step.error "unknown mnemonic"

/-- `assemble_insn`. The mnemonic is read from the first token even where a clause took that. -/
def assembleInsn (tok : List Text) : Step Insn := do
  let (sd, left) ← extractSideDelay tok
  let base ← encodeMnemonic (tok.headD []) left.tail
  let ds ← packDelaySideset sd
  return base ||| BitVec.ofNat 16 (ds <<< 8)

end Version

end PioSim.Asm
