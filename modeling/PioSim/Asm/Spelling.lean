import PioSim.Asm.Encode
import PioSim.Operation

/-!
# What an instruction line spells

The instruction set as its documentation has it, without words or fields: a line is a mnemonic with
its operands, then at most one side-set clause and at most one delay clause. Numbers stay the texts
of their expressions. Nothing in such a line is left over.
-/

namespace PioSim.Asm

/-! ### Names -/

def nameIn {α : Type} (names : List (String × α)) (t : Text) : Option α :=
  (names.find? fun e => ieq t e.1.toList).map (·.2)

def condNames : List (String × JmpCond) :=
  [("!x", .notX), ("x--", .xDec), ("!y", .notY), ("y--", .yDec), ("x!=y", .xNeY), ("pin", .pin),
    ("!osre", .notOsre)]

def sourceNames : List (String × Place) :=
  [("pins", .pins), ("x", .x), ("y", .y), ("null", .null), ("status", .status), ("isr", .isr),
    ("osr", .osr)]

def outNames : List (String × Place) :=
  [("pins", .pins), ("x", .x), ("y", .y), ("null", .null), ("pindirs", .pindirs), ("pc", .pc),
    ("isr", .isr), ("exec", .exec)]

def setNames : List (String × Place) :=
  [("pins", .pins), ("x", .x), ("y", .y), ("pindirs", .pindirs)]

/-- The RX-FIFO slots, by number or by Y. -/
def slotNames : List (String × Option ℕ) :=
  [("rxfifo[y]", none), ("rxfifo[0]", some 0), ("rxfifo[1]", some 1), ("rxfifo[2]", some 2),
    ("rxfifo[3]", some 3)]

section Version
variable [Platform]

def waitNames : List (String × WaitSource) :=
  [("gpio", .gpio), ("pin", .pin), ("irq", .irq)] ++ if hasWaitJmppin then
    [("jmppin", .jmppin)] else []

def movNames : List (String × Place) :=
  [("pins", .pins), ("x", .x), ("y", .y)] ++
    (if hasMovPindirs then [("pindirs", .pindirs)] else []) ++
    [("exec", .exec), ("pc", .pc), ("isr", .isr), ("osr", .osr)]

end Version

/-- The operation marked on a MOV source, and the source. -/
def markedSource : Text → MovOp × Text
  | '!' :: s => (.invert, s)
  | '~' :: s => (.invert, s)
  | ':' :: ':' :: s => (.reverse, s)
  | s => (.none, s)

/-! ### Operands

Each is given the tokens behind the mnemonic. -/

def spelledJmp : List Text → Option (Operation Text)
  | [] => none
  | c :: rest =>
    match nameIn condNames c with
    | some cond => (joinTokens rest).map (.jmp cond)
    | none => (joinTokens (c :: rest)).map (.jmp .always)

def spelledField (names : List (String × Place)) (operation : Place → Text → Operation Text) :
    List Text → Option (Operation Text)
  | [] => none
  | t :: rest => (nameIn names t).bind fun place => (joinTokens rest).map (operation place)

/-- Of `block` and `noblock` the last one counts. -/
def spelledBlock (args : List Text) : Bool :=
  ((args.filter fun t => ieq t "block".toList || ieq t "noblock".toList).getLast?).all
    (ieq · "block".toList)

/-- The qualifiers of PUSH and PULL. -/
def spelledQualifiers (cond : String) (operation : Bool → Bool → Operation Text)
    (args : List Text) :
    Option (Operation Text) :=
  if args.all fun t => ieq t cond.toList || ieq t "block".toList || ieq t "noblock".toList then
    some (operation (args.any (ieq · cond.toList)) (spelledBlock args))
  else none

section Version
variable [Platform]

/-- The index of a wait on the JMP pin, 0 if it is left out. -/
def spelledJmppin : List Text → Option Text
  | [] => some "0".toList
  | t :: rest => if ieq t "+".toList then joinTokens rest else joinTokens (t :: rest)

/-- What the index of a wait on an IRQ refers to, and the index. -/
def spelledIrqRef (tok : List Text) : Option (IrqRef × List Text) :=
  let r : IrqRef × List Text := match tok with
    | [] => (.direct, [])
    | t :: rest =>
      if hasIrqPrevnext && ieq t "prev".toList then (.prev, rest)
      else if hasIrqPrevnext && ieq t "next".toList then (.next, rest)
      else (.direct, t :: rest)
  match r.2.getLast? with
  | none => some r
  | some last =>
    if ieq last "rel".toList then if r.1 = .direct then some (.rel, r.2.dropLast)
      else none else some r

def spelledWaitOn (polarity : Text) : List Text → Option (Operation Text)
  | [] => none
  | t :: rest =>
    (nameIn waitNames t).bind fun source =>
      match source with
      | .jmppin => (spelledJmppin rest).map fun index => .wait polarity .jmppin index .direct
      | .irq =>
        (spelledIrqRef rest).bind fun r => (joinTokens r.2).map fun index =>
          .wait polarity .irq index r.1
      | source => (joinTokens rest).map fun index => .wait polarity source index .direct

/-- The polarity is 1 if it is left out. -/
def spelledWait : List Text → Option (Operation Text)
  | [] => none
  | t :: rest =>
    if (nameIn waitNames t).isSome then spelledWaitOn "1".toList (t :: rest)
      else spelledWaitOn t rest

/-- A MOV has two operands. -/
def spelledMov : List Text → Option (Operation Text)
  | [t, s] =>
    match (if hasRxfifoMov && ieq s "isr".toList then nameIn slotNames t else none) with
    | some index => some (.movToRxfifo index)
    | none =>
      match (if hasRxfifoMov && ieq t "osr".toList then nameIn slotNames s else none) with
      | some index => some (.movFromRxfifo index)
      | none => (nameIn movNames t).bind fun dest =>
        (nameIn sourceNames (markedSource s).2).map fun src =>
          .mov dest (markedSource s).1 src
  | _ => none

def isIrqQualifier (t : Text) : Bool :=
  ieq t "nowait".toList || ieq t "set".toList || ieq t "wait".toList || ieq t "clear".toList ||
    ieq t "rel".toList || hasIrqPrevnext && (ieq t "prev".toList || ieq t "next".toList)

/-- What stands between the qualifiers. -/
def spelledIndex (args : List Text) : List Text :=
  ((args.dropWhile isIrqQualifier).reverse.dropWhile isIrqQualifier).reverse

/-- Of `wait`, `nowait` and `set` the last one counts. -/
def spelledWaits (args : List Text) : Bool :=
  ((args.filter fun t => ieq t "nowait".toList || ieq t "set".toList ||
    ieq t "wait".toList).getLast?).any
    (ieq · "wait".toList)

/-- What the qualifiers make the index refer to. -/
def spelledRef (args : List Text) : IrqRef :=
  if args.any (ieq · "rel".toList) then .rel
  else if hasIrqPrevnext && args.any (ieq · "prev".toList) then .prev
  else if hasIrqPrevnext && args.any (ieq · "next".toList) then .next
  else .direct

def spelledIrq (args : List Text) : Option (Operation Text) :=
  (joinTokens (spelledIndex args)).map fun index =>
    .irq (args.any (ieq · "clear".toList)) (spelledWaits args) index (spelledRef args)

/-- The operation of a mnemonic and its operands; a `nop` has none, and is a move of Y to Y. -/
def spelledOperation (m : Text) (args : List Text) : Option (Operation Text) :=
  match mnemonic m with
  | some .nop => if args = [] then some (.mov .y .none .y) else none
  | some .jmp => spelledJmp args
  | some .wait => spelledWait args
  | some .in => spelledField sourceNames .in args
  | some .out => spelledField outNames .out args
  | some .push => spelledQualifiers "iffull" .push args
  | some .pull => spelledQualifiers "ifempty" .pull args
  | some .mov => spelledMov args
  | some .irq => spelledIrq args
  | some .set => spelledField setNames .set args
  | none => none

end Version

/-! ### Lines -/

/-- The clauses at the end of a line, from the end on and at most so many, and the tokens before
them. -/
def clausesFrom : ℕ → List Text → List Clause × List Text
  | 0, tok => ([], tok)
  | n + 1, tok =>
    match lastClause tok with
    | none => ([], tok)
    | some (c, rest) =>
      let r := clausesFrom n rest
      (c :: r.1, r.2)

def trailingClauses (tok : List Text) : List Clause × List Text := clausesFrom tok.length tok

def Clause.delay? : Clause → Option (List Text)
  | .delay tok => some tok
  | .side _ => none

def Clause.side? : Clause → Option Text
  | .delay _ => none
  | .side t => some t

/-- What an instruction line spells: the tokens of its delay clause and the value of its side-set
clause are there if the clause is. -/
structure SpelledLine where
  operation : Operation Text
  delay : Option (List Text)
  side : Option Text
  deriving DecidableEq

/-- A line with at most one clause of each kind, in which each token has its place. -/
def spelledLine [Platform] (tok : List Text) : Option SpelledLine :=
  let delays := (trailingClauses tok).1.filterMap Clause.delay?
  let sides := (trailingClauses tok).1.filterMap Clause.side?
  match (trailingClauses tok).2 with
  | [] => none
  | m :: args =>
    if delays.length ≤ 1 ∧ sides.length ≤ 1 then
      (spelledOperation m args).map fun op => ⟨op, delays.head?, sides.head?⟩
    else none

end PioSim.Asm
