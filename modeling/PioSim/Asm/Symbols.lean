import PioSim.Asm.Expr
import PioSim.StateMachine

/-!
# Symbols

The assembler's context: the program it fills in, the label and define tables and the line it is on.
A define is evaluated when it is first looked up and keeps its value from then on.
-/

namespace PioSim.Asm

/-- `in_cfg`, `out_cfg` and `set_cfg`. -/
structure ShiftCfg where
  set : Bool
  count : ℕ
  dir : ShiftDir
  autoshift : Bool
  threshold : ℕ
  deriving DecidableEq

/-- `pio_program_t`. An unset `pio_version` of -1 is `none`. -/
structure Program where
  insns : Fin 32 → Insn
  count : ℕ
  sidesetBits : ℕ
  sidesetOpt : Bool
  sidesetPindirs : Bool
  wrapBottom : ℕ
  wrapTop : ℕ
  publicLabels : List (Text × ℕ)
  name : Text
  hasOrigin : Bool
  origin : ℕ
  pioVersion : Option ℕ
  hasClockDiv : Bool
  clockDiv : Float
  hasFifoJoin : Bool
  fifoJoin : FifoJoin
  hasMovStatus : Bool
  movStatusSel : StatusSel
  movStatusN : ℕ
  inCfg : ShiftCfg
  outCfg : ShiftCfg
  setCfg : ShiftCfg
  ok : Bool
  errorLine : ℕ
  error : String

/-- The output `pio_asm_assemble` starts from; a `wrapTop` of 255 says that `.wrap` has not been
seen. -/
def Program.start : Program :=
  { insns := fun _ => 0, count := 0, sidesetBits := 0, sidesetOpt := false, sidesetPindirs := false
    wrapBottom := 0, wrapTop := 255, publicLabels := [], name := [], hasOrigin := false, origin := 0
    pioVersion := none, hasClockDiv := false, clockDiv := 0, hasFifoJoin := false, fifoJoin := .none
    hasMovStatus := false, movStatusSel := .txLevel, movStatusN := 0
    inCfg := { set := false, count := 0, dir := .left, autoshift := false, threshold := 0 }
    outCfg := { set := false, count := 0, dir := .left, autoshift := false, threshold := 0 }
    setCfg := { set := false, count := 0, dir := .left, autoshift := false, threshold := 0 }
    ok := true, errorLine := 0, error := "" }

structure Label where
  name : Text
  index : ℕ
  isPublic : Bool
  deriving DecidableEq

structure Define where
  name : Text
  expr : Text
  value : Word
  line : ℕ
  resolved : Bool
  visiting : Bool
  deriving DecidableEq

/-- `asm_ctx_t`. The last two fields are history variables: `operands` lists the texts
`resolve_uint` was called with from outside the evaluator, `evaluated` the defines whose stored text
it went on to evaluate. No function reads them. -/
structure AsmCtx where
  out : Program
  labels : List Label
  defines : List Define
  lineNo : ℕ
  operands : List Text := []
  evaluated : List Text := []

namespace AsmCtx

/-- `pa_set_error`: the first error stays. -/
def setError (ctx : AsmCtx) (msg : String) : AsmCtx :=
  if ctx.out.ok then
    { ctx with out := { ctx.out with ok := false, errorLine := ctx.lineNo, error := msg } }
  else ctx

def findLabel (ctx : AsmCtx) (name : Text) : Option ℕ :=
  (ctx.labels.find? (·.name = name)).map (·.index)

/-- The entry `resolve_define_value` stops at. -/
def findDefine (ctx : AsmCtx) (name : Text) : Option Define := ctx.defines.find? (·.name = name)

def defineDeclared (ctx : AsmCtx) (name : Text) : Bool := (ctx.findDefine name).isSome

def modifyDefine (ctx : AsmCtx) (name : Text) (f : Define → Define) : AsmCtx :=
  { ctx with defines := modifyFirst ctx.defines }
where
  modifyFirst : List Define → List Define
    | [] => []
    | d :: ds => if d.name = name then f d :: ds else d :: modifyFirst ds

def noteOperand (ctx : AsmCtx) (s : Text) : AsmCtx := { ctx with operands := ctx.operands ++ [s] }

def noteDefine (ctx : AsmCtx) (name : Text) : AsmCtx :=
  { ctx with evaluated := ctx.evaluated ++ [name] }

/-- The identifier case of `expr_primary`, with `resolve_define_value`: a define first, then a
label. The fuel bounds the chain of defines being evaluated. -/
def lookSymbol : ℕ → AsmCtx → Text → Option Word × AsmCtx
  | 0, ctx, _ => (none, ctx)
  | fuel + 1, ctx, id =>
    match ctx.findDefine id with
    | none => ((ctx.findLabel id).map (BitVec.ofNat 32), ctx)
    | some d =>
      if d.resolved then (some d.value, ctx)
      else if d.visiting then
        (none, { ctx with lineNo := d.line }.setError
          ("circular .define reference: '" ++ String.ofList d.name ++ "'"))
      else
        let r := resolveUintWith (lookSymbol fuel)
          ((ctx.modifyDefine id fun d => { d with visiting := true }).noteDefine id) d.expr
        let ctx := r.2.modifyDefine id fun d => { d with visiting := false }
        match r.1 with
        | none =>
          (none, { ctx with lineNo := d.line }.setError
            ("unresolvable .define '" ++ String.ofList d.name ++ "' (undefined symbol)"))
        | some v => (some v, ctx.modifyDefine id fun d => { d with value := v, resolved := true })

/-- `lookSymbol` with fuel for every define there is. -/
def lookup (ctx : AsmCtx) (id : Text) : Option Word × AsmCtx :=
  lookSymbol (ctx.defines.length + 1) ctx id

def resolveUint (ctx : AsmCtx) (s : Text) : Option Word × AsmCtx :=
  let r := resolveUintWith (lookSymbol (ctx.defines.length + 1)) ctx s
  (r.1, r.2.noteOperand s)

def resolveUintJoin (ctx : AsmCtx) (tok : List Text) : Option Word × AsmCtx :=
  match joinTokens tok with
  | none => (none, ctx)
  | some s => ctx.resolveUint s

/-- `declare_define`, from a declaration on the current line. -/
def declareDefine (ctx : AsmCtx) (name expr : Text) : Option AsmCtx :=
  if 32 ≤ name.length ∨ maxLine ≤ expr.length then none
  else if ctx.defineDeclared name then none
  else if maxDefines ≤ ctx.defines.length then none
  else some { ctx with
    defines := ctx.defines ++
      [{ name := name, expr := expr, value := 0, line := ctx.lineNo, resolved := false
         visiting := false }] }

end AsmCtx

end PioSim.Asm
