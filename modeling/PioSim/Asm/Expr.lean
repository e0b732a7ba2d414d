import PioSim.Asm.Text
import PioSim.Execute
import PioSim.Lib.Chain

/-!
# The expression evaluator

`expr_primary` up to `resolve_uint`. Values are 64-bit two's-complement words. How a symbol is
looked up is a parameter, for looking one up may evaluate and store a define: the evaluator threads
a state it does not look into. Recursion on the text is by a fuel that the length of the text
bounds.
-/

namespace PioSim.Asm

/-- An `int64_t` of the evaluator. -/
abbrev Value := BitVec 64

/-- The binary operators. -/
inductive BinOp
  | and
  | or
  | xor
  | mul
  | div
  | add
  | sub
  | shl
  | shr
  deriving DecidableEq, Repr

def exprMaxDepth : ℕ := 64

/-- `expr_t`, but for the nesting depth, which is passed down. `st` is where symbols are looked
up. -/
structure Expr (σ : Type) where
  st : σ
  p : Text
  ok : Bool

namespace Expr

variable {σ : Type}

def fail (e : Expr σ) : Expr σ := { e with ok := false }

def skipWs (e : Expr σ) : Expr σ := { e with p := e.p.dropWhile isBlank }

/-- The reading at the end of a turn of a tier's loop: the new value, and whether it was flagged. -/
def applyOp (op : BinOp) (v r : Value) (e : Expr σ) : Value × Expr σ :=
  match op with
  | .and => (v &&& r, e)
  | .or => (v ||| r, e)
  | .xor => (v ^^^ r, e)
  | .mul => (v * r, e)
  | .div => if r = 0 then (v, e.fail) else (v.sdiv r, e)
  | .add => (v + r, e)
  | .sub => (v - r, e)
  -- `expr_do_shift`
  | .shl => if r.slt 0 || BitVec.slt 63 r then (0, e.fail) else (v <<< r.toNat, e)
  | .shr => if r.slt 0 || BitVec.slt 63 r then (0, e.fail) else (v >>> r.toNat, e)

/-- A tier whose operators `op` reads off the text. -/
def tier (op : Text → Option (BinOp × Text)) : Chain.Tier (Expr σ) Value BinOp where
  size e := e.p.length
  skip := skipWs
  next e := (op e.p).map fun r => (r.1, { e with p := r.2 })
  apply := applyOp

end Expr

/-- The operators of `expr_bit`. -/
def bitOp : Text → Option (BinOp × Text)
  | '&' :: p => some (.and, p)
  | '|' :: p => some (.or, p)
  | '^' :: p => some (.xor, p)
  | _ => none

/-- The operators of `expr_mul`. -/
def mulOp : Text → Option (BinOp × Text)
  | '*' :: p => some (.mul, p)
  | '/' :: p => some (.div, p)
  | _ => none

/-- The operators of `expr_add`. -/
def addOp : Text → Option (BinOp × Text)
  | '+' :: p => some (.add, p)
  | '-' :: p => some (.sub, p)
  | _ => none

/-- The operators of `expr_shift`. -/
def shiftOp : Text → Option (BinOp × Text)
  | '<' :: '<' :: p => some (.shl, p)
  | '>' :: '>' :: p => some (.shr, p)
  | _ => none

section Tiers
variable {σ : Type} (primary : Expr σ → Value × Expr σ)

def exprBit : Expr σ → Value × Expr σ := (Expr.tier bitOp).parse primary

def exprMul : Expr σ → Value × Expr σ := (Expr.tier mulOp).parse (exprBit primary)

def exprAdd : Expr σ → Value × Expr σ := (Expr.tier addOp).parse (exprMul primary)

def exprShift : Expr σ → Value × Expr σ := (Expr.tier shiftOp).parse (exprAdd primary)

end Tiers

/-- `expr_reverse`, with room for so many more levels; `primary` is told the room left for it. -/
def exprReverse {σ : Type} (primary : ℕ → Expr σ → Value × Expr σ) : ℕ → Expr σ → Value × Expr σ
  | 0, e => (0, e.fail)
  | room + 1, e =>
    match e.skipWs.p with
    | ':' :: ':' :: p =>
      let r := exprReverse primary room { e with p := p }
      ((reverse32 (r.1.setWidth 32)).setWidth 64, r.2)
    | _ => exprShift (primary room) e.skipWs

section Primary
variable {σ : Type} (look : σ → Text → Option Word × σ)

/-- The number `expr_primary` reads: its buffer holds 33 characters, the rest of the run is
dropped. -/
def exprNumber (e : Expr σ) : Value × Expr σ :=
  let num := (e.p.takeWhile isNumberChar).take 33
  let e := { e with p := e.p.dropWhile isNumberChar }
  match parseUint num with
  | none => (0, e.fail)
  | some u => (u.setWidth 64, e)

/-- The identifier `expr_primary` reads; one that overflows its buffer is flagged where it does. -/
def exprIdent (e : Expr σ) : Value × Expr σ :=
  let id := e.p.takeWhile isIdentChar
  if 31 < id.length then (0, { e with p := e.p.drop 31, ok := false })
  else
    let r := look e.st id
    let e := { e with st := r.2, p := e.p.dropWhile isIdentChar }
    match r.1 with
    | none => (0, e.fail)
    | some v => (v.setWidth 64, e)

def exprPrimary : ℕ → ℕ → Expr σ → Value × Expr σ
  | 0, _, e => (0, e.fail)
  | fuel + 1, room, e =>
    match e.skipWs.p with
    | [] => (0, e.skipWs.fail)
    | c :: p =>
      if c = '-' then
        let r := exprMul (exprPrimary fuel room) { e with p := p }
        (-r.1, r.2)
      else if c = '(' then
        let r := exprReverse (exprPrimary fuel) room { e with p := p }
        match r.2.skipWs.p with
        | ')' :: p => (r.1, { r.2 with p := p })
        | _ => (r.1, r.2.skipWs.fail)
      else if isDigit c then exprNumber e.skipWs
      else if isIdentStart c then exprIdent look e.skipWs
      else (0, e.skipWs.fail)

/-- The 64-bit value of a whole text, with room for so many levels of nesting. -/
def exprValue (room : ℕ) (st : σ) (s : Text) : Option Value × σ :=
  let r := exprReverse (exprPrimary look s.length) room { st := st, p := s, ok := true }
  let e := r.2.skipWs
  (if e.ok ∧ e.p = [] then some r.1 else none, e.st)

/-- `resolve_uint` over a way of looking symbols up, and the state that leaves. -/
def resolveUintWith (st : σ) (s : Text) : Option Word × σ :=
  let r := exprValue look exprMaxDepth st s
  (r.1.map (·.setWidth 32), r.2)

end Primary

end PioSim.Asm
