import PioSim.Asm.Evaluation

/-!
# Expression trees

The expressions the evaluator is written for, what they mean in 64-bit arithmetic, and how they may
be printed: binary operators associate to the left, a unary minus takes a multiplicative operand and
may not stand before an operator that binds tighter than it, and `::` reaches to the end of its
expression.
-/

namespace PioSim.Asm

/-! ### Trees and values -/

inductive Literal
  | dec (digits : Text)
  | hex (x : Char) (digits : Text)

inductive Tree
  | lit (l : Literal)
  | sym (name : Text)
  | neg (t : Tree)
  | bin (op : BinOp) (l r : Tree)
  | rev (t : Tree)

def isHexDigit (c : Char) : Bool :=
  isDigit c || ('a' ≤ c && c ≤ 'f') || ('A' ≤ c && c ≤ 'F')

/-- The value of one digit, of a base up to sixteen. -/
def digit (c : Char) : ℕ :=
  if isDigit c then c.toNat - '0'.toNat
  else if 'a' ≤ c ∧ c ≤ 'f' then c.toNat - 'a'.toNat + 10
  else c.toNat - 'A'.toNat + 10

/-- The number that digits denote in a base, most significant first. -/
def numeral (base : ℕ) (digits : Text) : ℕ := digits.foldl (fun n c => n * base + digit c) 0

namespace Literal

def text : Literal → Text
  | dec digits => digits
  | hex x digits => '0' :: x :: digits

def magnitude : Literal → ℕ
  | dec digits => numeral 10 digits
  | hex _ digits => numeral 16 digits

/-- A literal of the grammar, short enough for the evaluator's buffer. -/
def WellFormed : Literal → Prop
  | dec digits => digits ≠ [] ∧ (∀ c ∈ digits, isDigit c = true) ∧ digits.length ≤ 33
  | hex x digits => (x = 'x' ∨ x = 'X') ∧ digits ≠ [] ∧ (∀ c ∈ digits, isHexDigit c = true) ∧
    digits.length + 2 ≤ 33

end Literal

namespace BinOp

/-- The precedence tier of an operator; the lower tiers bind tighter. -/
def tier : BinOp → ℕ
  | and | or | xor => 1
  | mul | div => 2
  | add | sub => 3
  | shl | shr => 4

def text : BinOp → Text
  | and => ['&']
  | or => ['|']
  | xor => ['^']
  | mul => ['*']
  | div => ['/']
  | add => ['+']
  | sub => ['-']
  | shl => ['<', '<']
  | shr => ['>', '>']

/-- The operator at these operands is an error: a zero divisor or a shift count outside 0..63. -/
def Faulty (r : Value) : BinOp → Prop
  | div => r = 0
  | shl | shr => r.toInt < 0 ∨ 63 < r.toInt
  | _ => False

instance (op : BinOp) (r : Value) : Decidable (op.Faulty r) := by
  cases op <;> unfold Faulty <;> infer_instance

/-- Two's-complement arithmetic on 64 bits: division truncates, shifts are logical. -/
def value (v r : Value) : BinOp → Value
  | and => v &&& r
  | or => v ||| r
  | xor => v ^^^ r
  | mul => v * r
  | div => v.sdiv r
  | add => v + r
  | sub => v - r
  | shl => v <<< r.toNat
  | shr => v >>> r.toNat

def eval (op : BinOp) (v r : Value) : Option Value :=
  if op.Faulty r then none else some (op.value v r)

end BinOp

def reverseLow (v : Value) : Value := (v.setWidth 32).reverse.setWidth 64

namespace Tree

/-- The value of a tree over the values of its symbols, if nothing in it is an error. -/
def eval (symbol : Text → Option Word) : Tree → Option Value
  | lit l => if l.magnitude < 2 ^ 32 then some (BitVec.ofNat 64 l.magnitude) else none
  | sym name => (symbol name).map (·.setWidth 64)
  | neg t => (t.eval symbol).map (- ·)
  | bin op l r => (l.eval symbol).bind fun v => (r.eval symbol).bind fun w => op.eval v w
  | rev t => (t.eval symbol).map reverseLow

/-- Something in the tree is an error. -/
def Faulty (symbol : Text → Option Word) : Tree → Prop
  | lit l => 2 ^ 32 ≤ l.magnitude
  | sym name => symbol name = none
  | neg t => t.Faulty symbol
  | bin op l r => l.Faulty symbol ∨ r.Faulty symbol ∨ ∃ w, r.eval symbol = some w ∧ op.Faulty w
  | rev t => t.Faulty symbol

theorem eval_eq_none_iff (symbol : Text → Option Word) (t : Tree) :
    t.eval symbol = none ↔ t.Faulty symbol := by
  induction t with
  | lit l =>
    rw [eval, Faulty, ite_eq_right_iff]
    constructor
    · intro h
      by_contra hlt
      cases h (by omega)
    · intro h hlt
      omega
  | sym name => rw [eval, Faulty, Option.map_eq_none_iff]
  | neg t ih => rw [eval, Faulty, Option.map_eq_none_iff, ih]
  | rev t ih => rw [eval, Faulty, Option.map_eq_none_iff, ih]
  | bin op l r ihl ihr =>
    rw [eval, Faulty, ← ihl, ← ihr]
    cases hl : l.eval symbol with
    | none => simp
    | some v =>
      cases hr : r.eval symbol with
      | none => simp
      | some w =>
        simp only [Option.bind_some, BinOp.eval, reduceCtorEq, Option.some.injEq, false_or,
          exists_eq_left', ite_eq_left_iff]
        exact ⟨fun h => by_contra h, fun h hn => absurd h hn⟩

end Tree

/-! ### Printing -/

def Blank (s : Text) : Prop := ∀ c ∈ s, isBlank c = true

def IsSymbol (s : Text) : Prop :=
  (∃ c p, s = c :: p ∧ isIdentStart c = true) ∧ (∀ c ∈ s, isIdentChar c = true) ∧ s.length ≤ 31

/-- The tier of a whole expression, where `::` is allowed. -/
def exprTier : ℕ := 5

/-- `Prints t k o d s`: the text `s` prints the tree where an expression of tier `k` is expected, at
tier 0 a primary. Blanks may precede every token and parentheses enclose every expression; they are
needed only where the tree's own tier is looser. `o` says that a unary minus is open at the end, `d`
is the nesting of parentheses and `::`. -/
inductive Prints : Tree → ℕ → Bool → ℕ → Text → Prop
  | lit (l : Literal) (ws : Text) : Blank ws → l.WellFormed →
    Prints (.lit l) 0 false 0 (ws ++ l.text)
  | sym (name ws : Text) : Blank ws → IsSymbol name → Prints (.sym name) 0 false 0 (ws ++ name)
  | paren (t : Tree) (o : Bool) (d : ℕ) (s ws ws' : Text) : Blank ws → Blank ws' →
    Prints t exprTier o d s → Prints t 0 false (d + 1) (ws ++ '(' :: (s ++ (ws' ++ [')'])))
  -- the operand of a unary minus is multiplicative
  | neg (t : Tree) (o : Bool) (d : ℕ) (s ws : Text) : Blank ws → Prints t 2 o d s →
    Prints (.neg t) 0 true d (ws ++ '-' :: s)
  -- an open unary minus would take a following operator of its own operand's tiers for itself
  | bin (op : BinOp) (l r : Tree) (ol or : Bool) (dl dr : ℕ) (sl sr ws : Text) : Blank ws →
    (op.tier ≤ 2 → ol = false) → Prints l op.tier ol dl sl → Prints r (op.tier - 1) or dr sr →
    Prints (.bin op l r) op.tier (ol || or) (max dl dr) (sl ++ (ws ++ (op.text ++ sr)))
  | tighter (t : Tree) (k : ℕ) (o : Bool) (d : ℕ) (s : Text) : k < exprTier → Prints t k o d s →
    Prints t (k + 1) o d s
  | rev (t : Tree) (o : Bool) (d : ℕ) (s ws : Text) : Blank ws → Prints t exprTier o d s →
    Prints (.rev t) exprTier o (d + 1) (ws ++ ':' :: ':' :: s)

theorem Blank.nil : Blank [] := fun _ h => absurd h List.not_mem_nil

theorem Prints.loosen {t : Tree} {k j : ℕ} {o : Bool} {d : ℕ} {s : Text} (h : Prints t k o d s)
    (hkj : k ≤ j) (hj : j ≤ exprTier) : Prints t j o d s := by
  induction j, hkj using Nat.le_induction with
  | base => exact h
  | succ j _ ih => exact (ih (by omega)).tighter _ _ _ _ _ (by omega)

end PioSim.Asm
