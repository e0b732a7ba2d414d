import PioSim.Platform

/-!
# Text of the assembler

The string helpers of `pio_asm.c`. A C string is the list of its characters, so that the terminator
is the end of the list.
-/

namespace PioSim.Asm

abbrev Text := List Char

instance : LawfulBEq Text := inferInstance

/-- What holds of all characters of a text is decided on the text, not on all the characters there
are. -/
instance (P : Char → Prop) [DecidablePred P] (s : Text) : Decidable (∀ c ∈ s, P c) :=
  List.decidableBAll P s

/-- `MAX_LABELS`, `MAX_DEFINES`, `MAX_LINE` and `MAX_TOKENS`. -/
def maxLabels : ℕ := 32
def maxDefines : ℕ := 32
def maxLine : ℕ := 256
def maxTokens : ℕ := 16

def lowerAscii (c : Char) : Char :=
  if 'A' ≤ c ∧ c ≤ 'Z' then Char.ofNat (c.toNat + 32) else c

def ieq (a b : Text) : Bool := a.map lowerAscii == b.map lowerAscii

/-- A blank of the expression evaluator and of the line cleaner. -/
def isBlank (c : Char) : Bool := c == ' ' || c == '\t'

def isDigit (c : Char) : Bool := '0' ≤ c && c ≤ '9'

/-- A first character of an identifier. -/
def isIdentStart (c : Char) : Bool :=
  ('a' ≤ c && c ≤ 'z') || ('A' ≤ c && c ≤ 'Z') || c == '_'

def isIdentChar (c : Char) : Bool := isIdentStart c || isDigit c

/-- The characters the evaluator gathers into a number. -/
def isNumberChar (c : Char) : Bool :=
  isDigit c || ('a' ≤ c && c ≤ 'f') || ('A' ≤ c && c ≤ 'F') || c == 'x' || c == 'X'

def digitValue (base : ℕ) (c : Char) : Option ℕ :=
  if base = 2 ∧ (c = '0' ∨ c = '1') then some (c.toNat - '0'.toNat)
  else if base ≠ 2 ∧ isDigit c then some (c.toNat - '0'.toNat)
  else if base = 16 ∧ 'a' ≤ c ∧ c ≤ 'f' then some (c.toNat - 'a'.toNat + 10)
  else if base = 16 ∧ 'A' ≤ c ∧ c ≤ 'F' then some (c.toNat - 'A'.toNat + 10)
  else none

/-- The loop of `parse_uint`: a digit that would take the value past 32 bits is refused. -/
def parseDigits (base : ℕ) : ℕ → Text → Option ℕ
  | v, [] => some v
  | v, c :: s =>
    match digitValue base c with
    | none => none
    | some digit =>
      if (4294967295 - digit) / base < v then none else parseDigits base (v * base + digit) s

def parseUint : Text → Option Word
  | [] => none
  | '0' :: 'x' :: s | '0' :: 'X' :: s =>
    if s = [] then none else (parseDigits 16 0 s).map (BitVec.ofNat 32)
  | '0' :: 'b' :: s | '0' :: 'B' :: s =>
    if s = [] then none else (parseDigits 2 0 s).map (BitVec.ofNat 32)
  | s => (parseDigits 10 0 s).map (BitVec.ofNat 32)

def isSeparator (c : Char) : Bool := c == ' ' || c == '\t' || c == ','

/-- The stretches between separators, empty ones included. -/
def stretches : Text → List Text
  | [] => [[]]
  | c :: s =>
    if isSeparator c then [] :: stretches s
    else match stretches s with
      | [] => [[c]]
      | t :: ts => (c :: t) :: ts

def tokensOf (line : Text) : List Text := (stretches line).filter (· ≠ [])

/-- `tokenize`: at most `max` tokens, and whether more were left over. -/
def tokenize (line : Text) (max : ℕ) : List Text × Bool :=
  ((tokensOf line).take max, decide (max < (tokensOf line).length))

/-- `join_tokens` into a buffer of `MAX_LINE` characters. -/
def joinTokens (tok : List Text) : Option Text :=
  match tok.foldlM (fun (buf tok : Text) =>
      if maxLine ≤ buf.length + tok.length + 2 then none
      else some (if buf = [] then tok else buf ++ ' ' :: tok)) [] with
  | some [] => none
  | r => r

end PioSim.Asm
