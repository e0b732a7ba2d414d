import Mathlib.Data.Nat.Notation
import Mathlib.Logic.Function.Basic

/-!
# Target chip and machine words

The simulator is compiled for one of two chips. `Platform` carries that choice, so that every
definition and theorem below is about both builds. Registers and FIFO words are 32-bit vectors,
pin masks 64-bit vectors; `uint8_t` counters are natural numbers with their wrap-around written out.
-/

namespace PioSim

/-- `PIO_SIM_PIO_VERSION`: version 0 is the RP2040, version 1 the RP2350. -/
inductive PioVersion
  | rp2040
  | rp2350
  deriving DecidableEq, Repr

class Platform where
  version : PioVersion

section Features
variable [P : Platform]

/-- Every feature gate of `pio_sim_config.h` is `PIO_SIM_PIO_VERSION >= 1`. -/
def isRp2350 : Bool := P.version == .rp2350

def hasRxfifoMov : Bool := isRp2350
def hasIrqStatus : Bool := isRp2350
def hasWaitJmppin : Bool := isRp2350
def hasIrqPrevnext : Bool := isRp2350
def hasGpioBase : Bool := isRp2350
def hasMovPindirs : Bool := isRp2350
def hasInPinCount : Bool := isRp2350
def hasIntrIrq8 : Bool := isRp2350
def hasPadIso : Bool := isRp2350

def numPins : ℕ := if hasGpioBase then 48 else 32
def numPio : ℕ := if isRp2350 then 3 else 2
def dmaNumChannels : ℕ := if isRp2350 then 16 else 12

theorem numPins_pos : 0 < numPins := by unfold numPins; split <;> omega

theorem numPins_le : numPins ≤ 48 := by unfold numPins; split <;> omega

theorem dmaNumChannels_pos : 0 < dmaNumChannels := by unfold dmaNumChannels; split <;> omega

theorem dmaNumChannels_le : dmaNumChannels ≤ 16 := by unfold dmaNumChannels; split <;> omega

end Features

abbrev Word := BitVec 32
abbrev Mask := BitVec 64
abbrev Insn := BitVec 16

instance neZero_two : @NeZero ℕ Zero.ofOfNat0 2 := ⟨by decide⟩
instance neZero_four : @NeZero ℕ Zero.ofOfNat0 4 := ⟨by decide⟩
instance neZero_eight : @NeZero ℕ Zero.ofOfNat0 8 := ⟨by decide⟩
instance neZero_thirtyTwo : @NeZero ℕ Zero.ofOfNat0 32 := ⟨by decide⟩

def u8 (n : ℕ) : ℕ := n % 256

def u32 (n : ℕ) : ℕ := n % 4294967296

/-- `mask_n`: the low `n` bits set, all of them from 32 on. -/
def maskN (n : ℕ) : Word := if 32 ≤ n then BitVec.allOnes 32 else (1#32 <<< n) - 1#32

def pinBit (pin : ℕ) : Mask := 1#64 <<< pin

theorem getLsbD_maskN_lt (n k : Fin 32) :
    ((1#32 <<< n.val) - 1#32).getLsbD k = decide (k < n) := by
  revert n k
  decide +kernel

theorem getLsbD_maskN (n k : ℕ) :
    (maskN n).getLsbD k = (decide (k < 32) && decide (k < n)) := by
  by_cases hk : k < 32
  · by_cases hn : 32 ≤ n
    · have hkn : k < n := by omega
      simp only [maskN, if_pos hn, BitVec.getLsbD_allOnes, hk, hkn, decide_true, Bool.and_self]
    · simp only [maskN, if_neg hn, hk, decide_true, Bool.true_and]
      exact getLsbD_maskN_lt ⟨n, by omega⟩ ⟨k, hk⟩
  · have hge : (maskN n).getLsbD k = false := BitVec.getLsbD_of_ge _ _ (by omega)
    simp only [hge, hk, decide_false, Bool.false_and]

theorem getLsbD_pinBit (pin k : ℕ) :
    (pinBit pin).getLsbD k = (decide (k < 64) && decide (k = pin)) := by
  by_cases h : k = pin <;> by_cases hk : k < 64 <;> simp [pinBit, BitVec.getLsbD_shiftLeft, h] <;>
    omega

end PioSim
