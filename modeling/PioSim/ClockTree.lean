import PioSim.Platform
import PioSim.Lib.Rounding
import Mathlib.Tactic.NormNum
import Mathlib.Tactic.Ring

/-!
# The clock tree

A crystal feeds a PLL, the PLL or the crystal itself feeds the fractional divider, and the divider
makes `clk_sys`. A tree is validated against the limits of the chip; a valid one gives a tick its
duration, and tick counts convert to time and back in 64-bit integer arithmetic.

The frequency of a valid tree is the exact one rounded to nearest, the conversions are the exact
ones rounded to nearest and up wherever their results fit in 64 bits. On the RP2040 the divider is
wide enough to bring a crystal below half a hertz, which is reported as 0; and the truncated
reference frequency decides the VCO limits.
-/

namespace PioSim

def u64 (n : ℕ) : ℕ := n % 18446744073709551616

theorem u64_of_lt {n : ℕ} (h : n < 18446744073709551616) : u64 n = n := Nat.mod_eq_of_lt h

section Limits
variable [P : Platform]

/-- `CLK_SYS_DIV` is 24.8 on the RP2040 and 16.16 on the RP2350. -/
def clkSysDivFracBits : ℕ := if isRp2350 then 16 else 8
def clkSysDivIntMax : ℕ := if isRp2350 then 0xFFFF else 0xFFFFFF
def clkSysBootPostdiv1 : BitVec 8 := if isRp2350 then 5 else 6
def pllVcoMinHz : ℕ := if isRp2350 then 400000000 else 750000000
def pllVcoMaxHz : ℕ := 1600000000

end Limits

structure ClkTree where
  xoscHz : BitVec 64
  pllRefdiv : BitVec 16
  pllFbdiv : BitVec 16
  pllPostdiv1 : BitVec 8
  pllPostdiv2 : BitVec 8
  clksysDivInt : BitVec 32
  clksysDivFrac : BitVec 32
  bypassPll : Bool
  deriving DecidableEq

inductive ClkErr
  | ok
  | xoscRange
  | refdivRange
  | fbdivRange
  | vcoRange
  | postdivRange
  | divRange
  deriving DecidableEq

def muldivRound (ticks scale hz : ℕ) : ℕ :=
  if hz = 0 then 0
  else
    let whole := u64 (ticks / hz * scale)
    let rem := u64 (ticks % hz * scale)
    u64 (whole + u64 (rem + hz / 2) / hz)

def muldivCeil (time hz scale : ℕ) : ℕ :=
  let whole := u64 (time / scale * hz)
  let rem := u64 (time % scale * hz)
  u64 (whole + u64 (rem + scale - 1) / scale)

namespace ClkTree
variable [P : Platform]

def initDefault : ClkTree where
  xoscHz := 12000000
  pllRefdiv := 1
  pllFbdiv := 125
  pllPostdiv1 := clkSysBootPostdiv1
  pllPostdiv2 := 2
  clksysDivInt := 1
  clksysDivFrac := 0
  bypassPll := false

def vcoHz (t : ClkTree) : ℕ :=
  if t.pllRefdiv = 0 then 0
  else u64 (t.xoscHz.toNat / t.pllRefdiv.toNat * t.pllFbdiv.toNat)

def validate (t : ClkTree) : ClkErr :=
  if t.xoscHz.toNat < 1000000 ∨ t.xoscHz.toNat > 15000000 then .xoscRange
  else if t.clksysDivInt = 0 ∨ t.clksysDivInt.toNat > clkSysDivIntMax ∨
      t.clksysDivFrac.toNat >>> clkSysDivFracBits ≠ 0 then .divRange
  else if t.bypassPll then .ok
  else if t.pllRefdiv.toNat < 1 ∨ t.pllRefdiv.toNat > 63 ∨
      t.xoscHz.toNat / t.pllRefdiv.toNat < 5000000 then .refdivRange
  else if t.pllFbdiv.toNat < 16 ∨ t.pllFbdiv.toNat > 320 then .fbdivRange
  else if t.vcoHz < pllVcoMinHz ∨ t.vcoHz > pllVcoMaxHz then .vcoRange
  else if t.pllPostdiv1.toNat < 1 ∨ t.pllPostdiv1.toNat > 7 ∨
      t.pllPostdiv2.toNat < 1 ∨ t.pllPostdiv2.toNat > 7 then .postdivRange
  else .ok

/-- The trial tree of `pio_clk_configure_pll`. -/
def trial (t : ClkTree) (refdiv fbdiv : BitVec 16) (postdiv1 postdiv2 : BitVec 8) : ClkTree :=
  { t with
    pllRefdiv := refdiv
    pllFbdiv := fbdiv
    pllPostdiv1 := postdiv1
    pllPostdiv2 := postdiv2
    bypassPll := false }

/-- `pio_clk_configure_pll`: the verdict, and the tree it leaves. -/
def configurePll (t : ClkTree) (refdiv fbdiv : BitVec 16) (postdiv1 postdiv2 : BitVec 8) :
    ClkErr × ClkTree :=
  let trial := t.trial refdiv fbdiv postdiv1 postdiv2
  let err := trial.validate
  (err, if err = .ok then trial else t)

def sysHz (t : ClkTree) : ℕ :=
  if t.validate ≠ .ok then 0
  else
    let src := if t.bypassPll then t.xoscHz.toNat
      else t.vcoHz / t.pllPostdiv1.toNat / t.pllPostdiv2.toNat
    let den := u64 (t.clksysDivInt.toNat <<< clkSysDivFracBits) ||| t.clksysDivFrac.toNat
    let num := u64 (src <<< clkSysDivFracBits)
    u64 (num + den / 2) / den

def ticksToNs (t : ClkTree) (ticks : ℕ) : ℕ := muldivRound ticks 1000000000 t.sysHz
def ticksToUs (t : ClkTree) (ticks : ℕ) : ℕ := muldivRound ticks 1000000 t.sysHz
def nsToTicks (t : ClkTree) (ns : ℕ) : ℕ := muldivCeil ns t.sysHz 1000000000
def usToTicks (t : ClkTree) (us : ℕ) : ℕ := muldivCeil us t.sysHz 1000000

/-! ## What validation admits -/

/-- The checks made of every tree: the crystal and the `clk_sys` divider. -/
structure Feeds (t : ClkTree) : Prop where
  crystal_ge : 1000000 ≤ t.xoscHz.toNat
  crystal_le : t.xoscHz.toNat ≤ 15000000
  divider_pos : 1 ≤ t.clksysDivInt.toNat
  divider_le : t.clksysDivInt.toNat ≤ clkSysDivIntMax
  frac_lt : t.clksysDivFrac.toNat < 2 ^ clkSysDivFracBits

/-- The checks of the PLL that do not depend on its frequencies. -/
structure Dividers (t : ClkTree) : Prop where
  refdiv_pos : 1 ≤ t.pllRefdiv.toNat
  refdiv_le : t.pllRefdiv.toNat ≤ 63
  fbdiv_ge : 16 ≤ t.pllFbdiv.toNat
  fbdiv_le : t.pllFbdiv.toNat ≤ 320
  postdiv1_pos : 1 ≤ t.pllPostdiv1.toNat
  postdiv1_le : t.pllPostdiv1.toNat ≤ 7
  postdiv2_pos : 1 ≤ t.pllPostdiv2.toNat
  postdiv2_le : t.pllPostdiv2.toNat ≤ 7

/-- The truncated reference frequency, by which the PLL is judged. -/
def reference (t : ClkTree) : ℕ := t.xoscHz.toNat / t.pllRefdiv.toNat

/-- The checks of the PLL's frequencies. -/
structure Locks (t : ClkTree) : Prop where
  reference_ge : 5000000 ≤ t.reference
  vco_ge : pllVcoMinHz ≤ t.reference * t.pllFbdiv.toNat
  vco_le : t.reference * t.pllFbdiv.toNat ≤ pllVcoMaxHz

theorem vcoHz_eq {t : ClkTree} (hfeeds : t.Feeds) (hdiv : t.Dividers) :
    t.vcoHz = t.reference * t.pllFbdiv.toNat := by
  have hne : t.pllRefdiv ≠ 0 := by
    rintro h
    have := hdiv.refdiv_pos
    rw [h] at this
    exact absurd this (by decide)
  have href : t.reference ≤ 15000000 := (Nat.div_le_self _ _).trans hfeeds.crystal_le
  have hprod : t.reference * t.pllFbdiv.toNat ≤ 15000000 * 320 := Nat.mul_le_mul href hdiv.fbdiv_le
  rw [vcoHz, if_neg hne]
  exact u64_of_lt (by unfold reference at hprod; omega)

/-- A tree is accepted when its crystal and divider are in range and, unless bypassed, its PLL
is. -/
theorem validate_ok_iff (t : ClkTree) :
    t.validate = .ok ↔ t.Feeds ∧ (t.bypassPll = true ∨ t.Dividers ∧ t.Locks) := by
  have hzero : t.clksysDivInt = 0 ↔ ¬ 1 ≤ t.clksysDivInt.toNat := by
    rw [← BitVec.toNat_inj]
    simp
  have hfrac : t.clksysDivFrac.toNat >>> clkSysDivFracBits ≠ 0 ↔
      ¬ t.clksysDivFrac.toNat < 2 ^ clkSysDivFracBits := by
    rw [Nat.shiftRight_eq_div_pow, Ne, Nat.div_eq_zero_iff_lt (by positivity)]
  constructor
  · intro h
    unfold validate at h
    split_ifs at h with hx hd hb hr hf hv hp
    · rw [hzero, hfrac] at hd
      exact ⟨⟨by omega, by omega, by omega, by omega, by tauto⟩, .inl hb⟩
    · rw [hzero, hfrac] at hd
      have hfeeds : t.Feeds := ⟨by omega, by omega, by omega, by omega, by tauto⟩
      have hdiv : t.Dividers :=
        ⟨by omega, by omega, by omega, by omega, by omega, by omega, by omega, by omega⟩
      rw [vcoHz_eq hfeeds hdiv] at hv
      exact ⟨hfeeds, .inr ⟨hdiv, by unfold reference; omega, by omega, by omega⟩⟩
  · rintro ⟨hfeeds, hpll⟩
    have hdivider : ¬ (t.clksysDivInt = 0 ∨ t.clksysDivInt.toNat > clkSysDivIntMax ∨
        t.clksysDivFrac.toNat >>> clkSysDivFracBits ≠ 0) := by
      rw [hzero, hfrac, not_or, not_or, not_not, not_not]
      exact ⟨hfeeds.divider_pos, not_lt.mpr hfeeds.divider_le, hfeeds.frac_lt⟩
    unfold validate
    rw [if_neg (by have := hfeeds.crystal_ge; have := hfeeds.crystal_le; omega), if_neg hdivider]
    by_cases hb : t.bypassPll = true
    · rw [if_pos hb]
    · obtain ⟨hdiv, hlocks⟩ := hpll.resolve_left hb
      rw [if_neg hb, vcoHz_eq hfeeds hdiv]
      obtain ⟨h1, h2, h3, h4, h5, h6, h7, h8⟩ := hdiv
      obtain ⟨hr, hmin, hmax⟩ := hlocks
      unfold reference at hr
      rw [if_neg (by omega), if_neg (by omega), if_neg (by omega), if_neg (by omega)]

/-! ## The frequency of a valid tree -/

def source (t : ClkTree) : ℕ :=
  if t.bypassPll then t.xoscHz.toNat
  else t.reference * t.pllFbdiv.toNat / t.pllPostdiv1.toNat / t.pllPostdiv2.toNat

def divisor (t : ClkTree) : ℕ := t.clksysDivInt.toNat * 2 ^ clkSysDivFracBits +
    t.clksysDivFrac.toNat

def exactHz (t : ClkTree) : ℚ := t.source * 2 ^ clkSysDivFracBits / t.divisor

theorem fracBits_pow : 2 ^ clkSysDivFracBits = if isRp2350 then 65536 else 256 := by
  unfold clkSysDivFracBits
  split <;> rfl

theorem fracBits_pow_le : 2 ^ clkSysDivFracBits ≤ 65536 := by
  rw [fracBits_pow]
  split <;> omega

theorem source_le {t : ClkTree} (hok : t.validate = .ok) : t.source ≤ 1600000000 := by
  obtain ⟨hfeeds, hpll⟩ := (validate_ok_iff t).mp hok
  unfold source
  split
  · exact hfeeds.crystal_le.trans (by omega)
  · rename_i hbypass
    have hlocks := (hpll.resolve_left hbypass).2
    calc t.reference * t.pllFbdiv.toNat / t.pllPostdiv1.toNat / t.pllPostdiv2.toNat
        ≤ t.reference * t.pllFbdiv.toNat := (Nat.div_le_self _ _).trans (Nat.div_le_self _ _)
      _ ≤ 1600000000 := hlocks.vco_le

theorem divisor_ge {t : ClkTree} (hfeeds : t.Feeds) : 2 ^ clkSysDivFracBits ≤ t.divisor :=
  (Nat.le_mul_of_pos_left _ hfeeds.divider_pos).trans (Nat.le_add_right _ _)

theorem divisor_lt {t : ClkTree} (hfeeds : t.Feeds) : t.divisor < 4294967296 := by
  have hint := hfeeds.divider_le
  have hfrac := hfeeds.frac_lt
  rw [fracBits_pow] at hfrac
  rw [divisor, fracBits_pow]
  unfold clkSysDivIntMax at hint
  cases hchip : isRp2350 with
  | true =>
    simp only [hchip, if_true] at hint hfrac ⊢
    omega
  | false =>
    simp only [hchip, Bool.false_eq_true, if_false] at hint hfrac ⊢
    omega

/-- The divider's two fields side by side are the divisor. -/
theorem den_eq {t : ClkTree} (hfeeds : t.Feeds) :
    u64 (t.clksysDivInt.toNat <<< clkSysDivFracBits) ||| t.clksysDivFrac.toNat = t.divisor := by
  have hlt := divisor_lt hfeeds
  unfold divisor at hlt ⊢
  rw [u64_of_lt (by rw [Nat.shiftLeft_eq]; omega), ← Nat.shiftLeft_add_eq_or_of_lt hfeeds.frac_lt,
    Nat.shiftLeft_eq]

/-- A valid tree's frequency is the exact one, rounded to nearest. -/
theorem sysHz_eq {t : ClkTree} (hok : t.validate = .ok) : (t.sysHz : ℤ) = round t.exactHz := by
  obtain ⟨hfeeds, hpll⟩ := (validate_ok_iff t).mp hok
  have hsource := source_le hok
  have hdivisor := divisor_lt hfeeds
  have hpos : 0 < t.divisor := (Nat.two_pow_pos _).trans_le (divisor_ge hfeeds)
  have hnum : t.source * 2 ^ clkSysDivFracBits ≤ 1600000000 * 65536 :=
    Nat.mul_le_mul hsource fracBits_pow_le
  have hsrc : (if t.bypassPll = true then t.xoscHz.toNat
      else t.vcoHz / t.pllPostdiv1.toNat / t.pllPostdiv2.toNat) = t.source := by
    unfold source
    by_cases hbypass : t.bypassPll = true
    · rw [if_pos hbypass, if_pos hbypass]
    · rw [if_neg hbypass, if_neg hbypass, vcoHz_eq hfeeds (hpll.resolve_left hbypass).1]
  have hcast : t.exactHz = ((t.source * 2 ^ clkSysDivFracBits : ℕ) : ℚ) / t.divisor := by
    rw [exactHz]
    push_cast
    rfl
  rw [hcast, Rounding.round_div hpos, sysHz, if_neg (not_not.mpr hok)]
  simp only [hsrc, den_eq hfeeds]
  rw [Nat.shiftLeft_eq, u64_of_lt (n := t.source * _) (by omega), u64_of_lt (by omega)]

theorem sysHz_of_invalid {t : ClkTree} (hbad : t.validate ≠ .ok) : t.sysHz = 0 := if_pos hbad

theorem exactHz_le {t : ClkTree} (hok : t.validate = .ok) : t.exactHz ≤ 1600000000 := by
  have hfeeds := ((validate_ok_iff t).mp hok).1
  have hpos : (0 : ℚ) < t.divisor := by
    exact_mod_cast (Nat.two_pow_pos _).trans_le (divisor_ge hfeeds)
  have hle : t.source * 2 ^ clkSysDivFracBits ≤ 1600000000 * t.divisor :=
    Nat.mul_le_mul (source_le hok) (divisor_ge hfeeds)
  rw [exactHz, div_le_iff₀ hpos]
  exact_mod_cast hle

theorem sysHz_le (t : ClkTree) : t.sysHz ≤ 1600000000 := by
  by_cases hok : t.validate = .ok
  · have hround : (t.sysHz : ℤ) ≤ round ((1600000000 : ℕ) : ℚ) := by
      rw [sysHz_eq hok]
      exact Rounding.round_mono (by exact_mod_cast exactHz_le hok)
    rw [round_natCast] at hround
    omega
  · rw [sysHz_of_invalid hok]
    omega

end ClkTree

/-! ## Conversions -/

/-- Neither the remainder's product nor the half of the divisor added to it leaves 64 bits. -/
theorem round_remainder_lt {hz scale : ℕ} (hpos : 0 < hz) (hhz : hz ≤ 1600000000)
    (hscale : scale ≤ 1000000000) (n : ℕ) : n % hz * scale + hz / 2 < 18446744073709551616 := by
  have hrem := Nat.mod_lt n hpos
  have hprod : n % hz * scale ≤ 1600000000 * 1000000000 := Nat.mul_le_mul (by omega) hscale
  omega

theorem ceil_remainder_lt {hz scale : ℕ} (hhz : hz ≤ 1600000000) (hpos : 0 < scale)
    (hscale : scale ≤ 1000000000) (n : ℕ) : n % scale * hz + scale - 1 < 18446744073709551616 := by
  have hrem := Nat.mod_lt n hpos
  have hprod : n % scale * hz ≤ 1000000000 * 1600000000 := Nat.mul_le_mul (by omega) hhz
  omega

theorem u64_add_left (a b : ℕ) : u64 (u64 a + b) = u64 (a + b) := Nat.mod_add_mod a _ b

/-- `muldiv_round` is the exact quotient rounded to nearest, modulo 64 bits. -/
theorem muldivRound_eq {hz scale : ℕ} (hpos : 0 < hz) (hhz : hz ≤ 1600000000)
    (hscale : scale ≤ 1000000000) (n : ℕ) :
    ∃ value : ℕ, (value : ℤ) = round ((n * scale : ℚ) / hz) ∧
      muldivRound n scale hz = u64 value := by
  have hrem := round_remainder_lt hpos hhz hscale n
  refine ⟨_, (Rounding.round_scaled hpos n scale).symm, ?_⟩
  rw [muldivRound, if_neg hpos.ne']
  dsimp only
  rw [u64_of_lt (n := n % hz * scale) (by omega), u64_of_lt hrem, u64_add_left]

/-- `muldiv_ceil` is the exact quotient rounded up, modulo 64 bits. -/
theorem muldivCeil_eq {hz scale : ℕ} (hhz : hz ≤ 1600000000) (hpos : 0 < scale)
    (hscale : scale ≤ 1000000000) (n : ℕ) :
    muldivCeil n hz scale = u64 ⌈(n * hz : ℚ) / scale⌉₊ := by
  have hrem := ceil_remainder_lt hhz hpos hscale n
  rw [Rounding.ceil_scaled hpos, muldivCeil, u64_of_lt (n := n % scale * hz) (by omega),
    u64_of_lt hrem, u64_add_left]

/-- Conversions between ticks of `hz` and a unit of which a second holds `scale`, right on every
input whose exact result fits in 64 bits. -/
structure Converts (hz scale : ℕ) (toTime toTicks : ℕ → ℕ) : Prop where
  nearest : ∀ ticks : ℕ, round ((ticks * scale : ℚ) / hz) < 2 ^ 64 →
    toTime ticks = round ((ticks * scale : ℚ) / hz)
  covering : ∀ time : ℕ, ⌈(time * hz : ℚ) / scale⌉₊ < 2 ^ 64 →
    toTicks time = ⌈(time * hz : ℚ) / scale⌉₊
  /-- The products and sums of `muldiv_round` stay in 64 bits. -/
  nearest_fits : ∀ ticks : ℕ, round ((ticks * scale : ℚ) / hz) < 2 ^ 64 →
    ticks / hz * scale < 2 ^ 64 ∧ ticks % hz * scale + hz / 2 < 2 ^ 64 ∧
      ticks / hz * scale + (ticks % hz * scale + hz / 2) / hz < 2 ^ 64
  /-- The products and sums of `muldiv_ceil` stay in 64 bits. -/
  covering_fits : ∀ time : ℕ, ⌈(time * hz : ℚ) / scale⌉₊ < 2 ^ 64 →
    time / scale * hz < 2 ^ 64 ∧ time % scale * hz + scale - 1 < 2 ^ 64 ∧
      time / scale * hz + (time % scale * hz + scale - 1) / scale < 2 ^ 64
  nearest_mono : ∀ m n : ℕ, m ≤ n → round ((n * scale : ℚ) / hz) < 2 ^ 64 → toTime m ≤ toTime n
  covering_mono : ∀ m n : ℕ, m ≤ n → ⌈(n * hz : ℚ) / scale⌉₊ < 2 ^ 64 → toTicks m ≤ toTicks n
  /-- There and back never loses, as long as both ways fit. -/
  returns : ∀ time : ℕ, ⌈(time * hz : ℚ) / scale⌉₊ < 2 ^ 64 →
    round ((⌈(time * hz : ℚ) / scale⌉₊ * scale : ℚ) / hz) < 2 ^ 64 → time ≤ toTime (toTicks time)

theorem converts {hz scale : ℕ} (hpos : 0 < hz) (hhz : hz ≤ 1600000000) (hspos : 0 < scale)
    (hscale : scale ≤ 1000000000) :
    Converts hz scale (fun ticks => muldivRound ticks scale hz) fun time =>
      muldivCeil time hz scale := by
  have hnearest : ∀ ticks : ℕ, round ((ticks * scale : ℚ) / hz) < 2 ^ 64 →
      (muldivRound ticks scale hz : ℤ) = round ((ticks * scale : ℚ) / hz) := by
    intro ticks hfits
    obtain ⟨value, hvalue, hcode⟩ := muldivRound_eq hpos hhz hscale ticks
    rw [hcode, ← hvalue, u64_of_lt (by omega)]
  have hcovering : ∀ time : ℕ, ⌈(time * hz : ℚ) / scale⌉₊ < 2 ^ 64 →
      muldivCeil time hz scale = ⌈(time * hz : ℚ) / scale⌉₊ := by
    intro time hfits
    rw [muldivCeil_eq hhz hspos hscale, u64_of_lt hfits]
  refine ⟨hnearest, hcovering, fun ticks hfits => ?_, fun time hfits => ?_, fun m n hle hfits => ?_,
    fun m n hle hfits => ?_, fun time hfits hback => ?_⟩
  · have hrem := round_remainder_lt hpos hhz hscale ticks
    rw [Rounding.round_scaled hpos] at hfits
    generalize (ticks % hz * scale + hz / 2) / hz = q at *
    omega
  · have hrem := ceil_remainder_lt hhz hspos hscale time
    rw [Rounding.ceil_scaled hspos] at hfits
    generalize (time % scale * hz + scale - 1) / scale = q at *
    omega
  · have hround := Rounding.round_mono (Rounding.scaled_mono scale hz hle)
    have hm := hnearest m (hround.trans_lt hfits)
    have hn := hnearest n hfits
    omega
  · have hceil := Nat.ceil_le_ceil (Rounding.scaled_mono hz scale hle)
    rw [hcovering m (hceil.trans_lt hfits), hcovering n hfits]
    exact hceil
  · have hloss := Rounding.le_round_ceil hspos hpos time
    have hreturn := hnearest ⌈(time * hz : ℚ) / scale⌉₊ hback
    rw [hcovering time hfits]
    omega

namespace ClkTree
variable [P : Platform]

/-- Tick counts convert to nanoseconds and microseconds and back exactly, on whatever fits in 64
bits. -/
theorem conversions_exact (t : ClkTree) (hpos : 0 < t.sysHz) :
    Converts t.sysHz 1000000000 t.ticksToNs t.nsToTicks ∧
      Converts t.sysHz 1000000 t.ticksToUs t.usToTicks :=
  ⟨converts hpos (sysHz_le t) (by omega) (by omega),
    converts hpos (sysHz_le t) (by omega) (by omega)⟩

omit P in
theorem conversions_exact_at_boot :
    letI : Platform := ⟨.rp2350⟩
    0 < initDefault.sysHz ∧
      Converts initDefault.sysHz 1000000000 initDefault.ticksToNs initDefault.nsToTicks ∧
      Converts initDefault.sysHz 1000000 initDefault.ticksToUs initDefault.usToTicks := by
  let P : Platform := ⟨.rp2350⟩
  have hpos : 0 < initDefault.sysHz := by decide +kernel
  exact ⟨hpos, conversions_exact initDefault hpos⟩

omit P in
/-- The longest duration fits on the way to ticks, 15 of them a second, but not on the way back. -/
theorem longest_duration_lost :
    letI : Platform := ⟨.rp2350⟩
    let t : ClkTree :=
      { initDefault with xoscHz := 1000000, bypassPll := true, clksysDivInt := 0xFFFF }
    let time : ℕ := 18446744073709551615
    t.validate = .ok ∧ t.sysHz = 15 ∧ ⌈(time * t.sysHz : ℚ) / 1000000000⌉₊ < 2 ^ 64 ∧
      ¬ time ≤ t.ticksToNs (t.nsToTicks time) := by
  let P : Platform := ⟨.rp2350⟩
  intro t time
  have hhz : t.sysHz = 15 := by decide +kernel
  refine ⟨by decide +kernel, hhz, ?_, by decide +kernel⟩
  have hceil := Rounding.ceil_scaled (d := 1000000000) (by omega) time 15
  rw [hhz]
  push_cast at hceil ⊢
  rw [hceil]
  decide +kernel

/-! ## The zero frequency -/

/-- A crystal used directly and divided to below half a hertz, all fields within their limits. -/
structure Vanishes (t : ClkTree) : Prop where
  feeds : t.Feeds
  bypass : t.bypassPll = true
  slow : 2 * (t.xoscHz.toNat * 2 ^ clkSysDivFracBits) < t.divisor

/-- The least frequency a locked PLL gives is above half the widest divider. -/
theorem not_slow_of_locks {t : ClkTree} (hpll : ¬ t.bypassPll = true) (hdiv : t.Dividers)
    (hlocks : t.Locks) : 4294967296 ≤ 2 * (t.source * 2 ^ clkSysDivFracBits) := by
  have hmin := hlocks.vco_ge
  have hpost : t.pllPostdiv1.toNat * t.pllPostdiv2.toNat ≤ 7 * 7 :=
    Nat.mul_le_mul hdiv.postdiv1_le hdiv.postdiv2_le
  have hsource : pllVcoMinHz / 49 ≤ t.source := by
    rw [source, if_neg hpll, Nat.div_div_eq_div_mul]
    exact Nat.div_le_div hmin hpost (Nat.mul_pos hdiv.postdiv1_pos hdiv.postdiv2_pos).ne'
  rw [fracBits_pow]
  unfold pllVcoMinHz at hsource
  cases hchip : isRp2350 with
  | true =>
    simp only [hchip, if_true] at hsource ⊢
    omega
  | false =>
    simp only [hchip, Bool.false_eq_true, if_false] at hsource ⊢
    omega

/-- A valid tree reports 0 when the crystal vanishes in the divider, and only then. -/
theorem sysHz_zero_iff {t : ClkTree} (hok : t.validate = .ok) : t.sysHz = 0 ↔ t.Vanishes := by
  obtain ⟨hfeeds, hpll⟩ := (validate_ok_iff t).mp hok
  have hdivisor := divisor_lt hfeeds
  have hpos : (0 : ℚ) < t.divisor := by
    exact_mod_cast (Nat.two_pow_pos _).trans_le (divisor_ge hfeeds)
  have hhalf : t.sysHz = 0 ↔ 2 * (t.source * 2 ^ clkSysDivFracBits) < t.divisor := by
    have hnonneg : (0 : ℚ) ≤ t.exactHz := by
      rw [exactHz]
      positivity
    rw [← Int.natCast_eq_zero, sysHz_eq hok, round_eq_zero_iff, Set.mem_Ico,
      and_iff_right (by linarith), exactHz, div_lt_div_iff₀ hpos two_pos]
    have hcast : ((2 * (t.source * 2 ^ clkSysDivFracBits) : ℕ) : ℚ) < (t.divisor : ℕ) ↔
        2 * (t.source * 2 ^ clkSysDivFracBits) < t.divisor := Nat.cast_lt
    rw [← hcast]
    push_cast
    constructor <;> intro h <;> linarith
  rw [hhalf]
  constructor
  · intro hslow
    by_cases hbypass : t.bypassPll = true
    · exact ⟨hfeeds, hbypass, by rwa [source, if_pos hbypass] at hslow⟩
    · obtain ⟨hdiv, hlocks⟩ := hpll.resolve_left hbypass
      have hfast := not_slow_of_locks hbypass hdiv hlocks
      omega
  · intro hvanishes
    rw [source, if_pos hvanishes.bypass]
    exact hvanishes.slow

theorem Vanishes.valid {t : ClkTree} (h : t.Vanishes) : t.validate = .ok :=
  (validate_ok_iff t).mpr ⟨h.feeds, .inl h.bypass⟩

/-- The 16.16 divider of the RP2350 never brings a crystal down to nothing. -/
theorem not_vanishes_of_rp2350 (hchip : isRp2350 = true) (t : ClkTree) : ¬ t.Vanishes := by
  intro h
  have hcrystal := h.feeds.crystal_ge
  have hdivisor := divisor_lt h.feeds
  have hslow := h.slow
  rw [fracBits_pow, if_pos hchip] at hslow
  omega

def nominalHz (t : ClkTree) : ℕ := (round t.exactHz).toNat

theorem sysHz_eq_nominalHz {t : ClkTree} (hok : t.validate = .ok) : t.sysHz = t.nominalHz := by
  rw [nominalHz, ← sysHz_eq hok, Int.toNat_natCast]

omit P in
theorem u64_pos_iff (n : ℕ) : 1 ≤ u64 n ↔ ¬ 2 ^ 64 ∣ n := by
  rw [Nat.dvd_iff_mod_eq_zero, u64]
  omega

/-- The 0 of `pio_clk_sys_hz` means an invalid tree, and a duration at least one tick, unless the
crystal vanishes in the divider or the ticks are a whole multiple of the 64-bit range. -/
theorem zero_unambiguous_iff (t : ClkTree) (time : ℕ) :
    ((t.sysHz = 0 ↔ t.validate ≠ .ok) ∧
        (t.validate = .ok → 0 < time → 1 ≤ t.nsToTicks time ∧ 1 ≤ t.usToTicks time)) ↔
      ¬ t.Vanishes ∧
        (t.validate = .ok → 0 < time →
          ¬ 2 ^ 64 ∣ ⌈(time * t.nominalHz : ℚ) / 1000000000⌉₊ ∧
            ¬ 2 ^ 64 ∣ ⌈(time * t.nominalHz : ℚ) / 1000000⌉₊) := by
  have hns : t.nsToTicks time = u64 ⌈(time * t.sysHz : ℚ) / 1000000000⌉₊ :=
    muldivCeil_eq (sysHz_le t) (by omega) (by omega) time
  have hus : t.usToTicks time = u64 ⌈(time * t.sysHz : ℚ) / 1000000⌉₊ :=
    muldivCeil_eq (sysHz_le t) (by omega) (by omega) time
  rw [hns, hus, u64_pos_iff, u64_pos_iff]
  by_cases hok : t.validate = .ok
  · rw [← sysHz_eq_nominalHz hok, ← sysHz_zero_iff hok]
    simp [hok]
  · have hnot : ¬ t.Vanishes := fun h => hok h.valid
    simp [hok, hnot, sysHz_of_invalid hok]

omit P in
/-- On the RP2040 a 1 MHz crystal under the widest divider is a valid tree of 0 Hz, and a second
takes no ticks. -/
theorem valid_tree_reports_zero :
    letI : Platform := ⟨.rp2040⟩
    let t : ClkTree :=
      { initDefault with xoscHz := 1000000, bypassPll := true, clksysDivInt := 0xFFFFFF }
    t.validate = .ok ∧ t.sysHz = 0 ∧ t.nsToTicks 1000000000 = 0 ∧ t.usToTicks 1000000 = 0 := by
  let P : Platform := ⟨.rp2040⟩
  intro t
  decide +kernel

/-! ## The PLL against the exact limits -/

/-- The datasheet limits of a tree that uses the PLL, its frequencies taken as rationals. -/
structure PllInRange (t : ClkTree) : Prop where
  feeds : t.Feeds
  dividers : t.Dividers
  reference_ge : (5000000 : ℚ) ≤ (t.xoscHz.toNat : ℚ) / t.pllRefdiv.toNat
  vco_ge : (pllVcoMinHz : ℚ) ≤ (t.xoscHz.toNat * t.pllFbdiv.toNat : ℚ) / t.pllRefdiv.toNat
  vco_le : (t.xoscHz.toNat * t.pllFbdiv.toNat : ℚ) / t.pllRefdiv.toNat ≤ pllVcoMaxHz

/-- Everything but the VCO is in range, and the half hertz that an odd crystal loses when it is
halved decides a VCO limit: the multiple of the whole hertz stands on one side of it, the exact VCO
on the other. -/
structure Straddles (t : ClkTree) : Prop where
  feeds : t.Feeds
  dividers : t.Dividers
  halved : t.pllRefdiv.toNat = 2
  odd : t.xoscHz.toNat % 2 = 1
  reference_ge : 10000000 ≤ t.xoscHz.toNat
  limit : t.xoscHz.toNat / 2 * t.pllFbdiv.toNat ≤ pllVcoMaxHz ∧
        2 * pllVcoMaxHz < t.xoscHz.toNat * t.pllFbdiv.toNat ∨
      t.xoscHz.toNat / 2 * t.pllFbdiv.toNat < pllVcoMinHz ∧
        2 * pllVcoMinHz ≤ t.xoscHz.toNat * t.pllFbdiv.toNat

theorem pllVcoMinHz_lt : pllVcoMinHz + 1000 < pllVcoMaxHz := by
  unfold pllVcoMinHz pllVcoMaxHz
  split <;> omega

/-- The limits without fractions. -/
theorem pllInRange_iff (t : ClkTree) :
    t.PllInRange ↔ t.Feeds ∧ t.Dividers ∧ 5000000 * t.pllRefdiv.toNat ≤ t.xoscHz.toNat ∧
      pllVcoMinHz * t.pllRefdiv.toNat ≤ t.xoscHz.toNat * t.pllFbdiv.toNat ∧
      t.xoscHz.toNat * t.pllFbdiv.toNat ≤ pllVcoMaxHz * t.pllRefdiv.toNat := by
  constructor
  · rintro ⟨hfeeds, hdiv, href, hmin, hmax⟩
    have hpos : (0 : ℚ) < t.pllRefdiv.toNat := Nat.cast_pos.mpr hdiv.refdiv_pos
    rw [le_div_iff₀ hpos] at href hmin
    rw [div_le_iff₀ hpos] at hmax
    exact ⟨hfeeds, hdiv, by exact_mod_cast href, by exact_mod_cast hmin, by exact_mod_cast hmax⟩
  · rintro ⟨hfeeds, hdiv, href, hmin, hmax⟩
    have hpos : (0 : ℚ) < t.pllRefdiv.toNat := Nat.cast_pos.mpr hdiv.refdiv_pos
    refine ⟨hfeeds, hdiv, ?_, ?_, ?_⟩
    · rw [le_div_iff₀ hpos]
      exact_mod_cast href
    · rw [le_div_iff₀ hpos]
      exact_mod_cast hmin
    · rw [div_le_iff₀ hpos]
      exact_mod_cast hmax

/-- A reference of 5 MHz leaves a divider of at most 3, and that one only for 15 MHz. -/
theorem refdiv_cases {t : ClkTree} (hfeeds : t.Feeds) (hdiv : t.Dividers)
    (href : 5000000 * t.pllRefdiv.toNat ≤ t.xoscHz.toNat) :
    t.pllRefdiv.toNat = 1 ∨ t.pllRefdiv.toNat = 2 ∨
      t.pllRefdiv.toNat = 3 ∧ t.xoscHz.toNat = 15000000 := by
  have hpos := hdiv.refdiv_pos
  have hcrystal := hfeeds.crystal_le
  omega

/-- The truncated judgement of the VCO is the exact one unless a lost half hertz decides. -/
theorem vco_in_range_iff {t : ClkTree} (hfeeds : t.Feeds) (hdiv : t.Dividers)
    (href : 5000000 * t.pllRefdiv.toNat ≤ t.xoscHz.toNat) (hstraddles : ¬ t.Straddles) :
    (pllVcoMinHz ≤ t.reference * t.pllFbdiv.toNat ∧ t.reference * t.pllFbdiv.toNat ≤ pllVcoMaxHz) ↔
      pllVcoMinHz * t.pllRefdiv.toNat ≤ t.xoscHz.toNat * t.pllFbdiv.toNat ∧
        t.xoscHz.toNat * t.pllFbdiv.toNat ≤ pllVcoMaxHz * t.pllRefdiv.toNat := by
  unfold reference
  obtain hone | htwo | ⟨hthree, hcrystal⟩ := refdiv_cases hfeeds hdiv href
  · rw [hone, Nat.div_one, Nat.mul_one, Nat.mul_one]
  · have hhalf := Nat.div_add_mod t.xoscHz.toNat 2
    rw [htwo]
    by_cases hodd : t.xoscHz.toNat % 2 = 1
    · have hlimit : ¬ (t.xoscHz.toNat / 2 * t.pllFbdiv.toNat ≤ pllVcoMaxHz ∧
            2 * pllVcoMaxHz < t.xoscHz.toNat * t.pllFbdiv.toNat ∨
          t.xoscHz.toNat / 2 * t.pllFbdiv.toNat < pllVcoMinHz ∧
            2 * pllVcoMinHz ≤ t.xoscHz.toNat * t.pllFbdiv.toNat) :=
        fun h => hstraddles ⟨hfeeds, hdiv, htwo, hodd, by omega, h⟩
      have hmul : t.xoscHz.toNat * t.pllFbdiv.toNat =
          2 * (t.xoscHz.toNat / 2 * t.pllFbdiv.toNat) + t.pllFbdiv.toNat := by
        conv_lhs => rw [← hhalf, hodd]
        ring
      have hlimits := pllVcoMinHz_lt
      have hfbdiv := hdiv.fbdiv_le
      generalize t.xoscHz.toNat / 2 * t.pllFbdiv.toNat = whole at *
      omega
    · have hmul : t.xoscHz.toNat * t.pllFbdiv.toNat =
          2 * (t.xoscHz.toNat / 2 * t.pllFbdiv.toNat) := by
        conv_lhs => rw [← hhalf, Nat.mod_two_ne_one.mp hodd]
        ring
      omega
  · rw [hthree, hcrystal]
    omega

/-- A straddling tree is judged otherwise than the exact limits judge it. -/
theorem Straddles.misjudged {t : ClkTree} (h : t.Straddles) (hpll : t.bypassPll = false) :
    ¬ (t.validate = .ok ↔ t.PllInRange) := by
  have hhalf := Nat.div_add_mod t.xoscHz.toNat 2
  have hmul : t.xoscHz.toNat * t.pllFbdiv.toNat =
      2 * (t.xoscHz.toNat / 2 * t.pllFbdiv.toNat) + t.pllFbdiv.toNat := by
    conv_lhs => rw [← hhalf, h.odd]
    ring
  have hlimits := pllVcoMinHz_lt
  have hfbdiv := h.dividers.fbdiv_le
  have href := h.reference_ge
  have hlocks : t.Locks ↔ pllVcoMinHz ≤ t.xoscHz.toNat / 2 * t.pllFbdiv.toNat ∧
      t.xoscHz.toNat / 2 * t.pllFbdiv.toNat ≤ pllVcoMaxHz := by
    have hreference : t.reference = t.xoscHz.toNat / 2 := by rw [reference, h.halved]
    constructor
    · rintro ⟨-, hmin, hmax⟩
      rw [hreference] at hmin hmax
      exact ⟨hmin, hmax⟩
    · rintro ⟨hmin, hmax⟩
      refine ⟨?_, ?_, ?_⟩ <;> rw [hreference]
      · omega
      · exact hmin
      · exact hmax
  rw [validate_ok_iff, pllInRange_iff, hpll, hlocks, h.halved]
  simp only [h.feeds, h.dividers, true_and, Bool.false_eq_true, false_or]
  obtain hhigh | hlow := h.limit
  · omega
  · omega

/-- Outside of the straddling trees the code judges as the exact limits do. -/
theorem validate_ok_iff_inRange {t : ClkTree} (hpll : t.bypassPll = false) (h : ¬ t.Straddles) :
    t.validate = .ok ↔ t.PllInRange := by
  rw [validate_ok_iff, pllInRange_iff, hpll]
  simp only [Bool.false_eq_true, false_or]
  refine and_congr_right fun hfeeds => and_congr_right fun hdiv => ?_
  have href : 5000000 ≤ t.reference ↔ 5000000 * t.pllRefdiv.toNat ≤ t.xoscHz.toNat :=
    Nat.le_div_iff_mul_le hdiv.refdiv_pos
  have hlocks : t.Locks ↔ 5000000 ≤ t.reference ∧
      (pllVcoMinHz ≤ t.reference * t.pllFbdiv.toNat ∧
          t.reference * t.pllFbdiv.toNat ≤ pllVcoMaxHz) :=
    ⟨fun hl => ⟨hl.1, hl.2, hl.3⟩, fun hl => ⟨hl.1, hl.2.1, hl.2.2⟩⟩
  rw [hlocks, href]
  exact and_congr_right fun hge => vco_in_range_iff hfeeds hdiv hge h

/-- The PLL's limits are kept exactly, and a configuration replaces the tree's exactly when it is
accepted, unless a lost half hertz decides a VCO limit. -/
theorem pll_limits_exact_iff (t : ClkTree) (refdiv fbdiv : BitVec 16)
    (postdiv1 postdiv2 : BitVec 8) :
    ((t.bypassPll = false → (t.validate = .ok ↔ t.PllInRange)) ∧
        ((t.configurePll refdiv fbdiv postdiv1 postdiv2).1 = .ok →
          (t.configurePll refdiv fbdiv postdiv1 postdiv2).2 =
            t.trial refdiv fbdiv postdiv1 postdiv2) ∧
        ((t.configurePll refdiv fbdiv postdiv1 postdiv2).2 ≠ t ↔
          (t.configurePll refdiv fbdiv postdiv1 postdiv2).1 = .ok ∧
            t.trial refdiv fbdiv postdiv1 postdiv2 ≠ t)) ↔
      ¬ (t.bypassPll = false ∧ t.Straddles) := by
  constructor
  · rintro ⟨hexact, -, -⟩ ⟨hpll, hstraddles⟩
    exact hstraddles.misjudged hpll (hexact hpll)
  · intro h
    refine ⟨fun hpll => validate_ok_iff_inRange hpll fun hs => h ⟨hpll, hs⟩,
      fun hok => if_pos hok, ?_⟩
    dsimp only [configurePll]
    by_cases hok : (t.trial refdiv fbdiv postdiv1 postdiv2).validate = .ok
    · rw [if_pos hok, and_iff_right hok]
    · rw [if_neg hok]
      exact ⟨fun hne => absurd rfl hne, fun hand => absurd hand.1 hok⟩

omit P in
/-- A crystal of 10 000 001 Hz halved and multiplied by 320 runs the VCO 160 Hz above its limit. -/
theorem vco_above_limit_accepted :
    letI : Platform := ⟨.rp2350⟩
    let t : ClkTree := { initDefault with xoscHz := 10000001, pllRefdiv := 2, pllFbdiv := 320 }
    t.bypassPll = false ∧ t.validate = .ok ∧
      ¬ ((t.xoscHz.toNat * t.pllFbdiv.toNat : ℚ) / t.pllRefdiv.toNat ≤ pllVcoMaxHz) := by
  let P : Platform := ⟨.rp2350⟩
  intro t
  refine ⟨rfl, by decide +kernel, ?_⟩
  have hcrystal : t.xoscHz.toNat = 10000001 := by decide +kernel
  have hfbdiv : t.pllFbdiv.toNat = 320 := by decide +kernel
  have hrefdiv : t.pllRefdiv.toNat = 2 := by decide +kernel
  rw [hcrystal, hfbdiv, hrefdiv, pllVcoMaxHz]
  norm_num

end ClkTree

end PioSim
