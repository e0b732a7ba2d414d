import PioSim.DmaTransfer
import PioSim.Lib.Crc

/-!
# The sniffer's checksums

In its CRC modes the sniffer feeds the bytes of each element, lowest first, to a CRC register: a
register that shifts left for CRC32 and CRC16, its mirror for CRC32R and CRC16R. The 16-bit
registers live in the low half of the accumulator, whose upper half is dropped by the first byte.
What the accumulator holds after a stream of elements is the remainder of the stream's bytes,
however they are split into elements.
-/

namespace PioSim

/-! ### Bytes -/

theorem and_bit_bne_zero (v : Word) {k : ℕ} (hk : k < 32) :
    (v &&& 1#32 <<< k != 0) = v.getLsbD k := by
  rw [← BitVec.twoPow_eq, BitVec.and_twoPow]
  cases v.getLsbD k with
  | false => rfl
  | true =>
    rw [if_pos rfl, bne_iff_ne]
    intro hzero
    have hbit := congrArg (BitVec.getLsbD · k) hzero
    simp [hk] at hbit

theorem crcUpdateMsb_word (crc : Word) (byte : BitVec 8) (p : Word) :
    crcUpdateMsb crc byte p 32 = Crc.update p crc byte := by
  have hstep : (fun crc : Word => if crc &&& 1#32 <<< (32 - 1) != 0 then (crc <<< 1) ^^^ p
    else crc <<< 1) =
      Crc.shift p := by
    funext v
    rw [and_bit_bne_zero v (by omega), Crc.shift, BitVec.msb_eq_getLsbD_last]
  unfold crcUpdateMsb
  rw [if_pos rfl]
  exact congrFun (congrArg (·^[8]) hstep) _

/-- The mask of a halfword keeps its bits. -/
theorem and_half (v : Word) : v &&& 0xFFFF#32 = (v.setWidth 16).setWidth 32 := by
  apply BitVec.eq_of_getLsbD_eq
  intro i hi
  rw [show (0xFFFF#32) =
    maskN 16 by decide, BitVec.getLsbD_and, getLsbD_maskN, BitVec.getLsbD_setWidth,
    BitVec.getLsbD_setWidth, decide_eq_true hi, Bool.true_and, Bool.true_and, Bool.and_comm]

theorem setWidth_shiftLeft_half (v : Word) (k : ℕ) :
    (v <<< k).setWidth 16 = v.setWidth 16 <<< k := by
  apply BitVec.eq_of_getLsbD_eq
  intro i hi
  simp [hi]

/-- The step of `crc_update_msb` on a halfword register below whatever stands in the upper half. -/
theorem semiconj_shift_half (p : BitVec 16) : Function.Semiconj (BitVec.setWidth 16)
    (fun v : Word => if v &&& 1#32 <<< (16 - 1) != 0 then (v <<< 1) ^^^ p.setWidth 32 else v <<< 1)
    (Crc.shift p) := by
  intro v
  have hmsb : (v.setWidth 16).msb = v.getLsbD 15 := by simp [BitVec.msb_eq_getLsbD_last]
  dsimp only
  rw [and_bit_bne_zero v (by omega), Crc.shift, hmsb, ← setWidth_shiftLeft_half]
  cases v.getLsbD 15 with
  | false => rfl
  | true =>
    rw [if_pos rfl, if_pos rfl, BitVec.setWidth_xor, BitVec.setWidth_setWidth_of_le p (by omega),
      BitVec.setWidth_eq]

/-- A halfword register in the low half of the accumulator; what is above it is dropped. -/
theorem crcUpdateMsb_half (crc : Word) (byte : BitVec 8) (p : BitVec 16) :
    crcUpdateMsb crc byte (p.setWidth 32) 16 =
      (Crc.update p (crc.setWidth 16) byte).setWidth 32 := by
  have hfed : (crc ^^^ (byte.setWidth 32 <<< (16 - 8))).setWidth 16 =
      crc.setWidth 16 ^^^ (byte.setWidth 16 <<< (16 - 8)) := by
    rw [BitVec.setWidth_xor, setWidth_shiftLeft_half,
      BitVec.setWidth_setWidth_of_le byte (by omega)]
  have hloop := (semiconj_shift_half p).iterate_right 8 (crc ^^^ (byte.setWidth 32 <<< (16 - 8)))
  rw [hfed] at hloop
  unfold crcUpdateMsb
  rw [if_neg (by decide)]
  exact (and_half _).trans (congrArg (BitVec.setWidth 32) hloop)

theorem crcUpdateLsb_word (crc : Word) (byte : BitVec 8) (p : Word) :
    crcUpdateLsb crc byte p = Crc.updateRight p crc byte := by
  have hstep : (fun crc : Word => if crc &&& 1 != 0 then (crc >>> 1) ^^^ p else crc >>> 1) =
      Crc.shiftRight p := by
    funext v
    have hbit := and_bit_bne_zero v (k := 0) (by omega)
    rw [BitVec.shiftLeft_zero] at hbit
    exact congrArg (fun b : Bool => if b then (v >>> 1) ^^^ p else v >>> 1) hbit
  exact congrFun (congrArg (·^[8]) hstep) _

/-- The step of `crc_update_lsb` on a halfword register below an empty upper half. -/
theorem semiconj_shiftRight_half (p : BitVec 16) : Function.Semiconj (BitVec.setWidth 32)
    (Crc.shiftRight p) (Crc.shiftRight (p.setWidth 32)) := by
  intro v
  have hbit : (v.setWidth 32).getLsbD 0 = v.getLsbD 0 := by simp
  have hshift : (v >>> 1).setWidth 32 = v.setWidth 32 >>> 1 := by
    have hlt := v.isLt
    apply BitVec.eq_of_toNat_eq
    rw [BitVec.toNat_setWidth, BitVec.toNat_ushiftRight, BitVec.toNat_ushiftRight,
      BitVec.toNat_setWidth, Nat.shiftRight_eq_div_pow, Nat.shiftRight_eq_div_pow]
    omega
  rw [Crc.shiftRight, Crc.shiftRight, hbit, ← hshift]
  split
  · rw [BitVec.setWidth_xor]
  · rfl

theorem crcUpdateLsb_half (crc : Word) (byte : BitVec 8) (p : BitVec 16) :
    crcUpdateLsb (crc &&& 0xFFFF#32) byte (p.setWidth 32) =
      (Crc.updateRight p (crc.setWidth 16) byte).setWidth 32 := by
  have hfed : (crc.setWidth 16 ^^^ byte.setWidth 16).setWidth 32 =
      (crc.setWidth 16).setWidth 32 ^^^ byte.setWidth 32 := by
    have hbyte : (byte.setWidth 16).setWidth 32 = byte.setWidth 32 := by
      have hlt := byte.isLt
      apply BitVec.eq_of_toNat_eq
      rw [BitVec.toNat_setWidth, BitVec.toNat_setWidth, BitVec.toNat_setWidth]
      omega
    rw [BitVec.setWidth_xor, hbyte]
  have hloop := (semiconj_shiftRight_half p).iterate_right 8 (crc.setWidth 16 ^^^ byte.setWidth 16)
  rw [crcUpdateLsb_word, and_half, Crc.updateRight, Crc.updateRight, ← hfed]
  exact hloop.symm

/-! ### Elements -/

/-- The bytes of a sequence of elements, each lowest byte first. -/
def stream (elems : List (Word × DmaSize)) : List (BitVec 8) :=
  elems.flatMap fun e => (List.range (elemBytes e.2)).map (LittleEndian.byte e.1)

def DmaSniff.feedAll (s : DmaSniff) (elems : List (Word × DmaSize)) : DmaSniff :=
  elems.foldl (fun s e => s.feed e.1 (elemBytes e.2)) s

section Feeding
variable [Platform]

section
omit [Platform]

theorem byte_and_mask (v : Word) (size : DmaSize) {k : ℕ} (hk : k < elemBytes size) :
    LittleEndian.byte (v &&& maskN (8 * elemBytes size)) k = LittleEndian.byte v k := by
  apply BitVec.eq_of_getLsbD_eq
  intro i hi
  rw [LittleEndian.getLsbD_byte, LittleEndian.getLsbD_byte, BitVec.getLsbD_and, getLsbD_maskN]
  by_cases hword : 8 * k + i < 32
  · simp [hi, hword, show 8 * k + i < 8 * elemBytes size by omega]
  · rw [BitVec.getLsbD_of_ge v _ (by omega), Bool.false_and]

/-- A mode that folds `f` over the bytes of each element folds it over the stream. -/
theorem data_feedAll {f : Word → BitVec 8 → Word} {mode : ℕ}
    (hf : ∀ (s : DmaSniff) (v : Word) (size : DmaSize), s.sniffCalc = mode →
      (s.feed v (elemBytes size)).data =
        (List.range (elemBytes size)).foldl (fun crc i => f crc (LittleEndian.byte
          (v &&& maskN (8 * elemBytes size)) i)) s.data)
    (s : DmaSniff) (hmode : s.sniffCalc = mode) (elems : List (Word × DmaSize)) :
    (s.feedAll elems).data = (stream elems).foldl f s.data := by
  induction elems generalizing s with
  | nil => rfl
  | cons e elems ih =>
    have hbytes : (List.range (elemBytes e.2)).foldl (fun crc i => f crc (LittleEndian.byte
        (e.1 &&& maskN (8 * elemBytes e.2)) i)) s.data =
          ((List.range (elemBytes e.2)).map (LittleEndian.byte e.1)).foldl f s.data := by
      rw [List.foldl_map]
      refine List.foldl_ext _ _ _ fun crc i hi => ?_
      rw [byte_and_mask e.1 e.2 (List.mem_range.mp hi)]
    have hhead := hf s e.1 e.2 hmode
    rw [hbytes] at hhead
    rw [stream, List.flatMap_cons, List.foldl_append, ← hhead]
    exact ih (s.feed e.1 (elemBytes e.2)) hmode

theorem data_feedAll_crc32 {s : DmaSniff} (hmode : s.sniffCalc = sniffCrc32)
    (elems : List (Word × DmaSize)) :
    (s.feedAll elems).data = (stream elems).foldl (Crc.update 0x04C11DB7#32) s.data := by
  refine data_feedAll (fun s v size h => ?_) s hmode elems
  have hupdate : (fun crc b => crcUpdateMsb crc b 0x04C11DB7#32 32) = Crc.update 0x04C11DB7#32 :=
    funext fun crc => funext fun b => crcUpdateMsb_word crc b _
  rw [DmaSniff.feed, sniffMask_eq, h, ← hupdate]
  rfl

theorem data_feedAll_crc32r {s : DmaSniff} (hmode : s.sniffCalc = sniffCrc32r)
    (elems : List (Word × DmaSize)) : (s.feedAll elems).data =
      (stream elems).foldl (Crc.updateRight (0x04C11DB7#32).reverse) s.data := by
  refine data_feedAll (fun s v size h => ?_) s hmode elems
  have hupdate : (fun crc b => crcUpdateLsb crc b 0xEDB88320#32) =
      Crc.updateRight (0x04C11DB7#32).reverse := by
    rw [show (0x04C11DB7#32).reverse = 0xEDB88320#32 by decide +kernel]
    exact funext fun crc => funext fun b => crcUpdateLsb_word crc b _
  rw [DmaSniff.feed, sniffMask_eq, h, ← hupdate]
  rfl

/-- A fold that keeps a halfword register in an accumulator: whatever stood above it is gone after
the first byte. -/
theorem foldl_half {f : Word → BitVec 8 → Word} {g : BitVec 16 → BitVec 8 → BitVec 16}
    (h : ∀ crc b, f crc b = (g (crc.setWidth 16) b).setWidth 32) (seed : Word)
    {bytes : List (BitVec 8)} (hne : bytes ≠ []) :
    bytes.foldl f seed = (bytes.foldl g (seed.setWidth 16)).setWidth 32 := by
  have hlow : ∀ bytes : List (BitVec 8),
      (bytes.foldl f seed).setWidth 16 = bytes.foldl g (seed.setWidth 16) := by
    intro bytes
    induction bytes using List.reverseRecOn with
    | nil => rfl
    | append_singleton bytes b ih =>
      rw [List.foldl_append, List.foldl_append, ← ih]
      change (f _ b).setWidth 16 = g _ b
      rw [h, BitVec.setWidth_setWidth_of_le _ (by omega), BitVec.setWidth_eq]
  rw [← List.dropLast_append_getLast hne, List.foldl_append, List.foldl_append, ← hlow]
  exact h _ _

theorem data_feedAll_crc16 {s : DmaSniff} (hmode : s.sniffCalc = sniffCrc16)
    {elems : List (Word × DmaSize)} (hne : stream elems ≠ []) : (s.feedAll elems).data =
      ((stream elems).foldl (Crc.update 0x1021#16) (s.data.setWidth 16)).setWidth 32 := by
  have hdata := data_feedAll (f := fun crc b => crcUpdateMsb crc b 0x1021#32 16)
    (fun s v size h => by
      rw [DmaSniff.feed, sniffMask_eq, h]
      rfl) s hmode elems
  rw [hdata]
  exact foldl_half (fun crc b => crcUpdateMsb_half crc b 0x1021#16) s.data hne

theorem data_feedAll_crc16r {s : DmaSniff} (hmode : s.sniffCalc = sniffCrc16r)
    {elems : List (Word × DmaSize)} (hne : stream elems ≠ []) : (s.feedAll elems).data =
      ((stream elems).foldl (Crc.updateRight (0x1021#16).reverse) (s.data.setWidth 16)).setWidth
        32 := by
  have hdata := data_feedAll (f := fun crc b => crcUpdateLsb (crc &&& 0xFFFF#32) b 0x8408#32)
    (fun s v size h => by
      rw [DmaSniff.feed, sniffMask_eq, h]
      rfl) s hmode elems
  rw [hdata]
  refine foldl_half (fun crc b => ?_) s.data hne
  rw [show (0x1021#16).reverse = 0x8408#16 by decide]
  exact crcUpdateLsb_half crc b 0x8408#16

theorem stream_ne_nil {elems : List (Word × DmaSize)} (hne : elems ≠ []) : stream elems ≠ [] := by
  obtain ⟨e, elems, rfl⟩ := List.exists_cons_of_ne_nil hne
  have hpos : 0 < elemBytes e.2 := by cases e.2 <;> decide
  intro hnil
  rw [stream, List.flatMap_cons, List.append_eq_nil_iff, List.map_eq_nil_iff,
    List.range_eq_nil] at hnil
  omega

/-- In each CRC mode, from any accumulator and over any elements, the accumulator comes to hold the
remainder of the stream's bytes by the mode's generator, or its mirror image. -/
theorem sniffer_remainder (s : DmaSniff) {elems : List (Word × DmaSize)} (hne : elems ≠ []) :
    let bytes := stream elems
    let crc := fun mode => (({ s with sniffCalc := mode } : DmaSniff).feedAll elems).data
    Crc.poly (crc sniffCrc32) = Crc.remainder 0x04C11DB7#32 s.data bytes ∧
      Crc.poly (crc sniffCrc32r).reverse =
        Crc.remainder 0x04C11DB7#32 s.data.reverse (bytes.map BitVec.reverse) ∧
      (∃ crc16 : BitVec 16, crc sniffCrc16 = crc16.setWidth 32 ∧
        Crc.poly crc16 = Crc.remainder 0x1021#16 (s.data.setWidth 16) bytes) ∧
      ∃ crc16r : BitVec 16, crc sniffCrc16r = crc16r.setWidth 32 ∧
        Crc.poly crc16r.reverse =
          Crc.remainder 0x1021#16 (s.data.setWidth 16).reverse (bytes.map BitVec.reverse) := by
  intro bytes crc
  have hstream := stream_ne_nil hne
  refine ⟨?_, ?_, ⟨_, data_feedAll_crc16 rfl hstream, ?_⟩, ⟨_, data_feedAll_crc16r rfl hstream, ?_⟩⟩
  · have hdata := data_feedAll_crc32 (s := { s with sniffCalc := sniffCrc32 }) rfl elems
    rw [show crc sniffCrc32 = _ from hdata]
    exact Crc.poly_foldl_update _ _ (by omega) bytes
  · have hdata := data_feedAll_crc32r (s := { s with sniffCalc := sniffCrc32r }) rfl elems
    rw [Crc.foldl_updateRight _ _ (by omega)] at hdata
    rw [show crc sniffCrc32r = _ from hdata, Crc.reverse_reverse]
    exact Crc.poly_foldl_update _ _ (by omega) _
  · exact Crc.poly_foldl_update _ _ (by omega) bytes
  · rw [Crc.foldl_updateRight _ _ (by omega), Crc.reverse_reverse]
    exact Crc.poly_foldl_update _ _ (by omega) _

end

end Feeding

/-- The digits 1 to 9 as two words and a byte, and the published check values. -/
theorem sniffer_remainder_digits :
    letI : Platform := ⟨.rp2350⟩
    let elems : List (Word × DmaSize) :=
      [(0x34333231#32, .size32), (0x38373635#32, .size32), (0x39#32, .size8)]
    let s : DmaSniff := ⟨true, 0, sniffCrc32, false, false, 0xFFFFFFFF#32⟩
    (s.feedAll elems).data = 0x0376E6E7#32 ∧
      Crc.poly (s.feedAll elems).data = Crc.remainder 0x04C11DB7#32 s.data (stream elems) := by
  let P : Platform := ⟨.rp2350⟩
  intro elems s
  have hne : elems ≠ [] := by decide
  exact ⟨by decide +kernel, (sniffer_remainder s hne).1⟩

end PioSim
