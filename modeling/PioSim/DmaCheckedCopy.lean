import PioSim.DmaChecksum
import PioSim.DmaCompletion

/-!
# Copies with a checksum

A copy that the sniffer listens to ends with the checksum of the bytes that have arrived.
-/

namespace PioSim

variable [Platform]

omit [Platform] in
/-- A buffer is read element by element. -/
theorem range_flatMap {α : Type} (f : ℕ → α) (n b : ℕ) :
    (List.range n).flatMap (fun i => (List.range b).map fun j => f (i * b + j)) =
      (List.range (n * b)).map f := by
  induction n with
  | zero => rw [Nat.zero_mul, List.range_zero, List.flatMap_nil, List.map_nil]
  | succ n ih =>
    rw [List.range_succ, List.flatMap_append, ih, Nat.succ_mul, List.range_add, List.map_append,
      List.map_map]
    simp [Function.comp_def]

omit [Platform] in
theorem elements_moves (ctrl : DmaConfig) (size : DmaSize) (c : ℕ) (m : LittleEndian.Memory)
    (r w k : ℕ) :
    elements size (ctrl.moves c m r w k) = (List.range k).map fun i =>
      (ctrl.element m r i, size) := by
  unfold elements DmaConfig.moves
  rw [List.filterMap_map]
  exact congrFun List.filterMap_eq_map' _

theorem elements_completion (ctrl : DmaConfig) (size : DmaSize) (c : ℕ) :
    elements size (ctrl.completion c) = [] := by
  refine elements_eq_nil fun e he => ?_
  unfold DmaConfig.completion at he
  rcases List.mem_append.mp he with h | h
  all_goals
    split at h
    · simp_all [DmaEvent.isMove]
    · simp_all [DmaEvent.isMove]

namespace Chip

variable {cb : Callback} {s t : Chip} {ctrl : DmaConfig} {c r w n : ℕ}

/-- The bytes of the elements of a finished copy are those in its destination. -/
theorem Copied.stream_eq (h : Copied ctrl c r w n s n t) (hincr : ctrl.incrWrite = true) :
    stream ((List.range n).map fun i => (ctrl.element s.mem r i, ctrl.dataSize)) =
      (List.range (n * elemBytes ctrl.dataSize)).map fun a => t.mem (w + a) := by
  rw [← range_flatMap, stream, List.flatMap_map]
  refine List.flatMap_congr fun i hi => List.map_congr_left fun j hj => ?_
  have hdest := h.dest i (List.mem_range.mp hi) j (List.mem_range.mp hj) (.inl hincr)
  rw [← hdest, DmaConfig.writeAt, if_pos hincr, Nat.add_assoc]

/-- An unpaced copy of `n` elements to consecutive places, with the sniffer listening, is done after
`n` rounds of ticks, and then the accumulator holds the checksum of the bytes in the destination,
which come from the source. -/
theorem checked_copy (hcb : cb.Minds (· = c) (Own (s.dma.ch c).ctrl r w n) fun _ => ())
    (hseat : cb.KeepsSeat)
    (hsum : ∀ fn ch u, u.Sniffed c (s.dma.ch c).ctrl.dataSize →
      Summed c (s.dma.ch c).ctrl.dataSize u (cb fn ch u))
    (hlt : c < dmaNumChannels) (harmed : s.Armed c r w n)
    (hforce : (s.dma.ch c).ctrl.treqSel = treqForce) (hr : r ≠ 0) (hw : w ≠ 0)
    (hincr : (s.dma.ch c).ctrl.incrWrite = true)
    (hdisj : ∀ a, (s.dma.ch c).ctrl.Reads r n a → ¬ (s.dma.ch c).ctrl.Writes w n a)
    (hsniffed : s.Sniffed c (s.dma.ch c).ctrl.dataSize) {es : List ChipCall}
    (hrun : Run.Along (Chip.step cb)
      (fun t e => t.LeavesAlone (· = c) (Own (s.dma.ch c).ctrl r w n) (fun _ => ()) e ∧
        t.Unhindered c e) s es)
    (hkeeps : ∀ e ∈ es, e.KeepsSum c) (hticks : n * dmaNumChannels ≤ es.countP ChipCall.isTick) :
    let t := s.run cb es
    Remains s.dma.sniff.sniffCalc s.dma.sniff.data t.dma.sniff.data
        ((List.range (n * elemBytes (s.dma.ch c).ctrl.dataSize)).map fun a => t.mem (w + a)) ∧
      ∀ i < n, ∀ j < elemBytes (s.dma.ch c).ctrl.dataSize,
        t.mem (w + (i * elemBytes (s.dma.ch c).ctrl.dataSize + j)) =
          s.mem ((s.dma.ch c).ctrl.readAt r i +
            if (s.dma.ch c).ctrl.bswap then elemBytes (s.dma.ch c).ctrl.dataSize - 1 - j
                else j) := by
  intro t
  have hdone := harmed.copied.finished hcb hseat hlt harmed.ring hdisj hforce hr hw hrun hticks
  obtain ⟨hist, hhist, hfed⟩ := ((actions_summed c _).run hsum hkeeps s hsniffed).fed
  have hmoves : elements (s.dma.ch c).ctrl.dataSize hist =
      (List.range n).map fun i =>
          ((s.dma.ch c).ctrl.element s.mem r i, (s.dma.ch c).ctrl.dataSize) := by
    have hsame := hhist.symm.trans hdone.history
    rw [if_pos rfl, List.append_assoc] at hsame
    rw [List.append_cancel_left hsame, elements_append, elements_moves, elements_completion,
      List.append_nil]
  simp only [DmaSniff.gear, Prod.mk.injEq] at hfed
  refine ⟨?_, fun i hi j hj => ?_⟩
  · rw [← hdone.stream_eq hincr, ← hmoves, hfed.2.2.2]
    exact remains_feedAll _ _
  · have hdest := hdone.dest i hi j hj (.inl hincr)
    rw [DmaConfig.byte_element _ _ _ _ hj, DmaConfig.writeAt, if_pos hincr, Nat.add_assoc] at hdest
    exact hdest

end Chip
end PioSim

namespace PioSim.Chip

local instance sniffedPlatform : Platform := ⟨.rp2040⟩

/-- The channel has been triggered to copy two halfwords, with the sniffer listening. -/
def sniffedCopy : Chip :=
  run Callback.idle ⟨World.initial, Dma.init [], fun a => BitVec.ofNat 8 a⟩
    [.channelConfigure 5 swappedHalfwords (.mem 16) (.mem 4) 2 true,
      .op (.snifferSetDataAccumulator 0xFFFF), .op (.snifferEnable 5 sniffCrc16 true)]

theorem sniffed_sniffedCopy : sniffedCopy.Sniffed 5 (sniffedCopy.dma.ch 5).ctrl.dataSize :=
  ⟨by decide +kernel, by decide +kernel, by decide +kernel, rfl⟩

theorem checked_copy_halfwords :
    Remains sniffCrc16 0xFFFF
      (sniffedCopy.run Callback.idle (List.replicate 24 .dmaTick)).dma.sniff.data
        ((List.range 4).map
          fun a => (sniffedCopy.run Callback.idle (List.replicate 24 .dmaTick)).mem (16 + a)) ∧
      ∀ i < 2, ∀ j < 2, (sniffedCopy.run Callback.idle (List.replicate 24 .dmaTick)).mem
        (16 + (i * 2 + j)) =
        sniffedCopy.mem (4 + i * 2 + (2 - 1 - j)) := by
  have hctrl : (sniffedCopy.dma.ch 5).ctrl = { swappedHalfwords with sniffEn := true } := by
    decide +kernel
  have harmed : sniffedCopy.Armed 5 4 16 2 :=
    ⟨by decide +kernel,
      by decide +kernel, by decide +kernel, by decide +kernel, by decide +kernel, by decide⟩
  have hdisj : ∀ a, (sniffedCopy.dma.ch 5).ctrl.Reads 4 2 a →
      ¬ (sniffedCopy.dma.ch 5).ctrl.Writes 16 2 a := by
    rw [hctrl]
    exact fun a hr hw => Nat.not_le_of_lt (reads_halfwords hr) (writes_halfwords hw)
  have hcalm : Run.Along (step Callback.idle) (fun s e => calm 5 s e = true) sniffedCopy
      (List.replicate 24 .dmaTick) := by
    decide +kernel
  have hkeeps : ∀ e ∈ List.replicate 24 ChipCall.dmaTick, e.KeepsSum 5 := fun e he =>
    List.eq_of_mem_replicate he ▸ trivial
  have hseed : sniffedCopy.dma.sniff.sniffCalc = sniffCrc16 ∧
    sniffedCopy.dma.sniff.data = 0xFFFF := by decide +kernel
  obtain ⟨hsum, hbytes⟩ := checked_copy (Callback.idle_minds _ _ _) (fun _ _ _ => rfl)
    (fun _ _ _ h => .refl h)
    (by decide) harmed (by rw [hctrl]; rfl) (by decide) (by decide) (by rw [hctrl]; rfl) hdisj
      sniffed_sniffedCopy
    (hcalm.mono fun _ _ => of_calm) hkeeps (by decide +kernel)
  rw [hctrl] at hsum hbytes
  rw [hseed.1, hseed.2] at hsum
  simp only [swappedHalfwords, DmaConfig.default, DmaConfig.readAt, elemBytes, if_true,
    Nat.reduceMul] at hsum hbytes
  exact ⟨hsum, hbytes⟩

end PioSim.Chip
