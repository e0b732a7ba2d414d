import PioSim.DmaTransfer
import PioSim.Lib.Window
import Mathlib.Algebra.Group.Action.Defs

/-!
# Ring addressing

A channel's cursors move by one element a transfer. The ring selects one side and wraps that side's
cursor in the window of `2 ^ ringSize` bytes around its start; the other side goes on linearly, and
a side that does not increment stays. A run moves the cursors of a channel that nobody reconfigures
once for each of its transfers.
-/

namespace PioSim

/-- The cursor of one side, the write side or the read side. -/
def DmaChannel.cursor (chan : DmaChannel) (write : Bool) : DmaAddr :=
  if write then chan.writeAddr else chan.readAddr

def DmaConfig.incr (ctrl : DmaConfig) (write : Bool) : Bool :=
  if write then ctrl.incrWrite else ctrl.incrRead

theorem dmaAdvance_still (a : DmaAddr) (ringSize : ℕ) (applies : Bool) (bytes : ℕ) :
    dmaAdvance a false ringSize applies bytes = a := by cases a <;> rfl

theorem dmaAdvance_ring {ringSize : ℕ} (hpos : 1 ≤ ringSize) (hle : ringSize ≤ 15) (p bytes : ℕ) :
    dmaAdvance (.mem p) true ringSize true bytes = .mem (Window.wrap (2 ^ ringSize) bytes p) := by
  have hne : (ringSize != 0) = true := bne_iff_ne.mpr (by omega)
  have hlt : decide (ringSize < uintptrBits) = true := decide_eq_true (by unfold uintptrBits; omega)
  simp [dmaAdvance, hne, hlt, Window.wrap, Window.base]

namespace DmaChannel

variable (chan : DmaChannel)

theorem ctrl_advance : chan.advance.ctrl = chan.ctrl := rfl

theorem cursor_advance (write : Bool) : chan.advance.cursor write =
    dmaAdvance (chan.cursor write) (chan.ctrl.incr write) chan.ctrl.ringSize
      (chan.ctrl.ringSel == write) (elemBytes chan.ctrl.dataSize) := by
  cases write with
  | true =>
    rw [beq_true]
    rfl
  | false =>
    rw [beq_false]
    rfl

theorem ctrl_iterate (k : ℕ) : (advance^[k] chan).ctrl = chan.ctrl := by
  induction k with
  | zero => rfl
  | succ k ih => rw [Function.iterate_succ_apply', ctrl_advance, ih]

/-- A side that every step moves by `f` has been moved by `f` once a step. -/
theorem cursor_iterate {write : Bool} {p : ℕ} (hp : chan.cursor write = .mem p) {f : ℕ → ℕ}
    (hf : ∀ q, dmaAdvance (.mem q) (chan.ctrl.incr write) chan.ctrl.ringSize
      (chan.ctrl.ringSel == write) (elemBytes chan.ctrl.dataSize) = .mem (f q)) (k : ℕ) :
    (advance^[k] chan).cursor write = .mem (f^[k] p) := by
  induction k with
  | zero => exact hp
  | succ k ih => rw [Function.iterate_succ_apply', cursor_advance, ctrl_iterate, ih, hf,
      Function.iterate_succ_apply']

end DmaChannel

/-- Elements are powers of two, so that one no larger than a window divides it. -/
theorem elemBytes_dvd {size : DmaSize} {r : ℕ} (h : elemBytes size ≤ 2 ^ r) :
    elemBytes size ∣ 2 ^ r := by
  have hpow : ∃ e, elemBytes size = 2 ^ e := by
    cases size with
    | size8 => exact ⟨0, rfl⟩
    | size16 => exact ⟨1, rfl⟩
    | size32 => exact ⟨2, rfl⟩
  obtain ⟨e, he⟩ := hpow
  rw [he] at h ⊢
  exact Nat.pow_dvd_pow 2 ((Nat.pow_le_pow_iff_right (by omega)).mp h)

/-- The ring's side wraps in the window around its start. -/
theorem DmaChannel.cursor_wrap (chan : DmaChannel) {write : Bool} {p : ℕ}
    (hp : chan.cursor write = .mem p)
    (hpos : 1 ≤ chan.ctrl.ringSize) (hle : chan.ctrl.ringSize ≤ 15)
    (hincr : chan.ctrl.incr write = true) (hsel : chan.ctrl.ringSel = write) (k : ℕ) :
    (DmaChannel.advance^[k] chan).cursor write =
      .mem (Window.base (2 ^ chan.ctrl.ringSize) p +
        (p % 2 ^ chan.ctrl.ringSize + k * elemBytes chan.ctrl.dataSize) % 2 ^
          chan.ctrl.ringSize) := by
  rw [chan.cursor_iterate hp
    (f := Window.wrap (2 ^ chan.ctrl.ringSize) (elemBytes chan.ctrl.dataSize)),
    Window.iterate_wrap]
  intro q
  rw [hincr, hsel, beq_self_eq_true]
  exact dmaAdvance_ring hpos hle q _

/-- After `k` transfers a cursor that started at `p` has wrapped in its window on the ring's side,
gone on linearly on the other, and stayed where the side does not increment. -/
theorem ring_cursor (chan : DmaChannel) (write : Bool) (p k : ℕ) (hp : chan.cursor write = .mem p)
    (hpos : 1 ≤ chan.ctrl.ringSize) (hle : chan.ctrl.ringSize ≤ 15)
    (hroom : elemBytes chan.ctrl.dataSize ≤ 2 ^ chan.ctrl.ringSize) :
    let bytes := elemBytes chan.ctrl.dataSize
    let size := 2 ^ chan.ctrl.ringSize
    let base := p - p % size
    let cursor := base + (p - base + k * bytes) % size
    (chan.ctrl.incr write = true → chan.ctrl.ringSel = write →
      (DmaChannel.advance^[k] chan).cursor write = .mem cursor ∧
        base ≤ cursor ∧ cursor < base + size ∧
        (bytes ∣ p → ∀ j < bytes, base ≤ cursor + j ∧ cursor + j < base + size)) ∧
      (chan.ctrl.incr write = true → chan.ctrl.ringSel ≠ write →
        (DmaChannel.advance^[k] chan).cursor write = .mem (p + k * bytes)) ∧
      (chan.ctrl.incr write = false → (DmaChannel.advance^[k] chan).cursor write = .mem p) := by
  intro bytes size base cursor
  have hsize : 0 < size := Nat.two_pow_pos _
  have hoffset : p - base = p % size := Window.sub_base size p
  refine ⟨fun hincr hsel => ⟨?_, Nat.le_add_right _ _, ?_, fun haligned j hj => ?_⟩,
    fun hincr hsel => ?_, fun hincr => ?_⟩
  · rw [chan.cursor_wrap hp hpos hle hincr hsel, ← hoffset]
    rfl
  · exact Nat.add_lt_add_left (Nat.mod_lt _ hsize) base
  · have hdvd : bytes ∣ size := elemBytes_dvd hroom
    have hstart : bytes ∣ p - base + k * bytes := by
      rw [hoffset]
      exact (Nat.dvd_add_left (Nat.dvd_mul_left _ _)).mpr ((Nat.dvd_mod_iff hdvd).mpr haligned)
    have hfits : (p - base + k * bytes) % size + bytes ≤ size := Window.room hsize hdvd hstart
    constructor <;> dsimp only [cursor] <;> omega
  · rw [chan.cursor_iterate hp (f := (· + bytes)), add_right_iterate_apply, smul_eq_mul]
    · intro q
      rw [hincr, beq_eq_false_iff_ne.mpr hsel]
      rfl
  · rw [chan.cursor_iterate hp (f := id), Function.iterate_id]
    · rfl
    · intro q
      rw [hincr]
      exact dmaAdvance_still _ _ _ _

/-- Halfwords from address 10 in windows of 8 bytes, written linearly from address 64. -/
def halfwordRing : DmaChannel where
  ctrl := (DmaConfig.mk false .size16 true true 0 false 0 treqForce false false false).setRing false
    3
  readAddr := .mem 10
  writeAddr := .mem 64
  transCount := 9
  transCountReload := 9
  en := true
  busy := true
  onComplete := none

/-- The eighth halfword is read from the base of the window. -/
theorem ring_cursor_halfwords :
    (DmaChannel.advance^[7] halfwordRing).cursor false = .mem 8 ∧
      (DmaChannel.advance^[7] halfwordRing).cursor true = .mem 78 :=
  ⟨((ring_cursor halfwordRing false 10 7 rfl (by decide) (by decide) (by decide)).1 rfl rfl).1,
    (ring_cursor halfwordRing true 64 7 rfl (by decide) (by decide) (by decide)).2.1
      rfl (by decide)⟩

/-! ### Runs -/

/-- What moves the cursors of a channel, and the cursors. -/
def DmaChannel.motion (chan : DmaChannel) : DmaConfig × DmaAddr × DmaAddr :=
  (chan.ctrl.unsniffed, chan.readAddr, chan.writeAddr)

theorem DmaChannel.motion_advance {x y : DmaChannel} (h : x.motion = y.motion) :
    x.advance.motion = y.advance.motion := by
  obtain ⟨hctrl, hrest⟩ := Prod.mk.inj h
  obtain ⟨hread, hwrite⟩ := Prod.mk.inj hrest
  have hsize : x.ctrl.dataSize = y.ctrl.dataSize := (congrArg DmaConfig.dataSize hctrl :)
  have hincrRead : x.ctrl.incrRead = y.ctrl.incrRead := (congrArg DmaConfig.incrRead hctrl :)
  have hincrWrite : x.ctrl.incrWrite = y.ctrl.incrWrite := (congrArg DmaConfig.incrWrite hctrl :)
  have hring : x.ctrl.ringSize = y.ctrl.ringSize := (congrArg DmaConfig.ringSize hctrl :)
  have hsel : x.ctrl.ringSel = y.ctrl.ringSel := (congrArg DmaConfig.ringSel hctrl :)
  simp only [motion, advance, hctrl, hread, hwrite, hsize, hincrRead, hincrWrite, hring, hsel]

def ChipCall.Configures (c : ℕ) [Platform] : ChipCall → Prop
  | .channelConfigure ch _ _ _ _ _ => chIdx ch = c
  | _ => False

namespace Chip
variable [Platform] {cb : Callback} {s : Chip} {c : ℕ}

omit [Platform] in
theorem motion_modifyCh (x : ℕ) {f : DmaChannel → DmaChannel}
    (hf : ∀ chan, (f chan).motion = chan.motion)
    (d : Dma) : ((d.modifyCh x f).ch c).motion = (d.ch c).motion := by
  by_cases hx : c = x
  · subst hx
    rw [Dma.ch_modifyCh_self, hf]
  · rw [Dma.ch_modifyCh_of_ne _ hx]

omit [Platform] in
theorem unfinished_channelMotion (hcb : cb.SparesController) :
    Unfinished cb fun s => (s.dma.ch c).motion where
  hook fn ch s := by rw [(hcb fn ch s).1]
  raised _ _ _ := rfl
  triggered _ _ := rfl
  chained _ _ _ := rfl
  armed s x := motion_modifyCh x
    (f := fun chan => { chan with transCount := chan.transCountReload, busy := true })
      (fun _ => rfl) s.dma

theorem motion_op (d : Dma) (o : DmaOp) : ((o.apply d).ch c).motion = (d.ch c).motion := by
  cases o with
  | channelSetEnabled ch en =>
    exact motion_modifyCh _ (f := fun chan => { chan with en := en }) (fun _ => rfl) d
  | channelSetCallback ch fn =>
    exact motion_modifyCh _ (f := fun chan => { chan with onComplete := fn }) (fun _ => rfl) d
  | channelAbortMask mask =>
    refine List.foldlRecOn (motive := fun e : Dma => (e.ch c).motion = (d.ch c).motion) _ _ rfl ?_
    intro e he x _
    split
    · exact (motion_modifyCh x (f := fun chan => { chan with busy := false })
        (fun _ => rfl) e).trans he
    · exact he
  | snifferEnable ch mode force =>
    cases force with
    | false => rfl
    | true =>
      exact motion_modifyCh _
        (f := fun chan => { chan with ctrl := { chan.ctrl with sniffEn := true } })
        (fun _ => rfl) _
  | _ => rfl

/-- A call moves the cursors of a channel that it does not configure when it lets it transfer. -/
theorem motion_step (hcb : cb.SparesController) {x : ChipCall} (hx : ¬ x.Configures c) :
    ((s.step cb x).dma.ch c).motion =
      (DmaChannel.advance^[(s.transfers x).count c] (s.dma.ch c)).motion := by
  have hkept := unfinished_channelMotion (c := c) hcb
  cases x with
  | pio call => rfl
  | poke p v => rfl
  | op o => exact motion_op s.dma o
  | startChannelMask mask => exact hkept.startChannelMask s mask
  | channelConfigure ch cfg writeAddr readAddr transCount trigger =>
    have hother := Dma.ch_modifyCh_of_ne s.dma (Ne.symm hx) fun chan : DmaChannel =>
      { chan with
        ctrl := cfg
        writeAddr := writeAddr
        readAddr := readAddr
        transCountReload := transCount
        en := true }
    rw [step, channelConfigure]
    split
    · exact (hkept.startChannelMask _ _).trans (congrArg DmaChannel.motion hother)
    · exact congrArg DmaChannel.motion hother
  | dmaTick =>
    cases hserved : s.clocked.served with
    | none =>
      rw [step_dmaTick_of_idle hserved, transfers, hserved, ch_clocked]
      rfl
    | some x =>
      rw [step_dmaTick_of_served hserved, transfers, hserved, Option.toList_some]
      refine (hkept.transferOne s.clocked x).trans ?_
      by_cases hxc : x = c
      · subst hxc
        rw [ch_moved_self, ch_clocked, List.count_singleton_self]
        rfl
      · rw [List.count_singleton, if_neg (by simpa using hxc)]
        rw [ch_moved_of_ne _ (Ne.symm hxc), ch_clocked]
        rfl

omit [Platform] in
theorem motion_iterate {x y : DmaChannel} (h : x.motion = y.motion) (k : ℕ) :
    (DmaChannel.advance^[k] x).motion = (DmaChannel.advance^[k] y).motion := by
  induction k with
  | zero => exact h
  | succ k ih =>
    rw [Function.iterate_succ_apply', Function.iterate_succ_apply']
    exact DmaChannel.motion_advance ih

/-- In a run that does not configure it a channel's cursors move once for each of its transfers. -/
theorem motion_run (hcb : cb.SparesController) {xs : List ChipCall}
    (h : ∀ x ∈ xs, ¬ x.Configures c) :
    ((s.run cb xs).dma.ch c).motion = (DmaChannel.advance^[
      (Run.collect (Chip.step cb) Chip.transfers s xs).count c] (s.dma.ch c)).motion := by
  have hstep : ∀ (t : Chip) (x : ChipCall) (l : List ℕ),
      (t.dma.ch c).motion = (DmaChannel.advance^[l.count c] (s.dma.ch c)).motion →
        ¬ x.Configures c →
      ((t.step cb x).dma.ch c).motion =
        (DmaChannel.advance^[(l ++ t.transfers x).count c] (s.dma.ch c)).motion := by
    intro t x l ht hx
    rw [motion_step hcb hx, List.count_append, Nat.add_comm, Function.iterate_add_apply]
    exact motion_iterate ht _
  exact Run.invariant_collect (l := []) hstep rfl (Run.along_of_mem h s)

/-- In a run that does not configure it a channel's ring cursor has wrapped in its window once for
each transfer, whatever the other channels and the calls between do. -/
theorem cursor_run (hcb : cb.SparesController) {xs : List ChipCall} (h : ∀ x ∈ xs, ¬ x.Configures c)
    {write : Bool} {p : ℕ} (hp : (s.dma.ch c).cursor write = .mem p)
    (hpos : 1 ≤ (s.dma.ch c).ctrl.ringSize) (hle : (s.dma.ch c).ctrl.ringSize ≤ 15)
    (hincr : (s.dma.ch c).ctrl.incr write = true) (hsel : (s.dma.ch c).ctrl.ringSel = write) :
    ((s.run cb xs).dma.ch c).cursor write = .mem (Window.base (2 ^ (s.dma.ch c).ctrl.ringSize) p +
      (p % 2 ^ (s.dma.ch c).ctrl.ringSize +
        (Run.collect (Chip.step cb) Chip.transfers s xs).count c *
        elemBytes (s.dma.ch c).ctrl.dataSize) % 2 ^ (s.dma.ch c).ctrl.ringSize) := by
  have hmotion := congrArg Prod.snd (motion_run (s := s) hcb h)
  obtain ⟨hread, hwrite⟩ := Prod.mk.inj hmotion
  rw [← (s.dma.ch c).cursor_wrap hp hpos hle hincr hsel]
  cases write with
  | true => exact hwrite
  | false => exact hread

end Chip

end PioSim
