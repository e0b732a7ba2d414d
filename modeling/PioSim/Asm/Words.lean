import PioSim.Asm.Spelling
import PioSim.Asm.Steps
import PioSim.BitRelay

/-!
# Encoded words decoded

The `pio_sim_encode_*` functions put an opcode, a field of three bits and one of five into a word,
and nothing into the field of the delay and the side-set. What `exec_one` reads off such a word is
what was put there.
-/

namespace PioSim.Asm

/-- A word of an opcode, a field of three bits and one of five. -/
def fieldsWord (op field value : ℕ) : Insn :=
  BitVec.ofNat 16 ((op <<< 13) ||| ((field &&& 7) <<< 5) ||| (value &&& 0x1F))

theorem toNat_fieldsWord {op : ℕ} (hop : op < 8) (field value : ℕ) :
    (fieldsWord op field value).toNat = op * 8192 + (field % 8 * 32 + value % 32) := by
  have hfield : field &&& 7 = field % 8 := Nat.and_two_pow_sub_one_eq_mod field 3
  have hvalue : value &&& 0x1F = value % 32 := Nat.and_two_pow_sub_one_eq_mod value 5
  have hlow : ((field &&& 7) <<< 5) ||| (value &&& 0x1F) = field % 8 * 32 + value % 32 := by
    rw [hfield, hvalue, ← Nat.shiftLeft_add_eq_or_of_lt (by omega : value % 32 < 2 ^ 5),
      Nat.shiftLeft_eq]
  rw [fieldsWord, Nat.or_assoc, hlow, ← Nat.shiftLeft_add_eq_or_of_lt (by omega), Nat.shiftLeft_eq,
    BitVec.toNat_ofNat, Nat.mod_eq_of_lt (by omega)]

section
variable {op : ℕ} (hop : op < 8) (field value : ℕ)
include hop

theorem opcode_fieldsWord : opcode (fieldsWord op field value) = op := by
  rw [opcode, toNat_fieldsWord hop]
  omega

theorem operandOf_fieldsWord : operandOf (fieldsWord op field value) =
    field % 8 * 32 + value % 32 := by
  rw [operandOf, toNat_fieldsWord hop]
  omega

theorem delayField_fieldsWord : delayField (fieldsWord op field value) = 0 := by
  rw [delayField, toNat_fieldsWord hop]
  omega

end

/-! ### The delay and side-set field -/

/-- The field is all that `assemble_insn` adds to a word that leaves room for it. -/
theorem withDelay {base : Insn} (hbase : delayField base = 0) {ds : ℕ} (hds : ds < 32) :
    opcode (base ||| BitVec.ofNat 16 (ds <<< 8)) = opcode base ∧
      operandOf (base ||| BitVec.ofNat 16 (ds <<< 8)) = operandOf base ∧
      delayField (base ||| BitVec.ofNat 16 (ds <<< 8)) = ds := by
  have hlt : base.toNat < 65536 := base.isLt
  have hfield : (BitVec.ofNat 16 (ds <<< 8)).toNat = ds <<< 8 := by
    rw [BitVec.toNat_ofNat, Nat.shiftLeft_eq, Nat.mod_eq_of_lt (by omega)]
  unfold delayField at hbase
  have hword : (base ||| BitVec.ofNat 16 (ds <<< 8)).toNat = base.toNat + ds * 256 := by
    have hsplit : base.toNat = (base.toNat / 8192) <<< 13 ||| base.toNat % 256 := by
      rw [← Nat.shiftLeft_add_eq_or_of_lt (by omega), Nat.shiftLeft_eq]
      omega
    rw [BitVec.toNat_or, hfield]
    calc base.toNat ||| ds <<< 8
        = (base.toNat / 8192) <<< 13 ||| (ds <<< 8 ||| base.toNat % 256) := by
          rw [hsplit, Nat.or_assoc, Nat.or_comm (base.toNat % 256), ← hsplit]
      _ = base.toNat + ds * 256 := by
          rw [← Nat.shiftLeft_add_eq_or_of_lt (by omega : base.toNat % 256 < 2 ^ 8),
            ← Nat.shiftLeft_add_eq_or_of_lt (by rw [Nat.shiftLeft_eq]; omega), Nat.shiftLeft_eq,
            Nat.shiftLeft_eq]
          omega
  unfold opcode operandOf delayField
  rw [hword]
  omega

/-! ### Operations -/

section Operations
variable [Platform]

/-! What `decode` reads, opcode by opcode. -/

variable {w : Insn}

theorem decode_jmp (h : opcode w = 0) :
    decode w = .jmp (JmpCond.ofField (operandOf w / 32 % 8)) (operandOf w % 32) := by
  unfold decode
  rw [h]
  rfl

theorem decode_wait (h : opcode w = 1) :
    decode w =
      let source := WaitSource.ofField (operandOf w / 32 % 4)
      if source = .irq then
        .wait ((operandOf w).testBit 7).toNat source (operandOf w % 8)
          (IrqRef.ofField (operandOf w % 32))
      else .wait ((operandOf w).testBit 7).toNat source (operandOf w % 32) .direct := by
  unfold decode
  rw [h]
  rfl

theorem decode_in (h : opcode w = 2) :
    decode w = .in (Place.ofSource (operandOf w / 32 % 8)) (shiftCount (operandOf w)) := by
  unfold decode
  rw [h]
  rfl

theorem decode_out (h : opcode w = 3) :
    decode w = .out (Place.ofOutDest (operandOf w / 32 % 8)) (shiftCount (operandOf w)) := by
  unfold decode
  rw [h]
  rfl

theorem decode_pushpull (h : opcode w = 4) :
    decode w =
      if hasRxfifoMov && (operandOf w).testBit 4 then
        let index := if (operandOf w).testBit 3 then some (operandOf w % 4) else none
        if (operandOf w).testBit 7 then .movFromRxfifo index else .movToRxfifo index
      else if (operandOf w).testBit 7 then .pull ((operandOf w).testBit 6) ((operandOf w).testBit 5)
      else .push ((operandOf w).testBit 6) ((operandOf w).testBit 5) := by
  unfold decode
  rw [h]
  rfl

theorem decode_mov (h : opcode w = 5) :
    decode w = .mov (Place.ofMovDest (operandOf w / 32 % 8)) (MovOp.ofField (operandOf w / 8 % 4))
      (Place.ofSource (operandOf w % 8)) := by
  unfold decode
  rw [h]
  rfl

theorem decode_irq (h : opcode w = 6) :
    decode w = .irq ((operandOf w).testBit 6) ((operandOf w).testBit 5) (operandOf w % 8)
      (IrqRef.ofField (operandOf w % 32)) := by
  unfold decode
  rw [h]
  rfl

theorem decode_set (h : opcode w = 7) :
    decode w = .set (Place.ofSetDest (operandOf w / 32 % 8)) (operandOf w % 32) := by
  unfold decode
  rw [h]
  rfl

/-! What is encoded. -/

/-- A word that leaves room for the delay and side-set field and is decoded to the operation. -/
structure Encodes (w : Insn) (op : Operation ℕ) : Prop where
  room : delayField w = 0
  decoded : decode w = op

variable {field value : ℕ}

theorem encodes_of_fields {op : ℕ} {o : Operation ℕ} (hop : op < 8) (hfield : field < 8)
    (hvalue : value < 32)
    (h : opcode (fieldsWord op field value) = op →
      operandOf (fieldsWord op field value) = field * 32 + value →
        decode (fieldsWord op field value) = o) :
    Encodes (fieldsWord op field value) o := by
  refine ⟨delayField_fieldsWord hop field value, h (opcode_fieldsWord hop field value) ?_⟩
  rw [operandOf_fieldsWord hop, Nat.mod_eq_of_lt hfield, Nat.mod_eq_of_lt hvalue]

section
omit [Platform]

theorem field_eq (hfield : field < 8) (hvalue : value < 32) :
    (field * 32 + value) / 32 % 8 = field := by
  omega

theorem value_eq (hvalue : value < 32) : (field * 32 + value) % 32 = value := by
  omega

/-- The bits above the value are those of the field. -/
theorem testBit_field (hvalue : value < 32) (k : ℕ) :
    (field * 32 + value).testBit (k + 5) = field.testBit k := by
  rw [Nat.testBit_add, show (field * 32 + value) / 2 ^ 5 = field by omega]

theorem and_31 (n : ℕ) : n &&& 0x1F = n % 32 := Nat.and_two_pow_sub_one_eq_mod n 5

end

theorem encodes_jmp (hfield : field < 8) (hvalue : value < 32) :
    Encodes (encodeJmp field value) (.jmp (JmpCond.ofField field) value) := by
  refine encodes_of_fields (by decide) hfield hvalue fun hop hoperand => ?_
  rw [decode_jmp hop, hoperand, field_eq hfield hvalue, value_eq hvalue]

omit [Platform] in
/-- A bit count of 32 is in the word as 0. -/
theorem shiftCount_eq (h : 1 ≤ value ∧ value ≤ 32) :
    shiftCount (field * 32 + value % 32) = value := by
  unfold shiftCount
  split <;> omega

theorem encodes_in (hfield : field < 8) (hvalue : 1 ≤ value ∧ value ≤ 32) :
    Encodes (encodeIn field (value &&& 0x1F)) (.in (Place.ofSource field) value) := by
  have hlt : value % 32 < 32 := Nat.mod_lt _ (by decide)
  rw [and_31]
  refine encodes_of_fields (by decide) hfield hlt fun hop hoperand => ?_
  rw [decode_in hop, hoperand, field_eq hfield hlt, shiftCount_eq hvalue]

theorem encodes_out (hfield : field < 8) (hvalue : 1 ≤ value ∧ value ≤ 32) :
    Encodes (encodeOut field (value &&& 0x1F)) (.out (Place.ofOutDest field) value) := by
  have hlt : value % 32 < 32 := Nat.mod_lt _ (by decide)
  rw [and_31]
  refine encodes_of_fields (by decide) hfield hlt fun hop hoperand => ?_
  rw [decode_out hop, hoperand, field_eq hfield hlt, shiftCount_eq hvalue]

theorem encodes_set (hfield : field < 8) (hvalue : value < 32) :
    Encodes (encodeSet field (value &&& 0x1F)) (.set (Place.ofSetDest field) value) := by
  rw [and_31, Nat.mod_eq_of_lt hvalue]
  refine encodes_of_fields (by decide) hfield hvalue fun hop hoperand => ?_
  rw [decode_set hop, hoperand, field_eq hfield hvalue, value_eq hvalue]

theorem encodes_push (ifFull block : Bool) :
    Encodes (encodePush ifFull block) (.push ifFull block) := by
  have hbits : (operandOf (encodePush ifFull block)).testBit 4 = false ∧
      (operandOf (encodePush ifFull block)).testBit 7 = false ∧
      (operandOf (encodePush ifFull block)).testBit 6 = ifFull ∧
      (operandOf (encodePush ifFull block)).testBit 5 = block := by
    cases ifFull <;> cases block <;> decide
  obtain ⟨hslot, hpull, hif, hblock⟩ := hbits
  refine ⟨by cases ifFull <;> cases block <;> decide, ?_⟩
  rw [decode_pushpull (by cases ifFull <;> cases block <;> decide), hslot, hpull, hif, hblock,
    Bool.and_false]
  rfl

theorem encodes_pull (ifEmpty block : Bool) :
    Encodes (encodePull ifEmpty block) (.pull ifEmpty block) := by
  have hbits : (operandOf (encodePull ifEmpty block)).testBit 4 = false ∧
      (operandOf (encodePull ifEmpty block)).testBit 7 = true ∧
      (operandOf (encodePull ifEmpty block)).testBit 6 = ifEmpty ∧
      (operandOf (encodePull ifEmpty block)).testBit 5 = block := by
    cases ifEmpty <;> cases block <;> decide
  obtain ⟨hslot, hpull, hif, hblock⟩ := hbits
  refine ⟨by cases ifEmpty <;> cases block <;> decide, ?_⟩
  rw [decode_pushpull (by cases ifEmpty <;> cases block <;> decide), hslot, hpull, hif, hblock,
    Bool.and_false]
  rfl

/-- The RX FIFO moves stand among the words of `push` and `pull`; one of the two directions, by
index or by y. -/
theorem encodes_rxfifo (hrx : hasRxfifoMov = true) (fromFifo : Bool) {index : Option ℕ}
    (hindex : ∀ i, index = some i → i ≤ 3) :
    Encodes (if fromFifo then index.elim encodeMovFromRxfifoY encodeMovFromRxfifo
        else index.elim encodeMovToRxfifoY encodeMovToRxfifo)
      (if fromFifo then .movFromRxfifo index else .movToRxfifo index) := by
  cases index with
  | none =>
    refine ⟨by cases fromFifo <;> decide, ?_⟩
    rw [decode_pushpull (by cases fromFifo <;> decide), hrx]
    cases fromFifo <;> rfl
  | some i =>
    have hlt : i < 4 := Nat.lt_succ_of_le (hindex i rfl)
    rw [Option.elim_some, Option.elim_some]
    interval_cases i
    all_goals
      refine ⟨by cases fromFifo <;> decide, ?_⟩
      rw [decode_pushpull (by cases fromFifo <;> decide), hrx]
      cases fromFifo <;> rfl

theorem encodes_movToRxfifo (hrx : hasRxfifoMov = true) {index : Option ℕ}
    (hindex : ∀ i, index = some i → i ≤ 3) :
    Encodes (index.elim encodeMovToRxfifoY encodeMovToRxfifo) (.movToRxfifo index) :=
  encodes_rxfifo hrx false hindex

theorem encodes_movFromRxfifo (hrx : hasRxfifoMov = true) {index : Option ℕ}
    (hindex : ∀ i, index = some i → i ≤ 3) :
    Encodes (index.elim encodeMovFromRxfifoY encodeMovFromRxfifo) (.movFromRxfifo index) :=
  encodes_rxfifo hrx true hindex

theorem encodes_mov {dest op src : ℕ} (hdest : dest < 8) (hop : op < 4) (hsrc : src < 8) :
    Encodes (encodeMov dest op src)
    (.mov (Place.ofMovDest dest) (MovOp.ofField op) (Place.ofSource src)) := by
  have hlow : ((op &&& 3) <<< 3) ||| (src &&& 7) = (op * 8 + src) &&& 0x1F := by
    interval_cases op <;> interval_cases src <;> rfl
  have hword : encodeMov dest op src = fieldsWord 5 dest (op * 8 + src) := by
    rw [encodeMov, fieldsWord, ← hlow, Nat.or_assoc _ ((op &&& 3) <<< 3)]
  rw [hword]
  refine encodes_of_fields (by decide) hdest (by omega) fun hopcode hoperand => ?_
  rw [decode_mov hopcode, hoperand, field_eq hdest (by omega),
    show (dest * 32 + (op * 8 + src)) / 8 % 4 = op by
      omega, show (dest * 32 + (op * 8 + src)) % 8 = src by omega]

/-- A number in the mode bits and the index of an IRQ. -/
theorem encodes_irq (clear waits : Bool) {field : ℕ} (hfield : field < 32) :
    Encodes (encodeIrq clear waits field)
    (.irq clear waits (field % 8) (IrqRef.ofField field)) := by
  have hword : encodeIrq clear waits field =
      fieldsWord 6 (clear.toNat * 2 + waits.toNat) field := by
    rw [encodeIrq, fieldsWord, Nat.or_assoc (6 <<< 13)]
    cases clear <;> cases waits <;> rfl
  have hmode : clear.toNat * 2 + waits.toNat < 8 := by
    have hc := Bool.toNat_le clear
    have hw := Bool.toNat_le waits
    omega
  rw [hword]
  refine encodes_of_fields (by decide) hmode hfield fun hop hoperand => ?_
  have hclear : ((clear.toNat * 2 + waits.toNat) * 32 + field).testBit 6 = _ :=
    testBit_field hfield 1
  have hwaits : ((clear.toNat * 2 + waits.toNat) * 32 + field).testBit 5 = _ :=
    testBit_field hfield 0
  rw [decode_irq hop, hoperand, hclear, hwaits, value_eq hfield,
    show ((clear.toNat * 2 + waits.toNat) * 32 + field) % 8 = field % 8 by omega]
  cases clear <;> cases waits <;> rfl

/-- A wait on anything but an IRQ has all five bits of the index. -/
theorem encodes_wait {pol source : ℕ} (hpol : pol ≤ 1) (hsource : source < 4) {field : ℕ}
    (hfield : field < 32) :
    Encodes (encodeWait pol source field)
      (if WaitSource.ofField source = .irq then
        .wait pol (WaitSource.ofField source) (field % 8) (IrqRef.ofField field)
      else .wait pol (WaitSource.ofField source) field .direct) := by
  have hword : encodeWait pol source field = fieldsWord 1 (pol * 4 + source) field := by
    rw [encodeWait, fieldsWord, Nat.or_assoc (1 <<< 13)]
    interval_cases pol <;> interval_cases source <;> rfl
  rw [hword]
  refine encodes_of_fields (by decide) (by omega) hfield fun hop hoperand => ?_
  have hbit : ((pol * 4 + source) * 32 + field).testBit 7 = _ := testBit_field hfield 2
  have hpolarity : (pol * 4 + source).testBit 2 = decide (pol = 1) := by
    interval_cases pol <;> interval_cases source <;> rfl
  have hnat : (decide (pol = 1)).toNat = pol := by
    interval_cases pol <;> rfl
  rw [decode_wait hop, hoperand, hbit, hpolarity, hnat, value_eq hfield,
    show ((pol * 4 + source) * 32 + field) % 8 = field % 8 by omega,
    show ((pol * 4 + source) * 32 + field) / 32 % 4 = source by omega]

end Operations

end PioSim.Asm
