import AsmLoader.Machine.Encoding
import Mathlib.Tactic.SplitIfs
/-!
# References of instructions

An instruction names at most one place, in its address. Its bytes have room for one displacement,
which is there just when the instruction names a place.
-/

namespace AsmLoader.Machine

variable {α : Type}

def Address.reference? : Address α → Option α
  | relative target => some target
  | based .. | scaled .. => none

def Place.reference? : Place α → Option α
  | register _ => none
  | memory _ address => address.reference?

def Operands.reference? : Operands α → Option α
  | operandByte _ place => place.reference?
  | none | inOpcode _ => Option.none

/-- The place that an instruction names. -/
def Instruction.reference? : Instruction α → Option α
  | bare _ | interrupt _ | retPop _ | pushImmediate _ => none
  | movLoad _ address | arithLoad _ _ address | lea _ address => address.reference?
  | nopPlace place | mov place _ | movImmediate place _ | arith _ place _ => place.reference?
  | arithImmediate _ place _ | test place _ | testImmediate place _ => place.reference?
  | xchg place _ | movzx _ place | movsx _ place | movsxd _ place => place.reference?
  | shift _ place _ | shiftByCl _ place | unary _ place | imul _ place => place.reference?
  | imulImmediate _ place _ | push place | pop place | callPlace place => place.reference?
  | jmpPlace place | set _ place | cmov _ _ place => place.reference?

/-! ## The room for a displacement -/

theorem target_placeBytes (field : Nat) (place : Place α) :
    (placeBytes field place).2 = place.reference? := by
  rcases place with r | ⟨w, target | ⟨size, base, index, displacement⟩ |
    ⟨size, index, scale, displacement⟩⟩
  · rfl
  · rfl
  · cases index with
    | none =>
        simp only [placeBytes]
        split <;> rfl
    | some index => rfl
  · rfl

theorem Form.target_encode (size : CodeSize) (f : Form α) :
    (f.encode size).target = f.operands.reference? := by
  unfold encode
  cases f.operands with
  | none => rfl
  | inOpcode r => rfl
  | operandByte field place =>
      have htarget := target_placeBytes field.value place
      dsimp only
      split
      next hbytes =>
        rw [hbytes] at htarget
        exact htarget
      next hbytes =>
        rw [hbytes] at htarget
        exact htarget

theorem Place.reference?_of_isAccumulator {place : Place α} (h : place.isAccumulator) :
    place.reference? = none := by
  cases place with
  | register r => rfl
  | memory w address => cases h

theorem Instruction.reference?_form (size : CodeSize) (i : Instruction α) :
    (i.form size).operands.reference? = i.reference? := by
  cases i with
  | movImmediate dst value => cases dst <;> rfl
  | push src => cases src <;> rfl
  | pop dst => cases dst <;> rfl
  | arithImmediate op dst value =>
      simp only [form, arithImmediateForm]
      split
      next h => exact (Place.reference?_of_isAccumulator h).symm
      next => split_ifs <;> rfl
  | testImmediate dst value =>
      simp only [form]
      split
      next h => exact (Place.reference?_of_isAccumulator h).symm
      next => rfl
  | xchg dst src =>
      cases dst with
      | register r =>
          simp only [form]
          split <;> rfl
      | memory w address => rfl
  | shift op dst count =>
      simp only [form]
      split <;> rfl
  | imulImmediate dst src value =>
      simp only [form]
      split <;> rfl
  | unary op dst =>
      simp only [form]
      split <;> rfl
  | pushImmediate value =>
      simp only [form]
      split <;> rfl
  | _ => rfl

theorem Instruction.target_of_encode {size : CodeSize} {i : Instruction α} {encoded : Encoded α}
    (h : i.encode size = .ok encoded) : encoded.target = i.reference? := by
  simp only [encode] at h
  split at h
  next => cases h
  next =>
    cases h
    rw [Form.target_encode, reference?_form]

theorem Instruction.reference?_of_encode_bits32 {i : Instruction α} {encoded : Encoded α}
    (h : i.encode .bits32 = .ok encoded) : i.reference? = none := by
  have haddress {operands : Operands α} {target : α} (h : operands.reference? = some target) :
      operands.address? = some (.relative target) := by
    cases operands with
    | none => cases h
    | inOpcode r => cases h
    | operandByte field place =>
        rcases place with r | ⟨w, address⟩
        · cases h
        · cases address with
          | relative target' =>
              cases h
              rfl
          | based => cases h
          | scaled => cases h
  rw [← reference?_form .bits32]
  cases hreference : (i.form .bits32).operands.reference? with
  | none => rfl
  | some target =>
      have hrefusal : (i.form .bits32).refusal? .bits32 i.memoryOperand ≠ none := by
        simp only [Form.refusal?, haddress hreference]
        split <;> simp
      simp only [encode] at h
      split at h
      next => cases h
      next hnone => exact absurd hnone hrefusal

/-! ## No instruction is empty -/

theorem length_opcodeWith (n : Nat) (opcode : List UInt8) :
    (opcodeWith n opcode).length = opcode.length := by
  induction opcode with
  | nil => rfl
  | cons b rest ih =>
      cases rest with
      | nil => rfl
      | cons b' rest => simp [opcodeWith, ih]

theorem Instruction.opcode_form_ne_nil (size : CodeSize) (i : Instruction α) :
    (i.form size).opcode ≠ [] := by
  cases i with
  | bare op => cases op <;> simp [form, Bare.opcode]
  | movImmediate dst value => cases dst <;> simp [form, Form.sized, Form.withDigit]
  | push src => cases src <;> simp [form, Form.onStack]
  | pop dst => cases dst <;> simp [form, Form.onStack]
  | arithImmediate op dst value =>
      simp only [form, arithImmediateForm]
      split_ifs <;> simp [Form.sized, Form.withDigit]
  | unary op dst =>
      simp only [form]
      split <;> simp [Form.sized, Form.withDigit]
  | xchg dst src =>
      cases dst with
      | register r =>
          simp only [form]
          split <;> simp [Form.sized, Form.withRegister]
      | memory w address => simp [form, Form.sized, Form.withRegister]
  | testImmediate dst value =>
      simp only [form]
      split <;> simp [Form.sized, Form.withDigit]
  | shift op dst count =>
      simp only [form]
      split <;> simp [Form.withDigit, Form.sized]
  | imulImmediate dst src value =>
      simp only [form]
      split <;> simp [Form.sized]
  | pushImmediate value =>
      simp only [form]
      split <;> simp
  | _ => simp [form, Form.sized, Form.withDigit, Form.withRegister, Form.onStack]

theorem Form.before_encode_ne_nil (size : CodeSize) {f : Form α} (h : f.opcode ≠ []) :
    (f.encode size).before ≠ [] := by
  have hpos : 0 < f.opcode.length := List.length_pos_iff.mpr h
  rw [← List.length_pos_iff]
  unfold encode
  cases f.operands with
  | none =>
      simp only [List.length_append]
      omega
  | inOpcode r =>
      simp only [List.length_append, length_opcodeWith]
      omega
  | operandByte field place =>
      dsimp only
      split
      next =>
        simp only [List.length_append]
        omega
      next =>
        simp only [List.length_append]
        omega

theorem Instruction.before_ne_nil_of_encode {size : CodeSize} {i : Instruction α}
    {encoded : Encoded α} (h : i.encode size = .ok encoded) : encoded.before ≠ [] := by
  simp only [encode] at h
  split at h
  next => cases h
  next =>
    cases h
    exact Form.before_encode_ne_nil size (opcode_form_ne_nil size i)

end AsmLoader.Machine
