import AsmLoader.Proofs.Machine.Reading
import Mathlib.Tactic.IntervalCases
/-!
# What opcodes take

What the decoder takes after an opcode: an operand byte with its address, an immediate, both or
neither. The lemmas follow the rows in which the decoder tells opcodes apart.
-/

namespace AsmLoader.Machine

namespace Reader

variable {p : Prefixes} {b : UInt8} {bytes operand immediate : List UInt8} {n field : Nat}
  {memory : Bool}

def isBranchOrEscape (n : Nat) : Bool :=
  n == 0x0F || 0x70 ≤ n && n < 0x80 || n == 0xE8 || n == 0xE9 || n == 0xEB

theorem takes_opcode_short (hb : isBranchOrEscape b.toNat = false)
    (h : (shortOpcode p b.toNat).Takes bytes) : (opcode p).Takes (b :: bytes) := by
  simp only [isBranchOrEscape, Bool.or_eq_false_iff, beq_eq_false_iff_ne, Bool.and_eq_false_iff,
    decide_eq_false_iff_not] at hb
  refine (reads_byte b).bind ?_
  dsimp only
  rw [if_neg (by omega), if_neg (by omega), if_neg (by omega), if_neg (by omega),
    if_neg (by omega)]
  exact h.then_pure fun _ => ⟨_, rfl⟩

theorem takes_opcode_long (hb : ¬(0x80 ≤ b.toNat ∧ b.toNat < 0x90))
    (h : (longOpcode p b.toNat).Takes bytes) : (opcode p).Takes (0x0F :: b :: bytes) := by
  refine (reads_byte 0x0F).bind ((reads_byte b).bind ?_)
  dsimp only
  rw [if_neg hb]
  exact h.then_pure fun _ => ⟨_, rfl⟩

/-- No opcode is a prefix. -/
theorem not_prefix_of_takes_opcode (h : (opcode p).Takes (b :: bytes)) :
    b ≠ 0x66 ∧ b ≠ 0x67 ∧ b ≠ 0xF3 ∧ ¬(0x40 ≤ b.toNat ∧ b.toNat < 0x50) := by
  obtain ⟨a, ha⟩ := h
  have hrun := ha []
  have hfail (hnone : (opcode p).run (b :: (bytes ++ [])) = .error (bytes ++ [])) : False := by
    cases hrun.symm.trans hnone
  refine ⟨?_, ?_, ?_, ?_⟩
  · rintro rfl
    exact hfail rfl
  · rintro rfl
    exact hfail rfl
  · rintro rfl
    exact hfail rfl
  · intro hrange
    apply hfail
    obtain ⟨n, hn⟩ : ∃ n, n = b.toNat := ⟨_, rfl⟩
    have hb : b = UInt8.ofNat n := by simp [hn]
    rw [← hn] at hrange
    obtain ⟨hlow, hhigh⟩ := hrange
    clear hn
    subst hb
    interval_cases n <;> rfl

/-! ## Operands of opcodes -/

section Operands

variable (h : IsOperand (some (field, memory)) operand)
include h

theorem takes_store {make : Place Reference → Register → Instruction Reference} :
    (store p n make).Takes operand :=
  (takes_place h).then_pure fun _ => ⟨_, rfl⟩

theorem takes_pair {make : Place Reference → Register → Instruction Reference}
    {load : Register → Address Reference → Instruction Reference} :
    (pair p n make load).Takes operand := by
  unfold pair
  split
  next => exact takes_store h
  next =>
    apply (takes_place h).then_pure
    intro place
    dsimp only
    split <;> exact ⟨_, rfl⟩

theorem takes_toRegister {w : Width} {make : Register → Place Reference →
    Instruction Reference} : (toRegister p w make).Takes operand :=
  (takes_place h).then_pure fun _ => ⟨_, rfl⟩

theorem takes_arith (hn : n < 0x40 ∧ n % 8 < 4) : (shortOpcode p n).Takes operand := by
  unfold shortOpcode arith
  rw [if_pos (by omega), if_pos hn.2]
  exact takes_pair h

theorem takes_test (hn : 0x84 ≤ n ∧ n < 0x86) : (shortOpcode p n).Takes operand := by
  unfold shortOpcode
  rw [if_neg (by omega), if_neg (by omega), if_neg (by omega), if_pos hn]
  exact takes_store h

theorem takes_xchg (hn : 0x86 ≤ n ∧ n < 0x88) : (shortOpcode p n).Takes operand := by
  unfold shortOpcode
  rw [if_neg (by omega), if_neg (by omega), if_neg (by omega), if_neg (by omega), if_pos hn]
  exact takes_store h

theorem takes_mov (hn : 0x88 ≤ n ∧ n < 0x8C) : (shortOpcode p n).Takes operand := by
  unfold shortOpcode
  rw [if_neg (by omega), if_neg (by omega), if_neg (by omega), if_neg (by omega),
    if_neg (by omega), if_pos hn]
  exact takes_pair h

theorem takes_arithImmediate {w : Width} {count : Nat} (himmediate : immediate.length = count) :
    (arithImmediate p w count).Takes (operand ++ immediate) := by
  unfold arithImmediate
  exact takes_group h rfl fun _ => (takes_signed himmediate).then_pure fun _ => ⟨_, rfl⟩

theorem takes_imulImmediate (himmediate : immediate.length = immediateBytes p.width) :
    (shortOpcode p 0x69).Takes (operand ++ immediate) :=
  (takes_place h).bind fun _ => (takes_signed himmediate).then_pure fun _ => ⟨_, rfl⟩

theorem takes_imulByte (himmediate : immediate.length = 1) :
    (shortOpcode p 0x6B).Takes (operand ++ immediate) :=
  (takes_place h).bind fun _ => (takes_signed himmediate).then_pure fun _ => ⟨_, rfl⟩

theorem takes_movsxd : (shortOpcode p 0x63).Takes operand :=
  takes_toRegister h

theorem takes_shift (hn : n < 0xC2) (himmediate : immediate.length = 1) :
    (shift p n).Takes (operand ++ immediate) := by
  obtain ⟨count, rfl⟩ := List.length_eq_one_iff.mp himmediate
  unfold shift
  refine takes_group h rfl fun _ => ?_
  rw [if_pos hn]
  exact takes_byte.then_pure fun _ => ⟨_, rfl⟩

theorem takes_shiftAlone (hn : 0xC2 ≤ n) : (shift p n).Takes operand := by
  rw [← List.append_nil operand]
  unfold shift
  refine takes_group h rfl fun _ => ?_
  rw [if_neg (by omega)]
  split <;> exact takes_pure _

theorem takes_unary (hfield : 2 ≤ field) : (unary p n).Takes operand := by
  rw [← List.append_nil operand]
  unfold unary
  refine takes_group h rfl fun _ => ?_
  rw [if_neg (by omega)]
  exact takes_pure _

theorem takes_testPlace (hfield : field = 0)
    (himmediate : immediate.length = immediateBytes (p.widthOf n)) :
    (unary p n).Takes (operand ++ immediate) := by
  unfold unary
  refine takes_group h rfl fun _ => ?_
  rw [if_pos (by omega)]
  exact (takes_signed himmediate).then_pure fun _ => ⟨_, rfl⟩

theorem takes_digitZero {w : Width} {next : Place Reference → Reader (Instruction Reference)}
    (hfield : field = 0) (hnext : ∀ place, (next place).Takes immediate) :
    (digitZero p w next).Takes (operand ++ immediate) :=
  takes_group h (if_pos hfield) hnext

theorem takes_stepByOne (hfield : field = 0 ∨ field = 1) : (step p n).Takes operand := by
  rw [← List.append_nil operand]
  unfold step
  rcases hfield with rfl | rfl
  · exact takes_group h rfl fun _ => takes_pure _
  · exact takes_group h rfl fun _ => takes_pure _

theorem takes_step (hfield : field = 2 ∨ field = 4 ∨ field = 6) :
    (step p 0xFF).Takes operand := by
  rw [← List.append_nil operand]
  unfold step
  rcases hfield with rfl | rfl | rfl
  · exact takes_group h rfl fun _ => takes_pure _
  · exact takes_group h rfl fun _ => takes_pure _
  · exact takes_group h rfl fun _ => takes_pure _

end Operands

theorem takes_lea (h : IsOperand (some (field, true)) operand) :
    (shortOpcode p 0x8D).Takes operand :=
  (takes_memory h).then_pure fun _ => ⟨_, rfl⟩

/-! ## Opcodes that hold a register or stand alone -/

theorem takes_arithAccumulator (hn : n < 0x40 ∧ (n % 8 = 4 ∨ n % 8 = 5))
    (h : bytes.length = immediateBytes (p.widthOf n)) : (shortOpcode p n).Takes bytes := by
  unfold shortOpcode arith
  rw [if_pos (by omega), if_neg (by omega)]
  exact (takes_signed h).then_pure fun _ => ⟨_, rfl⟩

theorem takes_testAccumulator (hn : n = 0xA8 ∨ n = 0xA9)
    (h : bytes.length = immediateBytes (p.widthOf n)) : (shortOpcode p n).Takes bytes := by
  rcases hn with rfl | rfl
  · exact (takes_signed h).then_pure fun _ => ⟨_, rfl⟩
  · exact (takes_signed h).then_pure fun _ => ⟨_, rfl⟩

theorem takes_pushRegister (hn : 0x50 ≤ n ∧ n < 0x58) : (shortOpcode p n).Takes [] := by
  unfold shortOpcode
  rw [if_neg (by omega), if_pos hn]
  exact takes_pure _

theorem takes_popRegister (hn : 0x58 ≤ n ∧ n < 0x60) : (shortOpcode p n).Takes [] := by
  unfold shortOpcode
  rw [if_neg (by omega), if_neg (by omega), if_pos hn]
  exact takes_pure _

theorem takes_exchange (hn : 0x90 ≤ n ∧ n < 0x98) : (shortOpcode p n).Takes [] := by
  unfold shortOpcode
  rw [if_neg (by omega), if_neg (by omega), if_neg (by omega), if_neg (by omega),
    if_neg (by omega), if_neg (by omega), if_pos hn]
  exact takes_pure _

theorem takes_movRegister (hn : 0xB0 ≤ n ∧ n < 0xC0)
    (h : bytes.length = (if n < 0xB8 then Width.byte else p.width).bytes) :
    (shortOpcode p n).Takes bytes := by
  unfold shortOpcode
  rw [if_neg (by omega), if_neg (by omega), if_neg (by omega), if_neg (by omega),
    if_neg (by omega), if_neg (by omega), if_neg (by omega), if_pos hn]
  exact (takes_signed h).then_pure fun _ => ⟨_, rfl⟩

/-! ## Opcodes of two bytes -/

section Long

variable (h : IsOperand (some (field, memory)) operand)
include h

theorem takes_cmov (hn : 0x40 ≤ n ∧ n < 0x50) : (longOpcode p n).Takes operand := by
  unfold longOpcode
  rw [if_pos hn]
  exact takes_toRegister h

theorem takes_set (hn : 0x90 ≤ n ∧ n < 0xA0) : (longOpcode p n).Takes operand := by
  unfold longOpcode
  rw [if_neg (by omega), if_pos hn]
  exact (takes_place h).then_pure fun _ => ⟨_, rfl⟩

theorem takes_longRegister (hn : n ∈ [0xAF, 0xB6, 0xB7, 0xBE, 0xBF]) :
    (longOpcode p n).Takes operand := by
  simp only [List.mem_cons, List.not_mem_nil, or_false] at hn
  rcases hn with rfl | rfl | rfl | rfl | rfl <;> exact takes_toRegister h

end Long

theorem takes_nopPlace (h : IsOperand (some (0, memory)) operand) :
    (longOpcode p 0x1F).Takes operand := by
  rw [← List.append_nil operand]
  exact takes_digitZero h rfl fun _ => takes_pure _

end Reader

end AsmLoader.Machine
