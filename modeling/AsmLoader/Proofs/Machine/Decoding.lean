import AsmLoader.Proofs.Machine.Opcodes
import AsmLoader.Proofs.Machine.Showing
/-!
# Encoded instructions are decoded whole

The decoder takes from the front of 64-bit code just the bytes that the encoder wrote, whatever
follows them. The prefixes are read as those of the form; what the opcode says about operands and
immediates agrees with the form, one lemma for each shape of instruction.
-/

namespace AsmLoader.Machine

variable {α : Type}

/-! ## Forms -/

/-- What stands after the prefixes is taken whole, if these say of the width what the
form does. -/
def Form.Decodes (f : Form α) : Prop :=
  ∀ (p : Prefixes) (operand : List UInt8), p.narrow = f.narrow → p.wide = f.wide →
    IsOperand f.operand? operand → (Reader.opcode p).Takes (f.head ++ operand ++ f.immediate)

namespace Form

variable {narrow wide : Bool} {b : UInt8} {place : Place α} {immediate : List UInt8}

theorem decodes_none (hb : Reader.isBranchOrEscape b.toNat = false)
    (h : ∀ p : Prefixes, p.narrow = narrow → p.wide = wide →
      (Reader.shortOpcode p b.toNat).Takes immediate) :
    (⟨narrow, wide, [b], .none, immediate⟩ : Form α).Decodes := by
  rintro p operand hnarrow hwide ⟨⟩
  exact Reader.takes_opcode_short hb (h p hnarrow hwide)

theorem decodes_inOpcode {r : Register}
    (hb : Reader.isBranchOrEscape (b + UInt8.ofNat (r.number.val % 8)).toNat = false)
    (h : ∀ p : Prefixes, p.narrow = narrow → p.wide = wide →
      (Reader.shortOpcode p (b + UInt8.ofNat (r.number.val % 8)).toNat).Takes immediate) :
    (⟨narrow, wide, [b], .inOpcode r, immediate⟩ : Form α).Decodes := by
  rintro p operand hnarrow hwide ⟨⟩
  exact Reader.takes_opcode_short hb (h p hnarrow hwide)

theorem decodes_short {field : Field} (hb : Reader.isBranchOrEscape b.toNat = false)
    (h : ∀ (p : Prefixes) (operand : List UInt8), p.narrow = narrow → p.wide = wide →
      IsOperand (some (field.value % 8, place.isMemory)) operand →
        (Reader.shortOpcode p b.toNat).Takes (operand ++ immediate)) :
    (⟨narrow, wide, [b], .operandByte field place, immediate⟩ : Form α).Decodes := by
  intro p operand hnarrow hwide hoperand
  exact Reader.takes_opcode_short hb (h p operand hnarrow hwide hoperand)

theorem decodes_long {field : Field} (hb : ¬(0x80 ≤ b.toNat ∧ b.toNat < 0x90))
    (h : ∀ (p : Prefixes) (operand : List UInt8),
      IsOperand (some (field.value % 8, place.isMemory)) operand →
        (Reader.longOpcode p b.toNat).Takes operand) :
    (⟨narrow, wide, [0x0F, b], .operandByte field place, []⟩ : Form α).Decodes := by
  intro p operand hnarrow hwide hoperand
  rw [List.append_nil]
  exact Reader.takes_opcode_long hb (h p operand hoperand)

end Form

/-! ## Instructions -/

theorem opcodeAt_cases (w : Width) (b : UInt8) : opcodeAt w b = b ∨ opcodeAt w b = b + 1 := by
  cases w <;> simp [opcodeAt]

theorem Prefixes.width_of {p : Prefixes} {w : Width} (hnarrow : p.narrow = (w == .word))
    (hwide : p.wide = (w == .qword)) (hw : w ≠ .byte) : p.width = w := by
  cases w <;> simp [width, hnarrow, hwide] at hw ⊢

/-- The prefixes and the opcode of a form tell its width. -/
theorem Prefixes.widthOf_of {p : Prefixes} {w : Width} (hnarrow : p.narrow = (w == .word))
    (hwide : p.wide = (w == .qword)) {b : UInt8} (hb : b.toNat % 2 = 0) :
    p.widthOf (opcodeAt w b).toNat = w := by
  have hodd : (b + 1).toNat % 2 ≠ 0 := by
    have hlt := b.toNat_lt
    rw [UInt8.toNat_add]
    change (b.toNat + 1) % 256 % 2 ≠ 0
    omega
  cases w with
  | byte => exact if_pos hb
  | word | dword | qword => exact (if_neg hodd).trans (width_of hnarrow hwide (by decide))

theorem Form.decodes_opcodeAt {narrow wide : Bool} {w : Width} {b : UInt8} {field : Field}
    {place : Place α} (hfirst : Reader.isBranchOrEscape b.toNat = false)
    (hsecond : Reader.isBranchOrEscape (b + 1).toNat = false)
    (h : ∀ (p : Prefixes) (operand : List UInt8) (n : Nat), n = b.toNat ∨ n = (b + 1).toNat →
      IsOperand (some (field.value % 8, place.isMemory)) operand →
        (Reader.shortOpcode p n).Takes operand) :
    (⟨narrow, wide, [opcodeAt w b], .operandByte field place, []⟩ : Form α).Decodes := by
  rcases opcodeAt_cases w b with heq | heq <;> rw [heq]
  · apply decodes_short hfirst
    intro p operand _ _ ho
    rw [List.append_nil]
    exact h p operand _ (.inl rfl) ho
  · apply decodes_short hsecond
    intro p operand _ _ ho
    rw [List.append_nil]
    exact h p operand _ (.inr rfl) ho

theorem Form.decodes_low {narrow wide : Bool} {b : UInt8} {r : Register} {immediate : List UInt8}
    (hb : 0x10 ≤ b.toNat ∧ b.toNat + 8 ≤ 0x70 ∨ 0x80 ≤ b.toNat ∧ b.toNat + 8 ≤ 0xE8)
    (h : ∀ (p : Prefixes) (n : Nat), b.toNat ≤ n ∧ n < b.toNat + 8 → p.narrow = narrow →
      p.wide = wide → (Reader.shortOpcode p n).Takes immediate) :
    (⟨narrow, wide, [b], .inOpcode r, immediate⟩ : Form α).Decodes := by
  have hlow : r.number.val % 8 < 8 := Nat.mod_lt _ (by decide)
  have hopcode : (b + UInt8.ofNat (r.number.val % 8)).toNat = b.toNat + r.number.val % 8 := by
    rw [UInt8.toNat_add, UInt8.toNat_ofNat']
    omega
  apply decodes_inOpcode
  · rw [hopcode]
    simp only [Reader.isBranchOrEscape, Bool.or_eq_false_iff, beq_eq_false_iff_ne,
      Bool.and_eq_false_iff, decide_eq_false_iff_not]
    omega
  · intro p hnarrow hwide
    exact h p _ (by omega) hnarrow hwide

theorem Form.decodes_withDigit {b : UInt8} {digit : Fin 8} {place : Place α}
    {immediate : List UInt8} (heven : b.toNat % 2 = 0)
    (hfirst : Reader.isBranchOrEscape b.toNat = false)
    (hsecond : Reader.isBranchOrEscape (b + 1).toNat = false)
    (h : ∀ (p : Prefixes) (operand : List UInt8) (n : Nat), n = b.toNat ∨ n = (b + 1).toNat →
      p.widthOf n = place.width → IsOperand (some (digit.val, place.isMemory)) operand →
        (Reader.shortOpcode p n).Takes (operand ++ immediate)) :
    (Form.withDigit b digit place immediate).Decodes := by
  have hn : (opcodeAt place.width b).toNat = b.toNat ∨
      (opcodeAt place.width b).toNat = (b + 1).toNat := by
    rcases opcodeAt_cases place.width b with heq | heq
    · exact .inl (by rw [heq])
    · exact .inr (by rw [heq])
  apply decodes_short
  · rcases hn with hn | hn <;> rw [hn] <;> assumption
  · intro p operand hnarrow hwide ho
    have hdigit : (Field.digit digit).value % 8 = digit.val := Nat.mod_eq_of_lt digit.isLt
    rw [hdigit] at ho
    exact h p operand _ hn (Prefixes.widthOf_of hnarrow hwide heven) ho

namespace Instruction

open Reader

variable {dst src : Place α} {r : Register} {address : Address α} {value : Int64}

/-! ### Two operands -/

theorem decodes_mov : ((mov dst r).form .bits64).Decodes :=
  Form.decodes_opcodeAt rfl rfl fun _ _ _ hn ho =>
    takes_mov ho (by rcases hn with rfl | rfl <;> decide)

theorem decodes_movLoad : ((movLoad r address).form .bits64).Decodes :=
  Form.decodes_opcodeAt rfl rfl fun _ _ _ hn ho =>
    takes_mov ho (by rcases hn with rfl | rfl <;> decide)

theorem decodes_arith {op : Arith} : ((arith op dst r).form .bits64).Decodes := by
  apply Form.decodes_opcodeAt
  · cases op <;> rfl
  · cases op <;> rfl
  · intro p operand n hn ho
    apply takes_arith ho
    rcases hn with rfl | rfl <;> cases op <;> decide

theorem decodes_arithLoad {op : Arith} : ((arithLoad op r address).form .bits64).Decodes := by
  apply Form.decodes_opcodeAt
  · cases op <;> rfl
  · cases op <;> rfl
  · intro p operand n hn ho
    apply takes_arith ho
    rcases hn with rfl | rfl <;> cases op <;> decide

theorem decodes_test : ((test dst r).form .bits64).Decodes :=
  Form.decodes_opcodeAt rfl rfl fun _ _ _ hn ho =>
    takes_test ho (by rcases hn with rfl | rfl <;> decide)

theorem decodes_xchg : ((xchg dst r).form .bits64).Decodes := by
  have hplace : (Form.withRegister [opcodeAt r.width 0x86] r dst).Decodes :=
    Form.decodes_opcodeAt rfl rfl fun _ _ _ hn ho =>
      takes_xchg ho (by rcases hn with rfl | rfl <;> decide)
  cases dst with
  | memory w address => exact hplace
  | register s =>
      simp only [form]
      split
      next =>
        apply Form.decodes_low (by decide)
        intro p n hn _ _
        exact takes_exchange hn
      next => exact hplace

theorem decodes_lea : ((lea r address).form .bits64).Decodes := by
  apply Form.decodes_short rfl
  intro p operand _ _ ho
  rw [List.append_nil]
  exact takes_lea ho

theorem decodes_movzx : ((movzx r src).form .bits64).Decodes := by
  simp only [form, Form.withRegister, Form.sized]
  rcases opcodeAt_cases src.width 0xB6 with heq | heq <;> rw [heq]
  · exact Form.decodes_long (by decide) fun _ _ ho => takes_longRegister ho (by decide)
  · exact Form.decodes_long (by decide) fun _ _ ho => takes_longRegister ho (by decide)

theorem decodes_movsx : ((movsx r src).form .bits64).Decodes := by
  simp only [form, Form.withRegister, Form.sized]
  rcases opcodeAt_cases src.width 0xBE with heq | heq <;> rw [heq]
  · exact Form.decodes_long (by decide) fun _ _ ho => takes_longRegister ho (by decide)
  · exact Form.decodes_long (by decide) fun _ _ ho => takes_longRegister ho (by decide)

theorem decodes_movsxd : ((movsxd r src).form .bits64).Decodes := by
  apply Form.decodes_short rfl
  intro p operand _ _ ho
  rw [List.append_nil]
  exact takes_movsxd ho

theorem decodes_imul : ((imul r src).form .bits64).Decodes :=
  Form.decodes_long (by decide) fun _ _ ho => takes_longRegister ho (by decide)

theorem decodes_cmov {condition : Condition} :
    ((cmov condition r src).form .bits64).Decodes := by
  apply Form.decodes_long
  · cases condition <;> decide
  · intro p operand ho
    apply takes_cmov ho
    cases condition <;> decide

/-! ### Immediates -/

theorem decodes_arithImmediate {op : Arith} :
    ((arithImmediate op dst value).form .bits64).Decodes := by
  have hfull : (Form.withDigit 0x80 op.code dst
      (signedBytes (immediateBytes dst.width) value)).Decodes := by
    apply Form.decodes_withDigit rfl rfl rfl
    intro p operand n hn hw ho
    have hlength : (signedBytes (immediateBytes dst.width) value).length =
        immediateBytes (p.widthOf n) := by
      rw [length_signedBytes, hw]
    rcases hn with rfl | rfl
    · exact Reader.takes_arithImmediate ho hlength
    · exact Reader.takes_arithImmediate ho hlength
  simp only [form, arithImmediateForm]
  split_ifs
  · apply Form.decodes_none
    · cases dst.width <;> cases op <;> rfl
    · intro p hnarrow hwide
      apply takes_arithAccumulator
      · cases dst.width <;> cases op <;> decide
      · rw [length_signedBytes, Prefixes.widthOf_of hnarrow hwide]
        cases op <;> rfl
  · exact hfull
  · apply Form.decodes_short rfl
    intro p operand _ _ ho
    exact Reader.takes_arithImmediate ho (length_signedBytes 1 value)
  · exact hfull

theorem decodes_testImmediate : ((testImmediate dst value).form .bits64).Decodes := by
  simp only [form]
  split
  next =>
    apply Form.decodes_none
    · cases dst.width <;> rfl
    · intro p hnarrow hwide
      apply takes_testAccumulator
      · cases dst.width <;> decide
      · rw [length_signedBytes, Prefixes.widthOf_of hnarrow hwide (by decide)]
  next =>
    apply Form.decodes_withDigit rfl rfl rfl
    intro p operand n hn hw ho
    have hlength : (signedBytes (immediateBytes dst.width) value).length =
        immediateBytes (p.widthOf n) := by
      rw [length_signedBytes, hw]
    rcases hn with rfl | rfl
    · exact takes_testPlace ho rfl hlength
    · exact takes_testPlace ho rfl hlength

theorem decodes_movImmediate : ((movImmediate dst value).form .bits64).Decodes := by
  cases dst with
  | memory w address =>
      apply Form.decodes_withDigit rfl rfl rfl
      intro p operand n hn hw ho
      have hlength : (signedBytes (immediateBytes w) value).length =
          immediateBytes (p.widthOf n) := by
        rw [length_signedBytes, hw]
        rfl
      rcases hn with rfl | rfl
      · exact takes_digitZero ho rfl fun _ => (takes_signed hlength).then_pure fun _ => ⟨_, rfl⟩
      · exact takes_digitZero ho rfl fun _ => (takes_signed hlength).then_pure fun _ => ⟨_, rfl⟩
  | register r =>
      simp only [form, Form.sized]
      generalize hw : r.width = w
      cases w with
      | byte =>
          apply Form.decodes_low (by decide)
          intro p n hn _ _
          change 0xB0 ≤ n ∧ n < 0xB8 at hn
          apply takes_movRegister (by omega)
          rw [length_signedBytes, if_pos (by omega)]
      | word | dword | qword =>
          apply Form.decodes_low (by decide)
          intro p n hn hnarrow hwide
          change 0xB8 ≤ n ∧ n < 0xC0 at hn
          apply takes_movRegister (by omega)
          rw [length_signedBytes, if_neg (by omega), Prefixes.width_of hnarrow hwide (by decide)]

theorem decodes_imulImmediate (hr : r.width ≠ .byte) :
    ((imulImmediate r src value).form .bits64).Decodes := by
  simp only [form]
  split
  next =>
    apply Form.decodes_short rfl
    intro p operand _ _ ho
    exact takes_imulByte ho (length_signedBytes 1 value)
  next =>
    apply Form.decodes_short rfl
    intro p operand hnarrow hwide ho
    apply takes_imulImmediate ho
    rw [length_signedBytes, Prefixes.width_of hnarrow hwide hr]

theorem decodes_pushImmediate :
    ((pushImmediate value : Instruction α).form .bits64).Decodes := by
  simp only [form]
  split
  next =>
    apply Form.decodes_none rfl
    intro p _ _
    exact (takes_signed (length_signedBytes 1 value)).then_pure fun _ => ⟨_, rfl⟩
  next =>
    apply Form.decodes_none rfl
    intro p hnarrow _
    have hlength : (signedBytes 4 value).length = if p.narrow then 2 else 4 := by
      rw [hnarrow, length_signedBytes]
      rfl
    exact (takes_signed hlength).then_pure fun _ => ⟨_, rfl⟩

theorem decodes_retPop {count : UInt16} :
    ((retPop count : Instruction α).form .bits64).Decodes := by
  apply Form.decodes_none rfl
  intro p _ _
  exact (takes_signed (length_lowBytes 2 count.toNat)).then_pure fun _ => ⟨_, rfl⟩

theorem decodes_interrupt {number : UInt8} :
    ((interrupt number : Instruction α).form .bits64).Decodes := by
  apply Form.decodes_none rfl
  intro p _ _
  exact takes_byte.then_pure fun _ => ⟨_, rfl⟩

theorem decodes_shift {op : Shift} {count : UInt8} :
    ((shift op dst count).form .bits64).Decodes := by
  simp only [form]
  split
  next =>
    apply Form.decodes_withDigit rfl rfl rfl
    intro p operand n hn _ ho
    rw [List.append_nil]
    rcases hn with rfl | rfl
    · exact takes_shiftAlone ho (by decide)
    · exact takes_shiftAlone ho (by decide)
  next =>
    apply Form.decodes_withDigit rfl rfl rfl
    intro p operand n hn _ ho
    rcases hn with rfl | rfl
    · exact takes_shift ho (by decide) rfl
    · exact takes_shift ho (by decide) rfl

/-! ### One operand -/

theorem decodes_shiftByCl {op : Shift} : ((shiftByCl op dst).form .bits64).Decodes := by
  apply Form.decodes_withDigit rfl rfl rfl
  intro p operand n hn _ ho
  rw [List.append_nil]
  rcases hn with rfl | rfl
  · exact takes_shiftAlone ho (by decide)
  · exact takes_shiftAlone ho (by decide)

theorem decodes_unary {op : Unary} : ((unary op dst).form .bits64).Decodes := by
  have hform : (unary op dst).form .bits64 = Form.withDigit op.code.1 op.code.2 dst [] := by
    simp only [form]
  rw [hform]
  cases op with
  | inc | dec =>
      apply Form.decodes_withDigit rfl rfl rfl
      intro p operand n hn _ ho
      rw [List.append_nil]
      rcases hn with rfl | rfl
      · exact takes_stepByOne ho (by decide)
      · exact takes_stepByOne ho (by decide)
  | not | neg | mul | imul | div | idiv =>
      apply Form.decodes_withDigit rfl rfl rfl
      intro p operand n hn _ ho
      rw [List.append_nil]
      rcases hn with rfl | rfl
      · exact takes_unary ho (by decide)
      · exact takes_unary ho (by decide)

theorem decodes_push : ((push src).form .bits64).Decodes := by
  cases src with
  | register r =>
      apply Form.decodes_low (by decide)
      intro p n hn _ _
      exact takes_pushRegister hn
  | memory w address =>
      apply Form.decodes_short rfl
      intro p operand _ _ ho
      rw [List.append_nil]
      exact takes_step ho (by decide)

theorem decodes_pop : ((pop dst).form .bits64).Decodes := by
  cases dst with
  | register r =>
      apply Form.decodes_low (by decide)
      intro p n hn _ _
      exact takes_popRegister hn
  | memory w address =>
      apply Form.decodes_short rfl
      intro p operand _ _ ho
      exact takes_digitZero ho rfl fun _ => takes_pure _

theorem decodes_callPlace : ((callPlace dst).form .bits64).Decodes := by
  apply Form.decodes_short rfl
  intro p operand _ _ ho
  rw [List.append_nil]
  exact takes_step ho (by decide)

theorem decodes_jmpPlace : ((jmpPlace dst).form .bits64).Decodes := by
  apply Form.decodes_short rfl
  intro p operand _ _ ho
  rw [List.append_nil]
  exact takes_step ho (by decide)

theorem decodes_set {condition : Condition} : ((set condition dst).form .bits64).Decodes := by
  apply Form.decodes_long
  · cases condition <;> decide
  · intro p operand ho
    apply takes_set ho
    cases condition <;> decide

theorem decodes_nopPlace : ((nopPlace dst).form .bits64).Decodes :=
  Form.decodes_long (by decide) fun _ _ ho => takes_nopPlace ho

/-- Every regular instruction with an opcode of its own is taken whole after its prefixes. -/
theorem decodes {i : Instruction α} (hregular : i.Regular .bits64) (hbare : ∀ op, i ≠ bare op) :
    (i.form .bits64).Decodes := by
  cases i with
  | bare op => exact absurd rfl (hbare op)
  | nopPlace place => exact decodes_nopPlace
  | interrupt number => exact decodes_interrupt
  | retPop count => exact decodes_retPop
  | mov dst src => exact decodes_mov
  | movLoad dst src => exact decodes_movLoad
  | movImmediate dst value => exact decodes_movImmediate
  | arith op dst src => exact decodes_arith
  | arithLoad op dst src => exact decodes_arithLoad
  | arithImmediate op dst value => exact decodes_arithImmediate
  | test dst src => exact decodes_test
  | testImmediate dst value => exact decodes_testImmediate
  | xchg dst src => exact decodes_xchg
  | lea dst src => exact decodes_lea
  | movzx dst src => exact decodes_movzx
  | movsx dst src => exact decodes_movsx
  | movsxd dst src => exact decodes_movsxd
  | shift op dst count => exact decodes_shift
  | shiftByCl op dst => exact decodes_shiftByCl
  | unary op dst => exact decodes_unary
  | imul dst src => exact decodes_imul
  | imulImmediate dst src value => exact decodes_imulImmediate hregular
  | push src => exact decodes_push
  | pushImmediate value => exact decodes_pushImmediate
  | pop dst => exact decodes_pop
  | callPlace target => exact decodes_callPlace
  | jmpPlace target => exact decodes_jmpPlace
  | set condition dst => exact decodes_set
  | cmov condition dst src => exact decodes_cmov

end Instruction

/-! ## Prefixes -/

namespace Prefixes

variable {p : Prefixes} {b : UInt8} {rest : List UInt8}

theorem read_of_not_prefix (hnarrow : b ≠ 0x66) (haddress : b ≠ 0x67) (hrepeated : b ≠ 0xF3)
    (hextension : ¬(0x40 ≤ b.toNat ∧ b.toNat < 0x50)) : read p (b :: rest) = (p, b :: rest) := by
  rw [read, if_neg hnarrow, if_neg haddress, if_neg hrepeated, if_neg hextension]

theorem read_extension (hb : b.toNat / 16 = 4) :
    read p (b :: rest) = read { p with extension := some (b.toNat - 0x40) } rest := by
  have hne {c : UInt8} (hc : c.toNat / 16 ≠ 4) : b ≠ c := by
    rintro rfl
    exact hc hb
  rw [read, if_neg (hne (by decide)), if_neg (hne (by decide)), if_neg (hne (by decide)),
    if_pos (by omega)]

end Prefixes

namespace Form

variable {f : Form α} {b : UInt8} {rest : List UInt8}

def prefixes (f : Form α) : Prefixes :=
  ⟨f.narrow, f.operands.address?.bind Address.size? == some .bits32, false,
    f.extensionPrefix.head?.map fun b => b.toNat - 0x40⟩

theorem wide_prefixes (f : Form α) : f.prefixes.wide = f.wide := by
  rcases f.extensionPrefix_cases with ⟨hnone, hwide⟩ | ⟨b, hsome, hrange, hwide⟩
  · rw [hwide, prefixes, hnone]
    rfl
  · have hbit : (b.toNat - 0x40) / 8 % 2 = b.toNat / 8 % 2 := by omega
    rw [← hwide, ← hbit, prefixes, hsome]
    simp [Prefixes.wide, Prefixes.bit, Nat.shiftRight_eq_div_pow]

theorem read_front (hb : b ≠ 0x66 ∧ b ≠ 0x67 ∧ b ≠ 0xF3 ∧ ¬(0x40 ≤ b.toNat ∧ b.toNat < 0x50)) :
    Prefixes.read .none (f.sizePrefixes .bits64 ++ f.extensionPrefix ++ b :: rest) =
      (f.prefixes, b :: rest) := by
  obtain ⟨hnarrow, haddress, hrepeated, hextension⟩ := hb
  have hlast (narrow shortAddress : Bool) :
      Prefixes.read ⟨narrow, shortAddress, false, none⟩ (f.extensionPrefix ++ b :: rest) =
        (⟨narrow, shortAddress, false, f.extensionPrefix.head?.map fun b => b.toNat - 0x40⟩,
          b :: rest) := by
    rcases f.extensionPrefix_cases with ⟨hnone, -⟩ | ⟨extension, hsome, hrange, -⟩
    · rw [hnone]
      exact Prefixes.read_of_not_prefix hnarrow haddress hrepeated hextension
    · rw [hsome, List.singleton_append, Prefixes.read_extension hrange,
        Prefixes.read_of_not_prefix hnarrow haddress hrepeated hextension]
      rfl
  unfold sizePrefixes prefixes
  rw [List.append_assoc, List.append_assoc]
  rcases f.operands.address?.bind Address.size? with _ | _ | _ <;> cases f.narrow <;>
    exact hlast _ _

end Form

/-! ## Lengths -/

theorem length_of_isOperand {parts : Option (Nat × Bool)} {operand : List UInt8}
    (h : IsOperand parts operand) : operand.length ≤ if parts.isSome then 6 else 0 := by
  cases parts with
  | none =>
      cases h
      exact Nat.le_refl _
  | some parts =>
      obtain ⟨o, address, rfl, -, -, hlength⟩ := h
      have hnil := hlength []
      have haddress := Reader.addressLength_le (o.toNat / 64) (o.toNat % 8) (address ++ [])
      simp only [Option.isSome_some, if_true, List.length_cons]
      omega

/-- A form is short: its opcode has two bytes at most, and its immediate eight, or four beside an
operand byte. -/
structure Form.Brief (f : Form α) : Prop where
  opcode_le : f.opcode.length ≤ 2
  immediate_le : f.immediate.length ≤ if f.operand?.isSome then 4 else 8

theorem immediateBytes_le_four (w : Width) : immediateBytes w ≤ 4 := by
  cases w <;> decide

section

attribute [local simp] Form.sized Form.withDigit Form.withRegister Form.onStack Form.operand?
  immediateBytes_le_four

theorem Instruction.brief_form (i : Instruction α) : (i.form .bits64).Brief := by
  have hwidth (w : Width) : w.bytes ≤ 8 := by cases w <;> decide
  cases i with
  | bare op => constructor <;> cases op <;> simp [form, Bare.opcode]
  | movImmediate dst value => cases dst <;> constructor <;> simp [form, hwidth]
  | push src => cases src <;> constructor <;> simp [form]
  | pop dst => cases dst <;> constructor <;> simp [form]
  | arithImmediate op dst value =>
      have hcount := immediateBytes_le_four dst.width
      simp only [form, arithImmediateForm]
      split_ifs <;> constructor <;> simp
      omega
  | testImmediate dst value =>
      have hcount := immediateBytes_le_four dst.width
      simp only [form]
      split <;> constructor <;> simp
      omega
  | xchg dst src =>
      cases dst with
      | register r =>
          simp only [form]
          split <;> constructor <;> simp
      | memory w address => constructor <;> simp [form]
  | shift op dst count =>
      simp only [form]
      split <;> constructor <;> simp
  | imulImmediate dst src value =>
      simp only [form]
      split <;> constructor <;> simp
  | pushImmediate value =>
      simp only [form]
      split <;> constructor <;> simp
  | unary op dst =>
      simp only [form]
      constructor <;> simp
  | _ => constructor <;> simp [form]

end

theorem Form.length_head (f : Form α) : f.head.length = f.opcode.length := by
  unfold head
  split
  next => exact length_opcodeWith _ _
  next => rfl
  next => rfl

theorem Form.length_front_le (f : Form α) :
    (f.sizePrefixes .bits64 ++ f.extensionPrefix).length ≤ 3 := by
  have hextension : f.extensionPrefix.length ≤ 1 := by
    unfold extensionPrefix
    dsimp only
    split <;> simp
  have hsize : (f.sizePrefixes .bits64).length ≤ 2 := by
    unfold sizePrefixes
    rcases f.operands.address?.bind Address.size? with _ | _ | _ <;> cases f.narrow <;> decide
  rw [List.length_append]
  omega

theorem Form.length_le_of_brief {f : Form α} (hbrief : f.Brief) {operand : List UInt8}
    (hoperand : IsOperand f.operand? operand) :
    (f.sizePrefixes .bits64 ++ f.extensionPrefix ++ (f.head ++ operand ++ f.immediate)).length ≤
      maxInstructionSize := by
  have hfront := f.length_front_le
  have hopcode := hbrief.opcode_le
  have himmediate := hbrief.immediate_le
  have hlength := length_of_isOperand hoperand
  rw [← f.length_head] at hopcode
  simp only [List.length_append, maxInstructionSize] at hfront ⊢
  cases hparts : f.operand?.isSome <;> simp only [hparts, Bool.false_eq_true, if_false, if_true]
    at himmediate hlength <;> omega

/-! ## Whole instructions -/

def Reader.whole : Reader Relative := fun bytes =>
  (Reader.opcode (Prefixes.read .none bytes).1).run (Prefixes.read .none bytes).2

theorem Reader.run_whole (bytes : List UInt8) :
    Reader.whole.run bytes =
      (Reader.opcode (Prefixes.read .none bytes).1).run (Prefixes.read .none bytes).2 :=
  rfl

theorem Reader.takes_whole (front back : List UInt8) {p : Prefixes}
    (hread : ∀ rest, Prefixes.read .none (front ++ back ++ rest) = (p, back ++ rest))
    (h : (Reader.opcode p).Takes back) : Reader.whole.Takes (front ++ back) := by
  obtain ⟨relative, hreads⟩ := h
  refine ⟨relative, fun rest => ?_⟩
  rw [Reader.run_whole, hread]
  exact hreads rest

theorem Reader.takes_whole_of_opcode {b : UInt8} {bytes : List UInt8}
    (h : (Reader.opcode .none).Takes (b :: bytes)) : Reader.whole.Takes (b :: bytes) := by
  obtain ⟨hnarrow, haddress, hrepeated, hextension⟩ := Reader.not_prefix_of_takes_opcode h
  exact takes_whole [] (b :: bytes)
    (fun rest => Prefixes.read_of_not_prefix hnarrow haddress hrepeated hextension) h

/-- The bytes are what is decoded first, wherever they stand and whatever follows them. -/
def DecodesWhole (bytes : List UInt8) : Prop :=
  ∀ (ip : UInt64) (rest : List UInt8), ∃ d, decode ip (bytes ++ rest) = (some d, bytes.length)

theorem DecodesWhole.ne_nil {bytes : List UInt8} (h : DecodesWhole bytes) : bytes ≠ [] := by
  rintro rfl
  obtain ⟨d, hd⟩ := h 0 []
  cases hd

theorem decodesWhole_of_takes {bytes : List UInt8} (h : Reader.whole.Takes bytes)
    (hlength : bytes.length ≤ maxInstructionSize) : DecodesWhole bytes := by
  intro ip rest
  obtain ⟨relative, hreads⟩ := h
  have htake : (bytes ++ rest).take maxInstructionSize =
      bytes ++ rest.take (maxInstructionSize - bytes.length) := by
    rw [List.take_append, List.take_of_length_le hlength]
  have hrun := hreads (rest.take (maxInstructionSize - bytes.length))
  rw [Reader.run_whole] at hrun
  unfold decode
  dsimp only
  rw [htake, hrun]
  simp

namespace Instruction

theorem takes_bare {op : Bare} {bytes : List UInt8}
    (h : (((bare op : Instruction α).form .bits64).encode .bits64).Filled bytes) :
    Reader.whole.Takes bytes := by
  obtain ⟨operand, hoperand, rfl⟩ := Form.exists_parts h
  cases hoperand
  cases op with
  | cqo | cdqe =>
      exact Reader.takes_whole _ _ (p := ⟨false, false, false, some 8⟩) (fun _ => rfl)
        ⟨_, fun _ => rfl⟩
  | pause =>
      exact Reader.takes_whole [0xF3] [0x90] (p := ⟨false, false, true, none⟩) (fun _ => rfl)
        ⟨_, fun _ => rfl⟩
  | repRet =>
      exact Reader.takes_whole [0xF3] [0xC3] (p := ⟨false, false, true, none⟩) (fun _ => rfl)
        ⟨_, fun _ => rfl⟩
  | cbw =>
      exact Reader.takes_whole [0x66] [0x98] (p := ⟨true, false, false, none⟩) (fun _ => rfl)
        ⟨_, fun _ => rfl⟩
  | cwd =>
      exact Reader.takes_whole [0x66] [0x99] (p := ⟨true, false, false, none⟩) (fun _ => rfl)
        ⟨_, fun _ => rfl⟩
  | _ => exact Reader.takes_whole _ _ (p := .none) (fun _ => rfl) ⟨_, fun _ => rfl⟩

theorem takes_of_decodes {f : Form α} (hdecodes : f.Decodes) (hopcode : f.opcode ≠ [])
    {bytes : List UInt8} (h : (f.encode .bits64).Filled bytes) : Reader.whole.Takes bytes := by
  obtain ⟨operand, hoperand, rfl⟩ := Form.exists_parts h
  obtain ⟨b, head, hhead⟩ : ∃ b head, f.head = b :: head := by
    apply List.exists_cons_of_ne_nil
    intro hnil
    have hlength := f.length_head
    rw [hnil] at hlength
    exact hopcode (List.eq_nil_of_length_eq_zero hlength.symm)
  have htakes := hdecodes f.prefixes operand rfl f.wide_prefixes hoperand
  rw [hhead] at htakes ⊢
  refine Reader.takes_whole _ _ ?_ htakes
  intro rest
  rw [List.append_assoc _ _ rest]
  exact f.read_front (Reader.not_prefix_of_takes_opcode htakes)

/-- The bytes of an encoded instruction are what is decoded first. -/
theorem decodesWhole_of_encode {i : Instruction α} {encoded : Encoded α} {bytes : List UInt8}
    (h : i.encode .bits64 = .ok encoded) (hregular : i.Regular .bits64)
    (hbytes : encoded.Filled bytes) : DecodesWhole bytes := by
  simp only [encode] at h
  split at h
  next => cases h
  next =>
    cases h
    have hlength : bytes.length ≤ maxInstructionSize := by
      obtain ⟨operand, hoperand, rfl⟩ := Form.exists_parts hbytes
      exact Form.length_le_of_brief i.brief_form hoperand
    refine decodesWhole_of_takes ?_ hlength
    by_cases hbare : ∃ op, i = bare op
    · obtain ⟨op, rfl⟩ := hbare
      exact takes_bare hbytes
    · have hdecodes := decodes hregular fun op heq => hbare ⟨op, heq⟩
      exact takes_of_decodes hdecodes (opcode_form_ne_nil _ i) hbytes

end Instruction

end AsmLoader.Machine
