import AsmLoader.Proofs.Machine.Showing
/-!
# Code without extensions

32-bit code has eight registers, and no prefix that would give access to others. An instruction
that names none but these is encoded without the prefix, so its bytes come apart in 32-bit code
as they do in 64-bit code.
-/

namespace AsmLoader.Machine

variable {α : Type} {size : CodeSize}

def Address.Legacy : Address α → Prop
  | relative _ => True
  | based _ base index _ => base.val < 8 ∧ ∀ i ∈ index, i.1.val < 8
  | scaled _ index _ _ => index.val < 8

def Place.Legacy : Place α → Prop
  | register r => ¬r.isLongModeOnly
  | memory _ address => address.Legacy

def Operands.Legacy : Operands α → Prop
  | none => True
  | inOpcode r => ¬r.isLongModeOnly
  | operandByte field place => (∀ r ∈ field.registers, ¬r.isLongModeOnly) ∧ place.Legacy

/-- The registers of an instruction exist in 32-bit code. -/
def Instruction.Legacy : Instruction α → Prop
  | bare _ | interrupt _ | retPop _ | pushImmediate _ => True
  | movLoad r address | arithLoad _ r address | lea r address =>
    ¬r.isLongModeOnly ∧ address.Legacy
  | mov place r | arith _ place r | test place r | xchg place r =>
    ¬r.isLongModeOnly ∧ place.Legacy
  | movzx r place | movsx r place | movsxd r place | imul r place | imulImmediate r place _
  | cmov _ r place => ¬r.isLongModeOnly ∧ place.Legacy
  | nopPlace place | movImmediate place _ | arithImmediate _ place _ | testImmediate place _
  | shift _ place _ | shiftByCl _ place | unary _ place | push place | pop place
  | callPlace place | jmpPlace place | set _ place => place.Legacy

theorem Register.number_lt_of_legacy {r : Register} (h : ¬r.isLongModeOnly) :
    r.number.val < 8 := by
  cases r with
  | low w n => cases w <;> simp [isLongModeOnly, number] at h ⊢ <;> omega
  | high n =>
      have hlt := n.isLt
      simp only [number]
      omega

theorem Register.not_lowByte_of_legacy {r : Register} (h : ¬r.isLongModeOnly) {n : Fin 16}
    (hr : r = .low .byte n) : ¬4 ≤ n.val := by
  subst hr
  simpa [isLongModeOnly] using h

section Operands

variable {operands : Operands α}

theorem Operands.not_mem_registers (h : operands.Legacy) {r : Register}
    (hr : r ∈ operands.registers) : ¬r.isLongModeOnly := by
  cases operands with
  | none => cases hr
  | inOpcode r' =>
      cases List.mem_singleton.mp hr
      exact h
  | operandByte field place =>
      cases place with
      | register r' =>
          rcases List.mem_append.mp hr with hr | hr
          · exact h.1 r hr
          · cases List.mem_singleton.mp hr
            exact h.2
      | memory w address => exact h.1 r hr

theorem Field.value_lt_of_legacy {field : Field} (h : ∀ r ∈ field.registers, ¬r.isLongModeOnly) :
    ¬8 ≤ field.value := by
  cases field with
  | register r =>
      have hlt := Register.number_lt_of_legacy (h r (List.mem_singleton.mpr rfl))
      simp only [value]
      omega
  | digit n =>
      have hlt := n.isLt
      simp only [value]
      omega

theorem Operands.extension_of_legacy (h : operands.Legacy) :
    operands.extension = ⟨false, false, false⟩ := by
  cases operands with
  | none => rfl
  | inOpcode r =>
      have hlt := Register.number_lt_of_legacy h
      simp [extension, hlt]
  | operandByte field place =>
      obtain ⟨hfield, hplace⟩ := h
      have hvalue := Field.value_lt_of_legacy hfield
      rcases place with r | ⟨w, target | ⟨_, base, index, d⟩ | ⟨_, index, scale, d⟩⟩
      · have hlt := Register.number_lt_of_legacy hplace
        simp [extension, hvalue, hlt]
      · simp [extension, hvalue]
      · obtain ⟨hbase, hindex⟩ := hplace
        cases index with
        | none => simp [extension, hvalue, hbase]
        | some i =>
            have hlt := hindex i rfl
            simp [extension, hvalue, hbase, hlt]
      · change index.val < 8 at hplace
        simp [extension, hvalue, hplace]

end Operands

theorem Form.extensionPrefix_of_legacy {f : Form α} (hwide : f.wide = false)
    (h : f.operands.Legacy) : f.extensionPrefix = [] := by
  have hlow : f.namesLowByte = false := by
    rw [namesLowByte, List.any_eq_false]
    intro r hr
    split
    next n =>
      have hn := Register.not_lowByte_of_legacy (Operands.not_mem_registers h hr) rfl
      simpa using hn
    next => simp
  simp [extensionPrefix, Operands.extension_of_legacy h, hwide, hlow]

theorem Operands.legacy_register {r : Register} {place : Place α}
    (h : ¬r.isLongModeOnly ∧ place.Legacy) : (operandByte (.register r) place).Legacy := by
  refine ⟨?_, h.2⟩
  intro r' hr'
  cases List.mem_singleton.mp hr'
  exact h.1

theorem Operands.legacy_digit {digit : Fin 8} {place : Place α} (h : place.Legacy) :
    (operandByte (.digit digit) place).Legacy := by
  refine ⟨?_, h⟩
  intro r hr
  cases hr

namespace Instruction

theorem legacy_form (size : CodeSize) {i : Instruction α} (h : i.Legacy) :
    (i.form size).operands.Legacy := by
  cases i with
  | bare | interrupt | retPop => trivial
  | mov | movLoad | arith | arithLoad | test | lea | movzx | movsx | movsxd | imul | cmov =>
      exact Operands.legacy_register h
  | nopPlace | shiftByCl | callPlace | jmpPlace | set => exact Operands.legacy_digit h
  | movImmediate dst value =>
      cases dst with
      | register r => exact h
      | memory w address => exact Operands.legacy_digit h
  | push src =>
      cases src with
      | register r => exact h
      | memory w address => exact Operands.legacy_digit h
  | pop dst =>
      cases dst with
      | register r => exact h
      | memory w address => exact Operands.legacy_digit h
  | arithImmediate op dst value =>
      simp only [form, arithImmediateForm]
      split_ifs
      · trivial
      · exact Operands.legacy_digit h
      · exact Operands.legacy_digit h
      · exact Operands.legacy_digit h
  | testImmediate dst value =>
      simp only [form]
      split
      next => trivial
      next => exact Operands.legacy_digit h
  | xchg dst src =>
      cases dst with
      | register r =>
          simp only [form]
          split
          next => exact h.2
          next => exact Operands.legacy_register h
      | memory w address => exact Operands.legacy_register h
  | shift op dst count =>
      simp only [form]
      split <;> exact Operands.legacy_digit h
  | imulImmediate dst src value =>
      simp only [form]
      split <;> exact Operands.legacy_register h
  | unary op dst =>
      simp only [form]
      split
      · exact h
      · exact h
      · exact h
      · exact h
      · exact Operands.legacy_digit h
  | pushImmediate value =>
      simp only [form]
      split <;> trivial

/-- The bytes of an instruction come apart into the parts of its form. -/
theorem dissect_of_encode {i : Instruction α} {encoded : Encoded α} {bytes : List UInt8}
    (h : i.encode size = .ok encoded) (hbytes : encoded.Filled bytes)
    (hlegacy : size = .bits32 → i.Legacy) (hplain : (i.form size).isPlain size) :
    dissect size bytes = some (i.form size).dissection := by
  simp only [encode] at h
  split at h
  next => cases h
  next hrefusal =>
    cases h
    apply dissect_filled hplain _ hbytes
    intro hsize
    subst hsize
    apply Form.extensionPrefix_of_legacy _ (legacy_form _ (hlegacy rfl))
    cases hwide : (i.form .bits32).wide with
    | false => rfl
    | true => simp [Form.refusal?, hwide] at hrefusal

theorem readImmediate?_of_encode {i : Instruction α} {encoded : Encoded α} {bytes : List UInt8}
    (h : i.encode size = .ok encoded) (hbytes : encoded.Filled bytes)
    (hlegacy : size = .bits32 → i.Legacy) (hregular : i.Regular size) (hfits : i.ImmediateFits)
    {x : Int} (hx : i.immediate? = some x) : readImmediate? size bytes = some x := by
  have hshows := showsImmediate hx hfits hregular
  rw [readImmediate?, dissect_of_encode h hbytes hlegacy hshows.plain]
  exact hshows.immediate

theorem readAccess?_of_encode {i : Instruction α} {encoded : Encoded α} {bytes : List UInt8}
    (h : i.encode size = .ok encoded) (hbytes : encoded.Filled bytes)
    (hlegacy : size = .bits32 → i.Legacy) (hregular : i.Regular size) {w : Width}
    (hw : i.access? = some w) : readAccess? size bytes = some w := by
  have hshows := showsAccess hw hregular
  rw [readAccess?, dissect_of_encode h hbytes hlegacy hshows.plain]
  exact hshows.access

end Instruction

end AsmLoader.Machine
