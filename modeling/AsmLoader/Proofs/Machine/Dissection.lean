import AsmLoader.Proofs.Machine.Displacement
import AsmLoader.Proofs.Machine.Reference
/-!
# Instructions taken apart

The parts of an instruction as its bytes show them, in code of either size: the prefixes, the
opcode, the operand byte, and what stands after the address. Two tables tell from these parts
what an instruction does with its immediate and how much memory it accesses. Neither knows which
instruction the bytes were written for; that an encoded form comes apart into its own parts is
proved.
-/

namespace AsmLoader.Machine

/-- The parts of an instruction. Of its operand byte there are the middle field and whether the
place is in memory. What is left over is its immediate. -/
structure Dissection where
  narrow : Bool
  wide : Bool
  escaped : Bool
  opcode : Nat
  operand : Option (Nat × Bool)
  immediate : List UInt8
  deriving DecidableEq, Repr

/-- Reads prefixes: whether operands are narrow, whether they are wide, and the bytes after. What
extends the instruction in 64-bit code is an opcode in 32-bit code. -/
def readPrefixes (size : CodeSize) : List UInt8 → Bool × Bool × List UInt8
  | [] => (false, false, [])
  | b :: rest =>
    if b = 0x66 then (true, (readPrefixes size rest).2)
    else if size = .bits64 ∧ b = 0x67 then readPrefixes size rest
    else if size = .bits64 ∧ b.toNat / 16 = 4 then (false, b.toNat / 8 % 2 == 1, rest)
    else (false, false, b :: rest)

def readOpcode? : List UInt8 → Option (Bool × Nat × List UInt8)
  | [] => none
  | b :: rest =>
    if b = 0x0F then
      match rest with
      | [] => none
      | b :: rest => some (true, b.toNat, rest)
    else some (false, b.toNat, rest)

def hasOperandByte (escaped : Bool) (opcode : Nat) : Bool :=
  if escaped then
    opcode / 16 == 4 || opcode / 16 == 9 || opcode ∈ [0x1F, 0xAF, 0xB6, 0xB7, 0xBE, 0xBF]
  else
    opcode < 0x40 && opcode % 8 < 4 || opcode ∈ [0x63, 0x69, 0x6B] ||
      0x80 ≤ opcode && opcode < 0x8C || opcode ∈ [0x8D, 0x8F, 0xC0, 0xC1, 0xC6, 0xC7] ||
      0xD0 ≤ opcode && opcode < 0xD4 || opcode ∈ [0xF6, 0xF7, 0xFE, 0xFF]

def addressLength (mode place : Nat) (rest : List UInt8) : Nat :=
  let scaled := place = 4
  let base := if scaled then (rest.headD 0).toNat % 8 else place
  let displacement := match mode with
    | 0 => if base = 5 then 4 else 0
    | 1 => 1
    | _ => 4
  if mode = 3 then 0 else (if scaled then 1 else 0) + displacement

def dissect (size : CodeSize) (bytes : List UInt8) : Option Dissection :=
  let (narrow, wide, rest) := readPrefixes size bytes
  match readOpcode? rest with
  | none => none
  | some (escaped, opcode, rest) =>
    if hasOperandByte escaped opcode then
      match rest with
      | [] => none
      | o :: rest =>
        let mode := o.toNat / 64
        let address := addressLength mode (o.toNat % 8) rest
        some ⟨narrow, wide, escaped, opcode, some (o.toNat / 8 % 8, mode != 3),
          rest.drop address⟩
    else some ⟨narrow, wide, escaped, opcode, none, rest⟩

/-! ## What the parts mean -/

/-- How an instruction extends its immediate. One that it has no bytes for is 1. -/
inductive ImmediateKind where
  | signed (count : Nat)
  | unsigned (count : Nat)
  | one
  deriving DecidableEq, Repr

def ImmediateKind.read? : ImmediateKind → List UInt8 → Option Int
  | signed count, bytes => if bytes.length = count then some (ofSignedBytes bytes) else none
  | unsigned count, bytes => if bytes.length = count then some (ofLowBytes bytes) else none
  | one, bytes => if bytes.length = 0 then some 1 else none

def CodeSize.width : CodeSize → Width
  | bits32 => .dword
  | bits64 => .qword

namespace Dissection

def fullWidth (d : Dissection) : Width :=
  if d.wide then .qword else if d.narrow then .word else .dword

def width (d : Dissection) : Width :=
  if d.opcode % 2 = 0 then .byte else d.fullWidth

def stackWidth (size : CodeSize) (d : Dissection) : Width :=
  if d.narrow then .word else size.width

def targetWidth (size : CodeSize) (d : Dissection) : Width :=
  if size = .bits32 ∧ d.narrow then .word else size.width

def kind? (d : Dissection) : Option ImmediateKind :=
  let field := d.operand.elim 0 Prod.fst
  if d.escaped then none
  else if d.opcode < 0x40 ∧ d.opcode % 8 / 2 = 2 then some (.signed (immediateBytes d.width))
  else if d.opcode ∈ [0x80, 0x81, 0xA8, 0xA9, 0xC6, 0xC7] then
    some (.signed (immediateBytes d.width))
  else if d.opcode / 2 = 0x7B ∧ field < 2 then some (.signed (immediateBytes d.width))
  else if d.opcode ∈ [0x68, 0x69] then some (.signed (immediateBytes d.fullWidth))
  else if d.opcode ∈ [0x6A, 0x6B, 0x83] then some (.signed 1)
  else if d.opcode / 8 = 0x16 then some (.signed 1)
  else if d.opcode / 8 = 0x17 then some (.signed d.fullWidth.bytes)
  else if d.opcode / 2 = 0x60 then some (.unsigned 1)
  else if d.opcode / 2 = 0x68 then some .one
  else if d.opcode = 0xC2 then some (.unsigned 2)
  else none

def immediate? (d : Dissection) : Option Int :=
  d.kind?.bind (·.read? d.immediate)

/-- The width of memory that the instruction reads or writes at its address, if it does. -/
def access? (size : CodeSize) (d : Dissection) : Option Width :=
  match d.operand with
  | some (field, true) =>
    if d.escaped then
      if d.opcode / 16 = 9 ∨ d.opcode ∈ [0xB6, 0xBE] then some .byte
      else if d.opcode ∈ [0xB7, 0xBF] then some .word
      else if d.opcode = 0x1F then none
      else some d.fullWidth
    else if d.opcode = 0x63 then some (if d.fullWidth = .word then .word else .dword)
    else if d.opcode = 0x8D then none
    else if d.opcode = 0x8F ∨ (d.opcode = 0xFF ∧ field = 6) then some (d.stackWidth size)
    else if d.opcode = 0xFF ∧ field ∈ [2, 4] then some (d.targetWidth size)
    else some d.width
  | _ => none

end Dissection

/-- The immediate that an instruction shows in its bytes. -/
def readImmediate? (size : CodeSize) (bytes : List UInt8) : Option Int :=
  (dissect size bytes).bind Dissection.immediate?

/-- The width of the memory access that an instruction shows in its bytes. -/
def readAccess? (size : CodeSize) (bytes : List UInt8) : Option Width :=
  (dissect size bytes).bind (Dissection.access? size)

-- `add dword [rax+rcx*4+8], -1`, of which the address is skipped, and `mov word [eax], 2`
example : readImmediate? .bits64 [0x83, 0x44, 0x88, 0x08, 0xFF] = some (-1) := by decide +kernel
example : readAccess? .bits64 [0x83, 0x44, 0x88, 0x08, 0xFF] = some .dword := by decide +kernel
example : readAccess? .bits64 [0x66, 0x67, 0xC7, 0x00, 0x02, 0x00] = some .word := by
  decide +kernel

/-! ## Encoded forms -/

variable {α : Type} {size : CodeSize} {f : Form α}

/-- The bytes of an encoded instruction, with any four bytes for the displacement to a named
place. -/
def Encoded.Filled (e : Encoded α) (bytes : List UInt8) : Prop :=
  ∃ field, bytes = e.before ++ field ++ e.after ∧
    field.length = if e.target.isSome then 4 else 0

def Place.isMemory : Place α → Bool
  | register _ => false
  | memory .. => true

namespace Form

def head (f : Form α) : List UInt8 :=
  match f.operands with
  | .inOpcode r => opcodeWith r.number.val f.opcode
  | .none | .operandByte .. => f.opcode

def operand? (f : Form α) : Option (Nat × Bool) :=
  match f.operands with
  | .operandByte field place => some (field.value % 8, place.isMemory)
  | .none | .inOpcode _ => Option.none

def dissection (f : Form α) : Dissection :=
  match f.head with
  | [b] => ⟨f.narrow, f.wide, false, b.toNat, f.operand?, f.immediate⟩
  | _ :: b :: _ => ⟨f.narrow, f.wide, true, b.toNat, f.operand?, f.immediate⟩
  | [] => ⟨f.narrow, f.wide, false, 0, f.operand?, f.immediate⟩

/-- The opcode of a form is not taken for a prefix, and an operand byte follows it just when the
form has one. -/
def isPlain (size : CodeSize) (f : Form α) : Bool :=
  match f.head with
  | [b] =>
    b != 0x66 && b != 0x0F && (size == .bits32 || b != 0x67 && b.toNat / 16 != 4) &&
      hasOperandByte false b.toNat == f.operand?.isSome
  | [escape, b] => escape == 0x0F && hasOperandByte true b.toNat == f.operand?.isSome
  | _ => false

end Form

/-! ### Prefixes -/

theorem readPrefixes_narrow (size : CodeSize) (rest : List UInt8) :
    readPrefixes size (0x66 :: rest) = (true, (readPrefixes size rest).2) :=
  rfl

theorem readPrefixes_shortAddress (rest : List UInt8) :
    readPrefixes .bits64 (0x67 :: rest) = readPrefixes .bits64 rest :=
  rfl

theorem Form.extensionPrefix_cases (f : Form α) :
    (f.extensionPrefix = [] ∧ f.wide = false) ∨
      ∃ b, f.extensionPrefix = [b] ∧ b.toNat / 16 = 4 ∧ (b.toNat / 8 % 2 == 1) = f.wide := by
  unfold extensionPrefix
  dsimp only
  split
  next =>
    refine .inr ⟨_, rfl, ?_⟩
    generalize f.operands.extension = e
    obtain ⟨field, index, base⟩ := e
    cases f.wide <;> cases field <;> cases index <;> cases base <;> decide
  next h => 
    simp only [Bool.or_eq_true, not_or, Bool.not_eq_true] at h
    exact .inl ⟨rfl, h.1.1.1.1⟩

theorem readPrefixes_of_not_prefix {b : UInt8} (hnarrow : b ≠ 0x66)
    (h : size = .bits32 ∨ b ≠ 0x67 ∧ b.toNat / 16 ≠ 4) (rest : List UInt8) :
    readPrefixes size (b :: rest) = (false, false, b :: rest) := by
  rw [readPrefixes, if_neg hnarrow, if_neg, if_neg]
  · rintro ⟨rfl, hb⟩
    exact (h.resolve_left (by simp)).2 hb
  · rintro ⟨rfl, hb⟩
    exact (h.resolve_left (by simp)).1 hb

section Front

variable {b : UInt8} {rest : List UInt8}
  (hrest : readPrefixes size (b :: rest) = (false, false, b :: rest))
  (hlegacy : size = .bits32 → f.extensionPrefix = [])
include hrest hlegacy

theorem Form.readPrefixes_extensionPrefix :
    readPrefixes size (f.extensionPrefix ++ b :: rest) = (false, f.wide, b :: rest) := by
  rcases f.extensionPrefix_cases with ⟨hnone, hwide⟩ | ⟨extension, hsome, hrange, hwide⟩
  · rw [hnone, hwide]
    exact hrest
  · have hsize : size = .bits64 := by
      cases size with
      | bits32 => simp [hlegacy rfl] at hsome
      | bits64 => rfl
    have hnarrow : extension ≠ 0x66 := by
      rintro rfl
      simp at hrange
    have haddress : extension ≠ 0x67 := by
      rintro rfl
      simp at hrange
    rw [hsome, List.singleton_append, readPrefixes, if_neg hnarrow, if_neg (by simp [haddress]),
      if_pos ⟨hsize, hrange⟩, hwide]

/-- The prefixes of a form are read as those of the form. -/
theorem Form.readPrefixes_front :
    readPrefixes size (f.sizePrefixes size ++ f.extensionPrefix ++ b :: rest) =
      (f.narrow, f.wide, b :: rest) := by
  have hextension := readPrefixes_extensionPrefix hrest hlegacy
  have hnarrow {after : List UInt8} (h : readPrefixes size after = (false, f.wide, b :: rest)) :
      readPrefixes size ((if f.narrow then [0x66] else []) ++ after) =
        (f.narrow, f.wide, b :: rest) := by
    cases f.narrow with
    | true => exact (readPrefixes_narrow size after).trans (by rw [h])
    | false => exact h
  unfold sizePrefixes
  dsimp only
  rw [List.append_assoc, List.append_assoc]
  apply hnarrow
  split
  next => exact (readPrefixes_shortAddress _).trans hextension
  next => exact hextension

end Front

/-! ### Operand bytes -/

theorem toNat_operandByteOf {mode : Nat} (hmode : mode < 4) (field place : Nat) :
    (operandByteOf mode field place).toNat = 64 * mode + 8 * (field % 8) + place % 8 := by
  rw [operandByteOf, UInt8.toNat_ofNat']
  omega

theorem toNat_scaleByteOf {scale : Nat} (hscale : scale < 4) (index base : Nat) :
    (scaleByteOf scale index base).toNat = 64 * scale + 8 * (index % 8) + base % 8 := by
  rw [scaleByteOf, UInt8.toNat_ofNat']
  omega

theorem Scale.code_lt (scale : Scale) : scale.code < 4 := by
  cases scale <;> decide

theorem displacementForm_cases (base : Fin 16) (d : Int32) :
    (displacementForm base d = (0, []) ∧ base.val % 8 ≠ 5) ∨
      (∃ bytes, displacementForm base d = (1, bytes) ∧ bytes.length = 1) ∨
      ∃ bytes, displacementForm base d = (2, bytes) ∧ bytes.length = 4 := by
  unfold displacementForm
  dsimp only
  split_ifs with hzero
  · exact .inl ⟨rfl, hzero.2⟩
  · exact .inr (.inl ⟨_, rfl, length_signedBytes 1 _⟩)
  · exact .inr (.inr ⟨_, rfl, length_signedBytes 4 _⟩)

theorem mode_displacementForm_lt (base : Fin 16) (d : Int32) :
    (displacementForm base d).1 < 3 := by
  rcases displacementForm_cases base d with ⟨h, -⟩ | ⟨_, h, -⟩ | ⟨_, h, -⟩ <;> simp [h]

theorem addressLength_displacementForm {base : Fin 16} (hbase : base.val % 8 ≠ 4) (d : Int32)
    (rest : List UInt8) :
    addressLength (displacementForm base d).1 (base.val % 8)
    ((displacementForm base d).2 ++ rest) =
      (displacementForm base d).2.length := by
  rcases displacementForm_cases base d with ⟨h, hne⟩ | ⟨bytes, h, hbytes⟩ | ⟨bytes, h, hbytes⟩
  · simp [h, addressLength, hbase, hne]
  · simp [h, addressLength, hbase, hbytes]
  · simp [h, addressLength, hbase, hbytes]

theorem addressLength_scaled {base : Fin 16} {o : UInt8} (ho : o.toNat % 8 = base.val % 8)
    (d : Int32) (rest : List UInt8) :
    addressLength (displacementForm base d).1 4 (o :: (displacementForm base d).2 ++ rest) =
      (o :: (displacementForm base d).2).length := by
  rcases displacementForm_cases base d with ⟨h, hne⟩ | ⟨bytes, h, hbytes⟩ | ⟨bytes, h, hbytes⟩
  · simp [h, addressLength, ho, hne]
  · simp [h, addressLength, hbytes]
  · simp [h, addressLength, hbytes]

def IsOperandByte (field : Nat) (memory : Bool) (o : UInt8) (address : List UInt8) : Prop :=
  o.toNat / 8 % 8 = field ∧ (o.toNat / 64 != 3) = memory ∧
    ∀ rest, addressLength (o.toNat / 64) (o.toNat % 8) (address ++ rest) = address.length

theorem isOperandByte_of {mode field place : Nat} {address : List UInt8} (hmode : mode < 4)
    (hlength : ∀ rest, addressLength mode (place % 8) (address ++ rest) = address.length) :
    IsOperandByte (field % 8) (mode != 3) (operandByteOf mode field place) address := by
  have htoNat := toNat_operandByteOf hmode field place
  have hmode' : (operandByteOf mode field place).toNat / 64 = mode := by omega
  have hplace : (operandByteOf mode field place).toNat % 8 = place % 8 := by omega
  refine ⟨by omega, by rw [hmode'], ?_⟩
  intro rest
  rw [hmode', hplace, hlength]

theorem isOperandByte_memory {mode field place : Nat} {address : List UInt8} (hmode : mode < 3)
    (hlength : ∀ rest, addressLength mode (place % 8) (address ++ rest) = address.length) :
    IsOperandByte (field % 8) true (operandByteOf mode field place) address := by
  have hoperand : IsOperandByte (field % 8) _ _ _ :=
    isOperandByte_of (Nat.lt_succ_of_lt hmode) hlength
  rwa [bne_iff_ne.mpr (Nat.ne_of_lt hmode)] at hoperand

theorem exists_isOperandByte (field : Nat) (place : Place α) {displacement : List UInt8}
    (hlength : displacement.length = if (placeBytes field place).2.isSome then 4 else 0) :
    ∃ o address, (placeBytes field place).1 ++ displacement = o :: address ∧
      IsOperandByte (field % 8) place.isMemory o address := by
  have hnil (h : (placeBytes field place).2 = none) : displacement = [] := by
    rw [h] at hlength
    exact List.eq_nil_of_length_eq_zero hlength
  rcases place with r | ⟨w, target | ⟨_, base, _ | ⟨index, scale⟩, d⟩ | ⟨_, index, scale, d⟩⟩
  · rw [hnil rfl]
    refine ⟨_, [], rfl, isOperandByte_of (by decide) ?_⟩
    intro rest
    rfl
  · refine ⟨_, displacement, rfl, isOperandByte_of (by decide) ?_⟩
    intro rest
    rw [hlength]
    rfl
  · have hmode := mode_displacementForm_lt base d
    have hsib : (scaleByteOf 0 4 base.val).toNat % 8 = base.val % 8 := by
      have htoNat := toNat_scaleByteOf (by decide : 0 < 4) 4 base.val
      omega
    rw [hnil (target_placeBytes _ _), List.append_nil]
    simp only [placeBytes]
    split
    next => exact ⟨_, _, rfl, isOperandByte_memory hmode (addressLength_scaled hsib d)⟩
    next hbase =>
      exact ⟨_, _, rfl, isOperandByte_memory hmode (addressLength_displacementForm hbase d)⟩
  · have hmode := mode_displacementForm_lt base d
    have hsib : (scaleByteOf scale.code index.val base.val).toNat % 8 = base.val % 8 := by
      have htoNat := toNat_scaleByteOf scale.code_lt index.val base.val
      omega
    rw [hnil rfl, List.append_nil]
    exact ⟨_, _, rfl, isOperandByte_memory hmode (addressLength_scaled hsib d)⟩
  · have hsib : (scaleByteOf scale.code index.val 5).toNat % 8 = 5 := by
      have htoNat := toNat_scaleByteOf scale.code_lt index.val 5
      omega
    rw [hnil rfl, List.append_nil]
    refine ⟨_, _, rfl, isOperandByte_of (by decide) ?_⟩
    intro rest
    simp [addressLength, hsib]

/-! ### The whole -/

def IsOperand : Option (Nat × Bool) → List UInt8 → Prop
  | none, bytes => bytes = []
  | some (field, memory), bytes =>
    ∃ o address, bytes = o :: address ∧ IsOperandByte field memory o address

theorem Form.exists_parts {bytes : List UInt8} (h : (f.encode size).Filled bytes) :
    ∃ operand, IsOperand f.operand? operand ∧
      bytes = f.sizePrefixes size ++ f.extensionPrefix ++
      (f.head ++ operand ++ f.immediate) := by
  obtain ⟨displacement, rfl, hlength⟩ := h
  rw [target_encode] at hlength
  have hnil (h : f.operands.reference? = none) : displacement = [] := by
    rw [h] at hlength
    exact List.eq_nil_of_length_eq_zero hlength
  unfold encode head operand?
  cases hoperands : f.operands with
  | none =>
      rw [hoperands] at hnil
      exact ⟨[], rfl, by simp [hnil rfl]⟩
  | inOpcode r =>
      rw [hoperands] at hnil
      exact ⟨[], rfl, by simp [hnil rfl]⟩
  | operandByte field place =>
      rw [hoperands, Operands.reference?, ← target_placeBytes field.value] at hlength
      obtain ⟨o, address, haddress, hoperand⟩ := exists_isOperandByte field.value place hlength
      refine ⟨o :: address, ⟨o, address, rfl, hoperand⟩, ?_⟩
      rw [← haddress]
      dsimp only
      split
      next hplace =>
        rw [hplace] at hlength ⊢
        simp [List.eq_nil_of_length_eq_zero hlength]
      next hplace => simp [hplace]

theorem dissect_of_parts {bytes operand immediate : List UInt8} {narrow wide escaped : Bool}
    {opcode : Nat} {parts : Option (Nat × Bool)} {rest : List UInt8}
    (hprefixes : readPrefixes size bytes = (narrow, wide, rest))
    (hopcode : readOpcode? rest = some (escaped, opcode, operand ++ immediate))
    (hoperand : IsOperand parts operand) (hbyte : hasOperandByte escaped opcode = parts.isSome) :
    dissect size bytes = some ⟨narrow, wide, escaped, opcode, parts, immediate⟩ := by
  simp only [dissect, hprefixes, hopcode, hbyte]
  cases parts with
  | none =>
      cases hoperand
      rfl
  | some parts =>
      obtain ⟨field, memory⟩ := parts
      obtain ⟨o, address, rfl, hfield, hmemory, hlength⟩ := hoperand
      simp [hfield, hmemory, hlength]

/-- An encoded form comes apart into its own parts. -/
theorem dissect_filled {bytes : List UInt8} (hplain : f.isPlain size)
    (hlegacy : size = .bits32 → f.extensionPrefix = []) (h : (f.encode size).Filled bytes) :
    dissect size bytes = some f.dissection := by
  obtain ⟨operand, hoperand, rfl⟩ := Form.exists_parts h
  unfold Form.isPlain at hplain
  unfold Form.dissection
  split at hplain
  next b hhead =>
    simp only [Bool.and_eq_true, bne_iff_ne, ne_eq, Bool.or_eq_true, beq_iff_eq] at hplain
    obtain ⟨⟨⟨hnarrow, hescape⟩, hprefix⟩, hbyte⟩ := hplain
    have hrest := readPrefixes_of_not_prefix hnarrow hprefix (operand ++ f.immediate)
    rw [hhead]
    apply dissect_of_parts _ _ hoperand hbyte
    · exact b :: (operand ++ f.immediate)
    · exact Form.readPrefixes_front hrest hlegacy
    · simp [readOpcode?, hescape]
  next escape b hhead =>
    simp only [Bool.and_eq_true, beq_iff_eq] at hplain
    obtain ⟨rfl, hbyte⟩ := hplain
    have hrest : readPrefixes size (0x0F :: b :: (operand ++ f.immediate)) =
        (false, false, 0x0F :: b :: (operand ++ f.immediate)) :=
      readPrefixes_of_not_prefix (by decide) (.inr (by decide)) _
    rw [hhead]
    apply dissect_of_parts _ _ hoperand hbyte
    · exact 0x0F :: b :: (operand ++ f.immediate)
    · exact Form.readPrefixes_front hrest hlegacy
    · rfl
  next => cases hplain

end AsmLoader.Machine
