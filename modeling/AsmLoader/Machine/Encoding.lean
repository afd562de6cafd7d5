import AsmLoader.Machine.Bytes
import AsmLoader.Machine.Instruction
/-!
# Encoding

Instructions as bytes. An instruction is first put into a form: what stands in its opcode, in its
operand byte and in its immediate. The form is then written: size prefixes, the extension prefix,
the opcode, the operands, the immediate. A few instructions have no form in some code; they are
refused.
-/

namespace AsmLoader.Machine

/-- What goes into the middle field of the operand byte: a register, or a digit that belongs to
the opcode. -/
inductive Field where
  | register (r : Register)
  | digit (n : Fin 8)
  deriving DecidableEq, Repr

/-- The operands of a form: none, a register in the low bits of the opcode, or an operand byte
with a field and a place. -/
inductive Operands (α : Type) where
  | none
  | inOpcode (r : Register)
  | operandByte (field : Field) (place : Place α)
  deriving DecidableEq, Repr

/-- The parts of an encoded instruction. `narrow` asks for 16-bit operands and `wide` for 64-bit
ones. -/
structure Form (α : Type) where
  narrow : Bool
  wide : Bool
  opcode : List UInt8
  operands : Operands α
  immediate : List UInt8
  deriving DecidableEq, Repr

inductive Refusal where
  | longModeOnly
  | relativeAddress (operand : Nat)
  | highByteExtended
  deriving DecidableEq, Repr

def Refusal.message : Refusal → String
  | longModeOnly => "The instruction can only be used in 64-bit mode"
  | relativeAddress operand =>
    s!"Operand {operand}: 64-bit addressing can only be used in 64-bit mode"
  | highByteExtended =>
    "Registers AH, CH, DH, BH can't be used if there's a REX prefix. " ++
      "Use AL, CL, DL, BL, SPL, BPL, SIL, DIL, R8L-R15L instead."

variable {α : Type}

def Bare.opcode : Bare → List UInt8
  | nop => [0x90]
  | int3 => [0xCC]
  | leave => [0xC9]
  | cdq => [0x99]
  | cqo => [0x99]
  | cdqe => [0x98]
  | cld => [0xFC]
  | std => [0xFD]
  | ud2 => [0x0F, 0x0B]
  | pause => [0xF3, 0x90]
  | ret => [0xC3]
  | cbw => [0x66, 0x98]
  | cwde => [0x98]
  | cwd => [0x66, 0x99]
  | pushfq => [0x9C]
  | popfq => [0x9D]
  | sahf => [0x9E]
  | lahf => [0x9F]
  | repRet => [0xF3, 0xC3]
  | int1 => [0xF1]
  | hlt => [0xF4]
  | cmc => [0xF5]
  | clc => [0xF8]
  | stc => [0xF9]
  | cli => [0xFA]
  | sti => [0xFB]
  | syscall => [0x0F, 0x05]
  | rdtsc => [0x0F, 0x31]
  | cpuid => [0x0F, 0xA2]

def Bare.wide : Bare → Bool
  | cqo | cdqe => true
  | _ => false

def Arith.code : Arith → Fin 8
  | add => 0
  | or => 1
  | adc => 2
  | sbb => 3
  | and => 4
  | sub => 5
  | xor => 6
  | cmp => 7

def Shift.code : Shift → Fin 8
  | rol => 0
  | ror => 1
  | rcl => 2
  | rcr => 3
  | shl => 4
  | shr => 5
  | sar => 7

def Unary.code : Unary → UInt8 × Fin 8
  | inc => (0xFE, 0)
  | dec => (0xFE, 1)
  | not => (0xF6, 2)
  | neg => (0xF6, 3)
  | mul => (0xF6, 4)
  | imul => (0xF6, 5)
  | div => (0xF6, 6)
  | idiv => (0xF6, 7)

/-- The opcode at a width, from the one for bytes: all other widths share the next. -/
def opcodeAt (w : Width) (byteOpcode : UInt8) : UInt8 :=
  match w with
  | .byte => byteOpcode
  | _ => byteOpcode + 1

def immediateBytes : Width → Nat
  | .byte => 1
  | .word => 2
  | .dword => 4
  | .qword => 4

def Place.isAccumulator : Place α → Bool
  | register (.low _ n) => n.val == 0
  | _ => false

namespace Form

def sized (w : Width) (opcode : List UInt8) (operands : Operands α)
    (immediate : List UInt8) : Form α :=
  ⟨w == .word, w == .qword, opcode, operands, immediate⟩

/-- A form whose operands have the width of the stack unless they are narrow. -/
def onStack (w : Width) (opcode : List UInt8) (operands : Operands α) : Form α :=
  ⟨w == .word, false, opcode, operands, []⟩

def withDigit (opcode : UInt8) (digit : Fin 8) (place : Place α)
    (immediate : List UInt8) : Form α :=
  sized place.width [opcodeAt place.width opcode] (.operandByte (.digit digit) place) immediate

def withRegister (opcode : List UInt8) (r : Register) (place : Place α) : Form α :=
  sized r.width opcode (.operandByte (.register r) place) []

end Form

namespace Instruction

def arithImmediateForm (op : Arith) (dst : Place α) (value : Int64) : Form α :=
  let w := dst.width
  let full := signedBytes (immediateBytes w) value
  if dst.isAccumulator then
    .sized w [opcodeAt w (8 * UInt8.ofNat op.code.val + 4)] .none full
  else if w == .byte then .withDigit 0x80 op.code dst full
  else if fitsByte value then
    .sized w [0x83] (.operandByte (.digit op.code) dst) (signedBytes 1 value)
  else .withDigit 0x80 op.code dst full

def form (size : CodeSize) : Instruction α → Form α
  | bare op => ⟨false, op.wide, op.opcode, .none, []⟩
  | nopPlace place => .sized place.width [0x0F, 0x1F] (.operandByte (.digit 0) place) []
  | interrupt number => ⟨false, false, [0xCD], .none, [number]⟩
  | retPop count => ⟨false, false, [0xC2], .none, lowBytes 2 count.toNat⟩
  | mov dst src => .withRegister [opcodeAt src.width 0x88] src dst
  | movLoad dst src => .withRegister [opcodeAt dst.width 0x8A] dst (.memory dst.width src)
  | movImmediate (.register r) value =>
    let opcode := if r.width == .byte then 0xB0 else 0xB8
    .sized r.width [opcode] (.inOpcode r) (signedBytes r.width.bytes value)
  | movImmediate dst value =>
    .withDigit 0xC6 0 dst (signedBytes (immediateBytes dst.width) value)
  | arith op dst src =>
    .withRegister [opcodeAt src.width (8 * UInt8.ofNat op.code.val)] src dst
  | arithLoad op dst src =>
    .withRegister [opcodeAt dst.width (8 * UInt8.ofNat op.code.val + 2)] dst
      (.memory dst.width src)
  | arithImmediate op dst value => arithImmediateForm op dst value
  | test dst src => .withRegister [opcodeAt src.width 0x84] src dst
  | testImmediate dst value =>
    let full := signedBytes (immediateBytes dst.width) value
    if dst.isAccumulator then .sized dst.width [opcodeAt dst.width 0xA8] .none full
    else .withDigit 0xF6 0 dst full
  | xchg dst src =>
    match dst with
    | .register r =>
      if r.width != .byte && src.number.val == 0 then .sized r.width [0x90] (.inOpcode r) []
      else .withRegister [opcodeAt src.width 0x86] src dst
    | .memory .. => .withRegister [opcodeAt src.width 0x86] src dst
  | lea dst src => .withRegister [0x8D] dst (.memory dst.width src)
  | movzx dst src => .withRegister [0x0F, opcodeAt src.width 0xB6] dst src
  | movsx dst src => .withRegister [0x0F, opcodeAt src.width 0xBE] dst src
  | movsxd dst src => .withRegister [0x63] dst src
  | shift op dst count =>
    if count = 1 then .withDigit 0xD0 op.code dst []
    else .withDigit 0xC0 op.code dst [count]
  | shiftByCl op dst => .withDigit 0xD2 op.code dst []
  | unary op dst =>
    match op, dst, size with
    | .inc, .register (.low .word n), .bits32 =>
        .sized .word [0x40] (.inOpcode (.low .word n)) []
    | .inc, .register (.low .dword n), .bits32 =>
      .sized .dword [0x40] (.inOpcode (.low .dword n)) []
    | .dec, .register (.low .word n), .bits32 =>
        .sized .word [0x48] (.inOpcode (.low .word n)) []
    | .dec, .register (.low .dword n), .bits32 =>
      .sized .dword [0x48] (.inOpcode (.low .dword n)) []
    | op, dst, _ => .withDigit op.code.1 op.code.2 dst []
  | imul dst src => .withRegister [0x0F, 0xAF] dst src
  | imulImmediate dst src value =>
    if fitsByte value then
      .sized dst.width [0x6B] (.operandByte (.register dst) src) (signedBytes 1 value)
    else
      .sized dst.width [0x69] (.operandByte (.register dst) src)
        (signedBytes (immediateBytes dst.width) value)
  | push (.register r) => .onStack r.width [0x50] (.inOpcode r)
  | push src => .onStack src.width [0xFF] (.operandByte (.digit 6) src)
  | pushImmediate value =>
    if fitsByte value then ⟨false, false, [0x6A], .none, signedBytes 1 value⟩
    else ⟨false, false, [0x68], .none, signedBytes 4 value⟩
  | pop (.register r) => .onStack r.width [0x58] (.inOpcode r)
  | pop dst => .onStack dst.width [0x8F] (.operandByte (.digit 0) dst)
  | callPlace target => .onStack target.width [0xFF] (.operandByte (.digit 2) target)
  | jmpPlace target => .onStack target.width [0xFF] (.operandByte (.digit 4) target)
  | set condition dst =>
    .sized .byte [0x0F, 0x90 + UInt8.ofNat condition.code] (.operandByte (.digit 0) dst) []
  | cmov condition dst src =>
    .withRegister [0x0F, 0x40 + UInt8.ofNat condition.code] dst src

def memoryOperand : Instruction α → Nat
  | movLoad .. | arithLoad .. | lea .. | movzx .. | movsx .. | movsxd .. => 1
  | imul .. | imulImmediate .. | cmov .. => 1
  | _ => 0

end Instruction

/-- An instruction as bytes, but for the displacement to a named place: four bytes between the
two parts, if there is one. -/
structure Encoded (α : Type) where
  before : List UInt8
  target : Option α
  after : List UInt8
  deriving DecidableEq, Repr

def Encoded.size (e : Encoded α) : Nat :=
  e.before.length + (if e.target.isSome then 4 else 0) + e.after.length

namespace Field

def value : Field → Nat
  | register r => r.number.val
  | digit n => n.val

def registers : Field → List Register
  | register r => [r]
  | digit _ => []

end Field

/-- The bits that extend register numbers: of the field, of the index, and of the base or of a
register as place. -/
structure Extension where
  field : Bool
  index : Bool
  base : Bool
  deriving DecidableEq, Repr

def Address.size? : Address α → Option CodeSize
  | relative _ => none
  | based size .. => some size
  | scaled size .. => some size

namespace Operands

def registers : Operands α → List Register
  | none => []
  | inOpcode r => [r]
  | operandByte field (.register r) => field.registers ++ [r]
  | operandByte field (.memory ..) => field.registers

def address? : Operands α → Option (Address α)
  | operandByte _ (.memory _ address) => some address
  | _ => Option.none

def extension : Operands α → Extension
  | none => ⟨false, false, false⟩
  | inOpcode r => ⟨false, false, 8 ≤ r.number.val⟩
  | operandByte field (.register r) => ⟨8 ≤ field.value, false, 8 ≤ r.number.val⟩
  | operandByte field (.memory _ (.relative _)) => ⟨8 ≤ field.value, false, false⟩
  | operandByte field (.memory _ (.based _ base index _)) =>
    ⟨8 ≤ field.value, index.any fun (i, _) => 8 ≤ i.val, 8 ≤ base.val⟩
  | operandByte field (.memory _ (.scaled _ index _ _)) =>
      ⟨8 ≤ field.value, 8 ≤ index.val, false⟩

end Operands

def operandByteOf (mode field place : Nat) : UInt8 :=
  UInt8.ofNat (64 * mode + 8 * (field % 8) + place % 8)

def scaleByteOf (scale index base : Nat) : UInt8 :=
  UInt8.ofNat (64 * scale + 8 * (index % 8) + base % 8)

/-- How a displacement after a base is written: the mode, and the bytes. A zero is left out,
except after the two bases for which that means something else. -/
def displacementForm (base : Fin 16) (displacement : Int32) : Nat × List UInt8 :=
  let d := displacement.toInt64
  if d = 0 ∧ base.val % 8 ≠ 5 then (0, [])
  else if fitsByte d then (1, signedBytes 1 d)
  else (2, signedBytes 4 d)

def placeBytes (field : Nat) : Place α → List UInt8 × Option α
  | .register r => ([operandByteOf 3 field r.number.val], none)
  | .memory _ (.relative target) => ([operandByteOf 0 field 5], some target)
  | .memory _ (.based _ base none displacement) =>
    let (mode, bytes) := displacementForm base displacement
    if base.val % 8 = 4 then
      (operandByteOf mode field 4 :: scaleByteOf 0 4 base.val :: bytes, none)
    else (operandByteOf mode field base.val :: bytes, none)
  | .memory _ (.based _ base (some (index, scale)) displacement) =>
    let (mode, bytes) := displacementForm base displacement
    (operandByteOf mode field 4 :: scaleByteOf scale.code index.val base.val :: bytes, none)
  | .memory _ (.scaled _ index scale displacement) =>
    (operandByteOf 0 field 4 :: scaleByteOf scale.code index.val 5 ::
      signedBytes 4 displacement.toInt64, none)

def opcodeWith (n : Nat) : List UInt8 → List UInt8
  | [] => []
  | [b] => [b + UInt8.ofNat (n % 8)]
  | b :: rest => b :: opcodeWith n rest

namespace Form

/-- Whether the form has a register that only the extension prefix gives access to. -/
def namesLowByte (f : Form α) : Bool :=
  f.operands.registers.any fun
    | .low .byte n => 4 ≤ n.val
    | _ => false

/-- Whether the form has a register that the extension prefix takes away. -/
def namesHighByte (f : Form α) : Bool :=
  f.operands.registers.any Register.isHigh

def extensionPrefix (f : Form α) : List UInt8 :=
  let e := f.operands.extension
  if f.wide || e.field || e.index || e.base || f.namesLowByte then
    [UInt8.ofNat (0x40 + 8 * f.wide.toNat + 4 * e.field.toNat + 2 * e.index.toNat +
      e.base.toNat)]
  else []

def sizePrefixes (size : CodeSize) (f : Form α) : List UInt8 :=
  let operand : List UInt8 := if f.narrow then [0x66] else []
  let address : List UInt8 := match size, f.operands.address?.bind Address.size? with
    | .bits64, some .bits32 => [0x67]
    | _, _ => []
  operand ++ address

def refusal? (size : CodeSize) (memoryOperand : Nat) (f : Form α) : Option Refusal :=
  match size, f.operands.address? with
  | .bits32, address =>
    if f.wide then some .longModeOnly
    else match address with
      | some (.relative _) => some (.relativeAddress memoryOperand)
      | _ => none
  | .bits64, _ =>
    if f.namesHighByte && !f.extensionPrefix.isEmpty then some .highByteExtended else none

def encode (size : CodeSize) (f : Form α) : Encoded α :=
  let front := f.sizePrefixes size ++ f.extensionPrefix
  match f.operands with
  | .none => ⟨front ++ f.opcode ++ f.immediate, none, []⟩
  | .inOpcode r => ⟨front ++ opcodeWith r.number.val f.opcode ++ f.immediate, none, []⟩
  | .operandByte field place =>
    match placeBytes field.value place with
    | (bytes, none) => ⟨front ++ f.opcode ++ bytes ++ f.immediate, none, []⟩
    | (bytes, some target) => ⟨front ++ f.opcode ++ bytes, some target, f.immediate⟩

end Form

def Instruction.encode (size : CodeSize) (i : Instruction α) : Except Refusal (Encoded α) :=
  let f := i.form size
  match f.refusal? size i.memoryOperand with
  | some refusal => .error refusal
  | none => .ok (f.encode size)

end AsmLoader.Machine
