import AsmLoader.Machine.Decoding.Operand
import AsmLoader.Machine.Display
import AsmLoader.Machine.Encoding
/-!
# Decoding

64-bit code as instructions. A decoder reads bytes from the front of the code: prefixes, the
opcode, the operand byte with what follows it, and the immediate. It knows the instructions of
this library in all their encodings; at any other bytes it gives up.
-/

namespace AsmLoader.Machine

/-- What code does at a place: an instruction, or a branch to an address, which may be written
with one byte of displacement or with four. -/
inductive Decoded where
  | instruction (i : Instruction UInt64)
  | branch (transfer : Transfer) (short : Bool) (target : UInt64)
  deriving DecidableEq, Repr

namespace Decoded

def text : Decoded → String
  | instruction i => i.text .listing
  | branch transfer short target => transfer.textTo .listing .bits64 short target

end Decoded

def Arith.ofCode (n : Nat) : Arith :=
  [add, or, adc, sbb, and, sub, xor, cmp].getD (n % 8) add

/-- The shift of a digit. Two digits mean the shift to the left. -/
def Shift.ofDigit (n : Nat) : Shift :=
  [rol, ror, rcl, rcr, shl, shr, shl, sar].getD (n % 8) shl

namespace Reader

def store (p : Prefixes) (opcode : Nat)
    (make : Place Reference → Register → Instruction Reference) :
    Reader (Instruction Reference) := do
  let (field, place) ← place p (p.widthOf opcode)
  return make place (p.register (p.widthOf opcode) field)

/-- Reads the operands of an opcode of which bit 1 tells whether the register comes first. -/
def pair (p : Prefixes) (opcode : Nat)
    (make : Place Reference → Register → Instruction Reference)
    (load : Register → Address Reference → Instruction Reference) :
    Reader (Instruction Reference) := do
  if opcode / 2 % 2 = 0 then store p opcode make
  else
    let (field, place) ← place p (p.widthOf opcode)
    let r := p.register (p.widthOf opcode) field
    match place with
    | .memory _ address => return load r address
    | .register s => return make (.register r) s

def toRegister (p : Prefixes) (w : Width)
    (make : Register → Place Reference → Instruction Reference) :
    Reader (Instruction Reference) := do
  let (field, place) ← place p w
  return make (p.register p.width field) place

def arith (p : Prefixes) (opcode : Nat) : Reader (Instruction Reference) := do
  let op := Arith.ofCode (opcode / 8)
  let w := p.widthOf opcode
  if opcode % 8 < 4 then pair p opcode (.arith op) (.arithLoad op)
  else return .arithImmediate op (.register (.accumulator w)) (← signed (immediateBytes w))

def arithImmediate (p : Prefixes) (w : Width) (count : Nat) : Reader (Instruction Reference) :=
  group p fun digit =>
    some (w, fun place => do return .arithImmediate (.ofCode digit) place (← signed count))

def shift (p : Prefixes) (opcode : Nat) : Reader (Instruction Reference) :=
  group p fun digit =>
    let op := Shift.ofDigit digit
    some (p.widthOf opcode, fun place => do
      if opcode < 0xC2 then return .shift op place (← byte)
      else if opcode < 0xD2 then return .shift op place 1
      else return .shiftByCl op place)

def unary (p : Prefixes) (opcode : Nat) : Reader (Instruction Reference) :=
  group p fun digit =>
    let w := p.widthOf opcode
    let op := [Unary.not, .neg, .mul, .imul, .div, .idiv].getD (digit - 2) .not
    some (w, fun place => do
      if digit < 2 then return .testImmediate place (← signed (immediateBytes w))
      else return .unary op place)

def step (p : Prefixes) (opcode : Nat) : Reader (Instruction Reference) :=
  group p fun digit =>
    match digit, opcode with
    | 0, _ => some (p.widthOf opcode, fun place => do return .unary .inc place)
    | 1, _ => some (p.widthOf opcode, fun place => do return .unary .dec place)
    | 2, 0xFF => some (.qword, fun place => do return .callPlace place)
    | 4, 0xFF => some (.qword, fun place => do return .jmpPlace place)
    | 6, 0xFF => some (p.stackWidth, fun place => do return .push place)
    | _, _ => none

def digitZero (p : Prefixes) (w : Width)
    (next : Place Reference → Reader (Instruction Reference)) : Reader (Instruction Reference) :=
  group p fun digit => if digit = 0 then some (w, next) else none

def exchange (p : Prefixes) (opcode : Nat) : Instruction Reference :=
  let r := p.register p.width (opcode % 8 + 8 * p.bit 0)
  if opcode = 0x90 ∧ p.repeated then .bare .pause
  else if r.number.val = 0 ∧ p.width = .dword then .bare .nop
  else .xchg (.register r) (.accumulator p.width)

def extendAccumulator (p : Prefixes) : Bare :=
  match p.width with
  | .qword => .cdqe
  | .word => .cbw
  | _ => .cwde

def extendAcross (p : Prefixes) : Bare :=
  match p.width with
  | .qword => .cqo
  | .word => .cwd
  | _ => .cdq

def bareOf (p : Prefixes) : Nat → Option Bare
  | 0x98 => some (extendAccumulator p)
  | 0x99 => some (extendAcross p)
  | 0x9C => some .pushfq
  | 0x9D => some .popfq
  | 0x9E => some .sahf
  | 0x9F => some .lahf
  | 0xC3 => some (if p.repeated then .repRet else .ret)
  | 0xC9 => some .leave
  | 0xCC => some .int3
  | 0xF1 => some .int1
  | 0xF4 => some .hlt
  | 0xF5 => some .cmc
  | 0xF8 => some .clc
  | 0xF9 => some .stc
  | 0xFA => some .cli
  | 0xFB => some .sti
  | 0xFC => some .cld
  | 0xFD => some .std
  | _ => none

def singleOpcode (p : Prefixes) (opcode : Nat) : Reader (Instruction Reference) := do
  let w := p.widthOf opcode
  match opcode with
  | 0x63 => toRegister p (if p.width = .word then .word else .dword) .movsxd
  | 0x68 => return .pushImmediate (← signed (if p.narrow then 2 else 4))
  | 0x6A => return .pushImmediate (← signed 1)
  | 0x69 =>
    let (field, place) ← place p p.width
    return .imulImmediate (p.register p.width field) place (← signed (immediateBytes p.width))
  | 0x6B =>
    let (field, place) ← place p p.width
    return .imulImmediate (p.register p.width field) place (← signed 1)
  | 0x80 | 0x81 => arithImmediate p w (immediateBytes w)
  | 0x83 => arithImmediate p w 1
  | 0x8D =>
    let (field, address) ← memory p
    return .lea (p.register p.width field) address
  | 0x8F => digitZero p p.stackWidth fun place => do return .pop place
  | 0xA0 | 0xA1 => return .movLoad (.accumulator w) (← offset p)
  | 0xA2 | 0xA3 => return .mov (.memory w (← offset p)) (.accumulator w)
  | 0xA8 | 0xA9 =>
    return .testImmediate (.register (.accumulator w)) (← signed (immediateBytes w))
  | 0xC0 | 0xC1 | 0xD0 | 0xD1 | 0xD2 | 0xD3 => shift p opcode
  | 0xC2 => return .retPop (← signed 2).toUInt64.toUInt16
  | 0xC6 | 0xC7 =>
    digitZero p w fun place => do return .movImmediate place (← signed (immediateBytes w))
  | 0xCD => return .interrupt (← byte)
  | 0xF6 | 0xF7 => unary p opcode
  | 0xFE | 0xFF => step p opcode
  | _ =>
    match bareOf p opcode with
    | some op => return .bare op
    | none => fail

/-- Reads what follows an opcode of one byte, for all but branches. -/
def shortOpcode (p : Prefixes) (opcode : Nat) : Reader (Instruction Reference) := do
  let low := opcode % 8 + 8 * p.bit 0
  if opcode < 0x40 ∧ opcode % 8 < 6 then arith p opcode
  else if 0x50 ≤ opcode ∧ opcode < 0x58 then
    return .push (.register (p.register p.stackWidth low))
  else if 0x58 ≤ opcode ∧ opcode < 0x60 then
    return .pop (.register (p.register p.stackWidth low))
  else if 0x84 ≤ opcode ∧ opcode < 0x86 then store p opcode .test
  else if 0x86 ≤ opcode ∧ opcode < 0x88 then store p opcode .xchg
  else if 0x88 ≤ opcode ∧ opcode < 0x8C then pair p opcode .mov .movLoad
  else if 0x90 ≤ opcode ∧ opcode < 0x98 then return exchange p opcode
  else if 0xB0 ≤ opcode ∧ opcode < 0xC0 then
    let w := if opcode < 0xB8 then .byte else p.width
    return .movImmediate (.register (p.register w low)) (← signed w.bytes)
  else singleOpcode p opcode

def longOpcode (p : Prefixes) (opcode : Nat) : Reader (Instruction Reference) := do
  if 0x40 ≤ opcode ∧ opcode < 0x50 then toRegister p p.width (.cmov (.ofCode opcode))
  else if 0x90 ≤ opcode ∧ opcode < 0xA0 then
    let (_, place) ← place p .byte
    return .set (.ofCode opcode) place
  else
    match opcode with
    | 0x05 => return .bare .syscall
    | 0x0B => return .bare .ud2
    | 0x1F => digitZero p p.width fun place => do return .nopPlace place
    | 0x31 => return .bare .rdtsc
    | 0xA2 => return .bare .cpuid
    | 0xAF => toRegister p p.width .imul
    | 0xB6 => toRegister p .byte .movzx
    | 0xB7 => toRegister p .word .movzx
    | 0xBE => toRegister p .byte .movsx
    | 0xBF => toRegister p .word .movsx
    | _ => fail

end Reader

/-- An instruction or branch whose references are not resolved. A branch has the displacement
from its end. -/
inductive Relative where
  | instruction (i : Instruction Reference)
  | branch (transfer : Transfer) (short : Bool) (displacement : Int64)
  deriving DecidableEq, Repr

def Relative.resolve (next : UInt64) : Relative → Decoded
  | instruction i => .instruction (i.map (Reference.resolve next))
  | branch transfer short d => .branch transfer short (next + d.toUInt64)

def Reader.opcode (p : Prefixes) : Reader Relative := do
  let opcode := (← byte).toNat
  if opcode = 0x0F then
    let opcode := (← byte).toNat
    if 0x80 ≤ opcode ∧ opcode < 0x90 then
      return .branch (.jcc (.ofCode opcode)) false (← signed 4)
    else return .instruction (← longOpcode p opcode)
  else if 0x70 ≤ opcode ∧ opcode < 0x80 then
    return .branch (.jcc (.ofCode opcode)) true (← signed 1)
  else if opcode = 0xE8 then return .branch .call false (← signed 4)
  else if opcode = 0xE9 then return .branch .jmp false (← signed 4)
  else if opcode = 0xEB then return .branch .jmp true (← signed 1)
  else return .instruction (← shortOpcode p opcode)

/-- What the code at an address does first, if that can be told, and the number of bytes that
have been read to tell it. -/
def decode (ip : UInt64) (code : List UInt8) : Option Decoded × Nat :=
  let bytes := code.take maxInstructionSize
  let (p, rest) := Prefixes.read .none bytes
  match (Reader.opcode p).run rest with
  | .error left => (none, bytes.length - left.length)
  | .ok (relative, left) =>
    let size := bytes.length - left.length
    (some (relative.resolve (ip + UInt64.ofNat size)), size)

end AsmLoader.Machine
