import AsmLoader.Machine.Decoding.Prefixes
/-!
# Operands in code

The operand byte of an instruction of 64-bit code and what follows it: a register, or an address
with its registers and displacement. An address without registers is known only when the whole
instruction has been read, because most are counted from its end.
-/

namespace AsmLoader.Machine

/-- What names a place in memory: the displacement to it from the end of the instruction, at some
size of addresses, or its address. -/
inductive Reference where
  | fromEnd (size : CodeSize) (displacement : Int64)
  | absolute (address : UInt64)
  deriving DecidableEq, Repr

def Reference.resolve (next : UInt64) : Reference → UInt64
  | fromEnd size displacement => size.truncate (next + displacement.toUInt64)
  | absolute address => address

/-- The parts of an operand byte: the mode, the field and the place. The field has its extension
bit, the place has not. -/
structure OperandByte where
  mode : Nat
  field : Nat
  place : Nat
  deriving DecidableEq, Repr

namespace Reader

def displacement (mode : Nat) : Reader Int32 := do
  match mode with
  | 0 => return 0
  | 1 => return (← signed 1).toInt32
  | _ => return (← signed 4).toInt32

/-- Reads the byte for a scale, an index and a base, and the displacement of a mode. The index
with the number 4 is none; in the mode without displacement the base with the number 5 is none,
and there is a displacement after all. -/
def scaledAddress (p : Prefixes) (mode : Nat) : Reader (Address Reference) := do
  let b := (← byte).toNat
  let size := p.addressSize
  let scale := Scale.ofCode (b / 64)
  let index := b / 8 % 8 + 8 * p.bit 1
  if mode = 0 ∧ b % 8 = 5 then
    let d ← displacement 2
    if index = 4 then return .relative (.absolute (size.truncate d.toInt64.toUInt64))
    else return .scaled size (Register.numberOf index) scale d
  else
    let d ← displacement mode
    let base := Register.numberOf (b % 8 + 8 * p.bit 0)
    if index = 4 then return .based size base none d
    else return .based size base (some (Register.numberOf index, scale)) d

def address (p : Prefixes) (o : OperandByte) : Reader (Address Reference) := do
  if o.place = 4 then scaledAddress p o.mode
  else if o.mode = 0 ∧ o.place = 5 then return .relative (.fromEnd p.addressSize (← signed 4))
  else
    let d ← displacement o.mode
    return .based p.addressSize (Register.numberOf (o.place + 8 * p.bit 0)) none d

def operandByte (p : Prefixes) : Reader OperandByte := do
  let b := (← byte).toNat
  return ⟨b / 64, b / 8 % 8 + 8 * p.bit 2, b % 8⟩

def placeAfter (p : Prefixes) (w : Width) (o : OperandByte) : Reader (Place Reference) := do
  if o.mode = 3 then return .register (p.register w (o.place + 8 * p.bit 0))
  else return .memory w (← address p o)

def place (p : Prefixes) (w : Width) : Reader (Nat × Place Reference) := do
  let o ← operandByte p
  return (o.field, ← placeAfter p w o)

def memory (p : Prefixes) : Reader (Nat × Address Reference) := do
  let o ← operandByte p
  if o.mode = 3 then fail else return (o.field, ← address p o)

def offset (p : Prefixes) : Reader (Address Reference) := do
  match p.addressSize with
  | .bits32 => return .relative (.absolute (CodeSize.truncate .bits32 (← signed 4).toUInt64))
  | .bits64 => return .relative (.absolute (← signed 8).toUInt64)

/-- Reads an operand byte whose field is a digit that belongs to the opcode, and what follows it.
The digit tells the width of the place and how to go on from there; it may mean nothing. -/
def group {α : Type} (p : Prefixes)
    (choose : Nat → Option (Width × (Place Reference → Reader α))) : Reader α := do
  let o ← operandByte p
  match choose (o.field % 8) with
  | none => fail
  | some (w, next) => next (← placeAfter p w o)

end Reader

end AsmLoader.Machine
