import AsmLoader.Assembly.Mnemonic
import AsmLoader.Machine.Encoding
import AsmLoader.Source.Statement
/-!
# Selection

From a mnemonic and its operands to an instruction. The operands are first resolved: registers
and labels must exist in the code at hand. Then the mnemonic decides which shapes of operands it
takes, which sizes must agree, and which numbers fit.
-/

namespace AsmLoader.Assembly

open Machine (Address Arith Bare CodeSize Instruction Place Register Scale Shift Transfer Unary
  Width)
open Source (Location Operand)

inductive StatementError where
  | unknownInstruction (mnemonic : String)
  | invalidOperands (mnemonic : String)
  | sizeMismatch
  | missingSize
  | undefinedSymbol (name : String)
  | immediateRange (value : Int64) (bits : Nat)
  | longModeOnly (name : String)
  | absoluteAddress (address : Int64)
  | reservationTooLarge (total : UInt64)
  deriving DecidableEq, Repr

def StatementError.message : StatementError → String
  | unknownInstruction mnemonic => s!"unknown instruction '{mnemonic}'"
  | invalidOperands mnemonic => s!"invalid operands for '{mnemonic}'"
  | sizeMismatch => "operand sizes do not match"
  | missingSize => "operand size not specified"
  | undefinedSymbol name => s!"undefined symbol '{name}'"
  | immediateRange value bits =>
    "immediate " ++ toString value.toInt ++ s!" does not fit in {bits} bits"
  | longModeOnly name => s!"'{name}' is not available in 32-bit mode"
  | absoluteAddress address =>
    "absolute memory operand " ++ Text.hexLower address.toUInt64.toNat ++
      " is not supported, load the address into a register"
  | reservationTooLarge total =>
    s!"reservation of {total} bytes exceeds the region capacity"

/-- The number of a place in the code. Places are numbered from 1. -/
abbrev PlaceId := UInt64

inductive Argument where
  | register (r : Register)
  | immediate (value : Int64)
  | memory (size : Option Width) (address : Address PlaceId)
  | label (place : PlaceId)
  deriving DecidableEq, Repr

structure Context where
  codeSize : CodeSize
  place? : String → Option PlaceId

namespace Context

def label (c : Context) (name : String) : Except StatementError PlaceId :=
  match c.place? name with
  | some place => .ok place
  | none => .error (.undefinedSymbol name)

def checkRegister (c : Context) (r : Register) : Except StatementError Unit :=
  if c.codeSize = .bits32 ∧ r.isLongModeOnly then .error (.longModeOnly r.name) else .ok ()

def addressSize (r : Register) : CodeSize :=
  if r.width = .qword then .bits64 else .bits32

def address (c : Context) : Location → Except StatementError (Address PlaceId)
  | .label name => do
    let place ← c.label name
    return .relative place
  | .absolute address => .error (.absoluteAddress address)
  | .indexed (some base) none displacement => do
    c.checkRegister base
    return .based (addressSize base) base.number none displacement.toInt32
  | .indexed (some base) (some (index, scale)) displacement => do
    c.checkRegister base
    c.checkRegister index
    return .based (addressSize base) base.number
      (some (index.number, scale)) displacement.toInt32
  | .indexed none (some (index, scale)) displacement => do
    c.checkRegister index
    return .scaled (addressSize index) index.number scale displacement.toInt32
  | .indexed none none displacement => .error (.absoluteAddress displacement)

def argument (c : Context) : Operand → Except StatementError Argument
  | .register r => do
    c.checkRegister r
    return .register r
  | .immediate value => return .immediate value
  | .symbol name => do
    let place ← c.label name
    return .label place
  | .memory size location => do
    let address ← c.address location
    return .memory size address

end Context

def Argument.width? : Argument → Option Width
  | register r => some r.width
  | memory size _ => size
  | immediate _ | label _ => none

def checkSameWidth (dst src : Argument) : Except StatementError Unit :=
  match dst.width?, src.width? with
  | some d, some s => if d = s then .ok () else .error .sizeMismatch
  | _, _ => .ok ()

/-- The signed number that an immediate is worth at a width, of which it may be any signed or
unsigned number. -/
def wrapImmediate (w : Width) (value : Int64) : Except StatementError Int64 :=
  if -(w.count / 2 : Nat) ≤ value.toInt ∧ value.toInt < w.count then
    .ok (Int64.ofInt (value.toInt.bmod w.count))
  else .error (.immediateRange value w.bits)

def extendedImmediate (value : Int64) : Except StatementError Int64 :=
  if Machine.fitsDword value then .ok value else .error (.immediateRange value 32)

/-- An immediate for an operand of a width. That for 64 bits has 32 bits whose sign
is extended. -/
def immediateAt : Width → Int64 → Except StatementError Int64
  | .qword, value => extendedImmediate value
  | w, value => wrapImmediate w value

def memoryImmediate (size : Option Width) (value : Int64) :
    Except StatementError (Width × Int64) :=
  match size with
  | some w => do
    let value ← immediateAt w value
    return (w, value)
  | none => .error .missingSize

/-- What a statement with an instruction stands for: an instruction, or a branch to a number that
is a place of the code or an address. -/
inductive Selected where
  | instruction (i : Instruction PlaceId)
  | branch (transfer : Transfer) (target : UInt64)
  deriving DecidableEq, Repr

abbrev Selection := Except StatementError Selected

def choose (i : Instruction PlaceId) : Selection :=
  .ok (.instruction i)

def selectMov (codeSize : CodeSize) (dst src : Argument) (invalid : StatementError) :
    Selection := do
  checkSameWidth dst src
  match dst, src with
  | .register d, .register s => choose (.mov (.register d) s)
  | .register d, .memory _ address => choose (.movLoad d address)
  | .memory _ address, .register s => choose (.mov (.memory s.width address) s)
  | .register d, .immediate value =>
    if d.width = .qword then choose (.movImmediate (.register d) value)
    else do
      let value ← wrapImmediate d.width value
      choose (.movImmediate (.register d) value)
  | .memory size address, .immediate value => do
    let (w, value) ← memoryImmediate size value
    choose (.movImmediate (.memory w address) value)
  | .register d, .label place =>
    if d.width = .qword ∨ (d.width = .dword ∧ codeSize = .bits32) then
      choose (.lea d (.relative place))
    else .error invalid
  | _, _ => .error invalid

def selectArith (op : Arith) (dst src : Argument) (invalid : StatementError) : Selection := do
  checkSameWidth dst src
  match dst, src with
  | .register d, .register s => choose (.arith op (.register d) s)
  | .register d, .memory _ address => choose (.arithLoad op d address)
  | .memory _ address, .register s => choose (.arith op (.memory s.width address) s)
  | .register d, .immediate value => do
    let value ← immediateAt d.width value
    choose (.arithImmediate op (.register d) value)
  | .memory size address, .immediate value => do
    let (w, value) ← memoryImmediate size value
    choose (.arithImmediate op (.memory w address) value)
  | _, _ => .error invalid

def memoryFirst (dst src : Argument) : Argument × Argument :=
  match dst, src with
  | .memory .., _ => (dst, src)
  | _, .memory .. => (src, dst)
  | _, _ => (dst, src)

def selectTest (dst src : Argument) (invalid : StatementError) : Selection := do
  checkSameWidth dst src
  match memoryFirst dst src with
  | (.register d, .register s) => choose (.test (.register d) s)
  | (.memory _ address, .register s) => choose (.test (.memory s.width address) s)
  | (.register d, .immediate value) => do
    let value ← immediateAt d.width value
    choose (.testImmediate (.register d) value)
  | (.memory size address, .immediate value) => do
    let (w, value) ← memoryImmediate size value
    choose (.testImmediate (.memory w address) value)
  | _ => .error invalid

def selectXchg (dst src : Argument) (invalid : StatementError) : Selection := do
  checkSameWidth dst src
  match memoryFirst dst src with
  | (.register d, .register s) => choose (.xchg (.register d) s)
  | (.memory _ address, .register s) => choose (.xchg (.memory s.width address) s)
  | _ => .error invalid

def selectLea (dst src : Argument) (invalid : StatementError) : Selection :=
  match dst, src with
  | .register d, .memory _ address =>
    if d.width = .byte then .error invalid else choose (.lea d address)
  | .register d, .label place =>
    if d.width = .qword ∨ d.width = .dword then choose (.lea d (.relative place))
    else .error invalid
  | _, _ => .error invalid

def canExtend (dst src : Width) : Bool :=
  match dst, src with
  | .qword, .byte | .qword, .word | .dword, .byte | .dword, .word | .word, .byte => true
  | _, _ => false

def selectExtend (make : Register → Place PlaceId → Instruction PlaceId) (dst src : Argument)
    (invalid : StatementError) : Selection :=
  match dst, src with
  | _, .memory none _ => .error .missingSize
  | .register d, .register s =>
    if canExtend d.width s.width then choose (make d (.register s)) else .error invalid
  | .register d, .memory (some w) address =>
    if canExtend d.width w then choose (make d (.memory w address)) else .error invalid
  | _, _ => .error invalid

def selectMovsxd (dst src : Argument) (invalid : StatementError) : Selection :=
  match dst, src with
  | .register d, .register s =>
    if d.width = .qword ∧ s.width = .dword then choose (.movsxd d (.register s))
    else .error invalid
  | .register d, .memory size address =>
    if d.width = .qword ∧ (size = none ∨ size = some .dword) then
      choose (.movsxd d (.memory .dword address))
    else .error invalid
  | _, _ => .error invalid

def placeOf (dst : Argument) (invalid : StatementError) :
    Except StatementError (Place PlaceId) :=
  match dst with
  | .register r => .ok (.register r)
  | .memory (some w) address => .ok (.memory w address)
  | .memory none _ => .error .missingSize
  | _ => .error invalid

def selectShift (op : Shift) (dst count : Argument) (invalid : StatementError) : Selection :=
  match dst, count with
  | .memory none _, _ => .error .missingSize
  | dst, .register r =>
    if r = .cl then do
      let place ← placeOf dst invalid
      choose (.shiftByCl op place)
    else .error invalid
  | dst, .immediate value =>
    if 0 ≤ value.toInt ∧ value.toInt ≤ 255 then do
      let place ← placeOf dst invalid
      choose (.shift op place value.toUInt64.toUInt8)
    else .error (.immediateRange value 8)
  | _, _ => .error invalid

def selectUnary (op : Unary) (dst : Argument) (invalid : StatementError) : Selection := do
  let place ← placeOf dst invalid
  choose (.unary op place)

def selectImul (dst src : Argument) (invalid : StatementError) : Selection := do
  checkSameWidth dst src
  match dst, src with
  | .register d, .register s =>
    if d.width = .byte then .error invalid else choose (.imul d (.register s))
  | .register d, .memory _ address =>
    if d.width = .byte then .error invalid else choose (.imul d (.memory d.width address))
  | .register d, .immediate value =>
    if d.width = .byte then .error invalid
    else do
      let value ← immediateAt d.width value
      choose (.imulImmediate d (.register d) value)
  | _, _ => .error invalid

def selectImulImmediate (dst src : Argument) (value : Int64) (invalid : StatementError) :
    Selection := do
  checkSameWidth dst src
  match dst, src with
  | .register d, .register s =>
    if d.width = .byte then .error invalid
    else do
      let value ← immediateAt d.width value
      choose (.imulImmediate d (.register s) value)
  | .register d, .memory _ address =>
    if d.width = .byte then .error invalid
    else do
      let value ← immediateAt d.width value
      choose (.imulImmediate d (.memory d.width address) value)
  | _, _ => .error invalid

def nativeWidth : CodeSize → Width
  | .bits32 => .dword
  | .bits64 => .qword

def stackPlace (codeSize : CodeSize) (arg : Argument) (invalid : StatementError) :
    Except StatementError (Place PlaceId) :=
  match arg with
  | .register r =>
    if r.width = .word ∨ r.width = nativeWidth codeSize ∨ r.width = .qword then
      .ok (.register r)
    else .error invalid
  | .memory size address =>
    if size = none ∨ size = some (nativeWidth codeSize) then
      .ok (.memory (nativeWidth codeSize) address)
    else .error invalid
  | _ => .error invalid

def selectPush (codeSize : CodeSize) (src : Argument) (invalid : StatementError) : Selection :=
  match src with
  | .immediate value => do
    let value ← immediateAt (nativeWidth codeSize) value
    choose (.pushImmediate value)
  | src => do
    let place ← stackPlace codeSize src invalid
    choose (.push place)

def selectPop (codeSize : CodeSize) (dst : Argument) (invalid : StatementError) : Selection := do
  let place ← stackPlace codeSize dst invalid
  choose (.pop place)

/-- The calls and jumps, which go to a place of the code, to an address, or to where an operand
says. -/
def selectTransfer (codeSize : CodeSize) (transfer : Transfer)
    (make : Place PlaceId → Instruction PlaceId) (target : Argument) (invalid : StatementError) :
    Selection :=
  match target with
  | .label place => .ok (.branch transfer place)
  | .immediate value => .ok (.branch transfer value.toUInt64)
  | .register r =>
    if r.width = nativeWidth codeSize ∨ r.width = .qword then choose (make (.register r))
    else .error invalid
  | .memory _ address => choose (make (.memory (nativeWidth codeSize) address))

def selectJcc (condition : Machine.Condition) (target : Argument) (invalid : StatementError) :
    Selection :=
  match target with
  | .label place => .ok (.branch (.jcc condition) place)
  | .immediate value => .ok (.branch (.jcc condition) value.toUInt64)
  | _ => .error invalid

def selectSet (condition : Machine.Condition) (dst : Argument) (invalid : StatementError) :
    Selection :=
  match dst with
  | .register r =>
    if r.width = .byte then choose (.set condition (.register r)) else .error invalid
  | .memory size address =>
    if size = none ∨ size = some .byte then choose (.set condition (.memory .byte address))
    else .error invalid
  | _ => .error invalid

def selectCmov (condition : Machine.Condition) (dst src : Argument) (invalid : StatementError) :
    Selection := do
  checkSameWidth dst src
  match dst, src with
  | .register d, .register s =>
    if d.width = .byte then .error invalid else choose (.cmov condition d (.register s))
  | .register d, .memory _ address =>
    if d.width = .byte then .error invalid
    else choose (.cmov condition d (.memory d.width address))
  | _, _ => .error invalid

/-! ## From names and operands to instructions -/

/-- What is reported of a name and operands for which there is no instruction. -/
def refuse (name : String) : Selection :=
  if isKnown name then .error (.invalidOperands name) else .error (.unknownInstruction name)

/-- The instruction of a family, which has an exit of its own for a suffix that names no
condition. -/
def selectFamily (name suffix : String) (make : Machine.Condition → Selection) : Selection :=
  match Machine.Condition.ofSuffix? suffix with
  | some condition => make condition
  | none => .error (.unknownInstruction name)

def selectBare (name : String) : Selection :=
  match bareNames.lookup name with
  | some op => choose (.bare op)
  | none => refuse name

def selectRet (name : String) (arg : Argument) : Selection :=
  match arg with
  | .immediate value =>
    if 0 ≤ value.toInt ∧ value.toInt ≤ 0xFFFF then choose (.retPop value.toUInt64.toUInt16)
    else .error (.immediateRange value 16)
  | _ => refuse name

def selectOne (codeSize : CodeSize) (name : String) (arg : Argument) : Selection :=
  let invalid := .invalidOperands name
  match name with
  | "ret" => selectRet name arg
  | "push" => selectPush codeSize arg invalid
  | "pop" => selectPop codeSize arg invalid
  | "call" => selectTransfer codeSize .call .callPlace arg invalid
  | "jmp" => selectTransfer codeSize .jmp .jmpPlace arg invalid
  | _ =>
    match unaryNames.lookup name, suffix? "j" name, suffix? "set" name with
    | some op, _, _ => selectUnary op arg invalid
    | none, some suffix, _ => selectFamily name suffix (selectJcc · arg invalid)
    | none, none, some suffix => selectFamily name suffix (selectSet · arg invalid)
    | none, none, none => refuse name

def selectTwo (codeSize : CodeSize) (name : String) (dst src : Argument) : Selection :=
  let invalid := .invalidOperands name
  match name with
  | "mov" => selectMov codeSize dst src invalid
  | "test" => selectTest dst src invalid
  | "xchg" => selectXchg dst src invalid
  | "lea" => selectLea dst src invalid
  | "movzx" => selectExtend .movzx dst src invalid
  | "movsx" => selectExtend .movsx dst src invalid
  | "movsxd" => selectMovsxd dst src invalid
  | "imul" => selectImul dst src invalid
  | _ =>
    match arithNames.lookup name, shiftNames.lookup name, suffix? "cmov" name with
    | some op, _, _ => selectArith op dst src invalid
    | none, some op, _ => selectShift op dst src invalid
    | none, none, some suffix => selectFamily name suffix (selectCmov · dst src invalid)
    | none, none, none => refuse name

def selectThree (name : String) (dst src third : Argument) : Selection :=
  match name, third with
  | "imul", .immediate value => selectImulImmediate dst src value (.invalidOperands name)
  | _, _ => refuse name

/-- Which names stand for an instruction depends on the number of operands. -/
def dispatch (codeSize : CodeSize) (name : String) (args : List Argument) : Selection :=
  match args with
  | [] => selectBare name
  | [arg] => selectOne codeSize name arg
  | [dst, src] => selectTwo codeSize name dst src
  | [dst, src, third] => selectThree name dst src third
  | _ => refuse name

def select (codeSize : CodeSize) (name : String) (args : List Argument) : Selection :=
  if codeSize = .bits32 ∧ name ∈ longModeNames then .error (.longModeOnly name)
  else dispatch codeSize name args

end AsmLoader.Assembly
