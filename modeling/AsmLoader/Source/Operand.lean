import AsmLoader.Machine.Instruction
import AsmLoader.Source.Expression
/-!
# Operands

What an instruction of a source works on: a register, a number, a label, or memory. Outside
brackets the linear form of an expression must be exactly one of the first three; inside brackets
it is taken apart into a base, an index with its scale, and a displacement.
-/

namespace AsmLoader.Source

open Machine (Register Scale Width)

inductive Location where
  | label (name : String)
  | absolute (address : Int64)
  | indexed (base : Option Register) (index : Option (Register × Scale)) (displacement : Int64)
  deriving DecidableEq, Repr

inductive Operand where
  | register (r : Register)
  | immediate (value : Int64)
  | symbol (name : String)
  | memory (size : Option Width) (location : Location)
  deriving DecidableEq, Repr

def Operand.ofLinear (l : Linear) : Except LineError Operand :=
  match l.registers, l.symbols with
  | [], [] => .ok (.immediate l.constant)
  | [(r, coefficient)], [] =>
    if coefficient = 1 ∧ l.constant = 0 then .ok (.register r) else .error .registerArithmetic
  | [], [(name, coefficient)] =>
    if coefficient = 1 ∧ l.constant = 0 then .ok (.symbol name)
    else .error (.labelArithmetic name)
  | _, _ => .error .registerArithmetic

def scaleOf? (factor : Int64) : Option Scale :=
  [Scale.one, .two, .four, .eight].find? fun scale => Int64.ofNat scale.factor = factor

def isAddressable (r : Register) : Bool :=
  r.width == .dword || r.width == .qword

/-- The registers of an address as a base and an index with its factor. The register that cannot
be an index becomes the base where it can. -/
def baseAndIndex :
    List (Register × Int64) → Except LineError (Option Register × Option (Register × Int64))
  | [] => .ok (none, none)
  | [(r, factor)] => if factor = 1 then .ok (some r, none) else .ok (none, some (r, factor))
  | [(first, firstFactor), (second, secondFactor)] =>
    if firstFactor = 1 ∧ secondFactor = 1 ∧ second.number.val = 4 then
      .ok (some second, some (first, 1))
    else if firstFactor = 1 then .ok (some first, some (second, secondFactor))
    else if secondFactor = 1 then .ok (some second, some (first, firstFactor))
    else .error .bothScaled
  | _ => .error .tooManyRegisters

/-- The index of an address: its factor must be a scale, it must be a register that can be an
index, and it must have the size of the base. -/
def checkIndex (base : Option Register) (r : Register) (factor : Int64) :
    Except LineError (Register × Scale) :=
  match scaleOf? factor with
  | none => .error (.invalidScale factor)
  | some scale =>
    if r.number.val = 4 then .error (.notIndexable r)
    else if base.any fun base => base.width ≠ r.width then .error .mixedAddressSizes
    else .ok (r, scale)

/-- The symbols of an address. Beside other symbols the name `rip` says only that the address is
relative, as that of a label always is. -/
def addressSymbols (symbols : List (String × Int64)) : List (String × Int64) :=
  if 1 < symbols.length then symbols.filter fun (name, _) => name.toLower ≠ "rip" else symbols

def Location.ofRegisters (registers : List (Register × Int64)) (displacement : Int64) :
    Except LineError Location := do
  match registers.find? fun (r, _) => !isAddressable r with
  | some (r, _) => throw (.notAddressable r)
  | none =>
    let (base, index) ← baseAndIndex registers
    let index ← match index with
      | some (r, factor) => (checkIndex base r factor).map some
      | none => pure none
    if base.isNone && index.isNone then return .absolute displacement
    else if Machine.fitsDword displacement then return .indexed base index displacement
    else throw (.displacementRange displacement)

def Location.ofLinear (l : Linear) : Except LineError Location :=
  match addressSymbols l.symbols with
  | [] => Location.ofRegisters l.registers l.constant
  | [(name, coefficient)] =>
    if coefficient ≠ 1 then .error .labelExpression
    else if l.registers.isEmpty && l.constant == 0 then .ok (.label name)
    else .error (.labelCombined name)
  | _ => .error .labelExpression

def sizeOverride : List Token → Option Width × List Token
  | .word word :: rest =>
    match Keyword.ofWord? word with
    | some (.size width) =>
      match rest with
      | .word next :: after =>
        if Keyword.ofWord? next = some .pointer then (some width, after) else (some width, rest)
      | _ => (some width, rest)
    | some .distance => (none, rest)
    | _ => (none, .word word :: rest)
  | tokens => (none, tokens)

def readOperand (scope : Scope) (tokens : List Token) : Except LineError Operand :=
  match sizeOverride tokens with
  | (_, []) => .error .missingOperand
  | (size, .mark '[' :: rest) =>
    if rest.getLast? = some (.mark ']') then do
      let l ← readExpression scope rest.dropLast
      let location ← Location.ofLinear l
      return .memory size location
    else .error .unclosedMemory
  | (some _, _) => .error .sizeWithoutMemory
  | (none, tokens) => do
    let l ← readExpression scope tokens
    Operand.ofLinear l

end AsmLoader.Source
