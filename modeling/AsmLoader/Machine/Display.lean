import AsmLoader.Machine.Instruction
import AsmLoader.Text.Numeral
/-!
# Display

How instructions are shown: the mnemonic, a space, and the operands with commas between them, the
destination first. Numbers from 10 on are hexadecimal with `h` after them, and a zero before a
leading letter. The width of memory is shown where no register tells it.
-/

namespace AsmLoader.Machine

def paddedNumberText (width n : Nat) : String :=
  if n < 10 then toString n
  else
    let digits := Text.hexPadded width n
    if (digits.front).isAlpha then "0" ++ digits ++ "h" else digits ++ "h"

/-- A number: one decimal digit, or hexadecimal digits and `h`. -/
def numberText (n : Nat) : String :=
  paddedNumberText 0 n

def immediateText (w : Width) (value : Int64) : String :=
  numberText (value.toUInt64.toNat % w.count)

def codeAddressText (size : CodeSize) (address : UInt64) : String :=
  paddedNumberText size.digits (size.truncate address).toNat

def Width.text : Width → String
  | .byte => "byte ptr "
  | .word => "word ptr "
  | .dword => "dword ptr "
  | .qword => "qword ptr "

def addressRegister (size : CodeSize) (n : Fin 16) : String :=
  match size with
  | .bits32 => (Register.low .dword n).name
  | .bits64 => (Register.low .qword n).name

def scaledText (size : CodeSize) (index : Fin 16) (scale : Scale) : String :=
  addressRegister size index ++ "*" ++ toString scale.factor

def indexText (size : CodeSize) (index : Fin 16) : Scale → String
  | .one => addressRegister size index
  | scale => scaledText size index scale

def displacementText (displacement : Int32) : String :=
  let d := displacement.toInt
  if d = 0 then ""
  else if d < 0 then "-" ++ numberText d.natAbs
  else "+" ++ numberText d.natAbs

def Address.text : Address UInt64 → String
  | relative target => "[" ++ numberText target.toNat ++ "]"
  | based size base none displacement =>
    "[" ++ addressRegister size base ++ displacementText displacement ++ "]"
  | based size base (some (index, scale)) displacement =>
    "[" ++ addressRegister size base ++ "+" ++ indexText size index scale ++
      displacementText displacement ++ "]"
  | scaled size index scale displacement =>
    "[" ++ scaledText size index scale ++ displacementText displacement ++ "]"

def Place.text : Place UInt64 → String
  | register r => r.name
  | memory _ address => address.text

def Place.textWithWidth : Place UInt64 → String
  | register r => r.name
  | memory w address => w.text ++ address.text

def Bare.text : Bare → String
  | nop => "nop"
  | int3 => "int3"
  | leave => "leave"
  | cdq => "cdq"
  | cqo => "cqo"
  | cdqe => "cdqe"
  | cld => "cld"
  | std => "std"
  | ud2 => "ud2"
  | pause => "pause"
  | ret => "ret"
  | cbw => "cbw"
  | cwde => "cwde"
  | cwd => "cwd"
  | pushfq => "pushfq"
  | popfq => "popfq"
  | sahf => "sahf"
  | lahf => "lahf"
  | repRet => "rep ret"
  | int1 => "int1"
  | hlt => "hlt"
  | cmc => "cmc"
  | clc => "clc"
  | stc => "stc"
  | cli => "cli"
  | sti => "sti"
  | syscall => "syscall"
  | rdtsc => "rdtsc"
  | cpuid => "cpuid"

def Arith.text : Arith → String
  | add => "add"
  | or => "or"
  | adc => "adc"
  | sbb => "sbb"
  | and => "and"
  | sub => "sub"
  | xor => "xor"
  | cmp => "cmp"

def Shift.text : Shift → String
  | rol => "rol"
  | ror => "ror"
  | rcl => "rcl"
  | rcr => "rcr"
  | shl => "shl"
  | shr => "shr"
  | sar => "sar"

def Unary.text : Unary → String
  | not => "not"
  | neg => "neg"
  | mul => "mul"
  | imul => "imul"
  | div => "div"
  | idiv => "idiv"
  | inc => "inc"
  | dec => "dec"

def Transfer.text : Transfer → String
  | jmp => "jmp"
  | call => "call"
  | jcc condition => "j" ++ condition.suffix

structure Style where
  widthOfSet : Bool
  registerFirst : Bool
  nearWords : String
  deriving DecidableEq, Repr

namespace Style

/-- Listings leave out the width of memory that can have no other, and the longer form of a jump
goes without saying. -/
def listing : Style := ⟨false, false, ""⟩

/-- Messages show the width of all memory that no register tells, and the form of each jump. -/
def message : Style := ⟨true, true, "near ptr "⟩

end Style

/-- The text of a branch to an address in code of a size, which reaches it with one byte of
displacement or with four. A call has the longer form only and does not name it. -/
def Transfer.textTo (style : Style) (size : CodeSize) (short : Bool) (target : UInt64)
    (transfer : Transfer) : String :=
  let form := if short then "short " else if transfer = .call then "" else style.nearWords
  transfer.text ++ " " ++ form ++ codeAddressText size target

namespace Instruction

def parts (style : Style) : Instruction UInt64 → String × List String
  | bare op => (op.text, [])
  | nopPlace place => ("nop", [place.textWithWidth])
  | interrupt number => ("int", [numberText number.toNat])
  | retPop count => ("ret", [numberText count.toNat])
  | mov dst src => ("mov", [dst.text, src.name])
  | movLoad dst src => ("mov", [dst.name, src.text])
  | movImmediate dst value => ("mov", [dst.textWithWidth, immediateText dst.width value])
  | arith op dst src => (op.text, [dst.text, src.name])
  | arithLoad op dst src => (op.text, [dst.name, src.text])
  | arithImmediate op dst value => (op.text, [dst.textWithWidth, immediateText dst.width value])
  | test dst src => ("test", [dst.text, src.name])
  | testImmediate dst value => ("test", [dst.textWithWidth, immediateText dst.width value])
  | xchg dst src =>
    ("xchg", if style.registerFirst then [src.name, dst.text] else [dst.text, src.name])
  | lea dst src => ("lea", [dst.name, src.text])
  | movzx dst src => ("movzx", [dst.name, src.textWithWidth])
  | movsx dst src => ("movsx", [dst.name, src.textWithWidth])
  | movsxd dst src => ("movsxd", [dst.name, src.textWithWidth])
  | shift op dst count => (op.text, [dst.textWithWidth, numberText count.toNat])
  | shiftByCl op dst => (op.text, [dst.textWithWidth, "cl"])
  | unary op dst => (op.text, [dst.textWithWidth])
  | imul dst src => ("imul", [dst.name, src.text])
  | imulImmediate dst src value =>
    if src = .register dst then ("imul", [dst.name, immediateText dst.width value])
    else ("imul", [dst.name, src.text, immediateText dst.width value])
  | push src => ("push", [src.textWithWidth])
  | pushImmediate value => ("push", [immediateText .qword value])
  | pop dst => ("pop", [dst.textWithWidth])
  | callPlace target => ("call", [target.textWithWidth])
  | jmpPlace target => ("jmp", [target.textWithWidth])
  | set condition dst =>
    ("set" ++ condition.suffix, [if style.widthOfSet then dst.textWithWidth else dst.text])
  | cmov condition dst src => ("cmov" ++ condition.suffix, [dst.name, src.text])

def text (style : Style) (i : Instruction UInt64) : String :=
  match i.parts style with
  | (mnemonic, []) => mnemonic
  | (mnemonic, operands) => mnemonic ++ " " ++ String.intercalate "," operands

end Instruction

end AsmLoader.Machine
