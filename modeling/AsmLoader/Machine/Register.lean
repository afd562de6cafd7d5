/-!
# Registers

The general registers of the processor and their names. A register is one of sixteen at one of
four widths, or the second byte of one of the first four.
-/

namespace AsmLoader.Machine

inductive CodeSize where
  | bits32
  | bits64
  deriving DecidableEq, Repr, Inhabited

namespace CodeSize

def bits : CodeSize → Nat
  | bits32 => 32
  | bits64 => 64

def digits (size : CodeSize) : Nat :=
  size.bits / 4

/-- What is left of an address: 32-bit code sees its low half only. -/
def truncate : CodeSize → UInt64 → UInt64
  | bits32, address => address &&& 0xFFFFFFFF
  | bits64, address => address

/-- The code size of some bits. A target has 32 or 64: code of 16 bits, which a processor can run
as well, is not covered, and is answered like a code size that there is not. -/
def ofBits? : Nat → Option CodeSize
  | 32 => some bits32
  | 64 => some bits64
  | _ => none

theorem ofBits?_bits (s : CodeSize) : ofBits? s.bits = some s := by
  cases s <;> rfl

end CodeSize

inductive Width where
  | byte
  | word
  | dword
  | qword
  deriving DecidableEq, Repr, Inhabited

namespace Width

def bytes : Width → Nat
  | byte => 1
  | word => 2
  | dword => 4
  | qword => 8

def bits (w : Width) : Nat :=
  8 * w.bytes

def count : Width → Nat
  | byte => 0x100
  | word => 0x10000
  | dword => 0x100000000
  | qword => 0x10000000000000000

end Width

/-- A general register: the low part of one of sixteen at a width, or the second byte of one of
the first four. -/
inductive Register where
  | low (width : Width) (number : Fin 16)
  | high (number : Fin 4)
  deriving DecidableEq, Repr

namespace Register

def numberOf (n : Nat) : Fin 16 :=
  Fin.ofNat 16 n

def highOf (n : Nat) : Register :=
  high (Fin.ofNat 4 n)

def accumulator (w : Width) : Register :=
  low w (numberOf 0)

def cl : Register :=
  low .byte (numberOf 1)

def width : Register → Width
  | low w _ => w
  | high _ => .byte

/-- The number that stands for the register in an instruction. A second byte has the number of
the register that is four further. -/
def number : Register → Fin 16
  | low _ n => n
  | high n => ⟨n + 4, by omega⟩

def isHigh : Register → Bool
  | low .. => false
  | high _ => true

def isLongModeOnly : Register → Bool
  | low .qword _ => true
  | low .byte n => 4 ≤ n.val
  | low _ n => 8 ≤ n.val
  | high _ => false

def namesAt : Width → List String
  | .qword => ["rax", "rcx", "rdx", "rbx", "rsp", "rbp", "rsi", "rdi",
    "r8", "r9", "r10", "r11", "r12", "r13", "r14", "r15"]
  | .dword => ["eax", "ecx", "edx", "ebx", "esp", "ebp", "esi", "edi",
    "r8d", "r9d", "r10d", "r11d", "r12d", "r13d", "r14d", "r15d"]
  | .word => ["ax", "cx", "dx", "bx", "sp", "bp", "si", "di",
    "r8w", "r9w", "r10w", "r11w", "r12w", "r13w", "r14w", "r15w"]
  | .byte => ["al", "cl", "dl", "bl", "spl", "bpl", "sil", "dil",
    "r8b", "r9b", "r10b", "r11b", "r12b", "r13b", "r14b", "r15b"]

def highNames : List String := ["ah", "ch", "dh", "bh"]

def name : Register → String
  | low w n => (namesAt w).getD n.val ""
  | high n => highNames.getD n.val ""

def all : List Register :=
  ([Width.qword, .dword, .word, .byte].flatMap fun w => (List.finRange 16).map (low w)) ++
    (List.finRange 4).map high

def ofName? (name : String) : Option Register :=
  let lower := name.toLower
  all.find? fun r => r.name == lower

end Register

end AsmLoader.Machine
