import AsmLoader.Machine.Register
/-!
# Calling conventions

What a caller and the code it calls agree on: the registers that hold arguments and results,
those that the called code gives back unchanged, and the layout of the stack around a call.
-/

namespace AsmLoader.Machine

inductive Convention where
  | sysV64
  | win64
  | cdecl32
  deriving DecidableEq, Repr, Inhabited

namespace Convention

def host : Convention := sysV64

def name : Convention → String
  | sysV64 => "SysV64"
  | win64 => "Win64"
  | cdecl32 => "Cdecl32"

def savedRegisters : Convention → List String
  | sysV64 => ["rbx", "rbp", "r12", "r13", "r14", "r15"]
  | win64 => ["rbx", "rbp", "rdi", "rsi", "r12", "r13", "r14", "r15"]
  | cdecl32 => ["ebx", "ebp", "esi", "edi"]

def savedVectorRegisters : Convention → List String
  | win64 =>
    ["xmm6", "xmm7", "xmm8", "xmm9", "xmm10", "xmm11", "xmm12", "xmm13", "xmm14", "xmm15"]
  | sysV64 | cdecl32 => []

def argumentRegisters : Convention → List String
  | sysV64 => ["rdi", "rsi", "rdx", "rcx", "r8", "r9"]
  | win64 => ["rcx", "rdx", "r8", "r9"]
  | cdecl32 => []

def resultRegister : Convention → String
  | sysV64 | win64 => "rax"
  | cdecl32 => "eax"

def stackAlignment (_ : Convention) : Nat := 16

/-- The bytes that a caller leaves to the called code above the return address. -/
def shadowSpace : Convention → Nat
  | win64 => 32
  | sysV64 | cdecl32 => 0

def slotSize : Convention → Nat
  | sysV64 | win64 => 8
  | cdecl32 => 4

def codeSize : Convention → CodeSize
  | sysV64 | win64 => .bits64
  | cdecl32 => .bits32

def saves (c : Convention) (register : String) : Bool :=
  (c.savedRegisters ++ c.savedVectorRegisters).contains register

/-- The least frame of at least `size` bytes that, together with the `pushed` bytes above it,
keeps the stack aligned. -/
def alignedFrame (c : Convention) (size pushed : Nat) : Nat :=
  (size + pushed + (c.stackAlignment - 1)) / c.stackAlignment * c.stackAlignment - pushed

end Convention

end AsmLoader.Machine
