import AsmLoader.Machine.Bytes
import AsmLoader.Machine.Instruction
/-!
# Prefixes

What stands in front of an opcode of 64-bit code, and what it says about the operands. A reader
takes bytes from the front of the code; where it gives up it leaves the bytes that it has not
read.
-/

namespace AsmLoader.Machine

/-- A reader of bytes: its answer and the bytes after it, or the bytes that it has left where it
gave up. -/
abbrev Reader := StateT (List UInt8) (Except (List UInt8))

namespace Reader

def fail {α : Type} : Reader α := fun bytes => .error bytes

def byte : Reader UInt8 := fun bytes =>
  match bytes with
  | b :: rest => .ok (b, rest)
  | [] => .error []

def bytes (count : Nat) : Reader (List UInt8) := fun bytes =>
  if count ≤ bytes.length then .ok (bytes.take count, bytes.drop count) else .error bytes

def signed (count : Nat) : Reader Int64 := do
  let bytes ← Reader.bytes count
  return Int64.ofInt (ofSignedBytes bytes)

end Reader

/-- The prefixes of an instruction. The extension holds the four low bits of its prefix. -/
structure Prefixes where
  narrow : Bool
  shortAddress : Bool
  repeated : Bool
  extension : Option Nat
  deriving DecidableEq, Repr

namespace Prefixes

def none : Prefixes := ⟨false, false, false, Option.none⟩

def bit (p : Prefixes) (i : Nat) : Nat :=
  p.extension.elim 0 fun e => (e >>> i) % 2

def wide (p : Prefixes) : Bool := p.bit 3 == 1

def width (p : Prefixes) : Width :=
  if p.wide then .qword else if p.narrow then .word else .dword

def widthOf (p : Prefixes) (opcode : Nat) : Width :=
  if opcode % 2 = 0 then .byte else p.width

def stackWidth (p : Prefixes) : Width :=
  if p.narrow then .word else .qword

def addressSize (p : Prefixes) : CodeSize :=
  if p.shortAddress then .bits32 else .bits64

/-- The register of a number. Without an extension four of the numbers of bytes mean the second
bytes of the first registers. -/
def register (p : Prefixes) (w : Width) (n : Nat) : Register :=
  if w = .byte ∧ p.extension.isNone ∧ 4 ≤ n ∧ n < 8 then .highOf (n - 4)
  else .low w (Register.numberOf n)

/-- Reads prefixes. An extension counts only if it is the last of them. -/
def read : Prefixes → List UInt8 → Prefixes × List UInt8
  | p, [] => (p, [])
  | p, b :: rest =>
    if b = 0x66 then read { p with narrow := true, extension := Option.none } rest
    else if b = 0x67 then read { p with shortAddress := true, extension := Option.none } rest
    else if b = 0xF3 then read { p with repeated := true, extension := Option.none } rest
    else if 0x40 ≤ b.toNat ∧ b.toNat < 0x50 then
      read { p with extension := some (b.toNat - 0x40) } rest
    else (p, b :: rest)

end Prefixes

end AsmLoader.Machine
