import AsmLoader.Machine.Condition
import AsmLoader.Machine.Register
/-!
# Instructions

The instructions of the processor that this library knows, as what they do rather than how they
are encoded. Some of them have no mnemonic in a source, but may be met in code. Memory may be
named by a reference of any type `α`: a label while code is put together, an address once it has
a place.

Branches to a code address stand apart from the other instructions, because their length depends
on how far they reach.
-/

namespace AsmLoader.Machine

def maxInstructionSize : Nat := 15

inductive Scale where
  | one
  | two
  | four
  | eight
  deriving DecidableEq, Repr

namespace Scale

def factor : Scale → Nat
  | one => 1
  | two => 2
  | four => 4
  | eight => 8

def code : Scale → Nat
  | one => 0
  | two => 1
  | four => 2
  | eight => 3

def ofCode (n : Nat) : Scale :=
  [one, two, four, eight].getD (n % 4) one

end Scale

/-- A place in memory: one that is named, one at a base register with an index and a
displacement, or one at an index and a displacement alone. The registers of an address all have
one size. -/
inductive Address (α : Type) where
  | relative (target : α)
  | based (size : CodeSize) (base : Fin 16) (index : Option (Fin 16 × Scale))
      (displacement : Int32)
  | scaled (size : CodeSize) (index : Fin 16) (scale : Scale) (displacement : Int32)
  deriving DecidableEq, Repr

/-- What an instruction reads or writes: a register, or memory of a width. -/
inductive Place (α : Type) where
  | register (r : Register)
  | memory (width : Width) (address : Address α)
  deriving DecidableEq, Repr

def Place.width {α : Type} : Place α → Width
  | .register r => r.width
  | .memory w _ => w

inductive Bare where
  | nop | int3 | leave | cdq | cqo | cdqe | cld | std | ud2 | pause | ret
  | cbw | cwde | cwd | pushfq | popfq | sahf | lahf | repRet | int1 | hlt
  | cmc | clc | stc | cli | sti | syscall | rdtsc | cpuid
  deriving DecidableEq, Repr

inductive Arith where
  | add | or | adc | sbb | and | sub | xor | cmp
  deriving DecidableEq, Repr

inductive Shift where
  | rol | ror | rcl | rcr | shl | shr | sar
  deriving DecidableEq, Repr

inductive Unary where
  | not | neg | mul | imul | div | idiv | inc | dec
  deriving DecidableEq, Repr

inductive Transfer where
  | jmp
  | call
  | jcc (condition : Condition)
  deriving DecidableEq, Repr

/-- An instruction. An immediate is the signed number that it is worth at the width of the
operation. -/
inductive Instruction (α : Type) where
  | bare (op : Bare)
  | nopPlace (place : Place α)
  | interrupt (number : UInt8)
  | retPop (count : UInt16)
  | mov (dst : Place α) (src : Register)
  | movLoad (dst : Register) (src : Address α)
  | movImmediate (dst : Place α) (value : Int64)
  | arith (op : Arith) (dst : Place α) (src : Register)
  | arithLoad (op : Arith) (dst : Register) (src : Address α)
  | arithImmediate (op : Arith) (dst : Place α) (value : Int64)
  | test (dst : Place α) (src : Register)
  | testImmediate (dst : Place α) (value : Int64)
  | xchg (dst : Place α) (src : Register)
  | lea (dst : Register) (src : Address α)
  | movzx (dst : Register) (src : Place α)
  | movsx (dst : Register) (src : Place α)
  | movsxd (dst : Register) (src : Place α)
  | shift (op : Shift) (dst : Place α) (count : UInt8)
  | shiftByCl (op : Shift) (dst : Place α)
  | unary (op : Unary) (dst : Place α)
  | imul (dst : Register) (src : Place α)
  | imulImmediate (dst : Register) (src : Place α) (value : Int64)
  | push (src : Place α)
  | pushImmediate (value : Int64)
  | pop (dst : Place α)
  | callPlace (target : Place α)
  | jmpPlace (target : Place α)
  | set (condition : Condition) (dst : Place α)
  | cmov (condition : Condition) (dst : Register) (src : Place α)
  deriving DecidableEq, Repr

variable {α β : Type}

def Address.map (f : α → β) : Address α → Address β
  | relative target => relative (f target)
  | based size base index displacement => based size base index displacement
  | scaled size index scale displacement => scaled size index scale displacement

def Place.map (f : α → β) : Place α → Place β
  | register r => register r
  | memory w address => memory w (address.map f)

namespace Instruction

def map (f : α → β) : Instruction α → Instruction β
  | bare op => bare op
  | nopPlace place => nopPlace (place.map f)
  | interrupt number => interrupt number
  | retPop count => retPop count
  | mov dst src => mov (dst.map f) src
  | movLoad dst src => movLoad dst (src.map f)
  | movImmediate dst value => movImmediate (dst.map f) value
  | arith op dst src => arith op (dst.map f) src
  | arithLoad op dst src => arithLoad op dst (src.map f)
  | arithImmediate op dst value => arithImmediate op (dst.map f) value
  | test dst src => test (dst.map f) src
  | testImmediate dst value => testImmediate (dst.map f) value
  | xchg dst src => xchg (dst.map f) src
  | lea dst src => lea dst (src.map f)
  | movzx dst src => movzx dst (src.map f)
  | movsx dst src => movsx dst (src.map f)
  | movsxd dst src => movsxd dst (src.map f)
  | shift op dst count => shift op (dst.map f) count
  | shiftByCl op dst => shiftByCl op (dst.map f)
  | unary op dst => unary op (dst.map f)
  | imul dst src => imul dst (src.map f)
  | imulImmediate dst src value => imulImmediate dst (src.map f) value
  | push src => push (src.map f)
  | pushImmediate value => pushImmediate value
  | pop dst => pop (dst.map f)
  | callPlace target => callPlace (target.map f)
  | jmpPlace target => jmpPlace (target.map f)
  | set condition dst => set condition (dst.map f)
  | cmov condition dst src => cmov condition dst (src.map f)

end Instruction

end AsmLoader.Machine
